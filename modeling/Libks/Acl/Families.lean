import Libks.Acl.Cidr

/-!
# Address families in lists

The rules of a list of networks that match an address, and the one among them that
decides: it has as many bits as each that has been added after it, and more than each
that has been added before. The rules of the other family should make no difference.

* `Decides`, `verdict_of_decides`, `verdict_of_none`: the loops over a list find the rule
  that decides;
* `families_apart_iff`: the other family makes no difference to an IPv4 address; to one
  of IPv6 it makes one if a rule that is given by an address and a mask decides. No
  family has been set for such a rule, so that it is tried for both.
-/

namespace Libks

open Base

variable {tested : NetworkNode → Bool} {nodes xs ys : List NetworkNode} {r node : NetworkNode}
  {v : Verdict} {P : InetPton}

/-- The rule of a list that decides about what it matches: no later one of the list that matches
    has as many bits, and no earlier one has more. -/
def Decides (tested : NetworkNode → Bool) (nodes : List NetworkNode) (r : NetworkNode) : Prop :=
  ∃ xs ys, nodes = xs ++ r :: ys ∧ tested r ∧ (∀ q ∈ xs, tested q → q.bits ≤ r.bits) ∧
    ∀ q ∈ ys, tested q → q.bits < r.bits

theorem visit_of_not (h : ¬tested node) : visit tested v node = v := if_neg fun h' => h h'.1

/-- Rules with fewer bits do not overrule. -/
theorem foldl_visit_of_lt (h : ∀ q ∈ ys, tested q → q.bits < v.bits) :
    ys.foldl (visit tested) v = v := by
  induction ys with
  | nil => rfl
  | cons q ys ih =>
    obtain ⟨hq, hys⟩ := List.forall_mem_cons.1 h
    have hvisit : visit tested v q = v := if_neg fun h' => absurd h'.2 (Nat.not_le.2 (hq h'.1))
    rw [List.foldl_cons, hvisit, ih hys]

/-- Rules with no more bits leave no more. -/
theorem bits_foldl_visit {n : ℕ} (hv : v.bits ≤ n) (h : ∀ q ∈ xs, tested q → q.bits ≤ n) :
    (xs.foldl (visit tested) v).bits ≤ n := by
  induction xs generalizing v with
  | nil => exact hv
  | cons q xs ih =>
    obtain ⟨hq, hxs⟩ := List.forall_mem_cons.1 h
    refine ih ?_ hxs
    rw [visit]
    split_ifs with hvisit
    · exact hq hvisit.1
    · exact hv

/-- The rule that decides gives the verdict. -/
theorem verdict_of_decides (h : Decides tested nodes r) (hv : v.bits = 0) :
    nodes.foldl (visit tested) v = ⟨r.ok, r.bits, r.token⟩ := by
  obtain ⟨xs, ys, rfl, hr, hxs, hys⟩ := h
  have hbits := bits_foldl_visit (hv ▸ Nat.zero_le _ : v.bits ≤ r.bits) hxs
  rw [List.foldl_append, List.foldl_cons, visit, if_pos ⟨hr, hbits⟩, foldl_visit_of_lt hys]

/-- Without a rule that matches, nothing is changed. -/
theorem verdict_of_none (h : ∀ q ∈ nodes, ¬tested q) : nodes.foldl (visit tested) v = v :=
  foldl_visit_of_lt fun q hq ht => absurd ht (h q hq)

/-- If a rule matches, one decides. -/
theorem exists_decides (h : ∃ q ∈ nodes, tested q) : ∃ r, Decides tested nodes r := by
  induction nodes with
  | nil => obtain ⟨q, hq, -⟩ := h; exact absurd hq List.not_mem_nil
  | cons q nodes ih =>
    by_cases hrest : ∃ q ∈ nodes, tested q
    · obtain ⟨r, xs, ys, rfl, hr, hxs, hys⟩ := ih hrest
      by_cases hq : tested q ∧ r.bits < q.bits
      · refine ⟨q, [], xs ++ r :: ys, rfl, hq.1, fun _ h => absurd h List.not_mem_nil, ?_⟩
        intro p hp ht
        refine Nat.lt_of_le_of_lt ?_ hq.2
        rcases List.mem_append.1 hp with hp | hp
        · exact hxs p hp ht
        · rcases List.mem_cons.1 hp with rfl | hp
          · exact Nat.le_refl _
          · exact Nat.le_of_lt (hys p hp ht)
      · refine ⟨r, q :: xs, ys, rfl, hr, List.forall_mem_cons.2 ⟨fun ht => ?_, hxs⟩, hys⟩
        exact Nat.not_lt.1 fun hlt => hq ⟨ht, hlt⟩
    · have hq : tested q := by
        obtain ⟨p, hp, ht⟩ := h
        rcases List.mem_cons.1 hp with rfl | hp
        · exact ht
        · exact absurd ⟨p, hp, ht⟩ hrest
      refine ⟨q, [], nodes, rfl, hq, fun _ h => absurd h List.not_mem_nil, fun p hp ht => ?_⟩
      exact absurd ⟨p, hp, ht⟩ hrest

/-- A rule that decides still does without some of the others. -/
theorem Decides.filter {keep : NetworkNode → Bool} (h : Decides tested nodes r) (hr : keep r) :
    Decides tested (nodes.filter keep) r := by
  obtain ⟨xs, ys, rfl, ht, hxs, hys⟩ := h
  refine ⟨xs.filter keep, ys.filter keep, ?_, ht, fun q hq => hxs q (List.mem_of_mem_filter hq),
    fun q hq => hys q (List.mem_of_mem_filter hq)⟩
  rw [List.filter_append, List.filter_cons_of_pos hr]

/-- Rules that are skipped may as well be left out. -/
theorem foldl_visit_filter {keep : NetworkNode → Bool} (h : ∀ q, ¬keep q → ¬tested q) :
    (nodes.filter keep).foldl (visit tested) v = nodes.foldl (visit tested) v := by
  induction nodes generalizing v with
  | nil => rfl
  | cons q nodes ih =>
    by_cases hq : keep q
    · rw [List.filter_cons_of_pos hq, List.foldl_cons, List.foldl_cons, ih]
    · rw [List.filter_cons_of_neg hq, List.foldl_cons, visit_of_not (h q hq), ih]

/-! ## Lists that are built -/

section

variable {Q : NetworkNode → Prop} {list : NetworkList} (hQ : ∀ r, r.family ≠ none → Q r)
  (h : ∀ r ∈ list.nodes, Q r) (P : InetPton)

include hQ h

/-- The rules that are added by text have a family. -/
theorem forall_performAddCidrToken (stack : IpStack) (cidrStr : List UInt8) (ok : Bool)
    (token : Option (List UInt8)) :
    Ends (fun _ => True) (fun r => ∀ q ∈ r.2.nodes, Q q)
      (performAddCidrToken P stack list cidrStr ok token) := by
  rw [performAddCidrToken]
  dsimp only
  cases ksParseCidr P ((mappedAddr cidrStr).getD cidrStr) stack.ip stack.mask with
  | error x => trivial
  | ok c =>
    cases c with
    | none => exact h
    | some c => exact List.forall_mem_cons.2 ⟨hQ _ (Option.some_ne_none _), h⟩

theorem forall_addTokens (size : ℕ) (m : Mem) (ok : Bool) (token : Option (List UInt8))
    (status : Status) (ps : List (ℕ × IpStack)) :
    Ends (fun _ => True) (fun r => ∀ q ∈ r.2.nodes, Q q)
      (addTokens P size m ok token status list ps) := by
  induction ps generalizing status list with
  | nil => exact h
  | cons p ps ih =>
    obtain ⟨p, stack⟩ := p
    rw [addTokens]
    cases loadStr size m p with
    | error x => trivial
    | ok s => exact (forall_performAddCidrToken hQ h P stack s ok token).bind fun r hr => ih hr _

theorem forall_addCidrToken (stack : ℕ → IpStack) (cidrStr : List UInt8) (ok : Bool)
    (token : Option (List UInt8)) :
    Ends (fun _ => True) (fun r => ∀ q ∈ r.2.nodes, Q q)
      (addCidrToken P stack list cidrStr ok token) := by
  rw [addCidrToken]
  split_ifs
  · dsimp only
    cases ksSeparateString (cidrStr.length + 1) (Mem.write (fun _ => 0) 0 (cidrStr ++ [0])) 0 44
      32 with
    | error x => trivial
    | ok r => exact forall_addTokens hQ h P _ _ ok token _ _
  · exact forall_performAddCidrToken hQ h P _ cidrStr ok token

end

/-- A rule without a family has no token. -/
def Untold (list : NetworkList) : Prop := ∀ r ∈ list.nodes, r.family = none → r.token = none

theorem untold_buildList (P : InetPton) (defaultType : Bool) (calls : List AclCall) :
    Ends (fun _ => True) Untold (buildList P defaultType calls) := by
  refine Ends.foldlM (fun list call h => ?_) (fun _ hr => absurd hr List.not_mem_nil) calls
  cases call with
  | addCidrToken stack cidrStr ok token =>
    have hadd := forall_addCidrToken (Q := fun r => r.family = none → r.token = none)
      (fun r hr hn => absurd hn hr) h P stack cidrStr ok token
    dsimp only
    cases haddeq : addCidrToken P stack list cidrStr ok token with
    | error x => trivial
    | ok r =>
      rw [haddeq] at hadd
      exact hadd
  | addHostMask stack host maskStr ok => exact List.forall_mem_cons.2 ⟨fun _ => rfl, h⟩

/-! ## The families -/

namespace NetworkList

variable (list : NetworkList)

/-- The rules of IPv6. -/
def only6 : NetworkList := { list with nodes := list.nodes.filter (·.family = some .inet6) }

/-- The other rules. -/
def without6 : NetworkList := { list with nodes := list.nodes.filter (·.family ≠ some .inet6) }

/-- A rule is tried for an address of IPv6, and matches it. -/
def tried6 (ip : KsIp) (node : NetworkNode) : Bool :=
  node.family ≠ some .inet ∧ ksTestv6Subnet ip node.ip node.mask

/-- No rule without a family decides about an address of IPv6, or it decides as it would be decided
    without these rules. -/
def Apart (ip : KsIp) (token : Option (List UInt8)) : Prop :=
  ∀ r, Decides (tried6 ip) list.nodes r → r.family = none →
    (∃ r', Decides (tried6 ip) list.only6.nodes r' ∧ r'.ok = r.ok ∧ r'.token = none) ∨
    (∀ q ∈ list.only6.nodes, ¬tried6 ip q) ∧ list.defaultType = r.ok ∧ token = none

end NetworkList

/-- An address is taken for one of IPv6. -/
def ofIPv6 (ipStr : List UInt8) : Bool := mappedAddr ipStr = none ∧ 58 ∈ ipStr

theorem readIp_fst (P : InetPton) (ipStr : List UInt8) (ip : KsIp) :
    (readIp P ipStr ip).1 = ofIPv6 ipStr := by
  rw [readIp, ofIPv6]
  cases mappedAddr ipStr with
  | some t => simp
  | none => by_cases h : 58 ∈ ipStr <;> simp [h]

variable {list : NetworkList}

/-- What is decided about an address of IPv4 is decided without the rules of IPv6. -/
theorem validateIpToken_without6 (list : NetworkList) (ip : ℕ) (token : Option (List UInt8)) :
    validateIpToken list.without6 ip token = validateIpToken list ip token := by
  refine foldl_visit_filter fun q hq => ?_
  simp only [decide_eq_true_eq, not_not] at hq
  simp [hq]

theorem Decides.mem (h : Decides tested nodes r) : r ∈ nodes ∧ tested r := by
  obtain ⟨xs, ys, rfl, hr, -, -⟩ := h
  exact ⟨List.mem_append_right _ (List.mem_cons_self ..), hr⟩

/-- What is decided about an address of IPv6 is decided without the other rules if and only if none
    of them without a family decides. -/
theorem validateIp6Token_only6_iff (hlist : Untold list) (ip : KsIp)
    (token : Option (List UInt8)) :
    ((validateIp6Token list ip token).ok = (validateIp6Token list.only6 ip token).ok ∧
      (validateIp6Token list ip token).token = (validateIp6Token list.only6 ip token).token) ↔
    list.Apart ip token := by
  have hall {r : NetworkNode} (hr : Decides (NetworkList.tried6 ip) list.nodes r) :
      validateIp6Token list ip token = ⟨r.ok, r.bits, r.token⟩ := verdict_of_decides hr rfl
  have honly {r : NetworkNode} (hr : Decides (NetworkList.tried6 ip) list.only6.nodes r) :
      validateIp6Token list.only6 ip token = ⟨r.ok, r.bits, r.token⟩ := verdict_of_decides hr rfl
  have hnone (hno : ∀ q ∈ list.only6.nodes, ¬NetworkList.tried6 ip q) :
      validateIp6Token list.only6 ip token = ⟨list.defaultType, 0, token⟩ := verdict_of_none hno
  constructor
  · rintro ⟨hok, htoken⟩ r hr hfamily
    rw [hall hr] at hok htoken
    have hr0 : r.token = none := hlist r hr.mem.1 hfamily
    -- The rule that decides has no family: another one decides without it, or none.
    by_cases h6 : ∃ q ∈ list.only6.nodes, NetworkList.tried6 ip q
    · obtain ⟨r', hr'⟩ := exists_decides h6
      rw [honly hr'] at hok htoken
      exact .inl ⟨r', hr', hok.symm, htoken.symm.trans hr0⟩
    · have hno : ∀ q ∈ list.only6.nodes, ¬NetworkList.tried6 ip q :=
        fun q hq ht => h6 ⟨q, hq, ht⟩
      rw [hnone hno] at hok htoken
      exact .inr ⟨hno, hok.symm, htoken.symm.trans hr0⟩
  · intro hapart
    by_cases h : ∃ q ∈ list.nodes, NetworkList.tried6 ip q
    · obtain ⟨r, hr⟩ := exists_decides h
      rw [hall hr]
      cases hfamily : r.family with
      | none =>
        have hr0 : r.token = none := hlist r hr.mem.1 hfamily
        rcases hapart r hr hfamily with ⟨r', hr', hok, htoken⟩ | ⟨hno, hok, htoken⟩
        · rw [honly hr']
          exact ⟨hok.symm, hr0.trans htoken.symm⟩
        · rw [hnone hno]
          exact ⟨hok.symm, hr0.trans htoken.symm⟩
      | some f =>
        cases f with
        -- A rule for IPv4 is not tried, and one for IPv6 decides in both lists.
        | inet =>
          have ht := hr.mem.2
          rw [NetworkList.tried6, hfamily] at ht
          exact absurd rfl (of_decide_eq_true ht).1
        | inet6 =>
          have hr6 : Decides (NetworkList.tried6 ip) list.only6.nodes r :=
            hr.filter (by rw [hfamily]; rfl)
          rw [honly hr6]
          exact ⟨rfl, rfl⟩
    · have hno : ∀ q ∈ list.nodes, ¬NetworkList.tried6 ip q := fun q hq ht => h ⟨q, hq, ht⟩
      have hboth : validateIp6Token list ip token = ⟨list.defaultType, 0, token⟩ :=
        verdict_of_none hno
      rw [hboth, hnone fun q hq => hno q (List.mem_of_mem_filter hq)]
      exact ⟨rfl, rfl⟩

/-- The rules of the other family make no difference to what is decided about an address, if it is
    one of IPv4; if it is one of IPv6, they make none if and only if no rule that is given by an
    address and a mask decides about it. -/
theorem families_apart_iff {defaultType : Bool} {calls : List AclCall}
    (hlist : buildList P defaultType calls = .ok list) (stack : IpStack) (ipStr : List UInt8)
    (token : Option (List UInt8)) :
    ksCheckNetworkListIpToken P stack ipStr list token =
      ksCheckNetworkListIpToken P stack ipStr
        (if ofIPv6 ipStr then list.only6 else list.without6) token ↔
    (ofIPv6 ipStr → list.Apart (readIp P ipStr stack.ip).2 token) := by
  have huntold := (untold_buildList P defaultType calls).ok hlist
  rw [ksCheckNetworkListIpToken, ksCheckNetworkListIpToken]
  simp only [readIp_fst]
  by_cases h6 : ofIPv6 ipStr
  · rw [if_pos h6, if_pos h6, if_pos h6, Prod.mk.injEq, validateIp6Token_only6_iff huntold]
    exact ⟨fun h _ => h, fun h => h h6⟩
  · rw [if_neg h6, if_neg h6, if_neg h6, validateIpToken_without6]
    exact iff_of_true rfl fun h => absurd h h6

/-- A rule that does not match an address of IPv6 makes no difference to it. -/
theorem families_apart_loopback : ∃ list, buildList fewPton false
    [.addHostMask default (ascii "10.0.0.0") (ascii "255.0.0.0") true] = .ok list ∧
    ksCheckNetworkListIpToken fewPton default (ascii "::1") list none =
      ksCheckNetworkListIpToken fewPton default (ascii "::1") list.only6 none := by
  obtain ⟨list, hlist⟩ : ∃ list, buildList fewPton false
      [.addHostMask default (ascii "10.0.0.0") (ascii "255.0.0.0") true] = .ok list := ⟨_, rfl⟩
  refine ⟨list, hlist, (families_apart_iff hlist default (ascii "::1") none).2 ?_⟩
  intro _ r hr
  have hno : ∀ q ∈ list.nodes, ¬NetworkList.tried6
      (readIp fewPton (ascii "::1") (default : IpStack).ip).2 q := by
    obtain rfl := Except.ok.inj hlist
    decide +kernel
  exact absurd hr.mem.2 (hno r hr.mem.1)

/-- An address and a mask of IPv4 that are allowed, and an address of IPv6 that is allowed for
    that. -/
theorem not_families_apart : ∃ list, buildList fewPton false
    [.addHostMask default (ascii "10.0.0.0") (ascii "255.0.0.0") true] = .ok list ∧
    ksCheckNetworkListIpToken fewPton default (ascii "2001:db0a::1") list none = (true, none) ∧
    ksCheckNetworkListIpToken fewPton default (ascii "2001:db0a::1") list.only6 none =
      (false, none) := by
  refine ⟨_, rfl, ?_⟩
  decide +kernel

end Libks
