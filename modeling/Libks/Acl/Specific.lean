import Libks.Acl.Families
import Libks.Base.Argmax

/-!
# The most specific rule

A call that adds rules puts them in front of those that are there, whatever these
are. So the loops over a list go through the rules from the last one added to the
first, and what they come to is what the first of the longest matching prefixes says.

* `rulesOf`, `buildList_eq`: a list is made of what each call adds;
* `validate_eq`: the loops find the rule with the longest prefix among those that
  match, and the earliest of several;
* `most_specific_decides`: rules that do not match, and the order of rules with
  prefixes of distinct lengths, make no difference.
-/

namespace Libks

open Base

variable {P : InetPton} {r : NetworkNode} {d : Bool}

/-! ## What a call adds -/

/-- The list with the rules of another one in front of its own. -/
def NetworkList.behind (list front : NetworkList) : NetworkList :=
  { list with nodes := front.nodes ++ list.nodes }

/-- A list without rules. -/
def noRules : NetworkList := ⟨[], false⟩

theorem behind_behind (l₁ l₂ l₃ : NetworkList) :
    l₁.behind (l₂.behind l₃) = (l₁.behind l₂).behind l₃ := by
  rw [NetworkList.behind, NetworkList.behind, NetworkList.behind, List.append_assoc]
  rfl

theorem performAddCidrToken_behind (P : InetPton) (stack : IpStack) (list : NetworkList)
    (s : List UInt8) (ok : Bool) (token : Option (List UInt8)) :
    performAddCidrToken P stack list s ok token =
      (performAddCidrToken P stack noRules s ok token).map (Prod.map id list.behind) := by
  rw [performAddCidrToken, performAddCidrToken]
  dsimp only
  cases ksParseCidr P ((mappedAddr s).getD s) stack.ip stack.mask with
  | error x => rfl
  | ok c => cases c <;> rfl

theorem addTokens_behind (P : InetPton) (size : ℕ) (m : Mem) (ok : Bool)
    (token : Option (List UInt8)) (status : Status) (list l : NetworkList)
    (ps : List (ℕ × IpStack)) :
    addTokens P size m ok token status (list.behind l) ps =
      (addTokens P size m ok token status l ps).map (Prod.map id list.behind) := by
  induction ps generalizing status l with
  | nil => rfl
  | cons a ps ih =>
    obtain ⟨p, stack⟩ := a
    rw [addTokens, addTokens]
    cases loadStr size m p with
    | error x => rfl
    | ok s =>
      rw [ok_bind, ok_bind, performAddCidrToken_behind P stack (list.behind l),
        performAddCidrToken_behind P stack l]
      cases performAddCidrToken P stack noRules s ok token with
      | error x => rfl
      | ok r =>
        dsimp only [Except.map, Prod.map, id]
        rw [ok_bind, ok_bind, ← behind_behind]
        exact ih _ _

theorem addCidrToken_behind (P : InetPton) (stack : ℕ → IpStack) (list : NetworkList)
    (s : List UInt8) (ok : Bool) (token : Option (List UInt8)) :
    addCidrToken P stack list s ok token =
      (addCidrToken P stack noRules s ok token).map (Prod.map id list.behind) := by
  rw [addCidrToken, addCidrToken]
  split_ifs
  · dsimp only
    cases ksSeparateString (s.length + 1) (Mem.write (fun _ => 0) 0 (s ++ [0])) 0 44 32 with
    | error x => rfl
    | ok a => exact addTokens_behind P _ _ ok token .success list noRules _
  · exact performAddCidrToken_behind P _ list s ok token

/-- The rules that a call adds, in order. -/
def rulesOf (P : InetPton) : AclCall → Except Fault (List NetworkNode)
  | .addCidrToken stack s ok token =>
    (addCidrToken P stack noRules s ok token).map fun r => r.2.nodes.reverse
  | .addHostMask stack host mask ok => .ok (addHostMask P stack noRules host mask ok).nodes

/-- The calls of `ks_network_list_add_cidr_token`. -/
def IsCidr : AclCall → Prop
  | .addCidrToken _ _ _ _ => True
  | .addHostMask _ _ _ _ => False

/-- A list with what a call adds. -/
theorem addCall_eq (P : InetPton) (list : NetworkList) (call : AclCall) :
    (match call with
      | .addCidrToken stack s ok token => Prod.snd <$> addCidrToken P stack list s ok token
      | .addHostMask stack host mask ok => .ok (addHostMask P stack list host mask ok)) =
      (rulesOf P call).map fun rs => { list with nodes := rs.reverse ++ list.nodes } := by
  cases call with
  | addCidrToken stack s ok token =>
    dsimp only [rulesOf]
    rw [addCidrToken_behind]
    cases addCidrToken P stack noRules s ok token with
    | error x => rfl
    | ok a =>
      dsimp only [Except.map, Functor.map, Prod.map]
      rw [List.reverse_reverse]
      rfl
  | addHostMask stack host mask ok => rfl

/-- A list is made of the rules that the calls add, the last one first. -/
theorem buildList_eq (P : InetPton) (d : Bool) (calls : List AclCall) :
    buildList P d calls =
      (calls.mapM (rulesOf P)).map fun rss => ⟨rss.flatten.reverse, d⟩ := by
  have hgen : ∀ list : NetworkList, calls.foldlM (fun list call =>
      match call with
      | .addCidrToken stack s ok token => Prod.snd <$> addCidrToken P stack list s ok token
      | .addHostMask stack host mask ok => .ok (addHostMask P stack list host mask ok)) list =
      (calls.mapM (rulesOf P)).map fun rss =>
        { list with nodes := rss.flatten.reverse ++ list.nodes } := by
    induction calls with
    | nil => exact fun list => rfl
    | cons call calls ih =>
      intro list
      rw [List.foldlM_cons, addCall_eq, List.mapM_cons]
      cases rulesOf P call with
      | error x => rfl
      | ok rs =>
        rw [ok_bind]
        refine (ih _).trans ?_
        cases calls.mapM (rulesOf P) with
        | error x => rfl
        | ok rss =>
          dsimp only [Except.map]
          rw [ok_bind]
          dsimp only [pure, Except.pure, Except.map]
          rw [List.flatten_cons, List.reverse_append, List.append_assoc]
  refine (hgen _).trans ?_
  simp only [List.append_nil]

/-- The rules that are added by text have a family. -/
theorem family_of_mapM {calls : List AclCall} {rss : List (List NetworkNode)}
    (hcalls : ∀ call ∈ calls, IsCidr call) (h : calls.mapM (rulesOf P) = .ok rss) :
    ∀ r ∈ rss.flatten, r.family ≠ none := by
  induction calls generalizing rss with
  | nil =>
    cases h
    exact fun r hr => absurd hr List.not_mem_nil
  | cons call calls ih =>
    obtain ⟨hcall, hcalls⟩ := List.forall_mem_cons.1 hcalls
    rw [List.mapM_cons] at h
    obtain ⟨rs, hrs, h⟩ := bind_eq_ok.1 h
    obtain ⟨rss', hrss, h⟩ := bind_eq_ok.1 h
    cases h
    intro r hr
    rw [List.flatten_cons, List.mem_append] at hr
    rcases hr with hr | hr
    · cases call with
      | addCidrToken stack s ok token =>
        have hadd : Ends (fun _ => True) (fun a => ∀ r ∈ a.2.nodes, r.family ≠ none)
            (addCidrToken P stack noRules s ok token) :=
          forall_addCidrToken (fun _ hf => hf) (fun _ hr => absurd hr List.not_mem_nil) P stack s
            ok token
        rw [rulesOf] at hrs
        cases ha : addCidrToken P stack noRules s ok token with
        | error x =>
          rw [ha] at hrs
          cases hrs
        | ok a =>
          rw [ha] at hrs hadd
          cases hrs
          exact hadd r (List.mem_reverse.1 hr)
      | addHostMask => exact hcall.elim
    · exact ih hcalls hrss r hr

/-! ## What is decided -/

/-- An address that a list is asked about. -/
inductive Query
  | v4 (ip : ℕ)
  | v6 (ip : KsIp)

/-- A rule of the family of an address matches it. -/
def Query.matches : Query → NetworkNode → Bool
  | .v4 ip, r => r.family = some .inet ∧ ksTestSubnet ip r.ip.v4 r.mask.v4
  | .v6 ip, r => r.family = some .inet6 ∧ ksTestv6Subnet ip r.ip r.mask

/-- What `ks_network_list_validate_ip_token` or `ks_network_list_validate_ip6_token` returns, and
    `*token`. -/
def validate (list : NetworkList) (token : Option (List UInt8)) : Query → Bool × Option (List UInt8)
  | .v4 ip => ((validateIpToken list ip token).ok, (validateIpToken list ip token).token)
  | .v6 ip => ((validateIp6Token list ip token).ok, (validateIp6Token list ip token).token)

/-- The first of the rules with the longest prefix, among those that match. -/
def mostSpecific (rules : List NetworkNode) (q : Query) : Option NetworkNode :=
  (rules.filter q.matches).argmax NetworkNode.bits

/-- What a rule decides, and what is decided without one. -/
def decision (d : Bool) (token : Option (List UInt8)) :
    Option NetworkNode → Bool × Option (List UInt8)
  | none => (d, token)
  | some r => (r.ok, r.token)

/-- What the loops come to with a rule that they have found last, if any. -/
def verdictOf (v : Verdict) : Option NetworkNode → Verdict
  | none => v
  | some r => ⟨r.ok, r.bits, r.token⟩

/-- The loops, over rules that were added one after the other. -/
theorem foldl_visit_reverse (tested : NetworkNode → Bool) (rules : List NetworkNode) (v : Verdict)
    (hv : v.bits = 0) :
    rules.reverse.foldl (visit tested) v =
      verdictOf v ((rules.filter tested).argmax NetworkNode.bits) := by
  induction rules with
  | nil => rfl
  | cons r rules ih =>
    rw [List.reverse_cons, List.foldl_append, ih, List.foldl_cons, List.foldl_nil, visit]
    by_cases hr : tested r
    · rw [List.filter_cons_of_pos hr, List.argmax_cons]
      cases (rules.filter tested).argmax NetworkNode.bits with
      | none => exact if_pos ⟨hr, hv ▸ Nat.zero_le _⟩
      | some c =>
        show (if tested r = true ∧ c.bits ≤ r.bits then (⟨r.ok, r.bits, r.token⟩ : Verdict)
          else ⟨c.ok, c.bits, c.token⟩) = verdictOf v (if r.bits < c.bits then some c else some r)
        by_cases hlt : r.bits < c.bits
        · rw [if_pos hlt, if_neg fun h => Nat.not_le_of_gt hlt h.2]
          rfl
        · rw [if_neg hlt, if_pos ⟨hr, Nat.le_of_not_lt hlt⟩]
          rfl
    · rw [List.filter_cons_of_neg hr, if_neg fun h => hr h.1]

theorem not_inet6_iff (h : r.family ≠ none) : r.family ≠ some .inet6 ↔ r.family = some .inet := by
  rcases hf : r.family with - | (_ | _)
  · exact absurd hf h
  · decide
  · decide

theorem not_inet_iff (h : r.family ≠ none) : r.family ≠ some .inet ↔ r.family = some .inet6 := by
  rcases hf : r.family with - | (_ | _)
  · exact absurd hf h
  · decide
  · decide

/-- Where every rule has a family, the tests of the loops are whether it matches. -/
theorem filter_matches_v4 {rules : List NetworkNode} (h : ∀ r ∈ rules, r.family ≠ none) (ip : ℕ) :
    rules.filter (fun r => r.family ≠ some .inet6 ∧ ksTestSubnet ip r.ip.v4 r.mask.v4) =
      rules.filter (Query.v4 ip).matches := by
  refine List.filter_congr fun r hr => ?_
  simp only [Query.matches, not_inet6_iff (h r hr)]

theorem filter_matches_v6 {rules : List NetworkNode} (h : ∀ r ∈ rules, r.family ≠ none)
    (ip : KsIp) :
    rules.filter (fun r => r.family ≠ some .inet ∧ ksTestv6Subnet ip r.ip r.mask) =
      rules.filter (Query.v6 ip).matches := by
  refine List.filter_congr fun r hr => ?_
  simp only [Query.matches, not_inet_iff (h r hr)]

/-- The loops find the most specific rule. -/
theorem validate_eq {rules : List NetworkNode} (h : ∀ r ∈ rules, r.family ≠ none)
    (token : Option (List UInt8)) (q : Query) :
    validate ⟨rules.reverse, d⟩ token q = decision d token (mostSpecific rules q) := by
  cases q with
  | v4 ip =>
    rw [validate, validateIpToken, foldl_visit_reverse _ rules _ rfl, filter_matches_v4 h,
      mostSpecific]
    cases (rules.filter (Query.v4 ip).matches).argmax NetworkNode.bits with
    | none => rfl
    | some r => rfl
  | v6 ip =>
    rw [validate, validateIp6Token, foldl_visit_reverse _ rules _ rfl, filter_matches_v6 h,
      mostSpecific]
    cases (rules.filter (Query.v6 ip).matches).argmax NetworkNode.bits with
    | none => rfl
    | some r => rfl

/-- A rule that does not match makes no difference. -/
theorem mostSpecific_of_not_matches {q : Query} (h : ¬q.matches r) (xs ys : List NetworkNode) :
    mostSpecific (xs ++ r :: ys) q = mostSpecific (xs ++ ys) q := by
  rw [mostSpecific, mostSpecific, List.filter_append, List.filter_append,
    List.filter_cons_of_neg h]

/-- Nor does the order of rules with prefixes of distinct lengths. -/
theorem mostSpecific_congr {rules rules' : List NetworkNode}
    (h : ∀ n, rules.filter (·.bits = n) = rules'.filter (·.bits = n)) (q : Query) :
    mostSpecific rules q = mostSpecific rules' q := by
  refine argmax_congr fun n => ?_
  rw [List.filter_comm, h n, List.filter_comm]

/-- **The most specific rule decides.** -/
theorem most_specific_decides (P : InetPton) (d : Bool) :
    (∀ calls list, (∀ call ∈ calls, IsCidr call) → buildList P d calls = .ok list →
      ∃ rss, calls.mapM (rulesOf P) = .ok rss ∧ list = ⟨rss.flatten.reverse, d⟩ ∧
        ∀ r ∈ rss.flatten, r.family ≠ none) ∧
    ∀ rules : List NetworkNode, (∀ r ∈ rules, r.family ≠ none) → ∀ token q,
      validate ⟨rules.reverse, d⟩ token q = decision d token (mostSpecific rules q) ∧
      (∀ xs r ys, rules = xs ++ r :: ys → ¬q.matches r →
        validate ⟨(xs ++ ys).reverse, d⟩ token q = validate ⟨rules.reverse, d⟩ token q) ∧
      (∀ rules' : List NetworkNode, rules.Perm rules' →
        (rules.Pairwise fun r r' => r.bits ≠ r'.bits) →
          validate ⟨rules'.reverse, d⟩ token q = validate ⟨rules.reverse, d⟩ token q) ∧
      ∀ rules' : List NetworkNode, (∀ n, rules.filter (·.bits = n) = rules'.filter (·.bits = n)) →
        validate ⟨rules'.reverse, d⟩ token q = validate ⟨rules.reverse, d⟩ token q := by
  constructor
  · intro calls list hcalls hlist
    rw [buildList_eq] at hlist
    cases hrss : calls.mapM (rulesOf P) with
    | error x =>
      rw [hrss] at hlist
      cases hlist
    | ok rss =>
      rw [hrss] at hlist
      exact ⟨rss, rfl, (Except.ok.inj hlist).symm, family_of_mapM hcalls hrss⟩
  · intro rules hrules token q
    have hcongr (rules' : List NetworkNode)
        (h : ∀ n, rules.filter (·.bits = n) = rules'.filter (·.bits = n)) :
        validate ⟨rules'.reverse, d⟩ token q = validate ⟨rules.reverse, d⟩ token q := by
      have hrules' : ∀ r ∈ rules', r.family ≠ none := fun r hr =>
        hrules r (mem_of_filter_eq (fun n => (h n).symm) hr)
      rw [validate_eq hrules, validate_eq hrules', mostSpecific_congr h]
    refine ⟨validate_eq hrules token q, ?_, fun rules' hp hd => ?_, hcongr⟩
    · rintro xs r ys rfl hr
      have hless : ∀ r ∈ xs ++ ys, r.family ≠ none := fun r' hr' =>
        hrules r' (List.mem_append.2 ((List.mem_append.1 hr').imp_right (List.mem_cons_of_mem r)))
      rw [validate_eq hrules, validate_eq hless, mostSpecific_of_not_matches hr]
    · exact hcongr rules' (filter_eq_of_perm hp hd)

/-- A network that is allowed, and a part of it that is denied. -/
def nested : List AclCall :=
  [.addCidrToken default (ascii "10.0.0.0/16") false none,
    .addCidrToken default (ascii "10.0.0.0/8") true (some (ascii "ten"))]

/-- An address outside of the part. -/
theorem most_specific_decides_nested : ∃ list, buildList fewPton false nested = .ok list ∧
    validate list none (.v4 0x0A010203) = (true, some (ascii "ten")) := by
  obtain ⟨list, hlist⟩ : ∃ list, buildList fewPton false nested = .ok list := ⟨_, rfl⟩
  obtain ⟨hbuilt, hdecides⟩ := most_specific_decides fewPton false
  obtain ⟨rss, hrss, rfl, hfamily⟩ := hbuilt nested list
    (List.forall_mem_cons.2 ⟨trivial, List.forall_mem_singleton.2 trivial⟩) hlist
  refine ⟨_, hlist, (hdecides _ hfamily none (.v4 0x0A010203)).1.trans ?_⟩
  have heval : okAnd (fun rss => decide (decision false none
      (mostSpecific rss.flatten (.v4 0x0A010203)) = (true, some (ascii "ten"))))
      (nested.mapM (rulesOf fewPton)) := by decide +kernel
  rw [hrss] at heval
  exact of_decide_eq_true heval

end Libks
