import Libks.Acl.Specific

/-!
# Lists of networks in one text

`ks_network_list_add_cidr_token` separates its text at the commas, in an array of 32
strings, and hands the strings over one by one. Entries that do not fit in the array
stay in the last string, of which only the first number is read.

* `performAddCidrToken_eq`: what an entry adds, in terms of how it is read (`readAs`);
* `addCidrToken_eq`: a text adds what its tokens add;
* `adds_each_iff`: these are its entries if and only if no entry is lost.
-/

namespace Libks

open Base

variable {P : InetPton} {s e : List UInt8} {ok : Bool} {token : Option (List UInt8)}

/-! ## One entry -/

/-- How `ks_parse_cidr` reads a text, if it takes it: the family, and the number of bits. -/
def cidrKind (s : List UInt8) : Option (Family × ℕ) :=
  let host := s.take 126
  match strchr 47 host with
  | none => none
  | some i =>
    let bits := atoi (host.drop (i + 1))
    if 58 ∈ s then if bits < 0 ∨ 128 < bits then none else some (.inet6, bits.toNat)
    else if bits < 0 ∨ 32 < bits then none else some (.inet, bits.toNat)

/-- The text of the address in front of the first `/`. -/
def cidrHost (s : List UInt8) : List UInt8 := (s.take 126).take ((strchr 47 (s.take 126)).getD 0)

/-- How an entry is read. -/
def readAs (e : List UInt8) : Option (Family × ℕ) := cidrKind (stripMapped e)

/-- The mask of an IPv4 entry takes a shift by 32 bits. -/
def Shifts (e : List UInt8) : Prop := readAs e = some (.inet, 32)

instance : DecidablePred Shifts := fun _ => inferInstanceAs (Decidable (_ = _))

/-- The address and the mask that `ks_parse_cidr` stores. -/
def cidrOf (P : InetPton) (stack : IpStack) (host : List UInt8) : Family × ℕ → Cidr
  | (.inet6, n) => ⟨P.into .inet6 host stack.ip, stack.mask.store (maskLoop 16 n), n⟩
  | (.inet, n) => ⟨(P.into .inet host stack.ip).htonl,
      stack.mask.setV4 (0xFFFFFFFF &&& ((0xFFFFFFFF >>> n) ^^^ 0xFFFFFFFF)), n⟩

/-- The rule that an entry adds, if it adds one. -/
def ruleOf (P : InetPton) (ok : Bool) (token : Option (List UInt8)) (stack : IpStack)
    (e : List UInt8) : Option NetworkNode :=
  (readAs e).map fun k =>
    let c := cidrOf P stack (cidrHost (stripMapped e)) k
    { ip := c.ip
      mask := c.mask
      bits := c.bits
      family := some k.1
      ok := ok
      token := token.filter (· ≠ []) }

/-- What `ks_parse_cidr` makes of an entry, whose text decides the family and the length. -/
theorem ksParseCidr_eq (stack : IpStack) (h : cidrKind s ≠ some (.inet, 32)) :
    ksParseCidr P s stack.ip stack.mask =
      .ok ((cidrKind s).map (cidrOf P stack (cidrHost s))) := by
  rw [cidrKind] at h ⊢
  rw [ksParseCidr, cidrHost]
  dsimp only at h ⊢
  cases hi : strchr 47 (s.take 126) with
  | none => rfl
  | some i =>
    rw [hi] at h
    dsimp only at h ⊢
    split_ifs at h ⊢ with h6 hb hb
    · rfl
    · rfl
    · rfl
    · have hlt : (atoi ((s.take 126).drop (i + 1))).toNat < 32 := by
        have hne : (atoi ((s.take 126).drop (i + 1))).toNat ≠ 32 := fun h32 => h (by rw [h32])
        omega
      rw [shr32, if_pos hlt]
      rfl

/-- The family is told by a colon. -/
theorem family_of_cidrKind {k : Family × ℕ} (h : cidrKind s = some k) :
    k.1 = if 58 ∈ s then .inet6 else .inet := by
  rw [cidrKind] at h
  dsimp only at h
  cases hi : strchr 47 (s.take 126) with
  | none =>
    rw [hi] at h
    cases h
  | some i =>
    rw [hi] at h
    dsimp only at h
    split_ifs at h ⊢ with h6
    · rw [← Option.some.inj h]
    · rw [← Option.some.inj h]

/-- What an entry adds. -/
theorem performAddCidrToken_eq (stack : IpStack) (list : NetworkList) (h : ¬Shifts e) :
    performAddCidrToken P stack list e ok token =
      .ok (match ruleOf P ok token stack e with
        | none => (.generr, list)
        | some r => (.success, { list with nodes := r :: list.nodes })) := by
  rw [performAddCidrToken]
  dsimp only
  have hparse := ksParseCidr_eq (P := P) stack (show cidrKind (stripMapped e) ≠ some (.inet, 32) from h)
  rw [stripMapped] at hparse
  rw [hparse, ruleOf, readAs, stripMapped]
  cases hk : cidrKind ((mappedAddr e).getD e) with
  | none => rfl
  | some k =>
    rw [Option.map_some, ok_bind]
    dsimp only
    rw [← family_of_cidrKind hk]
    rfl

/-- A `/32` for an IPv4 address shifts by 32 bits. -/
theorem ksParseCidr_of_shift (ip mask : KsIp) (h : cidrKind s = some (.inet, 32)) :
    ksParseCidr P s ip mask = .error .overflow := by
  rw [cidrKind] at h
  rw [ksParseCidr]
  dsimp only at h ⊢
  cases hi : strchr 47 (s.take 126) with
  | none =>
    rw [hi] at h
    cases h
  | some i =>
    rw [hi] at h
    dsimp only at h ⊢
    split_ifs at h ⊢ with h6 hb hb
    · cases h
    · have hbits : (atoi ((s.take 126).drop (i + 1))).toNat = 32 :=
        (Prod.ext_iff.1 (Option.some.inj h)).2
      rw [hbits]
      rfl

/-- A shift that has no meaning. -/
theorem performAddCidrToken_of_shifts (stack : IpStack) (list : NetworkList) (h : Shifts e) :
    performAddCidrToken P stack list e ok token = .error .overflow := by
  have hparse := ksParseCidr_of_shift (P := P) stack.ip stack.mask
    (show cidrKind (stripMapped e) = some (.inet, 32) from h)
  rw [stripMapped] at hparse
  rw [performAddCidrToken]
  dsimp only
  rw [hparse]
  rfl

/-! ## Several entries -/

/-- The loop over the tokens, as one over texts. -/
def addTexts (P : InetPton) (ok : Bool) (token : Option (List UInt8)) :
    Status → NetworkList → List (List UInt8 × IpStack) → Except Fault (Status × NetworkList)
  | status, list, [] => .ok (status, list)
  | status, list, (e, stack) :: es => do
    let (thisStatus, list) ← performAddCidrToken P stack list e ok token
    addTexts P ok token (if thisStatus ≠ .success then thisStatus else status) list es

/-- The entries, added one by one by calls of `ks_network_list_add_cidr_token`. -/
def addAlone (P : InetPton) (ok : Bool) (token : Option (List UInt8)) (list : NetworkList)
    (es : List (List UInt8 × IpStack)) : Except Fault NetworkList :=
  es.foldlM (fun list a => Prod.snd <$> addCidrToken P (fun _ => a.2) list a.1 ok token) list

/-- The rules that entries add. -/
def rulesFor (P : InetPton) (ok : Bool) (token : Option (List UInt8))
    (es : List (List UInt8 × IpStack)) : List NetworkNode :=
  es.filterMap fun a => ruleOf P ok token a.2 a.1

/-- The tokens are read out of the buffer as the texts laid there. -/
theorem addTokens_laid {m : Mem} {hi lo size : ℕ} {l : List (ℕ × List UInt8)}
    (h : Laid m hi lo l) (hhi : hi < size) (status : Status) (list : NetworkList)
    (vars : List IpStack) :
    addTokens P size m ok token status list ((l.map Prod.fst).zip vars) =
      addTexts P ok token status list ((l.map Prod.snd).zip vars) := by
  induction l generalizing lo status list vars with
  | nil => rfl
  | cons a l ih =>
    cases vars with
    | nil => rfl
    | cons stack vars =>
      cases h with
      | @cons _ p s _ hlo h hle hl =>
        rw [List.map_cons, List.map_cons, List.zip_cons_cons, List.zip_cons_cons, addTokens,
          addTexts, loadStr_str h (by omega), ok_bind]
        dsimp only
        cases performAddCidrToken P stack list s ok token with
        | error x => rfl
        | ok r => exact ih hl _ _ _

theorem ruleOf_eq_none_iff {stack : IpStack} :
    ruleOf P ok token stack e = none ↔ readAs e = none := Option.map_eq_none_iff

/-- The rules of the first entry, and of the others. -/
theorem rulesFor_cons (a : List UInt8 × IpStack) (es : List (List UInt8 × IpStack)) :
    rulesFor P ok token (a :: es) =
      (ruleOf P ok token a.2 a.1).toList ++ rulesFor P ok token es := by
  rw [rulesFor, List.filterMap_cons]
  cases ruleOf P ok token a.2 a.1 with
  | none => rfl
  | some r => rfl

/-- The entries are added one after the other, each in front, and one that cannot be read makes
    the status an error. -/
theorem addTexts_eq (status : Status) (list : NetworkList) {es : List (List UInt8 × IpStack)}
    (h : ∀ a ∈ es, ¬Shifts a.1) :
    addTexts P ok token status list es =
      .ok (if ∀ a ∈ es, readAs a.1 ≠ none then status else .generr,
        { list with nodes := (rulesFor P ok token es).reverse ++ list.nodes }) := by
  induction es generalizing status list with
  | nil => rfl
  | cons a es ih =>
    obtain ⟨ha, hes⟩ := List.forall_mem_cons.1 h
    obtain ⟨e, stack⟩ := a
    rw [addTexts, performAddCidrToken_eq stack list ha, rulesFor_cons]
    dsimp only
    cases hr : ruleOf P ok token stack e with
    | none =>
      have hnot : ¬∀ a ∈ (e, stack) :: es, readAs a.1 ≠ none := fun hall =>
        (List.forall_mem_cons.1 hall).1 (ruleOf_eq_none_iff.1 hr)
      refine (ih .generr list hes).trans ?_
      rw [if_neg hnot, ite_self]
      rfl
    | some r =>
      have hiff : (∀ a ∈ (e, stack) :: es, readAs a.1 ≠ none) ↔ ∀ a ∈ es, readAs a.1 ≠ none := by
        rw [List.forall_mem_cons, and_iff_right]
        exact fun h => Option.some_ne_none r (hr.symm.trans (ruleOf_eq_none_iff.2 h))
      refine (ih status _ hes).trans ?_
      simp only [hiff]
      rw [Option.toList_some, List.singleton_append, List.reverse_cons, List.append_assoc]
      rfl

/-- A text with a shift that has no meaning has no outcome. -/
theorem not_shifts_of_addTexts {status : Status} {list : NetworkList}
    {es : List (List UInt8 × IpStack)} {r : Status × NetworkList}
    (h : addTexts P ok token status list es = .ok r) : ∀ a ∈ es, ¬Shifts a.1 := by
  induction es generalizing status list with
  | nil => exact fun a ha => absurd ha List.not_mem_nil
  | cons a es ih =>
    obtain ⟨e, stack⟩ := a
    obtain ⟨r', hr', hrest⟩ := bind_eq_ok.1 h
    refine List.forall_mem_cons.2 ⟨fun hs => ?_, ih hrest⟩
    rw [performAddCidrToken_of_shifts stack list hs] at hr'
    cases hr'

/-- One entry alone. -/
theorem addCidrToken_alone (vars : ℕ → IpStack) (list : NetworkList) (h : 44 ∉ e) :
    addCidrToken P vars list e ok token = performAddCidrToken P (vars 0) list e ok token := by
  rw [addCidrToken, if_neg h]

/-- Entries one by one add what the loop adds. -/
theorem addAlone_eq (status : Status) (list : NetworkList) {es : List (List UInt8 × IpStack)}
    (h : ∀ a ∈ es, 44 ∉ a.1) :
    addAlone P ok token list es = (addTexts P ok token status list es).map Prod.snd := by
  induction es generalizing status list with
  | nil => rfl
  | cons a es ih =>
    obtain ⟨ha, hes⟩ := List.forall_mem_cons.1 h
    obtain ⟨e, stack⟩ := a
    rw [addAlone, List.foldlM_cons, addCidrToken_alone _ list ha, addTexts]
    dsimp only
    cases performAddCidrToken P stack list e ok token with
    | error x => rfl
    | ok r => exact ih _ r.2 hes

/-- The parts of a text that is a list: what is between the commas, with nothing in it that
    is more than a character to `ks_separate_string`. -/
structure Listed (ps : List (List UInt8)) : Prop where
  two : 2 ≤ ps.length
  comma : ∀ p ∈ ps, 44 ∉ p
  nul : ∀ p ∈ ps, 0 ∉ p
  plain : Plain 44 ([44].intercalate ps)
  unnamed : ¬[94, 94] <+: [44].intercalate ps

/-- The text of a list. -/
abbrev listText (ps : List (List UInt8)) : List UInt8 := [44].intercalate ps

/-- A list has only the characters of its parts and commas. -/
theorem notMem_listText {c : UInt8} {ps : List (List UInt8)} (hc : c ≠ 44)
    (h : ∀ p ∈ ps, c ∉ p) : c ∉ listText ps := by
  induction ps with
  | nil => exact List.not_mem_nil
  | cons p ps ih =>
    obtain ⟨hp, hps⟩ := List.forall_mem_cons.1 h
    cases ps with
    | nil => rwa [listText, List.intercalate_singleton]
    | cons q ps =>
      rw [listText, List.intercalate_cons_cons, List.mem_append, List.mem_append,
        List.mem_singleton, not_or, not_or]
      exact ⟨⟨hp, hc⟩, ih hps⟩

/-- A list of two parts has a comma. -/
theorem comma_mem_listText {ps : List (List UInt8)} (h : 2 ≤ ps.length) : 44 ∈ listText ps := by
  match ps, h with
  | p :: q :: ps, _ =>
    rw [listText, List.intercalate_cons_cons]
    simp

/-- Texts, from the `n`-th on, each with what is in the variables when it is read. -/
def withVars (vars : ℕ → IpStack) (n : ℕ) (ts : List (List UInt8)) :
    List (List UInt8 × IpStack) :=
  (ts.zipIdx n).map fun a => (a.1, vars a.2)

theorem zip_range_eq (vars : ℕ → IpStack) (ts : List (List UInt8)) :
    ts.zip ((List.range ts.length).map vars) = withVars vars 0 ts := by
  rw [withVars, List.zipIdx_eq_zip_range', ← List.range_eq_range', List.zip_map_right]
  rfl

theorem mem_withVars {vars : ℕ → IpStack} {n : ℕ} {ts : List (List UInt8)}
    {a : List UInt8 × IpStack} (h : a ∈ withVars vars n ts) : a.1 ∈ ts := by
  obtain ⟨x, hx, rfl⟩ := List.mem_map.1 h
  exact List.fst_mem_of_mem_zipIdx hx

theorem exists_mem_withVars {vars : ℕ → IpStack} {n : ℕ} {ts : List (List UInt8)}
    (h : e ∈ ts) : ∃ stack, (e, stack) ∈ withVars vars n ts := by
  obtain ⟨i, hi, rfl⟩ := List.mem_iff_getElem.1 h
  refine ⟨vars (n + i), List.mem_map.2 ⟨(ts[i], n + i), ?_, rfl⟩⟩
  exact List.mk_add_mem_zipIdx_iff_getElem?.2 (List.getElem?_eq_getElem hi)

/-- A list adds what its tokens add. -/
theorem addCidrToken_eq {ps : List (List UInt8)} (h : Listed ps) (vars : ℕ → IpStack)
    (list : NetworkList) :
    addCidrToken P vars list (listText ps) ok token =
      addTexts P ok token .success list (withVars vars 0 (tokens 44 32 (listText ps))) := by
  have hstr : Mem.IsStr (Mem.write (fun _ => 0) 0 (listText ps ++ [0])) 0 (listText ps) :=
    Mem.isStr_write _ _ (notMem_listText (by decide) h.nul)
  obtain ⟨m', l, hrun, htok, hl⟩ := @ksSeparateString_str 44 (listText ps) 32 _ 0
    ((listText ps).length + 1) hstr h.plain.closed (by omega) h.unnamed (by decide)
  rw [addCidrToken, if_pos (comma_mem_listText h.two)]
  dsimp only
  rw [hrun, ok_bind]
  dsimp only
  rw [addTokens_laid hl (by omega), htok, ← zip_range_eq, ← htok, List.length_map,
    List.length_map]

/-- The entries of a list. -/
def entries (ps : List (List UInt8)) : List (List UInt8) := ps.map trimSpaces

/-- A list adds what its entries add alone, and succeeds only if each of them does. -/
def AddsEach (P : InetPton) (ps : List (List UInt8)) : Prop :=
  ∀ (vars : ℕ → IpStack) (list : NetworkList) (ok : Bool) (token : Option (List UInt8)),
    ∃ status list', addCidrToken P vars list (listText ps) ok token = .ok (status, list') ∧
      addAlone P ok token list (withVars vars 0 (entries ps)) = .ok list' ∧
      (status = .success → ∀ e ∈ entries ps, ∀ vars' l,
        ∃ l', addCidrToken P vars' l e ok token = .ok (.success, l'))

/-- The texts `ts` do what the entries `es` do. -/
structure SameRules (P : InetPton) (ts es : List (List UInt8)) : Prop where
  texts : ∀ t ∈ ts, ¬Shifts t
  entries : ∀ e ∈ es, ¬Shifts e
  rules : ∀ vars ok token,
    rulesFor P ok token (withVars vars 0 ts) = rulesFor P ok token (withVars vars 0 es)
  read : (∀ t ∈ ts, readAs t ≠ none) → ∀ e ∈ es, readAs e ≠ none

/-- No entry of a list has a comma. -/
theorem comma_notMem_entries {ps : List (List UInt8)} (h : Listed ps) : ∀ e ∈ entries ps, 44 ∉ e := by
  intro e he hc
  obtain ⟨p, hp, rfl⟩ := List.mem_map.1 he
  exact h.comma p hp (mem_of_mem_trimSpaces hc)

/-- An entry succeeds alone if it is read. -/
theorem succeeds_iff (vars : ℕ → IpStack) (list : NetworkList) (hc : 44 ∉ e) (hs : ¬Shifts e) :
    (∃ l', addCidrToken P vars list e ok token = .ok (.success, l')) ↔ readAs e ≠ none := by
  have hnone : ruleOf P ok token (vars 0) e = none ↔ readAs e = none := ruleOf_eq_none_iff
  rw [addCidrToken_alone vars list hc, performAddCidrToken_eq (vars 0) list hs, Ne, ← hnone]
  cases ruleOf P ok token (vars 0) e with
  | none =>
    refine iff_of_false ?_ (not_not.2 rfl)
    rintro ⟨l', h⟩
    cases h
  | some r => exact iff_of_true ⟨_, rfl⟩ (Option.some_ne_none r)

/-- Each entry is added if and only if the tokens give the rules of the entries. -/
theorem addsEach_iff_sameRules {ps : List (List UInt8)} (h : Listed ps) :
    AddsEach P ps ↔ SameRules P (tokens 44 32 (listText ps)) (entries ps) := by
  have hcomma := comma_notMem_entries h
  have halone (vars : ℕ → IpStack) (list : NetworkList) (ok : Bool)
      (token : Option (List UInt8)) :
      addAlone P ok token list (withVars vars 0 (entries ps)) =
        (addTexts P ok token .success list (withVars vars 0 (entries ps))).map Prod.snd :=
    addAlone_eq .success list fun a ha => hcomma a.1 (mem_withVars ha)
  constructor
  · intro hadds
    have hrun (vars : ℕ → IpStack) (ok : Bool) (token : Option (List UInt8)) :
        ∃ r r', addTexts P ok token .success noRules
            (withVars vars 0 (tokens 44 32 (listText ps))) = .ok r ∧
          addTexts P ok token .success noRules (withVars vars 0 (entries ps)) = .ok r' ∧
          r'.2 = r.2 ∧ (r.1 = .success → ∀ e ∈ entries ps, ∀ vars' l,
            ∃ l', addCidrToken P vars' l e ok token = .ok (.success, l')) := by
      obtain ⟨status, list', hcall, hone, hall⟩ := hadds vars noRules ok token
      rw [addCidrToken_eq h] at hcall
      rw [halone] at hone
      cases hes : addTexts P ok token .success noRules (withVars vars 0 (entries ps)) with
      | error x =>
        rw [hes] at hone
        cases hone
      | ok r' =>
        rw [hes] at hone
        exact ⟨_, r', hcall, rfl, Except.ok.inj hone, hall⟩
    have hshift {ts : List (List UInt8)} {r : Status × NetworkList}
        (hr : addTexts P true none .success noRules (withVars default 0 ts) = .ok r) :
        ∀ t ∈ ts, ¬Shifts t := fun t ht => by
      obtain ⟨stack, hmem⟩ := exists_mem_withVars ht
      exact not_shifts_of_addTexts hr _ hmem
    -- That no text shifts is seen from one call.
    obtain ⟨r, r', hr, hr', -, hall⟩ := hrun default true none
    have htexts := hshift hr
    have hentries := hshift hr'
    refine ⟨htexts, hentries, fun vars ok token => ?_, fun hread e he => ?_⟩
    · obtain ⟨r, r', hr, hr', heq, -⟩ := hrun vars ok token
      rw [addTexts_eq _ _ fun a ha => htexts a.1 (mem_withVars ha)] at hr
      rw [addTexts_eq _ _ fun a ha => hentries a.1 (mem_withVars ha)] at hr'
      obtain rfl := Except.ok.inj hr
      obtain rfl := Except.ok.inj hr'
      have hnodes := congrArg NetworkList.nodes heq
      exact (List.reverse_injective (List.append_cancel_right hnodes)).symm
    · rw [addTexts_eq _ _ fun a ha => htexts a.1 (mem_withVars ha)] at hr
      obtain rfl := Except.ok.inj hr
      have hreads : ∀ a ∈ withVars default 0 (tokens 44 32 (listText ps)), readAs a.1 ≠ none :=
        fun a ha => hread a.1 (mem_withVars ha)
      have hsucc := hall (if_pos hreads) e he default noRules
      exact (succeeds_iff default noRules (hcomma e he) (hentries e he)).1 hsucc
  · rintro ⟨htexts, hentries, hrules, hread⟩ vars list ok token
    have hes : ∀ a ∈ withVars vars 0 (entries ps), ¬Shifts a.1 := fun a ha =>
      hentries a.1 (mem_withVars ha)
    rw [addCidrToken_eq h, halone, addTexts_eq _ _ fun a ha => htexts a.1 (mem_withVars ha),
      addTexts_eq _ _ hes, hrules vars ok token]
    refine ⟨_, _, rfl, rfl, fun hstatus e he vars' l => ?_⟩
    refine (succeeds_iff vars' l (hcomma e he) (hentries e he)).2 (hread (fun t ht => ?_) e he)
    intro hnone
    obtain ⟨stack, hmem⟩ := exists_mem_withVars ht
    rw [if_neg fun hall => hall _ hmem hnone] at hstatus
    cases hstatus

/-! ## More entries than strings -/

theorem takeWhile_append_of_head {p : UInt8 → Bool} {x t : List UInt8}
    (h : ∀ c ∈ t.head?, ¬p c) : (x ++ t).takeWhile p = x.takeWhile p := by
  induction x with
  | nil =>
    cases t with
    | nil => rfl
    | cons c t => exact List.takeWhile_cons_of_neg (h c rfl)
  | cons c x ih =>
    rw [List.cons_append, List.takeWhile_cons, List.takeWhile_cons, ih]

/-- A number ends where something comes that is no digit. -/
theorem atoi_append {x t : List UInt8} (ht : ∀ c ∈ t.head?, ¬(48 ≤ c ∧ c ≤ 57))
    (hs : ∀ c ∈ (t.dropWhile isSpace).head?, ¬(48 ≤ c ∧ c ≤ 57) ∧ c ≠ 43 ∧ c ≠ 45) :
    atoi (x ++ t) = atoi x := by
  have hdigits (y : List UInt8) : (y ++ t).takeWhile (fun c => 48 ≤ c ∧ c ≤ 57) =
      y.takeWhile fun c => 48 ≤ c ∧ c ≤ 57 :=
    takeWhile_append_of_head fun c hc => by simpa using ht c hc
  rw [atoi_eq, atoi_eq, List.dropWhile_append]
  cases hx : x.dropWhile isSpace with
  | nil =>
    rw [if_pos List.isEmpty_nil]
    cases hw : t.dropWhile isSpace with
    | nil => rfl
    | cons c w =>
      obtain ⟨hd, h43, h45⟩ := hs c (by rw [hw]; rfl)
      have hsign : behindSign (c :: w) = c :: w := if_neg (not_or.2 ⟨h43, h45⟩)
      rw [hsign, List.takeWhile_cons_of_neg (by simpa using hd), signed,
        if_neg (by simpa using h45)]
      rfl
  | cons c y =>
    rw [if_neg (by simp), List.cons_append, behindSign, behindSign, List.head?_cons,
      List.head?_cons]
    split_ifs
    · rw [hdigits]
    · rw [← List.cons_append, hdigits]

/-- Trailing spaces are behind the last comma. -/
theorem trimEnd_cut (p q : List UInt8) : trimEnd (p ++ 44 :: q) = p ++ 44 :: trimEnd q := by
  induction p with
  | nil => exact if_neg fun h => absurd h.2 (by decide)
  | cons c p ih =>
    rw [List.cons_append, trimEnd, ih, if_neg fun h => absurd h.1 (by simp)]
    rfl

/-- What is taken off at the end are spaces. -/
theorem trimEnd_append_spaces (p : List UInt8) : ∃ k, p = trimEnd p ++ List.replicate k 32 := by
  induction p with
  | nil => exact ⟨0, rfl⟩
  | cons c p ih =>
    obtain ⟨k, hk⟩ := ih
    rw [trimEnd]
    split_ifs with h
    · obtain ⟨hnil, rfl⟩ := h
      rw [hnil, List.nil_append] at hk
      exact ⟨k + 1, by rw [hk]; rfl⟩
    · refine ⟨k, ?_⟩
      rw [List.cons_append, ← hk]

/-- The spaces of the first part, and what is behind the comma, stay in the last string. -/
theorem trimSpaces_cut (p q : List UInt8) :
    ∃ k, trimSpaces (p ++ 44 :: q) = trimSpaces p ++ (List.replicate k 32 ++ 44 :: trimEnd q) := by
  rw [trimSpaces, trimSpaces, List.dropWhile_append]
  cases hp : p.dropWhile (· = 32) with
  | nil =>
    refine ⟨0, ?_⟩
    rw [if_pos List.isEmpty_nil, List.dropWhile_cons_of_neg (by decide)]
    exact trimEnd_cut [] q
  | cons c p' =>
    obtain ⟨k, hk⟩ := trimEnd_append_spaces (c :: p')
    refine ⟨k, ?_⟩
    rw [if_neg (by simp), trimEnd_cut, ← List.append_assoc, ← hk]

/-- No space and no comma is in a leading `::ffff:`. -/
theorem stripMapped_append {c : UInt8} (hc : c = 32 ∨ c = 44) (e t : List UInt8) :
    stripMapped (e ++ c :: t) = stripMapped e ++ c :: t := by
  rw [stripMapped, stripMapped, mappedAddr, mappedAddr]
  rcases Nat.lt_or_ge e.length 7 with hlt | hge
  · -- The seven bytes of the prefix would have to go up to `c`.
    have hall {s : List UInt8} (h : startsWithNoCase (ascii "::ffff:") s) :
        7 ≤ s.length ∧ ∀ d ∈ s.take 7, toLower d ∈ (ascii "::ffff:").map toLower := by
      have heq : (s.take 7).map toLower = (ascii "::ffff:").map toLower := of_decide_eq_true h
      have hlen : (s.take 7).length = 7 := by
        rw [← List.length_map toLower, heq]
        rfl
      rw [List.length_take] at hlen
      exact ⟨by omega, fun d hd => heq ▸ List.mem_map_of_mem hd⟩
    have hshort : ¬startsWithNoCase (ascii "::ffff:") e := fun h =>
      absurd (hall h).1 (by omega)
    have hlong : ¬startsWithNoCase (ascii "::ffff:") (e ++ c :: t) := fun h => by
      have hmem : c ∈ (e ++ c :: t).take 7 := by
        have htake : (e ++ c :: t).take (e.length + 1) = e ++ [c] := by
          rw [List.take_length_add_append]
          rfl
        have hpre : e ++ [c] <+: (e ++ c :: t).take 7 :=
          htake ▸ List.take_prefix_take_left hlt
        exact hpre.mem (by simp)
      have hlow := (hall h).2 c hmem
      rcases hc with rfl | rfl
      · revert hlow
        decide +kernel
      · revert hlow
        decide +kernel
    rw [if_neg hshort, if_neg hlong]
    rfl
  · have hsame : startsWithNoCase (ascii "::ffff:") (e ++ c :: t) =
        startsWithNoCase (ascii "::ffff:") e := by
      rw [startsWithNoCase, startsWithNoCase, List.take_append_of_le_length]
      exact hge
    rw [hsame, List.drop_append_of_le_length hge]
    split_ifs
    · rfl
    · rfl

/-- What follows an entry in the last string: spaces, a comma, and more entries. -/
def Tail (t : List UInt8) : Prop := ∃ k w, t = List.replicate k 32 ++ 44 :: w

theorem Tail.head {t : List UInt8} (h : Tail t) : ∃ c t', t = c :: t' ∧ (c = 32 ∨ c = 44) := by
  obtain ⟨k, w, rfl⟩ := h
  cases k with
  | zero => exact ⟨44, w, rfl, .inr rfl⟩
  | succ k => exact ⟨32, _, rfl, .inl rfl⟩

/-- A number in front of such a tail, or of the beginning of one. -/
theorem atoi_tail {t : List UInt8} (h : Tail t) (x : List UInt8) (n : ℕ) :
    atoi (x ++ t.take n) = atoi x := by
  obtain ⟨k, w, rfl⟩ := h
  have htake : (List.replicate k 32 ++ 44 :: w).take n =
      List.replicate (min n k) 32 ++ (44 :: w).take (n - k) := by
    rw [List.take_append, List.take_replicate, List.length_replicate]
  have hspaces : ∀ c ∈ List.replicate (min n k) (32 : UInt8), isSpace c := fun c hc => by
    rw [List.eq_of_mem_replicate hc]
    decide
  have hcomma : ∀ c ∈ ((44 :: w).take (n - k)).head?, c = 44 := fun c hc => by
    cases hnk : n - k with
    | zero =>
      rw [hnk] at hc
      cases hc
    | succ j =>
      rw [hnk] at hc
      exact (Option.some.inj hc).symm
  rw [htake]
  refine atoi_append (fun c hc => ?_) fun c hc => ?_
  · have hcases : c = 32 ∨ c = 44 := by
      cases hm : min n k with
      | zero =>
        rw [hm] at hc
        exact .inr (hcomma c hc)
      | succ j =>
        rw [hm] at hc
        exact .inl (Option.some.inj hc).symm
    rcases hcases with rfl | rfl
    · decide
    · decide
  · rw [List.dropWhile_append_of_pos hspaces] at hc
    have hc44 : c = 44 := by
      cases hw : (44 :: w).take (n - k) with
      | nil =>
        rw [hw] at hc
        cases hc
      | cons d w' =>
        obtain rfl := hcomma d (by rw [hw]; rfl)
        rw [hw, List.dropWhile_cons_of_neg (by decide)] at hc
        exact (Option.some.inj hc).symm
    rw [hc44]
    decide

theorem strchr_append_of_some {c : UInt8} {i : ℕ} (h : strchr c s = some i) (t : List UInt8) :
    strchr c (s ++ t) = some i := by
  rw [strchr] at h ⊢
  rw [List.findIdx?_append, h]
  rfl

theorem strchr_append_of_none {c : UInt8} (h : strchr c s = none) (t : List UInt8) :
    strchr c (s ++ t) = (strchr c t).map (· + s.length) := by
  rw [strchr] at h ⊢
  rw [List.findIdx?_append, h]
  rfl

variable {u t : List UInt8} {i : ℕ}

/-- A `/` in an entry is found with a tail behind it, too, and the number behind the `/`. -/
theorem cidr_append (ht : Tail t) (hi : strchr 47 (u.take 126) = some i) :
    strchr 47 ((u ++ t).take 126) = some i ∧
      atoi (((u ++ t).take 126).drop (i + 1)) = atoi ((u.take 126).drop (i + 1)) ∧
      ((u ++ t).take 126).take i = (u.take 126).take i := by
  have hlen : i < (u.take 126).length := by
    rw [strchr, List.findIdx?_eq_some_iff_getElem] at hi
    exact hi.1
  rw [List.take_append]
  refine ⟨strchr_append_of_some hi _, ?_, List.take_append_of_le_length hlen.le⟩
  rw [List.drop_append_of_le_length hlen, atoi_tail ht]

theorem exists_slash (h : cidrKind s ≠ none) : ∃ i, strchr 47 (s.take 126) = some i := by
  cases hi : strchr 47 (s.take 126) with
  | none =>
    rw [cidrKind] at h
    dsimp only at h
    rw [hi] at h
    exact absurd rfl h
  | some i => exact ⟨i, rfl⟩

/-- The family and the length are read off the text around the slash. -/
theorem cidrKind_of_slash (hi : strchr 47 (s.take 126) = some i) :
    cidrKind s =
      if 58 ∈ s then
        if atoi ((s.take 126).drop (i + 1)) < 0 ∨ 128 < atoi ((s.take 126).drop (i + 1)) then none
        else some (.inet6, (atoi ((s.take 126).drop (i + 1))).toNat)
      else if atoi ((s.take 126).drop (i + 1)) < 0 ∨ 32 < atoi ((s.take 126).drop (i + 1)) then none
      else some (.inet, (atoi ((s.take 126).drop (i + 1))).toNat) := by
  rw [cidrKind]
  dsimp only
  rw [hi]

/-- An entry that is read as without its tail adds the rule that it adds without. -/
theorem ruleOf_append (ht : Tail t) (h : readAs (e ++ t) = readAs e) (stack : IpStack) :
    ruleOf P ok token stack (e ++ t) = ruleOf P ok token stack e := by
  rw [ruleOf, ruleOf, h]
  cases hk : readAs e with
  | none => rfl
  | some k =>
    obtain ⟨c, t', rfl, hc⟩ := ht.head
    obtain ⟨i, hi⟩ := exists_slash (s := stripMapped e) fun h => by
      rw [readAs, h] at hk
      cases hk
    obtain ⟨hi', -, htake⟩ := cidr_append ht hi
    have hhost : cidrHost (stripMapped (e ++ c :: t')) = cidrHost (stripMapped e) := by
      rw [stripMapped_append hc, cidrHost, cidrHost, hi, hi', Option.getD_some, htake]
    rw [hhost]

/-- A rule tells how its entry was read. -/
theorem readAs_of_ruleOf {stack : IpStack} {r : NetworkNode}
    (h : ruleOf P ok token stack e = some r) :
    (readAs e).map (fun k => (some k.1, k.2)) = some (r.family, r.bits) := by
  obtain ⟨k, hk, rfl⟩ := Option.map_eq_some_iff.1 h
  rw [hk]
  obtain ⟨f, n⟩ := k
  cases f with
  | inet => rfl
  | inet6 => rfl

/-- Entries that give one rule are read alike. -/
theorem readAs_eq_of_ruleOf_eq {e' : List UInt8} {stack : IpStack} {r : NetworkNode}
    (h : ruleOf P ok token stack e = some r) (h' : ruleOf P ok token stack e' = some r) :
    readAs e = readAs e' := by
  have heq := (readAs_of_ruleOf h).trans (readAs_of_ruleOf h').symm
  refine Option.map_injective (fun k k' hk => ?_) heq
  obtain ⟨hf, hn⟩ := Prod.ext_iff.1 hk
  exact Prod.ext (Option.some.inj hf) hn

theorem store_of_length_le {ip : KsIp} {bs : List UInt8} {j : Fin 16} (h : bs.length ≤ j.val) :
    ip.store bs j = ip j := by
  rw [KsIp.store, List.getD_eq_getElem?_getD, List.getElem?_eq_none h, Option.getD_none]

/-- What is behind an address of IPv4 is not written to. -/
theorem htonl_into (P : InetPton) (host : List UInt8) (ip : KsIp) :
    (P.into .inet host ip).htonl ⟨15, by decide⟩ = ip ⟨15, by decide⟩ := by
  rw [KsIp.htonl, KsIp.setV4, store_of_length_le (by rw [length_leBytes]; decide), InetPton.into]
  cases P.pton .inet host with
  | none => rfl
  | some bs => exact store_of_length_le (by rw [List.length_ofFn]; decide)

/-- A text whose first `/` is not in the entry has no address in front of it. -/
theorem pton_eq_none_of_append {f : Family} (ht : Tail t) (hnone : strchr 47 (u.take 126) = none)
    (hi : strchr 47 ((u ++ t).take 126) = some i) :
    P.pton f (((u ++ t).take 126).take i) = none := by
  by_contra hne
  obtain ⟨c, t', rfl, hc⟩ := ht.head
  have hmem : c ∈ ((u ++ c :: t').take 126).take i := by
    rw [List.take_append, strchr_append_of_none hnone] at hi
    rw [List.take_append]
    cases hroom : 126 - u.length with
    | zero =>
      rw [hroom] at hi
      cases hi
    | succ n =>
      -- The first byte of the tail is no `/`, and so it is in front of the one found.
      have h47 : c ≠ 47 := by
        rcases hc with rfl | rfl
        · decide
        · decide
      rw [hroom, List.take_succ_cons, strchr_cons, if_neg h47] at hi
      obtain ⟨j, hj, rfl⟩ := Option.map_eq_some_iff.1 hi
      obtain ⟨j, -, rfl⟩ := Option.map_eq_some_iff.1 hj
      rw [List.take_succ_cons, Nat.add_comm, List.take_length_add_append, List.take_succ_cons]
      simp
  have hchar := P.chars hne c hmem
  rcases hc with rfl | rfl
  · exact absurd hchar (by decide)
  · exact absurd hchar (by decide)

/-- An address that is read in an entry only together with its tail is none: of what the rule
    has for it, some was in the variable before. -/
theorem ip_of_ruleOf_append (ht : Tail t) (hnone : readAs e = none) {stack : IpStack}
    {r : NetworkNode} (h : ruleOf P ok token stack (e ++ t) = some r) :
    r.ip ⟨15, by decide⟩ = stack.ip ⟨15, by decide⟩ := by
  obtain ⟨c, t', rfl, hc⟩ := ht.head
  obtain ⟨⟨f, n⟩, hk, rfl⟩ := Option.map_eq_some_iff.1 h
  cases f with
  | inet => exact htonl_into P _ _
  | inet6 =>
    have hpton : P.pton .inet6 (cidrHost (stripMapped (e ++ c :: t'))) = none := by
      rw [readAs, stripMapped_append hc] at hk
      rw [stripMapped_append hc]
      obtain ⟨i, hi⟩ := exists_slash fun h => Option.some_ne_none _ (hk.symm.trans h)
      rw [cidrHost, hi, Option.getD_some]
      cases hj : strchr 47 ((stripMapped e).take 126) with
      | none => exact pton_eq_none_of_append ht hj hi
      | some j =>
        obtain ⟨hj', hatoi, htake⟩ := cidr_append ht hj
        obtain rfl : j = i := Option.some.inj (hj'.symm.trans hi)
        by_contra hne
        -- With a colon of its own, the entry is read as one of IPv6, as it is with the tail.
        have h58 : 58 ∈ stripMapped e := by
          have hmem := (P.colon hne).2 rfl
          rw [htake] at hmem
          exact List.mem_of_mem_take (List.mem_of_mem_take hmem)
        rw [readAs, cidrKind_of_slash hj, if_pos h58] at hnone
        rw [cidrKind_of_slash hi, if_pos (List.mem_append_left _ h58), hatoi, hnone] at hk
        cases hk
    dsimp only [cidrOf]
    rw [InetPton.into, hpton]
    rfl

/-! ## The entries of a list -/

theorem withVars_append (vars : ℕ → IpStack) (n : ℕ) (ts es : List (List UInt8)) :
    withVars vars n (ts ++ es) = withVars vars n ts ++ withVars vars (n + ts.length) es := by
  rw [withVars, List.zipIdx_append, List.map_append, withVars, withVars]

/-- The rules of two lists, one behind the other. -/
theorem rulesFor_append (as bs : List (List UInt8 × IpStack)) :
    rulesFor P ok token (as ++ bs) = rulesFor P ok token as ++ rulesFor P ok token bs :=
  List.filterMap_append ..

/-- Entries that are not read add nothing. -/
theorem rulesFor_eq_nil_iff {vars : ℕ → IpStack} {n : ℕ} {es : List (List UInt8)} :
    rulesFor P ok token (withVars vars n es) = [] ↔ ∀ e ∈ es, readAs e = none := by
  rw [rulesFor, List.filterMap_eq_nil_iff]
  constructor
  · intro h e he
    obtain ⟨stack, hmem⟩ := exists_mem_withVars he
    have hr : ruleOf P ok token stack e = none := h (e, stack) hmem
    exact ruleOf_eq_none_iff.1 hr
  · exact fun h a ha => ruleOf_eq_none_iff.2 (h a.1 (mem_withVars ha))

/-- No entry of a list is lost. -/
def Lossless (ps : List (List UInt8)) : Prop :=
  (∀ e ∈ entries ps, ¬Shifts e) ∧
    if ps.length ≤ 32 then ps.getLast? = some [] → ∃ e ∈ (entries ps).dropLast, readAs e = none
    else (∀ e ∈ (entries ps).drop 32, readAs e = none) ∧
      (∃ e ∈ (entries ps).take 32, readAs e = none) ∧
      ∀ e ∈ (entries ps)[31]?, readAs (trimSpaces (listText (ps.drop 31))) = readAs e

theorem readAs_nil : readAs [] = none := by decide +kernel

/-- An empty last entry is no token. -/
theorem sameRules_dropLast (P : InetPton) (es : List (List UInt8)) :
    SameRules P es (es ++ [[]]) ↔ (∀ e ∈ es ++ [[]], ¬Shifts e) ∧ ∃ e ∈ es, readAs e = none := by
  constructor
  · intro hs
    refine ⟨hs.entries, ?_⟩
    by_contra hno
    have hall : ∀ e ∈ es, readAs e ≠ none := fun e he hnone => hno ⟨e, he, hnone⟩
    exact hs.read hall [] (List.mem_append_right _ (List.mem_singleton_self _)) readAs_nil
  · rintro ⟨hshift, e, he, hnone⟩
    refine ⟨fun t ht => hshift t (List.mem_append_left _ ht), hshift, fun vars ok token => ?_,
      fun hall => absurd hnone (hall e he)⟩
    have hnil : rulesFor P ok token (withVars vars (0 + es.length) [[]]) = [] :=
      rulesFor_eq_nil_iff.2 (List.forall_mem_singleton.2 readAs_nil)
    rw [withVars_append, rulesFor_append, hnil, List.append_nil]

/-- A list that fits in the array. -/
theorem sameRules_of_le {ps : List (List UInt8)} (h : Listed ps) (hn : ps.length ≤ 32) :
    SameRules P (tokens 44 32 (listText ps)) (entries ps) ↔ Lossless ps := by
  rw [listText, tokens_intercalate_le (by decide) (by decide) h.plain h.comma hn, Lossless,
    if_pos hn]
  by_cases hlast : ps.getLast? = some []
  · have hsplit : (entries ps).dropLast ++ [[]] = entries ps := by
      have hps := List.dropLast_append_getLast? [] hlast
      conv_rhs => rw [entries, ← hps, List.map_append, List.map_dropLast]
      rfl
    have hdrop : ps.dropLast.map trimSpaces = (entries ps).dropLast := List.map_dropLast
    have hsame := sameRules_dropLast P (entries ps).dropLast
    rw [hsplit] at hsame
    rw [if_pos hlast, hdrop, hsame]
    exact and_congr_right fun _ => ⟨fun h _ => h, fun h => h hlast⟩
  · have hall : ps.map trimSpaces = entries ps := rfl
    rw [if_neg hlast, hall]
    exact ⟨fun hs => ⟨hs.entries, fun hl => absurd hl hlast⟩,
      fun hl => ⟨hl.1, hl.1, fun _ _ _ => rfl, id⟩⟩

theorem withVars_congr {vars vars' : ℕ → IpStack} {n : ℕ} (h : ∀ i, n ≤ i → vars i = vars' i)
    (es : List (List UInt8)) : withVars vars n es = withVars vars' n es := by
  refine List.map_congr_left fun a ha => ?_
  rw [h a.2 (List.le_snd_of_mem_zipIdx ha)]

/-- Whether the last string is read makes no difference to what is in the variables. -/
theorem exists_ruleOf (P : InetPton) (ok : Bool) (token : Option (List UInt8)) (stack : IpStack)
    (h : readAs e ≠ none) : ∃ r, ruleOf P ok token stack e = some r := by
  obtain ⟨k, hk⟩ := Option.ne_none_iff_exists'.1 h
  exact ⟨_, by rw [ruleOf, hk]; rfl⟩

/-- What the rule of the last string has to be. -/
theorem rules_tail_iff (P : InetPton) (as : List (List UInt8)) {others : List (List UInt8)}
    (ht : Tail t) :
    (∀ vars ok token, rulesFor P ok token (withVars vars 0 (as ++ [e ++ t])) =
      rulesFor P ok token (withVars vars 0 (as ++ e :: others))) ↔
    (∀ o ∈ others, readAs o = none) ∧ readAs (e ++ t) = readAs e := by
  have hcancel (vars : ℕ → IpStack) (ok : Bool) (token : Option (List UInt8)) :
      rulesFor P ok token (withVars vars 0 (as ++ [e ++ t])) =
        rulesFor P ok token (withVars vars 0 (as ++ e :: others)) ↔
      (ruleOf P ok token (vars (0 + as.length)) (e ++ t)).toList =
        (ruleOf P ok token (vars (0 + as.length)) e).toList ++
          rulesFor P ok token (withVars vars (0 + as.length + 1) others) := by
    rw [withVars_append, withVars_append, rulesFor_append, rulesFor_append,
      List.append_cancel_left_eq]
    have hlast : rulesFor P ok token (withVars vars (0 + as.length) [e ++ t]) = _ :=
      rulesFor_cons (e ++ t, vars (0 + as.length)) []
    have hfirst : rulesFor P ok token (withVars vars (0 + as.length) (e :: others)) = _ :=
      rulesFor_cons (e, vars (0 + as.length)) (withVars vars (0 + as.length + 1) others)
    rw [hlast, hfirst, rulesFor, List.filterMap_nil, List.append_nil]
  constructor
  · intro hrules
    have hrule (vars : ℕ → IpStack) := (hcancel vars true none).1 (hrules vars true none)
    by_cases hR : readAs (e ++ t) = none
    · have hnil := hrule default
      rw [ruleOf_eq_none_iff.2 hR] at hnil
      obtain ⟨he, hothers⟩ := List.append_eq_nil_iff.1 hnil.symm
      refine ⟨rulesFor_eq_nil_iff.1 hothers, hR.trans ?_⟩
      exact (ruleOf_eq_none_iff.1 (Option.toList_eq_nil_iff.1 he)).symm
    by_cases he : readAs e = none
    · -- The rule has something of what was in the variables for the last string in it.
      have hone (stack : IpStack) : ∃ r, r.ip ⟨15, by decide⟩ = stack.ip ⟨15, by decide⟩ ∧
          [r] = rulesFor P true none (withVars default (0 + as.length + 1) others) := by
        obtain ⟨r, hr⟩ := exists_ruleOf P true none stack hR
        have hlast := hrule (Function.update default (0 + as.length) stack)
        rw [Function.update_self, hr, ruleOf_eq_none_iff.2 he,
          withVars_congr fun i hi => Function.update_of_ne (by omega) _ _] at hlast
        exact ⟨r, ip_of_ruleOf_append ht he hr, hlast⟩
      obtain ⟨r, hr, hrules₀⟩ := hone ⟨fun _ => 0, fun _ => 0, fun _ => 0⟩
      obtain ⟨r', hr', hrules₁⟩ := hone ⟨fun _ => 1, fun _ => 0, fun _ => 0⟩
      obtain rfl := List.singleton_inj.1 (hrules₀.trans hrules₁.symm)
      exact absurd (hr.symm.trans hr') (by decide)
    · obtain ⟨r, hr⟩ := exists_ruleOf P true none ((default : ℕ → IpStack) (0 + as.length)) hR
      obtain ⟨r', hr'⟩ := exists_ruleOf P true none ((default : ℕ → IpStack) (0 + as.length)) he
      have hboth := hrule default
      rw [hr, hr'] at hboth
      obtain ⟨rfl, hothers⟩ := List.cons.inj hboth
      exact ⟨rulesFor_eq_nil_iff.1 hothers.symm, readAs_eq_of_ruleOf_eq hr hr'⟩
  · rintro ⟨hothers, hread⟩ vars ok token
    rw [hcancel, ruleOf_append ht hread, rulesFor_eq_nil_iff.2 hothers, List.append_nil]

/-- A last string with a tail, for an entry and the others behind it. -/
theorem sameRules_tail (P : InetPton) (as : List (List UInt8)) {others : List (List UInt8)}
    (ht : Tail t) (hne : others ≠ []) :
    SameRules P (as ++ [e ++ t]) (as ++ e :: others) ↔
      (∀ x ∈ as ++ e :: others, ¬Shifts x) ∧ (∀ o ∈ others, readAs o = none) ∧
        (∃ x ∈ as ++ [e], readAs x = none) ∧ readAs (e ++ t) = readAs e := by
  constructor
  · intro hs
    obtain ⟨hothers, hread⟩ := (rules_tail_iff P as ht).1 hs.rules
    refine ⟨hs.entries, hothers, ?_, hread⟩
    by_contra hno
    have hall : ∀ x ∈ as ++ [e ++ t], readAs x ≠ none := fun x hx hnone => by
      rcases List.mem_append.1 hx with hx | hx
      · exact hno ⟨x, List.mem_append_left _ hx, hnone⟩
      · rw [List.mem_singleton.1 hx, hread] at hnone
        exact hno ⟨e, List.mem_append_right _ (List.mem_singleton_self e), hnone⟩
    obtain ⟨o, ho⟩ := List.exists_mem_of_ne_nil others hne
    exact hs.read hall o (List.mem_append_right _ (List.mem_cons_of_mem e ho)) (hothers o ho)
  · rintro ⟨hshift, hothers, ⟨x, hx, hnone⟩, hread⟩
    refine ⟨fun x hx => ?_, hshift, (rules_tail_iff P as ht).2 ⟨hothers, hread⟩,
      fun hall => absurd hnone ?_⟩
    · rcases List.mem_append.1 hx with hx | hx
      · exact hshift x (List.mem_append_left _ hx)
      · rw [List.mem_singleton.1 hx, Shifts, hread]
        exact hshift e (List.mem_append_right _ (List.mem_cons_self ..))
    · rcases List.mem_append.1 hx with hx | hx
      · exact hall x (List.mem_append_left _ hx)
      · rw [List.mem_singleton.1 hx, ← hread]
        exact hall _ (List.mem_append_right _ (List.mem_singleton_self _))

/-- A list that does not fit in the array. -/
theorem sameRules_of_lt {ps : List (List UInt8)} (h : Listed ps) (hn : 32 < ps.length) :
    SameRules P (tokens 44 32 (listText ps)) (entries ps) ↔ Lossless ps := by
  rw [listText, tokens_intercalate_lt (by decide) (by decide) h.plain h.comma hn, Lossless,
    if_neg (Nat.not_le_of_gt hn)]
  obtain ⟨as, p, q, rest, rfl, hlen⟩ : ∃ as p q rest, ps = as ++ p :: q :: rest ∧
      as.length = 31 := by
    refine ⟨ps.take 31, ps[31], ps[32], ps.drop 33, ?_, ?_⟩
    · rw [← List.drop_eq_getElem_cons, ← List.drop_eq_getElem_cons, List.take_append_drop]
    · rw [List.length_take]
      omega
  obtain ⟨k, hk⟩ := trimSpaces_cut p (listText (q :: rest))
  have htext : trimSpaces ([44].intercalate (p :: q :: rest)) =
      trimSpaces p ++ (List.replicate k 32 ++ 44 :: trimEnd (listText (q :: rest))) := by
    rw [← hk, List.intercalate_cons_cons, List.append_assoc, List.singleton_append]
  have hentries : entries (as ++ p :: q :: rest) =
      as.map trimSpaces ++ [trimSpaces p] ++ entries (q :: rest) := by
    rw [entries, List.map_append, List.map_cons, entries, List.append_assoc,
      List.singleton_append]
  have hlen' : (as.map trimSpaces ++ [trimSpaces p]).length = 32 := by
    rw [List.length_append, List.length_map, hlen, List.length_singleton]
  have hlast : (entries (as ++ p :: q :: rest))[31]? = some (trimSpaces p) := by
    rw [hentries, List.append_assoc, List.getElem?_append_right (by rw [List.length_map, hlen]),
      List.length_map, hlen]
    rfl
  have htail : Tail (List.replicate k 32 ++ 44 :: trimEnd (listText (q :: rest))) := ⟨k, _, rfl⟩
  have hne : entries (q :: rest) ≠ [] := List.cons_ne_nil _ _
  have hsplit : as.map trimSpaces ++ [trimSpaces p] ++ entries (q :: rest) =
      as.map trimSpaces ++ trimSpaces p :: entries (q :: rest) := List.append_assoc ..
  rw [List.take_left' hlen, List.drop_left' hlen, hlast, hentries, List.take_left' hlen',
    List.drop_left' hlen', listText, htext, hsplit, sameRules_tail P _ htail hne]
  simp only [Option.mem_def, Option.some.injEq, forall_eq']

/-- **When a list of networks is added as its entries.** -/
theorem adds_each_iff {ps : List (List UInt8)} (h : Listed ps) : AddsEach P ps ↔ Lossless ps := by
  rw [addsEach_iff_sameRules h]
  rcases Nat.lt_or_ge 32 ps.length with hn | hn
  · exact sameRules_of_lt h hn
  · exact sameRules_of_le h hn

/-- Two networks, with a space between them. -/
def twoNetworks : List (List UInt8) := [ascii "10.0.0.0/8", ascii " ::1/128"]

theorem adds_each_two : AddsEach fewPton twoNetworks :=
  (adds_each_iff ⟨by decide, by decide +kernel, by decide +kernel, by decide +kernel,
    by decide +kernel⟩).2 ⟨by decide +kernel, (if_pos (by decide)).mpr fun h => absurd h (by decide)⟩

/-- One network more than there are strings. -/
def manyNetworks : List (List UInt8) := List.replicate 33 (ascii "10.0.0.0/8")

/-- The last one is lost. -/
theorem not_adds_each_many : Listed manyNetworks ∧ ¬AddsEach fewPton manyNetworks := by
  have hlisted : Listed manyNetworks :=
    ⟨by decide, by decide +kernel, by decide +kernel, by decide +kernel, by decide +kernel⟩
  refine ⟨hlisted, fun hadds => ?_⟩
  have hsame := (sameRules_of_lt hlisted (by decide)).1 ((addsEach_iff_sameRules hlisted).1 hadds)
  rw [Lossless, if_neg (by decide)] at hsame
  exact absurd (hsame.2.1 (ascii "10.0.0.0/8") (by decide +kernel)) (by decide +kernel)

end Libks
