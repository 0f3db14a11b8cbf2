import Libks.Sb.State

/-!
# The text of a string builder

A builder is set beside the text that its calls have asked for: the pieces, each as
long as its call says, one behind the other (`Written`). What it should hold is this
text and a NUL, within its block (`KsSb.Holds`).

`ks_sb_append_ex` does not write the NUL. It copies the byte behind the piece, whatever
that is, and for this it has to be able to read it; and a piece of the builder's own
block is no longer there once the block has grown. So the text is held in every state
if and only if behind every piece there is a NUL to read, and no piece of the own block
is moved or overlaps with the place it goes to (`create_upholds_iff`).
-/

namespace Libks

open Base

namespace KsSb

/-- The length of the piece that a call appends. -/
def pieceLength (sb : KsSb) : Op → ℕ
  | .append str _ =>
    match sb.strlen str with
    | .ok len => len
    | .error _ => 0
  | .appendEx _ len _ => len

/-- Where the piece stands. -/
def Op.source : Op → Source
  | .append str _ => str
  | .appendEx str _ _ => str

/-- What `realloc` returns. -/
def Op.rest : Op → Option Mem
  | .append _ rest => rest
  | .appendEx _ _ rest => rest

/-- The first `len` bytes at a place. -/
def bytesAt (sb : KsSb) (len : ℕ) : Source → List UInt8
  | .block bs => bs.take len
  | .inside off => sb.data.read off len
  | .null | .dangling => []

/-- The piece that a call appends. -/
def piece (sb : KsSb) (op : Op) : List UInt8 := sb.bytesAt (sb.pieceLength op) op.source

/-- A builder and the text it has been given. -/
abbrev Written := KsSb × List UInt8

/-- A call, and the text behind it. -/
def step (r : Written) (op : Op) : Except Fault (Status × Written) := do
  let (o, sb) ← r.1.call op
  return (o, (sb, r.2 ++ r.1.piece op))

/-- The builder holds the text and a NUL, says how long it is, and has room for it. -/
def Holds (r : Written) : Prop :=
  r.1.data.read 0 (r.2.length + 1) = r.2 ++ [0] ∧ r.1.length = r.2.length ∧ r.1.used ≤ r.1.size

/-- No block is as large as half of the address space, and `realloc` grants none that
    is. -/
def Fits (size : ℕ) (granted : Bool) : Prop := granted = true → KsPool.required size < 2 ^ 63

/-- There are `len` bytes to read. -/
def Readable (sb : KsSb) (len : ℕ) : Source → Prop
  | .null => True
  | .block bs => bs.length < 2 ^ 63 ∧ len ≤ bs.length
  | .inside off => off + len ≤ sb.size
  | .dangling => False

instance (sb : KsSb) (len : ℕ) : DecidablePred (sb.Readable len)
  | .null => .isTrue trivial
  | .block _ => inferInstanceAs (Decidable (_ ∧ _))
  | .inside _ => inferInstanceAs (Decidable (_ ≤ _))
  | .dangling => .isFalse id

/-- `ks_sb_append` is given a string that ends. -/
def IsString (sb : KsSb) : Op → Prop
  | .append str rest => str = .null ∨ sb.strlen str = .ok (sb.pieceLength (.append str rest))
  | .appendEx _ _ _ => True

instance (sb : KsSb) : DecidablePred sb.IsString
  | .append _ _ => inferInstanceAs (Decidable (_ ∨ _))
  | .appendEx _ _ _ => .isTrue trivial

/-- The block has to grow for a piece. -/
def Grows (sb : KsSb) (op : Op) : Prop := sb.size < sb.used + sb.pieceLength op

instance (sb : KsSb) (op : Op) : Decidable (sb.Grows op) := inferInstanceAs (Decidable (_ < _))

/-- What a caller sees to: the piece can be read, a string to its end. -/
def Allowed (r : Written) (op : Op) : Prop :=
  r.1.Readable (r.1.pieceLength op) op.source ∧ r.1.IsString op ∧
  (r.1.Grows op →
    Fits (max (r.1.used + r.1.pieceLength op) (r.1.size + printBufSize)) op.rest.isSome)

instance (r : Written) : DecidablePred (Allowed r) := fun _ =>
  inferInstanceAs (Decidable (_ ∧ _ ∧ (_ → _ → _)))

/-- The byte behind the piece, if it can be copied: a piece of the own block must not have
    been moved, and be apart from the place it goes to. -/
def behind (sb : KsSb) (op : Op) : Option UInt8 :=
  match op.source with
  | .block bs => bs[sb.pieceLength op]?
  | .inside off =>
    if ¬sb.Grows op ∧ off + sb.pieceLength op < sb.size ∧
      (off + sb.pieceLength op + 1 < sb.used ∨ sb.used + sb.pieceLength op ≤ off) then
      some (sb.data (off + sb.pieceLength op))
    else none
  | .null | .dangling => none

/-- The calls that go well: there is nothing to append, or a NUL behind the piece, or the
    program ends since the block cannot grow. -/
def Good (r : Written) (op : Op) : Prop :=
  op.source = .null ∨ r.1.pieceLength op = 0 ∨ r.1.behind op = some 0 ∨
    r.1.Grows op ∧ op.rest.isSome = false

instance (r : Written) : DecidablePred (Good r) := fun _ =>
  inferInstanceAs (Decidable (_ ∨ _ ∨ _ ∨ _ ∧ _))

/-! ## The block -/

variable {sb : KsSb} {op : Op} {t : List UInt8} {size len : ℕ} {granted : Bool}
  {rest : Option Mem} {str : Source}

theorem required_of_lt (h : size + 98 < 2 ^ 64) : KsPool.required size = size + 98 := by
  rw [KsPool.required, prefixSize, fenceSize, add64_of_lt (show 96 + size < 2 ^ 64 by omega),
    add64_of_lt (by omega)]
  omega

theorem poolBlock_granted (h0 : size ≠ 0) (h : size + 98 < 2 ^ 64) : poolBlock size true = .ok () := by
  rw [poolBlock, if_neg (by simp [h0]), required_of_lt h, prefixSize, fenceSize,
    if_neg (by omega), if_neg (by omega)]

theorem poolBlock_refused : poolBlock size false = .error .assertion := if_pos (.inr rfl)

/-- What holds of a builder behind a call, where `c` stands behind the text. -/
structure Ended (sb : KsSb) (t : List UInt8) (c : UInt8) : Prop where
  text : sb.data.read 0 (t.length + 1) = t ++ [c]
  used : sb.used = t.length + 1
  le : sb.used ≤ sb.size
  size : sb.size + 98 < 2 ^ 63

theorem Ended.holds_iff {c : UInt8} (h : Ended sb t c) : Holds (sb, t) ↔ c = 0 := by
  constructor
  · intro hholds
    have heq := h.text.symm.trans hholds.1
    simpa using heq
  · rintro rfl
    have hsize := h.size
    have hle := h.le
    have hlength : sub64 sb.used 1 = t.length := by
      rw [sub64_of_le (by rw [h.used]; omega) (by omega), h.used, Nat.add_sub_cancel]
    exact ⟨h.text, hlength, hle⟩

/-- The block is grown, if the system grants it. -/
theorem accommodate_cases (h : Ended sb t 0) (hlen : len < 2 ^ 63)
    (hfits : sb.size < sb.used + len →
      Fits (max (sb.used + len) (sb.size + printBufSize)) rest.isSome) :
    (sb.size < sb.used + len ∧ rest.isSome = false ∧ sb.accommodate len rest = .error .assertion) ∨
    (¬(sb.size < sb.used + len ∧ rest.isSome = false) ∧ ∃ sb', sb.accommodate len rest = .ok sb' ∧
      sb'.used = sb.used ∧ sb.used + len ≤ sb'.size ∧ sb'.size + 98 < 2 ^ 63 ∧
      (∀ i < sb.size, sb'.data i = sb.data i) ∧ (¬sb.size < sb.used + len → sb' = sb)) := by
  have hsize := h.size
  have hle := h.le
  have hsum : add64 sb.used len = sb.used + len := add64_of_lt (by omega)
  by_cases hgrows : sb.size < sb.used + len
  · have hneeded : sub64 (sb.used + len) sb.size = sb.used + len - sb.size :=
      sub64_of_le (by omega) (by omega)
    -- The new size is that of the text, or a step of the least size.
    have hnew : add64 sb.size (if sb.used + len - sb.size < printBufSize then printBufSize
        else sb.used + len - sb.size) = max (sb.used + len) (sb.size + printBufSize) := by
      rw [printBufSize]
      split_ifs with hstep
      · rw [add64_of_lt (by omega)]
        omega
      · rw [add64_of_lt (by omega)]
        omega
    have haccommodate : sb.accommodate len rest = do
        poolBlock (max (sb.used + len) (sb.size + printBufSize)) rest.isSome
        return { sb with
          size := max (sb.used + len) (sb.size + printBufSize)
          data := fun i => if i < sb.size then sb.data i else rest.getD sb.data i } := by
      rw [accommodate, if_neg (by omega), hsum, if_pos hgrows]
      dsimp only
      rw [hneeded, hnew]
    cases rest with
    | none =>
      refine .inl ⟨hgrows, rfl, ?_⟩
      rw [haccommodate, Option.isSome_none, poolBlock_refused]
      rfl
    | some m =>
      have hroom := hfits hgrows rfl
      have hreq : KsPool.required (max (sb.used + len) (sb.size + printBufSize)) = _ :=
        required_of_lt (by rw [printBufSize]; omega)
      rw [hreq] at hroom
      refine .inr ⟨by simp, { sb with
        size := max (sb.used + len) (sb.size + printBufSize)
        data := fun i => if i < sb.size then sb.data i else m i }, ?_, rfl, Nat.le_max_left .., hroom,
        fun i hi => if_pos hi, fun hn => absurd hgrows hn⟩
      rw [haccommodate, Option.isSome_some, poolBlock_granted (by omega) (by omega)]
      rfl
  · refine .inr ⟨fun hn => hgrows hn.1, sb, ?_, rfl, by omega, hsize, fun _ _ => rfl, fun _ => rfl⟩
    rw [accommodate]
    split_ifs with h0 hg
    · rfl
    · omega
    · rfl

/-! ## The pieces -/

/-- A piece and the byte behind it go to the end of the text. -/
theorem store_eq {bs : List UInt8} {c : UInt8} (htext : sb.data.read 0 t.length = t)
    (hused : sb.used = t.length + 1) (hroom : sb.used + bs.length ≤ sb.size)
    (hsize : sb.size + 98 < 2 ^ 63)
    (hfetch : sb.fetch t.length (bs.length + 1) str = .ok (bs ++ [c])) :
    ∃ sb', sb.store str bs.length = .ok sb' ∧ Ended sb' (t ++ bs) c := by
  have hdst : sub64 sb.used 1 = t.length := by
    rw [hused, sub64_of_le (by omega) (by omega), Nat.add_sub_cancel]
  have hsucc : add64 bs.length 1 = bs.length + 1 := add64_of_lt (by omega)
  have hsum : add64 sb.used bs.length = (t ++ bs).length + 1 := by
    rw [add64_of_lt (by omega), hused, List.length_append]
    omega
  have hin : t.length + (bs ++ [c]).length ≤ sb.size := by
    rw [List.length_append, List.length_singleton]
    omega
  refine ⟨{ sb with
    data := sb.data.write t.length (bs ++ [c])
    used := (t ++ bs).length + 1 }, ?_, ?_, rfl, ?_, hsize⟩
  · rw [store, hdst, hsucc, hfetch, ok_bind, if_pos hin, hsum]
    rfl
  · have hwrite := Mem.read_write_append (p := 0) htext (bs ++ [c])
    rwa [Nat.zero_add, ← List.append_assoc, ← List.length_append, ← List.append_assoc,
      List.length_append, List.length_singleton] at hwrite
  · dsimp only
    rw [List.length_append]
    omega

theorem store_fault (hused : sb.used = t.length + 1) (hsize : sb.used ≤ sb.size)
    (hlt : sb.size < 2 ^ 63) (hlen : len < 2 ^ 63)
    (hfetch : sb.fetch t.length (len + 1) str = .error .outOfBounds) :
    sb.store str len = .error .outOfBounds := by
  have hdst : sub64 sb.used 1 = t.length := by
    rw [hused, sub64_of_le (by omega) (by omega), Nat.add_sub_cancel]
  rw [store, hdst, add64_of_lt (by omega), hfetch]
  rfl

/-- The bytes of the piece and the one behind it are copied, if they are there. -/
theorem fetch_cases {sb' : KsSb} (op : Op) (hused : sb.used = t.length + 1)
    (hstays : ¬sb.Grows op → sb' = sb) :
    match sb.behind op with
    | none =>
      sb'.fetch t.length (sb.pieceLength op + 1)
        (if sb.Grows op then op.source.moved else op.source) = .error .outOfBounds
    | some c => (sb.piece op).length = sb.pieceLength op ∧
      sb'.fetch t.length (sb.pieceLength op + 1)
        (if sb.Grows op then op.source.moved else op.source) = .ok (sb.piece op ++ [c]) := by
  rw [behind, piece]
  cases hsource : op.source with
  | null => split_ifs <;> rfl
  | dangling => split_ifs <;> rfl
  | block bs =>
    have hmoved : (if sb.Grows op then (Source.block bs).moved else .block bs) = .block bs := by
      split_ifs <;> rfl
    dsimp only
    rw [hmoved]
    cases hc : bs[sb.pieceLength op]? with
    | none =>
      have hlen := List.getElem?_eq_none_iff.1 hc
      exact if_neg (by omega)
    | some c =>
      obtain ⟨hlt, hget⟩ := List.getElem?_eq_some_iff.1 hc
      refine ⟨by rw [bytesAt, List.length_take]; omega, ?_⟩
      rw [fetch, if_pos (by omega), List.take_add_one, hc]
      rfl
  | inside off =>
    dsimp only
    by_cases hgrows : sb.Grows op
    · rw [if_neg fun h => h.1 hgrows, if_pos hgrows]
      rfl
    · rw [if_neg hgrows, hstays hgrows]
      by_cases hfree : off + sb.pieceLength op < sb.size ∧
          (off + sb.pieceLength op + 1 < sb.used ∨ sb.used + sb.pieceLength op ≤ off)
      · rw [if_pos ⟨hgrows, hfree⟩]
        refine ⟨Mem.length_read .., ?_⟩
        rw [fetch, if_pos (by omega), Mem.read_add]
        rfl
      · rw [if_neg fun h => hfree h.2]
        exact if_neg (by omega)

/-- What a call does whose piece is not empty. -/
theorem call_cases (h : Ended sb t 0) (hop : Allowed (sb, t) op) (hnull : op.source ≠ .null)
    (hlen : sb.pieceLength op ≠ 0) :
    (sb.Grows op ∧ op.rest.isSome = false ∧ sb.call op = .error .assertion) ∨
    (¬(sb.Grows op ∧ op.rest.isSome = false) ∧
      match sb.behind op with
      | none => sb.call op = .error .outOfBounds
      | some c => ∃ sb', sb.call op = .ok (.success, sb') ∧ Ended sb' (t ++ sb.piece op) c) := by
  obtain ⟨hreadable, hstrlen, hfits⟩ := hop
  have hle := h.le
  have hsb := h.size
  -- Both calls come down to `ks_sb_append_ex` with the length of the piece.
  have hcall : sb.call op = sb.appendEx op.source (sb.pieceLength op) op.rest := by
    cases op with
    | append str rest =>
      rw [call, append, if_neg (show str ≠ .null from hnull), hstrlen.resolve_left hnull, ok_bind]
      rfl
    | appendEx str len rest => rfl
  have hsmall : sb.pieceLength op < 2 ^ 63 := by
    dsimp only at hreadable
    cases hsource : op.source with
    | null => exact absurd hsource hnull
    | block bs =>
      rw [hsource] at hreadable
      exact hreadable.2.trans_lt hreadable.1
    | inside off =>
      rw [hsource] at hreadable
      have hin : off + sb.pieceLength op ≤ sb.size := hreadable
      omega
    | dangling =>
      rw [hsource] at hreadable
      exact hreadable.elim
  have hsum : add64 sb.used (sb.pieceLength op) = sb.used + sb.pieceLength op :=
    add64_of_lt (by omega)
  have hrun : sb.call op = do
      let sb' ← sb.accommodate (sb.pieceLength op) op.rest
      let sb' ← sb'.store (if sb.Grows op then op.source.moved else op.source) (sb.pieceLength op)
      return (.success, sb') := by
    rw [hcall, appendEx, if_neg (by simp [hnull, hlen]), hsum]
    rfl
  rcases accommodate_cases h hsmall hfits with ⟨hgrows, hrest, hacc⟩ | ⟨hnot, sb', hacc, hused,
    hroom, hsize, hsame, hstays⟩
  · refine .inl ⟨hgrows, hrest, ?_⟩
    rw [hrun, hacc]
    rfl
  · refine .inr ⟨hnot, ?_⟩
    have htext : sb'.data.read 0 t.length = t := by
      have hread := h.text
      rw [Mem.read_add] at hread
      have hfirst := (List.append_inj hread (by simp)).1
      rw [← Mem.read_congr fun i _ hi => hsame i (by rw [h.used] at hle; omega)] at hfirst
      exact hfirst
    have hfetch := fetch_cases op h.used hstays
    rw [hrun, hacc, ok_bind]
    cases hbehind : sb.behind op with
    | none =>
      rw [hbehind] at hfetch
      dsimp only at hfetch ⊢
      rw [store_fault (hused.trans h.used) (by omega) (by omega) hsmall hfetch]
      rfl
    | some c =>
      rw [hbehind] at hfetch
      obtain ⟨hpiece, hfetch⟩ := hfetch
      rw [← hpiece] at hfetch hroom ⊢
      obtain ⟨sb'', hstore, hended⟩ :=
        store_eq htext (hused.trans h.used) (hused ▸ hroom) hsize hfetch
      exact ⟨sb'', by rw [hstore]; rfl, hended⟩

/-! ## Calls in a row -/

theorem step_good {r : Written} (h : Ended r.1 r.2 0) (hop : Allowed r op) (hgood : Good r op) :
    Ends (· = .assertion) (fun x => Ended x.2.1 x.2.2 0) (step r op) := by
  obtain ⟨sb, t⟩ := r
  by_cases hempty : op.source = .null ∨ sb.pieceLength op = 0
  · have hpiece : sb.piece op = [] := by
      rw [piece]
      rcases hempty with hnull | hzero
      · rw [hnull]
        rfl
      · rw [hzero]
        cases op.source <;> rfl
    have hcall : sb.call op = .ok (.success, sb) := by
      cases op with
      | append str rest =>
        rw [call, append]
        split_ifs with hnull
        · rfl
        · rw [hop.2.1.resolve_left hnull, ok_bind, appendEx, if_pos]
          exact hempty
      | appendEx str len rest => exact if_pos hempty
    rw [step, hcall, ok_bind, hpiece, List.append_nil]
    exact h
  · obtain ⟨hnull, hlen⟩ := not_or.1 hempty
    rcases call_cases h hop hnull hlen with ⟨-, -, hcall⟩ | ⟨hnot, hcall⟩
    · rw [step, hcall]
      rfl
    · have hbehind : sb.behind op = some 0 := by
        rcases hgood with hn | hn | hb | hb
        · exact absurd hn hnull
        · exact absurd hn hlen
        · exact hb
        · exact absurd hb hnot
      rw [hbehind] at hcall
      obtain ⟨sb', hcall, hended⟩ := hcall
      rw [step, hcall]
      exact hended

theorem step_bad {r : Written} (h : Ended r.1 r.2 0) (hop : Allowed r op) (hbad : ¬Good r op) :
    ¬Ends (· = .assertion) (fun x => Holds x.2) (step r op) := by
  obtain ⟨sb, t⟩ := r
  obtain ⟨hnull, hrest⟩ := not_or.1 hbad
  obtain ⟨hlen, hrest⟩ := not_or.1 hrest
  obtain ⟨hbehind, hnot⟩ := not_or.1 hrest
  rcases call_cases h hop hnull hlen with ⟨hgrows, hrefused, -⟩ | ⟨-, hcall⟩
  · exact absurd ⟨hgrows, hrefused⟩ hnot
  · cases hc : sb.behind op with
    | none =>
      rw [hc] at hcall
      rw [step, hcall]
      exact Fault.noConfusion
    | some c =>
      rw [hc] at hcall
      obtain ⟨sb', hcall, hended⟩ := hcall
      rw [step, hcall]
      intro hholds
      exact hbehind (hc.trans (congrArg some (hended.holds_iff.1 hholds)))

/-- A new builder. -/
theorem create_cases {n : ℕ} (hn : n < 2 ^ 64) (hfits : Fits (startSize n) granted) :
    (create n granted = .error .assertion ∧
      (granted = true → prefixSize ≤ KsPool.required (startSize n))) ∨
    (create n granted = .error .overflow ∧ granted = true ∧
      KsPool.required (startSize n) < prefixSize) ∨
    (∃ sb, create n granted = .ok sb ∧ Ended sb [] 0) ∧
      prefixSize ≤ KsPool.required (startSize n) := by
  have h0 : startSize n ≠ 0 := by
    rw [startSize, printBufSize]
    split_ifs with h <;> omega
  have hlt : startSize n < 2 ^ 64 := by
    rw [startSize, printBufSize]
    split_ifs <;> omega
  cases granted with
  | false => exact .inl ⟨by rw [create, poolBlock_refused]; rfl, fun h => by cases h⟩
  | true =>
    rw [create, poolBlock, if_neg (by simp [h0])]
    by_cases hover : KsPool.required (startSize n) < prefixSize
    · rw [if_pos hover]
      exact .inr (.inl ⟨rfl, rfl, hover⟩)
    rw [if_neg hover]
    by_cases hfence : KsPool.required (startSize n) < prefixSize + fenceSize
    · rw [if_pos hfence]
      exact .inl ⟨rfl, fun _ => Nat.not_lt.1 hover⟩
    rw [if_neg hfence]
    have hroom := hfits rfl
    have hsize : startSize n + 98 < 2 ^ 63 := by
      by_cases hwrap : startSize n + 98 < 2 ^ 64
      · rwa [required_of_lt hwrap] at hroom
      · -- A size that wraps has no room for the fence.
        refine absurd ?_ hfence
        rw [KsPool.required, add64, add64, prefixSize, fenceSize]
        omega
    refine .inr (.inr ⟨⟨_, rfl, rfl, rfl, ?_, hsize⟩, Nat.not_lt.1 hover⟩)
    exact Nat.one_le_iff_ne_zero.2 h0

/-- A builder holds its text, whatever is appended to it, if and only if the block that
    it is created with does not wrap, and every call is a good one. -/
theorem create_upholds_iff {n : ℕ} {ops : List Op} (hn : n < 2 ^ 64)
    (hfits : Fits (startSize n) granted)
    (hops : ∀ sb, create n granted = .ok sb → Along step Allowed (sb, []) ops) :
    Ends (· = .assertion) (fun sb => Upholds step (· = .assertion) Holds (sb, []) ops)
        (create n granted) ↔
      (granted = true → prefixSize ≤ KsPool.required (startSize n)) ∧
        ∀ sb, create n granted = .ok sb → Along step Good (sb, []) ops := by
  rcases create_cases hn hfits with ⟨hcreate, hsize⟩ | ⟨hcreate, hgranted, hsize⟩ |
    ⟨⟨sb, hcreate, hended⟩, hsize⟩
  · rw [hcreate]
    exact iff_of_true rfl ⟨hsize, fun sb h => by cases h⟩
  · rw [hcreate]
    exact iff_of_false Fault.noConfusion fun h => absurd (h.1 hgranted) (Nat.not_le.2 hsize)
  · have hrow := upholds_iff_along (E := (· = Fault.assertion)) (I := Holds)
      (J := fun r => Ended r.1 r.2 0) (G := Good) (fun r hr => hr.holds_iff.2 rfl)
      (fun r op hr hop hg => step_good hr hop hg) (fun r op hr hop hg => step_bad hr hop hg)
      (s := (sb, [])) hended (hops sb hcreate)
    rw [hcreate]
    constructor
    · rintro h
      refine ⟨fun _ => hsize, fun sb' h' => ?_⟩
      cases h'
      exact hrow.1 h
    · rintro ⟨-, h⟩
      exact hrow.2 (h sb rfl)

/-- Three pieces: the second is longer than the block, the third in the block itself. -/
def threePieces : List Op := [
  .append (.block (ascii "ab" ++ [0])) none,
  .appendEx (.block (ascii "cdef" ++ [0])) 4 (some fun i => if i = 102 then 0 else 65),
  .append (.inside 100) none,
  .append .null none]

/-- A builder of four bytes grows and holds its text. -/
theorem create_upholds_threePieces :
    Ends (· = .assertion) (fun sb => Upholds step (· = .assertion) Holds (sb, []) threePieces)
      (create 4 true) := by
  have hrequired : KsPool.required (startSize 4) = 102 := by decide +kernel
  have hcreate : create 4 true = .ok { size := 4, used := 1 } := by
    rw [create, show startSize 4 = 4 from rfl, poolBlock_granted (by decide) (by decide)]
    rfl
  refine (create_upholds_iff (by decide) (fun _ => by rw [hrequired]; decide) fun sb h => ?_).2
    ⟨fun _ => by rw [hrequired]; decide, fun sb h => ?_⟩
  · obtain rfl := Except.ok.inj (hcreate.symm.trans h)
    decide +kernel
  · obtain rfl := Except.ok.inj (hcreate.symm.trans h)
    decide +kernel

/-- Behind the first two bytes of `abc` there is a `c`, and the builder ends with it. -/
theorem not_create_upholds_abc :
    ¬Ends (· = .assertion) (fun sb => Upholds step (· = .assertion) Holds (sb, [])
      [.appendEx (.block (ascii "abc" ++ [0])) 2 none]) (create 0 true) := by
  have hcreate : create 0 true = .ok { size := 700, used := 1 } := by
    rw [create, show startSize 0 = 700 from rfl, poolBlock_granted (by decide) (by decide)]
    rfl
  have hstep : okAnd (fun r => r.2.1.data.read 0 (r.2.2.length + 1) ≠ r.2.2 ++ [0])
      (step ({ size := 700, used := 1 }, []) (.appendEx (.block (ascii "abc" ++ [0])) 2 none)) =
      true := by decide +kernel
  obtain ⟨r, hr, hread⟩ := okAnd_iff.1 hstep
  rw [hcreate]
  intro hupholds
  exact of_decide_eq_true hread (hupholds.2.ok hr).start.1

end KsSb

end Libks
