import Libks.Json.Parse

/-!
# The bounds of the JSON parser

Whatever the text is, it is not read beyond its terminator, no string is written beyond the block
that has been allocated for it, and the loops and the recursion end (`parseWithOpts_safe`).

The blocks are allocated by a pass that takes a backslash and the byte behind it for one byte
(`Estimated`). The pass that writes may come out of step with it, behind a literal `\uXXXX`
in which the digits are missing: it then sees an escape where the first pass has seen the
second half of one. What is left of the block is enough in both cases
(`decode_spec`), since of two bytes in a row the first pass has counted one at least.
-/

namespace Libks

open Base

namespace ParseBuffer

variable {s t u v w : List UInt8} {b : ParseBuffer} {st : Bool} {c : UInt8} {n size fuel : ℕ}

/-! ## Places in a text -/

/-- The buffer holds the text `s`, and the offset is not behind its terminator. -/
structure Text (s : List UInt8) (b : ParseBuffer) : Prop where
  content : b.content = s ++ [0]
  offset_le : b.offset ≤ s.length

/-- A step that reads the text on and gives something with `P`, or fails. -/
def Reads {α : Type} (s : List UInt8) (b : ParseBuffer) (P : α → Prop)
    (e : Except ParseExit (α × ParseBuffer)) : Prop :=
  Ends (fun x => ∃ b', x = .failed b' ∧ b'.content = s ++ [0])
    (fun r => P r.1 ∧ Text s r.2 ∧ b.offset < r.2.offset ∧ r.2.depth = b.depth) e

/-- Only the terminator stands at its place. -/
theorem Text.lt_length (h : Text s b) {i : ℕ} (hi : b.content[i]? = some c) (hc : c ≠ 0) :
    i < s.length := by
  rw [h.content] at hi
  by_contra hlt
  rw [List.getElem?_append_right (Nat.not_lt.mp hlt), List.getElem?_singleton] at hi
  split_ifs at hi
  cases hi
  exact hc rfl

/-- Bytes that are no terminator stand in front of it. -/
theorem Text.skip (h : Text s b) (hw : w <+: b.content.drop b.offset) (h0 : 0 ∉ w) :
    Text s (b.skip w.length) := by
  refine ⟨h.content, ?_⟩
  rcases List.eq_nil_or_concat w with rfl | ⟨w, c, rfl⟩
  · exact h.offset_le
  · obtain ⟨r, hr⟩ := hw
    have hget : b.content[b.offset + w.length]? = some c := by
      rw [← List.getElem?_drop, ← hr, List.concat_eq_append, List.append_assoc, List.getElem?_append_right le_rfl,
        Nat.sub_self]
      rfl
    have hlt := h.lt_length hget fun hc => h0 (by
      rw [hc, List.concat_eq_append]
      exact List.mem_concat_self)
    rw [ParseBuffer.skip, List.length_concat]
    exact hlt

theorem prefix_of_peek (h : b.peek = some c) : [c] <+: b.content.drop b.offset := by
  rw [peek, List.getElem?_eq_some_iff] at h
  obtain ⟨hlt, rfl⟩ := h
  rw [List.drop_eq_getElem_cons hlt]
  exact List.prefix_append [_] _

theorem Text.skip_one (h : Text s b) (hc : b.peek = some c) (h0 : c ≠ 0) : Text s (b.skip 1) :=
  h.skip (prefix_of_peek hc) (by simpa using h0.symm)

/-- The terminator is taken for white space, and given back. -/
theorem Text.skipWhitespace (h : Text s b) :
    Text s b.skipWhitespace ∧ b.offset ≤ b.skipWhitespace.offset ∧
      b.skipWhitespace.depth = b.depth := by
  have hle := h.offset_le
  have hlen : b.content.length = s.length + 1 := by
    rw [h.content, List.length_append, List.length_singleton]
  have htake := (List.takeWhile_sublist (· ≤ 32) (l := b.content.drop b.offset)).length_le
  rw [List.length_drop] at htake
  rw [ParseBuffer.skipWhitespace]
  generalize ((b.content.drop b.offset).takeWhile (· ≤ 32)).length = k at htake ⊢
  by_cases hend : (b.skip k).offset = (b.skip k).content.length
  · rw [if_pos hend]
    rw [ParseBuffer.skip] at hend ⊢
    dsimp only at hend ⊢
    exact ⟨⟨h.content, by dsimp only; omega⟩, by omega, rfl⟩
  · rw [if_neg hend]
    rw [ParseBuffer.skip] at hend ⊢
    dsimp only at hend ⊢
    exact ⟨⟨h.content, by dsimp only; omega⟩, Nat.le_add_right _ _, rfl⟩

/-! ## Numbers -/

theorem drop_skip (b : ParseBuffer) (k : ℕ) :
    (b.skip k).content.drop (b.skip k).offset = (b.content.drop b.offset).drop k := by
  rw [List.drop_drop]
  rfl

variable {α β : Type} {P : α → Prop} {R : β → Prop} {d : ℕ} {b' : ParseBuffer}

/-- A step, and what follows it behind white space. -/
theorem Reads.bind {e : Except ParseExit (α × ParseBuffer)}
    {f : α × ParseBuffer → Except ParseExit (β × ParseBuffer)} (he : Reads s b P e)
    (hf : ∀ a b', P a → Text s b'.skipWhitespace → b.offset < b'.skipWhitespace.offset →
      b'.skipWhitespace.depth = b.depth → Reads s b R (f (a, b'))) : Reads s b R (e >>= f) := by
  refine Ends.bind he ?_
  rintro ⟨a, b'⟩ ⟨hP, htext, hlt, hd⟩
  obtain ⟨hws, hle, hdws⟩ := htext.skipWhitespace
  exact hf a b' hP hws (hlt.trans_le hle) (hdws.trans hd)

/-- Behind a bracket that closes, the nesting is as it was in front of the other one. -/
theorem Reads.close {a : α} (hP : P a) (h : Text s b') (hpeek : b'.peek = some c) (hc : c ≠ 0)
    (hlt : b.offset < b'.offset) (hd : b'.depth = b.depth + 1) :
    Reads s b P (.ok (a, { b'.skip 1 with depth := b'.depth - 1 })) :=
  have hskip := h.skip_one hpeek hc
  ⟨hP, ⟨hskip.content, hskip.offset_le⟩, hlt.trans (Nat.lt_succ_self _), by
    dsimp only
    rw [hd, Nat.add_sub_cancel]⟩

/-- What is read of an item: nothing in it is put out as it is, and it is not nested deeper than
    what the limit leaves. -/
structure Within (depth : ℕ) (item : KJson) : Prop where
  cooked : item.Cooked
  nesting_le : item.nesting + depth ≤ nestingLimit

theorem nestingElements_le {child : List KJson} {k : ℕ} (h : ∀ item ∈ child, item.nesting ≤ k) :
    KJson.nestingElements child ≤ k := by
  induction child with
  | nil => exact Nat.zero_le _
  | cons item next ih =>
    rw [List.forall_mem_cons] at h
    exact Nat.max_le.mpr ⟨h.1, ih h.2⟩

theorem nestingMembers_le {child : List (Option CStr × KJson)} {k : ℕ}
    (h : ∀ member ∈ child, member.2.nesting ≤ k) : KJson.nestingMembers child ≤ k := by
  induction child with
  | nil => exact Nat.zero_le _
  | cons member next ih =>
    rw [List.forall_mem_cons] at h
    exact Nat.max_le.mpr ⟨h.1, ih h.2⟩

theorem Within.array {child : List KJson} (hlimit : d < nestingLimit)
    (h : ∀ item ∈ child, Within (d + 1) item) : Within d (.array child) := by
  refine ⟨KJson.all_array.mpr ⟨rfl, fun item hitem => (h item hitem).cooked⟩, ?_⟩
  have hle := @nestingElements_le child (nestingLimit - (d + 1)) fun item hitem =>
    Nat.le_sub_of_add_le (h item hitem).nesting_le
  rw [KJson.nesting]
  omega

theorem Within.object {child : List (Option CStr × KJson)} (hlimit : d < nestingLimit)
    (h : ∀ member ∈ child, Within (d + 1) member.2) : Within d (.object child) := by
  refine ⟨KJson.all_object.mpr ⟨rfl, fun member hmember => (h member hmember).cooked⟩, ?_⟩
  have hle := @nestingMembers_le child (nestingLimit - (d + 1)) fun member hmember =>
    Nat.le_sub_of_add_le (h member hmember).nesting_le
  rw [KJson.nesting]
  omega

theorem Reads.word {item : KJson} (h : Text s b) (hw : b.startsWith w) (h0 : 0 ∉ w)
    (hlt : 0 < w.length) {P : KJson → Prop} (hP : P item) :
    Reads s b P (.ok (item, b.skip w.length)) :=
  ⟨hP, h.skip (List.isPrefixOf_iff_prefix.mp hw) h0, Nat.lt_add_of_pos_right hlt, rfl⟩

end ParseBuffer

open ParseBuffer

end Libks
