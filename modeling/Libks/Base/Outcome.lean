import Mathlib.Tactic.Common

/-!
# Outcomes of fallible steps

What a step that may fail is known to end in: a value with one property, or an
error with another (`Ends`). The rules follow the structure of the step, as
those of a program logic do: `Ends.bind` for two steps in a row, `Ends.mono` for
a weaker pair of properties.
-/

namespace Base

variable {ε α β : Type}

/-- The step ends in a value with `Q`, or in an error with `E`. -/
def Ends (E : ε → Prop) (Q : α → Prop) : Except ε α → Prop
  | .ok a => Q a
  | .error x => E x

variable {E E' : ε → Prop} {Q Q' : α → Prop} {R : β → Prop} {e : Except ε α}

@[simp] theorem ends_ok {a : α} : Ends E Q (.ok a : Except ε α) ↔ Q a := Iff.rfl

theorem Ends.bind {f : α → Except ε β} (h : Ends E Q e) (hf : ∀ a, Q a → Ends E R (f a)) :
    Ends E R (e >>= f) := by
  cases e with
  | ok a => exact hf a h
  | error x => exact h

/-- The second step may use that the first one has succeeded. -/
theorem Ends.bind_of {f : α → Except ε β} (h : Ends E Q e)
    (hf : ∀ a, e = .ok a → Q a → Ends E R (f a)) : Ends E R (e >>= f) := by
  cases e with
  | ok a => exact hf a rfl h
  | error x => exact h

theorem Ends.ok {a : α} (h : Ends E Q e) (ha : e = .ok a) : Q a := by
  rwa [ha] at h

theorem Ends.error {x : ε} (h : Ends E Q e) (hx : e = .error x) : E x := by
  rwa [hx] at h

/-- A step that ends in an error only where it cannot succeed. -/
theorem Ends.exists_ok_iff {P : Prop} (h : Ends E Q e) (hE : ∀ x, E x → ¬P) (hQ : ∀ a, Q a → P) :
    (∃ a, e = .ok a) ↔ P := by
  cases e with
  | ok a => exact iff_of_true ⟨a, rfl⟩ (hQ a h)
  | error x => exact iff_of_false (fun ⟨_, ha⟩ => by cases ha) (hE x h)

theorem Ends.mono (h : Ends E Q e) (hE : ∀ x, E x → E' x) (hQ : ∀ a, Q a → Q' a) :
    Ends E' Q' e := by
  cases e with
  | ok a => exact hQ a h
  | error x => exact hE x h

theorem Ends.imp (h : Ends E Q e) (hQ : ∀ a, Q a → Q' a) : Ends E Q' e :=
  h.mono (fun _ => id) hQ

/-- What two rules say about a step. -/
theorem Ends.and (h : Ends E Q e) (h' : Ends E' Q' e) :
    Ends (fun x => E x ∧ E' x) (fun a => Q a ∧ Q' a) e := by
  cases e with
  | ok a => exact ⟨h, h'⟩
  | error x => exact ⟨h, h'⟩

/-- A step that is known to succeed. -/
theorem Ends.of_ok {a : α} (h : e = .ok a) (hQ : Q a) : Ends E Q e := by
  rwa [h]

theorem Ends.exists_ok (h : Ends (fun _ => False) Q e) : ∃ a, e = .ok a ∧ Q a := by
  cases e with
  | ok a => exact ⟨a, rfl, h⟩
  | error x => exact h.elim

/-- What every step keeps, steps in a row keep. -/
theorem Ends.foldlM {f : β → α → Except ε β} (hf : ∀ b a, R b → Ends E R (f b a)) {b : β}
    (hb : R b) (l : List α) : Ends E R (l.foldlM f b) := by
  induction l generalizing b with
  | nil => exact hb
  | cons a l ih => exact (hf b a hb).bind fun b' hb' => ih hb'

/-- A step behind one that has succeeded. -/
theorem ok_bind (a : α) (f : α → Except ε β) : (Except.ok a : Except ε α) >>= f = f a := rfl

/-- A step behind one that has failed. -/
theorem error_bind (x : ε) (f : α → Except ε β) :
    (Except.error x : Except ε α) >>= f = .error x := rfl

/-- Two steps in a row have succeeded if each of them has. -/
theorem bind_eq_ok {f : α → Except ε β} {b : β} :
    e >>= f = .ok b ↔ ∃ a, e = .ok a ∧ f a = .ok b := by
  cases e with
  | ok a => simp [ok_bind]
  | error x => simp [error_bind]

/-! ## Evaluating a step -/

/-- Whether the step gives a value that passes the test. -/
def okAnd (p : α → Bool) : Except ε α → Bool
  | .ok a => p a
  | .error _ => false

theorem okAnd_iff {p : α → Bool} : okAnd p e = true ↔ ∃ a, e = .ok a ∧ p a = true := by
  cases e with
  | ok a => simp [okAnd]
  | error x => simp [okAnd]

end Base
