import Mathlib.Data.Set.Basic
import Mathlib.Tactic.Common

/-!
# Calls to an environment that decides

A component makes one call at a time to an environment, and the answer decides
what it does next: it makes another call, or it ends (`driven`). The environment
may answer as it likes, so it is a sequence of answers and nothing is known
about it. How many calls the component makes is bounded by a potential:

* `ended_of_potential`: each call takes the potential down, so the component
  ends, whatever is answered;
* `ended_of_spent`: a call with a *free* answer may raise the potential by a
  constant; the calls are then bounded by the number of free answers;
* `bounded_iff`: over any set of environments the calls are bounded if and only
  if the free answers are.

An environment that is a system of its own, with a state, is one of these
(`Served`).
-/

namespace Base

variable {σ α β : Type} {step : σ → α → σ ⊕ β} {o : ℕ → α} {s₀ : σ ⊕ β}

/-- The component behind its first `n` calls: about to make another one, or at
    its end. The environment answers with `o 0`, `o 1`, …. -/
def driven (step : σ → α → σ ⊕ β) (o : ℕ → α) (s₀ : σ ⊕ β) : ℕ → σ ⊕ β
  | 0 => s₀
  | n + 1 =>
    match driven step o s₀ n with
    | .inl s => step s (o n)
    | .inr b => .inr b

theorem driven_succ_of_inl {n : ℕ} {s : σ} (h : driven step o s₀ n = .inl s) :
    driven step o s₀ (n + 1) = step s (o n) := by
  rw [driven, h]

/-- A component at its end makes no more calls. -/
theorem driven_of_ended {n m : ℕ} {b : β} (h : driven step o s₀ n = .inr b) (hm : n ≤ m) :
    driven step o s₀ m = .inr b := by
  induction m, hm using Nat.le_induction with
  | base => exact h
  | succ m _ ih => rw [driven, ih]

/-- What every call keeps holds as long as the component runs; a component whose
    calls all keep it never ends. -/
theorem driven_of_invariant {I : σ → Prop} {n m : ℕ}
    (h : ∃ s, driven step o s₀ n = .inl s ∧ I s)
    (hstep : ∀ k, n ≤ k → ∀ s, I s → ∃ s', step s (o k) = .inl s' ∧ I s') (hm : n ≤ m) :
    ∃ s, driven step o s₀ m = .inl s ∧ I s := by
  induction m, hm using Nat.le_induction with
  | base => exact h
  | succ m hm ih =>
    obtain ⟨s, hs, hI⟩ := ih
    obtain ⟨s', hs', hI'⟩ := hstep m hm s hI
    exact ⟨s', (driven_succ_of_inl hs).trans hs', hI'⟩

/-- A property of the end that every call which ends the component gives. -/
theorem driven_post {I : σ → Prop} {Q : β → Prop} (h₀ : s₀.elim I Q)
    (hstep : ∀ s a, I s → (step s a).elim I Q) (n : ℕ) : (driven step o s₀ n).elim I Q := by
  induction n with
  | zero => exact h₀
  | succ n ih =>
    rw [driven]
    cases hd : driven step o s₀ n with
    | inl s =>
      rw [hd] at ih
      exact hstep s (o n) ih
    | inr b =>
      rw [hd] at ih
      exact ih

/-! ## Environments with a state -/

section Served

/- `answer s e` is what the environment in the state `e` answers to the call of
   `s`, and the state it is in behind the call. -/
variable {ε : Type} {answer : σ → ε → α × ε} {s : σ} {e e' : ε} {b : β}

/-- The environment, in the state `e`, serves the component until it ends with
    `b`, and is left in the state `e'`. -/
inductive Served (step : σ → α → σ ⊕ β) (answer : σ → ε → α × ε) : σ → ε → β → ε → Prop
  | last {s : σ} {e : ε} {b : β} :
    step s (answer s e).1 = .inr b → Served step answer s e b (answer s e).2
  | next {s s' : σ} {e e' : ε} {b : β} :
    step s (answer s e).1 = .inl s' → Served step answer s' (answer s e).2 b e' →
      Served step answer s e b e'

/-- What the environment answers from the state `e` on, as a sequence. -/
def replies (step : σ → α → σ ⊕ β) (answer : σ → ε → α × ε) : σ → ε → ℕ → α
  | s, e, 0 => (answer s e).1
  | s, e, n + 1 =>
    match step s (answer s e).1 with
    | .inl s' => replies step answer s' (answer s e).2 n
    | .inr _ => (answer s e).1

/-- The first call, and the ones behind it. -/
theorem driven_shift (step : σ → α → σ ⊕ β) (o : ℕ → α) (s : σ) (n : ℕ) :
    driven step o (.inl s) (n + 1) = driven step (fun m => o (m + 1)) (step s (o 0)) n := by
  induction n with
  | zero => rfl
  | succ n ih => rw [driven, ih, driven]

theorem Served.driven (h : Served step answer s e b e') :
    ∃ n, driven step (replies step answer s e) (.inl s) n = .inr b := by
  induction h with
  | last hstep => exact ⟨1, hstep⟩
  | @next s s' e e' b hstep _ ih =>
    obtain ⟨n, hn⟩ := ih
    refine ⟨n + 1, ?_⟩
    have htail : (fun m => replies step answer s e (m + 1)) =
        replies step answer s' (answer s e).2 := by
      funext m
      rw [replies, hstep]
    rw [driven_shift, htail, replies, hstep, hn]

end Served

/-! ## Free answers -/

/-- How many of the first `n` calls were answered for free. -/
def spent (step : σ → α → σ ⊕ β) (free : σ → α → Bool) (o : ℕ → α) (s₀ : σ ⊕ β) : ℕ → ℕ
  | 0 => 0
  | n + 1 =>
    spent step free o s₀ n +
      match driven step o s₀ n with
      | .inl s => if free s (o n) then 1 else 0
      | .inr _ => 0

variable {free : σ → α → Bool}

theorem spent_succ_of_inl {n : ℕ} {s : σ} (h : driven step o s₀ n = .inl s) :
    spent step free o s₀ (n + 1) = spent step free o s₀ n + if free s (o n) then 1 else 0 := by
  rw [spent, h]

theorem spent_le (n : ℕ) : spent step free o s₀ n ≤ n := by
  induction n with
  | zero => exact le_rfl
  | succ n ih =>
    refine Nat.add_le_add ih ?_
    split
    · split_ifs
      · exact le_rfl
      · exact Nat.zero_le 1
    · exact Nat.zero_le 1

/-- Behind the end nothing is spent. -/
theorem spent_of_ended {n m : ℕ} {b : β} (h : driven step o s₀ n = .inr b) (hm : n ≤ m) :
    spent step free o s₀ m = spent step free o s₀ n := by
  induction m, hm using Nat.le_induction with
  | base => rfl
  | succ m hm ih => rw [spent, driven_of_ended h hm, ih, Nat.add_zero]

theorem spent_mono {n m : ℕ} (hm : n ≤ m) :
    spent step free o s₀ n ≤ spent step free o s₀ m := by
  induction m, hm using Nat.le_induction with
  | base => exact le_rfl
  | succ m _ ih => exact ih.trans (Nat.le_add_right _ _)

/-! ## Potentials -/

section Potential

/- `B` is the potential at the start. A call takes one from it; a free answer
   gives `c` back. `I` is what is known of a component that runs. -/
variable {I : σ → Prop} {μ : σ → ℕ} {c B : ℕ} (h₀ : ∀ s, s₀ = .inl s → I s ∧ μ s ≤ B)
  (hstep : ∀ s a s', I s → step s a = .inl s' →
    I s' ∧ μ s' + 1 ≤ μ s + if free s a then c else 0)

include h₀ hstep

/-- The potential, the calls made and what the free answers have given. -/
theorem potential_le {n : ℕ} {s : σ} (h : driven step o s₀ n = .inl s) :
    I s ∧ μ s + n ≤ B + c * spent step free o s₀ n := by
  induction n generalizing s with
  | zero => exact ⟨(h₀ s h).1, (h₀ s h).2.trans (Nat.le_add_right B _)⟩
  | succ n ih =>
    cases hd : driven step o s₀ n with
    | inr b =>
      rw [driven, hd] at h
      cases h
    | inl s' =>
      obtain ⟨hI, hn⟩ := ih hd
      obtain ⟨hI', hs⟩ := hstep s' (o n) s hI ((driven_succ_of_inl hd).symm.trans h)
      refine ⟨hI', ?_⟩
      rw [spent_succ_of_inl hd, Nat.mul_add]
      split_ifs at hs ⊢
      · omega
      · omega

/-- The component ends, as soon as no more free answers come. -/
theorem ended_of_spent {F : ℕ} (hF : ∀ n, spent step free o s₀ n ≤ F) :
    ∃ b, driven step o s₀ (B + c * F + 1) = .inr b := by
  cases hd : driven step o s₀ (B + c * F + 1) with
  | inr b => exact ⟨b, rfl⟩
  | inl s =>
    have hμ := (potential_le h₀ hstep hd).2
    have hc := Nat.mul_le_mul_left c (hF (B + c * F + 1))
    omega

/-- Over a set of environments the calls are bounded if and only if the free
    answers are. -/
theorem bounded_iff (S : Set (ℕ → α)) :
    (∃ N, ∀ o ∈ S, ∃ b, driven step o s₀ N = .inr b) ↔
      ∃ F, ∀ o ∈ S, ∀ n, spent step free o s₀ n ≤ F := by
  refine ⟨fun ⟨N, hN⟩ => ⟨N, fun o ho n => ?_⟩, fun ⟨F, hF⟩ => ?_⟩
  · obtain ⟨b, hb⟩ := hN o ho
    rcases Nat.le_total N n with h | h
    · exact (spent_of_ended hb h).trans_le (spent_le N)
    · exact (spent_mono h).trans (spent_le N)
  · exact ⟨B + c * F + 1, fun o ho => ended_of_spent h₀ hstep (hF o ho)⟩

end Potential

/-- A component whose every call takes the potential down ends, whatever is
    answered. -/
theorem ended_of_potential {μ : σ → ℕ} {B : ℕ} (h₀ : ∀ s, s₀ = .inl s → μ s ≤ B)
    (hstep : ∀ s a s', step s a = .inl s' → μ s' < μ s) :
    ∃ b, driven step o s₀ (B + 1) = .inr b := by
  have h (s : σ) (a : α) (s' : σ) (_ : True) (hs : step s a = .inl s') :
      True ∧ μ s' + 1 ≤ μ s + if (fun _ _ => false : σ → α → Bool) s a then 0 else 0 := by
    rw [ite_self]
    exact ⟨trivial, hstep s a s' hs⟩
  cases hd : driven step o s₀ (B + 1) with
  | inr b => exact ⟨b, rfl⟩
  | inl s =>
    have hμ := (potential_le (fun s hs => ⟨trivial, h₀ s hs⟩) h hd).2
    rw [Nat.zero_mul] at hμ
    omega

end Base
