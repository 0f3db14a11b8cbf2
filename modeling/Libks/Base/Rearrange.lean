import Mathlib.Data.List.Dedup
import Mathlib.Data.List.Perm.Lattice
import Mathlib.Data.List.Range
import Mathlib.Logic.Equiv.Basic
import Mathlib.Tactic.Common
import Mathlib.Tactic.Linarith

/-!
# Rearranging a range

The elements at the positions from `lo` to `hi` are rearranged if each of them stands at
another position of the range, and those outside of it stay (`Rearranges`). What is sorted
is rearranged by exchanging two elements at a time (`Rearranges.swap`), and what holds of
all the elements of a range still holds when they have been rearranged
(`Rearranges.forall`).

An order of elements is given by a sign, as by a comparison function of C (`SignOrder`). A
range is sorted if a pivot has what is at most equal to it on one side, what is at least
equal on the other, and both sides are sorted (`SortedOn.around`).
-/

namespace Base

variable {α : Type*} {lo hi lo' hi' i j p n : ℕ} {f g f' : ℕ → α} {P : α → Prop}

/-- `f'` has the elements of `f`, those from `lo` to `hi` at other positions. -/
def Rearranges (lo hi : ℕ) (f f' : ℕ → α) : Prop :=
  ∃ σ : Equiv.Perm ℕ, (∀ i, i < lo ∨ hi < i → σ i = i) ∧ f' = f ∘ σ

namespace Rearranges

theorem refl (lo hi : ℕ) (f : ℕ → α) : Rearranges lo hi f f := ⟨Equiv.refl ℕ, fun _ _ => rfl, rfl⟩

theorem trans (h : Rearranges lo hi f g) (h' : Rearranges lo hi g f') : Rearranges lo hi f f' := by
  obtain ⟨σ, hσ, rfl⟩ := h
  obtain ⟨τ, hτ, rfl⟩ := h'
  refine ⟨τ.trans σ, fun i hi => ?_, rfl⟩
  rw [Equiv.trans_apply, hτ i hi, hσ i hi]

theorem mono (h : Rearranges lo hi f f') (hlo : lo' ≤ lo) (hhi : hi ≤ hi') :
    Rearranges lo' hi' f f' := by
  obtain ⟨σ, hσ, rfl⟩ := h
  exact ⟨σ, fun i hi => hσ i (by omega), rfl⟩

/-- Two elements are exchanged. -/
theorem swap (f : ℕ → α) (hi₁ : lo ≤ i) (hi₂ : i ≤ hi) (hj₁ : lo ≤ j) (hj₂ : j ≤ hi) :
    Rearranges lo hi f (f ∘ Equiv.swap i j) :=
  ⟨Equiv.swap i j, fun _ hk => Equiv.swap_apply_of_ne_of_ne (by omega) (by omega), rfl⟩

theorem eq_of_notMem (h : Rearranges lo hi f f') (hi : i < lo ∨ hi < i) : f' i = f i := by
  obtain ⟨σ, hσ, rfl⟩ := h
  rw [Function.comp_apply, hσ i hi]

/-- What holds of all the elements of the range. -/
theorem «forall» (h : Rearranges lo hi f f') (hP : ∀ i, lo ≤ i → i ≤ hi → P (f i)) :
    ∀ i, lo ≤ i → i ≤ hi → P (f' i) := by
  obtain ⟨σ, hσ, rfl⟩ := h
  intro i hlo hhi
  -- An element of the range has not come from outside of it.
  have hin : ¬(σ i < lo ∨ hi < σ i) := fun hout => by
    have := σ.injective (hσ (σ i) hout)
    omega
  exact hP (σ i) (by omega) (by omega)

/-- The elements are the same ones. -/
theorem perm (h : Rearranges lo hi f f') (hn : hi < n) :
    ((List.range n).map f').Perm ((List.range n).map f) := by
  obtain ⟨σ, hσ, rfl⟩ := h
  rw [← List.map_map]
  refine List.Perm.map f ?_
  rw [List.perm_ext_iff_of_nodup (List.nodup_range.map σ.injective) List.nodup_range]
  intro i
  rw [List.mem_map, List.mem_range]
  constructor
  · rintro ⟨j, hj, rfl⟩
    rw [List.mem_range] at hj
    by_contra hout
    have := σ.injective (hσ (σ j) (by omega))
    omega
  · intro hi
    refine ⟨σ.symm i, ?_, σ.apply_symm_apply i⟩
    rw [List.mem_range]
    by_contra hout
    have := hσ (σ.symm i) (by omega)
    rw [σ.apply_symm_apply] at this
    omega

end Rearranges

/-- The element at `p` moves to `k`, and that at `i` takes its place. -/
theorem rotate_apply (f : ℕ → α) {k : ℕ} (hip : i ≠ p) (hkp : k ≠ p) :
    ((f ∘ Equiv.swap i k) ∘ Equiv.swap k p) k = f p ∧
      ((f ∘ Equiv.swap i k) ∘ Equiv.swap k p) p = f i ∧
      ∀ m, m ≠ i → m ≠ k → m ≠ p → ((f ∘ Equiv.swap i k) ∘ Equiv.swap k p) m = f m := by
  refine ⟨?_, ?_, fun m hmi hmk hmp => ?_⟩
  · rw [Function.comp_apply, Equiv.swap_apply_left, Function.comp_apply,
      Equiv.swap_apply_of_ne_of_ne hip.symm hkp.symm]
  · rw [Function.comp_apply, Equiv.swap_apply_right, Function.comp_apply, Equiv.swap_apply_right]
  · rw [Function.comp_apply, Equiv.swap_apply_of_ne_of_ne hmk hmp, Function.comp_apply,
      Equiv.swap_apply_of_ne_of_ne hmi hmk]

/-- It rearranges a range with all the three. -/
theorem Rearranges.rotate (f : ℕ → α) {k : ℕ} (h₁ : lo ≤ i ∧ i ≤ hi) (h₂ : lo ≤ k ∧ k ≤ hi)
    (h₃ : lo ≤ p ∧ p ≤ hi) :
    Rearranges lo hi f ((f ∘ Equiv.swap i k) ∘ Equiv.swap k p) :=
  (Rearranges.swap f h₁.1 h₁.2 h₂.1 h₂.2).trans (.swap _ h₂.1 h₂.2 h₃.1 h₃.2)

/-! ## Orders given by a sign -/

/-- The sign is that of a total preorder: of two elements the lesser one comes first, and
    the sign of the converse is opposite. -/
structure SignOrder (ord : α → α → ℤ) : Prop where
  symm : ∀ a b, 0 ≤ ord a b ↔ ord b a ≤ 0
  trans : ∀ a b c, ord a b ≤ 0 → ord b c ≤ 0 → ord a c ≤ 0

variable {ord : α → α → ℤ}

theorem SignOrder.refl (h : SignOrder ord) (a : α) : ord a a ≤ 0 := by
  rcases Int.le_total (ord a a) 0 with hle | hle
  · exact hle
  · exact (h.symm a a).1 hle

/-- The same order, or the converse one, or none. -/
theorem SignOrder.mul (h : SignOrder ord) (c : ℤ) : SignOrder fun a b => ord a b * c := by
  rcases lt_trichotomy c 0 with hc | rfl | hc
  · have hle (x : ℤ) : x * c ≤ 0 ↔ 0 ≤ x := by
      constructor <;> intro hx <;> nlinarith
    have hge (x : ℤ) : 0 ≤ x * c ↔ x ≤ 0 := by
      constructor <;> intro hx <;> nlinarith
    refine ⟨fun a b => ?_, fun a b d hab hbd => ?_⟩
    · rw [hge, hle, h.symm b a]
    · rw [hle, h.symm] at hab hbd ⊢
      exact h.trans _ _ _ hbd hab
  · exact ⟨fun a b => by simp, fun a b d _ _ => by simp⟩
  · have hle (x : ℤ) : x * c ≤ 0 ↔ x ≤ 0 := by
      constructor <;> intro hx <;> nlinarith
    have hge (x : ℤ) : 0 ≤ x * c ↔ 0 ≤ x := by
      constructor <;> intro hx <;> nlinarith
    refine ⟨fun a b => ?_, fun a b d hab hbd => ?_⟩
    · rw [hge, hle, h.symm a b]
    · rw [hle] at hab hbd ⊢
      exact h.trans _ _ _ hab hbd

/-- The elements from `lo` to `hi` are in order. -/
def SortedOn (ord : α → α → ℤ) (f : ℕ → α) (lo hi : ℕ) : Prop :=
  ∀ i j, lo ≤ i → i < j → j ≤ hi → ord (f i) (f j) ≤ 0

theorem SortedOn.of_le (h : hi ≤ lo) : SortedOn ord f lo hi := fun i j hlo hij hhi => by omega

/-- A range in order with an element in front of it. -/
theorem SortedOn.cons (h : SortedOn ord f (lo + 1) hi)
    (hle : ∀ j, lo < j → j ≤ hi → ord (f lo) (f j) ≤ 0) : SortedOn ord f lo hi := by
  intro i j hlo hij hhi
  rcases Nat.eq_or_lt_of_le hlo with rfl | hlt
  · exact hle j hij hhi
  · exact h i j hlt hij hhi

/-- Two ranges in order, and a pivot between them. -/
theorem SortedOn.around (ho : SignOrder ord) (hl : SortedOn ord f lo (p - 1))
    (hr : SortedOn ord f (p + 1) hi) (hbefore : ∀ i, lo ≤ i → i < p → ord (f i) (f p) ≤ 0)
    (hbehind : ∀ j, p < j → j ≤ hi → 0 ≤ ord (f j) (f p)) : SortedOn ord f lo hi := by
  intro i j hlo hij hhi
  rcases Nat.lt_trichotomy i p with hip | rfl | hip
  · rcases Nat.lt_trichotomy j p with hjp | rfl | hjp
    · exact hl i j hlo hij (by omega)
    · exact hbefore i hlo hip
    · exact ho.trans _ _ _ (hbefore i hlo hip) ((ho.symm _ _).1 (hbehind j hjp hhi))
  · exact (ho.symm _ _).1 (hbehind j hij hhi)
  · exact hr i j hip hij hhi

/-- Ranges in order do not depend on what is outside of them. -/
theorem SortedOn.congr (h : SortedOn ord f lo hi) (heq : ∀ i, lo ≤ i → i ≤ hi → f' i = f i) :
    SortedOn ord f' lo hi := by
  intro i j hlo hij hhi
  rw [heq i hlo (by omega), heq j (by omega) hhi]
  exact h i j hlo hij hhi

/-- A list of elements in order. -/
theorem SortedOn.pairwise (h : SortedOn ord f 0 (n - 1)) :
    ((List.range n).map f).Pairwise fun a b => ord a b ≤ 0 := by
  rw [List.pairwise_map]
  refine List.pairwise_lt_range.imp_of_mem fun {i j} hi hj hij => ?_
  rw [List.mem_range] at hj
  exact h i j (Nat.zero_le _) hij (by omega)

end Base
