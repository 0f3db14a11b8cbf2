import Mathlib.Data.List.Basic
import Mathlib.Tactic.Common

/-!
# Byte memories

A memory gives the byte at every offset; blocks of it are read and written as
lists of bytes, and a C string is read up to its terminator (`Mem.IsStr`).
Bounds are no matter of the memory itself: a program checks them against the
capacity of the buffer it writes into.

* `read_write_self`, `read_write_of_disjoint`: what a block reads after a write;
* `IsStr.tail`, `IsStr.write_of_disjoint`: walking along a string, and writing
  elsewhere.
-/

namespace Base

/-- The byte at every offset. -/
abbrev Mem := ℕ → UInt8

namespace Mem

/-- The memory `m` with the bytes `bs` stored from the offset `p` on. -/
def write (m : Mem) (p : ℕ) (bs : List UInt8) : Mem :=
  fun i => if p ≤ i then bs[i - p]?.getD (m i) else m i

/-- The `n` bytes of `m` from the offset `p` on. -/
def read (m : Mem) : ℕ → ℕ → List UInt8
  | _, 0 => []
  | p, n + 1 => m p :: read m (p + 1) n

variable {m m' : Mem} {p q n k : ℕ} {bs cs s : List UInt8}

/-! ## Reads and writes -/

@[simp] theorem length_read (m : Mem) (p n : ℕ) : (m.read p n).length = n := by
  induction n generalizing p with
  | zero => rfl
  | succ n ih => rw [read, List.length_cons, ih]

@[simp] theorem read_zero (m : Mem) (p : ℕ) : m.read p 0 = [] := rfl

/-- A read of a stretch is one of its two parts. -/
theorem read_add (m : Mem) (p n k : ℕ) : m.read p (n + k) = m.read p n ++ m.read (p + n) k := by
  induction n generalizing p with
  | zero => simp
  | succ n ih =>
    rw [Nat.succ_add, read, ih, read, List.cons_append, Nat.add_right_comm p 1 n, Nat.add_assoc]

theorem read_one (m : Mem) (p : ℕ) : m.read p 1 = [m p] := rfl

/-- A read depends on the bytes of its stretch alone. -/
theorem read_congr (h : ∀ i, p ≤ i → i < p + n → m i = m' i) : m.read p n = m'.read p n := by
  induction n generalizing p with
  | zero => rfl
  | succ n ih =>
    rw [read, read, h p (Nat.le_refl _) (by omega), ih fun i hi hn => h i (by omega) (by omega)]

theorem getElem?_read (m : Mem) (p n : ℕ) {i : ℕ} (hi : i < n) :
    (m.read p n)[i]? = some (m (p + i)) := by
  induction n generalizing p i with
  | zero => omega
  | succ n ih =>
    cases i with
    | zero => rfl
    | succ i =>
      rw [read, List.getElem?_cons_succ, ih (p + 1) (by omega), Nat.add_right_comm p 1 i,
        Nat.add_assoc]

/-- A byte of what has been read. -/
theorem apply_of_read (h : m.read p bs.length = bs) {i : ℕ} (hi : i < bs.length) :
    m (p + i) = bs[i] := by
  have := getElem?_read m p bs.length hi
  rw [h, List.getElem?_eq_getElem hi] at this
  exact (Option.some.inj this).symm

/-- A read gives the bytes of its stretch, each at its place. -/
theorem read_eq_iff :
    m.read p n = bs ↔ bs.length = n ∧ ∀ i (hi : i < bs.length), m (p + i) = bs[i] := by
  constructor
  · rintro rfl
    refine ⟨length_read m p n, fun i hi => ?_⟩
    exact apply_of_read (by rw [length_read]) hi
  · rintro ⟨rfl, h⟩
    refine List.ext_getElem? fun i => ?_
    by_cases hi : i < bs.length
    · rw [getElem?_read m p _ hi, h i hi, List.getElem?_eq_getElem hi]
    · rw [List.getElem?_eq_none (by rw [length_read]; omega), List.getElem?_eq_none (by omega)]

/-- The first bytes of what has been read. -/
theorem take_read (m : Mem) (p n k : ℕ) (h : k ≤ n) : (m.read p n).take k = m.read p k := by
  obtain ⟨d, rfl⟩ := Nat.exists_eq_add_of_le h
  rw [read_add, List.take_left' (length_read m p k)]

/-- The last bytes of what has been read. -/
theorem drop_read (m : Mem) (p n k : ℕ) (h : k ≤ n) :
    (m.read p n).drop k = m.read (p + k) (n - k) := by
  obtain ⟨d, rfl⟩ := Nat.exists_eq_add_of_le h
  rw [read_add, List.drop_left' (length_read m p k), Nat.add_sub_cancel_left]

theorem write_apply_of_lt (h : q < p) : m.write p bs q = m q := by
  rw [write, if_neg (by omega)]

theorem write_apply_of_ge (h : p + bs.length ≤ q) : m.write p bs q = m q := by
  rw [write, if_pos (by omega), List.getElem?_eq_none (by omega), Option.getD_none]

/-- A byte within the stretch is the one written. -/
theorem write_apply_of_mem (hp : p ≤ q) (h : q - p < bs.length) : m.write p bs q = bs[q - p] := by
  rw [write, if_pos hp, List.getElem?_eq_getElem h, Option.getD_some]

/-- A write leaves the bytes around its stretch alone. -/
theorem write_apply_of_not_mem (h : q < p ∨ p + bs.length ≤ q) : m.write p bs q = m q :=
  h.elim write_apply_of_lt write_apply_of_ge

@[simp] theorem write_nil (m : Mem) (p : ℕ) : m.write p [] = m := by
  funext i
  simp [write]

/-- What has been written is read. -/
theorem read_write_self (m : Mem) (p : ℕ) (bs : List UInt8) :
    (m.write p bs).read p bs.length = bs := by
  refine read_eq_iff.2 ⟨rfl, fun i hi => ?_⟩
  rw [write_apply_of_mem (by omega) (by omega)]
  simp

/-- A read elsewhere does not see the write. -/
theorem read_write_of_disjoint (h : q + n ≤ p ∨ p + bs.length ≤ q) :
    (m.write p bs).read q n = m.read q n :=
  read_congr fun i _ _ => write_apply_of_not_mem (by omega)

/-- Two writes in a row are one. -/
theorem write_write (m : Mem) (p : ℕ) (bs cs : List UInt8) :
    (m.write p bs).write (p + bs.length) cs = m.write p (bs ++ cs) := by
  funext i
  by_cases h₁ : i < p
  · rw [write_apply_of_lt (by omega), write_apply_of_lt h₁, write_apply_of_lt h₁]
  by_cases h₂ : i - p < bs.length
  · rw [write_apply_of_lt (by omega), write_apply_of_mem (by omega) h₂,
      write_apply_of_mem (by omega) (by rw [List.length_append]; omega),
      List.getElem_append_left h₂]
  by_cases h₃ : i - (p + bs.length) < cs.length
  · rw [write_apply_of_mem (by omega) h₃,
      write_apply_of_mem (by omega) (by rw [List.length_append]; omega),
      List.getElem_append_right (by omega)]
    congr 1
    omega
  · rw [write_apply_of_ge (by omega), write_apply_of_ge (by omega),
      write_apply_of_ge (by rw [List.length_append]; omega)]

/-- Overwriting a byte of a written block. -/
theorem write_write_inside (m : Mem) (p : ℕ) (as cs : List UInt8) (b x : UInt8) :
    (m.write p (as ++ b :: cs)).write (p + as.length) [x] = m.write p (as ++ x :: cs) := by
  rw [← write_write, ← write_write m p as]
  funext i
  by_cases hi : i < p + as.length
  · rw [write_apply_of_lt hi, write_apply_of_lt hi, write_apply_of_lt hi]
  rcases Nat.eq_or_lt_of_le (Nat.not_lt.1 hi) with rfl | hi'
  · rw [write_apply_of_mem (by omega) (by simp), write_apply_of_mem (by omega) (by simp)]
    simp
  · rw [write_apply_of_ge (by simp; omega)]
    obtain ⟨j, rfl⟩ : ∃ j, i = p + as.length + (j + 1) := ⟨i - (p + as.length) - 1, by omega⟩
    by_cases hj : j < cs.length
    · rw [write_apply_of_mem (by omega) (by simp; omega),
        write_apply_of_mem (by omega) (by simp; omega)]
      simp
    · rw [write_apply_of_ge (by simp; omega), write_apply_of_ge (by omega),
        write_apply_of_ge (by simp; omega), write_apply_of_ge (by omega)]

/-- A block read right behind a written one, extended by it. -/
theorem read_write_append (h : m.read p bs.length = bs) (cs : List UInt8) :
    (m.write (p + bs.length) cs).read p (bs.length + cs.length) = bs ++ cs := by
  rw [read_add, read_write_of_disjoint (.inl (by omega)), h, read_write_self]

/-! ## C strings -/

/-- The string `s`, free of NULs, and its terminator stand at `p`. -/
structure IsStr (m : Mem) (p : ℕ) (s : List UInt8) : Prop where
  read : m.read p s.length = s
  terminator : m (p + s.length) = 0
  notMem : 0 ∉ s

/-- The string at `p`: the bytes up to the first NUL, or up to `limit` bytes. -/
def strAt (m : Mem) : ℕ → ℕ → List UInt8
  | 0, _ => []
  | limit + 1, p => if m p = 0 then [] else m p :: strAt m limit (p + 1)

/-- The empty string is its terminator. -/
theorem isStr_nil_iff : m.IsStr p [] ↔ m p = 0 :=
  ⟨fun h => h.terminator, fun h => ⟨rfl, h, by simp⟩⟩

/-- A string is its first byte, no terminator, and the string behind it. -/
theorem isStr_cons_iff {c : UInt8} :
    m.IsStr p (c :: s) ↔ m p = c ∧ c ≠ 0 ∧ m.IsStr (p + 1) s := by
  constructor
  · rintro ⟨hr, ht, hn⟩
    rw [List.length_cons, Mem.read, List.cons_eq_cons] at hr
    rw [List.mem_cons, not_or] at hn
    refine ⟨hr.1, Ne.symm hn.1, hr.2, ?_, hn.2⟩
    rwa [List.length_cons, Nat.add_comm s.length, ← Nat.add_assoc] at ht
  · rintro ⟨hc, h0, hr, ht, hn⟩
    refine ⟨by rw [List.length_cons, Mem.read, hc, hr], ?_, ?_⟩
    · rwa [List.length_cons, Nat.add_comm s.length, ← Nat.add_assoc]
    · rw [List.mem_cons, not_or]
      exact ⟨Ne.symm h0, hn⟩

theorem IsStr.head {c : UInt8} (h : m.IsStr p (c :: s)) : m p = c := (isStr_cons_iff.1 h).1

theorem IsStr.tail {c : UInt8} (h : m.IsStr p (c :: s)) : m.IsStr (p + 1) s :=
  (isStr_cons_iff.1 h).2.2

/-- What is left of a string is one. -/
theorem IsStr.drop (h : m.IsStr p s) (hk : k ≤ s.length) : m.IsStr (p + k) (s.drop k) := by
  induction k generalizing p s with
  | zero => exact h
  | succ k ih =>
    cases s with
    | nil => exact absurd hk (by simp)
    | cons c s =>
      rw [Nat.add_comm k 1, ← Nat.add_assoc, Nat.add_comm 1 k]
      exact ih h.tail (by simpa using hk)

/-- The second part of a string is one. -/
theorem IsStr.right {t : List UInt8} (h : m.IsStr p (s ++ t)) : m.IsStr (p + s.length) t := by
  have := h.drop (k := s.length) (by simp)
  rwa [List.drop_left] at this

/-- Bytes in front of a string. -/
theorem IsStr.append {bs : List UInt8} (hr : m.read p bs.length = bs) (h0 : 0 ∉ bs)
    (h : m.IsStr (p + bs.length) s) : m.IsStr p (bs ++ s) := by
  refine ⟨?_, ?_, fun hmem => (List.mem_append.1 hmem).elim h0 h.notMem⟩
  · rw [List.length_append, read_add, hr, h.read]
  · rw [List.length_append, ← Nat.add_assoc, h.terminator]

/-- A string together with its terminator. -/
theorem IsStr.block (h : m.IsStr p s) : m.read p (s.length + 1) = s ++ [0] := by
  rw [read_add, h.read, read_one, h.terminator]

/-- What a string says only depends on its own bytes. -/
theorem IsStr.congr (h : m.IsStr p s) (hm : ∀ i, p ≤ i → i ≤ p + s.length → m' i = m i) :
    m'.IsStr p s :=
  ⟨(read_congr fun i hi hn => hm i hi (by omega)).trans h.read,
    (hm _ (by omega) (Nat.le_refl _)).trans h.terminator, h.notMem⟩

/-- A write beside a string and its terminator leaves it alone. -/
theorem IsStr.write_of_disjoint (h : m.IsStr p s)
    (hq : q + bs.length ≤ p ∨ p + s.length < q) : (m.write q bs).IsStr p s :=
  h.congr fun i _ _ => write_apply_of_not_mem (by omega)

/-- Writing a string with its terminator. -/
theorem isStr_write (m : Mem) (p : ℕ) (hs : 0 ∉ s) : (m.write p (s ++ [0])).IsStr p s := by
  refine ⟨?_, ?_, hs⟩
  · rw [← write_write, read_write_of_disjoint (.inl (Nat.le_refl _)), read_write_self]
  · rw [write_apply_of_mem (by omega) (by simp)]
    simp

/-- A NUL written into a string cuts it. -/
theorem IsStr.cut {c : UInt8} {t : List UInt8} (h : m.IsStr p (s ++ c :: t)) :
    (m.write (p + s.length) [0]).IsStr p s ∧
      (m.write (p + s.length) [0]).IsStr (p + s.length + 1) t := by
  refine ⟨⟨?_, ?_, fun h0 => h.notMem (List.mem_append_left _ h0)⟩, ?_⟩
  · rw [read_write_of_disjoint (.inl (Nat.le_refl _))]
    have := h.read
    rw [List.length_append, read_add] at this
    exact (List.append_inj this (by simp)).1
  · rw [write_apply_of_mem (Nat.le_refl _) (by simp), List.getElem_singleton]
  · have := h.drop (k := s.length + 1) (by simp)
    rw [List.drop_append, List.drop_eq_nil_of_le (by omega)] at this
    simp only [Nat.add_sub_cancel_left, List.drop_succ_cons, List.drop_zero, List.nil_append] at this
    rw [← Nat.add_assoc] at this
    exact this.write_of_disjoint (.inl (by simp))

/-- A string is read back as far as its terminator. -/
theorem strAt_eq {limit : ℕ} (h : m.IsStr p s) (hl : s.length < limit) : m.strAt limit p = s := by
  induction s generalizing p limit with
  | nil =>
    cases limit with
    | zero => rfl
    | succ limit => rw [strAt, if_pos (isStr_nil_iff.1 h)]
  | cons c s ih =>
    cases limit with
    | zero => exact absurd hl (by simp)
    | succ limit =>
      obtain ⟨hc, h0, ht⟩ := isStr_cons_iff.1 h
      rw [strAt, if_neg (by rwa [hc]), hc, ih ht (by simpa using hl)]

/-- There is one string at a place. -/
theorem IsStr.unique {t : List UInt8} (h : m.IsStr p s) (ht : m.IsStr p t) : s = t := by
  have hs := strAt_eq h (show s.length < s.length + t.length + 1 by omega)
  rw [← hs, strAt_eq ht (by omega)]

/-- The string at the start of a block of bytes that a NUL follows. -/
theorem isStr_takeWhile {bs : List UInt8} (h : m.read p bs.length = bs) (h0 : m (p + bs.length) = 0) :
    m.IsStr p (bs.takeWhile (· ≠ 0)) := by
  induction bs generalizing p with
  | nil => exact isStr_nil_iff.2 h0
  | cons b bs ih =>
    rw [List.length_cons, read, List.cons_eq_cons] at h
    rw [List.length_cons, Nat.add_comm bs.length, ← Nat.add_assoc] at h0
    rw [List.takeWhile_cons]
    by_cases hb : b = 0
    · rw [if_neg (by simpa using hb)]
      exact isStr_nil_iff.2 (h.1.trans hb)
    · rw [if_pos (by simpa using hb)]
      exact isStr_cons_iff.2 ⟨h.1, hb, ih h.2 h0⟩

/-- A string has no terminator in it. -/
theorem zero_notMem_strAt (m : Mem) (limit p : ℕ) : 0 ∉ m.strAt limit p := by
  induction limit generalizing p with
  | zero => simp [strAt]
  | succ limit ih =>
    rw [strAt]
    split_ifs with h
    · simp
    · rw [List.mem_cons, not_or]
      exact ⟨Ne.symm h, ih _⟩

end Mem

end Base
