import Libks.Base.Links
import Libks.Base.Outcome
import Mathlib.Data.Finmap
import Mathlib.Data.Finset.Card
import Mathlib.Logic.Function.Basic

/-!
# Heaps of nodes

A heap holds the allocated nodes, by their addresses. A node is read and written
through its address, which fails, as the program does, if no node is there.
-/

namespace Base

/-- The allocated nodes, by their addresses. A pointer is an `Option ℕ`: the null
    pointer is `none`. -/
abbrev Heap (N : Type) := Finmap fun _ : ℕ => N

namespace Heap

variable {N ε : Type} {h h' : Heap N} {p q : ℕ} {n : N} {f : N → N} {e : ε}

/-- The node at `p`. -/
def load (e : ε) (h : Heap N) (p : ℕ) : Except ε N :=
  match h.lookup p with
  | some n => .ok n
  | none => .error e

/-- A change of the node at `p`. -/
def update (e : ε) (h : Heap N) (p : ℕ) (f : N → N) : Except ε (Heap N) :=
  match h.lookup p with
  | some n => .ok (h.insert p (f n))
  | none => .error e

/-- A change of the node that a pointer leads to, unless it is null. -/
def updateAt (e : ε) (h : Heap N) : Option ℕ → (N → N) → Except ε (Heap N)
  | none, _ => .ok h
  | some p, f => h.update e p f

theorem load_eq (hn : h.lookup p = some n) : h.load e p = .ok n := by
  rw [load, hn]

theorem lookup_of_load (hl : h.load e p = .ok n) : h.lookup p = some n := by
  rw [load] at hl
  split at hl
  · rename_i m hm
    cases hl
    exact hm
  · cases hl

theorem update_eq (hn : h.lookup p = some n) : h.update e p f = .ok (h.insert p (f n)) := by
  rw [update, hn]

/-- What stands at `q` after a change of the node at `p`. -/
theorem lookup_of_update (hu : h.update e p f = .ok h') (q : ℕ) :
    h'.lookup q = if q = p then (h.lookup q).map f else h.lookup q := by
  rw [update] at hu
  split at hu
  · rename_i n hn
    injection hu with hu
    rw [← hu]
    split_ifs with hq
    · rw [hq, Finmap.lookup_insert, hn, Option.map_some]
    · rw [Finmap.lookup_insert_of_ne _ hq]
  · nomatch hu

theorem lookup_of_updateAt {o : Option ℕ} (hu : h.updateAt e o f = .ok h') (q : ℕ) :
    h'.lookup q = if o = some q then (h.lookup q).map f else h.lookup q := by
  cases o with
  | none =>
    injection hu with hu
    rw [hu, if_neg (by simp)]
  | some p =>
    rw [lookup_of_update hu]
    simp only [Option.some.injEq, eq_comm]

/-- The walk along the links `f` from a pointer on: what `g` makes of the nodes. -/
def visit {β : Type} (e fuelled : ε) (f : N → Option ℕ) (g : ℕ → N → List β) (h : Heap N) :
    ℕ → Option ℕ → Except ε (List β)
  | _, none => .ok []
  | 0, some _ => .error fuelled
  | fuel + 1, some p => do
    let n ← h.load e p
    let bs ← visit e fuelled f g h fuel (f n)
    return g p n ++ bs

/-- The walk that frees every node, having read where its link `f` leads: what has
    been freed, and what is left. -/
def freeAll (e fuelled : ε) (f : N → Option ℕ) :
    ℕ → Heap N → Option ℕ → Except ε (List ℕ × Heap N)
  | _, h, none => .ok ([], h)
  | 0, _, some _ => .error fuelled
  | fuel + 1, h, some p => do
    let n ← h.load e p
    let (ps, h) ← freeAll e fuelled f fuel (h.erase p) (f n)
    return (p :: ps, h)

/-- The walk of `k` steps along the links `f`: the pointer it ends at. -/
def walk (e : ε) (f : N → Option ℕ) (h : Heap N) : ℕ → Option ℕ → Except ε (Option ℕ)
  | 0, o => .ok o
  | _ + 1, none => .error e
  | k + 1, some p => do
    let n ← h.load e p
    walk e f h k (f n)

/-- A pointer to an allocated node, or a null one. -/
def Valid (h : Heap N) (o : Option ℕ) : Prop := ∀ p ∈ o, p ∈ h

theorem exists_update (hp : p ∈ h) : ∃ h', h.update e p f = .ok h' := by
  obtain ⟨n, hn⟩ := Finmap.mem_iff.1 hp
  exact ⟨_, update_eq hn⟩

theorem Valid.exists_updateAt {o : Option ℕ} (ho : h.Valid o) :
    ∃ h', h.updateAt e o f = .ok h' := by
  cases o with
  | none => exact ⟨h, rfl⟩
  | some p => exact exists_update (ho p rfl)

theorem lookup_map_of_updateAt {β : Type} {o : Option ℕ} (hu : h.updateAt e o f = .ok h')
    {g : N → β} (hg : ∀ n, g (f n) = g n) (q : ℕ) :
    (h'.lookup q).map g = (h.lookup q).map g := by
  rw [lookup_of_updateAt hu]
  split_ifs
  · rw [Option.map_map]
    congr 1
    exact funext hg
  · rfl

/-- A change of a node allocates and frees nothing. -/
theorem mem_of_updateAt {o : Option ℕ} (hu : h.updateAt e o f = .ok h') (q : ℕ) :
    q ∈ h' ↔ q ∈ h := by
  have := lookup_map_of_updateAt hu (g := fun _ => ()) (fun _ => rfl) q
  rw [← Finmap.lookup_isSome, ← Finmap.lookup_isSome, ← Option.isSome_map, this,
    Option.isSome_map]

/-! ## Links -/

/-- The link `g` of the node at `p`. -/
def link (g : N → Option ℕ) (h : Heap N) (p : ℕ) : Option ℕ := (h.lookup p).bind g

variable {g : N → Option ℕ} {o v : Option ℕ}

theorem link_eq (hn : h.lookup p = some n) : h.link g p = g n := by
  rw [link, hn, Option.bind_some]

/-- A change that keeps the link `g`. -/
theorem link_of_updateAt_keep (hu : h.updateAt e o f = .ok h') (hg : ∀ n, g (f n) = g n) :
    h'.link g = h.link g := by
  funext q
  rw [link, link, lookup_of_updateAt hu]
  split_ifs
  · rw [Option.bind_map]
    congr 1
    exact funext hg
  · rfl

/-- A change that sets the link `g`. -/
theorem link_of_updateAt_set (hu : h.updateAt e o f = .ok h') (hg : ∀ n, g (f n) = v)
    (hq : q ∈ h) (ho : o = some q) : h'.link g q = v := by
  obtain ⟨n, hn⟩ := Finmap.mem_iff.1 hq
  rw [link, lookup_of_updateAt hu, if_pos ho, hn, Option.map_some, Option.bind_some, hg]

theorem link_of_updateAt_ne (hu : h.updateAt e o f = .ok h') (ho : o ≠ some q) :
    h'.link g q = h.link g q := by
  rw [link, link, lookup_of_updateAt hu, if_neg ho]

theorem link_insert_self : link g (h.insert p n) p = g n := by
  rw [link, Finmap.lookup_insert, Option.bind_some]

theorem link_insert_of_ne (hq : q ≠ p) : link g (h.insert p n) q = h.link g q := by
  rw [link, link, Finmap.lookup_insert_of_ne _ hq]

theorem link_erase_of_ne (hq : q ≠ p) : link g (h.erase p) q = h.link g q := by
  rw [link, link, Finmap.lookup_erase_ne hq]

/-- A change of one node sets one link. -/
theorem link_update (hp : p ∈ h) (hu : h.update e p f = .ok h') (hg : ∀ n, g (f n) = v) :
    h'.link g = Function.update (h.link g) p v := by
  obtain ⟨n, hn⟩ := Finmap.mem_iff.1 hp
  funext q
  rw [link, lookup_of_update hu]
  by_cases hq : q = p
  · rw [if_pos hq, hq, hn, Function.update_self, Option.map_some, Option.bind_some, hg]
  · rw [if_neg hq, Function.update_of_ne hq, link]

/-! ## Walks -/

variable {e' : ε} {l : List ℕ}

theorem length_le_card (hl : ∀ p ∈ l, p ∈ h) (hnd : l.Nodup) : l.length ≤ h.keys.card := by
  rw [← List.toFinset_card_of_nodup hnd]
  refine Finset.card_le_card fun p hp => ?_
  exact Finmap.mem_keys.2 (hl p (List.mem_toFinset.1 hp))

/-- What `f` makes of the node at `p`, if there is one. -/
def made {β : Type} (f : ℕ → N → List β) (h : Heap N) (p : ℕ) : List β :=
  ((h.lookup p).map (f p)).getD []

/-- A walk along a list of nodes ends, and has read all of them. -/
theorem visit_ok {β : Type} {fuel : ℕ} (e e' : ε) (f : ℕ → N → List β) (h : Heap N)
    (hf : Follows (h.link g) o l) (hl : ∀ p ∈ l, p ∈ h) (hfuel : l.length ≤ fuel) :
    h.visit e e' g f fuel o = .ok (l.flatMap (h.made f)) := by
  induction l generalizing o fuel with
  | nil =>
    obtain rfl : o = none := hf
    cases fuel <;> rfl
  | cons p l ih =>
    obtain ⟨rfl, hf⟩ := hf
    obtain ⟨n, hn⟩ := Finmap.mem_iff.1 (hl p (List.mem_cons_self ..))
    rw [link_eq hn] at hf
    cases fuel with
    | zero => exact absurd hfuel (by simp)
    | succ fuel =>
      rw [visit, load_eq hn, ok_bind,
        ih hf (fun q hq => hl q (List.mem_cons_of_mem p hq)) (Nat.le_of_succ_le_succ hfuel),
        List.flatMap_cons, made, hn]
      rfl

/-- A walk that frees the nodes of a list frees all of them, and no others. -/
theorem freeAll_ok (e e' : ε) {fuel : ℕ} {h : Heap N} (hf : Follows (h.link g) o l)
    (hl : ∀ p ∈ l, p ∈ h) (hnd : l.Nodup) (hfuel : l.length ≤ fuel) :
    ∃ h', freeAll e e' g fuel h o = .ok (l, h') ∧ ∀ q, q ∈ h' ↔ q ∈ h ∧ q ∉ l := by
  induction l generalizing o fuel h with
  | nil =>
    obtain rfl : o = none := hf
    exact ⟨h, by cases fuel <;> rfl, fun q => by simp⟩
  | cons p l ih =>
    obtain ⟨rfl, hf⟩ := hf
    obtain ⟨n, hn⟩ := Finmap.mem_iff.1 (hl p (List.mem_cons_self ..))
    rw [link_eq hn] at hf
    obtain ⟨hpl, hnd⟩ := List.nodup_cons.1 hnd
    have hne (q : ℕ) (hq : q ∈ l) : q ≠ p := fun heq => hpl (heq ▸ hq)
    cases fuel with
    | zero => exact absurd hfuel (by simp)
    | succ fuel =>
      obtain ⟨h', hrun, hmem⟩ := ih (h := h.erase p)
        (hf.congr fun q hq => link_erase_of_ne (hne q hq))
        (fun q hq => Finmap.mem_erase.2 ⟨hne q hq, hl q (List.mem_cons_of_mem p hq)⟩) hnd
        (Nat.le_of_succ_le_succ hfuel)
      refine ⟨h', ?_, fun q => ?_⟩
      · rw [freeAll, load_eq hn, ok_bind, hrun]
        rfl
      · rw [hmem, Finmap.mem_erase, List.mem_cons, not_or]
        tauto

/-- A walk along a list of nodes. -/
theorem walk_next {g' : N → Option ℕ} (hseg : Seg (h.link g) (h.link g') none l none)
    (hl : ∀ p ∈ l, p ∈ h) {i k : ℕ} (hk : i + k < l.length) :
    h.walk e g k l[i]? = .ok l[i + k]? := by
  induction k generalizing i with
  | zero => cases l[i]? <;> rfl
  | succ k ih =>
    have hi : l[i]? = some l[i] := List.getElem?_eq_getElem (by omega)
    obtain ⟨n, hn⟩ := Finmap.mem_iff.1 (hl _ (List.getElem_mem (show i < l.length by omega)))
    have hnext := (hseg.getElem? hi).1
    rw [link_eq hn] at hnext
    rw [hi, walk, load_eq hn, ok_bind, hnext, ih (by omega), Nat.add_right_comm, Nat.add_assoc]

/-- A walk in the opposite direction. -/
theorem walk_prev {g' : N → Option ℕ} (hseg : Seg (h.link g) (h.link g') none l none)
    (hl : ∀ p ∈ l, p ∈ h) {i k : ℕ} (hk : k ≤ i) (hi : i < l.length) :
    h.walk e g' k l[i]? = .ok l[i - k]? := by
  induction k generalizing i with
  | zero => cases l[i - 0]? <;> rfl
  | succ k ih =>
    obtain ⟨j, rfl⟩ : ∃ j, i = j + 1 := ⟨i - 1, by omega⟩
    have hj : l[j + 1]? = some l[j + 1] := List.getElem?_eq_getElem hi
    obtain ⟨n, hn⟩ := Finmap.mem_iff.1 (hl _ (List.getElem_mem hi))
    have hprev := (hseg.getElem? hj).2 j rfl
    rw [link_eq hn] at hprev
    rw [hj, walk, load_eq hn, ok_bind, hprev, ih (by omega) (by omega), Nat.add_sub_add_right]

end Heap

end Base
