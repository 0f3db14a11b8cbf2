import Mathlib.Data.List.Basic
import Mathlib.Data.List.Induction
import Mathlib.Data.List.Nodup
import Mathlib.Tactic.Common

/-!
# Linked lists

Nodes hold links to their neighbours, as maps `next` and `prev` that give `none`
for a null link. A list of nodes is singly linked if following `next` visits it
and ends (`Follows`); it is a segment of a doubly linked list if both links of
every node lead to its neighbours (`Seg`).

What an edit does is said in terms of the links before and after it, so that it
does not matter how they are stored:

* `Seg.pushFront`, `Seg.pushBack`: a new node at an end;
* `Seg.unlink`: a node taken out, wherever it is;
* `Seg.relocate`: a node that has moved, in the place of the old one;
* `Seg.splice`: other nodes in the place of those between two of them.
-/

namespace Base

variable {α : Type} {next next' prev prev' : α → Option α} {a b : α} {l xs ys : List α}

/-! ## Singly linked lists -/

/-- Following the links from `p` visits the nodes `l`, and ends. -/
def Follows (next : α → Option α) : Option α → List α → Prop
  | p, [] => p = none
  | p, a :: l => p = some a ∧ Follows next (next a) l

theorem Follows.head {p : Option α} (h : Follows next p l) : p = l.head? := by
  cases l with
  | nil => exact h
  | cons a l => exact h.1

/-- Only the links of the nodes matter. -/
theorem Follows.congr {p : Option α} (h : Follows next p l) (hn : ∀ a ∈ l, next' a = next a) :
    Follows next' p l := by
  induction l generalizing p with
  | nil => exact h
  | cons a l ih =>
    refine ⟨h.1, ?_⟩
    rw [hn a (List.mem_cons_self ..)]
    exact ih h.2 fun b hb => hn b (List.mem_cons_of_mem a hb)

/-- There is one list of nodes to visit. -/
theorem Follows.unique {p : Option α} {l' : List α} (h : Follows next p l)
    (h' : Follows next p l') : l = l' := by
  induction l generalizing p l' with
  | nil =>
    cases l' with
    | nil => rfl
    | cons a l' => exact absurd (h.symm.trans h'.1) (by simp)
  | cons a l ih =>
    cases l' with
    | nil => exact absurd (h'.symm.trans h.1) (by simp)
    | cons a' l' =>
      obtain rfl := Option.some.inj (h.1.symm.trans h'.1)
      rw [ih h.2 h'.2]

/-- The links behind a node. -/
theorem Follows.of_append {p : Option α} (h : Follows next p (xs ++ a :: ys)) :
    Follows next (next a) ys := by
  induction xs generalizing p with
  | nil => exact h.2
  | cons x xs ih => exact ih h.2

/-- A node is skipped by the one in front of it. -/
theorem Follows.skip {p : Option α} (h : Follows next p (xs ++ b :: a :: ys))
    (hb : next' b = next a) (hn : ∀ x ∈ xs ++ ys, next' x = next x) :
    Follows next' p (xs ++ b :: ys) := by
  induction xs generalizing p with
  | nil =>
    refine ⟨h.1, ?_⟩
    rw [hb]
    exact h.2.2.congr hn
  | cons x xs ih =>
    refine ⟨h.1, ?_⟩
    rw [hn x (List.mem_cons_self ..)]
    exact ih h.2 fun y hy => hn y (List.mem_cons_of_mem x hy)

/-! ## Doubly linked lists -/

/-- The nodes `l` are linked in both directions, the first of them back to `b`, the
    last of them on to `c`. -/
def Seg (next prev : α → Option α) : Option α → List α → Option α → Prop
  | _, [], _ => True
  | b, a :: l, c => prev a = b ∧ next a = l.head?.or c ∧ Seg next prev (some a) l c

variable {b' c c' : Option α}

theorem seg_append {b : Option α} :
    Seg next prev b (xs ++ ys) c ↔
      Seg next prev b xs (ys.head?.or c) ∧ Seg next prev (xs.getLast?.or b) ys c := by
  induction xs generalizing b with
  | nil => simp [Seg]
  | cons a xs ih =>
    rw [List.cons_append, Seg, Seg, ih, and_assoc, and_assoc]
    have hhead : (xs ++ ys).head?.or c = xs.head?.or (ys.head?.or c) := by
      rw [List.head?_append, Option.or_assoc]
    have hlast : xs.getLast?.or (some a) = (a :: xs).getLast?.or b := by
      rw [List.getLast?_cons]
      cases xs.getLast? <;> rfl
    rw [hhead, hlast]

theorem seg_singleton {b : Option α} :
    Seg next prev b [a] c ↔ prev a = b ∧ next a = c := by
  simp [Seg]

/-- Only the links of the nodes matter. -/
theorem Seg.congr {b : Option α} (h : Seg next prev b l c)
    (hl : ∀ a ∈ l, next' a = next a ∧ prev' a = prev a) : Seg next' prev' b l c := by
  induction l generalizing b with
  | nil => trivial
  | cons a l ih =>
    obtain ⟨hn, hp⟩ := hl a (List.mem_cons_self ..)
    exact ⟨hp.trans h.1, hn.trans h.2.1, ih h.2.2 fun x hx => hl x (List.mem_cons_of_mem a hx)⟩

/-- The first node may be linked back to another one. -/
theorem Seg.rehead {b : Option α} (h : Seg next prev b l c) (hnd : l.Nodup)
    (hnext : ∀ a ∈ l, next' a = next a)
    (hhead : ∀ a, l.head? = some a → prev' a = b')
    (hprev : ∀ a ∈ l, l.head? ≠ some a → prev' a = prev a) : Seg next' prev' b' l c := by
  cases l with
  | nil => trivial
  | cons a l =>
    rw [List.nodup_cons] at hnd
    refine ⟨hhead a rfl, (hnext a (List.mem_cons_self ..)).trans h.2.1, h.2.2.congr fun x hx => ?_⟩
    have hxa : a ≠ x := fun hax => hnd.1 (hax ▸ hx)
    exact ⟨hnext x (List.mem_cons_of_mem a hx),
      hprev x (List.mem_cons_of_mem a hx) fun heq => hxa (Option.some.inj heq)⟩

/-- The last node may be linked on to another one. -/
theorem Seg.retail {b : Option α} (h : Seg next prev b l c) (hnd : l.Nodup)
    (hprev : ∀ a ∈ l, prev' a = prev a)
    (hlast : ∀ a, l.getLast? = some a → next' a = c')
    (hnext : ∀ a ∈ l, l.getLast? ≠ some a → next' a = next a) : Seg next' prev' b l c' := by
  rcases List.eq_nil_or_concat' l with rfl | ⟨l, a, rfl⟩
  · trivial
  · rw [seg_append] at h ⊢
    have hnotin : ∀ x ∈ l, a ≠ x := fun x hx hax =>
      List.disjoint_of_nodup_append hnd hx (by simp [hax])
    refine ⟨h.1.congr fun x hx => ⟨?_, ?_⟩, ?_⟩
    · exact hnext x (List.mem_append_left _ hx) fun heq => hnotin x hx (by simpa using heq)
    · exact hprev x (List.mem_append_left _ hx)
    · obtain ⟨hp, -⟩ := seg_singleton.1 h.2
      exact seg_singleton.2 ⟨(hprev a (by simp)).trans hp, hlast a (by simp)⟩

/-- Following `next` from the first node visits them all. -/
theorem Seg.follows_next {b : Option α} (h : Seg next prev b l none) :
    Follows next l.head? l := by
  induction l generalizing b with
  | nil => rfl
  | cons a l ih =>
    refine ⟨rfl, ?_⟩
    rw [h.2.1, Option.or_none]
    exact ih h.2.2

/-- Following `prev` from the last node visits them all, in the opposite order. -/
theorem Seg.follows_prev (h : Seg next prev none l c) : Follows prev l.getLast? l.reverse := by
  induction l using List.reverseRec generalizing c with
  | nil => rfl
  | append_singleton l a ih =>
    rw [seg_append] at h
    rw [List.reverse_concat, List.getLast?_concat]
    refine ⟨rfl, ?_⟩
    rw [(seg_singleton.1 h.2).1, Option.or_none]
    exact ih h.1

/-- The node before and the node behind `a`. -/
theorem Seg.at (h : Seg next prev none (xs ++ a :: ys) none) :
    prev a = xs.getLast? ∧ next a = ys.head? := by
  obtain ⟨-, hp, hn, -⟩ := seg_append.1 h
  rw [Option.or_none] at hp hn
  exact ⟨hp, hn⟩

/-- The links lead to the neighbours in the list. -/
theorem Seg.getElem? (h : Seg next prev none l none) {i : ℕ} (ha : l[i]? = some a) :
    next a = l[i + 1]? ∧ ∀ j, i = j + 1 → prev a = l[j]? := by
  obtain ⟨hi, rfl⟩ := List.getElem?_eq_some_iff.1 ha
  have hsplit : l = l.take i ++ l[i] :: l.drop (i + 1) := by
    rw [List.getElem_cons_drop, List.take_append_drop]
  rw [hsplit] at h
  refine ⟨?_, fun j hj => ?_⟩
  · rw [h.at.2, List.head?_drop]
  · rw [h.at.1, List.getLast?_take, if_neg (by omega), hj, Nat.add_sub_cancel,
      List.getElem?_eq_getElem (by omega), Option.some_or]

/-- The links are inverse to each other. -/
theorem Seg.next_eq_iff (h : Seg next prev none l none) (ha : a ∈ l) (hb : b ∈ l) :
    next a = some b ↔ prev b = some a := by
  constructor
  · intro hab
    obtain ⟨xs, ys, rfl⟩ := List.append_of_mem ha
    rw [h.at.2] at hab
    obtain ⟨ys, rfl⟩ : ∃ zs, ys = b :: zs := by
      cases ys with
      | nil => nomatch hab
      | cons c ys => exact ⟨ys, by rw [Option.some.inj hab]⟩
    rw [List.append_cons] at h
    rw [h.at.1, List.getLast?_concat]
  · intro hba
    obtain ⟨xs, ys, rfl⟩ := List.append_of_mem hb
    rw [h.at.1] at hba
    obtain ⟨xs, rfl⟩ := List.getLast?_eq_some_iff.1 hba
    rw [List.append_assoc] at h
    exact h.at.2

/-! ## Edits -/

/-- A new node before the first one. -/
theorem Seg.pushFront {b : Option α} (h : Seg next prev b l c) (hnd : l.Nodup)
    (hna : next' a = l.head?.or c) (hpa : prev' a = b)
    (hnext : ∀ x ∈ l, next' x = next x)
    (hhead : ∀ x, l.head? = some x → prev' x = some a)
    (hprev : ∀ x ∈ l, l.head? ≠ some x → prev' x = prev x) : Seg next' prev' b (a :: l) c :=
  ⟨hpa, hna, h.rehead hnd hnext hhead hprev⟩

/-- A new node behind the last one. -/
theorem Seg.pushBack {b : Option α} (h : Seg next prev b l c) (hnd : l.Nodup)
    (hna : next' a = c) (hpa : prev' a = l.getLast?.or b)
    (hprev : ∀ x ∈ l, prev' x = prev x)
    (hlast : ∀ x, l.getLast? = some x → next' x = some a)
    (hnext : ∀ x ∈ l, l.getLast? ≠ some x → next' x = next x) : Seg next' prev' b (l ++ [a]) c :=
  seg_append.2 ⟨h.retail hnd hprev hlast hnext, seg_singleton.2 ⟨hpa, hna⟩⟩

/-- Other nodes, or none, in the place of those between `b` and `c`. -/
theorem Seg.splice {c : α} (ms zs : List α)
    (h : Seg next prev none (xs ++ b :: (ms ++ c :: ys)) none)
    (hzs : Seg next' prev' (some b) zs (some c)) (hb : next' b = zs.head?.or (some c))
    (hc : prev' c = zs.getLast?.or (some b))
    (hnext : ∀ x ∈ xs ++ c :: ys, next' x = next x)
    (hprev : ∀ x ∈ xs ++ b :: ys, prev' x = prev x) :
    Seg next' prev' none (xs ++ b :: (zs ++ c :: ys)) none := by
  obtain ⟨hxs, hpb, -, hrest⟩ := seg_append.1 h
  obtain ⟨-, -, hnc, hys⟩ := seg_append.1 hrest
  refine seg_append.2 ⟨hxs.congr fun x hx => ?_, (hprev b (by simp)).trans hpb, ?_,
    seg_append.2 ⟨?_, ?_, ?_, hys.congr fun x hx => ?_⟩⟩
  · exact ⟨hnext x (List.mem_append_left _ hx), hprev x (List.mem_append_left _ hx)⟩
  · rw [hb, List.head?_append, Option.or_none]
    rfl
  · exact hzs
  · exact hc
  · exact (hnext c (by simp)).trans hnc
  · exact ⟨hnext x (by simp [hx]), hprev x (by simp [hx])⟩

/-- Other nodes, or none, in the place of `a`. Its neighbours are linked to what
    comes instead of it. -/
theorem Seg.replace (zs : List α) (h : Seg next prev none (xs ++ a :: ys) none)
    (hnd : (xs ++ a :: ys).Nodup) (hzs : Seg next' prev' (prev a) zs (next a))
    (hbefore : ∀ x, prev a = some x → next' x = zs.head?.or (next a))
    (hbehind : ∀ x, next a = some x → prev' x = zs.getLast?.or (prev a))
    (hnext : ∀ x ∈ xs ++ ys, prev a ≠ some x → next' x = next x)
    (hprev : ∀ x ∈ xs ++ ys, next a ≠ some x → prev' x = prev x) :
    Seg next' prev' none (xs ++ (zs ++ ys)) none := by
  obtain ⟨hpa, hna⟩ := h.at
  rw [hpa, hna] at hzs
  rw [hpa] at hbefore hbehind hnext
  rw [hna] at hbefore hbehind hprev
  obtain ⟨hxs, -, -, hys⟩ := seg_append.1 h
  obtain ⟨hndxs, hndys, hdisj⟩ := List.nodup_append'.1 hnd
  have hsep (x : α) (hx : x ∈ xs) (hx' : x ∈ ys) : False := hdisj hx (List.mem_cons_of_mem a hx')
  refine seg_append.2 ⟨?_, seg_append.2 ⟨?_, ?_⟩⟩
  · refine hxs.retail hndxs (fun x hx => ?_) (fun x hx => ?_) fun x hx hne => ?_
    · exact hprev x (List.mem_append_left _ hx) fun heq => hsep x hx (List.mem_of_head? heq)
    · rw [hbefore x hx, List.head?_append, Option.or_none]
    · exact hnext x (List.mem_append_left _ hx) fun heq => hne heq
  · rw [Option.or_none, Option.or_none]
    exact hzs
  · refine hys.rehead (List.nodup_cons.1 hndys).2 (fun x hx => ?_) (fun x hx => ?_)
      fun x hx hne => ?_
    · exact hnext x (List.mem_append_right _ hx) fun heq =>
        hsep x (List.mem_of_getLast? heq) hx
    · rw [hbehind x hx, Option.or_none]
    · exact hprev x (List.mem_append_right _ hx) fun heq => hne heq

/-- A node taken out. -/
theorem Seg.unlink (h : Seg next prev none (xs ++ a :: ys) none) (hnd : (xs ++ a :: ys).Nodup)
    (hbefore : ∀ x, prev a = some x → next' x = next a)
    (hbehind : ∀ x, next a = some x → prev' x = prev a)
    (hnext : ∀ x ∈ xs ++ ys, prev a ≠ some x → next' x = next x)
    (hprev : ∀ x ∈ xs ++ ys, next a ≠ some x → prev' x = prev x) :
    Seg next' prev' none (xs ++ ys) none :=
  h.replace [] hnd trivial hbefore hbehind hnext hprev

/-- A node that has moved to `b`. -/
theorem Seg.relocate (h : Seg next prev none (xs ++ a :: ys) none) (hnd : (xs ++ a :: ys).Nodup)
    (hnb : next' b = next a) (hpb : prev' b = prev a)
    (hbefore : ∀ x, prev a = some x → next' x = some b)
    (hbehind : ∀ x, next a = some x → prev' x = some b)
    (hnext : ∀ x ∈ xs ++ ys, prev a ≠ some x → next' x = next x)
    (hprev : ∀ x ∈ xs ++ ys, next a ≠ some x → prev' x = prev x) :
    Seg next' prev' none (xs ++ b :: ys) none :=
  h.replace [b] hnd (seg_singleton.2 ⟨hpb, hnb⟩) hbefore hbehind hnext hprev

end Base
