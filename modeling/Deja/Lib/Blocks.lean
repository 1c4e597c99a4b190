import Mathlib.Algebra.GroupWithZero.Nat
import Mathlib.Data.List.Sort
import Mathlib.Data.List.Forall2
import Mathlib.Data.List.Flatten

/-!
# Lists cut into blocks

A list of blocks laid end to end is cut back into them by their lengths.  After
the list is sorted the same cut finds the same blocks exactly when they stood
in order already (`forall₂_perm_cut_sort_iff`).
-/

namespace Blocks

variable {α : Type}

/-- The blocks of the given lengths, as far as the list reaches. -/
def cut : List ℕ → List α → List (List α)
  | [], _ => []
  | n :: ns, l => l.take n :: cut ns (l.drop n)

theorem cut_flatten (bs : List (List α)) : cut (bs.map List.length) bs.flatten = bs := by
  induction bs with
  | nil => rfl
  | cons b bs ih => simp [cut, ih]

theorem flatten_cut (ns : List ℕ) : ∀ {l : List α}, l.length ≤ ns.sum → (cut ns l).flatten = l := by
  induction ns with
  | nil =>
    intro l h
    simpa [cut, eq_comm] using h
  | cons n ns ih =>
    intro l h
    simp only [List.sum_cons] at h
    simp only [cut, List.flatten_cons]
    rw [ih (by simp only [List.length_drop]; omega), List.take_append_drop]

theorem map_length_cut (ns : List ℕ) :
    ∀ {l : List α}, ns.sum ≤ l.length → (cut ns l).map List.length = ns := by
  induction ns with
  | nil =>
    intro l _
    rfl
  | cons n ns ih =>
    intro l h
    simp only [List.sum_cons] at h
    simp only [cut, List.map_cons, List.length_take]
    rw [ih (by simp only [List.length_drop]; omega), Nat.min_eq_left (by omega)]

/-- Parts of blocks that are as long as the blocks are the blocks. -/
theorem forall₂_perm_of_subperm {bs cs : List (List α)} (h : List.Forall₂ List.Subperm bs cs)
    (hlen : bs.map List.length = cs.map List.length) : List.Forall₂ List.Perm bs cs := by
  induction h with
  | nil => exact .nil
  | cons hsub _ ih =>
    simp only [List.map_cons, List.cons.injEq] at hlen
    exact .cons (hsub.perm_of_length_le hlen.1.ge) (ih hlen.2)

theorem forall₂_perm_refl (bs : List (List α)) : List.Forall₂ List.Perm bs bs :=
  List.forall₂_same.2 fun b _ => List.Perm.refl b

/-! ## Sorting -/

/-- Everything in an earlier block stands before everything in a later one. -/
def Ordered (r : α → α → Prop) (bs : List (List α)) : Prop :=
  bs.Pairwise fun b c => ∀ x ∈ b, ∀ y ∈ c, r x y

theorem Ordered.of_perm {r : α → α → Prop} {bs cs : List (List α)}
    (hperm : List.Forall₂ List.Perm bs cs) (h : Ordered r bs) : Ordered r cs := by
  induction hperm with
  | nil => exact .nil
  | @cons b c bs cs hbc hrest ih =>
    obtain ⟨hfirst, htail⟩ := List.pairwise_cons.1 h
    refine List.pairwise_cons.2 ⟨fun d hd x hx y hy => ?_, ih htail⟩
    obtain ⟨e, he, hed⟩ : ∃ e ∈ bs, e.Perm d := by
      clear ih h hfirst htail
      induction hrest with
      | nil => cases hd
      | @cons e' d' _ _ hed _ ih =>
        rcases List.mem_cons.1 hd with rfl | hd
        · exact ⟨e', List.mem_cons_self, hed⟩
        · obtain ⟨e, he, hed⟩ := ih hd
          exact ⟨e, List.mem_cons_of_mem _ he, hed⟩
    exact hfirst e he x (hbc.mem_iff.2 hx) y (hed.mem_iff.2 hy)

variable {r : α → α → Prop} [DecidableRel r]

theorem orderedInsert_append {x : α} {m : List α} (h : ∀ y ∈ m, r x y) (l : List α) :
    (l ++ m).orderedInsert r x = l.orderedInsert r x ++ m := by
  induction l with
  | nil =>
    cases m with
    | nil => rfl
    | cons y m => simp [List.orderedInsert, h y List.mem_cons_self]
  | cons y l ih =>
    by_cases hxy : r x y
    · simp [List.orderedInsert, hxy]
    · simp [List.orderedInsert, hxy, ih]

theorem insertionSort_append {m : List α} (l : List α) (h : ∀ x ∈ l, ∀ y ∈ m, r x y) :
    (l ++ m).insertionSort r = l.insertionSort r ++ m.insertionSort r := by
  induction l with
  | nil => rfl
  | cons x l ih =>
    have hrest := ih fun x hx => h x (List.mem_cons_of_mem _ hx)
    have hx : ∀ y ∈ m.insertionSort r, r x y := fun y hy =>
      h x List.mem_cons_self y ((List.perm_insertionSort r m).mem_iff.1 hy)
    simp only [List.cons_append, List.insertionSort_cons, hrest, orderedInsert_append hx]

/-- **The cut finds the blocks again exactly where they stood in order.** -/
theorem forall₂_perm_cut_sort_iff [Std.Total r] [IsTrans α r] (bs : List (List α)) :
    List.Forall₂ List.Perm (cut (bs.map List.length) (bs.flatten.insertionSort r)) bs ↔
      Ordered r bs := by
  constructor
  · intro h
    have hsorted := List.pairwise_insertionSort r bs.flatten
    have hlen : (bs.flatten.insertionSort r).length ≤ (bs.map List.length).sum := by
      rw [List.length_insertionSort, List.length_flatten]
    rw [← flatten_cut _ hlen] at hsorted
    exact Ordered.of_perm h (List.pairwise_flatten.1 hsorted).2
  · intro h
    induction bs with
    | nil => exact .nil
    | cons b bs ih =>
      obtain ⟨hfirst, htail⟩ := List.pairwise_cons.1 h
      have happ : (b ++ bs.flatten).insertionSort r =
          b.insertionSort r ++ bs.flatten.insertionSort r := by
        refine insertionSort_append b fun x hx y hy => ?_
        obtain ⟨c, hc, hy⟩ := List.mem_flatten.1 hy
        exact hfirst c hc x hx y hy
      simp only [List.map_cons, List.flatten_cons, cut, happ]
      have hlen : b.length = (b.insertionSort r).length := (List.length_insertionSort ..).symm
      rw [hlen, List.take_left, List.drop_left]
      exact .cons (List.perm_insertionSort r b) (ih htail)

end Blocks
