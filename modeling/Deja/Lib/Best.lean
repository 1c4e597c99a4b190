import Mathlib.Data.List.Sort
import Mathlib.Tactic

/-!
# The best of a ranking

Ranking a list, keeping the first `n`, filtering and keeping the first `k` is
filtering and keeping the first `k`, as long as each of those is among the first
`n` of the ranking: that is, fewer than `n` elements rank ahead of it.
-/

namespace Best

/-- `a` ranks ahead of `b`: a higher score, or the same score and a higher number. -/
def Outranks (score : ℤ → ℤ) (a b : ℤ) : Prop := score b < score a ∨ (score a = score b ∧ b < a)

instance (score : ℤ → ℤ) : DecidableRel (Outranks score) := fun _ _ =>
  inferInstanceAs (Decidable (_ ∨ _))

/-- Best score first, ties highest number first. -/
def rank (score : ℤ → ℤ) (l : List ℤ) : List ℤ :=
  l.insertionSort fun a b => score b < score a ∨ (score a = score b ∧ b ≤ a)

section Outranks

variable {score : ℤ → ℤ}

theorem not_outranks_self (a : ℤ) : ¬ Outranks score a a := by
  unfold Outranks
  omega

theorem Outranks.asymm {a b : ℤ} (h : Outranks score a b) : ¬ Outranks score b a := by
  unfold Outranks at *
  omega

theorem rank_perm (l : List ℤ) : (rank score l).Perm l := List.perm_insertionSort _ l

theorem mem_rank {l : List ℤ} {a : ℤ} : a ∈ rank score l ↔ a ∈ l := (rank_perm l).mem_iff

/-- A ranking without repetitions is in strict order. -/
theorem rank_pairwise {l : List ℤ} (hnodup : l.Nodup) :
    (rank score l).Pairwise (Outranks score) := by
  have : Std.Total fun a b : ℤ => score b < score a ∨ (score a = score b ∧ b ≤ a) :=
    ⟨fun a b => by omega⟩
  have : IsTrans ℤ fun a b => score b < score a ∨ (score a = score b ∧ b ≤ a) :=
    ⟨fun a b c hab hbc => by omega⟩
  have hsorted := List.pairwise_insertionSort
    (fun a b : ℤ => score b < score a ∨ (score a = score b ∧ b ≤ a)) l
  have hne : (rank score l).Pairwise (· ≠ ·) := (rank_perm l).nodup_iff.2 hnodup
  refine (hsorted.and hne).imp ?_
  rintro a b ⟨hab, hne⟩
  unfold Outranks
  omega

/-- Two lists in strict order with the same elements are equal. -/
theorem eq_of_mem_iff {l m : List ℤ} (hl : l.Pairwise (Outranks score))
    (hm : m.Pairwise (Outranks score)) (h : ∀ a, a ∈ l ↔ a ∈ m) : l = m := by
  have : Std.Antisymm (Outranks score) := ⟨fun a b hab hba => absurd hba hab.asymm⟩
  have : Std.Irrefl (Outranks score) := ⟨not_outranks_self⟩
  exact hl.eq_of_mem_iff hm h

end Outranks

/-! ## The first of the kept ones -/

section Cut

variable {α : Type} {p : α → Bool} {l : List α}

/-- Filtering what a cut leaves gives the first `k` of what a filter leaves exactly
when the cut leaves those. -/
theorem take_filter_take_iff (hnodup : l.Nodup) (n k : ℕ) :
    ((l.take n).filter p).take k = (l.filter p).take k ↔
      ∀ x ∈ (l.filter p).take k, x ∈ l.take n := by
  constructor
  · intro h x hx
    rw [← h] at hx
    exact (List.mem_filter.1 (List.mem_of_mem_take hx)).1
  · intro h
    have hsplit : l.filter p = (l.take n).filter p ++ (l.drop n).filter p := by
      rw [← List.filter_append, List.take_append_drop]
    rw [hsplit, List.take_append]
    have hnone : ((l.drop n).filter p).take (k - ((l.take n).filter p).length) = [] := by
      rw [List.eq_nil_iff_forall_not_mem]
      intro x hx
      have hkept : x ∈ l.take n := h x (by
        rw [hsplit, List.take_append]
        exact List.mem_append_right _ hx)
      have hcut : x ∈ l.drop n := (List.mem_filter.1 (List.mem_of_mem_take hx)).1
      exact List.disjoint_take_drop hnodup le_rfl hkept hcut
    rw [hnone, List.append_nil]

/-- An element is among the first `n` of a sorted list when fewer than `n` come
before it. -/
theorem mem_take_iff_countP {r : α → α → Prop} [DecidableRel r] (hirrefl : ∀ x, ¬ r x x)
    (hasymm : ∀ x y, r x y → ¬ r y x) (hsorted : l.Pairwise r) {x : α} (hx : x ∈ l) (n : ℕ) :
    x ∈ l.take n ↔ l.countP (fun y => r y x) < n := by
  induction l generalizing n with
  | nil => cases hx
  | cons a l ih =>
    rw [List.pairwise_cons] at hsorted
    cases n with
    | zero => simp
    | succ n =>
      rw [List.take_succ_cons, List.mem_cons, List.countP_cons]
      rcases List.mem_cons.1 hx with rfl | hmem
      · have hnone : l.countP (fun y => r y x) = 0 := by
          rw [List.countP_eq_zero]
          intro y hy
          simpa using hasymm x y (hsorted.1 y hy)
        simp [hnone, hirrefl]
      · have hne : x ≠ a := by
          rintro rfl
          exact hirrefl x (hsorted.1 x hmem)
        rw [or_iff_right hne, ih hsorted.2 hmem]
        simp [hsorted.1 x hmem]

end Cut

end Best
