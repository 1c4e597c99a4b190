import Mathlib.Data.List.Sort
import Mathlib.Tactic

/-!
# The newest of a list

`ORDER BY key DESC LIMIT n` answers with `n` elements of a list that come in order of
a key and before which none of the others belongs; which of several elements with one
key it takes is left open (`Newest`).  The newest of a part of a list are the newest
of the whole exactly when each element left out has `n` in the part that are as new
(`newest_take_iff`).
-/

namespace OrderBy

variable {α κ : Type} [LinearOrder κ]

/-- Newest first: no key is below a later one. -/
def Descending (key : α → κ) (l : List α) : Prop := l.Pairwise fun a b => key b ≤ key a

/-- A sort by a key whose order among equal keys is its own affair. -/
structure Sorter (key : α → κ) where
  sort : List α → List α
  perm : ∀ l, (sort l).Perm l
  sorted : ∀ l, Descending key (sort l)

/-- The stable sort. -/
def Sorter.stable (key : α → κ) : Sorter key where
  sort := List.insertionSort fun a b => key b ≤ key a
  perm l := List.perm_insertionSort _ l
  sorted l := by
    have : Std.Total fun a b : α => key b ≤ key a := ⟨fun a b => le_total _ _⟩
    have : IsTrans α fun a b => key b ≤ key a := ⟨fun _ _ _ hab hbc => hbc.trans hab⟩
    exact List.pairwise_insertionSort _ l

/-- `out` is an answer to `ORDER BY key DESC LIMIT n` over `l`. -/
structure Newest (key : α → κ) (n : ℕ) (l out : List α) : Prop where
  sorted : Descending key out
  length : out.length = min n l.length
  rest : ∃ r, l.Perm (out ++ r) ∧ ∀ x ∈ out, ∀ y ∈ r, key y ≤ key x

variable {key : α → κ} {n : ℕ}

theorem Descending.take {l : List α} (h : Descending key l) (n : ℕ) : Descending key (l.take n) :=
  List.Pairwise.sublist (List.take_sublist n l) h

/-- What a cut of a sorted list leaves out is no newer than what it keeps. -/
theorem Descending.drop_le_take {l : List α} (h : Descending key l) {x y : α}
    (hx : x ∈ l.take n) (hy : y ∈ l.drop n) : key y ≤ key x := by
  unfold Descending at h
  rw [← List.take_append_drop n l, List.pairwise_append] at h
  exact h.2.2 x hx y hy

/-- Where `n` elements of a sorted list reach a key, its first `n` do. -/
theorem Descending.le_of_countP {l : List α} (h : Descending key l) {k : κ}
    (hcount : n ≤ l.countP fun y => k ≤ key y) {x : α} (hx : x ∈ l.take n) : k ≤ key x := by
  by_contra hlt
  have hdrop : (l.drop n).countP (fun y => decide (k ≤ key y)) = 0 := by
    rw [List.countP_eq_zero]
    intro y hy
    simpa using (h.drop_le_take hx hy).trans_lt (not_le.1 hlt)
  have htake : (l.take n).countP (fun y => decide (k ≤ key y)) < n := by
    refine lt_of_lt_of_le (lt_of_le_of_ne List.countP_le_length ?_) (List.length_take_le n l)
    intro hall
    rw [List.countP_eq_length] at hall
    exact hlt (by simpa using hall x hx)
  rw [← List.take_append_drop n l, List.countP_append, hdrop] at hcount
  omega

variable [BEq α] [LawfulBEq α] {whole part sorted : List α}

/-- **The newest of a part are the newest of the whole** exactly when every element
the part lacks has `n` in the part that are as new. -/
theorem newest_take_iff (hsub : part.Subperm whole) (hperm : sorted.Perm part)
    (hsorted : Descending key sorted) :
    Newest key n whole (sorted.take n) ↔
      ∀ x, whole.count x ≤ part.count x ∨ n ≤ part.countP fun y => key x ≤ key y := by
  have htake : (sorted.take n).Subperm part :=
    (List.take_sublist n sorted).subperm.trans hperm.subperm
  constructor
  · intro h x
    rw [or_iff_not_imp_left, not_le]
    intro hlack
    obtain ⟨r, hr, hle⟩ := h.rest
    -- an element the part lacks is among the others, so there are others and `n` were taken
    have hx : x ∈ r := by
      have hcount := hr.count_eq x
      rw [List.count_append] at hcount
      have := htake.count_le x
      exact List.count_pos_iff.1 (by omega)
    have hlen : (sorted.take n).length = n := by
      have hlength := h.length
      have hwhole := hr.length_eq
      rw [List.length_append] at hwhole
      have := List.length_pos_of_mem hx
      omega
    have hall : (sorted.take n).countP (fun y => decide (key x ≤ key y)) = n := by
      rw [List.countP_eq_length.2 fun y hy => by simpa using hle y hy x hx, hlen]
    calc n = (sorted.take n).countP (fun y => decide (key x ≤ key y)) := hall.symm
      _ ≤ part.countP fun y => decide (key x ≤ key y) := htake.countP_le _
  · intro h
    obtain ⟨others, hothers⟩ : ∃ others, whole.Perm (part ++ others) :=
      ⟨whole.diff part, (List.subperm_append_diff_self_of_count_le
        (List.subperm_ext_iff.1 hsub)).symm⟩
    have hlacks : ∀ y ∈ others, n ≤ sorted.countP fun z => key y ≤ key z := by
      intro y hy
      have hcount := hothers.count_eq y
      rw [List.count_append] at hcount
      have := List.count_pos_iff.2 hy
      rw [hperm.countP_eq]
      exact (h y).resolve_left (by omega)
    refine ⟨hsorted.take n, ?_, sorted.drop n ++ others, ?_, ?_⟩
    · have hwhole := hothers.length_eq
      rw [List.length_append, ← hperm.length_eq] at hwhole
      rw [List.length_take]
      rcases others with _ | ⟨y, others⟩
      · simp_all
      · have := (hlacks y (List.mem_cons_self ..)).trans List.countP_le_length
        omega
    · rw [← List.append_assoc, List.take_append_drop]
      exact hothers.trans (hperm.symm.append_right _)
    · intro x hx y hy
      rcases List.mem_append.1 hy with hy | hy
      · exact hsorted.drop_le_take hx hy
      · exact hsorted.le_of_countP (hlacks y hy) hx

end OrderBy
