import Mathlib.Tactic

/-!
# The longest prefix within a bound

`fitting w n l` is how many leading elements of `l` can be taken while their
weights sum to at most `n`.

* `sum_take_fitting_le`, `lt_of_head?_drop_fitting` — it fits, and one more
  does not.
* `eq_fitting` — these two say what it is.
* `fitting_mono` — a larger bound never takes fewer.
-/

namespace Fitting

variable {α : Type} (w : α → ℕ)

/-- The number of leading elements within `n`. -/
def fitting : ℕ → List α → ℕ
  | _, [] => 0
  | n, a :: l => if w a ≤ n then fitting (n - w a) l + 1 else 0

/-- The weight of a list. -/
def weightOf (l : List α) : ℕ := (l.map w).sum

@[simp] theorem weightOf_nil : weightOf w [] = 0 := rfl

@[simp] theorem weightOf_cons (a : α) (l : List α) :
    weightOf w (a :: l) = w a + weightOf w l := by
  simp [weightOf]

@[simp] theorem weightOf_append (l m : List α) :
    weightOf w (l ++ m) = weightOf w l + weightOf w m := by
  simp [weightOf]

variable {w}

theorem weightOf_take_mono (l : List α) {m k : ℕ} (h : m ≤ k) :
    weightOf w (l.take m) ≤ weightOf w (l.take k) := by
  have hsplit : l.take k = l.take m ++ (l.take k).drop m := by
    conv_lhs => rw [← List.take_append_drop m (l.take k), List.take_take, Nat.min_eq_left h]
  rw [hsplit, weightOf_append]
  exact Nat.le_add_right _ _

theorem weightOf_take_succ {l : List α} {m : ℕ} {a : α} (h : (l.drop m).head? = some a) :
    weightOf w (l.take (m + 1)) = weightOf w (l.take m) + w a := by
  have hget : l[m]? = some a := by simpa [List.head?_drop] using h
  simp [List.take_add_one, hget]

theorem fitting_le_length (l : List α) : ∀ n, fitting w n l ≤ l.length := by
  induction l with
  | nil => intro n; rfl
  | cons a l ih =>
    intro n
    by_cases h : w a ≤ n
    · simpa [fitting, h] using ih (n - w a)
    · simp [fitting, h]

theorem sum_take_fitting_le (l : List α) : ∀ n, weightOf w (l.take (fitting w n l)) ≤ n := by
  induction l with
  | nil => intro n; simp
  | cons a l ih =>
    intro n
    by_cases h : w a ≤ n
    · have htail := ih (n - w a)
      simp only [fitting, if_pos h, List.take_succ_cons, weightOf_cons]
      omega
    · simp [fitting, h]

theorem lt_of_head?_drop_fitting (l : List α) : ∀ {n : ℕ} {a : α},
    (l.drop (fitting w n l)).head? = some a → n < weightOf w (l.take (fitting w n l)) + w a := by
  induction l with
  | nil => intro n a h; simp at h
  | cons b l ih =>
    intro n a h
    by_cases hb : w b ≤ n
    · simp only [fitting, if_pos hb, List.drop_succ_cons] at h
      have hlt := ih h
      simp only [fitting, if_pos hb, List.take_succ_cons, weightOf_cons]
      omega
    · simp only [fitting, if_neg hb, List.drop_zero, List.head?_cons, Option.some.injEq] at h
      subst h
      simp only [fitting, if_neg hb, List.take_zero, weightOf_nil, Nat.zero_add]
      omega

/-- A prefix that fits and cannot be extended is the longest one. -/
theorem eq_fitting {l : List α} {n m : ℕ} (hm : m ≤ l.length) (hfit : weightOf w (l.take m) ≤ n)
    (hnext : ∀ a, (l.drop m).head? = some a → n < weightOf w (l.take m) + w a) :
    m = fitting w n l := by
  have hle := fitting_le_length (w := w) l n
  have hsum := sum_take_fitting_le (w := w) l n
  rcases Nat.lt_trichotomy m (fitting w n l) with hlt | heq | hgt
  · have hhead : (l.drop m).head? = some (l.get ⟨m, by omega⟩) := by
      rw [List.head?_drop, List.getElem?_eq_getElem (by omega)]
      rfl
    have hbeyond := hnext _ hhead
    rw [← weightOf_take_succ hhead] at hbeyond
    have hmono := weightOf_take_mono (w := w) l (show m + 1 ≤ fitting w n l by omega)
    omega
  · exact heq
  · have hhead : (l.drop (fitting w n l)).head? = some (l.get ⟨fitting w n l, by omega⟩) := by
      rw [List.head?_drop, List.getElem?_eq_getElem (by omega)]
      rfl
    have hbeyond := lt_of_head?_drop_fitting l hhead
    rw [← weightOf_take_succ hhead] at hbeyond
    have hmono := weightOf_take_mono (w := w) l (show fitting w n l + 1 ≤ m by omega)
    omega

theorem fitting_mono (l : List α) : ∀ {n m : ℕ}, n ≤ m → fitting w n l ≤ fitting w m l := by
  induction l with
  | nil => intro n m _; rfl
  | cons a l ih =>
    intro n m h
    by_cases ha : w a ≤ n
    · have hm : w a ≤ m := ha.trans h
      simpa [fitting, ha, hm] using ih (Nat.sub_le_sub_right h (w a))
    · simp [fitting, ha]

end Fitting
