import Mathlib.Tactic

/-!
# The first of each key

Going through a list, an element is kept when its key has not been seen, and
is a repeat otherwise.

* `firsts_append_repeats_perm` — nothing is lost.
* `exists_first_of_mem_repeats` — a repeat has a kept element of its key before
  it, so that a relation that holds along the list holds between the two.
-/

namespace Firsts

variable {α β κ : Type} [DecidableEq κ] (key : α → κ)

/-- The elements whose key comes for the first time. -/
def firsts : List κ → List α → List α
  | _, [] => []
  | seen, a :: l => if key a ∈ seen then firsts seen l else a :: firsts (key a :: seen) l

/-- The others. -/
def repeats : List κ → List α → List α
  | _, [] => []
  | seen, a :: l => if key a ∈ seen then a :: repeats seen l else repeats (key a :: seen) l

/-- The keys seen after a list. -/
def seenAfter : List κ → List α → List κ
  | seen, [] => seen
  | seen, a :: l => if key a ∈ seen then seenAfter seen l else seenAfter (key a :: seen) l

variable {key}

theorem firsts_append_repeats_perm (l : List α) :
    ∀ seen, (firsts key seen l ++ repeats key seen l).Perm l := by
  induction l with
  | nil => intro seen; exact .nil
  | cons a l ih =>
    intro seen
    by_cases h : key a ∈ seen
    · simp only [firsts, repeats, if_pos h]
      exact List.perm_middle.trans ((ih seen).cons a)
    · simp only [firsts, repeats, if_neg h, List.cons_append]
      exact (ih _).cons a

theorem mem_of_mem_repeats {l : List α} {seen : List κ} {y : α} (h : y ∈ repeats key seen l) :
    y ∈ l :=
  (firsts_append_repeats_perm l seen).mem_iff.1 (List.mem_append_right _ h)

theorem mem_of_mem_firsts {l : List α} {seen : List κ} {y : α} (h : y ∈ firsts key seen l) :
    y ∈ l :=
  (firsts_append_repeats_perm l seen).mem_iff.1 (List.mem_append_left _ h)

theorem exists_first_of_mem_repeats {r : α → α → Prop} {l : List α} (hr : l.Pairwise r) :
    ∀ {seen : List κ} {y : α}, y ∈ repeats key seen l →
      key y ∈ seen ∨ ∃ x ∈ firsts key seen l, key x = key y ∧ r x y := by
  induction hr with
  | nil => intro seen y h; simp [repeats] at h
  | @cons a l ha _ ih =>
    intro seen y h
    by_cases hseen : key a ∈ seen
    · simp only [repeats, if_pos hseen, List.mem_cons] at h
      simp only [firsts, if_pos hseen]
      rcases h with rfl | h
      · exact .inl hseen
      · exact ih h
    · simp only [repeats, if_neg hseen] at h
      simp only [firsts, if_neg hseen]
      rcases ih h with hy | ⟨x, hx, hkey, hxy⟩
      · rcases List.mem_cons.1 hy with hkey | hy
        · exact .inr ⟨a, List.mem_cons_self, hkey.symm, ha y (mem_of_mem_repeats h)⟩
        · exact .inl hy
      · exact .inr ⟨x, List.mem_cons_of_mem _ hx, hkey, hxy⟩

theorem firsts_append (l m : List α) :
    ∀ seen,
      firsts key seen (l ++ m) = firsts key seen l ++ firsts key (seenAfter key seen l) m := by
  induction l with
  | nil => intro seen; rfl
  | cons a l ih =>
    intro seen
    by_cases h : key a ∈ seen
    · simp only [List.cons_append, firsts, seenAfter, if_pos h, ih]
    · simp only [List.cons_append, firsts, seenAfter, if_neg h, ih]

theorem firsts_map (f : β → α) (l : List β) :
    ∀ seen, firsts key seen (l.map f) = (firsts (key ∘ f) seen l).map f := by
  induction l with
  | nil => intro seen; rfl
  | cons b l ih =>
    intro seen
    by_cases h : key (f b) ∈ seen
    · simp only [List.map_cons, firsts, Function.comp_apply, if_pos h, ih]
    · simp only [List.map_cons, firsts, Function.comp_apply, if_neg h, ih]

theorem seenAfter_map (f : β → α) (l : List β) :
    ∀ seen, seenAfter key seen (l.map f) = seenAfter (key ∘ f) seen l := by
  induction l with
  | nil => intro seen; rfl
  | cons b l ih =>
    intro seen
    by_cases h : key (f b) ∈ seen
    · simp only [List.map_cons, seenAfter, Function.comp_apply, if_pos h, ih]
    · simp only [List.map_cons, seenAfter, Function.comp_apply, if_neg h, ih]

end Firsts
