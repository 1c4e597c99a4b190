import Mathlib.Data.List.DropRight
import Mathlib.Data.List.Dedup

/-!
# Splitting, joining and trimming

`str::split`, `str::split_once`, `join` and `trim` on lists of characters, and how
they undo each other.
-/

namespace Deja.Text

variable {α : Type}

/-! ## One separator -/

/-- A join has its separators and the characters of its parts. -/
theorem mem_join {c x : α} {ls : List (List α)} (h : x ∈ [c].intercalate ls) :
    x = c ∨ ∃ l ∈ ls, x ∈ l := by
  induction ls with
  | nil => cases h
  | cons l ls ih =>
    cases ls with
    | nil =>
      rw [List.intercalate_singleton] at h
      exact .inr ⟨l, List.mem_cons_self, h⟩
    | cons m ls =>
      rw [List.intercalate_cons_cons, List.append_assoc, List.mem_append, List.singleton_append,
        List.mem_cons] at h
      rcases h with h | h | h
      · exact .inr ⟨l, List.mem_cons_self, h⟩
      · exact .inl h
      · exact (ih h).imp_right fun ⟨k, hk, hx⟩ => ⟨k, List.mem_cons_of_mem _ hk, hx⟩

section Split

variable [DecidableEq α]

/-- The pieces between the separators; there is always one. -/
def split (c : α) : List α → List (List α)
  | [] => [[]]
  | x :: xs => if x = c then [] :: split c xs else (split c xs).modifyHead (x :: ·)

theorem split_ne_nil (c : α) (xs : List α) : split c xs ≠ [] := by
  induction xs with
  | nil => simp [split]
  | cons x xs ih =>
    rw [split]
    split_ifs
    · simp
    · simpa [List.modifyHead_eq_nil_iff] using ih

/-- No piece has the separator. -/
theorem notMem_of_mem_split {c : α} {xs p : List α} (h : p ∈ split c xs) : c ∉ p := by
  induction xs generalizing p with
  | nil =>
    rw [split, List.mem_singleton] at h
    rw [h]
    exact List.not_mem_nil
  | cons x xs ih =>
    rw [split] at h
    split_ifs at h with hx
    · rcases List.mem_cons.1 h with rfl | h
      · exact List.not_mem_nil
      · exact ih h
    · cases hs : split c xs with
      | nil => exact absurd hs (split_ne_nil c xs)
      | cons q qs =>
        rw [hs, List.modifyHead_cons] at h
        rcases List.mem_cons.1 h with rfl | h
        · rw [List.mem_cons, not_or]
          exact ⟨fun hc => hx hc.symm, ih (by rw [hs]; exact List.mem_cons_self)⟩
        · exact ih (by rw [hs]; exact List.mem_cons_of_mem _ h)

/-- A piece stands in the text. -/
theorem infix_of_mem_split {c : α} {xs p : List α} (h : p ∈ split c xs) : p <:+: xs := by
  have hgen : ∀ {xs : List α}, ∀ p ∈ split c xs, p <:+: xs ∧
      ((split c xs).head? = some p → p <+: xs) := by
    intro xs
    induction xs with
    | nil => simp [split]
    | cons x xs ih =>
      intro p hp
      rw [split] at hp ⊢
      split_ifs at hp ⊢ with hx
      · rcases List.mem_cons.1 hp with rfl | hp
        · exact ⟨List.nil_infix, fun _ => List.nil_prefix⟩
        · exact ⟨(ih p hp).1.trans (List.infix_cons (List.infix_refl _)), fun hhead => by
            rw [List.head?_cons, Option.some.injEq] at hhead
            rw [← hhead]
            exact List.nil_prefix⟩
      · cases hs : split c xs with
        | nil => exact absurd hs (split_ne_nil c xs)
        | cons q qs =>
          rw [hs, List.modifyHead_cons] at hp
          rw [hs] at ih
          have hq : x :: q <+: x :: xs :=
            List.cons_prefix_cons.2 ⟨rfl, (ih q List.mem_cons_self).2 rfl⟩
          rcases List.mem_cons.1 hp with rfl | hp
          · exact ⟨hq.isInfix, fun _ => hq⟩
          · refine ⟨(ih p (List.mem_cons_of_mem _ hp)).1.trans
              (List.infix_cons (List.infix_refl _)), fun hhead => ?_⟩
            rw [List.modifyHead_cons, List.head?_cons, Option.some.injEq] at hhead
            exact hhead ▸ hq
  exact (hgen p h).1

theorem split_of_notMem {c : α} {xs : List α} (h : c ∉ xs) : split c xs = [xs] := by
  induction xs with
  | nil => rfl
  | cons x xs ih =>
    rw [List.mem_cons, not_or] at h
    rw [split, if_neg fun hx => h.1 hx.symm, ih h.2, List.modifyHead_cons]

/-- A separator cuts the pieces in two. -/
theorem split_append_cons (c : α) (xs ys : List α) :
    split c (xs ++ c :: ys) = split c xs ++ split c ys := by
  induction xs with
  | nil => simp [split]
  | cons x xs ih =>
    rw [List.cons_append, split, split, ih]
    split_ifs
    · rw [List.cons_append]
    · cases hs : split c xs with
      | nil => exact absurd hs (split_ne_nil c xs)
      | cons p ps => rfl

/-- The pieces of a join are those of its parts. -/
theorem split_join (c : α) {ls : List (List α)} (h : ls ≠ []) :
    split c ([c].intercalate ls) = ls.flatMap (split c) := by
  induction ls with
  | nil => exact absurd rfl h
  | cons l ls ih =>
    cases ls with
    | nil => simp
    | cons m ls =>
      rw [List.intercalate_cons_cons, List.append_assoc, List.singleton_append, split_append_cons,
        ih (List.cons_ne_nil _ _), ← List.flatMap_cons]

/-! ## The first occurrence of a pattern -/

/-- `str::split_once`: what stands before and after the first occurrence. -/
def splitOnce (pat : List α) : List α → Option (List α × List α)
  | [] => if pat = [] then some ([], []) else none
  | x :: xs =>
    if pat.isPrefixOf (x :: xs) then some ([], (x :: xs).drop pat.length)
    else (splitOnce pat xs).map fun y => (x :: y.1, y.2)

/-- What a cut leaves is the text without the pattern. -/
theorem eq_of_splitOnce {pat xs : List α} {y : List α × List α}
    (h : splitOnce pat xs = some y) : xs = y.1 ++ pat ++ y.2 := by
  induction xs generalizing y with
  | nil =>
    rw [splitOnce] at h
    split_ifs at h with hpat
    cases h
    rw [hpat]
    rfl
  | cons x xs ih =>
    rw [splitOnce] at h
    split_ifs at h with hpre
    · cases h
      obtain ⟨t, ht⟩ := List.isPrefixOf_iff_prefix.1 hpre
      rw [← ht, List.nil_append, List.drop_left]
    · obtain ⟨z, hz, rfl⟩ := Option.map_eq_some_iff.1 h
      rw [ih hz]
      rfl

/-- A pattern is found after a prefix that lacks its first character. -/
theorem splitOnce_append {p : α} {pat xs ys : List α} (h : p ∉ xs) :
    splitOnce (p :: pat) (xs ++ p :: pat ++ ys) = some (xs, ys) := by
  induction xs with
  | nil =>
    rw [List.nil_append, List.cons_append, splitOnce, if_pos]
    · simp
    · exact List.isPrefixOf_iff_prefix.2 ⟨ys, by simp⟩
  | cons x xs ih =>
    rw [List.mem_cons, not_or] at h
    rw [List.cons_append, List.cons_append, splitOnce, ih h.2, if_neg]
    · rfl
    · intro hp
      exact h.1 (List.cons_prefix_cons.1 (List.isPrefixOf_iff_prefix.1 hp)).1

end Split

/-! ## Trimming -/

/-- `str::trim`: no white space at either end. -/
def trim (ws : α → Bool) (xs : List α) : List α := (xs.dropWhile ws).rdropWhile ws

theorem trim_infix (ws : α → Bool) (xs : List α) : trim ws xs <:+: xs :=
  (List.rdropWhile_prefix ws _).isInfix.trans (List.dropWhile_suffix ws).isInfix

theorem mem_of_mem_trim {ws : α → Bool} {x : α} {xs : List α} (h : x ∈ trim ws xs) : x ∈ xs :=
  (List.dropWhile_sublist _).mem ((List.rdropWhile_prefix ws _).mem h)

theorem trim_idem (ws : α → Bool) (xs : List α) : trim ws (trim ws xs) = trim ws xs := by
  have hhead : ((xs.dropWhile ws).rdropWhile ws).dropWhile ws =
      (xs.dropWhile ws).rdropWhile ws := by
    rw [List.dropWhile_eq_self_iff]
    intro hlen
    have hinitial := List.rdropWhile_prefix ws (xs.dropWhile ws)
    rw [hinitial.getElem hlen]
    exact List.dropWhile_eq_self_iff.1 (List.dropWhile_idempotent ws xs)
      (hlen.trans_le hinitial.length_le)
  unfold trim
  rw [hhead, List.rdropWhile_idempotent ws]

theorem trim_cons {ws : α → Bool} {x : α} (h : ws x = true) (xs : List α) :
    trim ws (x :: xs) = trim ws xs := by
  rw [trim, List.dropWhile_cons_of_pos h, trim]

theorem trim_concat {ws : α → Bool} {x : α} (h : ws x = true) (xs : List α) :
    trim ws (xs ++ [x]) = trim ws xs := by
  rw [trim, List.dropWhile_append]
  by_cases hempty : (xs.dropWhile ws).isEmpty
  · rw [if_pos hempty, List.dropWhile_cons_of_pos h, trim, List.isEmpty_iff.1 hempty,
      List.dropWhile_nil]
  · rw [if_neg hempty, List.rdropWhile_concat_pos _ _ _ h, trim]

theorem trim_rdropWhile (ws : α → Bool) (xs : List α) :
    trim ws (xs.rdropWhile ws) = trim ws xs := by
  induction xs using List.reverseRecOn with
  | nil => rfl
  | append_singleton xs x ih =>
    by_cases h : ws x = true
    · rw [List.rdropWhile_concat_pos _ _ _ h, ih, trim_concat h]
    · rw [List.rdropWhile_concat_neg _ _ _ h]

theorem rdropWhile_cons_neg {p : α → Bool} {x : α} (h : p x = false) (xs : List α) :
    (x :: xs).rdropWhile p = x :: xs.rdropWhile p := by
  induction xs using List.reverseRecOn with
  | nil => rw [List.rdropWhile_singleton, if_neg (by simp [h])]; rfl
  | append_singleton xs y ih =>
    rw [← List.cons_append]
    by_cases hy : p y = true
    · rw [List.rdropWhile_concat_pos _ _ _ hy, List.rdropWhile_concat_pos _ _ _ hy, ih]
    · rw [List.rdropWhile_concat_neg _ _ _ hy, List.rdropWhile_concat_neg _ _ _ hy]
      rfl

/-- Trimming stops at once at a character that is not white space. -/
theorem trim_cons_neg {ws : α → Bool} {x : α} (h : ws x = false) (xs : List α) :
    trim ws (x :: xs) = x :: xs.rdropWhile ws := by
  rw [trim, List.dropWhile_cons_of_neg (by simp [h]), rdropWhile_cons_neg h]

end Deja.Text
