import Mathlib.Tactic

/-!
# Replaying rows into a table

A maintenance pass that rewrites a table key by key: the rows of a key go, one
row comes in their place (a `DELETE` and an `INSERT`).  `Replay.all_perm_iff`
says when such a pass leaves the table as it was, up to the order of its rows:
exactly when every key it replays has its one row already.

`Replay.perm_by_key` is the other half of a rebuild: a table cleared and written
anew, key by key, holds what it held.
-/

namespace Replay

variable {α κ : Type} [DecidableEq α] [DecidableEq κ] (key : α → κ) (row : κ → α)

/-- The rows of `k` go, `row k` comes. -/
def one (l : List α) (k : κ) : List α := l.filter (fun x => key x ≠ k) ++ [row k]

/-- Every key in turn. -/
def all (l : List α) (ks : List κ) : List α := ks.foldl (one key row) l

omit [DecidableEq α] in
theorem all_append (l : List α) (ks ms : List κ) :
    all key row l (ks ++ ms) = all key row (all key row l ks) ms :=
  List.foldl_append

variable {key row}

theorem count_one (hrow : ∀ k, key (row k) = k) (l : List α) (k : κ) (x : α) :
    (one key row l k).count x = if key x = k then [row k].count x else l.count x := by
  rw [one, List.count_append]
  by_cases hx : key x = k
  · rw [if_pos hx, List.count_eq_zero_of_not_mem (by simp [hx]), Nat.zero_add]
  · have hne : row k ≠ x := by
      rintro rfl
      exact hx (hrow k)
    rw [if_neg hx, List.count_filter (by simpa using hx), List.count_singleton]
    simp [hne]

theorem count_all (hrow : ∀ k, key (row k) = k) (l : List α) (ks : List κ) (x : α) :
    (all key row l ks).count x =
      if key x ∈ ks then [row (key x)].count x else l.count x := by
  induction ks generalizing l with
  | nil => simp [all]
  | cons k ks ih =>
    rw [show all key row l (k :: ks) = all key row (one key row l k) ks from rfl, ih,
      count_one hrow]
    by_cases hks : key x ∈ ks
    · rw [if_pos hks, if_pos (List.mem_cons_of_mem _ hks)]
    · by_cases hk : key x = k
      · rw [if_neg hks, if_pos hk, if_pos (by simp [hk]), hk]
      · rw [if_neg hks, if_neg hk, if_neg (by simp [hk, hks])]

/-- **When a replay changes nothing**: every replayed key has its row, and no
other. -/
theorem all_perm_iff (hrow : ∀ k, key (row k) = k) {l : List α} {ks : List κ} :
    (all key row l ks).Perm l ↔ ∀ k ∈ ks, l.filter (fun x => key x = k) = [row k] := by
  rw [List.perm_iff_count]
  constructor
  · intro h k hk
    refine List.perm_singleton.1 (List.perm_iff_count.2 fun x => ?_)
    by_cases hx : key x = k
    · rw [List.count_filter (by simpa using hx), ← h x, count_all hrow, if_pos (hx ▸ hk), hx]
    · have hne : row k ≠ x := by
        rintro rfl
        exact hx (hrow k)
      rw [List.count_eq_zero_of_not_mem (by simp [hx]), List.count_singleton]
      simp [hne]
  · intro h x
    rw [count_all hrow]
    split_ifs with hx
    · rw [← h (key x) hx, List.count_filter (by simp)]
    · rfl

variable (key) in
omit [DecidableEq α] in
/-- A table is its rows, key by key. -/
theorem perm_by_key {ks : List κ} (hks : ks.Nodup) {l : List α} (h : ∀ x ∈ l, key x ∈ ks) :
    (ks.flatMap fun k => l.filter fun x => key x = k).Perm l := by
  induction ks generalizing l with
  | nil =>
    cases l with
    | nil => exact .refl _
    | cons x l => exact absurd (h x (List.mem_cons_self ..)) (by simp)
  | cons k ks ih =>
    rw [List.nodup_cons] at hks
    have hrest : (ks.flatMap fun m => l.filter fun x => key x = m) =
        ks.flatMap fun m => (l.filter fun x => key x ≠ k).filter fun x => key x = m := by
      refine List.flatMap_congr fun m hm => ?_
      rw [List.filter_filter]
      refine List.filter_congr fun x _ => ?_
      by_cases hx : key x = m
      · have hmk : m ≠ k := fun hmk => hks.1 (hmk ▸ hm)
        simp [hx, hmk]
      · simp [hx]
    have hperm := ih hks.2 (l := l.filter fun x => key x ≠ k) fun x hx => by
      obtain ⟨hx, hk⟩ := List.mem_filter.1 hx
      exact (List.mem_cons.1 (h x hx)).resolve_left (by simpa using hk)
    rw [List.flatMap_cons, hrest]
    refine (hperm.append_left _).trans ?_
    have hsplit := List.filter_append_perm (fun x => decide (key x = k)) l
    simpa using hsplit

end Replay
