import Mathlib.Tactic

/-!
# Finite maps as lists of pairs

A map that forgets an older binding when a key is written again.  `List.lookup`
reads it.
-/

namespace Assoc

variable {κ ν : Type} [DecidableEq κ]

/-- Bind `k` to `v`, dropping any older binding of `k`. -/
def insert (k : κ) (v : ν) (d : List (κ × ν)) : List (κ × ν) :=
  (k, v) :: d.filter fun x => x.1 ≠ k

@[simp] theorem lookup_insert_self (k : κ) (v : ν) (d : List (κ × ν)) :
    (insert k v d).lookup k = some v := by
  simp [insert]

theorem lookup_filter_ne {k k' : κ} (h : k' ≠ k) (d : List (κ × ν)) :
    (d.filter fun x => x.1 ≠ k).lookup k' = d.lookup k' := by
  induction d with
  | nil => rfl
  | cons x d ih =>
    obtain ⟨a, v⟩ := x
    by_cases ha : a = k
    · subst ha
      have hne : (k' == a) = false := by simpa using h
      rw [List.filter_cons_of_neg (by simp), ih, List.lookup_cons, hne]
    · rw [List.filter_cons_of_pos (by simpa using ha), List.lookup_cons, List.lookup_cons, ih]

theorem lookup_insert_of_ne {k k' : κ} (h : k' ≠ k) (v : ν) (d : List (κ × ν)) :
    (insert k v d).lookup k' = d.lookup k' := by
  have hne : (k' == k) = false := by simpa using h
  rw [insert, List.lookup_cons, hne]
  exact lookup_filter_ne h d

theorem lookup_insert (k k' : κ) (v : ν) (d : List (κ × ν)) :
    (insert k v d).lookup k' = if k' = k then some v else d.lookup k' := by
  by_cases h : k' = k
  · rw [if_pos h, h, lookup_insert_self]
  · rw [if_neg h, lookup_insert_of_ne h]

theorem mem_of_lookup {k : κ} {v : ν} {d : List (κ × ν)} (h : d.lookup k = some v) :
    (k, v) ∈ d := by
  induction d with
  | nil => simp at h
  | cons x d ih =>
    obtain ⟨a, w⟩ := x
    rw [List.lookup_cons] at h
    by_cases ha : k = a
    · subst ha
      simp only [beq_self_eq_true, Option.some.injEq] at h
      simp [h]
    · have hne : (k == a) = false := by simpa using ha
      rw [hne] at h
      exact List.mem_cons_of_mem _ (ih h)

theorem nodup_keys_insert {k : κ} {v : ν} {d : List (κ × ν)} (h : (d.map Prod.fst).Nodup) :
    ((insert k v d).map Prod.fst).Nodup := by
  rw [insert, List.map_cons, List.nodup_cons]
  refine ⟨fun hk => ?_, h.sublist (List.filter_sublist.map _)⟩
  obtain ⟨x, hx, hxk⟩ := List.mem_map.1 hk
  simp [hxk] at hx

theorem lookup_of_mem {k : κ} {v : ν} {d : List (κ × ν)} (h : (d.map Prod.fst).Nodup)
    (hm : (k, v) ∈ d) : d.lookup k = some v := by
  induction d with
  | nil => simp at hm
  | cons x d ih =>
    obtain ⟨a, w⟩ := x
    rw [List.map_cons, List.nodup_cons] at h
    rw [List.lookup_cons]
    rcases List.mem_cons.1 hm with heq | hd
    · cases heq
      simp
    · have hne : k ≠ a := by
        rintro rfl
        exact h.1 (List.mem_map.2 ⟨(k, v), hd, rfl⟩)
      have hbeq : (k == a) = false := by simpa using hne
      rw [hbeq]
      exact ih h.2 hd

/-- Dropping bindings by their value, in a map that binds each key once. -/
theorem lookup_filter {k : κ} {v : ν} {d : List (κ × ν)} {keep : κ × ν → Bool}
    (h : (d.map Prod.fst).Nodup) :
    (d.filter keep).lookup k = some v ↔ d.lookup k = some v ∧ keep (k, v) = true := by
  constructor
  · intro hk
    obtain ⟨hm, hkeep⟩ := List.mem_filter.1 (mem_of_lookup hk)
    exact ⟨lookup_of_mem h hm, hkeep⟩
  · rintro ⟨hk, hkeep⟩
    exact lookup_of_mem (h.sublist (List.filter_sublist.map _))
      (List.mem_filter.2 ⟨mem_of_lookup hk, hkeep⟩)


/-! ## A map read off a list of rows -/

section OfRows

variable {ρ : Type} (key : ρ → κ) (val : ρ → ν)

/-- Bind the key of every row to its value, a later row over an earlier one. -/
def ofRows (rows : List ρ) : List (κ × ν) :=
  rows.foldl (fun d r => insert (key r) (val r) d) []

theorem ofRows_concat (rows : List ρ) (r : ρ) :
    ofRows key val (rows ++ [r]) = insert (key r) (val r) (ofRows key val rows) := by
  simp [ofRows]

theorem nodup_keys_ofRows (rows : List ρ) : ((ofRows key val rows).map Prod.fst).Nodup := by
  induction rows using List.reverseRecOn with
  | nil => exact List.nodup_nil
  | append_singleton rows r ih =>
    rw [ofRows_concat]
    exact nodup_keys_insert ih

/-- With distinct keys, the map binds exactly the keys of the rows. -/
theorem lookup_ofRows {rows : List ρ} (h : (rows.map key).Nodup) {k : κ} {v : ν} :
    (ofRows key val rows).lookup k = some v ↔ ∃ r ∈ rows, key r = k ∧ val r = v := by
  induction rows using List.reverseRecOn with
  | nil => simp [ofRows]
  | append_singleton rows r ih =>
    rw [List.map_append, List.nodup_append] at h
    rw [ofRows_concat, lookup_insert]
    have hfresh : ∀ x ∈ rows, key x ≠ key r := fun x hx =>
      h.2.2 _ (List.mem_map_of_mem hx) _ (by simp)
    split_ifs with hk
    · subst hk
      constructor
      · intro hv
        exact ⟨r, by simp, rfl, by simpa using hv⟩
      · rintro ⟨x, hx, hxk, rfl⟩
        rcases List.mem_append.1 hx with hx | hx
        · exact absurd hxk (hfresh x hx)
        · rw [List.mem_singleton.1 hx]
    · rw [ih h.1]
      constructor
      · rintro ⟨x, hx, hxk⟩
        exact ⟨x, List.mem_append_left _ hx, hxk⟩
      · rintro ⟨x, hx, hxk, hxv⟩
        rcases List.mem_append.1 hx with hx | hx
        · exact ⟨x, hx, hxk, hxv⟩
        · rw [List.mem_singleton.1 hx] at hxk
          exact absurd hxk.symm hk

end OfRows

end Assoc
