import Deja.Lib.Assoc

/-!
# Finite maps up to the order of their bindings

Two lists that bind the same keys to the same values in another order are one
map.  The rules below say what writing or dropping a key does to such a list,
and to a part of it: a map that holds a fixed part beside a changing one.

* `Assoc.Mirrors` — a map whose changing part is the image of a file's rows,
  kept by writing or dropping a key in both.
* `Assoc.foldl_load_perm` — loading the rows one by one gives the map back when
  each of them loads.
-/

namespace Assoc

variable {κ ν μ : Type} [DecidableEq κ]

/-- Drop every binding of `k`. -/
def erase (k : κ) (d : List (κ × ν)) : List (κ × ν) := d.filter fun x => x.1 ≠ k

theorem insert_eq (k : κ) (v : ν) (d : List (κ × ν)) : insert k v d = (k, v) :: erase k d := rfl

@[simp] theorem mem_erase {k : κ} {d : List (κ × ν)} {x : κ × ν} :
    x ∈ erase k d ↔ x ∈ d ∧ x.1 ≠ k := by
  simp [erase]

theorem erase_sublist (k : κ) (d : List (κ × ν)) : (erase k d).Sublist d := List.filter_sublist

theorem erase_eq_self {k : κ} {d : List (κ × ν)} (h : k ∉ d.map Prod.fst) : erase k d = d := by
  refine List.filter_eq_self.2 fun x hx => ?_
  have hne : x.1 ≠ k := by
    rintro rfl
    exact h (List.mem_map_of_mem hx)
  simpa using hne

@[simp] theorem erase_insert (k : κ) (v : ν) (d : List (κ × ν)) :
    erase k (insert k v d) = erase k d := by
  simp [insert, erase]

@[simp] theorem erase_erase (k : κ) (d : List (κ × ν)) : erase k (erase k d) = erase k d := by
  simp [erase]

@[simp] theorem erase_append (k : κ) (d d' : List (κ × ν)) :
    erase k (d ++ d') = erase k d ++ erase k d' := List.filter_append ..

/-- A map of the values leaves the keys to drop where they were. -/
theorem map_erase (f : ν → μ) (k : κ) (d : List (κ × ν)) :
    (erase k d).map (Prod.map id f) = erase k (d.map (Prod.map id f)) := by
  simp [erase, List.filter_map, Function.comp_def]

theorem map_insert (f : ν → μ) (k : κ) (v : ν) (d : List (κ × ν)) :
    (insert k v d).map (Prod.map id f) = insert k (f v) (d.map (Prod.map id f)) := by
  rw [insert_eq, insert_eq, ← map_erase]
  rfl

theorem not_mem_keys_erase (k : κ) (d : List (κ × ν)) : k ∉ (erase k d).map Prod.fst := by
  simp

theorem nodup_keys_erase {k : κ} {d : List (κ × ν)} (h : (d.map Prod.fst).Nodup) :
    ((erase k d).map Prod.fst).Nodup :=
  h.sublist ((erase_sublist k d).map _)

theorem lookup_erase_of_ne {k k' : κ} (h : k' ≠ k) (d : List (κ × ν)) :
    (erase k d).lookup k' = d.lookup k' := lookup_filter_ne h d

theorem lookup_eq_none_iff {k : κ} {d : List (κ × ν)} : d.lookup k = none ↔ k ∉ d.map Prod.fst := by
  rw [List.lookup_eq_none_iff, List.mem_map]
  constructor
  · rintro h ⟨x, hx, rfl⟩
    simpa using h x hx
  · intro h x hx
    have hne : k ≠ x.1 := by
      rintro rfl
      exact h ⟨x, hx, rfl⟩
    simpa using hne

@[simp] theorem lookup_erase_self (k : κ) (d : List (κ × ν)) : (erase k d).lookup k = none :=
  lookup_eq_none_iff.2 (not_mem_keys_erase k d)

theorem lookup_iff_mem {k : κ} {v : ν} {d : List (κ × ν)} (h : (d.map Prod.fst).Nodup) :
    d.lookup k = some v ↔ (k, v) ∈ d :=
  ⟨mem_of_lookup, lookup_of_mem h⟩

/-! ## Up to order -/

/-- The order of the bindings does not matter to a reader. -/
theorem lookup_perm {d d' : List (κ × ν)} (h : d.Perm d') (hd : (d.map Prod.fst).Nodup) (k : κ) :
    d.lookup k = d'.lookup k := by
  have hd' : (d'.map Prod.fst).Nodup := (h.map _).nodup_iff.1 hd
  refine Option.ext fun v => ?_
  rw [lookup_iff_mem hd, lookup_iff_mem hd']
  exact h.mem_iff

theorem perm_erase {d d' : List (κ × ν)} (h : d.Perm d') (k : κ) :
    (erase k d).Perm (erase k d') := h.filter _

/-- Writing a key of the changing part beside a fixed part. -/
theorem perm_insert_beside {d fixed part : List (κ × ν)} {k : κ} (v : ν)
    (h : d.Perm (fixed ++ part)) (hk : k ∉ fixed.map Prod.fst) :
    (insert k v d).Perm (fixed ++ insert k v part) := by
  have he : (erase k d).Perm (fixed ++ erase k part) := by
    have := perm_erase h k
    rwa [erase_append, erase_eq_self hk] at this
  exact (he.cons (k, v)).trans List.perm_middle.symm

/-- Dropping a key of the changing part beside a fixed part. -/
theorem perm_erase_beside {d fixed part : List (κ × ν)} {k : κ}
    (h : d.Perm (fixed ++ part)) (hk : k ∉ fixed.map Prod.fst) :
    (erase k d).Perm (fixed ++ erase k part) := by
  have := perm_erase h k
  rwa [erase_append, erase_eq_self hk] at this

/-- Dropping a binding and writing it again. -/
theorem insert_of_mem_perm {d : List (κ × ν)} (h : (d.map Prod.fst).Nodup) {k : κ} {v : ν}
    (hm : (k, v) ∈ d) : (insert k v d).Perm d := by
  induction d with
  | nil => simp at hm
  | cons x d ih =>
    obtain ⟨a, w⟩ := x
    rw [List.map_cons, List.nodup_cons] at h
    rcases List.mem_cons.1 hm with heq | hd
    · cases heq
      have hself : erase k ((k, v) :: d) = d := by
        have := erase_eq_self h.1
        simpa [erase] using this
      rw [insert_eq, hself]
    · have hne : a ≠ k := by
        rintro rfl
        exact h.1 (List.mem_map.2 ⟨_, hd, rfl⟩)
      have hcons : erase k ((a, w) :: d) = (a, w) :: erase k d := by simp [erase, hne]
      rw [insert_eq, hcons]
      exact (List.Perm.swap _ _ _).trans ((ih h.2 hd).cons _)

theorem length_erase_of_mem {d : List (κ × ν)} (h : (d.map Prod.fst).Nodup) {k : κ} {v : ν}
    (hm : (k, v) ∈ d) : (erase k d).length + 1 = d.length := by
  have := (insert_of_mem_perm h hm).length_eq
  simpa [insert_eq] using this

theorem length_erase_le (k : κ) (d : List (κ × ν)) : (erase k d).length ≤ d.length :=
  (erase_sublist k d).length_le

/-! ## A map and the rows that mirror it -/

section Mirrors

variable {ρ : Type} (fixed : List (κ × ν)) (save : ν → ρ) (Sound : κ → ν → Prop)

/-- `d` holds `fixed` and `users`, and `rows` keeps the image of `users`. -/
structure Mirrors (users d : List (κ × ν)) (rows : List (κ × ρ)) : Prop where
  map : d.Perm (fixed ++ users)
  rows : rows = users.map (Prod.map id save)
  nodup : ((fixed ++ users).map Prod.fst).Nodup
  sound : ∀ x ∈ users, Sound x.1 x.2

variable {fixed save Sound} {users d : List (κ × ν)} {rows : List (κ × ρ)}

namespace Mirrors

omit [DecidableEq κ] in
theorem nodup_map (m : Mirrors fixed save Sound users d rows) : (d.map Prod.fst).Nodup :=
  (m.map.map _).nodup_iff.2 m.nodup

omit [DecidableEq κ] in
theorem nodup_users (m : Mirrors fixed save Sound users d rows) : (users.map Prod.fst).Nodup :=
  m.nodup.sublist ((List.sublist_append_right fixed users).map _)

omit [DecidableEq κ] in
theorem not_fixed (m : Mirrors fixed save Sound users d rows) {x : κ × ν} (hx : x ∈ users) :
    x.1 ∉ fixed.map Prod.fst := by
  have h := m.nodup
  rw [List.map_append, List.nodup_append] at h
  intro hf
  exact h.2.2 _ hf _ (List.mem_map_of_mem hx) rfl

theorem lookup_iff (m : Mirrors fixed save Sound users d rows) {k : κ} {v : ν} :
    d.lookup k = some v ↔ (k, v) ∈ fixed ∨ (k, v) ∈ users := by
  rw [lookup_iff_mem m.nodup_map, m.map.mem_iff, List.mem_append]

/-- Where the fixed part is marked, a key without the mark is not in it. -/
theorem not_fixed_of_unmarked (mark : ν → Bool) (hf : ∀ x ∈ fixed, mark x.2 = true)
    (m : Mirrors fixed save Sound users d rows) {k : κ} (h : (d.lookup k).any mark = false) :
    k ∉ fixed.map Prod.fst := by
  intro hk
  obtain ⟨⟨n, v⟩, hx, rfl⟩ := List.mem_map.1 hk
  have hmark := hf _ hx
  rw [m.lookup_iff.2 (Or.inl hx)] at h
  simp_all

theorem mem_users_of_unmarked (mark : ν → Bool) (hf : ∀ x ∈ fixed, mark x.2 = true)
    (m : Mirrors fixed save Sound users d rows) {k : κ} {v : ν} (h : d.lookup k = some v)
    (hv : mark v = false) : (k, v) ∈ users := by
  rcases m.lookup_iff.1 h with hk | hk
  · have := hf _ hk
    simp_all
  · exact hk

omit [DecidableEq κ] in
theorem length_map (m : Mirrors fixed save Sound users d rows) :
    d.length = fixed.length + users.length := by
  rw [m.map.length_eq, List.length_append]

/-- Writing a key that is not fixed, in the map and in the rows. -/
theorem insert (m : Mirrors fixed save Sound users d rows) {k : κ} {v : ν}
    (hk : k ∉ fixed.map Prod.fst) (hs : Sound k v) :
    Mirrors fixed save Sound (Assoc.insert k v users) (Assoc.insert k v d)
      (Assoc.insert k (save v) rows) where
  map := perm_insert_beside v m.map hk
  rows := by rw [m.rows, map_insert]
  nodup := by
    have h := nodup_keys_insert (k := k) (v := v) m.nodup_map
    exact ((perm_insert_beside v m.map hk).map _).nodup_iff.1 h
  sound := by
    intro x hx
    rcases List.mem_cons.1 hx with rfl | hx
    · exact hs
    · exact m.sound x (mem_erase.1 hx).1

/-- Dropping a key that is not fixed, in the map and in the rows. -/
theorem erase (m : Mirrors fixed save Sound users d rows) {k : κ}
    (hk : k ∉ fixed.map Prod.fst) :
    Mirrors fixed save Sound (Assoc.erase k users) (Assoc.erase k d) (Assoc.erase k rows) where
  map := perm_erase_beside m.map hk
  rows := by rw [m.rows, map_erase]
  nodup := ((perm_erase_beside m.map hk).map _).nodup_iff.1 (nodup_keys_erase m.nodup_map)
  sound := fun x hx => m.sound x (mem_erase.1 hx).1

/-- Dropping a user's key and writing it back as it was. -/
theorem insert_erase_perm (m : Mirrors fixed save Sound users d rows) {k : κ} {v : ν}
    (h : (k, v) ∈ users) : (Assoc.insert k v (Assoc.erase k d)).Perm d := by
  have hd : (k, v) ∈ d := m.map.mem_iff.2 (List.mem_append_right _ h)
  have hp := insert_of_mem_perm m.nodup_map hd
  rw [insert_eq] at hp
  rwa [insert_eq, erase_erase]

omit [DecidableEq κ] in
/-- A map with the same bindings mirrors the same rows. -/
theorem of_perm (m : Mirrors fixed save Sound users d rows) {d' : List (κ × ν)}
    (h : d'.Perm d) : Mirrors fixed save Sound users d' rows :=
  ⟨h.trans m.map, m.rows, m.nodup, m.sound⟩

theorem lookup_eq (m : Mirrors fixed save Sound users d rows) {d' : List (κ × ν)}
    (h : d.Perm d') (k : κ) : d.lookup k = d'.lookup k := lookup_perm h m.nodup_map k

omit [DecidableEq κ] in
/-- The rows in another order are the image of the changing part in that order. -/
theorem exists_users (m : Mirrors fixed save Sound users d rows) {l : List (κ × ρ)}
    (hl : l.Perm rows) :
    ∃ users' : List (κ × ν), users'.Perm users ∧ l = users'.map (Prod.map id save) := by
  rw [m.rows] at hl
  have hcomp : Relation.Comp (fun l' m' => l' = m'.map (Prod.map id save)) List.Perm l users := by
    rw [List.eq_map_comp_perm]
    exact hl
  obtain ⟨users', h, hp⟩ := hcomp
  exact ⟨users', hp, h⟩

end Mirrors

/-- Loading rows one by one: where each of them is written into the map it
meets, the map ends as the fixed part with all of them. -/
theorem foldl_load_perm {load : List (κ × ν) → κ × ρ → List (κ × ν)}
    (hnodup : ((fixed ++ users).map Prod.fst).Nodup)
    (hstep : ∀ seen x rest d, users = seen ++ x :: rest → d.Perm (fixed ++ seen) →
      load d (x.1, save x.2) = Assoc.insert x.1 x.2 d) :
    ((users.map (Prod.map id save)).foldl load fixed).Perm (fixed ++ users) := by
  suffices h : ∀ rest seen d, users = seen ++ rest → d.Perm (fixed ++ seen) →
      ((rest.map (Prod.map id save)).foldl load d).Perm (fixed ++ users) from
    h users [] fixed rfl (by simp)
  intro rest
  induction rest with
  | nil =>
    intro seen d hu hd
    simpa [hu] using hd
  | cons x rest ih =>
    intro seen d hu hd
    have hfresh : x.1 ∉ (fixed ++ seen).map Prod.fst := by
      intro hx
      rw [hu, ← List.append_assoc, List.map_append, List.nodup_append] at hnodup
      exact hnodup.2.2 _ hx _ (by simp) rfl
    have hd' : x.1 ∉ d.map Prod.fst := fun hx => hfresh ((hd.map _).mem_iff.1 hx)
    have hload : load d (Prod.map id save x) = x :: d := by
      have := hstep seen x rest d hu hd
      rwa [insert_eq, erase_eq_self hd'] at this
    rw [List.map_cons, List.foldl_cons, hload]
    refine ih (seen ++ [x]) (x :: d) (by simp [hu]) ?_
    rw [← List.append_assoc]
    exact (hd.cons x).trans (List.perm_append_singleton x _).symm

end Mirrors

end Assoc
