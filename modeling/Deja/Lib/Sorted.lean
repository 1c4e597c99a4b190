import Mathlib.Data.List.Sort
import Mathlib.Tactic
import Deja.Lib.Assoc

/-!
# Sorted association lists

A map with ordered keys as the list of its pairs in strictly increasing key
order.  `insert` replaces the value of a key that is there; `ofList` inserts the
pairs of a list one after the other, so the last pair of a key wins.

A sorted list is determined by its lookups (`ext`), and `ofList` by the last
pair of every key (`lookup_ofList`).
-/

namespace Sorted

variable {κ ν μ : Type} [LinearOrder κ]

/-- Strictly increasing keys. -/
def Keys (d : List (κ × ν)) : Prop := (d.map Prod.fst).Pairwise (· < ·)

/-- Set a key to a value. -/
def insert (k : κ) (v : ν) : List (κ × ν) → List (κ × ν)
  | [] => [(k, v)]
  | x :: d =>
    if k < x.1 then (k, v) :: x :: d
    else if k = x.1 then (k, v) :: d
    else x :: insert k v d

/-- The map of a list of pairs: the last pair of a key wins. -/
def ofList (l : List (κ × ν)) : List (κ × ν) := l.foldl (fun d x => insert x.1 x.2 d) []

/-- The pairs in key order, none dropped. -/
def sort (l : List (κ × ν)) : List (κ × ν) := l.insertionSort fun a b => a.1 ≤ b.1

/-! ## Insert -/

theorem mem_keys_insert {k k' : κ} {v : ν} {d : List (κ × ν)} :
    k' ∈ (insert k v d).map Prod.fst ↔ k' = k ∨ k' ∈ d.map Prod.fst := by
  induction d with
  | nil => simp [insert]
  | cons x d ih =>
    unfold insert
    split_ifs with hlt heq
    · simp
    · subst heq
      simp
    · rw [List.map_cons, List.mem_cons, ih, List.map_cons, List.mem_cons]
      tauto

theorem keys_insert {k : κ} {v : ν} {d : List (κ × ν)} (h : Keys d) : Keys (insert k v d) := by
  induction d with
  | nil => simp [insert, Keys]
  | cons x d ih =>
    obtain ⟨hx, hd⟩ := List.pairwise_cons.1 h
    unfold insert
    split_ifs with hlt heq
    · refine List.pairwise_cons.2 ⟨fun k' hk' => ?_, h⟩
      rcases List.mem_cons.1 hk' with rfl | hk'
      · exact hlt
      · exact hlt.trans (hx k' hk')
    · exact List.pairwise_cons.2 ⟨fun k' hk' => heq ▸ hx k' hk', hd⟩
    · refine List.pairwise_cons.2 ⟨fun k' hk' => ?_, ih hd⟩
      rcases mem_keys_insert.1 hk' with rfl | hk'
      · exact lt_of_le_of_ne (not_lt.1 hlt) (Ne.symm heq)
      · exact hx k' hk'

theorem lookup_cons_ite (k : κ) (x : κ × ν) (d : List (κ × ν)) :
    (x :: d).lookup k = if k = x.1 then some x.2 else d.lookup k := by
  rw [List.lookup_cons]
  by_cases hk : k = x.1
  · simp [hk]
  · have hne : (k == x.1) = false := by simpa using hk
    rw [hne, if_neg hk]

theorem lookup_eq_none {k : κ} {d : List (κ × ν)} :
    d.lookup k = none ↔ k ∉ d.map Prod.fst := by
  induction d with
  | nil => simp
  | cons x d ih =>
    rw [lookup_cons_ite, List.map_cons, List.mem_cons]
    split_ifs with hx
    · simp [hx]
    · simp only [ih, hx, false_or]

theorem lookup_insert {k k' : κ} {v : ν} {d : List (κ × ν)} :
    (insert k v d).lookup k' = if k' = k then some v else d.lookup k' := by
  induction d with
  | nil => exact lookup_cons_ite k' (k, v) []
  | cons x d ih =>
    unfold insert
    by_cases hlt : k < x.1
    · rw [if_pos hlt]
      exact lookup_cons_ite k' (k, v) (x :: d)
    · rw [if_neg hlt]
      by_cases heq : k = x.1
      · rw [if_pos heq, lookup_cons_ite, lookup_cons_ite]
        split_ifs with h₁ h₂
        · rfl
        · exact absurd (h₂.trans heq.symm) h₁
        · rfl
      · rw [if_neg heq, lookup_cons_ite, lookup_cons_ite, ih]
        split_ifs with h₁ h₂
        · exact absurd (h₂.symm.trans h₁) heq
        · rfl
        · rfl
        · rfl

/-! ## Lists of pairs -/

theorem ofList_concat (l : List (κ × ν)) (x : κ × ν) :
    ofList (l ++ [x]) = insert x.1 x.2 (ofList l) := by
  simp [ofList, List.foldl_append]

theorem keys_ofList (l : List (κ × ν)) : Keys (ofList l) := by
  induction l using List.reverseRecOn with
  | nil => exact List.Pairwise.nil
  | append_singleton l x ih =>
    rw [ofList_concat]
    exact keys_insert ih

theorem mem_keys_ofList {k : κ} {l : List (κ × ν)} :
    k ∈ (ofList l).map Prod.fst ↔ k ∈ l.map Prod.fst := by
  induction l using List.reverseRecOn with
  | nil => simp [ofList]
  | append_singleton l x ih =>
    rw [ofList_concat, mem_keys_insert, ih, List.map_append, List.mem_append]
    simp [or_comm]

theorem mem_of_mem_insert {k : κ} {v : ν} {d : List (κ × ν)} {x : κ × ν}
    (h : x ∈ insert k v d) : x = (k, v) ∨ x ∈ d := by
  induction d with
  | nil => exact .inl (by simpa [insert] using h)
  | cons y d ih =>
    unfold insert at h
    split_ifs at h
    · exact List.mem_cons.1 h
    · rcases List.mem_cons.1 h with h | h
      · exact .inl h
      · exact .inr (List.mem_cons_of_mem _ h)
    · rcases List.mem_cons.1 h with rfl | h
      · exact .inr List.mem_cons_self
      · exact (ih h).imp_right (List.mem_cons_of_mem _)

theorem mem_of_mem_ofList {l : List (κ × ν)} {x : κ × ν} (h : x ∈ ofList l) : x ∈ l := by
  induction l using List.reverseRecOn with
  | nil => exact nomatch h
  | append_singleton l y ih =>
    rw [ofList_concat] at h
    rcases mem_of_mem_insert h with rfl | h
    · exact List.mem_append_right _ (List.mem_singleton_self _)
    · exact List.mem_append_left _ (ih h)

/-- **The last pair of a key wins.** -/
theorem lookup_ofList (l : List (κ × ν)) (k : κ) : (ofList l).lookup k = l.reverse.lookup k := by
  induction l using List.reverseRecOn with
  | nil => rfl
  | append_singleton l x ih =>
    rw [ofList_concat, lookup_insert, ih, List.reverse_concat, lookup_cons_ite]

/-! ## Extensionality -/

theorem lookup_of_lt {k : κ} {d : List (κ × ν)} (h : ∀ k' ∈ d.map Prod.fst, k < k') :
    d.lookup k = none :=
  lookup_eq_none.2 fun hk => lt_irrefl _ (h k hk)

/-- A key below the first one is not there. -/
theorem head_le {x : κ × ν} {d e : List (κ × ν)} (he : Keys e)
    (h : ∀ k, (x :: d).lookup k = e.lookup k) : ∃ y e', e = y :: e' ∧ y.1 ≤ x.1 := by
  have hx := h x.1
  rw [lookup_cons_ite, if_pos rfl] at hx
  cases e with
  | nil => cases hx
  | cons y e =>
    refine ⟨y, e, rfl, le_of_not_gt fun hlt => ?_⟩
    rw [lookup_of_lt] at hx
    · cases hx
    · intro k' hk'
      rcases List.mem_cons.1 hk' with rfl | hk'
      · exact hlt
      · exact hlt.trans ((List.pairwise_cons.1 he).1 k' hk')

/-- **Sorted lists with the same lookups are equal.** -/
theorem ext {d e : List (κ × ν)} (hd : Keys d) (he : Keys e)
    (h : ∀ k, d.lookup k = e.lookup k) : d = e := by
  induction d generalizing e with
  | nil =>
    cases e with
    | nil => rfl
    | cons y e =>
      have hy := h y.1
      rw [lookup_cons_ite, if_pos rfl] at hy
      cases hy
  | cons x d ih =>
    obtain ⟨y, e, rfl, hle⟩ := head_le he h
    obtain ⟨x', d', hcons, hge⟩ := head_le hd fun k => (h k).symm
    obtain ⟨rfl, rfl⟩ := List.cons.inj hcons
    have hkey : x.1 = y.1 := le_antisymm hge hle
    obtain ⟨hx, hd⟩ := List.pairwise_cons.1 hd
    obtain ⟨hy, he'⟩ := List.pairwise_cons.1 he
    have hval := h x.1
    rw [lookup_cons_ite, lookup_cons_ite, if_pos rfl, if_pos hkey] at hval
    have hxy : x = y := Prod.ext hkey (Option.some.inj hval)
    subst hxy
    refine congrArg (x :: ·) (ih hd he' fun k => ?_)
    have hk := h k
    rw [lookup_cons_ite, lookup_cons_ite] at hk
    by_cases hkx : k = x.1
    · rw [hkx, lookup_of_lt hx, lookup_of_lt hy]
    · rwa [if_neg hkx, if_neg hkx] at hk

theorem ofList_eq_iff {l m : List (κ × ν)} :
    ofList l = ofList m ↔ ∀ k, l.reverse.lookup k = m.reverse.lookup k := by
  constructor
  · intro h k
    rw [← lookup_ofList, ← lookup_ofList, h]
  · intro h
    exact ext (keys_ofList l) (keys_ofList m) fun k => by rw [lookup_ofList, lookup_ofList, h]

/-! ## Distinct keys -/

theorem Keys.nodup {d : List (κ × ν)} (h : Keys d) : (d.map Prod.fst).Nodup :=
  List.Pairwise.imp (fun hlt => ne_of_lt hlt) h

theorem lookup_eq_some_iff {l : List (κ × ν)} (h : (l.map Prod.fst).Nodup) {k : κ} {v : ν} :
    l.lookup k = some v ↔ (k, v) ∈ l :=
  ⟨Assoc.mem_of_lookup, Assoc.lookup_of_mem h⟩

omit [LinearOrder κ] in
theorem nodup_reverse_keys {l : List (κ × ν)} (h : (l.map Prod.fst).Nodup) :
    (l.reverse.map Prod.fst).Nodup := by
  rw [List.map_reverse]
  exact List.nodup_reverse.2 h

theorem mem_ofList {l : List (κ × ν)} (h : (l.map Prod.fst).Nodup) {x : κ × ν} :
    x ∈ ofList l ↔ x ∈ l := by
  obtain ⟨k, v⟩ := x
  rw [← lookup_eq_some_iff (keys_ofList l).nodup, lookup_ofList,
    lookup_eq_some_iff (nodup_reverse_keys h), List.mem_reverse]

/-- With distinct keys nothing is lost. -/
theorem perm_ofList {l : List (κ × ν)} (h : (l.map Prod.fst).Nodup) : (ofList l).Perm l :=
  (List.perm_ext_iff_of_nodup (keys_ofList l).nodup.of_map h.of_map).2 fun _ => mem_ofList h

theorem ofList_eq_of_perm {l m : List (κ × ν)} (h : (l.map Prod.fst).Nodup) (hp : l.Perm m) :
    ofList l = ofList m := by
  have hm : (m.map Prod.fst).Nodup := (hp.map _).nodup_iff.1 h
  refine ofList_eq_iff.2 fun k => Option.ext fun v => ?_
  rw [lookup_eq_some_iff (nodup_reverse_keys h),
    lookup_eq_some_iff (nodup_reverse_keys hm), List.mem_reverse, List.mem_reverse, hp.mem_iff]

theorem ofList_of_keys {d : List (κ × ν)} (h : Keys d) : ofList d = d := by
  refine ext (keys_ofList d) h fun k => Option.ext fun v => ?_
  rw [lookup_ofList, lookup_eq_some_iff h.nodup,
    lookup_eq_some_iff (nodup_reverse_keys h.nodup), List.mem_reverse]

theorem ofList_append (l m : List (κ × ν)) :
    ofList (l ++ m) = m.foldl (fun d x => insert x.1 x.2 d) (ofList l) := by
  rw [ofList, List.foldl_append]
  rfl

/-- Pairs may be put in order before others are added. -/
theorem ofList_ofList_append (l m : List (κ × ν)) : ofList (ofList l ++ m) = ofList (l ++ m) := by
  rw [ofList_append, ofList_append, ofList_of_keys (keys_ofList l)]

theorem length_insert_le (k : κ) (v : ν) (d : List (κ × ν)) :
    (insert k v d).length ≤ d.length + 1 := by
  induction d with
  | nil => simp [insert]
  | cons x d ih =>
    unfold insert
    split_ifs
    · simp
    · simp
    · simpa using ih

theorem length_ofList_le (l : List (κ × ν)) : (ofList l).length ≤ l.length := by
  induction l using List.reverseRecOn with
  | nil => exact le_refl _
  | append_singleton l x ih =>
    rw [ofList_concat, List.length_append, List.length_singleton]
    exact (length_insert_le _ _ _).trans (Nat.add_le_add_right ih 1)

/-- A map as long as its list: the keys were distinct. -/
theorem nodup_of_length_le {l : List (κ × ν)} (h : l.length ≤ (ofList l).length) :
    (l.map Prod.fst).Nodup := by
  have hsub : (ofList l).map Prod.fst ⊆ l.map Prod.fst := fun k hk => mem_keys_ofList.1 hk
  have hperm := (List.subperm_of_subset (keys_ofList l).nodup hsub).perm_of_length_le
    (by simpa using h)
  exact hperm.nodup_iff.1 (keys_ofList l).nodup

theorem ofList_map_value (l : List (κ × ν)) (f : κ → ν → μ) :
    ofList (l.map fun x => (x.1, f x.1 x.2)) = (ofList l).map fun x => (x.1, f x.1 x.2) := by
  induction l using List.reverseRecOn with
  | nil => rfl
  | append_singleton l x ih =>
    rw [List.map_append, List.map_singleton, ofList_concat, ofList_concat, ih]
    generalize ofList l = d
    induction d with
    | nil => rfl
    | cons y d ihd =>
      simp only [List.map_cons, insert]
      split_ifs
      · rfl
      · rfl
      · rw [ihd, List.map_cons]

/-! ## Sorting -/

theorem perm_sort (l : List (κ × ν)) : (sort l).Perm l := List.perm_insertionSort _ _

theorem sort_eq_ofList {l : List (κ × ν)} (h : (l.map Prod.fst).Nodup) : sort l = ofList l := by
  have htotal : Std.Total fun a b : κ × ν => a.1 ≤ b.1 := ⟨fun a b => le_total a.1 b.1⟩
  have htrans : IsTrans (κ × ν) fun a b => a.1 ≤ b.1 := ⟨fun _ _ _ => le_trans⟩
  have hsorted := List.pairwise_insertionSort (fun a b : κ × ν => a.1 ≤ b.1) l
  have hnodup : ((sort l).map Prod.fst).Nodup := ((perm_sort l).map _).nodup_iff.2 h
  have hkeys : Keys (sort l) := by
    have hle : ((sort l).map Prod.fst).Pairwise (· ≤ ·) := List.pairwise_map.2 hsorted
    exact hle.imp₂ (fun a b hle hne => lt_of_le_of_ne hle hne) hnodup
  rw [← ofList_of_keys hkeys]
  exact ofList_eq_of_perm hnodup (perm_sort l)

/-! ## Keys changed on the way -/

omit [LinearOrder κ] in
/-- Keys that an idempotent function permutes stay. -/
theorem fixed_of_perm {ι : Type} {l : List ι} {f : κ → κ} {key : ι → κ}
    (hf : ∀ k, f (f k) = f k) (h : (l.map fun i => f (key i)).Perm (l.map key)) :
    ∀ i ∈ l, f (key i) = key i := by
  intro i hi
  obtain ⟨j, -, hj⟩ := List.mem_map.1 (h.mem_iff.2 (List.mem_map_of_mem hi))
  rw [← hj, hf]

/-- **A map written under other keys and read back.**  The pairs come back as the
sorted list of their names and values, none lost, exactly if the names are
distinct and the pairs read are those pairs in some order. -/
theorem read_eq_sort_iff {ι : Type} (l : List ι) (wire name : ι → κ) (expand : κ → κ)
    (got want : ι → μ) :
    ofList ((ofList (l.map fun i => (wire i, i))).map fun x => (expand x.1, got x.2)) =
        sort (l.map fun i => (name i, want i)) ↔
      (l.map name).Nodup ∧
        (l.map fun i => (expand (wire i), got i)).Perm (l.map fun i => (name i, want i)) := by
  have hkeys : ∀ (f : ι → κ) (g : ι → μ),
      (l.map fun i => (f i, g i)).map Prod.fst = l.map f := fun f g => by
    rw [List.map_map]
    rfl
  have hwire : (l.map fun i => (wire i, i)).map Prod.fst = l.map wire := by
    rw [List.map_map]
    rfl
  constructor
  · intro h
    have hlen := congrArg List.length h
    rw [(perm_sort _).length_eq, List.length_map] at hlen
    have h₁ := length_ofList_le
      ((ofList (l.map fun i => (wire i, i))).map fun x => (expand x.1, got x.2))
    have h₂ := length_ofList_le (l.map fun i => (wire i, i))
    rw [List.length_map] at h₁ h₂
    have hn₁ := nodup_of_length_le (l := l.map fun i => (wire i, i)) (by
      rw [List.length_map]
      omega)
    have hn₂ := nodup_of_length_le
      (l := (ofList (l.map fun i => (wire i, i))).map fun x => (expand x.1, got x.2)) (by
        rw [List.length_map]
        omega)
    have hp : ((ofList (l.map fun i => (wire i, i))).map fun x => (expand x.1, got x.2)).Perm
        (l.map fun i => (expand (wire i), got i)) := by
      have := (perm_ofList hn₁).map fun x : κ × ι => (expand x.1, got x.2)
      rwa [List.map_map] at this
    have hall : (l.map fun i => (expand (wire i), got i)).Perm
        (l.map fun i => (name i, want i)) :=
      hp.symm.trans ((perm_ofList hn₂).symm.trans ((List.Perm.of_eq h).trans (perm_sort _)))
    refine ⟨?_, hall⟩
    have hnodup := (hp.map Prod.fst).nodup_iff.1 hn₂
    have := (hall.map Prod.fst).nodup_iff.1 hnodup
    rwa [hkeys] at this
  · rintro ⟨hname, hp⟩
    have hread : (l.map fun i => expand (wire i)).Nodup := by
      have hpk := hp.map Prod.fst
      rw [hkeys, hkeys] at hpk
      exact hpk.nodup_iff.2 hname
    have hn₁ : ((l.map fun i => (wire i, i)).map Prod.fst).Nodup := by
      rw [hwire]
      exact List.Nodup.of_map expand (by rwa [List.map_map])
    have hp₁ : ((ofList (l.map fun i => (wire i, i))).map fun x => (expand x.1, got x.2)).Perm
        (l.map fun i => (name i, want i)) := by
      have := (perm_ofList hn₁).map fun x : κ × ι => (expand x.1, got x.2)
      rw [List.map_map] at this
      exact this.trans hp
    have hn : ((l.map fun i => (name i, want i)).map Prod.fst).Nodup := by rwa [hkeys]
    rw [sort_eq_ofList hn]
    exact ofList_eq_of_perm ((hp₁.map _).nodup_iff.2 hn) hp₁

omit [LinearOrder κ] in
/-- Pairs that agree in their names agree in their values. -/
theorem values_of_perm {ι : Type} {l : List ι} {key name : ι → κ} {got want : ι → μ}
    (hname : (l.map name).Nodup) (hkey : ∀ i ∈ l, key i = name i)
    (h : (l.map fun i => (key i, got i)).Perm (l.map fun i => (name i, want i))) :
    ∀ i ∈ l, got i = want i := by
  intro i hi
  have hmem := h.mem_iff.1 (List.mem_map_of_mem (f := fun i => (key i, got i)) hi)
  obtain ⟨j, hj, heq⟩ := List.mem_map.1 hmem
  have hji : j = i := List.inj_on_of_nodup_map hname hj hi
    ((congrArg Prod.fst heq).trans (hkey i hi))
  rw [hji] at heq
  exact (congrArg Prod.snd heq).symm

end Sorted
