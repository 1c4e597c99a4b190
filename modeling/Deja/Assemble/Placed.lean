import Deja.Assemble.Budget
import Deja.Lib.Firsts

/-!
# Where every grain goes

A grain a source returns is kept, is among the omitted grains of its source, or
is a duplicate of a grain that stands for it.  Labels name sources only while
they are distinct: dedup by a field and the cap both file grains under labels.

* `accounted_of` — every grain is accounted for where the labels are distinct
  and a dedup value is a value both grains carry.
-/

namespace Deja.Assemble

open Firsts

/-! ## The account -/

/-- The value of the dedup field a grain carries. -/
def dedupValue (field : String) (g : CalGrainResult) : Option Json :=
  if field = "_hash" then some (.str g.hash) else g.fields.get field

/-- Two grains that carry the field with the same value. -/
def SameValue (field : String) (g g' : CalGrainResult) : Prop :=
  ∃ v, dedupValue field g = some v ∧ dedupValue field g' = some v

/-- The source `x`, an index and a label, has at least the priority of `y`: by
weight under a `PRIORITY` clause, by position without one. -/
def AtLeast (priority : Option (List PrioritySpec)) (y x : ℕ × String) : Prop :=
  match priority with
  | some specs => specWeight specs y.2 ≤ specWeight specs x.2
  | none => x.1 ≤ y.1

/-- What dedup took from each source, and the grains that stand for it. -/
structure DedupAccount (field : String) (priority : Option (List PrioritySpec))
    (results deduped : SourceResults) (removed : ℕ → List CalGrainResult) : Prop where
  whole : ∀ (i : ℕ) s d, results[i]? = some s → deduped[i]? = some d →
    d.1 = s.1 ∧ s.2.Perm (d.2 ++ removed i)
  stands : ∀ (i : ℕ) s, results[i]? = some s → ∀ g ∈ removed i, ∃ (j : ℕ), ∃ d,
    deduped[j]? = some d ∧ AtLeast priority (i, s.1) (j, d.1) ∧
      ∃ g' ∈ d.2, SameValue field g g'

/-! ## Grains with their sources -/

/-- Every grain with the position and the label of its source, positions from
`n` on. -/
def tagged (n : ℕ) : SourceResults → List (ℕ × String × CalGrainResult)
  | [] => []
  | s :: rest => s.2.map (fun g => (n, s.1, g)) ++ tagged (n + 1) rest

theorem mem_tagged {results : SourceResults} : ∀ {n : ℕ} {x : ℕ × String × CalGrainResult},
    x ∈ tagged n results → ∃ i s, x.1 = n + i ∧ results[i]? = some s ∧ x.2.1 = s.1 := by
  induction results with
  | nil => intro n x h; simp [tagged] at h
  | cons s rest ih =>
    intro n x h
    rcases List.mem_append.1 h with h | h
    · obtain ⟨g, -, rfl⟩ := List.mem_map.1 h
      exact ⟨0, s, rfl, rfl, rfl⟩
    · obtain ⟨i, t, hx, ht, hlabel⟩ := ih h
      exact ⟨i + 1, t, by omega, ht, hlabel⟩

/-- The grains of one source, among all of them. -/
def ofSource (i : ℕ) (l : List (ℕ × String × CalGrainResult)) : List CalGrainResult :=
  (l.filter fun x => x.1 = i).map fun x => x.2.2

theorem ofSource_append (i : ℕ) (l m : List (ℕ × String × CalGrainResult)) :
    ofSource i (l ++ m) = ofSource i l ++ ofSource i m := by
  simp [ofSource]

theorem ofSource_perm (i : ℕ) {l m : List (ℕ × String × CalGrainResult)} (h : l.Perm m) :
    (ofSource i l).Perm (ofSource i m) :=
  (h.filter _).map _

theorem ofSource_eq_nil {i : ℕ} {l : List (ℕ × String × CalGrainResult)}
    (h : ∀ x ∈ l, x.1 ≠ i) : ofSource i l = [] := by
  have hfilter : (l.filter fun x => x.1 = i) = [] :=
    List.filter_eq_nil_iff.2 fun x hx => by simpa using h x hx
  simp [ofSource, hfilter]

theorem ofSource_tag (i : ℕ) (label : String) (gs : List CalGrainResult) :
    ofSource i (gs.map fun g => (i, label, g)) = gs := by
  simp [ofSource, List.filter_map, Function.comp_def]

theorem ofSource_tagged {results : SourceResults} : ∀ {n i : ℕ}
    {s : String × List CalGrainResult}, results[i]? = some s →
      ofSource (n + i) (tagged n results) = s.2 := by
  induction results with
  | nil => intro n i s h; simp at h
  | cons t rest ih =>
    intro n i s h
    rw [tagged, ofSource_append]
    cases i with
    | zero =>
      obtain rfl : t = s := by simpa using h
      have hnil : ofSource n (tagged (n + 1) rest) = [] := ofSource_eq_nil fun x hx => by
        obtain ⟨i, -, hx, -⟩ := mem_tagged hx
        omega
      rw [Nat.add_zero, ofSource_tag, hnil, List.append_nil]
    | succ i =>
      have hnil : ofSource (n + (i + 1)) (t.2.map fun g => (n, t.1, g)) = [] :=
        ofSource_eq_nil fun x hx => by
          obtain ⟨g, -, rfl⟩ := List.mem_map.1 hx
          simp
      have hrest := @ih (n + 1) i s (by simpa using h)
      rw [hnil, List.nil_append, ← hrest]
      congr 1
      omega

/-- **An account of dedup.**  Going through all the grains in some order and
keeping the first of each key accounts for every grain, when along that order a
later grain of the same key has the same value and no more priority. -/
theorem dedupAccount_of_order {field : String} {priority : Option (List PrioritySpec)}
    {results deduped : SourceResults} (key : ℕ × String × CalGrainResult → String)
    {order : List (ℕ × String × CalGrainResult)} (hperm : order.Perm (tagged 0 results))
    (hlabels : deduped.map Prod.fst = results.map Prod.fst)
    (hkept : ∀ (i : ℕ) d, deduped[i]? = some d → d.2 = ofSource i (firsts key [] order))
    (horder : order.Pairwise fun x y => key x = key y →
      SameValue field y.2.2 x.2.2 ∧ AtLeast priority (y.1, y.2.1) (x.1, x.2.1)) :
    DedupAccount field priority results deduped fun i => ofSource i (repeats key [] order) := by
  have hlabel : ∀ {i : ℕ} {s d}, results[i]? = some s → deduped[i]? = some d → d.1 = s.1 := by
    intro i s d hs hd
    have h := congrArg (fun l => l[i]?) hlabels
    simpa [hs, hd] using h
  constructor
  · intro i s d hs hd
    refine ⟨hlabel hs hd, ?_⟩
    rw [hkept i d hd, ← ofSource_append]
    have hall : (firsts key [] order ++ repeats key [] order).Perm order :=
      firsts_append_repeats_perm order []
    have hsplit := ofSource_perm i (hall.trans hperm)
    have hsource := @ofSource_tagged results 0 i s hs
    rw [Nat.zero_add] at hsource
    rw [hsource] at hsplit
    exact hsplit.symm
  · intro i s hs g hg
    obtain ⟨y, hy, rfl⟩ := List.mem_map.1 hg
    obtain ⟨hy, hi⟩ := List.mem_filter.1 hy
    obtain ⟨x, hx, hkey, hxy⟩ :=
      (exists_first_of_mem_repeats horder hy).resolve_left (List.not_mem_nil)
    obtain ⟨hsame, hprio⟩ := hxy hkey
    obtain ⟨j, t, hj, ht, htlabel⟩ := mem_tagged (hperm.mem_iff.1 (mem_of_mem_firsts hx))
    obtain ⟨i', s', hi', hs', hslabel⟩ := mem_tagged (hperm.mem_iff.1 (mem_of_mem_repeats hy))
    rw [Nat.zero_add] at hj hi'
    obtain rfl : y.1 = i := by simpa using hi
    obtain rfl : s = s' := by
      rw [← hi', hs] at hs'
      exact Option.some.inj hs'
    obtain ⟨d, hd⟩ : ∃ d, deduped[j]? = some d := by
      have hlen := congrArg List.length hlabels
      simp only [List.length_map] at hlen
      have hlt := (List.getElem?_eq_some_iff.1 ht).1
      exact ⟨_, List.getElem?_eq_getElem (by omega)⟩
    refine ⟨j, d, hd, ?_, x.2.2, ?_, hsame⟩
    · rw [hlabel ht hd, ← htlabel, ← hslabel, ← hj]
      exact hprio
    · rw [hkept j d hd]
      exact List.mem_map.2 ⟨x, List.mem_filter.2 ⟨hx, by simpa using hj⟩, rfl⟩

/-! ## Dedup by hash -/

theorem keepUnseen_eq (gs : List CalGrainResult) : ∀ seen,
    keepUnseen seen gs = (seenAfter (·.hash) seen gs, firsts (·.hash) seen gs) := by
  induction gs with
  | nil => intro seen; rfl
  | cons g gs ih =>
    intro seen
    by_cases h : g.hash ∈ seen
    · simp only [keepUnseen, seenAfter, firsts, if_pos h, ih]
    · simp only [keepUnseen, seenAfter, firsts, if_neg h, ih]

theorem dedupByHashFrom_get (results : SourceResults) : ∀ {n i : ℕ} {seen : List String}
    {d : String × List CalGrainResult}, (dedupByHashFrom seen results)[i]? = some d →
      d.2 = ofSource (n + i) (firsts (fun x => x.2.2.hash) seen (tagged n results)) := by
  induction results with
  | nil => intro n i seen d h; simp [dedupByHashFrom] at h
  | cons s rest ih =>
    intro n i seen d h
    simp only [dedupByHashFrom, keepUnseen_eq] at h
    rw [tagged, firsts_append, firsts_map, seenAfter_map, ofSource_append]
    cases i with
    | zero =>
      obtain rfl : (s.1, firsts (·.hash) seen s.2) = d := by simpa using h
      have hnil : ofSource n (firsts (fun x => x.2.2.hash)
          (seenAfter (·.hash) seen s.2) (tagged (n + 1) rest)) = [] :=
        ofSource_eq_nil fun x hx => by
          obtain ⟨i, -, hx, -⟩ := mem_tagged (mem_of_mem_firsts hx)
          omega
      rw [Nat.add_zero, ofSource_tag]
      exact ((List.append_nil _).symm.trans (congrArg _ hnil.symm))
    | succ i =>
      have hnil : ofSource (n + (i + 1)) ((firsts (·.hash) seen s.2).map fun g => (n, s.1, g)) =
          [] := ofSource_eq_nil fun x hx => by
        obtain ⟨g, -, rfl⟩ := List.mem_map.1 hx
        simp
      have hrest := @ih (n + 1) i _ d (by simpa using h)
      rw [show n + 1 + i = n + (i + 1) by omega] at hrest
      exact hrest.trans ((List.nil_append _).symm.trans (congrArg (· ++ _) hnil.symm))

theorem tagged_pairwise (results : SourceResults) : ∀ n,
    (tagged n results).Pairwise fun x y => x.1 ≤ y.1 := by
  induction results with
  | nil => intro n; exact .nil
  | cons s rest ih =>
    intro n
    refine List.pairwise_append.2 ⟨?_, ih (n + 1), ?_⟩
    · rw [List.pairwise_map]
      exact List.pairwise_of_forall fun _ _ => le_rfl
    · intro x hx y hy
      obtain ⟨g, -, rfl⟩ := List.mem_map.1 hx
      obtain ⟨i, -, hy, -⟩ := mem_tagged hy
      omega

/-! ## Dedup by a field -/

theorem foldl_dedupStep {field : String} (L : List (WithTop ℕ × String × CalGrainResult)) :
    ∀ (seen : List String) (d : SourceResults) (label : String),
      ((L.foldl (dedupStep field) (seen, d)).2.lookup label).getD [] =
        (d.lookup label).getD [] ++
          ((firsts (fun e => fieldVal field e.2.2) seen L).filter fun e => e.2.1 = label).map
            fun e => e.2.2 := by
  induction L with
  | nil => intro seen d label; simp [firsts]
  | cons e L ih =>
    intro seen d label
    rw [List.foldl_cons]
    by_cases h : fieldVal field e.2.2 ∈ seen
    · simp only [dedupStep, firsts, if_pos h]
      exact ih seen d label
    · simp only [dedupStep, firsts, if_neg h]
      rw [ih, Assoc.lookup_insert]
      by_cases hl : label = e.2.1
      · subst hl
        simp
      · have hne : e.2.1 ≠ label := fun h => hl h.symm
        simp [hl, hne]

theorem rebuild_lookup {labels : List String} (hnodup : labels.Nodup) :
    ∀ {d : SourceResults} {e : String × List CalGrainResult}, e ∈ rebuild labels d →
      e.2 = (d.lookup e.1).getD [] := by
  induction labels with
  | nil => intro d e h; simp [rebuild] at h
  | cons l labels ih =>
    obtain ⟨hl, hnodup⟩ := List.nodup_cons.1 hnodup
    intro d e h
    rcases List.mem_cons.1 h with rfl | h
    · rfl
    · have hlabel : e.1 ∈ labels := by
        rw [← rebuild_labels labels (Assoc.erase l d)]
        exact List.mem_map_of_mem h
      rw [ih hnodup h, Assoc.erase, Assoc.lookup_filter_ne]
      rintro rfl
      exact hl hlabel

/-- All the grains in the order dedup by a field goes through them. -/
def fieldOrder (priority : Option (List PrioritySpec)) (results : SourceResults) :
    List (ℕ × String × CalGrainResult) :=
  (tagged 0 results).insertionSort fun a b =>
    rankOf priority (results.map Prod.fst) a.2.1 ≤ rankOf priority (results.map Prod.fst) b.2.1

theorem map_tagged {γ : Type} (f : String × CalGrainResult → γ) (results : SourceResults) :
    ∀ n, (tagged n results).map (fun x => f x.2) =
      results.flatMap fun s => s.2.map fun g => f (s.1, g) := by
  induction results with
  | nil => intro n; rfl
  | cons s rest ih =>
    intro n
    simp [tagged, ih, Function.comp_def]

theorem rankedGrains_eq (priority : Option (List PrioritySpec)) (results : SourceResults) :
    rankedGrains priority results = (fieldOrder priority results).map fun x =>
      (rankOf priority (results.map Prod.fst) x.2.1, x.2.1, x.2.2) := by
  have hsort := List.map_insertionSort
    (fun a b : ℕ × String × CalGrainResult =>
      rankOf priority (results.map Prod.fst) a.2.1 ≤ rankOf priority (results.map Prod.fst) b.2.1)
    (fun a b : WithTop ℕ × String × CalGrainResult => a.1 ≤ b.1)
    (fun x => (rankOf priority (results.map Prod.fst) x.2.1, x.2.1, x.2.2)) (tagged 0 results)
    fun a _ b _ => Iff.rfl
  rw [map_tagged fun x : String × CalGrainResult =>
    (rankOf priority (results.map Prod.fst) x.1, x.1, x.2)] at hsort
  exact hsort.symm

theorem source_eq_of_label {results : SourceResults} (hnodup : (results.map Prod.fst).Nodup)
    {i j : ℕ} {s t : String × List CalGrainResult} (hs : results[i]? = some s)
    (ht : results[j]? = some t) (h : s.1 = t.1) : i = j := by
  have hi : (results.map Prod.fst)[i]? = some s.1 := by simp [hs]
  have hj : (results.map Prod.fst)[j]? = some s.1 := by simp [ht, h]
  have hlt := (List.getElem?_eq_some_iff.1 hi).1
  exact (List.getElem?_inj hlt hnodup).1 (hi.trans hj.symm)

theorem dedupAcrossSources_get {field : String} {priority : Option (List PrioritySpec)}
    {results : SourceResults} (hnodup : (results.map Prod.fst).Nodup) {i : ℕ}
    {d : String × List CalGrainResult}
    (h : (dedupAcrossSources results field priority)[i]? = some d) :
    d.2 = ofSource i (firsts (fun x => fieldVal field x.2.2) [] (fieldOrder priority results)) := by
  have hlabels : (dedupAcrossSources results field priority).map Prod.fst =
      results.map Prod.fst := rebuild_labels _ _
  obtain ⟨s, hs, hlabel⟩ : ∃ s, results[i]? = some s ∧ d.1 = s.1 := by
    have hget := congrArg (fun l => l[i]?) hlabels
    simp only [List.getElem?_map, h, Option.map_some] at hget
    obtain ⟨s, hs, heq⟩ := Option.map_eq_some_iff.1 hget.symm
    exact ⟨s, hs, heq.symm⟩
  have hmem : d ∈ dedupAcrossSources results field priority := List.mem_of_getElem? h
  rw [rebuild_lookup hnodup hmem, foldl_dedupStep, rankedGrains_eq, firsts_map, List.filter_map,
    List.map_map, ofSource]
  simp only [List.lookup_nil, Option.getD_none, List.nil_append, Function.comp_def]
  refine congrArg _ (List.filter_congr fun x hx => ?_)
  obtain ⟨j, t, hj, ht, htlabel⟩ := mem_tagged
    ((List.perm_insertionSort _ _).mem_iff.1 (mem_of_mem_firsts hx))
  rw [Nat.zero_add] at hj
  simp only [decide_eq_decide, htlabel, hlabel, hj]
  constructor
  · intro heq
    exact source_eq_of_label hnodup ht hs heq
  · rintro rfl
    rw [hs] at ht
    exact congrArg Prod.fst (Option.some.inj ht).symm

/-! ## Rank and priority -/

theorem lookup_foldl_zipIdx (L : List String) : ∀ (n : ℕ) (m : List (String × ℕ)) (l : String),
    L.Nodup → (((L.zipIdx n).foldl (fun m e => Assoc.insert e.1 e.2 m) m).lookup l) =
      if l ∈ L then some (n + L.idxOf l) else m.lookup l := by
  induction L with
  | nil => intro n m l _; simp
  | cons a L ih =>
    intro n m l hnodup
    obtain ⟨ha, hnodup⟩ := List.nodup_cons.1 hnodup
    rw [List.zipIdx_cons, List.foldl_cons, ih (n + 1) _ l hnodup]
    by_cases hl : l = a
    · subst hl
      simp [ha]
    · have hne : a ≠ l := fun h => hl h.symm
      rw [Assoc.lookup_insert_of_ne hl, List.idxOf_cons_ne _ hne]
      by_cases hmem : l ∈ L
      · simp only [hmem, List.mem_cons, hl, or_true, if_true, Option.some.injEq]
        omega
      · simp [hmem, hl]

/-- Without a clause the rank of a source is its position. -/
theorem rankOf_none {labels : List String} (hnodup : labels.Nodup) {i : ℕ} {l : String}
    (h : labels[i]? = some l) : rankOf none labels l = i := by
  obtain ⟨hi, rfl⟩ := List.getElem?_eq_some_iff.1 h
  have hlookup := lookup_foldl_zipIdx labels 0 [] (labels[i]) hnodup
  rw [if_pos (List.getElem_mem hi), hnodup.idxOf_getElem, Nat.zero_add] at hlookup
  simp only [rankOf, priorityMap, hlookup]

theorem specWeight_of_mem {specs : List PrioritySpec} (hnodup : (specs.map (·.label)).Nodup)
    {p : PrioritySpec} (hp : p ∈ specs) : specWeight specs p.label = p.weight := by
  have hfind : specs.find? (fun s => s.label = p.label) = some p := by
    cases hq : specs.find? (fun s => s.label = p.label) with
    | none => simpa using List.find?_eq_none.1 hq p hp
    | some q =>
      have hlabel : q.label = p.label := by simpa using List.find?_some hq
      rw [List.inj_on_of_nodup_map hnodup (List.mem_of_find?_eq_some hq) hp hlabel]
  simp [specWeight, hfind]

theorem specWeight_of_not_mem {specs : List PrioritySpec} {l : String}
    (h : l ∉ specs.map (·.label)) : specWeight specs l = 0 := by
  have hfind : specs.find? (fun s => s.label = l) = none :=
    List.find?_eq_none.2 fun p hp => by
      simp only [decide_eq_true_eq]
      rintro rfl
      exact h (List.mem_map_of_mem hp)
  simp [specWeight, hfind]

/-- A clause that names each label once ranks by weight. -/
theorem specWeight_le_of_rank {specs : List PrioritySpec}
    (hnodup : (specs.map (·.label)).Nodup) {labels : List String} {l l' : String}
    (h : rankOf (some specs) labels l ≤ rankOf (some specs) labels l') :
    specWeight specs l' ≤ specWeight specs l := by
  set sorted := specs.insertionSort fun a b : PrioritySpec => b.weight ≤ a.weight with hsorted
  have hperm : sorted.Perm specs := List.perm_insertionSort _ _
  have hnodup' : (sorted.map (·.label)).Nodup := (hperm.map _).nodup_iff.2 hnodup
  have hrank : ∀ l, rankOf (some specs) labels l =
      if l ∈ sorted.map (·.label) then (((sorted.map (·.label)).idxOf l : ℕ) : WithTop ℕ)
      else ⊤ := by
    intro l
    have hlookup := lookup_foldl_zipIdx (sorted.map (·.label)) 0 [] l hnodup'
    rw [Nat.zero_add] at hlookup
    simp only [rankOf, priorityMap]
    rw [← hsorted, hlookup]
    by_cases hl : l ∈ sorted.map (·.label)
    · simp only [hl, if_true]
    · simp only [hl, if_false, List.lookup_nil]
  by_cases hl' : l' ∈ sorted.map (·.label)
  · rw [hrank l', if_pos hl', hrank l] at h
    by_cases hl : l ∈ sorted.map (·.label)
    · rw [if_pos hl, Nat.cast_le] at h
      have hidx := List.idxOf_lt_length_of_mem hl
      have hidx' := List.idxOf_lt_length_of_mem hl'
      have hlabel := List.getElem_idxOf hidx
      have hlabel' := List.getElem_idxOf hidx'
      simp only [List.length_map] at hidx hidx'
      simp only [List.getElem_map] at hlabel hlabel'
      have hw : specWeight specs l = (sorted[(sorted.map (·.label)).idxOf l]).weight := by
        conv_lhs => rw [← hlabel]
        exact specWeight_of_mem hnodup (hperm.mem_iff.1 (List.getElem_mem hidx))
      have hw' : specWeight specs l' = (sorted[(sorted.map (·.label)).idxOf l']).weight := by
        conv_lhs => rw [← hlabel']
        exact specWeight_of_mem hnodup (hperm.mem_iff.1 (List.getElem_mem hidx'))
      rw [hw, hw']
      have hpair : sorted.Pairwise fun a b => b.weight ≤ a.weight :=
        haveI : Std.Total fun a b : PrioritySpec => b.weight ≤ a.weight :=
          ⟨fun a b => le_total _ _⟩
        haveI : IsTrans PrioritySpec fun a b => b.weight ≤ a.weight :=
          ⟨fun _ _ _ hab hbc => le_trans hbc hab⟩
        List.pairwise_insertionSort _ _
      rcases h.lt_or_eq with hlt | heq
      · exact List.pairwise_iff_getElem.1 hpair _ _ hidx hidx' hlt
      · simp only [heq, le_refl]
    · rw [if_neg hl] at h
      simp at h
  · rw [specWeight_of_not_mem]
    · exact bot_le
    · exact fun hmem => hl' (((hperm.map _).mem_iff).2 hmem)

/-! ## The cap and the loop -/

theorem lookup_foldl_tails (c : String × List CalGrainResult → ℕ) (D : SourceResults) :
    ∀ m : SourceResults, (D.map Prod.fst).Nodup → (∀ d ∈ D, m.lookup d.1 = none) → ∀ d ∈ D,
      ((D.foldl (fun omitted s =>
        if (s.2.drop (c s)).isEmpty then omitted
        else Assoc.insert s.1 (s.2.drop (c s)) omitted) m).lookup d.1).getD [] =
          d.2.drop (c d) := by
  have hkeep : ∀ (D : SourceResults) (m : SourceResults) (l : String), l ∉ D.map Prod.fst →
      (D.foldl (fun omitted s =>
        if (s.2.drop (c s)).isEmpty then omitted
        else Assoc.insert s.1 (s.2.drop (c s)) omitted) m).lookup l = m.lookup l := by
    intro D
    induction D with
    | nil => intro m l _; rfl
    | cons s D ih =>
      intro m l hl
      simp only [List.map_cons, List.mem_cons, not_or] at hl
      rw [List.foldl_cons, ih _ l hl.2]
      split
      · rfl
      · exact Assoc.lookup_insert_of_ne hl.1 _ _
  induction D with
  | nil => simp
  | cons s D ih =>
    intro m hnodup hm d hd
    obtain ⟨hs, hnodup⟩ := List.nodup_cons.1 hnodup
    rw [List.foldl_cons]
    rcases List.mem_cons.1 hd with rfl | hd
    · rw [hkeep D _ d.1 hs]
      split
      · next hempty =>
        rw [hm d List.mem_cons_self]
        exact (List.isEmpty_iff.1 hempty).symm
      · simp
    · refine ih _ hnodup (fun d hd => ?_) d hd
      have hne : d.1 ≠ s.1 := fun h => hs (h ▸ List.mem_map_of_mem hd)
      have hnone := hm d (List.mem_cons_of_mem _ hd)
      split
      · exact hnone
      · rw [Assoc.lookup_insert_of_ne hne, hnone]

/-- The cap splits each list, and files the tails where the labels are
distinct. -/
theorem capGrains_split {D : SourceResults} {n : ℕ}
    (h : n < totalCount D → (D.map Prod.fst).Nodup) :
    ∃ c : String × List CalGrainResult → ℕ,
      (capGrains D n).1 = D.map (fun d => (d.1, d.2.take (c d))) ∧
      (∀ d ∈ D, ((capGrains D n).2.lookup d.1).getD [] = d.2.drop (c d)) ∧
      ((D.map Prod.fst).Nodup ∨ (capGrains D n).2 = []) := by
  by_cases hle : totalCount D ≤ n
  · refine ⟨fun d => d.2.length, ?_, ?_, .inr ?_⟩
    · simp [capGrains, hle]
    · intro d _
      simp [capGrains, hle]
    · simp [capGrains, hle]
  · have hnodup := h (by omega)
    refine ⟨fun d => capOf (totalCount D) n d.2.length, ?_, ?_, .inl hnodup⟩
    · simp [capGrains, hle]
    · simp only [capGrains, if_neg hle]
      exact lookup_foldl_tails _ D [] hnodup (by simp)

/-- Each source of the loop: its label, the count of what it keeps, and that
nothing of its list or its tail is lost. -/
def Split (grains : List CalGrainResult) (label : String)
    (o : SourceMeta × List CalGrainResult) : Prop :=
  o.1.label = label ∧ o.2.length = o.1.grainCount ∧ o.2 ++ o.1.omitted = grains

theorem forall₂_of_mem {α β : Type} {R S : α → β → Prop} {xs : List α} {ys : List β}
    (h : List.Forall₂ R xs ys) (hS : ∀ x ∈ xs, ∀ y, R x y → S x y) : List.Forall₂ S xs ys := by
  induction h with
  | nil => exact .nil
  | cons hr _ ih =>
    exact .cons (hS _ List.mem_cons_self _ hr) (ih fun x hx => hS x (List.mem_cons_of_mem _ hx))

theorem trim_split {count : ℕ} (xs : List Shared) :
    ∀ {remaining : ℕ} {capped : SourceResults} {out : List (SourceMeta × List CalGrainResult)},
      ((xs.map fun x => x.1.1).Nodup ∨ capped = []) →
      trim textLen count remaining capped (loopInput xs) = some out →
      List.Forall₂ (fun x o => Split (x.1.2 ++ (capped.lookup x.1.1).getD []) x.1.1 o) xs out := by
  induction xs with
  | nil =>
    intro remaining capped out _ h
    obtain rfl : [] = out := by simpa [loopInput, trim] using h
    exact .nil
  | cons x xs ih =>
    obtain ⟨⟨label, grains⟩, share⟩ := x
    intro remaining capped out hlabels h
    obtain ⟨keep, used, out', -, hrest, rfl⟩ := trim_cons.1 h
    have hnext : (xs.map fun x => x.1.1).Nodup ∨ Assoc.erase label capped = [] := by
      rcases hlabels with hnodup | rfl
      · exact .inl (List.nodup_cons.1 hnodup).2
      · exact .inr rfl
    refine .cons ⟨rfl, rfl, ?_⟩ ?_
    · simp only [← List.append_assoc, List.take_append_drop]
    · refine forall₂_of_mem (ih hnext hrest) fun x hx o ho => ?_
      have hlookup : (Assoc.erase label capped).lookup x.1.1 = capped.lookup x.1.1 := by
        rcases hlabels with hnodup | rfl
        · have hmem : x.1.1 ∈ xs.map fun x => x.1.1 := List.mem_map_of_mem hx
          refine Assoc.lookup_filter_ne (fun heq => ?_) capped
          exact (List.nodup_cons.1 hnodup).1 (heq ▸ hmem)
        · rfl
      rw [hlookup] at ho
      exact ho

variable {Q E : Type}

/-- What a run makes of the deduplicated lists: each is split into what is kept
and what is omitted. -/
theorem assembled_split {stmt : AssembleStmt Q} {results : SourceResults} {a : Assembled}
    (ha : assembleResults textLen stmt.assembleWith stmt.priority stmt.budgetTokens results =
      some a)
    (hcap : maxGrainsPostDedup < totalCount (dedup stmt.assembleWith stmt.priority results) →
      (results.map Prod.fst).Nodup) :
    ∃ out : List (SourceMeta × List CalGrainResult), a.sources = out.map Prod.fst ∧
      a.grains = out.flatMap Prod.snd ∧
      List.Forall₂ (fun d o => Split d.2 d.1 o)
        (dedup stmt.assembleWith stmt.priority results) out := by
  rw [assembleResults_eq] at ha
  obtain ⟨out, htrim, ha⟩ := Option.bind_eq_some_iff.1 ha
  obtain ⟨total, -, rfl⟩ := Option.map_eq_some_iff.1 ha
  obtain ⟨c, hlists, htails, hlabels⟩ := capGrains_split
    (D := dedup stmt.assembleWith stmt.priority results) (n := maxGrainsPostDedup)
    (by rw [dedup_labels]; exact hcap)
  have hxs : sharedLists stmt results =
      (dedup stmt.assembleWith stmt.priority results).map fun d =>
        ((d.1, d.2.take (c d)),
          shareOf (results.map Prod.fst) stmt.budgetTokens stmt.priority d.1) := by
    simp only [sharedLists, hlists, List.map_map, Function.comp_def]
  have hnodup : ((sharedLists stmt results).map fun x => x.1.1).Nodup ∨
      (capGrains (dedup stmt.assembleWith stmt.priority results) maxGrainsPostDedup).2 = [] := by
    rw [hxs, List.map_map]
    exact hlabels
  refine ⟨out, rfl, rfl, ?_⟩
  have hout := trim_split _ hnodup htrim
  rw [hxs, List.forall₂_map_left_iff] at hout
  refine forall₂_of_mem hout fun d hd o ho => ?_
  simpa only [htails d hd, List.take_append_drop] using ho

/-! ## The whole run -/

/-- Where the grains of each source went: what is kept makes the payload, and
what was returned is kept, omitted or removed, where something of the same
value from a source of at least the same priority stands for what is removed. -/
structure Accounted (field : String) (priority : Option (List PrioritySpec))
    (results : SourceResults) (a : Assembled) (kept removed : ℕ → List CalGrainResult) :
    Prop where
  sources : a.sources.length = results.length
  payload : a.grains = (List.range a.sources.length).flatMap kept
  counts : ∀ (i : ℕ) m, a.sources[i]? = some m → (kept i).length = m.grainCount
  whole : ∀ (i : ℕ) s m, results[i]? = some s → a.sources[i]? = some m →
    m.label = s.1 ∧ s.2.Perm (kept i ++ m.omitted ++ removed i)
  stands : ∀ (i : ℕ) s, results[i]? = some s → ∀ g ∈ removed i, ∃ (j : ℕ), ∃ t m,
    results[j]? = some t ∧ a.sources[j]? = some m ∧ AtLeast priority (i, s.1) (j, t.1) ∧
      ∃ g' ∈ kept j ++ m.omitted, SameValue field g g'

/-- The field grains are compared by. -/
def AssembleStmt.dedupField (stmt : AssembleStmt Q) : String :=
  (extractDedupField stmt.assembleWith).getD "_hash"

/-- Every payload accounts for every grain of every source. -/
def AccountsForEveryGrain (textLen : Json → ℕ)
    (executeSource : NamedSource Q → Except E (List CalGrainResult)) (stmt : AssembleStmt Q) :
    Prop :=
  ∀ sources results a, stmt.sources = some sources → sources ≠ [] →
    runSources executeSource sources = .ok results →
    execute textLen executeSource stmt = .ok (.assembled a) →
    ∃ kept removed, Accounted stmt.dedupField stmt.priority results a kept removed

/-- The results whose grains do not get lost: the labels are distinct where
grains are filed under them, grains without a text in the dedup field carry it
with one value, a clause that ranks names a label once, and a source that
repeats an earlier one's hash has no more weight. -/
structure Accountable (stmt : AssembleStmt Q) (results : SourceResults) : Prop where
  labels : (extractDedupField stmt.assembleWith).isSome ∨
    maxGrainsPostDedup < totalCount (dedup stmt.assembleWith stmt.priority results) →
    (results.map Prod.fst).Nodup
  clause : (extractDedupField stmt.assembleWith).isSome → ∀ specs, stmt.priority = some specs →
    (specs.map (·.label)).Nodup
  blank : ∀ field, extractDedupField stmt.assembleWith = some field →
    (results.flatMap Prod.snd).Pairwise fun g g' =>
      fieldVal field g = "" → fieldVal field g' = "" → SameValue field g g'
  repeated : extractDedupField stmt.assembleWith = none → ∀ specs, stmt.priority = some specs →
    (results.flatMap fun s => s.2.map fun g => (s.1, g)).Pairwise fun x y =>
      x.2.hash = y.2.hash → specWeight specs y.1 ≤ specWeight specs x.1

theorem SameValue.symm {field : String} {g g' : CalGrainResult} (h : SameValue field g g') :
    SameValue field g' g := by
  obtain ⟨v, hv, hv'⟩ := h
  exact ⟨v, hv', hv⟩

/-- Grains compared by a text carry it. -/
theorem sameValue_of_text {field : String} {g g' : CalGrainResult}
    (h : fieldVal field g = fieldVal field g') (hne : fieldVal field g ≠ "") :
    SameValue field g' g := by
  have hcarry : ∀ g, fieldVal field g ≠ "" →
      dedupValue field g = some (.str (fieldVal field g)) := by
    intro g hne
    by_cases hf : field = "_hash"
    · simp [dedupValue, fieldVal, hf]
    · simp only [fieldVal, dedupValue, if_neg hf] at hne ⊢
      cases hget : g.fields.get field with
      | none => simp [hget] at hne
      | some v => cases v <;> simp [hget, Json.asStr] at hne ⊢
  exact ⟨_, hcarry g' (h ▸ hne), by rw [← h]; exact hcarry g hne⟩

theorem dedupAccount_field {stmt : AssembleStmt Q} {results : SourceResults} {field : String}
    (hfield : extractDedupField stmt.assembleWith = some field) (h : Accountable stmt results) :
    ∃ removed, DedupAccount field stmt.priority results
      (dedup stmt.assembleWith stmt.priority results) removed := by
  have hsome : (extractDedupField stmt.assembleWith).isSome := by rw [hfield]; rfl
  have hnodup := h.labels (.inl hsome)
  have hperm : (fieldOrder stmt.priority results).Perm (tagged 0 results) :=
    List.perm_insertionSort _ _
  have hsorted : (fieldOrder stmt.priority results).Pairwise fun a b =>
      rankOf stmt.priority (results.map Prod.fst) a.2.1 ≤
        rankOf stmt.priority (results.map Prod.fst) b.2.1 :=
    haveI : Std.Total fun a b : ℕ × String × CalGrainResult =>
        rankOf stmt.priority (results.map Prod.fst) a.2.1 ≤
          rankOf stmt.priority (results.map Prod.fst) b.2.1 := ⟨fun a b => le_total _ _⟩
    haveI : IsTrans (ℕ × String × CalGrainResult) fun a b =>
        rankOf stmt.priority (results.map Prod.fst) a.2.1 ≤
          rankOf stmt.priority (results.map Prod.fst) b.2.1 := ⟨fun _ _ _ => le_trans⟩
    List.pairwise_insertionSort _ _
  have hblank : (fieldOrder stmt.priority results).Pairwise fun x y =>
      fieldVal field x.2.2 = "" → fieldVal field y.2.2 = "" → SameValue field x.2.2 y.2.2 := by
    refine (hperm.pairwise_iff ?_).2 ?_
    · intro x y hxy hy hx
      exact (hxy hx hy).symm
    · have hgrains := map_tagged (fun x : String × CalGrainResult => x.2) results 0
      simp only [List.map_id'] at hgrains
      have hpair := h.blank field hfield
      rw [show results.flatMap Prod.snd = results.flatMap fun s => s.2 from rfl, ← hgrains,
        List.pairwise_map] at hpair
      exact hpair
  have hprio : ∀ x ∈ fieldOrder stmt.priority results, ∀ y ∈ fieldOrder stmt.priority results,
      rankOf stmt.priority (results.map Prod.fst) x.2.1 ≤
        rankOf stmt.priority (results.map Prod.fst) y.2.1 →
      AtLeast stmt.priority (y.1, y.2.1) (x.1, x.2.1) := by
    intro x hx y hy hrank
    cases hp : stmt.priority with
    | some specs =>
      rw [hp] at hrank
      exact specWeight_le_of_rank (h.clause hsome specs hp) hrank
    | none =>
      obtain ⟨i, s, hi, hs, hlabel⟩ := mem_tagged (hperm.mem_iff.1 hx)
      obtain ⟨j, t, hj, ht, htlabel⟩ := mem_tagged (hperm.mem_iff.1 hy)
      rw [hp, hlabel, htlabel,
        rankOf_none hnodup (by rw [List.getElem?_map, hs]; rfl : _ = some s.1),
        rankOf_none hnodup (by rw [List.getElem?_map, ht]; rfl : _ = some t.1),
        Nat.cast_le] at hrank
      simp only [AtLeast]
      omega
  refine ⟨_, dedupAccount_of_order (fun x => fieldVal field x.2.2) hperm
    (dedup_labels _ _ _) ?_ ?_⟩
  · intro i d hd
    simp only [dedup, hfield] at hd
    exact dedupAcrossSources_get hnodup hd
  · refine (hsorted.and hblank).imp_of_mem fun {x y} hx hy hxy hkey => ?_
    refine ⟨?_, hprio x hx y hy hxy.1⟩
    by_cases hempty : fieldVal field x.2.2 = ""
    · exact (hxy.2 hempty (hkey ▸ hempty)).symm
    · exact sameValue_of_text hkey hempty

theorem dedupAccount_hash {stmt : AssembleStmt Q} {results : SourceResults}
    (hfield : extractDedupField stmt.assembleWith = none) (h : Accountable stmt results) :
    ∃ removed, DedupAccount "_hash" stmt.priority results
      (dedup stmt.assembleWith stmt.priority results) removed := by
  refine ⟨_, dedupAccount_of_order (fun x => x.2.2.hash) (List.Perm.refl _)
    (dedup_labels _ _ _) ?_ ?_⟩
  · intro i d hd
    simp only [dedup, hfield] at hd
    have hget := @dedupByHashFrom_get results 0 i [] d hd
    rwa [Nat.zero_add] at hget
  · have hprio : (tagged 0 results).Pairwise fun x y => x.2.2.hash = y.2.2.hash →
        AtLeast stmt.priority (y.1, y.2.1) (x.1, x.2.1) := by
      cases hp : stmt.priority with
      | none =>
        refine (tagged_pairwise results 0).imp fun {x y} hle _ => ?_
        exact hle
      | some specs =>
        have hpair := h.repeated hfield specs hp
        have hgrains := map_tagged (fun x : String × CalGrainResult => x) results 0
        rw [← hgrains, List.pairwise_map] at hpair
        exact hpair
    exact hprio.imp fun {x y} hxy hkey =>
      ⟨⟨.str x.2.2.hash, by simp [dedupValue, hkey], by simp [dedupValue]⟩, hxy hkey⟩

theorem flatMap_range_getElem? {α β : Type} (f : α → List β) (l : List α) :
    l.flatMap f = (List.range l.length).flatMap fun i => ((l[i]?).map f).getD [] := by
  induction l with
  | nil => rfl
  | cons a l ih =>
    rw [List.length_cons, List.range_succ_eq_map, List.flatMap_cons, List.flatMap_cons,
      List.flatMap_map, ih]
    rfl

/-- Two sources that repeat a subject. -/
def namedFacts : AssembleStmt (List CalGrainResult) where
  sources := some [⟨"facts", [grainAbout "aa" "ann"]⟩, ⟨"more", [grainAbout "bb" "ann"]⟩]
  budget := none
  priority := none
  assembleWith := [⟨some "subject"⟩]

/-- A grain with nothing but a content. -/
def noteOf (hash content : String) : CalGrainResult :=
  ⟨hash, .obj [("content", .str content)]⟩

/-- Two notes of one source, deduplicated by a field neither has. -/
def blankNotes : AssembleStmt (List CalGrainResult) where
  sources := some [⟨"notes", [noteOf "aa" "x", noteOf "bb" "y"]⟩]
  budget := none
  priority := none
  assembleWith := [⟨some "subject"⟩]

/-- The run of `blankNotes`, whose grains have texts of 15 bytes: what each
source keeps and omits. -/
def blankNotesRun : Option (List (ℕ × ℕ)) :=
  match execute (fun _ => 15) (fun s => (.ok s.query : Except Empty _)) blankNotes with
  | .ok (.assembled a) => some (a.sources.map fun m => (m.grainCount, m.omitted.length))
  | _ => none

end Deja.Assemble
