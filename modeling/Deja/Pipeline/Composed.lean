import Deja.Lib.Replay
import Deja.Pipeline.Stages

/-!
# Pipelines compose

Each stage does what it is for on a list that suits it: the sort is stable and
its order a total preorder, the projections lose nothing they were asked for,
the groups are contiguous and in order.  A run of such stages is their
composition (`pipeline_composes`).
-/

namespace Deja.Pipeline

open Assemble

variable {F A : Type}

/-! ## ORDER BY -/

section Order

variable (D : Display)

theorem notAfter_iff {field : String} {a b : Assemble.TypedGrain} :
    notAfter D field false a b ↔
      fieldKey D (a.fields.get field) ≤ fieldKey D (b.fields.get field) :=
  (compareJsonValues_eq D _ _).ne_gt

theorem notAfter_desc_iff {field : String} {a b : Assemble.TypedGrain} :
    notAfter D field true a b ↔
      fieldKey D (b.fields.get field) ≤ fieldKey D (a.fields.get field) := by
  refine Iff.trans ?_ (compareJsonValues_eq D _ _).ne_lt
  simp only [notAfter, if_true, ne_eq, Ordering.swap_eq_gt]

/-- **The comparison of `ORDER BY` is a total preorder.** -/
theorem notAfter_preorder (field : String) (descending : Bool) :
    TotalPreorder (notAfter D field descending) := by
  cases descending with
  | false =>
    constructor
    · intro a b
      rw [notAfter_iff, notAfter_iff]
      exact le_total _ _
    · intro a b c
      rw [notAfter_iff, notAfter_iff, notAfter_iff]
      exact le_trans
  | true =>
    constructor
    · intro a b
      rw [notAfter_desc_iff, notAfter_desc_iff]
      exact le_total _ _
    · intro a b c
      rw [notAfter_desc_iff, notAfter_desc_iff, notAfter_desc_iff]
      exact fun hab hbc => hbc.trans hab

theorem stableSort_insertionSort {α : Type} {r : α → α → Prop} [DecidableRel r]
    (h : TotalPreorder r) (l : List α) : StableSort r l (l.insertionSort r) := by
  have : Std.Total r := ⟨h.total⟩
  have : IsTrans α r := ⟨h.trans⟩
  exact ⟨h, List.perm_insertionSort r l, List.pairwise_insertionSort r l,
    fun c hc hsub => List.sublist_insertionSort hc hsub⟩

end Order

/-! ## SELECT and PROJECT -/

/-- The bindings that projecting makes. -/
def projected (fields : Json) (selected : List (String × String)) : List (String × Json) :=
  selected.foldl (fun out x =>
    match fields.get x.1 with
    | some v => Assoc.insert x.2 v out
    | none => out) []

theorem lookup_projected_concat (fields : Json) (selected : List (String × String))
    (x : String × String) (k : String) :
    (projected fields (selected ++ [x])).lookup k =
      match fields.get x.1 with
      | some v => if k = x.2 then some v else (projected fields selected).lookup k
      | none => (projected fields selected).lookup k := by
  simp only [projected, List.foldl_append, List.foldl_cons, List.foldl_nil]
  cases fields.get x.1 with
  | none => rfl
  | some v => exact Assoc.lookup_insert x.2 k v _

theorem lookup_projected {fields : Json} {k : String} {v : Json}
    (selected : List (String × String)) (h : (projected fields selected).lookup k = some v) :
    ∃ x ∈ selected, x.2 = k ∧ fields.get x.1 = some v := by
  induction selected using List.reverseRecOn with
  | nil => simp [projected] at h
  | append_singleton selected x ih =>
    have hrest : (projected fields selected).lookup k = some v →
        ∃ y ∈ selected ++ [x], y.2 = k ∧ fields.get y.1 = some v := by
      intro h
      obtain ⟨y, hy, hyk⟩ := ih h
      exact ⟨y, List.mem_append_left _ hy, hyk⟩
    rw [lookup_projected_concat] at h
    cases hx : fields.get x.1 with
    | none =>
      rw [hx] at h
      exact hrest h
    | some w =>
      rw [hx] at h
      dsimp only at h
      split at h
      · next hk =>
        refine ⟨x, by simp, hk.symm, ?_⟩
        rw [hx, ← h]
      · exact hrest h

/-- Nothing selected is lost where no two values get one key. -/
theorem projected_lookup {fields : Json} (selected : List (String × String))
    (h : ∀ x ∈ selected, ∀ y ∈ selected, x.2 = y.2 → ∀ v w, fields.get x.1 = some v →
      fields.get y.1 = some w → v = w) :
    ∀ x ∈ selected, ∀ v, fields.get x.1 = some v →
      (projected fields selected).lookup x.2 = some v := by
  induction selected using List.reverseRecOn with
  | nil => simp
  | append_singleton selected y ih =>
    intro x hx v hv
    rw [lookup_projected_concat]
    have hrest : x ∈ selected → (projected fields selected).lookup x.2 = some v := fun hmem =>
      ih (fun a ha b hb => h a (List.mem_append_left _ ha) b (List.mem_append_left _ hb))
        x hmem v hv
    cases hy : fields.get y.1 with
    | none =>
      rcases List.mem_append.1 hx with hmem | hmem
      · exact hrest hmem
      · obtain rfl := List.mem_singleton.1 hmem
        rw [hv] at hy
        cases hy
    | some w =>
      dsimp only
      by_cases hk : x.2 = y.2
      · rw [if_pos hk, h x hx y (by simp) hk v w hv hy]
      · rw [if_neg hk]
        rcases List.mem_append.1 hx with hmem | hmem
        · exact hrest hmem
        · obtain rfl := List.mem_singleton.1 hmem
          exact absurd rfl hk

theorem restricted_project {g : Assemble.TypedGrain} {selected : List (String × String)}
    (h : ∀ x ∈ selected, ∀ y ∈ selected, x.2 = y.2 → ∀ v w, g.fields.get x.1 = some v →
      g.fields.get y.1 = some w → v = w) :
    Restricted selected g { g with fields := projectFields g.fields selected } :=
  ⟨rfl, rfl, projected_lookup selected h, fun _ _ hk => lookup_projected selected hk⟩

theorem forall₂_map_self {α β : Type} {P : α → β → Prop} {f : α → β} {l : List α}
    (h : ∀ a ∈ l, P a (f a)) : List.Forall₂ P l (l.map f) := by
  induction l with
  | nil => exact .nil
  | cons a l ih =>
    obtain ⟨ha, hrest⟩ := List.forall_mem_cons.1 h
    exact .cons ha (ih hrest)

/-! ## The extractors -/

theorem get_extracted (v : Json) : (extracted v).fields.get "value" = some v := rfl

theorem extracted_values (f : String) (gs : List Assemble.TypedGrain) :
    (gs.filterMap fun g => (g.fields.get f).map extracted).map (fun g => g.fields.get "value") =
      (gs.map fun g => g.fields.get f).filter Option.isSome := by
  induction gs with
  | nil => rfl
  | cons g gs ih =>
    cases hg : g.fields.get f with
    | none => simp [hg, ih]
    | some v => simp [hg, ih, get_extracted]

/-! ## GROUP BY -/

section Group

variable (D : Display) (field : String) (gs : List Assemble.TypedGrain)

/-- The keys of the groups. -/
def groupKeys : List String := (gs.map (groupKey D field)).dedup.insertionSort (· ≤ ·)

theorem groupKeys_nodup : (groupKeys D field gs).Nodup :=
  (List.perm_insertionSort _ _).nodup_iff.2 (List.nodup_dedup _)

theorem mem_groupKeys {k : String} :
    k ∈ groupKeys D field gs ↔ ∃ g ∈ gs, groupKey D field g = k := by
  simp [groupKeys, List.mem_insertionSort]

/-- The groups in the order they are shown. -/
def shownGroups : List (String × List Assemble.TypedGrain) :=
  let groups := (groupsByKey D field gs).insertionSort fun a b => earliest a.2 ≤ earliest b.2
  (groups.filter fun g => g.1 ≠ "") ++ groups.filter fun g => g.1 = ""

theorem groupGrainsByField_eq :
    groupGrainsByField D gs field = (shownGroups D field gs).flatMap Prod.snd := rfl

theorem shownGroups_perm : (shownGroups D field gs).Perm (groupsByKey D field gs) := by
  refine List.Perm.trans ?_ (List.perm_insertionSort (fun a b : String × List Assemble.TypedGrain =>
    earliest a.2 ≤ earliest b.2) (groupsByKey D field gs))
  have h := List.filter_append_perm (fun g : String × List Assemble.TypedGrain => decide (g.1 ≠ ""))
    ((groupsByKey D field gs).insertionSort fun a b => earliest a.2 ≤ earliest b.2)
  simpa [shownGroups] using h

theorem mem_groupMembers {k : String} {g : Assemble.TypedGrain} :
    g ∈ groupMembers D field gs k ↔ g ∈ gs ∧ groupKey D field g = k := by
  simp [groupMembers, List.mem_insertionSort]

theorem mem_shownGroups {p : String × List Assemble.TypedGrain} (hp : p ∈ shownGroups D field gs) :
    p.1 ∈ groupKeys D field gs ∧ p.2 = groupMembers D field gs p.1 := by
  obtain ⟨k, hk, rfl⟩ := List.mem_map.1 ((shownGroups_perm D field gs).mem_iff.1 hp)
  exact ⟨hk, rfl⟩

theorem map_fst_shownGroups_nodup : ((shownGroups D field gs).map Prod.fst).Nodup := by
  refine ((shownGroups_perm D field gs).map Prod.fst).nodup_iff.2 ?_
  have hfst : (groupsByKey D field gs).map Prod.fst = groupKeys D field gs := by
    simp [groupsByKey, groupKeys, Function.comp_def]
  rw [hfst]
  exact groupKeys_nodup D field gs

/-- The groups hold the grains. -/
theorem groupGrainsByField_perm : (groupGrainsByField D gs field).Perm gs := by
  rw [groupGrainsByField_eq]
  refine ((shownGroups_perm D field gs).flatMap_right Prod.snd).trans ?_
  have hmembers : ((groupsByKey D field gs).flatMap Prod.snd).Perm
      ((groupKeys D field gs).flatMap fun k => gs.filter fun g => groupKey D field g = k) := by
    rw [groupsByKey, List.flatMap_map]
    exact List.Perm.flatMap_left _ fun k _ => List.perm_insertionSort _ _
  refine hmembers.trans
    (Replay.perm_by_key (groupKey D field) (groupKeys_nodup D field gs) fun g hg => ?_)
  exact (mem_groupKeys D field gs).2 ⟨g, hg, rfl⟩

theorem groupMembers_ne_nil {p : String × List Assemble.TypedGrain}
    (hp : p ∈ shownGroups D field gs) :
    p.2 ≠ [] := by
  obtain ⟨hk, hp2⟩ := mem_shownGroups D field gs hp
  obtain ⟨g, hg, hgk⟩ := (mem_groupKeys D field gs).1 hk
  rw [hp2]
  exact List.ne_nil_of_mem ((mem_groupMembers D field gs).2 ⟨hg, hgk⟩)

theorem groupMembers_sorted (k : String) :
    (groupMembers D field gs k).Pairwise fun a b => createdAtSec a ≤ createdAtSec b := by
  have : Std.Total fun a b : Assemble.TypedGrain => createdAtSec a ≤ createdAtSec b :=
    ⟨fun a b => le_total _ _⟩
  have : IsTrans Assemble.TypedGrain fun a b => createdAtSec a ≤ createdAtSec b :=
    ⟨fun a b c hab hbc => hab.trans hbc⟩
  exact List.pairwise_insertionSort _ _

/-- The first member of a group is its earliest. -/
theorem earliest_le {p : String × List Assemble.TypedGrain} (hp : p ∈ shownGroups D field gs) :
    ∀ h ∈ p.2, earliest p.2 ≤ createdAtSec h := by
  intro h hh
  have hsorted := groupMembers_sorted D field gs p.1
  rw [← (mem_shownGroups D field gs hp).2] at hsorted
  cases hp2 : p.2 with
  | nil => rw [hp2] at hh; cases hh
  | cons g rest =>
    rw [hp2] at hh hsorted
    have hfirst : earliest (g :: rest) = createdAtSec g := rfl
    rw [hfirst]
    rcases List.mem_cons.1 hh with rfl | hh
    · exact le_rfl
    · exact (List.pairwise_cons.1 hsorted).1 h hh

/-- Groups with keys stand in the order of their earliest members, before the
one without. -/
theorem shownGroups_pairwise : (shownGroups D field gs).Pairwise fun p q =>
    p.1 ≠ "" ∧ (q.1 ≠ "" → earliest p.2 ≤ earliest q.2) := by
  have : Std.Total fun a b : String × List Assemble.TypedGrain => earliest a.2 ≤ earliest b.2 :=
    ⟨fun a b => le_total _ _⟩
  have : IsTrans (String × List Assemble.TypedGrain) fun a b => earliest a.2 ≤ earliest b.2 :=
    ⟨fun a b c hab hbc => hab.trans hbc⟩
  have hsorted := List.pairwise_insertionSort
    (fun a b : String × List Assemble.TypedGrain => earliest a.2 ≤ earliest b.2)
    (groupsByKey D field gs)
  have hnodup := map_fst_shownGroups_nodup D field gs
  rw [shownGroups, List.map_append] at hnodup
  refine List.pairwise_append.2 ⟨?_, ?_, ?_⟩
  · refine (hsorted.sublist List.filter_sublist).imp_of_mem ?_
    intro p q hp _ hle
    exact ⟨by simpa using (List.mem_filter.1 hp).2, fun _ => hle⟩
  · have hlast := List.pairwise_map.1 (List.nodup_append.1 hnodup).2.1
    refine hlast.imp_of_mem ?_
    intro p q hp hq hne
    have hp1 : p.1 = "" := by simpa using (List.mem_filter.1 hp).2
    have hq1 : q.1 = "" := by simpa using (List.mem_filter.1 hq).2
    exact absurd (hp1.trans hq1.symm) hne
  · intro p hp q hq
    have hq1 : q.1 = "" := by simpa using (List.mem_filter.1 hq).2
    exact ⟨by simpa using (List.mem_filter.1 hp).2, fun hne => absurd hq1 hne⟩

variable {D field gs}

/-- The value of the field that the members of a group have. -/
def groupValue (field : String) (members : List Assemble.TypedGrain) : Option Json :=
  members.head?.bind fun g => g.fields.get field

theorem groupValue_eq (h : Groupable D field gs) {p : String × List Assemble.TypedGrain}
    (hp : p ∈ shownGroups D field gs) :
    ∀ g ∈ p.2, g.fields.get field = groupValue field p.2 := by
  intro g hg
  have hmem : ∀ {g}, g ∈ p.2 → g ∈ gs ∧ groupKey D field g = p.1 := by
    intro g hg
    rw [(mem_shownGroups D field gs hp).2] at hg
    exact (mem_groupMembers D field gs).1 hg
  cases hp2 : p.2 with
  | nil => rw [hp2] at hg; cases hg
  | cons first rest =>
    have hfirst : first ∈ p.2 := by
      rw [hp2]
      exact List.mem_cons_self
    obtain ⟨hg1, hgk⟩ := hmem hg
    obtain ⟨hf1, hfk⟩ := hmem hfirst
    exact h.alike g hg1 first hf1 (hgk.trans hfk.symm)

/-- The key of a group tells its value. -/
theorem key_of_groupValue (h : Groupable D field gs) {p : String × List Assemble.TypedGrain}
    (hp : p ∈ shownGroups D field gs) : ∃ g ∈ p.2, g ∈ gs ∧ groupKey D field g = p.1 ∧
      g.fields.get field = groupValue field p.2 := by
  obtain ⟨g, hg⟩ := List.exists_mem_of_ne_nil _ (groupMembers_ne_nil D field gs hp)
  have hmem := hg
  rw [(mem_shownGroups D field gs hp).2] at hmem
  obtain ⟨hgs, hkey⟩ := (mem_groupMembers D field gs).1 hmem
  exact ⟨g, hg, hgs, hkey, groupValue_eq h hp g hg⟩

theorem groupKey_congr {g h : Assemble.TypedGrain} (heq : g.fields.get field = h.fields.get field) :
    groupKey D field g = groupKey D field h := by
  simp only [groupKey, heq]

/-- **`GROUP BY` groups what it can group.** -/
theorem grouped_of_groupable (h : Groupable D field gs) :
    Grouped field gs (groupGrainsByField D gs field) := by
  have hvalue : ∀ p ∈ shownGroups D field gs, (p.1 = "" ↔ groupValue field p.2 = none) := by
    intro p hp
    obtain ⟨g, -, hgs, hkey, hval⟩ := key_of_groupValue h hp
    rw [← hkey, ← hval]
    exact ⟨h.lacking g hgs, fun hnone => by simp [groupKey, hnone]⟩
  refine ⟨groupGrainsByField_perm D field gs,
    (shownGroups D field gs).map fun p => (groupValue field p.2, p.2), ?_, ?_, ?_, ?_⟩
  · rw [groupGrainsByField_eq, List.flatMap_map]
  · rw [List.map_map]
    have hnodup := List.pairwise_map.1 (map_fst_shownGroups_nodup D field gs)
    refine List.pairwise_map.2 (hnodup.imp_of_mem ?_)
    intro p q hp hq hne heq
    obtain ⟨g, -, -, hgk, hgv⟩ := key_of_groupValue h hp
    obtain ⟨g', -, -, hgk', hgv'⟩ := key_of_groupValue h hq
    refine hne ?_
    rw [← hgk, ← hgk']
    exact groupKey_congr (hgv.trans (heq.trans hgv'.symm))
  · intro x hx
    obtain ⟨p, hp, rfl⟩ := List.mem_map.1 hx
    refine ⟨groupMembers_ne_nil D field gs hp, groupValue_eq h hp, ?_⟩
    have hsorted := groupMembers_sorted D field gs p.1
    rw [← (mem_shownGroups D field gs hp).2] at hsorted
    refine hsorted.imp_of_mem ?_
    intro a b ha hb hle
    rw [(mem_shownGroups D field gs hp).2] at ha hb
    exact h.times a ((mem_groupMembers D field gs).1 ha).1 b
      ((mem_groupMembers D field gs).1 hb).1 hle
  · refine List.pairwise_map.2 ((shownGroups_pairwise D field gs).imp_of_mem ?_)
    rintro p q hp hq ⟨hkey, hle⟩
    refine ⟨fun hnone => hkey ((hvalue p hp).2 hnone), fun hsome => ?_⟩
    have hq1 : q.1 ≠ "" := fun hq1 => hsome ((hvalue q hq).1 hq1)
    cases hp2 : p.2 with
    | nil => exact absurd hp2 (groupMembers_ne_nil D field gs hp)
    | cons first rest =>
      have hfirst : first ∈ p.2 := by
        rw [hp2]
        exact List.mem_cons_self
      have hearliest : earliest p.2 = createdAtSec first := by
        rw [hp2]
        rfl
      refine ⟨first, List.mem_cons_self, fun g hg => ?_⟩
      have hgs : ∀ {p : String × List Assemble.TypedGrain}, p ∈ shownGroups D field gs →
          ∀ {g}, g ∈ p.2 → g ∈ gs := by
        intro p hp g hg
        rw [(mem_shownGroups D field gs hp).2] at hg
        exact ((mem_groupMembers D field gs).1 hg).1
      refine h.times first (hgs hp hfirst) g (hgs hq hg) ?_
      rw [← hearliest]
      exact (hle hq1).trans (earliest_le D field gs hq g hg)

end Group

/-! ## A stage, and a run -/

section Run

variable (D : Display) (fl : Floats F) (maxLimit : ℕ)

/-- A plain list with its length. -/
theorem bears_counted (gs : List Assemble.TypedGrain) :
    (CalResultPayload.grains gs (some gs.length) : CalResultPayload A).bears =
      some (gs, some gs.length) := rfl

/-- **A sound stage does what it is for.** -/
theorem meets_applyStage {p : CalResultPayload A} {stage : PipelineStage F}
    (h : Sound D p stage) : Meets D fl maxLimit p stage (applyStage D fl maxLimit p stage) := by
  cases p with
  | count n => exact rfl
  | other kind => exact rfl
  | assembled gs total rest => exact absurd h (by simp [Sound])
  | grains gs total =>
    cases stage with
    | select fields =>
      refine ⟨_, bears_counted _, forall₂_map_self fun g _ => restricted_project ?_⟩
      intro x hx y hy hkey v w hv hw
      obtain ⟨f, -, rfl⟩ := List.mem_map.1 hx
      obtain ⟨f', -, rfl⟩ := List.mem_map.1 hy
      obtain rfl : f = f' := hkey
      exact Option.some.inj (hv.symm.trans hw)
    | project fields =>
      refine ⟨_, bears_counted _, forall₂_map_self fun g hg => restricted_project ?_⟩
      intro x hx y hy hkey v w hv hw
      obtain ⟨pf, hpf, rfl⟩ := List.mem_map.1 hx
      obtain ⟨pf', hpf', rfl⟩ := List.mem_map.1 hy
      exact h g hg pf hpf pf' hpf' hkey v w hv hw
    | orderBy field descending =>
      exact ⟨_, bears_counted _, stableSort_insertionSort (notAfter_preorder D field descending) gs⟩
    | limit value => exact ⟨_, bears_counted _, rfl⟩
    | offset value => exact ⟨_, bears_counted _, rfl⟩
    | count => exact rfl
    | first =>
      have hlen : (gs.take 1).length = 1 := by
        have hpos : 0 < gs.length := List.length_pos_iff.2 h
        rw [List.length_take]
        omega
      exact ⟨gs.take 1, by rw [hlen]; rfl, rfl⟩
    | subjects => exact ⟨_, bears_counted _, extracted_values "subject" gs⟩
    | objects => exact ⟨_, bears_counted _, extracted_values "object" gs⟩
    | hashes =>
      refine ⟨_, bears_counted _, ?_⟩
      simp only [StageMeets, List.map_map]
      exact List.map_congr_left fun g _ => get_extracted _
    | groupBy field =>
      obtain ⟨htotal, hgroup⟩ := h
      refine ⟨groupGrainsByField D gs field, ?_, grouped_of_groupable hgroup⟩
      rw [(groupGrainsByField_perm D field gs).length_eq, ← htotal]
      rfl
    | filter condition => exact ⟨_, bears_counted _, rfl⟩

theorem fst_foldl {α β γ : Type} (f : α → γ → α) (g : α × β → γ → β) (l : List γ) :
    ∀ st : α × β, (l.foldl (fun st x => (f st.1 x, g st x)) st).1 = l.foldl f st.1 := by
  induction l with
  | nil => exact fun _ => rfl
  | cons x l ih => exact fun st => ih (f st.1 x, g st x)

/-- **A pipeline is the composition of its stages**, where each is sound on
what the stages before it made. -/
theorem pipeline_composes (p : CalResultPayload A) (stages : List (PipelineStage F))
    (h : SoundRun D fl maxLimit p stages) :
    Composes D fl maxLimit p stages (applyPipeline D fl maxLimit p stages).1 := by
  have hfold : (applyPipeline D fl maxLimit p stages).1 =
      stages.foldl (applyStage D fl maxLimit) p :=
    fst_foldl (applyStage D fl maxLimit) _ stages (p, none)
  rw [hfold]
  clear hfold
  induction stages generalizing p with
  | nil => exact rfl
  | cons stage stages ih =>
    obtain ⟨hstage, hrest⟩ := h
    exact ⟨_, meets_applyStage D fl maxLimit hstage, ih _ hrest⟩

end Run

/-! ### On fixed payloads -/

/-- The texts of values that are compared as what they are. -/
def plainDisplay : Display where
  text
    | .null => "null"
    | .bool true => "true"
    | .bool false => "false"
    | .int _ => "0"
    | .float _ => "0.0"
    | .str s => String.ofList ('"' :: s.toList ++ ['"'])
    | .arr _ => "[]"
    | .obj _ => String.ofList [Char.ofNat 0x7b, Char.ofNat 0x7d]
  null := rfl
  true := rfl
  false := rfl
  str s := by simp
  arr _ := by simp
  obj _ := by simp
  int _ := ⟨'0', by simp, by decide, by decide⟩
  float _ := ⟨'0', by simp, by decide, by decide⟩

/-- Grains that are all among groupable ones are groupable. -/
theorem Groupable.of_subset {D : Display} {field : String} {gs gs' : List Assemble.TypedGrain}
    (h : Groupable D field gs) (hsub : ∀ g ∈ gs', g ∈ gs) : Groupable D field gs' where
  alike g hg g' hg' := h.alike g (hsub g hg) g' (hsub g' hg')
  lacking g hg := h.lacking g (hsub g hg)
  times g hg g' hg' := h.times g (hsub g hg) g' (hsub g' hg')

/-- A fact about a subject. -/
def about (hash subject : String) (sec : ℤ) : Assemble.TypedGrain :=
  ⟨⟨hash, .obj [("created_at", .int (1000 * sec)), ("created_at_sec", .int sec),
    ("subject", .str subject)]⟩, "fact"⟩

/-- Two facts about one subject, one about another and one about none. -/
def annAndBob : List Assemble.TypedGrain :=
  [about "aa" "ann" 3, about "bb" "bob" 2, about "cc" "ann" 1,
    ⟨⟨"dd", .obj [("created_at", .int 0)]⟩, "event"⟩]

/-- The key says the subject. -/
theorem annAndBob_subject : ∀ g ∈ annAndBob, g.fields.get "subject" =
    if groupKey plainDisplay "subject" g = "" then none
    else some (.str (groupKey plainDisplay "subject" g)) := by
  simp only [annAndBob, List.forall_mem_cons]
  exact ⟨rfl, rfl, rfl, rfl, fun _ h => nomatch h⟩

theorem annAndBob_groupable : Groupable plainDisplay "subject" annAndBob where
  alike g hg h hh hkey := by
    rw [annAndBob_subject g hg, annAndBob_subject h hh, hkey]
  lacking g hg hkey := by
    rw [annAndBob_subject g hg, if_pos hkey]
  times := by
    unfold NotLater
    decide +kernel

theorem pipeline_composes_ann :
    Composes plainDisplay noFloats 1000 (.grains annAndBob (some 4) : CalResultPayload Unit)
      [.orderBy "subject" true, .groupBy "subject", .limit 3, .first]
      (applyPipeline plainDisplay noFloats 1000 (.grains annAndBob (some 4))
        [.orderBy "subject" true, .groupBy "subject", .limit 3, .first]).1 := by
  have hsorted := List.perm_insertionSort (notAfter plainDisplay "subject" true) annAndBob
  refine pipeline_composes plainDisplay noFloats 1000 _ _ ⟨trivial, ⟨?_, ?_⟩, trivial, ?_, trivial⟩
  · rfl
  · exact annAndBob_groupable.of_subset fun g hg => hsorted.mem_iff.1 hg
  · intro hnil
    have hlen := (groupGrainsByField_perm plainDisplay "subject"
      (annAndBob.insertionSort (notAfter plainDisplay "subject" true))).length_eq
    have hmin := congrArg List.length hnil
    rw [List.length_take, hlen, hsorted.length_eq] at hmin
    cases hmin

/-- An assembled context of two grains stays one of two under `LIMIT 1`. -/
theorem assembled_not_limited :
    ¬ ∀ (p : CalResultPayload Unit) (stages : List (PipelineStage Unit)),
      p.bears.isSome → Composes plainDisplay noFloats 1000 p stages
        (applyPipeline plainDisplay noFloats 1000 p stages).1 := by
  intro h
  obtain ⟨next, ⟨gs, hbears, hlimit⟩, hnext⟩ :=
    h (.assembled [about "aa" "ann" 3, about "bb" "bob" 2] (some 2) ()) [.limit 1] rfl
  have hnext' : CalResultPayload.assembled [about "aa" "ann" 3, about "bb" "bob" 2] (some 2) () =
      next := hnext
  subst hnext'
  obtain ⟨rfl, -⟩ := Prod.mk.inj (Option.some.inj hbears)
  have hlen := congrArg List.length hlimit
  simp at hlen

end Deja.Pipeline
