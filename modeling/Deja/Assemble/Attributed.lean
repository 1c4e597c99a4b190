import Deja.Assemble.Options

/-!
# Grains under their sources

The engine lays the lists of the sources end to end and says how long each is.
After the options the same lengths cut the list that is left: every source is
shown its own grains exactly when nothing was removed and the sort by score
kept the sources apart.

* `execute_blocks` — what the engine returns.
* `attributesGrains_iff` — what the options make of it.
-/

namespace Deja.Assemble

variable {textLen : Json → ℕ} {Q E : Type}

/-! ## What the engine returns -/

/-- The metadata of one source counts the grains beside it and their tokens. -/
structure Counted (textLen : Json → ℕ) (o : SourceMeta × List CalGrainResult) : Prop where
  count : o.1.grainCount = o.2.length
  used : o.1.tokensUsed = cost textLen o.2

/-- The loop counts what it keeps, and keeps only what it is given. -/
theorem trim_counted {count : ℕ} (xs : List Shared) :
    ∀ {remaining : ℕ} {capped : SourceResults} {out : List (SourceMeta × List CalGrainResult)},
      trim textLen count remaining capped (loopInput xs) = some out →
      List.Forall₂ (fun x o => Counted textLen o ∧ o.1.label = x.1.1 ∧ o.2 ⊆ x.1.2) xs out := by
  induction xs with
  | nil =>
    intro remaining capped out h
    obtain rfl : [] = out := by simpa [loopInput, trim] using h
    exact .nil
  | cons x xs ih =>
    obtain ⟨⟨label, grains⟩, share⟩ := x
    intro remaining capped out h
    obtain ⟨keep, used, out', hcut, hrest, rfl⟩ := trim_cons.1 h
    obtain ⟨m, -, hkeep, hused, -⟩ := budgetPrefixFrom_eq_some grains hcut
    rw [Nat.zero_add] at hkeep hused
    subst hkeep
    exact .cons ⟨⟨rfl, hused⟩, rfl, List.take_subset _ _⟩ (ih hrest)

theorem sum_of_u32Sum {l : List ℕ} {total : ℕ} (h : u32Sum l = some total) : total = l.sum := by
  have key : ∀ (l : List ℕ) (n total : ℕ), l.foldlM u32Add n = some total →
      total = n + l.sum := by
    intro l
    induction l with
    | nil =>
      intro n total h
      simpa [eq_comm] using h
    | cons a l ih =>
      intro n total h
      rw [List.foldlM_cons] at h
      obtain ⟨sum, hadd, hrest⟩ := Option.bind_eq_some_iff.1 h
      obtain ⟨-, rfl⟩ := u32Add_eq_some.1 hadd
      rw [ih _ _ hrest, List.sum_cons, Nat.add_assoc]
  simpa using key l 0 total h

/-- Every grain filed under a label was returned by a source of that label. -/
def Filed (results d : SourceResults) : Prop :=
  ∀ x ∈ d, ∀ g ∈ x.2, ∃ s ∈ results, s.1 = x.1 ∧ g ∈ s.2

theorem Filed.lookup {results d : SourceResults} (h : Filed results d) {label : String}
    {g : CalGrainResult} (hg : g ∈ (d.lookup label).getD []) :
    ∃ s ∈ results, s.1 = label ∧ g ∈ s.2 := by
  cases hfind : d.lookup label with
  | none => simp [hfind] at hg
  | some gs =>
    rw [hfind] at hg
    exact h (label, gs) (Assoc.mem_of_lookup hfind) g hg

theorem keepUnseen_subset (gs : List CalGrainResult) : ∀ seen, (keepUnseen seen gs).2 ⊆ gs := by
  induction gs with
  | nil => intro seen; exact List.Subset.refl []
  | cons g gs ih =>
    intro seen
    by_cases h : g.hash ∈ seen
    · simp only [keepUnseen, if_pos h]
      exact fun x hx => List.mem_cons_of_mem _ (ih seen hx)
    · simp only [keepUnseen, if_neg h]
      exact List.cons_subset_cons g (ih _)

theorem filed_dedupByHashFrom (results : SourceResults) :
    ∀ seen, Filed results (dedupByHashFrom seen results) := by
  induction results with
  | nil =>
    intro seen x hx
    cases hx
  | cons s results ih =>
    intro seen x hx g hg
    rcases List.mem_cons.1 hx with rfl | hx
    · exact ⟨s, List.mem_cons_self, rfl, keepUnseen_subset s.2 seen hg⟩
    · obtain ⟨t, ht, hlabel, hgt⟩ := ih _ x hx g hg
      exact ⟨t, List.mem_cons_of_mem _ ht, hlabel, hgt⟩

/-- One grain of the loop is filed under the label it came with. -/
theorem Filed.dedupStep {results : SourceResults} {field : String}
    {st : List String × SourceResults} {e : WithTop ℕ × String × CalGrainResult}
    (he : ∃ s ∈ results, s.1 = e.2.1 ∧ e.2.2 ∈ s.2) (h : Filed results st.2) :
    Filed results (dedupStep field st e).2 := by
  unfold Assemble.dedupStep
  dsimp only
  split
  · exact h
  · intro x hx g hg
    rcases List.mem_cons.1 hx with rfl | hx
    · rcases List.mem_append.1 hg with hg | hg
      · exact h.lookup hg
      · obtain rfl := List.mem_singleton.1 hg
        exact he
    · exact h x (List.mem_of_mem_filter hx) g hg

theorem filed_foldl_dedupStep {results : SourceResults} {field : String}
    (l : List (WithTop ℕ × String × CalGrainResult)) :
    ∀ {st}, (∀ e ∈ l, ∃ s ∈ results, s.1 = e.2.1 ∧ e.2.2 ∈ s.2) → Filed results st.2 →
      Filed results (l.foldl (Assemble.dedupStep field) st).2 := by
  induction l with
  | nil => exact fun _ h => h
  | cons e l ih =>
    intro st hl h
    exact ih (fun e' he' => hl e' (List.mem_cons_of_mem _ he'))
      (h.dedupStep (hl e List.mem_cons_self))

theorem filed_rebuild {results : SourceResults} (labels : List String) :
    ∀ {d : SourceResults}, Filed results d → Filed results (rebuild labels d) := by
  induction labels with
  | nil =>
    intro d _ x hx
    cases hx
  | cons label labels ih =>
    intro d h x hx g hg
    rcases List.mem_cons.1 hx with rfl | hx
    · exact h.lookup hg
    · exact ih (fun y hy => h y (Assoc.mem_erase.1 hy).1) x hx g hg

theorem filed_dedup (assembleWith : List DedupOption) (priority : Option (List PrioritySpec))
    (results : SourceResults) : Filed results (dedup assembleWith priority results) := by
  unfold dedup
  split
  · refine filed_rebuild _ (filed_foldl_dedupStep _ (fun e he => ?_) fun x hx => ?_)
    · rw [rankedGrains, List.mem_insertionSort] at he
      obtain ⟨s, hs, he⟩ := List.mem_flatMap.1 he
      obtain ⟨g, hg, rfl⟩ := List.mem_map.1 he
      exact ⟨s, hs, rfl, hg⟩
    · cases hx
  · exact filed_dedupByHashFrom results []

theorem capGrains_fst_subset {d : SourceResults} {n : ℕ} {x : String × List CalGrainResult}
    (hx : x ∈ (capGrains d n).1) : ∃ y ∈ d, y.1 = x.1 ∧ x.2 ⊆ y.2 := by
  unfold capGrains at hx
  dsimp only at hx
  split at hx
  · exact ⟨x, hx, rfl, List.Subset.refl _⟩
  · obtain ⟨y, hy, rfl⟩ := List.mem_map.1 hx
    exact ⟨y, hy, rfl, List.take_subset _ _⟩

/-- **What the engine returns**: for each source its metadata and its grains,
laid end to end, which a source of that label returned. -/
structure Laid (textLen : Json → ℕ) (results : SourceResults) (a : Assembled)
    (out : List (SourceMeta × List CalGrainResult)) : Prop where
  sources : a.sources = out.map Prod.fst
  grains : a.grains = (out.map Prod.snd).flatten
  labels : out.map (fun o => o.1.label) = results.map Prod.fst
  counted : ∀ o ∈ out, Counted textLen o
  returned : ∀ o ∈ out, ∀ g ∈ o.2, ∃ s ∈ results, s.1 = o.1.label ∧ g ∈ s.2
  total : a.totalTokens = cost textLen a.grains

theorem exists_of_forall₂ {α β : Type} {P : α → β → Prop} {xs : List α} {ys : List β}
    (h : List.Forall₂ P xs ys) : ∀ y ∈ ys, ∃ x ∈ xs, P x y := by
  induction h with
  | nil => simp
  | cons hr _ ih =>
    intro y hy
    rcases List.mem_cons.1 hy with rfl | hy
    · exact ⟨_, List.mem_cons_self, hr⟩
    · obtain ⟨x, hx, hxy⟩ := ih y hy
      exact ⟨x, List.mem_cons_of_mem _ hx, hxy⟩

theorem labels_of_forall₂ {xs : List Shared} {out : List (SourceMeta × List CalGrainResult)}
    {P : Shared → SourceMeta × List CalGrainResult → Prop}
    (hP : ∀ x o, P x o → o.1.label = x.1.1) (h : List.Forall₂ P xs out) :
    out.map (fun o => o.1.label) = xs.map fun x => x.1.1 := by
  induction h with
  | nil => rfl
  | cons hxo _ ih => simp only [List.map_cons, hP _ _ hxo, ih]

theorem sum_tokensUsed {out : List (SourceMeta × List CalGrainResult)}
    (h : ∀ o ∈ out, Counted textLen o) :
    (out.map fun o => o.1.tokensUsed).sum = cost textLen (out.flatMap Prod.snd) := by
  induction out with
  | nil => rfl
  | cons o out ih =>
    obtain ⟨ho, hrest⟩ := List.forall_mem_cons.1 h
    have happ : cost textLen (o.2 ++ out.flatMap Prod.snd) =
        cost textLen o.2 + cost textLen (out.flatMap Prod.snd) := Fitting.weightOf_append ..
    rw [List.map_cons, List.sum_cons, List.flatMap_cons, ih hrest, ho.used, happ]

theorem execute_blocks {stmt : AssembleStmt Q} {results : SourceResults} {a : Assembled}
    (ha : assembleResults textLen stmt.assembleWith stmt.priority stmt.budgetTokens results =
      some a) : ∃ out, Laid textLen results a out := by
  rw [assembleResults_eq] at ha
  obtain ⟨out, htrim, ha⟩ := Option.bind_eq_some_iff.1 ha
  obtain ⟨total, hsum, rfl⟩ := Option.map_eq_some_iff.1 ha
  have hout := trim_counted _ htrim
  have hcounted : ∀ o ∈ out, Counted textLen o := by
    intro o ho
    obtain ⟨x, -, hx, -⟩ := exists_of_forall₂ hout o ho
    exact hx
  refine ⟨out, rfl, List.flatMap_def, ?_, hcounted, ?_, ?_⟩
  · rw [labels_of_forall₂ (fun _ _ h => h.2.1) hout, sharedLists, List.map_map]
    exact (capGrains_labels _ _).trans (dedup_labels _ _ _)
  · intro o ho g hg
    obtain ⟨x, hx, -, hlabel, hsub⟩ := exists_of_forall₂ hout o ho
    obtain ⟨s, hs, rfl⟩ := List.mem_map.1 hx
    obtain ⟨d, hd, hds, hsd⟩ := capGrains_fst_subset hs
    rw [hlabel, ← hds]
    exact filed_dedup _ _ _ d hd g (hsd (hsub hg))
  · exact (sum_of_u32Sum hsum).trans (sum_tokensUsed hcounted)

/-! ## The payload and the plan -/

variable (R : Reading)

/-- The payload, and the plan made of it, show every grain under its source. -/
structure AttributesSources (textLen : Json → ℕ) (results : SourceResults)
    (options : List WithOption) (a b : Assembled) : Prop where
  labels : (renderSources b).map (·.label) = results.map Prod.fst
  /-- a grain stands under a source that returned it -/
  returned : ∀ s ∈ renderSources b, ∀ g ∈ s.grains, ∃ r ∈ results, r.1 = s.label ∧ g ∈ r.2
  /-- and under the one that the engine kept it from -/
  shown : List.Forall₂ List.Subperm ((renderSources b).map (·.grains))
    ((renderSources a).map (·.grains))
  whole : (renderSources b).flatMap (·.grains) = b.grains
  counts : (b.sources.map (·.grainCount)).sum = b.grains.length
  tokens : b.totalTokens = cost textLen b.grains
  /-- of a group whose objects differ exactly the newest grain is left -/
  resolved : .conflictResolution ∈ options → ∀ key, Conflicting a.grains key →
    ∃ g, (b.grains.filter fun g => conflictKey g = some key) = [g] ∧ g ∈ a.grains ∧
      ∀ g' ∈ a.grains, conflictKey g' = some key → createdAt g' ≤ createdAt g

/-- Every payload of a statement under the options shows every grain under its
source. -/
def AttributesGrains (textLen : Json → ℕ)
    (executeSource : NamedSource Q → Except E (List CalGrainResult)) (stmt : AssembleStmt Q)
    (options : List WithOption) : Prop :=
  ∀ sources results a b, stmt.sources = some sources → sources ≠ [] →
    runSources executeSource sources = .ok results →
    execute textLen executeSource stmt = .ok (.assembled a) →
    executeAssemble R textLen executeSource stmt options = .ok (.assembled b) →
    AttributesSources textLen results options a b

/-- What the engine returned that stays in step with the counts: no option
removes a grain of it, and where it is sorted no grain scores higher than one
of an earlier source. -/
structure InStep (options : List WithOption) (a : Assembled) : Prop where
  kept : ∀ opt ∈ options, Keeps R a.grains opt
  ordered : .diversity ∈ options → Blocks.Ordered (fun g g' => R.score g' ≤ R.score g)
    (Blocks.cut (a.sources.map (·.grainCount)) a.grains)

theorem executeAssemble_eq (options : List WithOption)
    {executeSource : NamedSource Q → Except E (List CalGrainResult)} {stmt : AssembleStmt Q}
    {a : Assembled}
    (ha : execute textLen executeSource stmt = .ok (.assembled a)) :
    ∃ b, executeAssemble R textLen executeSource stmt options = .ok (.assembled b) ∧
      b.grains = options.foldl (applyOption R) a.grains ∧ b.sources = a.sources ∧
      b.totalTokens = a.totalTokens := by
  cases options with
  | nil => exact ⟨a, by simp [executeAssemble, ha], rfl, rfl, rfl⟩
  | cons opt options =>
    exact ⟨applyAssemblePostMergeOptions R (opt :: options) a, by simp [executeAssemble, ha],
      rfl, rfl, rfl⟩

/-- The sources behind a payload of several sources. -/
theorem sources_of_execute {executeSource : NamedSource Q → Except E (List CalGrainResult)}
    {stmt : AssembleStmt Q} {a : Assembled}
    (ha : execute textLen executeSource stmt = .ok (.assembled a)) :
    ∃ sources results, stmt.sources = some sources ∧ sources ≠ [] ∧
      runSources executeSource sources = .ok results := by
  unfold execute at ha
  split at ha
  · cases ha
  · cases ha
  · next sources hne hs =>
    cases hr : runSources executeSource sources with
    | error e => simp [hr] at ha
    | ok results => exact ⟨sources, results, hs, hne, hr⟩

section Laid

variable {R} {results : SourceResults} {a b : Assembled}
  {out : List (SourceMeta × List CalGrainResult)}

theorem Laid.counts (h : Laid textLen results a out) :
    a.sources.map (·.grainCount) = (out.map Prod.snd).map List.length := by
  rw [h.sources, List.map_map, List.map_map]
  exact List.map_congr_left fun o ho => (h.counted o ho).count

theorem Laid.cut (h : Laid textLen results a out) :
    Blocks.cut (a.sources.map (·.grainCount)) a.grains = out.map Prod.snd := by
  rw [h.counts, h.grains, Blocks.cut_flatten]

theorem Laid.sum_counts (h : Laid textLen results a out) :
    (a.sources.map (·.grainCount)).sum = a.grains.length := by
  rw [h.counts, h.grains, List.length_flatten]

/-- The sorted list is cut into the lists of the sources exactly where these
stand in order. -/
theorem Laid.sorted_iff (h : Laid textLen results a out) :
    List.Forall₂ List.Perm (Blocks.cut (a.sources.map (·.grainCount)) (byScore R a.grains))
        (out.map Prod.snd) ↔
      Blocks.Ordered (fun g g' => R.score g' ≤ R.score g)
        (Blocks.cut (a.sources.map (·.grainCount)) a.grains) := by
  have : Std.Total fun g g' => R.score g' ≤ R.score g := ⟨fun g g' => le_total _ _⟩
  have : IsTrans CalGrainResult fun g g' => R.score g' ≤ R.score g :=
    ⟨fun a b c hab hbc => hbc.trans hab⟩
  rw [h.cut, h.counts, h.grains]
  exact Blocks.forall₂_perm_cut_sort_iff _

/-- A plan whose blocks are the lists of the sources, each in some order. -/
theorem renderSourcesFrom_returned (out : List (SourceMeta × List CalGrainResult)) :
    ∀ {i : ℕ} {grains : List CalGrainResult},
      List.Forall₂ List.Perm (Blocks.cut ((out.map Prod.fst).map (·.grainCount)) grains)
        (out.map Prod.snd) →
      ∀ s ∈ renderSourcesFrom i (out.map Prod.fst) grains,
        ∃ o ∈ out, o.1.label = s.label ∧ s.grains.Perm o.2 := by
  induction out with
  | nil =>
    intro i grains _ s hs
    cases hs
  | cons o out ih =>
    intro i grains h s hs
    cases h with
    | cons hfirst hrest =>
      rcases List.mem_cons.1 hs with rfl | hs
      · exact ⟨o, List.mem_cons_self, rfl, hfirst⟩
      · obtain ⟨o', ho', hlabel, hperm⟩ := ih hrest s hs
        exact ⟨o', List.mem_cons_of_mem _ ho', hlabel, hperm⟩

theorem Laid.returned_of_perm (h : Laid textLen results a out) (hsources : b.sources = a.sources)
    (hperm : List.Forall₂ List.Perm (Blocks.cut (a.sources.map (·.grainCount)) b.grains)
      (out.map Prod.snd)) :
    ∀ s ∈ renderSources b, ∀ g ∈ s.grains, ∃ r ∈ results, r.1 = s.label ∧ g ∈ r.2 := by
  intro s hs g hg
  rw [h.sources] at hperm
  rw [renderSources, hsources, h.sources] at hs
  obtain ⟨o, ho, hlabel, hso⟩ := renderSourcesFrom_returned out hperm s hs
  rw [← hlabel]
  exact h.returned o ho g (hso.mem_iff.1 hg)

theorem cost_perm {gs gs' : List CalGrainResult} (h : gs.Perm gs') :
    cost textLen gs = cost textLen gs' := (h.map _).sum_eq

/-- A list that stays in step with the counts shows every grain under its
source. -/
theorem Laid.attributes {options : List WithOption} (h : Laid textLen results a out)
    (hsources : b.sources = a.sources) (htotal : b.totalTokens = a.totalTokens)
    (hgrains : b.grains = options.foldl (applyOption R) a.grains) (hstep : InStep R options a) :
    AttributesSources textLen results options a b := by
  rw [applyOptions_eq R options hstep.kept] at hgrains
  have hperm : b.grains.Perm a.grains := by
    rw [hgrains]
    split
    · exact List.perm_insertionSort _ _
    · exact List.Perm.refl _
  have hblocks : List.Forall₂ List.Perm (Blocks.cut (a.sources.map (·.grainCount)) b.grains)
      (out.map Prod.snd) := by
    rw [hgrains]
    split
    · next hdiv => exact h.sorted_iff.2 (hstep.ordered hdiv)
    · rw [h.cut]
      exact Blocks.forall₂_perm_refl _
  have hcounts : (a.sources.map (·.grainCount)).sum = b.grains.length := by
    rw [h.sum_counts, hperm.length_eq]
  refine ⟨?_, h.returned_of_perm hsources hblocks, ?_, ?_, ?_, ?_, ?_⟩
  · rw [renderSources_labels, hsources, h.sources, List.map_map]
    exact h.labels
  · rw [renderSources_grains, renderSources_grains, hsources, h.cut]
    exact hblocks.imp fun _ _ hp => hp.subperm
  · rw [List.flatMap_def, renderSources_grains, hsources]
    exact Blocks.flatten_cut _ hcounts.ge
  · rw [hsources]
    exact hcounts
  · rw [htotal, h.total]
    exact cost_perm hperm.symm
  · intro hconf key hkey
    exact absurd hkey (hstep.kept _ hconf key)

/-- Only a list that stays in step with the counts does. -/
theorem Laid.inStep {options : List WithOption} (h : Laid textLen results a out)
    (hsources : b.sources = a.sources)
    (hgrains : b.grains = options.foldl (applyOption R) a.grains)
    (hattr : AttributesSources textLen results options a b) : InStep R options a := by
  have hcounts := hattr.counts
  rw [hsources, h.sum_counts, hgrains] at hcounts
  have hkept := (length_applyOptions_iff R options a.grains).1 hcounts.symm
  refine ⟨hkept, fun hdiv => ?_⟩
  rw [applyOptions_eq R options hkept, if_pos hdiv] at hgrains
  have hshown := hattr.shown
  rw [renderSources_grains, renderSources_grains, hsources, h.cut, hgrains] at hshown
  refine h.sorted_iff.1 (Blocks.forall₂_perm_of_subperm hshown ?_)
  rw [Blocks.map_length_cut, h.counts]
  rw [h.sum_counts, List.length_insertionSort]

end Laid

/-- **Every grain is shown under its source exactly when the options leave the
list in step with the counts.** -/
theorem attributesGrains_iff (textLen : Json → ℕ)
    (executeSource : NamedSource Q → Except E (List CalGrainResult)) (stmt : AssembleStmt Q)
    (options : List WithOption) :
    AttributesGrains R textLen executeSource stmt options ↔
      ∀ a, execute textLen executeSource stmt = .ok (.assembled a) → InStep R options a := by
  constructor
  · intro h a ha
    obtain ⟨sources, results, hs, hne, hr⟩ := sources_of_execute ha
    obtain ⟨out, hlaid⟩ := execute_blocks ((execute_eq hs hne hr a).1 ha)
    obtain ⟨b, hb, hgrains, hsources, -⟩ := executeAssemble_eq R options ha
    exact hlaid.inStep hsources hgrains (h sources results a b hs hne hr ha hb)
  · intro h sources results a b hs hne hr ha hb
    obtain ⟨out, hlaid⟩ := execute_blocks ((execute_eq hs hne hr a).1 ha)
    obtain ⟨b', hb', hgrains, hsources, htotal⟩ := executeAssemble_eq R options ha
    rw [hb] at hb'
    cases hb'
    exact hlaid.attributes hsources htotal hgrains (h a ha)

/-! ### On fixed grains -/

/-- Two sources of one grain each. -/
def factAndGoal : AssembleStmt (List CalGrainResult) where
  sources := some [⟨"facts", [grainAbout "aa" "ann"]⟩, ⟨"goals", [grainAbout "bb" "bob"]⟩]
  budget := none
  priority := none
  assembleWith := []

/-- A reading where only the second grain scores. -/
def secondScores : Reading where
  grainType _ := "fact"
  score g := if g.hash = "bb" then 1 else 0
  isDeterministic _ := false
  isWhitespace := Char.isWhitespace
  toLowercase := List.map Char.toLower
  toString _ := ""

/-- What `FORMAT` shows of `factAndGoal` under a least score of a half: each
label with the hashes under it. -/
def factAndGoalPlan : Option (List (String × List String)) :=
  match executeAssemble secondScores (fun _ => 17) (fun s => (.ok s.query : Except Empty _))
      factAndGoal [.minScore (1 / 2)] with
  | .ok (.assembled b) =>
    some ((renderSources b).map fun s => (s.label, s.grains.map fun g => g.hash))
  | _ => none

/-- The grain of the goals is shown under the facts. -/
theorem goal_shown_as_fact :
    ¬ AttributesGrains secondScores (fun _ => 17) (fun s => (.ok s.query : Except Empty _))
      factAndGoal [.minScore (1 / 2)] := by
  intro h
  have hplan : factAndGoalPlan = some [("facts", ["bb"]), ("goals", [])] := by decide +kernel
  cases ha : execute (fun _ => 17) (fun s => (.ok s.query : Except Empty _)) factAndGoal with
  | error e => simp [factAndGoalPlan, executeAssemble, ha] at hplan
  | ok payload =>
    cases payload with
    | grains gs n => simp [factAndGoalPlan, executeAssemble, ha] at hplan
    | assembled a =>
      obtain ⟨b, hb, -⟩ := executeAssemble_eq secondScores [.minScore (1 / 2)] ha
      have hattr := h _ [("facts", [grainAbout "aa" "ann"]), ("goals", [grainAbout "bb" "bob"])]
        a b rfl (by simp) rfl ha hb
      simp only [factAndGoalPlan, hb, Option.some.injEq] at hplan
      obtain ⟨s, hs, hsplan⟩ := List.mem_map.1 (hplan ▸ List.mem_cons_self)
      obtain ⟨hlabel, hhashes⟩ := Prod.mk.inj hsplan
      obtain ⟨g, hg, hhash⟩ := List.mem_map.1 (hhashes ▸ List.mem_singleton_self "bb")
      obtain ⟨r, hr, hrs, hgr⟩ := hattr.returned s hs g hg
      rw [hlabel] at hrs
      rcases List.mem_pair.1 hr with rfl | rfl
      · obtain rfl := List.mem_singleton.1 hgr
        exact absurd hhash (by decide)
      · exact absurd hrs (by decide)

end Deja.Assemble
