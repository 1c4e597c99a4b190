import Deja.Context.Budget

/-!
# The assembly of a context

`format_with_hints` renders the hits of a recall in several passes: a timeline,
the primary hits with the updates of their knowledge, the expansions and the
census of the other sessions.  A text is modelled by the grains it is joined
from, each under its section; a hit is carried with its position.

* `accounts_singlePass` — one pass renders every hit it counts, once.
* `accounts_of` — so does the assembly, where the updates of knowledge are of grains
  let through, each in one of them, and the census counts the first of its hits.
-/

namespace Deja.Context

/-! ## Hits and policies -/

/-- The supersession status of a hit. -/
inductive SupersessionStatus where
  | current
  | superseded
  deriving DecidableEq

/-- Where a hit comes from. -/
inductive RecallSource where
  | primary
  | expansion
  | census
  deriving DecidableEq

/-- `SearchHit`, as far as the assembly reads it. -/
structure SearchHit where
  hash : Hash
  grainType : GrainType
  createdAtSec : ℕ
  subject : String
  score : ℚ
  supersessionStatus : Option SupersessionStatus
  supersededByHash : Option Hash
  recallSource : Option RecallSource

/-- A hit and its position among the hits. -/
abbrev Placed := SearchHit × ℕ

/-- The rendering of a policy. -/
inductive OutputFormat where
  | sml
  | toon
  | markdown
  | plainText
  | json
  deriving DecidableEq

/-- How much metadata a rendering shows. -/
inductive MetadataLevel where
  | none
  | minimal
  | full
  deriving DecidableEq

/-- The order of the rendered grains. -/
inductive Ordering where
  | byRelevance
  | chronological
  | reverseChronological
  | byEntity

/-- `GrainTypeOverride`. -/
structure GrainTypeOverride where
  isIncluded : Bool
  maxCount : Option ℕ

/-- `FormatPolicy`. -/
structure FormatPolicy where
  format : OutputFormat
  metadata : MetadataLevel
  ordering : Ordering
  groupByType : Bool
  typeOrder : List GrainType
  tokenBudget : Option ℕ
  grainOverrides : GrainType → Option GrainTypeOverride
  queryText : Option String
  grainTypeDiversity : Option GrainTypeDiversityConfig

/-- `RenderingHints`, as far as they select the timeline. -/
structure RenderingHints where
  hasTemporalExpr : Bool
  hasTimeRange : Bool
  queryText : Option String

/-- The assembler: what the renderer of a grain's type says, or the fallback where
there is none. -/
structure ContextAssembler where
  contextPriority : SearchHit → ℚ
  tokenEstimate : SearchHit → FormatPolicy → ℕ
  /-- `render_one`. -/
  renderOne : SearchHit → Allocation → FormatPolicy → String
  /-- The rendered text is a JSON value. -/
  isJson : SearchHit → Allocation → FormatPolicy → Bool
  /-- `str::to_lowercase`. -/
  toLowercase : String → String
  order : HashOrder

/-- The section a grain is rendered in. -/
inductive Part where
  | updates
  | main
  | expansion
  | census
  | timeline
  deriving DecidableEq

/-- `FormattedContext`: the text by its grains, by whether it is empty and whether
it is one JSON document; `included_count` by the hits it counts. -/
structure FormattedContext where
  shown : List (Part × ℕ)
  counted : List ℕ
  omittedCount : ℕ
  isEmpty : Bool
  isDocument : Bool

/-- `included_count`. -/
def FormattedContext.includedCount (c : FormattedContext) : ℕ := c.counted.length

/-- The context of no hits. -/
def FormattedContext.empty : FormattedContext := ⟨[], [], 0, true, false⟩

/-! ## Knowledge updates -/

/-- `SupersessionChain` by the positions of its two ends. -/
structure SupersessionChain where
  oldIndex : ℕ
  newIndex : ℕ

/-- The positions a chain consumes. -/
def SupersessionChain.ends (c : SupersessionChain) : List ℕ := [c.oldIndex, c.newIndex]

/-- `is_recency_query`. -/
def isRecencyQuery (A : ContextAssembler) : Option String → Bool
  | none => false
  | some q =>
    ["currently", "right now", "most recently", "at this point", "latest", "what is",
      "what's"].any fun p => decide (p.toList <:+: (A.toLowercase q).toList)

/-- `hash_to_index`: the last hit of a hash. -/
def hitOf (hits : List Placed) (h : Hash) : Option Placed :=
  (hits.filter fun x => x.1.hash = h).getLast?

/-- The hops from a superseder to the current grain, and the outdated ones on the
way. -/
def followChain (hits : List Placed) : ℕ → Hash → List ℕ → Option (ℕ × List ℕ)
  | 0, _, _ => none
  | hops + 1, hash, intermediaries =>
    match hitOf hits hash with
    | none => none
    | some (hit, idx) =>
      match hit.supersessionStatus with
      | some .current => some (idx, intermediaries)
      | some .superseded =>
        match hit.supersededByHash with
        | some next => followChain hits hops next (intermediaries ++ [idx])
        | none => none
      | none => none

/-- The loop over the hits, past those already consumed. -/
def extractChainsFrom (hits : List Placed) : List Placed → List ℕ → List SupersessionChain
  | [], _ => []
  | (hit, i) :: rest, consumed =>
    if i ∈ consumed then extractChainsFrom hits rest consumed
    else if hit.supersessionStatus ≠ some .superseded then extractChainsFrom hits rest consumed
    else
      match hit.supersededByHash with
      | none => extractChainsFrom hits rest consumed
      | some superseder =>
        match followChain hits 10 superseder [] with
        | none => extractChainsFrom hits rest consumed
        | some (newIndex, intermediaries) =>
          ⟨i, newIndex⟩ :: extractChainsFrom hits rest (i :: newIndex :: intermediaries ++ consumed)

/-- `extract_supersession_chains`. -/
def extractSupersessionChains (hits : List Placed) : List SupersessionChain :=
  extractChainsFrom hits hits []

/-- `render_knowledge_updates`: both ends of every chain, the new ones alone for a
query about the present. -/
def renderKnowledgeUpdates (chains : List SupersessionChain) (recency : Bool) : List ℕ :=
  chains.flatMap fun c => if recency then [c.newIndex] else c.ends

/-! ## Filters and budget -/

/-- The loop of `apply_overrides`, with the grains counted so far of each type. -/
def applyOverridesFrom (policy : FormatPolicy) : List Placed → (GrainType → ℕ) → List Placed
  | [], _ => []
  | x :: rest, counts =>
    match policy.grainOverrides x.1.grainType with
    | none => x :: applyOverridesFrom policy rest counts
    | some ovr =>
      if !ovr.isIncluded then applyOverridesFrom policy rest counts
      else
        match ovr.maxCount with
        | none => x :: applyOverridesFrom policy rest counts
        | some max =>
          if max ≤ counts x.1.grainType then applyOverridesFrom policy rest counts
          else x :: applyOverridesFrom policy rest
            (Function.update counts x.1.grainType (counts x.1.grainType + 1))

/-- `apply_overrides`. -/
def applyOverrides (policy : FormatPolicy) (hits : List Placed) : List Placed :=
  applyOverridesFrom policy hits fun _ => 0

/-- `exclude_superseded_pairs`: outdated grains go where their superseder is among
the current ones. -/
def excludeSupersededPairs (hits : List Placed) : List Placed :=
  let currentHashes := (hits.filter fun x => x.1.supersessionStatus = some .current).map
    fun x => x.1.hash
  hits.filter fun x => !(decide (x.1.supersessionStatus = some .superseded) &&
    x.1.supersededByHash.any (· ∈ currentHashes))

/-- The exclusion by supersession, which full metadata suspends. -/
def excludeSuperseded (policy : FormatPolicy) (hits : List Placed) : List Placed :=
  if policy.metadata ≠ .full then excludeSupersededPairs hits else hits

/-- `allocate`. -/
def allocate (entries : List ScoredEntry) (tokenBudget : Option ℕ) : List Allocation :=
  match tokenBudget with
  | none => List.replicate entries.length .full
  | some budget =>
    mark entries.length
      (Ration.fill ScoredEntry.fullTokens (budget * 70 / 100) 0 (byPriorityDesc entries))

section Assemble

variable (A : ContextAssembler)

/-- The hits scored and measured. -/
def scored (policy : FormatPolicy) (filtered : List Placed) : List ScoredEntry :=
  filtered.zipIdx.map fun x =>
    let fullTokens := A.tokenEstimate x.1.1 policy
    { priority := A.contextPriority x.1.1
      fullTokens := fullTokens
      summaryTokens := max (fullTokens / 3) 1
      originalIndex := x.2
      grainType := x.1.1.grainType }

/-- The decision on every hit. -/
def allocations (policy : FormatPolicy) (filtered : List Placed) : List Allocation :=
  match policy.grainTypeDiversity with
  | some diversity =>
    allocateWithDiversity A.order (scored A policy filtered) policy.tokenBudget diversity
  | none => allocate (scored A policy filtered) policy.tokenBudget

/-- The hits that are not omitted, with their allocation. -/
def included (policy : FormatPolicy) (filtered : List Placed) : List (Placed × Allocation) :=
  (filtered.zip (allocations A policy filtered)).filter fun x => x.2 ≠ .omit

/-- The number of the others. -/
def omitted (policy : FormatPolicy) (filtered : List Placed) : ℕ :=
  (allocations A policy filtered).countP fun a => a = .omit

/-! ## Rendering -/

/-- `apply_ordering`. -/
def applyOrdering (policy : FormatPolicy) (l : List (Placed × Allocation)) :
    List (Placed × Allocation) :=
  match policy.ordering with
  | .byRelevance => l
  | .chronological => l.insertionSort fun a b => a.1.1.createdAtSec ≤ b.1.1.createdAtSec
  | .reverseChronological => l.insertionSort fun a b => b.1.1.createdAtSec ≤ a.1.1.createdAtSec
  | .byEntity => l.insertionSort fun a b => a.1.1.subject < b.1.1.subject ∨
      a.1.1.subject = b.1.1.subject ∧ b.1.1.score ≤ a.1.1.score

/-- The entries of one type after those of another. -/
def byType (order : List GrainType) (l : List (Placed × Allocation)) :
    List (Placed × Allocation) :=
  order.flatMap fun t => l.filter fun x => x.1.1.grainType = t

/-- The types in the order of their first entries. -/
def firstTypes (l : List (Placed × Allocation)) : List GrainType :=
  (l.map fun x => x.1.1.grainType).reverse.dedup.reverse

/-- The entries whose text is not empty. -/
def spoken (policy : FormatPolicy) (l : List (Placed × Allocation)) : List (Placed × Allocation) :=
  l.filter fun x => A.renderOne x.1.1 x.2 policy ≠ ""

/-- `render_flat`. -/
def renderFlat (policy : FormatPolicy) (l : List (Placed × Allocation)) :
    List (Placed × Allocation) :=
  spoken A policy (if policy.format = .toon then byType (firstTypes l) l else l)

/-- `default_type_order`. -/
def defaultTypeOrder : List GrainType :=
  [.state, .goal, .fact, .tool, .event, .observation, .reasoning, .workflow, .consensus,
    .consent, .skill, .recommendation]

/-- The order of the sections by type. -/
def sectionOrder (policy : FormatPolicy) : List GrainType :=
  if policy.typeOrder = [] then defaultTypeOrder else policy.typeOrder

/-- `render_grouped`. -/
def renderGrouped (policy : FormatPolicy) (l : List (Placed × Allocation)) :
    List (Placed × Allocation) :=
  spoken A policy (byType (sectionOrder policy) l)

/-- The primary section. -/
def renderPrimary (policy : FormatPolicy) (l : List (Placed × Allocation)) :
    List (Placed × Allocation) :=
  if policy.groupByType then renderGrouped A policy l else renderFlat A policy l

/-- The primary section has an empty text: a JSON document never has, and a group
has a header. -/
def primaryIsEmpty (policy : FormatPolicy) (l : List (Placed × Allocation)) : Bool :=
  match policy.format with
  | .json => false
  | .toon => (renderPrimary A policy l).isEmpty
  | _ =>
    if policy.groupByType then (byType (sectionOrder policy) l).isEmpty
    else (renderPrimary A policy l).isEmpty

/-- The expansion section; in JSON it keeps the entries without a text. -/
def renderExpansion (policy : FormatPolicy) (l : List (Placed × Allocation)) :
    List (Placed × Allocation) :=
  if policy.format = .json then l else renderFlat A policy l

/-- The hits of a source that the policy lets through. -/
def filtered (policy : FormatPolicy) (hits : List Placed) : List Placed :=
  let consumed := (extractSupersessionChains hits).flatMap SupersessionChain.ends
  excludeSuperseded policy ((applyOverrides policy hits).filter fun x => x.2 ∉ consumed)

/-- `format_single_pass`. -/
def formatSinglePass (policy : FormatPolicy) (hits : List Placed) : FormattedContext :=
  if hits = [] then .empty
  else
    let chains := extractSupersessionChains hits
    let updates := renderKnowledgeUpdates chains (isRecencyQuery A policy.queryText)
    let kept := included A policy (filtered policy hits)
    let primary := applyOrdering policy
      (kept.filter fun x => x.1.1.recallSource ≠ some .expansion)
    let expansion := applyOrdering policy
      (kept.filter fun x => x.1.1.recallSource = some .expansion)
    let main := renderPrimary A policy primary
    let further := renderExpansion A policy expansion
    { shown := updates.map (Part.updates, ·) ++ main.map (fun x => (Part.main, x.1.2)) ++
        further.map fun x => (Part.expansion, x.1.2)
      counted := (primary ++ expansion).map (fun x => x.1.2) ++
        chains.flatMap SupersessionChain.ends
      omittedCount := omitted A policy (filtered policy hits)
      isEmpty := chains.isEmpty && primaryIsEmpty A policy primary && expansion.isEmpty
      isDocument := expansion.isEmpty && main.all fun x => A.isJson x.1.1 x.2 policy }

/-- `format_timeline_pass`. -/
def formatTimelinePass (policy : FormatPolicy) (hits : List Placed) : FormattedContext :=
  let candidates := excludeSuperseded policy (applyOverrides policy hits)
  let kept := (included A policy candidates).insertionSort fun a b =>
    a.1.1.createdAtSec ≤ b.1.1.createdAtSec
  { shown := (spoken A policy kept).map fun x => (Part.timeline, x.1.2)
    counted := kept.map fun x => x.1.2
    omittedCount := omitted A policy candidates
    isEmpty := false
    isDocument := (spoken A policy kept).all fun x => A.isJson x.1.1 x.2 policy }

/-- `format_census_section`: the first hits, as many as the pass included. -/
def formatCensusSection (policy : FormatPolicy) (census : List Placed) : FormattedContext :=
  let inner := formatSinglePass A policy census
  if inner.isEmpty then inner
  else
    let shown := (census.take (min inner.includedCount census.length)).map fun x =>
      (x, Allocation.full)
    let rendered := if policy.format = .toon then
      spoken A policy (byType (firstTypes shown) shown) else shown
    { shown := rendered.map fun x => (Part.census, x.1.2)
      counted := inner.counted
      omittedCount := inner.omittedCount
      isEmpty := decide (policy.format = .toon) && rendered.isEmpty
      isDocument := rendered.all fun x => A.isJson x.1.1 x.2 policy }

/-- `detect_temporal_intent`. -/
def detectTemporalIntent (hints : RenderingHints) : Bool :=
  hints.hasTemporalExpr || hints.hasTimeRange ||
    match hints.queryText with
    | none => false
    | some q =>
      ["order of", "in what order", "sequence of", "from earliest", "from latest", "from first",
        "from last", "how many days", "how long between", "time between", "which came first",
        "which came last", "which was earlier", "which was later", "before or after",
        "earlier or later", "when did", "what date", "what time", "chronolog"].any fun p =>
          decide (p.toList <:+: (A.toLowercase q).toList)

/-- The hits of the census. -/
def censusHits (hits : List Placed) : List Placed :=
  hits.filter fun x => x.1.recallSource = some .census

/-- The others. -/
def primaryHits (hits : List Placed) : List Placed :=
  hits.filter fun x => x.1.recallSource ≠ some .census

/-- The policy of the primary hits: four fifths of the budget. -/
def primaryPolicy (policy : FormatPolicy) : FormatPolicy :=
  { policy with tokenBudget := policy.tokenBudget.map fun total => total * 4 / 5 }

/-- The policy of the census: a fifth. -/
def censusPolicy (policy : FormatPolicy) : FormatPolicy :=
  { policy with tokenBudget := policy.tokenBudget.map fun total => total / 5 }

/-- Primary and census as one; in JSON by merging two documents, where both are
documents (`merge_json_census`). -/
def withCensus (policy : FormatPolicy) (primary census : FormattedContext) : FormattedContext :=
  if census.isEmpty then primary
  else
    let merged := policy.format ≠ .json ∨ (primary.isDocument ∧ census.isDocument)
    { shown := if merged then primary.shown ++ census.shown else primary.shown
      counted := primary.counted ++ census.counted
      omittedCount := primary.omittedCount + census.omittedCount
      isEmpty := primary.isEmpty && decide ¬ merged
      isDocument := primary.isDocument }

/-- The hits are shown as a timeline. -/
def showsTimeline (hints : RenderingHints) (hits : List SearchHit) : Bool :=
  detectTemporalIntent A hints && decide (2 ≤ hits.length)

/-- `format_with_hints`. -/
def formatWithHints (policy : FormatPolicy) (hints : RenderingHints) (hits : List SearchHit) :
    FormattedContext :=
  let placed := hits.zipIdx
  if hits = [] then .empty
  else if showsTimeline A hints hits then formatTimelinePass A policy placed
  else if censusHits placed = [] then formatSinglePass A policy placed
  else
    withCensus policy (formatSinglePass A (primaryPolicy policy) (primaryHits placed))
      (formatCensusSection A (censusPolicy policy) (censusHits placed))

end Assemble

/-! ## What the assembly is for -/

/-- The hits that no override and no superseder excludes. -/
def allowed (policy : FormatPolicy) (hits : List Placed) : List ℕ :=
  (excludeSuperseded policy (applyOverrides policy hits)).map Prod.snd

/-- The hits a pass considers: beside those, both versions in an update of
knowledge, unless an override excludes them. -/
def considered (policy : FormatPolicy) (hits : List Placed) : List ℕ :=
  let ends := (extractSupersessionChains hits).flatMap SupersessionChain.ends
  (((applyOverrides policy hits).filter fun x => x.2 ∈ ends) ++ filtered policy hits).map Prod.snd

/-- Every hit considered is rendered once or omitted, and nothing else is rendered. -/
structure Accounts (considered : List ℕ) (context : FormattedContext) : Prop where
  once : (context.shown.map Prod.snd).Nodup
  only : ∀ x ∈ context.shown, x.2 ∈ considered
  counted : (context.shown.map Prod.snd).Perm context.counted
  total : context.includedCount + context.omittedCount = considered.length

/-- The renderers give no hit an empty text, unless it is omitted. -/
def Spoken (A : ContextAssembler) (policy : FormatPolicy) (hits : List Placed) : Prop :=
  ∀ x ∈ hits, ∀ alloc, alloc ≠ .omit → A.renderOne x.1 alloc policy ≠ ""

/-- Grouped by type, every type has one section. -/
def OneSectionEach (policy : FormatPolicy) : Prop :=
  policy.groupByType = true → (sectionOrder policy).Nodup ∧ ∀ t, t ∈ sectionOrder policy

/-- No update of knowledge is shown, or both versions are, no grain in two updates
and none that an override excludes. -/
def UpdatesFit (A : ContextAssembler) (policy : FormatPolicy) (hits : List Placed) : Prop :=
  extractSupersessionChains hits = [] ∨
    isRecencyQuery A policy.queryText = false ∧
      ((extractSupersessionChains hits).flatMap SupersessionChain.ends).Nodup ∧
      (extractSupersessionChains hits).flatMap SupersessionChain.ends ⊆
        (applyOverrides policy hits).map Prod.snd

/-! ## What is let through -/

theorem applyOverridesFrom_sublist {policy : FormatPolicy} :
    ∀ (hits : List Placed) (counts : GrainType → ℕ),
      (applyOverridesFrom policy hits counts).Sublist hits := by
  intro hits
  induction hits with
  | nil => intro counts; exact .slnil
  | cons x rest ih =>
    intro counts
    rw [applyOverridesFrom]
    split
    · exact (ih _).cons_cons x
    · split
      · exact (ih _).cons x
      · split
        · exact (ih _).cons_cons x
        · split
          · exact (ih _).cons x
          · exact (ih _).cons_cons x

theorem excludeSuperseded_sublist (policy : FormatPolicy) (hits : List Placed) :
    (excludeSuperseded policy hits).Sublist hits := by
  unfold excludeSuperseded
  split
  · exact List.filter_sublist
  · exact List.Sublist.refl _

theorem allowed_sublist (policy : FormatPolicy) (hits : List Placed) :
    (allowed policy hits).Sublist (hits.map Prod.snd) :=
  ((excludeSuperseded_sublist _ _).trans (applyOverridesFrom_sublist hits _)).map _

theorem considered_nil (policy : FormatPolicy) : considered policy [] = [] := by
  have h : filtered policy [] = [] := List.sublist_nil.1 (excludeSuperseded_sublist _ _)
  simp [considered, applyOverrides, applyOverridesFrom, h]

/-- What a pass considers is what the overrides let through, less some outdated hits. -/
theorem considered_subperm (policy : FormatPolicy) (hits : List Placed) :
    (considered policy hits).Subperm (hits.map Prod.snd) := by
  unfold considered filtered
  generalize (extractSupersessionChains hits).flatMap SupersessionChain.ends = ends
  have hsplit := List.filter_append_perm (fun x : Placed => decide (x.2 ∈ ends))
    (applyOverrides policy hits)
  have hsub := excludeSuperseded_sublist policy
    ((applyOverrides policy hits).filter fun x => x.2 ∉ ends)
  simp only [← decide_not] at hsplit
  obtain ⟨l, hperm, hl⟩ := (hsub.append_left _).subperm.trans
    (hsplit.subperm.trans (applyOverridesFrom_sublist hits _).subperm)
  exact ⟨l.map Prod.snd, hperm.map _, hl.map _⟩

theorem considered_nodup {policy : FormatPolicy} {hits : List Placed}
    (hnodup : (hits.map Prod.snd).Nodup) : (considered policy hits).Nodup := by
  obtain ⟨l, hperm, hsub⟩ := considered_subperm policy hits
  exact hperm.nodup_iff.1 (hnodup.sublist hsub)

section

variable {A : ContextAssembler} {P : FormatPolicy}

theorem length_allocations (l : List Placed) : (allocations A P l).length = l.length := by
  have hscored : (scored A P l).length = l.length := by simp [scored]
  unfold allocations
  split
  · unfold allocateWithDiversity
    split <;> simp [hscored]
  · unfold allocate
    split <;> simp [hscored]

/-- Every hit is included or omitted. -/
theorem included_add_omitted (l : List Placed) :
    (included A P l).length + omitted A P l = l.length := by
  have hsnd : ((l.zip (allocations A P l)).map Prod.snd) = allocations A P l :=
    List.map_snd_zip (length_allocations l).le
  have hlength : (l.zip (allocations A P l)).length = l.length := by
    rw [List.length_zip, length_allocations, min_self]
  rw [included, omitted, ← hsnd, List.countP_map, ← List.countP_eq_length_filter, hsnd, ← hlength,
    List.length_eq_countP_add_countP fun x : Placed × Allocation => decide (x.2 ≠ .omit)]
  congr 1
  refine List.countP_congr fun x _ => ?_
  simp

theorem included_sublist (l : List Placed) : ((included A P l).map Prod.fst).Sublist l := by
  have h : ((included A P l).map Prod.fst).Sublist
      ((l.zip (allocations A P l)).map Prod.fst) := List.filter_sublist.map _
  rwa [List.map_fst_zip (length_allocations l).ge] at h

theorem filtered_sublist (hits : List Placed) : (filtered P hits).Sublist hits :=
  ((excludeSuperseded_sublist _ _).trans List.filter_sublist).trans
    (applyOverridesFrom_sublist hits _)

/-- Every entry of a list is rendered to a text. -/
def AllSpoken (A : ContextAssembler) (policy : FormatPolicy) (l : List (Placed × Allocation)) :
    Prop := ∀ x ∈ l, A.renderOne x.1.1 x.2 policy ≠ ""

theorem AllSpoken.mono {l l' : List (Placed × Allocation)} (h : AllSpoken A P l') (hsub : l ⊆ l') :
    AllSpoken A P l := fun x hx => h x (hsub hx)

/-- What the budget lets through has a text. -/
theorem Spoken.included {hits l : List Placed} (h : Spoken A P hits) (hsub : l ⊆ hits) :
    AllSpoken A P (included A P l) := by
  intro x hx
  have hmem : x.1 ∈ l := (included_sublist l).subset (List.mem_map_of_mem hx)
  exact h x.1 (hsub hmem) x.2 (of_decide_eq_true (List.mem_filter.1 hx).2)

/-! ## What is rendered -/

theorem applyOrdering_perm (l : List (Placed × Allocation)) :
    (applyOrdering P l).Perm l := by
  unfold applyOrdering
  split
  · exact .refl l
  all_goals exact List.perm_insertionSort _ l

/-- A part of some entries, put in order, has a text where they have. -/
theorem AllSpoken.ordered {l : List (Placed × Allocation)} (h : AllSpoken A P l)
    (p : Placed × Allocation → Bool) : AllSpoken A P (applyOrdering P (l.filter p)) :=
  h.mono (List.Subset.trans (applyOrdering_perm _).subset (List.filter_sublist.subset))

/-- Groups by distinct types share their entries out. -/
theorem byType_perm_filter {order : List GrainType} (h : order.Nodup)
    (l : List (Placed × Allocation)) :
    (byType order l).Perm (l.filter fun x => x.1.1.grainType ∈ order) := by
  induction order with
  | nil => simp [byType]
  | cons t order ih =>
    obtain ⟨ht, horder⟩ := List.nodup_cons.1 h
    have hrest := ih horder
    refine (List.Perm.append_left _ hrest).trans ?_
    clear hrest ih h
    induction l with
    | nil => exact .refl _
    | cons x l ihl =>
      by_cases hx : x.1.1.grainType = t
      · have hnot : x.1.1.grainType ∉ order := hx ▸ ht
        simpa [List.filter_cons, hx, ht] using ihl
      · by_cases hmem : x.1.1.grainType ∈ order
        · simp only [List.filter_cons, hx, hmem, decide_false, decide_true, List.mem_cons,
            false_or, if_true, Bool.false_eq_true, if_false]
          refine List.perm_middle.trans (List.Perm.cons x ?_)
          simpa using ihl
        · simpa [List.filter_cons, hx, hmem] using ihl

theorem byType_perm {order : List GrainType} (h : order.Nodup) {l : List (Placed × Allocation)}
    (hall : ∀ x ∈ l, x.1.1.grainType ∈ order) : (byType order l).Perm l := by
  have hfilter : (l.filter fun x => x.1.1.grainType ∈ order) = l :=
    List.filter_eq_self.2 fun x hx => decide_eq_true (hall x hx)
  exact (byType_perm_filter h l).trans (.of_eq hfilter)

theorem byType_firstTypes_perm (l : List (Placed × Allocation)) :
    (byType (firstTypes l) l).Perm l := by
  refine byType_perm (List.nodup_reverse.2 (List.nodup_dedup _)) fun x hx => ?_
  simp only [List.mem_reverse, List.mem_dedup, List.mem_map]
  exact ⟨x, hx, rfl⟩

theorem spoken_eq {l : List (Placed × Allocation)} (hspoken : AllSpoken A P l) :
    spoken A P l = l :=
  List.filter_eq_self.2 fun x hx => decide_eq_true (hspoken x hx)

theorem renderFlat_perm {l : List (Placed × Allocation)} (hspoken : AllSpoken A P l) :
    (renderFlat A P l).Perm l := by
  unfold renderFlat
  split
  · rw [spoken_eq (hspoken.mono (byType_firstTypes_perm l).subset)]
    exact byType_firstTypes_perm l
  · rw [spoken_eq hspoken]

theorem renderPrimary_perm (hone : OneSectionEach P) {l : List (Placed × Allocation)}
    (hspoken : AllSpoken A P l) : (renderPrimary A P l).Perm l := by
  unfold renderPrimary
  split
  · next hgroup =>
    obtain ⟨hnodup, hall⟩ := hone hgroup
    have hperm : (byType (sectionOrder P) l).Perm l := byType_perm hnodup fun x _ => hall _
    rw [renderGrouped, spoken_eq (hspoken.mono hperm.subset)]
    exact hperm
  · exact renderFlat_perm hspoken

theorem renderExpansion_perm {l : List (Placed × Allocation)} (hspoken : AllSpoken A P l) :
    (renderExpansion A P l).Perm l := by
  unfold renderExpansion
  split
  · exact .refl l
  · exact renderFlat_perm hspoken

/-! ## One pass -/

/-- A context that shows the positions it includes accounts for what it considers. -/
theorem Accounts.of_perm {positions shownPositions : List ℕ} {context : FormattedContext}
    (hperm : (context.shown.map Prod.snd).Perm shownPositions)
    (hshown : shownPositions.Nodup) (hsubset : shownPositions ⊆ positions)
    (hcount : context.counted.Perm shownPositions)
    (htotal : shownPositions.length + context.omittedCount = positions.length) :
    Accounts positions context := by
  refine ⟨hperm.nodup_iff.2 hshown, fun x hx => ?_, hperm.trans hcount.symm, ?_⟩
  · exact hsubset (hperm.subset (List.mem_map_of_mem hx))
  · rw [FormattedContext.includedCount, hcount.length_eq, htotal]

/-- The grains of the updates and those let through are what the pass considers. -/
theorem ends_append_filtered_perm {hits : List Placed} (hnodup : (hits.map Prod.snd).Nodup)
    (h : UpdatesFit A P hits) :
    ((extractSupersessionChains hits).flatMap SupersessionChain.ends ++
      (filtered P hits).map Prod.snd).Perm (considered P hits) := by
  rw [considered, List.map_append]
  refine List.Perm.append_right _ ?_
  rcases h with hnone | ⟨-, hends, hsub⟩
  · simp [hnone]
  · generalize (extractSupersessionChains hits).flatMap SupersessionChain.ends = ends at *
    have hover : (((applyOverrides P hits).filter fun x => x.2 ∈ ends).map Prod.snd).Nodup :=
      hnodup.sublist ((List.filter_sublist.trans (applyOverridesFrom_sublist hits _)).map _)
    refine (List.perm_ext_iff_of_nodup hends hover).2 fun i => ⟨fun hi => ?_, fun hi => ?_⟩
    · obtain ⟨x, hx, rfl⟩ := List.mem_map.1 (hsub hi)
      exact List.mem_map_of_mem (List.mem_filter.2 ⟨hx, decide_eq_true hi⟩)
    · obtain ⟨x, hx, rfl⟩ := List.mem_map.1 hi
      exact of_decide_eq_true (List.mem_filter.1 hx).2

/-- **One pass renders every hit it counts, once.** -/
theorem accounts_singlePass {hits : List Placed} (hnodup : (hits.map Prod.snd).Nodup)
    (hspoken : Spoken A P hits) (hone : OneSectionEach P) (hfit : UpdatesFit A P hits) :
    Accounts (considered P hits) (formatSinglePass A P hits) := by
  have hconsidered : (considered P hits).Nodup := considered_nodup hnodup
  by_cases hempty : hits = []
  · subst hempty
    rw [considered_nil, formatSinglePass, if_pos rfl]
    exact ⟨List.nodup_nil, by simp [FormattedContext.empty], .refl _, rfl⟩
  · have hperm := ends_append_filtered_perm hnodup hfit
    have hupdates : renderKnowledgeUpdates (extractSupersessionChains hits)
        (isRecencyQuery A P.queryText) =
          (extractSupersessionChains hits).flatMap SupersessionChain.ends := by
      rcases hfit with hnone | ⟨hpast, -⟩
      · rw [hnone]; rfl
      · rw [hpast]; rfl
    have hsaid : AllSpoken A P (included A P (filtered P hits)) :=
      hspoken.included (filtered_sublist hits).subset
    generalize hkept : included A P (filtered P hits) = kept at hsaid
    have hsub : ((kept.map Prod.fst).map Prod.snd).Sublist ((filtered P hits).map Prod.snd) :=
      hkept ▸ (included_sublist (A := A) (P := P) (filtered P hits)).map _
    have hsplit : ((kept.filter fun x => x.1.1.recallSource ≠ some .expansion) ++
        kept.filter fun x => x.1.1.recallSource = some .expansion).Perm kept := by
      have h := List.filter_append_perm
        (fun x : Placed × Allocation => decide (x.1.1.recallSource ≠ some .expansion)) kept
      simpa using h
    have hcount : kept.length + omitted A P (filtered P hits) =
        (filtered P hits).length := hkept ▸ included_add_omitted (filtered P hits)
    have hordered : ((applyOrdering P
        (kept.filter fun x => x.1.1.recallSource ≠ some .expansion) ++ applyOrdering P
          (kept.filter fun x => x.1.1.recallSource = some .expansion)).map fun x => x.1.2).Perm
            ((kept.map Prod.fst).map Prod.snd) := by
      rw [List.map_map]
      exact List.Perm.map _ (((applyOrdering_perm _).append (applyOrdering_perm _)).trans hsplit)
    have hrendered : (((renderPrimary A P (applyOrdering P
        (kept.filter fun x => x.1.1.recallSource ≠ some .expansion))) ++
        renderExpansion A P (applyOrdering P
          (kept.filter fun x => x.1.1.recallSource = some .expansion))).map
            fun x => x.1.2).Perm ((kept.map Prod.fst).map Prod.snd) := by
      rw [List.map_map]
      refine List.Perm.map _ (List.Perm.trans (List.Perm.append ?_ ?_) hsplit)
      · exact (renderPrimary_perm hone (hsaid.ordered _)).trans (applyOrdering_perm _)
      · exact (renderExpansion_perm (hsaid.ordered _)).trans (applyOrdering_perm _)
    have htotal := hperm.length_eq
    rw [List.length_append, List.length_map] at htotal
    have hshown : ((formatSinglePass A P hits).shown.map Prod.snd).Perm
        ((extractSupersessionChains hits).flatMap SupersessionChain.ends ++
          (kept.map Prod.fst).map Prod.snd) := by
      rw [formatSinglePass, if_neg hempty]
      simp only [hkept, hupdates, List.map_append, List.map_map, List.append_assoc]
      refine List.Perm.append (by simp [Function.comp_def]) ?_
      simpa [Function.comp_def] using hrendered
    refine Accounts.of_perm hshown ?_ ?_ ?_ ?_
    · exact (hperm.nodup_iff.2 hconsidered).sublist (hsub.append_left _)
    · exact List.Subset.trans (hsub.append_left _).subset hperm.subset
    · rw [formatSinglePass, if_neg hempty]
      simp only [hkept]
      exact (hordered.append_right _).trans List.perm_append_comm
    · rw [formatSinglePass, if_neg hempty]
      simp only [List.length_append, List.length_map] at htotal ⊢
      omega

/-- **A timeline renders every hit it counts, once.** -/
theorem accounts_timeline {hits : List Placed} (hnodup : (hits.map Prod.snd).Nodup)
    (hspoken : Spoken A P hits) : Accounts (allowed P hits) (formatTimelinePass A P hits) := by
  have hallowed : (allowed P hits).Nodup := hnodup.sublist (allowed_sublist P hits)
  have hsaid : AllSpoken A P (included A P (excludeSuperseded P (applyOverrides P hits))) :=
    hspoken.included
      ((excludeSuperseded_sublist P _).trans (applyOverridesFrom_sublist hits _)).subset
  generalize hc : excludeSuperseded P (applyOverrides P hits) = candidates at hsaid
  have hsub : (((included A P candidates).map Prod.fst).map Prod.snd).Sublist
      (allowed P hits) := by
    rw [allowed, hc]
    exact (included_sublist candidates).map _
  have hcount := included_add_omitted (A := A) (P := P) candidates
  have hsorted : (((included A P candidates).insertionSort fun a b =>
      a.1.1.createdAtSec ≤ b.1.1.createdAtSec).map fun x => x.1.2).Perm
        (((included A P candidates).map Prod.fst).map Prod.snd) := by
    rw [List.map_map]
    exact (List.perm_insertionSort _ _).map _
  have hshown : ((formatTimelinePass A P hits).shown.map Prod.snd).Perm
      (((included A P candidates).map Prod.fst).map Prod.snd) := by
    rw [formatTimelinePass]
    simp only [hc, spoken_eq (hsaid.mono (List.perm_insertionSort _ _).subset), List.map_map]
    exact hsorted.trans (.of_eq (List.map_map ..))
  refine Accounts.of_perm hshown (hallowed.sublist hsub) hsub.subset ?_ ?_
  · rw [formatTimelinePass]
    simpa only [hc] using hsorted
  · rw [formatTimelinePass]
    simpa only [hc, allowed, List.length_map] using hcount

/-! ## The census -/

/-- The hits a pass includes: both versions in an update, and those the budget lets
through. -/
def includedHits (A : ContextAssembler) (policy : FormatPolicy) (hits : List Placed) : List ℕ :=
  (extractSupersessionChains hits).flatMap SupersessionChain.ends ++
    (included A policy (filtered policy hits)).map fun x => x.1.2

/-- The hits a pass includes are the first ones, and at least one where no hit leaves
the section without a text. -/
def FirstIncluded (A : ContextAssembler) (policy : FormatPolicy) (hits : List Placed) : Prop :=
  ∃ k, (includedHits A policy hits).Perm ((hits.take k).map Prod.snd) ∧
    (0 < k ∨ policy.format = .json)

theorem ne_nil_of_perm {α : Type} {l l' : List α} (h : l.Perm l') (hne : l' ≠ []) : l ≠ [] :=
  fun hnil => hne (h.symm.trans (.of_eq hnil)).eq_nil

/-- The primary section of some entries has a text. -/
theorem primaryIsEmpty_eq_false (hone : OneSectionEach P) {l : List (Placed × Allocation)}
    (hspoken : AllSpoken A P l) (h : P.format = .json ∨ l ≠ []) :
    primaryIsEmpty A P l = false := by
  by_cases hjson : P.format = .json
  · rw [primaryIsEmpty, hjson]
  · have hne : l ≠ [] := h.resolve_left hjson
    have hrendered : (renderPrimary A P l).isEmpty = false :=
      List.isEmpty_eq_false_iff.2 (ne_nil_of_perm (renderPrimary_perm hone hspoken) hne)
    unfold primaryIsEmpty
    split
    · rfl
    · exact hrendered
    · split
      · next hgroup =>
        obtain ⟨horder, hall⟩ := hone hgroup
        have hperm : (byType (sectionOrder P) l).Perm l := byType_perm horder fun x _ => hall _
        exact List.isEmpty_eq_false_iff.2 (ne_nil_of_perm hperm hne)
      · exact hrendered

/-- A pass counts what it includes. -/
theorem counted_singlePass {hits : List Placed} (hne : hits ≠ []) :
    (formatSinglePass A P hits).counted.Perm (includedHits A P hits) := by
  have hsplit := List.filter_append_perm
    (fun x : Placed × Allocation => decide (x.1.1.recallSource ≠ some .expansion))
      (included A P (filtered P hits))
  simp only [decide_not, Bool.not_not] at hsplit
  rw [formatSinglePass, if_neg hne, includedHits]
  simp only [decide_not]
  refine List.perm_append_comm.trans (List.Perm.append_left _ ?_)
  exact List.Perm.map _ (((applyOrdering_perm _).append (applyOrdering_perm _)).trans hsplit)

/-- The text of a pass that includes a hit, or is JSON. -/
theorem isEmpty_singlePass {hits : List Placed} (hspoken : Spoken A P hits)
    (hone : OneSectionEach P) (hne : hits ≠ [])
    (h : P.format = .json ∨ includedHits A P hits ≠ []) :
    (formatSinglePass A P hits).isEmpty = false := by
  rw [formatSinglePass, if_neg hne]
  by_cases hchains : extractSupersessionChains hits = []
  case neg =>
    simp only [List.isEmpty_eq_false_iff.2 hchains, Bool.false_and]
  have hkept : P.format = .json ∨ included A P (filtered P hits) ≠ [] := by
    refine h.imp_right fun hsome hnil => hsome ?_
    rw [includedHits, hchains, hnil]
    rfl
  have hsaid : AllSpoken A P (included A P (filtered P hits)) :=
    hspoken.included (filtered_sublist hits).subset
  generalize included A P (filtered P hits) = kept at hkept hsaid
  by_cases hexp : (kept.filter fun x => x.1.1.recallSource = some .expansion) = []
  · have hprimary : P.format = .json ∨ applyOrdering P
        (kept.filter fun x => x.1.1.recallSource ≠ some .expansion) ≠ [] := by
      refine hkept.imp_right fun hkne => ne_nil_of_perm (applyOrdering_perm _)
        fun hrest => hkne ?_
      have hsplit := List.filter_append_perm
        (fun x : Placed × Allocation => decide (x.1.1.recallSource ≠ some .expansion)) kept
      rw [hrest, List.nil_append] at hsplit
      simp only [decide_not, Bool.not_not, hexp] at hsplit
      exact hsplit.symm.eq_nil
    simp only [primaryIsEmpty_eq_false hone (hsaid.ordered _) hprimary, Bool.and_false,
      Bool.false_and]
  · have hordered : (applyOrdering P
        (kept.filter fun x => x.1.1.recallSource = some .expansion)).isEmpty = false :=
      List.isEmpty_eq_false_iff.2 (ne_nil_of_perm (applyOrdering_perm _) hexp)
    simp only [hordered, Bool.and_false]

/-- **The census section renders every hit it counts, once.** -/
theorem accounts_census {hits : List Placed} (hnodup : (hits.map Prod.snd).Nodup)
    (hspoken : Spoken A P hits) (hone : OneSectionEach P) (hne : hits ≠ [])
    (hfit : UpdatesFit A P hits) (hfirst : FirstIncluded A P hits) :
    Accounts (considered P hits) (formatCensusSection A P hits) ∧
      (formatCensusSection A P hits).isEmpty = false ∧
      ((∀ x ∈ hits, A.isJson x.1 .full P = true) →
        (formatCensusSection A P hits).isDocument = true) := by
  obtain ⟨k, hk, hpos⟩ := hfirst
  have hpass := accounts_singlePass hnodup hspoken hone hfit
  have hinner := (counted_singlePass (A := A) (P := P) hne).trans hk
  have htake : hits.take (min (formatSinglePass A P hits).includedCount hits.length) =
      hits.take k := by
    rw [FormattedContext.includedCount, hinner.length_eq, List.length_map, List.length_take,
      min_assoc, min_self, ← List.take_take, List.take_length]
  have hkne : P.format ≠ .json → hits.take k ≠ [] := fun hjson hnil => by
    rcases List.take_eq_nil_iff.1 hnil with hzero | hnil
    · exact absurd hzero (hpos.resolve_right hjson).ne'
    · exact hne hnil
  have htext : (formatSinglePass A P hits).isEmpty = false := by
    refine isEmpty_singlePass hspoken hone hne ?_
    by_cases hjson : P.format = .json
    · exact .inl hjson
    · refine .inr fun hnil => hkne hjson ?_
      rw [hnil] at hk
      exact List.map_eq_nil_iff.1 hk.symm.eq_nil
  have hsub : (hits.take k).Sublist hits := List.take_sublist k hits
  have hfull : ∀ x ∈ (hits.take k).map fun x => (x, Allocation.full),
      x.1 ∈ hits ∧ x.2 = .full := by
    intro x hx
    obtain ⟨y, hy, rfl⟩ := List.mem_map.1 hx
    exact ⟨hsub.subset hy, rfl⟩
  generalize hshown : ((hits.take k).map fun x => (x, Allocation.full)) = shown at hfull
  have hsaid : AllSpoken A P shown := fun x hx =>
    hspoken x.1 (hfull x hx).1 x.2 (by rw [(hfull x hx).2]; decide)
  generalize hrendered : (if P.format = .toon then
    spoken A P (byType (firstTypes shown) shown) else shown) = rendered
  have hperm : rendered.Perm shown := by
    rw [← hrendered]
    split
    · rw [spoken_eq (hsaid.mono (byType_firstTypes_perm shown).subset)]
      exact byType_firstTypes_perm shown
    · exact .refl shown
  have hsection : formatCensusSection A P hits =
      { shown := rendered.map fun x => (Part.census, x.1.2)
        counted := (formatSinglePass A P hits).counted
        omittedCount := (formatSinglePass A P hits).omittedCount
        isEmpty := decide (P.format = .toon) && rendered.isEmpty
        isDocument := rendered.all fun x => A.isJson x.1.1 x.2 P } := by
    rw [formatCensusSection]
    simp only [htext, htake, hshown, hrendered, Bool.false_eq_true, if_false]
  have hlabels : ((formatCensusSection A P hits).shown.map Prod.snd).Perm
      (formatSinglePass A P hits).counted := by
    rw [hsection]
    have hmap := hperm.map fun x : Placed × Allocation => x.1.2
    rw [← hshown] at hmap
    refine List.Perm.trans ?_ hinner.symm
    simpa [List.map_map, Function.comp_def] using hmap
  refine ⟨⟨?_, fun x hx => ?_, ?_, ?_⟩, ?_, fun hjson => ?_⟩
  · exact hlabels.nodup_iff.2 (hpass.counted.nodup_iff.1 hpass.once)
  · have hmem := hpass.counted.symm.subset (hlabels.subset (List.mem_map_of_mem hx))
    obtain ⟨y, hy, hyx⟩ := List.mem_map.1 hmem
    exact hyx ▸ hpass.only y hy
  · rw [hsection] at hlabels ⊢
    exact hlabels
  · rw [hsection]
    exact hpass.total
  · rw [hsection]
    by_cases htoon : P.format = .toon
    · have hsome : shown ≠ [] := by
        rw [← hshown]
        exact List.map_eq_nil_iff.not.2 (hkne (by rw [htoon]; decide))
      simp [List.isEmpty_eq_false_iff.2 (ne_nil_of_perm hperm hsome)]
    · simp [htoon]
  · rw [hsection]
    refine List.all_eq_true.2 fun x hx => ?_
    obtain ⟨hmem, hx2⟩ := hfull x (hperm.subset hx)
    rw [hx2]
    exact hjson x.1 hmem

/-! ## The assembly -/

/-- What the passes consider. -/
def consideredHits (A : ContextAssembler) (policy : FormatPolicy) (hints : RenderingHints)
    (hits : List SearchHit) : List ℕ :=
  if showsTimeline A hints hits then allowed policy hits.zipIdx
  else if censusHits hits.zipIdx = [] then considered policy hits.zipIdx
  else
    considered (primaryPolicy policy) (primaryHits hits.zipIdx) ++
      considered (censusPolicy policy) (censusHits hits.zipIdx)

/-- Primary and census hits that the two passes account for. -/
structure SplitFits (A : ContextAssembler) (policy : FormatPolicy) (hits : List Placed) :
    Prop where
  primary : UpdatesFit A (primaryPolicy policy) (primaryHits hits)
  census : UpdatesFit A (censusPolicy policy) (censusHits hits)
  first : FirstIncluded A (censusPolicy policy) (censusHits hits)
  /-- In JSON the two sections are documents that can be merged. -/
  merges : policy.format = .json →
    (∀ x ∈ primaryHits hits, ∀ alloc, alloc ≠ .omit →
      A.isJson x.1 alloc (primaryPolicy policy) = true) ∧
    (∀ x ∈ censusHits hits, A.isJson x.1 .full (censusPolicy policy) = true) ∧
    primaryHits hits ≠ [] ∧ ∀ x ∈ primaryHits hits, x.1.recallSource ≠ some .expansion

/-- The renderers give a text under the policies of the passes. -/
def RendersText (A : ContextAssembler) (policy : FormatPolicy) (hints : RenderingHints)
    (hits : List SearchHit) : Prop :=
  if showsTimeline A hints hits = true ∨ censusHits hits.zipIdx = [] then
    Spoken A policy hits.zipIdx
  else
    Spoken A (primaryPolicy policy) (primaryHits hits.zipIdx) ∧
      Spoken A (censusPolicy policy) (censusHits hits.zipIdx)

/-- Hits that the assembly accounts for: a timeline, or sections without a clash. -/
def Fits (A : ContextAssembler) (policy : FormatPolicy) (hints : RenderingHints)
    (hits : List SearchHit) : Prop :=
  showsTimeline A hints hits = true ∨ OneSectionEach policy ∧
    if censusHits hits.zipIdx = [] then UpdatesFit A policy hits.zipIdx
    else SplitFits A policy hits.zipIdx

theorem nodup_positions (hits : List SearchHit) : (hits.zipIdx.map Prod.snd).Nodup := by
  rw [List.zipIdx_map_snd]
  exact List.nodup_range'

theorem primaryHits_append_censusHits_perm (hits : List Placed) :
    (primaryHits hits ++ censusHits hits).Perm hits := by
  have h := List.filter_append_perm
    (fun x : Placed => decide (x.1.recallSource ≠ some .census)) hits
  simpa [primaryHits, censusHits] using h

/-- A pass over documents without expansions is a document. -/
theorem isDocument_singlePass {hits : List Placed} (hne : hits ≠ [])
    (hjson : ∀ x ∈ hits, ∀ alloc, alloc ≠ .omit → A.isJson x.1 alloc P = true)
    (hsaid : Spoken A P hits) (hone : OneSectionEach P)
    (hexp : ∀ x ∈ hits, x.1.recallSource ≠ some .expansion) :
    (formatSinglePass A P hits).isDocument = true := by
  have hnone : ((included A P (filtered P hits)).filter
      fun x => x.1.1.recallSource = some .expansion) = [] := by
    refine List.filter_eq_nil_iff.2 fun x hx => ?_
    have hmem : x.1 ∈ filtered P hits :=
      (included_sublist _).subset (List.mem_map_of_mem hx)
    have hhits : x.1 ∈ hits := (applyOverridesFrom_sublist hits _).subset
      (List.mem_of_mem_filter ((excludeSuperseded_sublist _ _).subset hmem))
    simpa using hexp x.1 hhits
  have hordered : applyOrdering P ((included A P (filtered P hits)).filter
      fun x => x.1.1.recallSource = some .expansion) = [] := by
    have hlength := (applyOrdering_perm (P := P)
      ((included A P (filtered P hits)).filter
        fun x => x.1.1.recallSource = some .expansion)).length_eq
    rw [hnone] at hlength ⊢
    exact List.length_eq_zero_iff.1 hlength
  have hincluded : AllSpoken A P (included A P (filtered P hits)) :=
    hsaid.included (filtered_sublist hits).subset
  have hmain := (renderPrimary_perm hone (hincluded.ordered
    fun x => x.1.1.recallSource ≠ some .expansion)).trans (applyOrdering_perm _)
  rw [formatSinglePass, if_neg hne]
  simp only [hordered, List.isEmpty_nil, Bool.true_and, List.all_eq_true]
  intro x hx
  have hkept := (List.mem_filter.1 (hmain.subset hx)).1
  have hmem : x.1 ∈ hits := (filtered_sublist hits).subset
    ((included_sublist _).subset (List.mem_map_of_mem hkept))
  exact hjson x.1 hmem x.2 (of_decide_eq_true (List.mem_filter.1 hkept).2)

end

/-! ### On fixed hits -/

/-- An assembler that renders every grain as one word. -/
def plainAssembler : ContextAssembler where
  contextPriority _ := 1 / 2
  tokenEstimate _ _ := 1
  renderOne _ _ _ := "grain"
  isJson _ _ _ := false
  toLowercase q := q
  order := .inserted

/-- A policy without a budget. -/
def plainPolicy : FormatPolicy where
  format := .plainText
  metadata := .minimal
  ordering := .byRelevance
  groupByType := false
  typeOrder := []
  tokenBudget := none
  grainOverrides _ := none
  queryText := none
  grainTypeDiversity := none

/-- A fact under a hash of one byte, repeated. -/
def factHit (byte : UInt8) (status : Option SupersessionStatus) (by' : Option UInt8)
    (source : RecallSource) : SearchHit where
  hash := ⟨List.replicate 32 byte, List.length_replicate⟩
  grainType := .fact
  createdAtSec := 1
  subject := "ann"
  score := 1
  supersessionStatus := status
  supersededByHash := by'.map fun b => ⟨List.replicate 32 b, List.length_replicate⟩
  recallSource := some source

/-- An update, a fact of its own and two facts of other sessions. -/
def mixedHits : List SearchHit :=
  [factHit 1 (some .superseded) (some 2) .primary, factHit 2 (some .current) none .primary,
    factHit 3 none none .primary, factHit 4 none none .census, factHit 5 none none .census]

theorem plainAssembler_spoken (policy : FormatPolicy) (hits : List Placed) :
    Spoken plainAssembler policy hits := by
  intro x _ alloc _
  simp [plainAssembler]

end Deja.Context
