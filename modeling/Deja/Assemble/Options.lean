import Mathlib.Data.Finset.Card
import Deja.Assemble.Budget
import Deja.Lib.Blocks
import Deja.Lib.Text

/-!
# The options over the merged result

After the engine has merged the sources, the `WITH` options of the query remove
and reorder grains of the flat list.  The metadata of the sources stays as the
engine left it, and `FORMAT` later cuts the list by the counts in it.

What an option removes takes the list out of step with the counts, and so does
an order that mixes the sources; nothing else does.

* `length_applyOption_iff` — when one option removes nothing.
* `applyOptions_eq` — the list where none of them does.
-/

namespace Deja.Assemble

/-! ## The options -/

/-- The `WITH` options the merged result is put through; `other` is every
option that is applied to each source, or not at all. -/
inductive WithOption where
  | conflictResolution
  | dedup (field : Option String)
  | minScore (score : ℚ)
  | diversity
  | other
  deriving DecidableEq

/-- What the options read of a grain beside its hash and its fields, and what
they take from the libraries.  Scores are finite. -/
structure Reading where
  grainType : CalGrainResult → String
  score : CalGrainResult → ℚ
  isDeterministic : CalGrainResult → Bool
  /-- `char::is_whitespace`. -/
  isWhitespace : Char → Bool
  /-- `str::to_lowercase`. -/
  toLowercase : List Char → List Char
  /-- `Value::to_string`. -/
  toString : Json → String

/-- A field as text, empty where it has none. -/
def textField (field : String) (g : CalGrainResult) : String :=
  ((g.fields.get field).bind Json.asStr).getD ""

/-! ### conflict_resolution -/

/-- The group of a grain: its subject and relation, unless both are empty. -/
def conflictKey (g : CalGrainResult) : Option (String × String) :=
  let subj := textField "subject" g
  let rel := textField "relation" g
  if subj = "" ∧ rel = "" then none else some (subj, rel)

/-- When a grain says it was created; zero where it does not. -/
def createdAt (g : CalGrainResult) : ℤ := ((g.fields.get "created_at").bind Json.asI64).getD 0

/-- A member of a group: when it was created, its index and its object. -/
abbrev Member := ℤ × ℕ × String

/-- The members of the group of `key`, in list order. -/
def members (grains : List CalGrainResult) (key : String × String) : List Member :=
  (grains.zipIdx.filter fun e => conflictKey e.1 = some key).map fun e =>
    (createdAt e.1, e.2, textField "object" e.1)

/-- `windows(2)`: two neighbours have different objects. -/
def hasDiff (ms : List Member) : Bool := (ms.zip ms.tail).any fun w => w.1.2.2 ≠ w.2.2.2

/-- `max_by_key`: the last of the newest members. -/
def bestIdx : List Member → Option ℕ
  | [] => none
  | m :: ms => some (ms.foldl (fun best m => if best.1 ≤ m.1 then m else best) m).2.1

/-- The indices of the grains that conflict resolution removes. -/
def removeIndices (grains : List CalGrainResult) : List ℕ :=
  (grains.filterMap conflictKey).flatMap fun key =>
    let ms := members grains key
    if hasDiff ms then (ms.map fun m => m.2.1).filter fun idx => some idx ≠ bestIdx ms else []

/-- Keep only the newest grain of each group whose objects differ. -/
def resolveConflicts (grains : List CalGrainResult) : List CalGrainResult :=
  (grains.zipIdx.filter fun e => e.2 ∉ removeIndices grains).map Prod.fst

/-! ### dedup -/

/-- Go through a list and keep what has no mark, or a mark that clashes with
none of those seen. -/
def retainNew {α μ : Type} (mark : α → Option μ) (clash : μ → μ → Bool) : List μ → List α → List α
  | _, [] => []
  | seen, x :: xs =>
    match mark x with
    | none => x :: retainNew mark clash seen xs
    | some m =>
      if seen.any (clash m) then retainNew mark clash seen xs
      else x :: retainNew mark clash (m :: seen) xs

section Reading

variable (R : Reading)

/-- `value_dedup_key`. -/
def valueDedupKey : Json → String
  | .str s => s
  | v => R.toString v

/-- `str::trim`. -/
def trimText (s : String) : String := String.ofList (Text.trim R.isWhitespace s.toList)

/-- The words of a text. -/
def splitWhitespace (s : String) : List (List Char) :=
  (s.toList.splitOnP R.isWhitespace).filter fun w => !w.isEmpty

/-- The pairs of neighbouring words; one word alone makes a pair with nothing. -/
def bigrams : List (List Char) → Finset (List Char × List Char)
  | [w] => {(R.toLowercase w, [])}
  | words => ((words.zip words.tail).map fun w => (R.toLowercase w.1, R.toLowercase w.2)).toFinset

/-- Jaccard over the word bigrams.  The quotient is exact: up to 2 ^ 48 bigrams
its double stands to that of 0.85 as the quotient does. -/
def textSimilarity (a b : String) : ℚ :=
  let wordsA := splitWhitespace R a
  let wordsB := splitWhitespace R b
  if a = b then 1
  else if wordsA = [] ∧ wordsB = [] then 1
  else if wordsA = [] ∨ wordsB = [] then 0
  else
    let union := (bigrams R wordsA ∪ bigrams R wordsB).card
    if union = 0 then 1 else (bigrams R wordsA ∩ bigrams R wordsB).card / union

/-- The text fields of the grains that are no facts, in the order they are
tried. -/
def textFields : List String :=
  ["content", "description", "title", "goal", "query", "result", "output"]

/-- `grain_result_text`. -/
def grainResultText (g : CalGrainResult) : String :=
  if R.grainType g = "fact" then
    trimText R (textField "subject" g ++ " " ++ textField "relation" g ++ " " ++
      textField "object" g)
  else
    ((textFields.filterMap fun f => (g.fields.get f).bind Json.asStr).find? fun s =>
      trimText R s ≠ "").getD (R.grainType g)

/-- What `dedup` compares grains by: the value of the field, or the whole text. -/
def dedupMark : Option String → CalGrainResult → Option String
  | some field, g => (g.fields.get field).map (valueDedupKey R)
  | none, g => some (grainResultText R g)

/-- When a mark repeats one seen before. -/
def dedupClash : Option String → String → String → Bool
  | some _, key, prev => key = prev
  | none, text, prev => 17 / 20 ≤ textSimilarity R text prev

/-- One option on the flat list. -/
def applyOption (grains : List CalGrainResult) : WithOption → List CalGrainResult
  | .conflictResolution => resolveConflicts grains
  | .dedup field => retainNew (dedupMark R field) (dedupClash R field) [] grains
  | .minScore score => grains.filter fun g => R.isDeterministic g || score ≤ R.score g
  | .diversity => grains.insertionSort fun a b => R.score b ≤ R.score a
  | .other => grains

/-- `apply_assemble_post_merge_options`, of an `Assembled` payload. -/
def applyAssemblePostMergeOptions (options : List WithOption) (a : Assembled) : Assembled :=
  let grains := options.foldl (applyOption R) a.grains
  { a with
    grains := grains
    progressive := false
    totalAvailable := some grains.length }

/-- The multi-source path of `execute_assemble`, up to the `FORMAT` clause. -/
def executeAssemble {Q E : Type} (textLen : Json → ℕ)
    (executeSource : NamedSource Q → Except E (List CalGrainResult)) (stmt : AssembleStmt Q)
    (withOptions : List WithOption) : Except (CalError E) Payload :=
  match execute textLen executeSource stmt with
  | .error e => .error e
  | .ok (.grains gs n) => .ok (.grains gs n)
  | .ok (.assembled a) =>
    if withOptions.isEmpty then .ok (.assembled a)
    else .ok (.assembled (applyAssemblePostMergeOptions R withOptions a))

end Reading

/-! ## The render plan -/

/-- A source as `FORMAT` shows it. -/
structure RenderSource where
  label : String
  grains : List CalGrainResult
  omitted : List CalGrainResult
  priority : ℕ
  tokensUsed : ℕ
  truncated : Bool

/-- Walk the boundaries of the sources back out, from source `i` on. -/
def renderSourcesFrom : ℕ → List SourceMeta → List CalGrainResult → List RenderSource
  | _, [], _ => []
  | i, m :: metas, grains =>
    { label := m.label
      grains := grains.take m.grainCount
      omitted := m.omitted
      priority := i + 1
      tokensUsed := m.tokensUsed
      truncated := !m.omitted.isEmpty } ::
        renderSourcesFrom (i + 1) metas (grains.drop m.grainCount)

/-- The sources of the render plan of a payload. -/
def renderSources (a : Assembled) : List RenderSource := renderSourcesFrom 0 a.sources a.grains

/-- The blocks that the plan shows are the cut of the list by the counts. -/
theorem renderSourcesFrom_grains (metas : List SourceMeta) :
    ∀ (i : ℕ) (grains : List CalGrainResult),
      (renderSourcesFrom i metas grains).map (·.grains) =
        Blocks.cut (metas.map (·.grainCount)) grains := by
  induction metas with
  | nil => intro i grains; rfl
  | cons m metas ih => intro i grains; simp [renderSourcesFrom, Blocks.cut, ih]

theorem renderSources_grains (a : Assembled) :
    (renderSources a).map (·.grains) = Blocks.cut (a.sources.map (·.grainCount)) a.grains :=
  renderSourcesFrom_grains a.sources 0 a.grains

theorem renderSourcesFrom_labels (metas : List SourceMeta) :
    ∀ (i : ℕ) (grains : List CalGrainResult),
      (renderSourcesFrom i metas grains).map (·.label) = metas.map (·.label) := by
  induction metas with
  | nil => intro i grains; rfl
  | cons m metas ih => intro i grains; simp [renderSourcesFrom, ih]

theorem renderSources_labels (a : Assembled) :
    (renderSources a).map (·.label) = a.sources.map (·.label) :=
  renderSourcesFrom_labels a.sources 0 a.grains

/-! ## When an option removes nothing -/

/-- Two grains of one subject and relation with different objects. -/
def Conflicting (grains : List CalGrainResult) (key : String × String) : Prop :=
  ∃ g ∈ grains, ∃ g' ∈ grains, conflictKey g = some key ∧ conflictKey g' = some key ∧
    textField "object" g ≠ textField "object" g'

theorem hasDiff_cons_eq_false {m : Member} {ms : List Member} :
    hasDiff (m :: ms) = false ↔ ∀ m' ∈ ms, m'.2.2 = m.2.2 := by
  induction ms generalizing m with
  | nil => simp [hasDiff]
  | cons n ms ih =>
    have hstep : hasDiff (m :: n :: ms) = false ↔ m.2.2 = n.2.2 ∧ hasDiff (n :: ms) = false := by
      simp [hasDiff]
    rw [hstep, ih]
    constructor
    · rintro ⟨hmn, hrest⟩ m' hm'
      rcases List.mem_cons.1 hm' with rfl | hm'
      · exact hmn.symm
      · exact (hrest m' hm').trans hmn.symm
    · intro h
      have hn := h n List.mem_cons_self
      exact ⟨hn.symm, fun m' hm' => (h m' (List.mem_cons_of_mem _ hm')).trans hn.symm⟩

theorem hasDiff_eq_true {ms : List Member} :
    hasDiff ms = true ↔ ∃ m ∈ ms, ∃ m' ∈ ms, m.2.2 ≠ m'.2.2 := by
  rw [← not_iff_not, Bool.not_eq_true]
  push Not
  cases ms with
  | nil => simp [hasDiff]
  | cons m ms =>
    rw [hasDiff_cons_eq_false]
    constructor
    · intro h
      have hall : ∀ n ∈ m :: ms, n.2.2 = m.2.2 := by simpa using h
      exact fun n hn n' hn' => (hall n hn).trans (hall n' hn').symm
    · exact fun h m' hm' => h m' (List.mem_cons_of_mem _ hm') m List.mem_cons_self

theorem mem_members {grains : List CalGrainResult} {key : String × String} {m : Member} :
    m ∈ members grains key ↔ ∃ g, grains[m.2.1]? = some g ∧ conflictKey g = some key ∧
      createdAt g = m.1 ∧ textField "object" g = m.2.2 := by
  simp only [members, List.mem_map, List.mem_filter, decide_eq_true_eq,
    List.mem_zipIdx_iff_getElem?]
  constructor
  · rintro ⟨⟨g, i⟩, ⟨hg, hkey⟩, rfl⟩
    exact ⟨g, hg, hkey, rfl, rfl⟩
  · rintro ⟨g, hg, hkey, hcreated, hobject⟩
    exact ⟨(g, m.2.1), ⟨hg, hkey⟩, by rw [hcreated, hobject]⟩

theorem conflicting_iff_hasDiff {grains : List CalGrainResult} {key : String × String} :
    Conflicting grains key ↔ hasDiff (members grains key) = true := by
  rw [hasDiff_eq_true]
  constructor
  · rintro ⟨g, hg, g', hg', hkey, hkey', hne⟩
    obtain ⟨i, hi⟩ := List.mem_iff_getElem?.1 hg
    obtain ⟨j, hj⟩ := List.mem_iff_getElem?.1 hg'
    exact ⟨(createdAt g, i, textField "object" g), mem_members.2 ⟨g, hi, hkey, rfl, rfl⟩,
      (createdAt g', j, textField "object" g'), mem_members.2 ⟨g', hj, hkey', rfl, rfl⟩, hne⟩
  · rintro ⟨m, hm, m', hm', hne⟩
    obtain ⟨g, hg, hkey, -, hobj⟩ := mem_members.1 hm
    obtain ⟨g', hg', hkey', -, hobj'⟩ := mem_members.1 hm'
    refine ⟨g, List.mem_of_getElem? hg, g', List.mem_of_getElem? hg', hkey, hkey', ?_⟩
    rwa [hobj, hobj']

theorem mem_removeIndices {grains : List CalGrainResult} {i : ℕ} :
    i ∈ removeIndices grains ↔ ∃ key, Conflicting grains key ∧
      some i ≠ bestIdx (members grains key) ∧ ∃ m ∈ members grains key, m.2.1 = i := by
  simp only [removeIndices, List.mem_flatMap, List.mem_filterMap]
  constructor
  · rintro ⟨key, -, hi⟩
    split at hi
    · next hdiff =>
      obtain ⟨hm, hne⟩ := List.mem_filter.1 hi
      exact ⟨key, conflicting_iff_hasDiff.2 hdiff, by simpa using hne, List.mem_map.1 hm⟩
    · cases hi
  · rintro ⟨key, hconf, hne, m, hm, hi⟩
    obtain ⟨g, hg, hkey, -⟩ := mem_members.1 hm
    refine ⟨key, ⟨g, List.mem_of_getElem? hg, hkey⟩, ?_⟩
    rw [if_pos (conflicting_iff_hasDiff.1 hconf)]
    exact List.mem_filter.2 ⟨List.mem_map.2 ⟨m, hm, hi⟩, by simpa using hne⟩

/-- Of two members with different objects one is not the best. -/
theorem removeIndices_ne_nil {grains : List CalGrainResult} {key : String × String}
    (h : Conflicting grains key) : ∃ i g, grains[i]? = some g ∧ i ∈ removeIndices grains := by
  obtain ⟨m, hm, m', hm', hne⟩ := hasDiff_eq_true.1 (conflicting_iff_hasDiff.1 h)
  obtain ⟨g, hg, -, -, hobj⟩ := mem_members.1 hm
  obtain ⟨g', hg', -, -, hobj'⟩ := mem_members.1 hm'
  have hidx : m.2.1 ≠ m'.2.1 := by
    intro heq
    rw [heq, hg'] at hg
    obtain rfl := Option.some.inj hg
    exact hne (hobj.symm.trans hobj')
  by_cases hbest : some m.2.1 = bestIdx (members grains key)
  · refine ⟨m'.2.1, g', hg', mem_removeIndices.2 ⟨key, h, ?_, m', hm', rfl⟩⟩
    rw [← hbest]
    exact fun heq => hidx (Option.some.inj heq).symm
  · exact ⟨m.2.1, g, hg, mem_removeIndices.2 ⟨key, h, hbest, m, hm, rfl⟩⟩

theorem length_resolveConflicts_iff {grains : List CalGrainResult} :
    (resolveConflicts grains).length = grains.length ↔ ∀ key, ¬ Conflicting grains key := by
  have hlen : (resolveConflicts grains).length = grains.length ↔
      ∀ e ∈ grains.zipIdx, e.2 ∉ removeIndices grains := by
    rw [resolveConflicts, List.length_map, ← List.length_zipIdx (l := grains) (i := 0),
      List.length_filter_eq_length_iff]
    simp
  rw [hlen]
  constructor
  · intro h key hconf
    obtain ⟨i, g, hg, hi⟩ := removeIndices_ne_nil hconf
    exact h (g, i) (List.mem_zipIdx_iff_getElem?.2 hg) hi
  · intro h e _ he
    obtain ⟨key, hconf, -⟩ := mem_removeIndices.1 he
    exact h key hconf

/-- Two elements whose marks, if they have one, do not clash. -/
def Apart {α μ : Type} (mark : α → Option μ) (clash : μ → μ → Bool) (x y : α) : Prop :=
  ∀ m m', mark x = some m → mark y = some m' → clash m' m = false

theorem Apart.symm {α μ : Type} {mark : α → Option μ} {clash : μ → μ → Bool}
    (hclash : ∀ m m', clash m m' = clash m' m) {x y : α} (h : Apart mark clash x y) :
    Apart mark clash y x := by
  intro m m' hm hm'
  rw [hclash]
  exact h m' m hm' hm

theorem retainNew_sublist {α μ : Type} (mark : α → Option μ) (clash : μ → μ → Bool)
    (l : List α) : ∀ seen, (retainNew mark clash seen l).Sublist l := by
  induction l with
  | nil => intro seen; exact .slnil
  | cons x l ih =>
    intro seen
    unfold retainNew
    split
    · exact (ih seen).cons_cons x
    · split
      · exact (ih seen).cons x
      · exact (ih _).cons_cons x

/-- A mark that clashes with none of the marks seen. -/
def Fresh {α μ : Type} (mark : α → Option μ) (clash : μ → μ → Bool) (seen : List μ) (x : α) :
    Prop := ∀ m, mark x = some m → ∀ s ∈ seen, clash m s = false

theorem length_retainNew_iff {α μ : Type} {mark : α → Option μ} {clash : μ → μ → Bool}
    (l : List α) : ∀ {seen}, (retainNew mark clash seen l).length = l.length ↔
      (∀ x ∈ l, Fresh mark clash seen x) ∧ l.Pairwise (Apart mark clash) := by
  induction l with
  | nil =>
    intro seen
    simp [retainNew]
  | cons x l ih =>
    intro seen
    cases hmark : mark x with
    | none =>
      have hx : Fresh mark clash seen x := by
        intro m hm
        rw [hmark] at hm
        cases hm
      have hapart : ∀ y ∈ l, Apart mark clash x y := by
        intro y _ m m' hm
        rw [hmark] at hm
        cases hm
      simp only [retainNew, hmark, List.length_cons, Nat.add_right_cancel_iff, ih,
        List.forall_mem_cons, List.pairwise_cons, hx, true_and]
      tauto
    | some m =>
      by_cases hseen : seen.any (clash m) = true
      · have hle := (retainNew_sublist mark clash l seen).length_le
        have hstale : ¬ Fresh mark clash seen x := by
          obtain ⟨s, hs, hclash⟩ := List.any_eq_true.1 hseen
          intro h
          rw [h m hmark s hs] at hclash
          cases hclash
        simp only [retainNew, hmark, if_pos hseen, List.length_cons, List.forall_mem_cons, hstale,
          false_and, iff_false]
        omega
      · have hx : Fresh mark clash seen x := by
          intro m' hm' s hs
          obtain rfl := Option.some.inj (hmark.symm.trans hm')
          have := fun h => hseen (List.any_eq_true.2 ⟨s, hs, h⟩)
          simpa using this
        have hfresh : ∀ y, Fresh mark clash (m :: seen) y ↔
            Apart mark clash x y ∧ Fresh mark clash seen y := by
          intro y
          simp only [Fresh, Apart, hmark, List.forall_mem_cons, Option.some.injEq]
          constructor
          · intro h
            refine ⟨?_, fun m' hm' => (h m' hm').2⟩
            rintro _ m' rfl hm'
            exact (h m' hm').1
          · rintro ⟨hapart, h⟩ m' hm'
            exact ⟨hapart m m' rfl hm', h m' hm'⟩
        simp only [retainNew, hmark, if_neg hseen, List.length_cons, Nat.add_right_cancel_iff, ih,
          hfresh, List.forall_mem_cons, hx, true_and, List.pairwise_cons]
        constructor
        · rintro ⟨h, hpair⟩
          exact ⟨fun y hy => (h y hy).2, fun y hy => (h y hy).1, hpair⟩
        · rintro ⟨h, hapart, hpair⟩
          exact ⟨fun y hy => ⟨hapart y hy, h y hy⟩, hpair⟩

/-! ## What all the options leave -/

variable (R : Reading)

theorem textSimilarity_comm (a b : String) : textSimilarity R a b = textSimilarity R b a := by
  simp only [textSimilarity, Finset.union_comm (bigrams R (splitWhitespace R a)),
    Finset.inter_comm (bigrams R (splitWhitespace R a)), eq_comm (a := a) (b := b),
    and_comm (a := splitWhitespace R a = []), or_comm (a := splitWhitespace R a = [])]

theorem dedupClash_comm (field : Option String) (m m' : String) :
    dedupClash R field m m' = dedupClash R field m' m := by
  cases field with
  | none => simp only [dedupClash, textSimilarity_comm R m m']
  | some f => simp only [dedupClash, eq_comm (a := m)]

/-- What has to hold of a list for an option to remove nothing from it: no two
grains conflict, no two of them are duplicates, every score is high enough. -/
def Keeps (grains : List CalGrainResult) : WithOption → Prop
  | .conflictResolution => ∀ key, ¬ Conflicting grains key
  | .dedup field => grains.Pairwise (Apart (dedupMark R field) (dedupClash R field))
  | .minScore score => ∀ g ∈ grains, R.isDeterministic g ∨ score ≤ R.score g
  | .diversity => True
  | .other => True

/-- The list by descending score. -/
abbrev byScore (grains : List CalGrainResult) : List CalGrainResult :=
  grains.insertionSort fun a b => R.score b ≤ R.score a

theorem resolveConflicts_sublist (grains : List CalGrainResult) :
    (resolveConflicts grains).Sublist grains := by
  have h := (List.filter_sublist (l := grains.zipIdx)
    (p := fun e => decide (e.2 ∉ removeIndices grains))).map Prod.fst
  rwa [List.zipIdx_map_fst] at h

theorem applyOption_sublist {opt : WithOption} (h : opt ≠ .diversity)
    (grains : List CalGrainResult) : (applyOption R grains opt).Sublist grains := by
  cases opt with
  | conflictResolution => exact resolveConflicts_sublist grains
  | dedup field => exact retainNew_sublist _ _ grains []
  | minScore score => exact List.filter_sublist
  | diversity => exact absurd rfl h
  | other => exact List.Sublist.refl grains

theorem applyOption_subperm (opt : WithOption) (grains : List CalGrainResult) :
    (applyOption R grains opt).Subperm grains := by
  by_cases h : opt = .diversity
  · subst h
    exact (List.perm_insertionSort _ grains).subperm
  · exact (applyOption_sublist R h grains).subperm

/-- **An option removes nothing exactly where it keeps the list.** -/
theorem length_applyOption_iff (opt : WithOption) (grains : List CalGrainResult) :
    (applyOption R grains opt).length = grains.length ↔ Keeps R grains opt := by
  cases opt with
  | conflictResolution => exact length_resolveConflicts_iff
  | dedup field =>
    have hfresh : ∀ x ∈ grains, Fresh (dedupMark R field) (dedupClash R field) [] x := by
      intro x _ m _ s hs
      cases hs
    simp only [applyOption, Keeps, length_retainNew_iff, and_iff_right hfresh]
  | minScore score => simp [applyOption, Keeps, List.length_filter_eq_length_iff]
  | diversity => simp [applyOption, Keeps]
  | other => simp [applyOption, Keeps]

theorem Keeps.of_perm {R : Reading} {grains grains' : List CalGrainResult} {opt : WithOption}
    (hperm : grains.Perm grains') (h : Keeps R grains opt) : Keeps R grains' opt := by
  cases opt with
  | conflictResolution =>
    rintro key ⟨g, hg, g', hg', hrest⟩
    exact h key ⟨g, hperm.mem_iff.2 hg, g', hperm.mem_iff.2 hg', hrest⟩
  | dedup field =>
    exact h.perm hperm fun hxy => hxy.symm (dedupClash_comm R field)
  | minScore score => exact fun g hg => h g (hperm.mem_iff.2 hg)
  | diversity => trivial
  | other => trivial

/-- An option that keeps a list at most sorts it. -/
theorem applyOption_eq {opt : WithOption} {grains : List CalGrainResult}
    (h : Keeps R grains opt) :
    applyOption R grains opt = if opt = .diversity then byScore R grains else grains := by
  by_cases hdiv : opt = .diversity
  · subst hdiv
    rfl
  · rw [if_neg hdiv]
    exact (applyOption_sublist R hdiv grains).eq_of_length ((length_applyOption_iff R _ _).2 h)

theorem applyOption_perm {opt : WithOption} {grains : List CalGrainResult}
    (h : Keeps R grains opt) : (applyOption R grains opt).Perm grains := by
  refine (applyOption_subperm R opt grains).perm_of_length_le ?_
  exact ((length_applyOption_iff R opt grains).2 h).ge

theorem applyOptions_subperm (options : List WithOption) :
    ∀ grains, (options.foldl (applyOption R) grains).Subperm grains := by
  induction options with
  | nil => intro grains; exact .refl grains
  | cons opt options ih =>
    intro grains
    exact (ih _).trans (applyOption_subperm R opt grains)

/-- The options together remove nothing exactly where each keeps the list as it
was before any of them. -/
theorem length_applyOptions_iff (options : List WithOption) :
    ∀ grains, (options.foldl (applyOption R) grains).length = grains.length ↔
      ∀ opt ∈ options, Keeps R grains opt := by
  induction options with
  | nil => simp
  | cons opt options ih =>
    intro grains
    have hle := (applyOptions_subperm R options (applyOption R grains opt)).length_le
    have hle' := (applyOption_subperm R opt grains).length_le
    rw [List.foldl_cons, List.forall_mem_cons]
    constructor
    · intro h
      have hopt := (length_applyOption_iff R opt grains).1 (by omega)
      refine ⟨hopt, fun opt' hopt' => ?_⟩
      exact ((ih _).1 (by omega) opt' hopt').of_perm (applyOption_perm R hopt)
    · rintro ⟨hopt, hrest⟩
      have hperm := applyOption_perm R hopt
      rw [← hperm.length_eq]
      exact (ih _).2 fun opt' hopt' => (hrest opt' hopt').of_perm hperm.symm

theorem byScore_byScore (grains : List CalGrainResult) :
    byScore R (byScore R grains) = byScore R grains := by
  have : Std.Total fun a b => R.score b ≤ R.score a := ⟨fun a b => le_total _ _⟩
  have : IsTrans CalGrainResult fun a b => R.score b ≤ R.score a :=
    ⟨fun a b c hab hbc => hbc.trans hab⟩
  exact (List.pairwise_insertionSort (fun a b => R.score b ≤ R.score a) grains).insertionSort_eq

/-- Where nothing is removed, `diversity` alone changes the list. -/
theorem applyOptions_eq (options : List WithOption) :
    ∀ {grains}, (∀ opt ∈ options, Keeps R grains opt) →
      options.foldl (applyOption R) grains =
        if .diversity ∈ options then byScore R grains else grains := by
  induction options with
  | nil => simp
  | cons opt options ih =>
    intro grains h
    obtain ⟨hopt, hrest⟩ := List.forall_mem_cons.1 h
    have hnext := ih fun opt' hopt' => (hrest opt' hopt').of_perm (applyOption_perm R hopt).symm
    rw [List.foldl_cons, hnext, applyOption_eq R hopt]
    by_cases hdiv : opt = .diversity
    · subst hdiv
      simp [byScore_byScore]
    · have hdiv' : WithOption.diversity ≠ opt := fun heq => hdiv heq.symm
      simp [hdiv, hdiv']

end Deja.Assemble
