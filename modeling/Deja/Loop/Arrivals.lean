import Deja.Loop.Checkpoints

/-!
# What a run counts as new

A run tells what has arrived from the times of the grains alone: it counts those
created after the watermark, and one that completes moves the watermark to its own
time.  So a grain is counted by the first completed run after its arrival and by none
after that exactly where it was created after the last completed run before its arrival
and not after the next one (`arrivals_counted_once`).  A grain that is imported late is
never counted (`late_arrival_missed`).
-/

namespace Deja.Loop

open Prog

/-! ## The user grains of a store -/

/-- A grain of the op-log, with the number of rows before its own. -/
structure Logged where
  place : ℕ
  grain : GrainRecord

/-- `MAX_SCAN`. -/
def maxScan : ℕ := 1000000

/-- The namespaces whose grains are not user data. -/
def reservedNs (ns : String) : Bool :=
  ns = "deja-loop" || ['a', 'g', 'e', 'n', 't', ':'].isPrefixOf ns.toList

section Reads

variable (mayRead : String → Bool) (log : List Logged)

/-- `recent_ns`. -/
def recentNs (ns t : String) : List GrainRecord :=
  if mayRead ns then
    (((log.map Logged.grain).filter fun g => g.namespace_ = ns && g.grainType = t).reverse).take
      maxScan
  else []

/-- `all_grains`. -/
def allGrains (t : String) : List GrainRecord :=
  ((log.filter (·.place < maxScan)).map Logged.grain).filter fun g =>
    g.grainType = t && mayRead g.namespace_

/-- `derived_parents`. -/
def derivedParents (g : GrainRecord) : List String :=
  match g.fields.lookup "derived_from" with
  | some (.str s) => [s]
  | some (.arr a) => a.filterMap Json.asStr
  | _ => []

/-- `read_user_type`. -/
def readUserType (t : String) (ns : Option String) (opts : ReadOpts) : List GrainRecord :=
  let raw := match ns with
    | some ns => recentNs mayRead log ns t
    | none => allGrains mayRead log t
  let superseded := raw.flatMap derivedParents
  raw.filter fun g => !reservedNs g.namespace_ && !(opts.liveOnly && g.hash ∈ superseded) &&
    opts.sinceMs.all (· ≤ g.createdAtMs)

end Reads

/-- The types `count_new` looks at. -/
def countedTypes : List String := ["fact", "event", "tool", "observation"]

/-- A substrate whose user grains are those of an op-log. -/
structure Substrate.ReadsLog (S : Substrate (List Logged)) (mayRead : String → Bool) : Prop where
  reads : ∀ t ∈ countedTypes, ∀ ns opts m,
    S.grainsOfType t ns opts m = readUserType mayRead m.user t ns opts

/-- Whether a run counts a grain as new. -/
def Logged.newTo (x : Logged) (mayRead : String → Bool) (watermark : Option ℤ) : Bool :=
  x.place < maxScan && x.grain.grainType ∈ countedTypes && mayRead x.grain.namespace_ &&
    !reservedNs x.grain.namespace_ && watermark.all (· < x.grain.createdAtMs)

/-! ## The count of a run -/

variable {S : Substrate (List Logged)} {mayRead : String → Bool} {E : Engine}
  {m m' : Memory (List Logged)} {opts : RunOptions} {nowMs : ℤ}

theorem readUserType_new {log : List Logged} {watermark : Option ℤ} {t : String}
    (ht : t ∈ countedTypes) :
    readUserType mayRead log t none ⟨false, watermark.map (· + 1)⟩ =
      (log.filter fun x => x.newTo mayRead watermark && x.grain.grainType = t).map
        Logged.grain := by
  unfold readUserType allGrains
  rw [List.filter_filter, List.filter_map, List.filter_filter]
  refine congrArg (List.map Logged.grain) (List.filter_congr fun x _ => ?_)
  unfold Logged.newTo
  by_cases hx : x.grain.grainType = t
  · have hmem : x.grain.grainType ∈ countedTypes := hx ▸ ht
    cases watermark with
    | none => simp [hx, ht, Bool.and_comm, Bool.and_left_comm, Bool.and_assoc]
    | some w =>
      simp [hx, ht, Bool.and_comm, Bool.and_left_comm, Bool.and_assoc]
  · simp [hx]

theorem countP_or {α : Type} {p q r : α → Bool} {l : List α} (h : ∀ x, p x = (q x || r x))
    (hdisjoint : ∀ x, q x = true → r x = false) : l.countP p = l.countP q + l.countP r := by
  induction l with
  | nil => rfl
  | cons x l ih =>
    rw [List.countP_cons, List.countP_cons, List.countP_cons, ih, h x]
    cases hq : q x with
    | true =>
      rw [hdisjoint x hq]
      simp only [Bool.or_false, if_true, Bool.false_eq_true, if_false]
      omega
    | false =>
      simp only [Bool.false_or, Bool.false_eq_true, if_false]
      omega

/-- Of some types, the reads of the count find the new grains. -/
theorem countNewOf_counts (hS : S.ReadsLog mayRead) {watermark : Option ℤ} {ts : List String}
    (hts : ts ⊆ countedTypes) (hnodup : ts.Nodup) {x : ℕ × ℕ}
    (hrun : Runs S.Performs (countNewOf ⟨false, watermark.map (· + 1)⟩ ts) m (.ok x) m') :
    x.1 = m.user.countP (fun y => y.newTo mayRead watermark && y.grain.grainType ∈ ts) ∧
      x.2 = m.user.countP fun y => y.newTo mayRead watermark && y.grain.isError &&
        (y.grain.grainType ∈ ts && y.grain.grainType = "tool") := by
  induction ts generalizing x m m' with
  | nil =>
    obtain ⟨hx, -⟩ := Runs.pure_iff.1 hrun
    cases hx
    simp
  | cons t ts ih =>
    obtain ⟨ht, hts⟩ := List.cons_subset.1 hts
    obtain ⟨hnew, hnodup⟩ := List.nodup_cons.1 hnodup
    obtain ⟨gs, m₁, hgs, hrun⟩ := Runs.bind_ok hrun
    obtain ⟨rfl, hgs | ⟨e, ⟨⟩⟩⟩ := (Runs.ask_iff.1 hgs : Reads _ _ _ _)
    cases hgs
    obtain ⟨y, m₂, hrest, hrun⟩ := Runs.bind_ok hrun
    obtain ⟨hx, -⟩ := Runs.pure_iff.1 hrun
    cases hx
    obtain ⟨hgrains, herrors⟩ := ih hts hnodup hrest
    have hread := (hS.reads t ht none ⟨false, watermark.map (· + 1)⟩ m₁).trans
      (readUserType_new ht)
    constructor
    · rw [hgrains, hread, List.length_map, ← List.countP_eq_length_filter]
      refine (countP_or (fun z => ?_) fun z hz => ?_).symm
      · simp [List.mem_cons, Bool.and_or_distrib_left]
      · simp only [Bool.and_eq_true, decide_eq_true_eq] at hz
        simp [hz.2, hnew]
    · rw [herrors, hread, List.countP_map, List.countP_filter]
      split_ifs with htool
      · refine (countP_or (fun z => ?_) fun z hz => ?_).symm
        · subst htool
          by_cases hz : z.grain.grainType = "tool"
          · simp [hz, Bool.and_comm]
          · simp [hz]
        · simp only [Function.comp_apply, Bool.and_eq_true, decide_eq_true_eq] at hz
          simp [hz.2.2, hnew]
      · rw [Nat.zero_add]
        refine List.countP_congr fun z _ => ?_
        by_cases hz : z.grain.grainType = t
        · simp [hz, htool]
        · simp [hz]

/-- How a run ends that returns. -/
inductive RunEnds (S : Substrate (List Logged)) (opts : RunOptions) (nowMs : ℤ)
    (m : Memory (List Logged)) (res : RunResult) (m' : Memory (List Logged)) : Prop
  | skipped (hgate : gate opts m.state res.newGrains res.newErrorEvents nowMs = res.skipReason)
      (hskip : res.skipReason ≠ none) (hm : m' = m)
  | ran (hgate : gate opts m.state res.newGrains res.newErrorEvents nowMs = none)
      (hran : res.skipReason = none) (hm : m'.state.state = ⟨some nowMs, some nowMs⟩)

/-- A run counts the new grains, and its gate decides by that count. -/
theorem run_counts (hS : S.ReadsLog mayRead) {res : RunResult}
    (h : Runs S.Performs (run E opts nowMs) m (.ok res) m') :
    res.newGrains = m.user.countP (·.newTo mayRead m.state.state.watermarkMs) ∧
      res.newErrorEvents = m.user.countP (fun x => x.newTo mayRead m.state.state.watermarkMs &&
        x.grain.isError && x.grain.grainType = "tool") ∧ RunEnds S opts nowMs m res m' := by
  rcases Eng.loadState_bind h with ⟨e, ⟨⟩, -⟩ | h
  obtain ⟨⟨newGrains, newErrors⟩, m₁, hcount, h⟩ := Runs.bind_ok h
  obtain rfl := reads_idle (countNew_reads _) hcount
  obtain ⟨hgrains, herrors⟩ := countNewOf_counts hS (fun t ht => ht) (by decide) hcount
  have hgrains : newGrains = m₁.user.countP (·.newTo mayRead m₁.state.state.watermarkMs) := by
    refine hgrains.trans (List.countP_congr fun x _ => ?_)
    simp only [Logged.newTo, countedTypes, Bool.and_eq_true, decide_eq_true_eq]
    tauto
  have herrors : newErrors = m₁.user.countP (fun x =>
      x.newTo mayRead m₁.state.state.watermarkMs && x.grain.isError &&
        x.grain.grainType = "tool") := by
    refine herrors.trans (List.countP_congr fun x _ => ?_)
    simp only [Logged.newTo, countedTypes, Bool.and_eq_true, decide_eq_true_eq]
    tauto
  simp only at h
  split at h
  · rename_i reason hgate
    obtain ⟨hres, rfl⟩ := Runs.pure_iff.1 h
    cases hres
    exact ⟨hgrains, herrors, .skipped hgate (by simp) rfl⟩
  · rename_i hgate
    obtain ⟨x, m₂, -, h⟩ := Runs.bind_ok h
    obtain ⟨pass, m₃, -, h⟩ := Runs.bind_ok h
    obtain ⟨y, m₄, -, h⟩ := Runs.bind_ok h
    obtain ⟨u, m₅, hstore, h⟩ := Runs.bind_ok h
    obtain ⟨hres, rfl⟩ := Runs.pure_iff.1 h
    rcases Eng.storeState_runs hstore with ⟨-, rfl⟩ | ⟨e, ⟨⟩, -⟩
    cases hres
    exact ⟨hgrains, herrors, .ran hgate rfl rfl⟩

/-! ## Histories -/

/-- Something that happens to a store. -/
inductive Event where
  /-- A grain is written or imported. -/
  | arrived (x : Logged)
  /-- A run completed, and what it counted as new. -/
  | ran (nowMs : ℤ) (counted : List Logged)
  /-- The gate skipped a run, and what it counted as new. -/
  | skipped (nowMs : ℤ) (counted : List Logged)

/-- The event of a run that returned. -/
def RunResult.event (res : RunResult) (nowMs : ℤ) (counted : List Logged) : Event :=
  if res.skipReason = none then .ran nowMs counted else .skipped nowMs counted

/-- Histories of a store from its creation.  What a run writes itself arrives after its
count; the times of the runs do not decrease. -/
inductive Trace (S : Substrate (List Logged)) (mayRead : String → Bool) :
    List Event → Memory (List Logged) → Prop
  | start {m : Memory (List Logged)} (huser : m.user = []) (hstate : m.state.state = ⟨none, none⟩) :
      Trace S mayRead [] m
  | arrive {es : List Event} {m : Memory (List Logged)} (ht : Trace S mayRead es m) (x : Logged) :
      Trace S mayRead (es ++ [.arrived x]) { m with user := m.user ++ [x] }
  | run {es : List Event} {m m' : Memory (List Logged)} {E : Engine} {opts : RunOptions}
      {nowMs : ℤ} {res : RunResult} {xs : List Logged} (ht : Trace S mayRead es m)
      (htime : ∀ last, m.state.state.watermarkMs = some last → last ≤ nowMs)
      (hrun : Runs S.Performs (run E opts nowMs) m (.ok res) m') (huser : m'.user = m.user ++ xs) :
      Trace S mayRead (es ++ res.event nowMs
        (m.user.filter (·.newTo mayRead m.state.state.watermarkMs)) :: xs.map .arrived) m'
  | failed {es : List Event} {m m' : Memory (List Logged)} {E : Engine} {opts : RunOptions}
      {nowMs : ℤ} {e : Error} {xs : List Logged} (ht : Trace S mayRead es m)
      (hrun : Runs S.Performs (run E opts nowMs) m (.error e) m')
      (huser : m'.user = m.user ++ xs) : Trace S mayRead (es ++ xs.map .arrived) m'

namespace Event

/-- Whether it is a completed run. -/
def isRan : Event → Bool
  | ran _ _ => true
  | _ => false

/-- Whether it is a skipped run. -/
def isSkipped : Event → Bool
  | skipped _ _ => true
  | _ => false

/-- What it counted as new. -/
def counted : Event → List Logged
  | arrived _ => []
  | ran _ xs => xs
  | skipped _ xs => xs

/-- The grains of the store after it. -/
def logAfter (log : List Logged) : Event → List Logged
  | arrived x => log ++ [x]
  | _ => log

/-- The watermark after it. -/
def watermarkAfter (w : Option ℤ) : Event → Option ℤ
  | ran nowMs _ => some nowMs
  | _ => w

end Event

/-- The watermark after a history. -/
def watermarkOf (es : List Event) : Option ℤ := es.foldl Event.watermarkAfter none

/-- Every run of a history counts what is new of the grains that have arrived. -/
def Accords (mayRead : String → Bool) : List Logged → Option ℤ → List Event → Prop
  | _, _, [] => True
  | log, w, e :: es =>
    (e.isRan = true ∨ e.isSkipped = true → e.counted = log.filter (·.newTo mayRead w)) ∧
      (∀ nowMs xs last, e = .ran nowMs xs → w = some last → last ≤ nowMs) ∧
        Accords mayRead (e.logAfter log) (e.watermarkAfter w) es

section Events

variable {log : List Logged} {w : Option ℤ} {es es' : List Event} {x : Logged}

theorem accords_append : Accords mayRead log w (es ++ es') ↔ Accords mayRead log w es ∧
    Accords mayRead (es.foldl Event.logAfter log) (es.foldl Event.watermarkAfter w) es' := by
  induction es generalizing log w with
  | nil => exact (iff_of_eq (true_and _)).symm
  | cons e es ih =>
    simp only [List.cons_append, Accords, ih, List.foldl_cons, and_assoc]

theorem accords_arrived (xs : List Logged) : Accords mayRead log w (xs.map Event.arrived) := by
  induction xs generalizing log with
  | nil => exact trivial
  | cons x xs ih =>
    refine ⟨fun h => ?_, fun nowMs ys last h => ?_, ih⟩
    · rcases h with h | h <;> cases h
    · cases h

theorem logAfter_arrived (xs : List Logged) :
    (xs.map Event.arrived).foldl Event.logAfter log = log ++ xs := by
  induction xs generalizing log with
  | nil => exact (List.append_nil log).symm
  | cons x xs ih =>
    rw [List.map_cons, List.foldl_cons, ih, Event.logAfter, List.append_assoc]
    rfl

theorem watermarkAfter_arrived (xs : List Logged) :
    (xs.map Event.arrived).foldl Event.watermarkAfter w = w := by
  induction xs with
  | nil => rfl
  | cons x xs ih => exact ih

/-- A history of a store accords. -/
theorem Trace.accords (hspare : S.SparesLoop) (hS : S.ReadsLog mayRead)
    (ht : Trace S mayRead es m) : m.user = es.foldl Event.logAfter [] ∧
      m.state.state.watermarkMs = watermarkOf es ∧ Accords mayRead [] none es := by
  induction ht with
  | start huser hstate => exact ⟨huser, by rw [hstate]; rfl, trivial⟩
  | arrive ht x ih =>
    obtain ⟨huser, hwater, hacc⟩ := ih
    refine ⟨?_, ?_, accords_append.2 ⟨hacc, accords_arrived [x]⟩⟩
    · rw [List.foldl_append, ← huser]
      rfl
    · rw [watermarkOf, List.foldl_append, ← watermarkOf]
      exact hwater
  | @run es m m' E opts nowMs res xs ht htime hrun huser ih =>
    obtain ⟨hlog, hwater, hacc⟩ := ih
    obtain ⟨-, -, hend⟩ := run_counts hS hrun
    rw [watermarkOf, List.foldl_append, List.foldl_append, List.foldl_cons, List.foldl_cons,
      logAfter_arrived, watermarkAfter_arrived, ← hlog, ← watermarkOf, ← hwater]
    rw [hwater] at htime
    cases hend with
    | skipped _ hskip hm =>
      have hevent : res.event nowMs (m.user.filter (·.newTo mayRead m.state.state.watermarkMs)) =
          .skipped nowMs (m.user.filter (·.newTo mayRead m.state.state.watermarkMs)) := if_neg hskip
      rw [hevent]
      refine ⟨huser, by rw [hm]; rfl, accords_append.2 ⟨hacc, ?_, ?_, accords_arrived xs⟩⟩
      · intro _
        rw [← watermarkOf, ← hwater, ← hlog]
        rfl
      · exact fun _ _ _ h => nomatch h
    | ran _ hran hm =>
      have hevent : res.event nowMs (m.user.filter (·.newTo mayRead m.state.state.watermarkMs)) =
          .ran nowMs (m.user.filter (·.newTo mayRead m.state.state.watermarkMs)) := if_pos hran
      rw [hevent]
      refine ⟨huser, by rw [hm]; rfl, accords_append.2 ⟨hacc, ?_, ?_, accords_arrived xs⟩⟩
      · intro _
        rw [← watermarkOf, ← hwater, ← hlog]
        rfl
      · intro n ys last he hlast
        cases he
        exact htime last hlast
  | @failed es m m' E opts nowMs e xs ht hrun huser ih =>
    obtain ⟨hlog, hwater, hacc⟩ := ih
    refine ⟨?_, ?_, accords_append.2 ⟨hacc, accords_arrived xs⟩⟩
    · rw [List.foldl_append, ← hlog, logAfter_arrived]
      exact huser
    · rw [watermarkOf, List.foldl_append, ← watermarkOf, watermarkAfter_arrived, ← hwater,
        run_failed_state hspare hrun]

/-- Up to the next completed run, every run counts what the watermark leaves new. -/
theorem Accords.until_ran {nowMs : ℤ} {counted : List Logged} {sk rest : List Event}
    (h : Accords mayRead log w (sk ++ .ran nowMs counted :: rest)) (hx : x ∈ log)
    (hsk : ∀ e ∈ sk, e.isRan = false) :
    (x ∈ counted ↔ x.newTo mayRead w = true) ∧
      (∀ e ∈ sk, e.isSkipped = true → (x ∈ e.counted ↔ x.newTo mayRead w = true)) ∧
        ∃ log', x ∈ log' ∧ Accords mayRead log' (some nowMs) rest := by
  induction sk generalizing log with
  | nil =>
    obtain ⟨hcount, -, hrest⟩ := h
    have hcount : counted = _ := hcount (.inl rfl)
    refine ⟨?_, fun e he => (nomatch he), log, hx, hrest⟩
    rw [hcount, List.mem_filter]
    exact and_iff_right hx
  | cons e sk ih =>
    obtain ⟨hcount, -, hrest⟩ := h
    obtain ⟨he, hsk⟩ := List.forall_mem_cons.1 hsk
    have hlog : x ∈ e.logAfter log := by
      cases e with
      | arrived y => exact List.mem_append_left _ hx
      | ran n xs => exact hx
      | skipped n xs => exact hx
    have hwater : e.watermarkAfter w = w := by
      cases e with
      | ran n xs => cases he
      | arrived y => rfl
      | skipped n xs => rfl
    rw [hwater] at hrest
    obtain ⟨hran, hskipped, hnext⟩ := ih hrest hlog hsk
    refine ⟨hran, List.forall_mem_cons.2 ⟨fun hs => ?_, hskipped⟩, hnext⟩
    rw [hcount (.inr hs), List.mem_filter]
    exact and_iff_right hx

/-- A grain no newer than the watermark is not counted again. -/
theorem Accords.not_counted {nowMs : ℤ} (h : Accords mayRead log (some nowMs) es)
    (hold : x.grain.createdAtMs ≤ nowMs) : ∀ e ∈ es, e.isRan = true → x ∉ e.counted := by
  induction es generalizing log nowMs with
  | nil => exact fun e he => nomatch he
  | cons e es ih =>
    obtain ⟨hcount, htime, hrest⟩ := h
    refine List.forall_mem_cons.2 ⟨fun hran hmem => ?_, ?_⟩
    · rw [hcount (.inl hran), List.mem_filter] at hmem
      have hnew := hmem.2
      simp only [Logged.newTo, Option.all_some, Bool.and_eq_true, decide_eq_true_eq] at hnew
      omega
    · cases e with
      | arrived y => exact ih hrest hold
      | skipped n xs => exact ih hrest hold
      | ran n xs => exact ih hrest (hold.trans (htime n xs nowMs rfl rfl))

/-- The next completed run counts what is newer than the watermark. -/
theorem Accords.counted_again {nowMs : ℤ} (h : Accords mayRead log (some nowMs) es)
    (hx : x ∈ log) (hnew : x.newTo mayRead (some nowMs) = true)
    (hran : ∃ e ∈ es, e.isRan = true) : ∃ e ∈ es, e.isRan = true ∧ x ∈ e.counted := by
  induction es generalizing log with
  | nil =>
    obtain ⟨e, he, -⟩ := hran
    cases he
  | cons e es ih =>
    obtain ⟨hcount, -, hrest⟩ := h
    cases hisRan : e.isRan with
    | true =>
      refine ⟨e, List.mem_cons_self, hisRan, ?_⟩
      rw [hcount (.inl hisRan), List.mem_filter]
      exact ⟨hx, hnew⟩
    | false =>
      have hran' : ∃ e ∈ es, e.isRan = true := by
        obtain ⟨e', he', h'⟩ := hran
        rcases List.mem_cons.1 he' with rfl | he'
        · rw [hisRan] at h'
          cases h'
        · exact ⟨e', he', h'⟩
      have hfound : ∃ e' ∈ es, e'.isRan = true ∧ x ∈ e'.counted := by
        cases e with
        | arrived y => exact ih hrest (List.mem_append_left _ hx) hran'
        | skipped n xs => exact ih hrest hx hran'
        | ran n xs => cases hisRan
      obtain ⟨e', he', h'⟩ := hfound
      exact ⟨e', List.mem_cons_of_mem _ he', h'⟩

theorem Logged.newTo_iff (htype : x.grain.grainType ∈ countedTypes)
    (hns : reservedNs x.grain.namespace_ = false) : x.newTo mayRead w = true ↔
      x.place < maxScan ∧ mayRead x.grain.namespace_ = true ∧
        ∀ v, w = some v → v < x.grain.createdAtMs := by
  unfold Logged.newTo
  rw [hns]
  cases w with
  | none => simp [htype]
  | some v => simp [htype, and_assoc]

/-- The next completed run counts a grain, and none after it does, exactly where the grain
is newer than the watermark and, if another completed run follows, no newer than the
first. -/
theorem Accords.once_iff {nowMs : ℤ} {counted : List Logged} {sk rest : List Event}
    (h : Accords mayRead log w (sk ++ .ran nowMs counted :: rest)) (hx : x ∈ log)
    (hsk : ∀ e ∈ sk, e.isRan = false) (htype : x.grain.grainType ∈ countedTypes)
    (hns : reservedNs x.grain.namespace_ = false) :
    (x ∈ counted ∧ (∀ e ∈ sk, e.isSkipped = true → x ∈ e.counted) ∧
        ∀ e ∈ rest, e.isRan = true → x ∉ e.counted) ↔
      x.place < maxScan ∧ mayRead x.grain.namespace_ = true ∧
        (∀ v, w = some v → v < x.grain.createdAtMs) ∧
          ((∃ e ∈ rest, e.isRan = true) → x.grain.createdAtMs ≤ nowMs) := by
  obtain ⟨hran, hskipped, log', hx', hrest⟩ := h.until_ran hx hsk
  constructor
  · rintro ⟨hcounted, -, honce⟩
    obtain ⟨hplace, hread, hafter⟩ := (Logged.newTo_iff htype hns).1 (hran.1 hcounted)
    refine ⟨hplace, hread, hafter, fun hagain => ?_⟩
    by_contra hlate
    have hnew : x.newTo mayRead (some nowMs) = true := by
      refine (Logged.newTo_iff htype hns).2 ⟨hplace, hread, fun v hv => ?_⟩
      cases hv
      omega
    obtain ⟨e, he, hisRan, hmem⟩ := hrest.counted_again hx' hnew hagain
    exact honce e he hisRan hmem
  · rintro ⟨hplace, hread, hafter, hbefore⟩
    have hcounted := (Logged.newTo_iff htype hns).2 ⟨hplace, hread, hafter⟩
    refine ⟨hran.2 hcounted, fun e he hs => (hskipped e he hs).2 hcounted, ?_⟩
    intro e he hisRan
    exact hrest.not_counted (hbefore ⟨e, he, hisRan⟩) e he hisRan

end Events

/-- **A grain is counted by one completed run** exactly where the scan reaches it, it was
created after the last completed run before its arrival, and not after the first one
behind it, if another follows. -/
theorem arrivals_counted_once (S : Substrate (List Logged)) (mayRead : String → Bool)
    (hspare : S.SparesLoop) (hS : S.ReadsLog mayRead) (es : List Event)
    (m : Memory (List Logged)) (ht : Trace S mayRead es m) :
    (∀ (E : Engine) (opts : RunOptions) (nowMs : ℤ) (res : RunResult) (m' : Memory (List Logged)),
      Runs S.Performs (run E opts nowMs) m (.ok res) m' →
        res.newGrains = (m.user.filter (·.newTo mayRead (watermarkOf es))).length ∧
          res.newErrorEvents = (m.user.filter fun x => x.newTo mayRead (watermarkOf es) &&
            x.grain.isError && x.grain.grainType = "tool").length ∧
          res.skipReason = gate opts m.state res.newGrains res.newErrorEvents nowMs) ∧
    ∀ (pre : List Event) (x : Logged) (sk : List Event) (nowMs : ℤ) (counted : List Logged)
      (rest : List Event), es = pre ++ .arrived x :: (sk ++ .ran nowMs counted :: rest) →
      (∀ e ∈ sk, e.isRan = false) → x.grain.grainType ∈ countedTypes →
      reservedNs x.grain.namespace_ = false →
        ((x ∈ counted ∧ (∀ e ∈ sk, e.isSkipped = true → x ∈ e.counted) ∧
            ∀ e ∈ rest, e.isRan = true → x ∉ e.counted) ↔
          x.place < maxScan ∧ mayRead x.grain.namespace_ = true ∧
            (∀ w, watermarkOf pre = some w → w < x.grain.createdAtMs) ∧
              ((∃ e ∈ rest, e.isRan = true) → x.grain.createdAtMs ≤ nowMs)) := by
  obtain ⟨-, hwater, hacc⟩ := ht.accords hspare hS
  refine ⟨fun E opts nowMs res m' hrun => ?_, ?_⟩
  · obtain ⟨hnew, herrors, hend⟩ := run_counts hS hrun
    refine ⟨?_, ?_, ?_⟩
    · rw [hnew, hwater, List.countP_eq_length_filter]
    · rw [herrors, hwater, List.countP_eq_length_filter]
    · cases hend with
      | skipped hgate _ _ => exact hgate.symm
      | ran hgate hran _ => rw [hran, hgate]
  · intro pre x sk nowMs counted rest hes hsk htype hns
    rw [hes, accords_append] at hacc
    exact hacc.2.2.2.once_iff (List.mem_append_right _ (List.mem_singleton.2 rfl)) hsk htype hns

/-! ### On fixed grains -/

/-- A substrate over an op-log that answers every call. -/
def logSubstrate : Substrate (List Logged) where
  recHash _ := "r"
  auditHash _ := "a"
  grainsOfType t ns opts m := readUserType (fun _ => true) m.user t ns opts
  grain _ _ := none
  heads _ _ := []
  telemetry _ _ := none
  executes _ m r m' := r = .ok [] ∧ m' = m
  retracts _ m r m' := r = .ok () ∧ m' = m

theorem logSubstrate_reads : logSubstrate.ReadsLog fun _ => true := ⟨fun _ _ _ _ _ => rfl⟩

theorem logSubstrate_spares : logSubstrate.SparesLoop := by
  refine ⟨?_, ?_⟩
  · rintro text m r m' ⟨-, rfl⟩
    exact .refl _
  · rintro h m r m' ⟨-, rfl⟩
    exact .refl _

/-- A memory over grains, with a loop that ran last at a time. -/
def loggedMemory (last : Option ℤ) (log : List Logged) : Memory (List Logged) :=
  ⟨[], [], { LoopPersisted.empty with state := ⟨last, last⟩ }, log⟩

theorem countNewOf_logged (m : Memory (List Logged)) (opts : ReadOpts) (ts : List String) :
    ∃ x, Runs logSubstrate.Performs (countNewOf opts ts) m (.ok x) m := by
  induction ts with
  | nil => exact ⟨(0, 0), .ret _ _⟩
  | cons t ts ih =>
    obtain ⟨x, hrest⟩ := ih
    have hread : Runs logSubstrate.Performs (Eng.grainsOfType t none opts) m
        (.ok (readUserType (fun _ => true) m.user t none opts)) m := Runs.ask_iff.2 ⟨rfl, .inl rfl⟩
    exact ⟨_, Runs.bind hread (Runs.bind hrest (.ret _ _))⟩

/-- A run without a gate completes on it, and leaves the grains alone. -/
theorem logged_run (last : Option ℤ) (log : List Logged) (nowMs : ℤ) : ∃ res,
    Runs logSubstrate.Performs (run bareEngine openOptions nowMs) (loggedMemory last log) (.ok res)
      (loggedMemory (some nowMs) log) ∧ res.skipReason = none := by
  obtain ⟨⟨newGrains, newErrors⟩, hcount⟩ := countNewOf_logged (loggedMemory last log)
    ⟨false, last.map (· + 1)⟩ countedTypes
  have hload : Runs logSubstrate.Performs Eng.loadState (loggedMemory last log)
      (.ok (loggedMemory last log).state) (loggedMemory last log) :=
    Runs.ask_iff.2 ⟨rfl, .inl rfl⟩
  have hpass : Runs logSubstrate.Performs (analysisPass bareEngine (loggedMemory last log).state
      openOptions last nowMs []) (loggedMemory last log) (.ok ⟨[], 0, 0, [], []⟩)
      (loggedMemory last log) :=
    Runs.bind (a := []) (Runs.ask_iff.2 ⟨rfl, .inl rfl⟩) (.ret _ _)
  have hstore : Runs logSubstrate.Performs
      (Eng.storeState ((loggedMemory last log).state.ran nowMs)) (loggedMemory last log) (.ok ())
      (loggedMemory (some nowMs) log) := Runs.ask_iff.2 (.inl ⟨rfl, rfl⟩)
  have hfrom : Runs logSubstrate.Performs (runFrom bareEngine openOptions nowMs
      (loggedMemory last log).state newGrains newErrors) (loggedMemory last log) (.ok _)
      (loggedMemory (some nowMs) log) :=
    Runs.bind (.ret _ _) (Runs.bind hpass (Runs.bind (.ret _ _) (Runs.bind hstore (.ret _ _))))
  exact ⟨_, Runs.bind hload (Runs.bind hcount hfrom), rfl⟩

/-- A fact of a user, created at a time. -/
def factAt (createdAtMs : ℤ) : Logged :=
  ⟨0, "f", "fact", "notes", createdAtMs, none, none, []⟩

/-- A run that completes on it, as an event. -/
theorem Trace.ran {es : List Event} {last : Option ℤ} {log : List Logged}
    (ht : Trace logSubstrate (fun _ => true) es (loggedMemory last log)) (nowMs : ℤ)
    (htime : ∀ v, last = some v → v ≤ nowMs) :
    Trace logSubstrate (fun _ => true)
      (es ++ [.ran nowMs (log.filter (·.newTo (fun _ => true) last))])
      (loggedMemory (some nowMs) log) := by
  obtain ⟨res, hrun, hskip⟩ := logged_run last log nowMs
  have huser : (loggedMemory (some nowMs) log).user = (loggedMemory last log).user ++ [] :=
    (List.append_nil log).symm
  have hnext := Trace.run ht htime hrun huser
  rw [RunResult.event, if_pos hskip] at hnext
  exact hnext

theorem arrivals_counted_once_fact :
    factAt 5 ∈ [factAt 5].filter (·.newTo (fun _ => true) none) := by
  have hstart : Trace logSubstrate (fun _ => true) [] (loggedMemory none []) := .start rfl rfl
  have htrace := Trace.ran (hstart.arrive (factAt 5)) 10 fun _ h => nomatch h
  exact (((arrivals_counted_once logSubstrate (fun _ => true) logSubstrate_spares
    logSubstrate_reads _ _ htrace).2 [] (factAt 5) [] 10 _ [] rfl (fun _ h => nomatch h)
      (by decide) (by decide)).2 ⟨by decide, rfl, fun _ h => (by cases h), fun _ => by decide⟩).1

/-- **A grain that arrives late is not counted.** -/
theorem late_arrival_missed :
    ¬∀ (S : Substrate (List Logged)) (mayRead : String → Bool) (es : List Event)
      (m : Memory (List Logged)), S.SparesLoop → S.ReadsLog mayRead → Trace S mayRead es m →
        ∀ (pre : List Event) (x : Logged) (sk : List Event) (nowMs : ℤ) (counted : List Logged)
          (rest : List Event), es = pre ++ .arrived x :: (sk ++ .ran nowMs counted :: rest) →
          (∀ e ∈ sk, e.isRan = false) → x.grain.grainType ∈ countedTypes →
          reservedNs x.grain.namespace_ = false → x ∈ counted := by
  intro h
  have hstart : Trace logSubstrate (fun _ => true) [] (loggedMemory none []) := .start rfl rfl
  have hfirst := Trace.ran hstart 10 fun _ h => nomatch h
  have htrace := Trace.ran (hfirst.arrive (factAt 5)) 20 fun v hv => by cases hv; decide
  have hmem := h _ _ _ _ logSubstrate_spares logSubstrate_reads htrace [.ran 10 []] (factAt 5) []
    20 _ [] rfl (fun _ h => nomatch h) (by decide) (by decide)
  exact absurd (List.mem_filter.1 hmem).2 (by decide)

end Deja.Loop
