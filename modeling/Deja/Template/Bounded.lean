import Deja.Template.Inert
import Deja.Template.Inherit

/-!
# The size of a render

The renderer compares its output with the limit after each iteration of an
`{{#each}}`, and a sectioned render after each grain and at the end.  The log of a
render is how many bytes stood in the buffer before each append, and how many were
appended.

The pieces a template is laid out in are a list of byte lengths and marks that follows
from the template and the lengths of its values alone (`emitsNodes`).  A render is bounded
exactly when the piece that takes the sum of the lengths past the limit, if there is one,
is the last of an iteration or of a section, or stands right before a failing filter
(`Job.render_bounded_iff`).
-/

namespace Deja.Template

/-- `MAX_RENDER_OUTPUT_SIZE`. -/
def maxRenderOutputSize : ℕ := 1048576

/-! ## The grains of a sectioned render -/

section Sections

variable {G : Type}

mutual

/-- Whether a node iterates over the grains by itself. -/
def containsEach : TemplateNode → Bool
  | .each _ _ => true
  | .condition _ ifBody elseBody => nodesContainEach ifBody || nodesContainEach elseBody
  | .invertedSection _ body => nodesContainEach body
  | .grainTypeBlock _ body => nodesContainEach body
  | .text _ => false
  | .variable _ _ => false
  | .comment _ => false

/-- `nodes_contain_each`. -/
def nodesContainEach : List TemplateNode → Bool
  | [] => false
  | node :: nodes => containsEach node || nodesContainEach nodes

end

/-- The whole-result slice of a sectioned render, where some section asks for it. -/
def allGrains (sections : TemplateSections) (sources : List (RenderSource G)) : List G :=
  if [sections.header, sections.element, sections.elementSummary, sections.elementOmit,
      sections.sourceBreak, sections.footer].any fun nodes => nodes.any nodesContainEach then
    sources.flatMap RenderSource.grains
  else []

end Sections

section Render

variable {G V E : Type} (R : Option ℕ → Resolver G V E) (grains : List G) (maxOutputSize : ℕ)

/-- The loop of `render_sectioned`: the bodies, with the bytes rendered so far. -/
def renderParts : ℕ → List (Part G) → Except (RenderError E) (List (List Char))
  | _, [] => .ok []
  | rendered, p :: pieces =>
    match renderNodes (R p.source) grains maxOutputSize p.nodes p.current [] with
    | .error e => .error e
    | .ok buf =>
      let rendered := rendered + utf8Len buf
      if p.bounded ∧ maxOutputSize < rendered then .error (.outputTooLarge rendered maxOutputSize)
      else
        match renderParts rendered pieces with
        | .error e => .error e
        | .ok bufs => .ok (buf :: bufs)

/-- `render_sectioned`, over the slice `grains`. -/
def renderSectioned (pieces : List (Part G)) : Except (RenderError E) (List Char) :=
  match renderParts R grains maxOutputSize 0 pieces with
  | .error e => .error e
  | .ok bufs =>
    let output := ['\n'].intercalate bufs
    if maxOutputSize < utf8Len output then
      .error (.outputTooLarge (utf8Len output) maxOutputSize)
    else .ok output

end Render

/-! ## The log of a render -/

section Log

variable {G V E : Type} (R : Resolver G V E) (grains : List G) (maxOutputSize : ℕ)

/-- The appends of an iteration, as `eachGrain` goes through it. -/
def eachLog (body : Option (G × ℕ) → List Char → Except (RenderError E) (List Char))
    (log : Option (G × ℕ) → List Char → List (ℕ × ℕ)) :
    List (G × ℕ) → List Char → List (ℕ × ℕ)
  | [], _ => []
  | g :: rest, output =>
    log (some g) output ++
      match body (some g) output with
      | .error _ => []
      | .ok output => if maxOutputSize < utf8Len output then [] else eachLog body log rest output

mutual

/-- The appends of a node: the bytes in the buffer before, and the bytes appended. -/
def logNode : TemplateNode → Option (G × ℕ) → List Char → List (ℕ × ℕ)
  | .text s, _, output => [(utf8Len output, utf8Len s)]
  | .variable name filters, current, output =>
    match filters.foldlM R.applyFilter (R.resolve name current) with
    | .error _ => []
    | .ok value => [(utf8Len output, utf8Len (R.display value))]
  | .each _ body, _, output =>
    eachLog maxOutputSize
      (fun current output => renderNodes R grains maxOutputSize body current output)
      (fun current output => logNodes body current output)
      (grains.take maxEachIterations).zipIdx output
  | .condition field ifBody elseBody, current, output =>
    if R.isTruthy (R.resolve field current) then logNodes ifBody current output
    else logNodes elseBody current output
  | .invertedSection field body, current, output =>
    if R.isTruthy (R.resolve field current) then [] else logNodes body current output
  | .grainTypeBlock grainType body, current, output =>
    match current with
    | some g => if R.grainType g.1 = grainType then logNodes body current output else []
    | none => []
  | .comment _, _, _ => []

/-- The appends of a list of nodes. -/
def logNodes : List TemplateNode → Option (G × ℕ) → List Char → List (ℕ × ℕ)
  | [], _, _ => []
  | node :: nodes, current, output =>
    logNode node current output ++
      match renderNode R grains maxOutputSize node current output with
      | .error _ => []
      | .ok output => logNodes nodes current output

end

end Log

/-! ## Events -/

/-- What rendering does to the size of the buffer. -/
inductive Event where
  | append (n : ℕ)
  | check
  | fail
  deriving DecidableEq

/-- The bytes appended by a list of events. -/
def total : List Event → ℕ
  | [] => 0
  | .append n :: es => n + total es
  | .check :: es => total es
  | .fail :: es => total es

@[simp] theorem total_append (es fs : List Event) : total (es ++ fs) = total es + total fs := by
  induction es with
  | nil => simp [total]
  | cons e es ih => cases e <;> simp [total, ih, Nat.add_assoc]

/-- The appends of a list of events, under a limit. -/
def runLog (max : ℕ) : ℕ → List Event → List (ℕ × ℕ)
  | _, [] => []
  | held, .append n :: es => (held, n) :: runLog max (held + n) es
  | held, .check :: es => if max < held then [] else runLog max held es
  | _, .fail :: _ => []

/-- The size a list of events ends with, if it is not stopped. -/
def runEnd (max : ℕ) : ℕ → List Event → Option ℕ
  | held, [] => some held
  | held, .append n :: es => runEnd max (held + n) es
  | held, .check :: es => if max < held then none else runEnd max held es
  | _, .fail :: _ => none

theorem runLog_append (max : ℕ) (es fs : List Event) : ∀ held,
    runLog max held (es ++ fs) = runLog max held es ++
      (match runEnd max held es with
      | none => []
      | some held => runLog max held fs) := by
  induction es with
  | nil => intro held; simp [runLog, runEnd]
  | cons e es ih =>
    intro held
    cases e with
    | append n => simp [runLog, runEnd, ih]
    | check =>
      by_cases h : max < held
      · simp [runLog, runEnd, h]
      · simp [runLog, runEnd, h, ih]
    | fail => simp [runLog, runEnd]

theorem runEnd_append (max : ℕ) (es fs : List Event) : ∀ held,
    runEnd max held (es ++ fs) = (runEnd max held es).bind fun held => runEnd max held fs := by
  induction es with
  | nil => intro held; simp [runEnd]
  | cons e es ih =>
    intro held
    cases e with
    | append n => simp [runEnd, ih]
    | check =>
      by_cases h : max < held
      · simp [runEnd, h]
      · simp [runEnd, h, ih]
    | fail => simp [runEnd]

/-- How long the values of a template are, and which of its bodies are shown. -/
structure Lengths (G : Type) where
  /-- The bytes of a value behind its filters, unless one of them fails. -/
  value : List Char → List Filter → Option (G × ℕ) → Option ℕ
  /-- Whether a field counts as true. -/
  isTruthy : List Char → Option (G × ℕ) → Bool
  /-- The type of a grain. -/
  grainType : G → List Char

/-- The lengths of what a resolver gives. -/
def Resolver.lengths {G V E : Type} (R : Resolver G V E) : Lengths G where
  value := fun name filters current =>
    match filters.foldlM R.applyFilter (R.resolve name current) with
    | .error _ => none
    | .ok value => some (utf8Len (R.display value))
  isTruthy := fun field current => R.isTruthy (R.resolve field current)
  grainType := R.grainType

@[simp] theorem Resolver.lengths_isTruthy {G V E : Type} (R : Resolver G V E)
    (field : List Char) (current : Option (G × ℕ)) :
    R.lengths.isTruthy field current = R.isTruthy (R.resolve field current) := rfl

section Emits

variable {G : Type} (L : Lengths G) (grains : List G)

mutual

/-- The pieces a node is laid out in, with a mark after each iteration. -/
def emitsNode : TemplateNode → Option (G × ℕ) → List Event
  | .text s, _ => [.append (utf8Len s)]
  | .variable name filters, current =>
    match L.value name filters current with
    | none => [.fail]
    | some n => [.append n]
  | .each _ body, _ =>
    (grains.take maxEachIterations).zipIdx.flatMap fun g => emitsNodes body (some g) ++ [.check]
  | .condition field ifBody elseBody, current =>
    if L.isTruthy field current then emitsNodes ifBody current
    else emitsNodes elseBody current
  | .invertedSection field body, current =>
    if L.isTruthy field current then [] else emitsNodes body current
  | .grainTypeBlock grainType body, current =>
    match current with
    | some g => if L.grainType g.1 = grainType then emitsNodes body current else []
    | none => []
  | .comment _, _ => []

/-- The pieces a list of nodes is laid out in. -/
def emitsNodes : List TemplateNode → Option (G × ℕ) → List Event
  | [], _ => []
  | node :: nodes, current => emitsNode node current ++ emitsNodes nodes current

end

end Emits

/-! ## A render runs its events -/

section Runs

variable {G V E : Type} {R : Resolver G V E} {grains : List G} {max : ℕ}

/-- The size of a result. -/
def sizeOf? (res : Except (RenderError E) (List Char)) : Option ℕ :=
  match res with
  | .ok output => some (utf8Len output)
  | .error _ => none

/-- A log and a result are those of a list of events. -/
structure Runs (max held : ℕ) (es : List Event) (log : List (ℕ × ℕ))
    (res : Except (RenderError E) (List Char)) : Prop where
  log_eq : log = runLog max held es
  size_eq : sizeOf? res = runEnd max held es

/-- One render after another runs the events of both. -/
theorem Runs.seq {held : ℕ} {es fs : List Event} {log : List (ℕ × ℕ)}
    {res : Except (RenderError E) (List Char)} {log' : List Char → List (ℕ × ℕ)}
    {res' : List Char → Except (RenderError E) (List Char)} : Runs max held es log res →
    (∀ output, Runs max (utf8Len output) fs (log' output) (res' output)) →
    Runs max held (es ++ fs)
      (log ++
        match res with
        | .error _ => []
        | .ok output => log' output)
      (match res with
      | .error e => .error e
      | .ok output => res' output) := by
  rintro ⟨hlog, hsize⟩ h'
  constructor
  · rw [runLog_append, hlog, ← hsize]
    cases res with
    | error e => simp [sizeOf?]
    | ok output => simp [sizeOf?, (h' output).log_eq]
  · rw [runEnd_append, ← hsize]
    cases res with
    | error e => simp [sizeOf?]
    | ok output => simp [sizeOf?, ← (h' output).size_eq]

theorem Runs.nil (output : List Char) :
    Runs (E := E) max (utf8Len output) [] [] (.ok output) := ⟨rfl, rfl⟩

/-- The iterations run the events of the bodies, each followed by a check. -/
theorem eachGrain_runs {body : Option (G × ℕ) → List Char → Except (RenderError E) (List Char)}
    {log : Option (G × ℕ) → List Char → List (ℕ × ℕ)} {emits : Option (G × ℕ) → List Event}
    (h : ∀ current output,
      Runs max (utf8Len output) (emits current) (log current output) (body current output))
    (gs : List (G × ℕ)) : ∀ output,
      Runs max (utf8Len output) (gs.flatMap fun g => emits (some g) ++ [.check])
        (eachLog max body log gs output) (eachGrain max body gs output) := by
  induction gs with
  | nil => intro output; exact .nil output
  | cons g gs ih =>
    intro output
    have hcheck : ∀ output : List Char,
        Runs max (utf8Len output) (.check :: gs.flatMap fun g => emits (some g) ++ [.check])
          (if max < utf8Len output then [] else eachLog max body log gs output)
          (if max < utf8Len output then .error (.outputTooLarge (utf8Len output) max)
            else eachGrain max body gs output) := by
      intro output
      by_cases hmax : max < utf8Len output
      · constructor
        · simp [runLog, hmax]
        · simp [runEnd, hmax, sizeOf?]
      · constructor
        · simp [runLog, hmax, (ih output).log_eq]
        · simp [runEnd, hmax, (ih output).size_eq]
    have hseq := (h (some g) output).seq hcheck
    rw [List.flatMap_cons, List.append_assoc]
    exact hseq

mutual

/-- A node runs its events. -/
theorem renderNode_runs : ∀ (node : TemplateNode) (current : Option (G × ℕ)) (output : List Char),
    Runs max (utf8Len output) (emitsNode R.lengths grains node current)
      (logNode R grains max node current output) (renderNode R grains max node current output)
  | .text s, current, output => by
    constructor
    · simp [logNode, emitsNode, runLog]
    · simp [renderNode, emitsNode, runEnd, sizeOf?, utf8Len_append]
  | .variable name filters, current, output => by
    rw [logNode, renderNode, emitsNode]
    cases hv : filters.foldlM R.applyFilter (R.resolve name current) with
    | error e =>
      have hnone : R.lengths.value name filters current = none := by simp [Resolver.lengths, hv]
      rw [hnone]
      exact ⟨rfl, rfl⟩
    | ok value =>
      have hsome : R.lengths.value name filters current = some (utf8Len (R.display value)) := by
        simp [Resolver.lengths, hv]
      rw [hsome]
      constructor
      · simp [runLog]
      · simp [runEnd, sizeOf?, utf8Len_append]
  | .each _ body, current, output => by
    rw [logNode, renderNode, emitsNode]
    exact eachGrain_runs (fun current output => renderNodes_runs body current output) _ output
  | .condition field ifBody elseBody, current, output => by
    rw [logNode, renderNode, emitsNode, Resolver.lengths_isTruthy]
    split_ifs
    · exact renderNodes_runs ifBody current output
    · exact renderNodes_runs elseBody current output
  | .invertedSection field body, current, output => by
    rw [logNode, renderNode, emitsNode, Resolver.lengths_isTruthy]
    split_ifs
    · exact .nil output
    · exact renderNodes_runs body current output
  | .grainTypeBlock grainType body, current, output => by
    cases current with
    | none =>
      simp only [logNode, renderNode, emitsNode]
      exact .nil output
    | some g =>
      simp only [logNode, renderNode, emitsNode]
      by_cases htype : R.lengths.grainType g.1 = grainType
      · rw [if_pos htype, if_pos (show R.grainType g.1 = grainType from htype),
          if_pos (show R.grainType g.1 = grainType from htype)]
        exact renderNodes_runs body (some g) output
      · rw [if_neg htype, if_neg (show ¬R.grainType g.1 = grainType from htype),
          if_neg (show ¬R.grainType g.1 = grainType from htype)]
        exact .nil output
  | .comment _, _, output => by
    rw [logNode, renderNode, emitsNode]
    exact .nil output

/-- **A list of nodes runs its events.** -/
theorem renderNodes_runs : ∀ (nodes : List TemplateNode) (current : Option (G × ℕ))
    (output : List Char), Runs max (utf8Len output) (emitsNodes R.lengths grains nodes current)
      (logNodes R grains max nodes current output) (renderNodes R grains max nodes current output)
  | [], _, output => by
    rw [logNodes, renderNodes, emitsNodes]
    exact .nil output
  | node :: nodes, current, output => by
    rw [logNodes, renderNodes, emitsNodes]
    exact (renderNode_runs node current output).seq fun output =>
      renderNodes_runs nodes current output

end

end Runs

/-! ## When the events stay within the limit -/

/-- No check among these events stops a render, nor does a filter. -/
def Passes (max held : ℕ) (es : List Event) : Prop :=
  .fail ∉ es ∧ ∀ pre post, es = pre ++ .check :: post → held + total pre ≤ max

/-- Wherever the appended bytes have passed the limit unseen, the next event is a check
or a failing filter. -/
def Checked (max held : ℕ) (es : List Event) : Prop :=
  ∀ pre post, es = pre ++ post → Passes max held pre → max < held + total pre →
    post.head? = some .check ∨ post.head? = some .fail

theorem passes_nil (max held : ℕ) : Passes max held [] := by
  refine ⟨by simp, fun pre post h => ?_⟩
  exact absurd h (by simp)

theorem passes_append {max held n : ℕ} {es : List Event} :
    Passes max held (.append n :: es) ↔ Passes max (held + n) es := by
  constructor
  · rintro ⟨hfail, hcheck⟩
    refine ⟨fun h => hfail (List.mem_cons_of_mem _ h), fun pre post h => ?_⟩
    have := hcheck (.append n :: pre) post (by rw [h, List.cons_append])
    rw [total] at this
    omega
  · rintro ⟨hfail, hcheck⟩
    refine ⟨by simpa using hfail, fun pre post h => ?_⟩
    cases pre with
    | nil => simp at h
    | cons e pre =>
      rw [List.cons_append, List.cons.injEq] at h
      have := hcheck pre post h.2
      rw [← h.1, total]
      omega

theorem passes_check {max held : ℕ} {es : List Event} :
    Passes max held (.check :: es) ↔ held ≤ max ∧ Passes max held es := by
  constructor
  · rintro ⟨hfail, hcheck⟩
    refine ⟨by simpa [total] using hcheck [] es rfl, ?_, fun pre post h => ?_⟩
    · exact fun h => hfail (List.mem_cons_of_mem _ h)
    · have := hcheck (.check :: pre) post (by rw [h, List.cons_append])
      rwa [total] at this
  · rintro ⟨hheld, hfail, hcheck⟩
    refine ⟨by simpa using hfail, fun pre post h => ?_⟩
    cases pre with
    | nil => simpa [total] using hheld
    | cons e pre =>
      rw [List.cons_append, List.cons.injEq] at h
      rw [← h.1, total]
      exact hcheck pre post h.2

theorem not_passes_fail {max held : ℕ} {es : List Event} : ¬ Passes max held (.fail :: es) :=
  fun h => h.1 (List.mem_cons_self ..)

/-- What holds at every split of a list holds at its front and at every split of its
tail. -/
theorem forall_split_cons {e : Event} {es : List Event} {p : List Event → List Event → Prop} :
    (∀ pre post, e :: es = pre ++ post → p pre post) ↔
      p [] (e :: es) ∧ ∀ pre post, es = pre ++ post → p (e :: pre) post := by
  constructor
  · intro h
    exact ⟨h [] _ rfl, fun pre post heq => h (e :: pre) post (by rw [heq, List.cons_append])⟩
  · rintro ⟨hnil, hcons⟩ pre post heq
    cases pre with
    | nil =>
      rw [List.nil_append] at heq
      rwa [← heq]
    | cons e' pre =>
      rw [List.cons_append, List.cons.injEq] at heq
      rw [← heq.1]
      exact hcons pre post heq.2

/-- A sum of lengths beyond the limit passes it at some piece. -/
theorem exists_excess {max : ℕ} {es : List Event} (h : max < total es) :
    ∃ pre n post, es = pre ++ .append n :: post ∧ total pre ≤ max ∧ max < total pre + n := by
  induction es using List.reverseRecOn with
  | nil => simp [total] at h
  | append_singleton es e ih =>
    by_cases hes : max < total es
    · obtain ⟨pre, n, post, rfl, hpre, hn⟩ := ih hes
      exact ⟨pre, n, post ++ [e], by simp, hpre, hn⟩
    rw [total_append] at h
    cases e with
    | append n => exact ⟨es, n, [], rfl, not_lt.1 hes, by simpa [total] using h⟩
    | check => exact absurd h hes
    | fail => exact absurd h hes

/-- The sum of the lengths passes the limit nowhere but at the end of an iteration or
before a failing filter, unless a filter fails before. -/
def ExcessLast (max : ℕ) (es : List Event) : Prop :=
  ∀ pre n post, es = pre ++ .append n :: post → .fail ∉ pre → total pre ≤ max →
    max < total pre + n → post.head? = some .check ∨ post.head? = some .fail

/-- While the sum of the lengths is within the limit, no check stops a render. -/
theorem passes_of_total_le {max : ℕ} {es : List Event} (hfail : .fail ∉ es)
    (h : total es ≤ max) : Passes max 0 es := by
  refine ⟨hfail, fun pre post heq => ?_⟩
  rw [heq, total_append] at h
  omega

/-- Every excess meets a check exactly when the first one does. -/
theorem checked_iff_excessLast (max : ℕ) (es : List Event) :
    Checked max 0 es ↔ ExcessLast max es := by
  constructor
  · intro h pre n post heq hfail hle hgt
    have htotal : total (pre ++ [.append n]) = total pre + n := by simp [total]
    refine h (pre ++ [.append n]) post (by rw [heq]; simp) ⟨by simpa using hfail, ?_⟩
      (by omega)
    intro a b hab
    -- the check lies before the piece that passes the limit
    rcases b.eq_nil_or_concat with rfl | ⟨b, x, rfl⟩
    · have hlast := congrArg List.getLast? hab
      simp at hlast
    · rw [List.concat_eq_append, ← List.cons_append, ← List.append_assoc] at hab
      have hpre := (List.append_inj' hab rfl).1
      exact (passes_of_total_le hfail hle).2 a b hpre
  · rintro h pre post heq hpasses hgt
    rw [Nat.zero_add] at hgt
    obtain ⟨a, n, b, rfl, hle, hn⟩ := exists_excess hgt
    have hfail : .fail ∉ a := fun hmem => hpasses.1 (List.mem_append_left _ hmem)
    have hnext := h a n (b ++ post) (by rw [heq]; simp) hfail hle hn
    cases b with
    | nil => exact hnext
    | cons e b =>
      rcases hnext with hnext | hnext
      · cases Option.some.inj hnext
        have hstop := hpasses.2 (a ++ [.append n]) b (by simp)
        simp [total] at hstop
        omega
      · cases Option.some.inj hnext
        exact absurd (by simp) hpasses.1

/-- **Every append and the end find the buffer within the limit exactly when every
excess meets a check first.** -/
theorem checked_iff (max : ℕ) (es : List Event) : ∀ held,
    Checked max held es ↔
      (∀ x ∈ runLog max held es, x.1 ≤ max) ∧ ∀ n, runEnd max held es = some n → n ≤ max := by
  induction es with
  | nil =>
    intro held
    constructor
    · intro h
      refine ⟨by simp [runLog], fun n hn => ?_⟩
      simp only [runEnd, Option.some.injEq] at hn
      by_contra hmax
      have := h [] [] rfl (passes_nil max held) (by simp only [total]; omega)
      simp at this
    · rintro ⟨-, hend⟩ pre post heq _ hmax
      obtain ⟨rfl, rfl⟩ := List.append_eq_nil_iff.1 heq.symm
      have := hend held rfl
      simp only [total] at hmax
      omega
  | cons e es ih =>
    intro held
    unfold Checked
    rw [forall_split_cons]
    cases e with
    | append n =>
      have hrest : (∀ pre post, es = pre ++ post → Passes max held (.append n :: pre) →
          max < held + total (.append n :: pre) →
            post.head? = some .check ∨ post.head? = some .fail) ↔ Checked max (held + n) es := by
        simp only [passes_append, total, Checked, Nat.add_assoc]
      rw [hrest, ih]
      simp only [runLog, runEnd, List.mem_cons, forall_eq_or_imp, passes_nil, true_imp_iff, total,
        Nat.add_zero, List.head?_cons, Option.some.injEq, reduceCtorEq, or_self, imp_false, not_lt,
        and_assoc]
    | check =>
      have hrest : (∀ pre post, es = pre ++ post → Passes max held (.check :: pre) →
          max < held + total (.check :: pre) →
            post.head? = some .check ∨ post.head? = some .fail) ↔
            (held ≤ max → Checked max held es) := by
        simp only [passes_check, total, Checked]
        constructor
        · intro h hheld pre post heq hp hmax
          exact h pre post heq ⟨hheld, hp⟩ hmax
        · intro h pre post heq hp hmax
          exact h hp.1 pre post heq hp.2 hmax
      rw [hrest]
      by_cases hmax : max < held
      · simp [runLog, runEnd, hmax, Nat.not_le.2 hmax]
      · simp [runLog, runEnd, hmax, Nat.le_of_not_lt hmax, ih]
    | fail =>
      simp [runLog, runEnd, not_passes_fail]

/-- A list of events ends with all it appends where nothing stops it. -/
theorem runEnd_eq_some_iff (max : ℕ) (es : List Event) : ∀ {held n : ℕ},
    runEnd max held es = some n ↔ Passes max held es ∧ n = held + total es := by
  induction es with
  | nil =>
    intro held n
    simp [runEnd, passes_nil, total, eq_comm]
  | cons e es ih =>
    intro held n
    cases e with
    | append k => rw [runEnd, ih, passes_append, total, Nat.add_assoc]
    | check =>
      rw [runEnd, passes_check, total]
      by_cases hmax : max < held
      · simp [hmax, Nat.not_le.2 hmax]
      · simp [hmax, Nat.le_of_not_lt hmax, ih]
    | fail => simp [runEnd, not_passes_fail]

/-- Where a check stands at the end, only the appends matter. -/
theorem checked_concat_check (max held : ℕ) (es : List Event) :
    Checked max held (es ++ [.check]) ↔ ∀ x ∈ runLog max held es, x.1 ≤ max := by
  rw [checked_iff, runLog_append, runEnd_append]
  have hlog : (match runEnd max held es with
      | none => []
      | some held => runLog max held [.check]) = [] := by
    cases runEnd max held es with
    | none => rfl
    | some n => simp [runLog]
  rw [hlog, List.append_nil]
  refine and_iff_left_of_imp fun _ n hn => ?_
  obtain ⟨k, -, hk⟩ := Option.bind_eq_some_iff.1 hn
  simp only [runEnd] at hk
  split_ifs at hk with hmax
  cases hk
  exact Nat.le_of_not_lt hmax

/-! ## Whole renders -/

section Parts

variable {G V E : Type} (R : Option ℕ → Resolver G V E) (grains : List G) (max : ℕ)

/-- The appends of a sectioned render, each section into a buffer of its own. -/
def partsLog : ℕ → List (Part G) → List (ℕ × ℕ)
  | _, [] => []
  | rendered, p :: parts =>
    logNodes (R p.source) grains max p.nodes p.current [] ++
      match renderNodes (R p.source) grains max p.nodes p.current [] with
      | .error _ => []
      | .ok buf =>
        if p.bounded ∧ max < rendered + utf8Len buf then []
        else partsLog (rendered + utf8Len buf) parts

/-- The pieces of a section. -/
abbrev partEmits (L : Option ℕ → Lengths G) (grains : List G) (p : Part G) : List Event :=
  emitsNodes (L p.source) grains p.nodes p.current

/-- In every section a render comes to, the sum of the lengths passes the limit nowhere
but at the end of an iteration or of the section. -/
def PartsExcessLast (L : Option ℕ → Lengths G) (grains : List G) (max : ℕ) :
    ℕ → List (Part G) → Prop
  | _, [] => True
  | rendered, p :: parts =>
    ExcessLast max (partEmits L grains p ++ [.check]) ∧
      (Passes max 0 (partEmits L grains p) →
        ¬ (p.bounded ∧ max < rendered + total (partEmits L grains p)) →
          PartsExcessLast L grains max (rendered + total (partEmits L grains p)) parts)

variable {R grains max}

theorem partsExcessLast_iff (parts : List (Part G)) : ∀ rendered,
    PartsExcessLast (fun source => (R source).lengths) grains max rendered parts ↔
      ∀ x ∈ partsLog R grains max rendered parts, x.1 ≤ max := by
  induction parts with
  | nil => intro rendered; simp [PartsExcessLast, partsLog]
  | cons p parts ih =>
    intro rendered
    have hruns : Runs max 0 (partEmits (fun source => (R source).lengths) grains p)
        (logNodes (R p.source) grains max p.nodes p.current [])
        (renderNodes (R p.source) grains max p.nodes p.current []) :=
      renderNodes_runs p.nodes p.current []
    obtain ⟨hlog, hsize⟩ := hruns
    rw [PartsExcessLast, ← checked_iff_excessLast, checked_concat_check, partsLog]
    simp only [List.mem_append, or_imp, forall_and]
    rw [hlog]
    refine and_congr_right fun _ => ?_
    cases hres : renderNodes (R p.source) grains max p.nodes p.current [] with
    | error e =>
      rw [hres] at hsize
      have hstop : ¬ Passes max 0 (partEmits (fun source => (R source).lengths) grains p) := by
        intro hp
        have hsome := (runEnd_eq_some_iff max _).2 ⟨hp, rfl⟩
        rw [← hsize] at hsome
        cases hsome
      simp [hstop]
    | ok buf =>
      rw [hres] at hsize
      have hend := (runEnd_eq_some_iff max _).1 hsize.symm
      rw [Nat.zero_add] at hend
      rw [← hend.2]
      by_cases hstop : p.bounded = true ∧ max < rendered + utf8Len buf
      · simp [hstop]
      · simp only [hend.1, hstop, if_false, not_false_eq_true, true_imp_iff]
        exact ih _

/-- The result of a sectioned render is compared with the limit at the end. -/
theorem renderSectioned_le {parts : List (Part G)} {output : List Char}
    (h : renderSectioned R grains max parts = .ok output) : utf8Len output ≤ max := by
  unfold renderSectioned at h
  split at h
  · cases h
  · simp only at h
    split_ifs at h with hmax
    cases h
    exact Nat.le_of_not_lt hmax

end Parts

/-- One render: of a whole result, or of sources through sections at full disclosure or
squeezed. -/
inductive Job (G : Type) where
  | whole (nodes : List TemplateNode) (grains : List G)
  | sectioned (sections : TemplateSections) (full : Bool) (sources : List (RenderSource G))

/-- `render_with_limit`: which render a template asks for. -/
def Template.job {G : Type} (t : Template) (full : Bool) (grains : List G) : Job G :=
  match t.sections with
  | some sections => .sectioned sections full [⟨grains, []⟩]
  | none => .whole t.nodes grains

namespace Job

variable {G V E : Type} (R : Option ℕ → Resolver G V E) (max : ℕ)

/-- The result of a render. -/
def render : Job G → Except (RenderError E) (List Char)
  | .whole nodes grains => renderTemplate (R none) grains max nodes
  | .sectioned sections full sources =>
    renderSectioned R (allGrains sections sources) max (sectionParts sections full sources)

/-- The appends of a render. -/
def log : Job G → List (ℕ × ℕ)
  | .whole nodes grains => logNodes (R none) grains max nodes none []
  | .sectioned sections full sources =>
    partsLog R (allGrains sections sources) max 0 (sectionParts sections full sources)

/-- A render fails or stays within the limit, and no buffer outgrows it by more than
what is being appended. -/
structure Bounded (job : Job G) : Prop where
  output : ∀ s, job.render R max = .ok s → utf8Len s ≤ max
  buffer : ∀ x ∈ job.log R max, x.1 + x.2 ≤ max + x.2

/-- The lengths of a template and its values pass the limit nowhere but at the end of an
iteration, of a section, or before a failing filter. -/
def ExcessLast (L : Option ℕ → Lengths G) : Job G → Prop
  | .whole nodes grains => Template.ExcessLast max (emitsNodes (L none) grains nodes none)
  | .sectioned sections full sources =>
    PartsExcessLast L (allGrains sections sources) max 0 (sectionParts sections full sources)

end Job

/-- A value of `n` bytes under every name. -/
def longValues (n : ℕ) : Resolver Unit (List Char) Unit where
  resolve := fun _ _ => List.replicate n 'x'
  applyFilter := fun v _ => .ok v
  display := id
  isTruthy := fun _ => true
  grainType := fun _ => []

theorem longValue_not_bounded (max : ℕ) (name : List Char) :
    ¬ (Job.whole [.variable name []] ([] : List Unit)).Bounded (fun _ => longValues (max + 1))
      max := by
  intro h
  have hrender : (Job.whole [.variable name []] ([] : List Unit)).render
      (fun _ => longValues (max + 1)) max = .ok (List.replicate (max + 1) 'x') := by
    simp [Job.render, renderTemplate, renderNodes, renderNode, longValues, pure, Except.pure]
  have hout := h.output _ hrender
  have hx : Char.utf8Size 'x' = 1 := rfl
  have hlen : ∀ n, utf8Len (List.replicate n 'x') = n := by
    intro n
    induction n with
    | zero => rfl
    | succ n ih =>
      rw [List.replicate_succ, utf8Len, List.map_cons, List.sum_cons, hx]
      rw [utf8Len] at ih
      omega
  rw [hlen] at hout
  omega

/-- `{{$n}}`. -/
def noteTag : List Char := ['{', '{', '$', 'n', '}', '}']

/-- Whether a template is one variable without filters. -/
def isLoneVariable (name : List Char) : Except TemplateError (List TemplateNode) → Bool
  | .ok [.variable name' []] => name' == name
  | _ => false

theorem parse_noteTag :
    parseTemplate (fun _ => true) noteTag = .ok [.variable ['$', 'n'] []] := by
  have hlone : isLoneVariable ['$', 'n'] (parseTemplate (fun _ => true) noteTag) = true := by
    decide +kernel
  unfold isLoneVariable at hlone
  split at hlone
  · rename_i name hparse
    rw [hparse, beq_iff_eq.1 hlone]
  · cases hlone

end Deja.Template
