import Deja.Template.Parse

/-!
# Templates: the renderer

A node tree rendered over a list of grains.  What a variable resolves to, the
filters and what counts as true are parameters, bundled as a `Resolver`; the
render context and the assembly they read are fixed for one render.

`bareNodes` takes every comment out of a tree; neither the renderer nor the
check of the variables sees a difference.
-/

namespace Deja.Template

/-- What the renderer asks of grains and values: `resolve_variable`,
`apply_filter`, `to_display`, `is_truthy` and the grain type. -/
structure Resolver (G V E : Type) where
  resolve : List Char → Option (G × ℕ) → V
  applyFilter : V → Filter → Except E V
  display : V → List Char
  isTruthy : V → Bool
  grainType : G → List Char

/-- The errors of a render. -/
inductive RenderError (E : Type) where
  | filter (e : E)
  | outputTooLarge (size max : ℕ)

/-- `MAX_EACH_ITERATIONS`. -/
def maxEachIterations : ℕ := 200

section Render

variable {G V E : Type} (R : Resolver G V E) (grains : List G) (maxOutputSize : ℕ)

/-- The iterations of an `{{#each}}`: the output is bounded after each grain. -/
def eachGrain (body : Option (G × ℕ) → List Char → Except (RenderError E) (List Char)) :
    List (G × ℕ) → List Char → Except (RenderError E) (List Char)
  | [], output => .ok output
  | g :: rest, output =>
    match body (some g) output with
    | .error e => .error e
    | .ok output =>
      if maxOutputSize < utf8Len output then
        .error (.outputTooLarge (utf8Len output) maxOutputSize)
      else eachGrain body rest output

mutual

/-- One node of `render_nodes`: the output with what the node adds. -/
def renderNode : TemplateNode → Option (G × ℕ) → List Char → Except (RenderError E) (List Char)
  | .text s, _, output => .ok (output ++ s)
  | .variable name filters, current, output =>
    match filters.foldlM R.applyFilter (R.resolve name current) with
    | .error e => .error (.filter e)
    | .ok value => .ok (output ++ R.display value)
  | .each _ body, _, output =>
    eachGrain maxOutputSize (fun current output => renderNodes body current output)
      (grains.take maxEachIterations).zipIdx output
  | .condition field ifBody elseBody, current, output =>
    if R.isTruthy (R.resolve field current) then renderNodes ifBody current output
    else renderNodes elseBody current output
  | .invertedSection field body, current, output =>
    if R.isTruthy (R.resolve field current) then .ok output
    else renderNodes body current output
  | .grainTypeBlock grainType body, current, output =>
    match current with
    | some g => if R.grainType g.1 = grainType then renderNodes body current output else .ok output
    | none => .ok output
  | .comment _, _, output => .ok output

/-- `render_nodes`. -/
def renderNodes : List TemplateNode → Option (G × ℕ) → List Char →
    Except (RenderError E) (List Char)
  | [], _, output => .ok output
  | node :: nodes, current, output =>
    match renderNode node current output with
    | .error e => .error e
    | .ok output => renderNodes nodes current output

end

/-- `render_with_limit` of a whole-result template. -/
def renderTemplate (nodes : List TemplateNode) : Except (RenderError E) (List Char) :=
  renderNodes R grains maxOutputSize nodes none []

end Render

/-! ## Trees without comments -/

mutual

/-- A node without the comments inside it. -/
def bareNode : TemplateNode → TemplateNode
  | .text s => .text s
  | .variable name filters => .variable name filters
  | .each collection body => .each collection (bareNodes body)
  | .condition field ifBody elseBody => .condition field (bareNodes ifBody) (bareNodes elseBody)
  | .invertedSection field body => .invertedSection field (bareNodes body)
  | .grainTypeBlock grainType body => .grainTypeBlock grainType (bareNodes body)
  | .comment s => .comment s

/-- Nodes without comments at any depth. -/
def bareNodes : List TemplateNode → List TemplateNode
  | [] => []
  | .comment _ :: nodes => bareNodes nodes
  | node :: nodes => bareNode node :: bareNodes nodes

end

/-- Whether a node is a comment. -/
def isComment : TemplateNode → Bool
  | .comment _ => true
  | _ => false

theorem bareNodes_cons (node : TemplateNode) (nodes : List TemplateNode) :
    bareNodes (node :: nodes) =
      if isComment node then bareNodes nodes else bareNode node :: bareNodes nodes := by
  cases node <;> simp [bareNodes, isComment]

/-- Dropping nodes that are comments leaves the tree without comments as it is. -/
theorem bareNodes_filter {p : TemplateNode → Bool} (hp : ∀ n, p n = false → isComment n = true)
    (nodes : List TemplateNode) : bareNodes (nodes.filter p) = bareNodes nodes := by
  induction nodes with
  | nil => rfl
  | cons node nodes ih =>
    by_cases h : p node = true
    · rw [List.filter_cons_of_pos h, bareNodes_cons, bareNodes_cons, ih]
    · rw [List.filter_cons_of_neg h, ih, bareNodes_cons, if_pos (hp node (by simpa using h))]

section Bare

variable {G V E : Type} {R : Resolver G V E} {grains : List G} {maxOutputSize : ℕ}

mutual

theorem renderNode_bare : ∀ (node : TemplateNode) (current : Option (G × ℕ)) (output : List Char),
    renderNode R grains maxOutputSize (bareNode node) current output =
      renderNode R grains maxOutputSize node current output
  | .text _, _, _ => rfl
  | .variable _ _, _, _ => rfl
  | .each _ body, _, _ => by
    simp only [bareNode, renderNode]
    congr 1
    funext current output
    exact renderNodes_bare body current output
  | .condition _ ifBody elseBody, current, output => by
    simp only [bareNode, renderNode, renderNodes_bare ifBody, renderNodes_bare elseBody]
  | .invertedSection _ body, current, output => by
    simp only [bareNode, renderNode, renderNodes_bare body]
  | .grainTypeBlock _ body, current, output => by
    simp only [bareNode, renderNode, renderNodes_bare body]
  | .comment _, _, _ => rfl

/-- **Comments do not render.** -/
theorem renderNodes_bare : ∀ (nodes : List TemplateNode) (current : Option (G × ℕ))
    (output : List Char), renderNodes R grains maxOutputSize (bareNodes nodes) current output =
      renderNodes R grains maxOutputSize nodes current output
  | [], _, _ => rfl
  | node :: nodes, current, output => by
    rw [bareNodes_cons]
    by_cases h : isComment node = true
    · rw [if_pos h, renderNodes_bare nodes]
      cases node <;> simp [isComment] at h
      simp only [renderNodes, renderNode]
    · rw [if_neg h]
      simp only [renderNodes, renderNode_bare node, renderNodes_bare nodes]

end

end Bare

mutual

theorem validateNode_bare (validName : List Char → Bool) : ∀ node : TemplateNode,
    validateNode validName (bareNode node) = validateNode validName node
  | .text _ => rfl
  | .variable _ _ => rfl
  | .each _ body => by
    simp only [bareNode, validateNode, validateVariables_bare validName body]
  | .condition _ ifBody elseBody => by
    simp only [bareNode, validateNode, validateVariables_bare validName ifBody,
      validateVariables_bare validName elseBody]
  | .invertedSection _ body => by
    simp only [bareNode, validateNode, validateVariables_bare validName body]
  | .grainTypeBlock _ body => by
    simp only [bareNode, validateNode, validateVariables_bare validName body]
  | .comment _ => rfl

/-- The check of the variables passes over comments. -/
theorem validateVariables_bare (validName : List Char → Bool) : ∀ nodes : List TemplateNode,
    validateVariables validName (bareNodes nodes) = validateVariables validName nodes
  | [] => rfl
  | node :: nodes => by
    rw [bareNodes_cons]
    by_cases h : isComment node = true
    · rw [if_pos h, validateVariables_bare validName nodes]
      cases node <;> simp [isComment] at h
      simp only [validateVariables, validateNode]
    · rw [if_neg h]
      simp only [validateVariables, validateNode_bare validName node,
        validateVariables_bare validName nodes]

end

end Deja.Template
