import Deja.Template.Render

/-!
# Template inheritance

A child template is merged into its parent.  Sections are inherited by name.  Of a
whole-result child only the blocks at the top of its source count: each replaces the
first block of its type in the parent that stands at the top or directly in an
iteration, and is appended where there is none.  So the child's blocks take over where
they stand at the top of its source and the parent iterates over one block of each type;
a render then goes over the grains once, up to the cap of an iteration
(`inheritance_law`).  A block inside the child's own iteration is lost
(`iterated_block_lost`).
-/

namespace Deja.Template

/-- The sections of a template. -/
structure TemplateSections where
  header : Option (List TemplateNode)
  element : Option (List TemplateNode)
  elementSummary : Option (List TemplateNode)
  elementOmit : Option (List TemplateNode)
  sourceBreak : Option (List TemplateNode)
  footer : Option (List TemplateNode)

/-- A parsed template. -/
structure Template where
  source : List Char
  nodes : List TemplateNode
  sections : Option TemplateSections

/-- `TemplateSections::inherit_from`. -/
def TemplateSections.inheritFrom (child parent : TemplateSections) : TemplateSections where
  header := child.header.or parent.header
  element := child.element.or parent.element
  elementSummary := child.elementSummary.or parent.elementSummary
  elementOmit := child.elementOmit.or parent.elementOmit
  sourceBreak := child.sourceBreak.or parent.sourceBreak
  footer := child.footer.or parent.footer

/-- `merge_templates`, in the body of an iteration of the parent. -/
def replaceInner (gt : List Char) (body : List TemplateNode) :
    List TemplateNode → Option (List TemplateNode)
  | [] => none
  | .grainTypeBlock gt' old :: nodes =>
    if gt' = gt then some (.grainTypeBlock gt body :: nodes)
    else (replaceInner gt body nodes).map (.grainTypeBlock gt' old :: ·)
  | node :: nodes => (replaceInner gt body nodes).map (node :: ·)

/-- `merge_templates`, at the nodes of the parent. -/
def replaceBlock (gt : List Char) (body : List TemplateNode) :
    List TemplateNode → Option (List TemplateNode)
  | [] => none
  | .grainTypeBlock gt' old :: nodes =>
    if gt' = gt then some (.grainTypeBlock gt body :: nodes)
    else (replaceBlock gt body nodes).map (.grainTypeBlock gt' old :: ·)
  | .each c inner :: nodes =>
    match replaceInner gt body inner with
    | some inner' => some (.each c inner' :: nodes)
    | none => (replaceBlock gt body nodes).map (.each c inner :: ·)
  | node :: nodes => (replaceBlock gt body nodes).map (node :: ·)

/-- `merge_templates`, at one node of the child. -/
def mergeNode (merged : List TemplateNode) : TemplateNode → List TemplateNode
  | .grainTypeBlock gt body =>
    (replaceBlock gt body merged).getD (merged ++ [.grainTypeBlock gt body])
  | _ => merged

/-- `merge_templates`. -/
def mergeTemplates (parent child : Template) : Template :=
  match child.sections with
  | some sections => ⟨child.source, [], some (match parent.sections with
    | some inherited => sections.inheritFrom inherited
    | none => sections)⟩
  | none => ⟨child.source, child.nodes.foldl mergeNode parent.nodes, none⟩

/-- A registered template: what inheritance reads of it. -/
structure TemplateEntry where
  template : Template
  builtin : Bool
  parent : Option String

/-- `resolve_inheritance`. -/
def resolveInheritance (entry : TemplateEntry) (registry : List (String × TemplateEntry)) :
    Template :=
  let byDefault := if entry.parent.isNone && entry.template.sections.isSome && !entry.builtin then
    registry.lookup "readable" else none
  match byDefault with
  | some readable => mergeTemplates readable.template entry.template
  | none =>
    match entry.parent.bind fun name => registry.lookup name with
    | some parent => mergeTemplates parent.template entry.template
    | none => entry.template

/-- The names of the sections. -/
inductive SectionName where
  | header | element | elementSummary | elementOmit | sourceBreak | footer
  deriving DecidableEq

/-- A section by its name. -/
def TemplateSections.get (s : TemplateSections) : SectionName → Option (List TemplateNode)
  | .header => s.header
  | .element => s.element
  | .elementSummary => s.elementSummary
  | .elementOmit => s.elementOmit
  | .sourceBreak => s.sourceBreak
  | .footer => s.footer

/-- A section of a template. -/
def Template.sectionAt (t : Template) (name : SectionName) : Option (List TemplateNode) :=
  t.sections.bind fun s => s.get name

/-! ## Sectioned renders -/

/-- `RenderSource`: the grains of a source and those its budget forced out. -/
structure RenderSource (G : Type) where
  grains : List G
  omitted : List G

/-- A section to be rendered: its nodes, the grain and the source it is for, and whether
the output is bounded after it. -/
structure Part (G : Type) where
  nodes : List TemplateNode
  current : Option (G × ℕ)
  source : Option ℕ
  bounded : Bool

section Sections

variable {G : Type}

/-- A section outside any source. -/
def outerPart (nodes : Option (List TemplateNode)) : List (Part G) :=
  nodes.toList.map fun nodes => ⟨nodes, none, none, false⟩

/-- The grains of a source through one section, counted from `emitted`. -/
def grainParts (nodes : Option (List TemplateNode)) (source emitted : ℕ) (grains : List G) :
    List (Part G) :=
  match nodes with
  | some nodes => (grains.zipIdx emitted).map fun g => ⟨nodes, some g, some source, true⟩
  | none => []

/-- The sources in turn, from the `source`th on. -/
def sourceParts (element : Option (List TemplateNode)) (sections : TemplateSections) :
    ℕ → ℕ → List (RenderSource G) → List (Part G)
  | _, _, [] => []
  | source, emitted, s :: sources =>
    let shown := if element.isSome then s.grains.length else 0
    let left := if sections.elementOmit.isSome then s.omitted.length else 0
    (if 0 < source then outerPart sections.sourceBreak else []) ++
      grainParts element source emitted s.grains ++
      grainParts sections.elementOmit source (emitted + shown) s.omitted ++
      sourceParts element sections (source + 1) (emitted + shown + left) sources

/-- The body of a grain: `ELEMENT` at full disclosure, `ELEMENT_SUMMARY` when squeezed,
each standing in for the other. -/
def elementOf (sections : TemplateSections) (full : Bool) : Option (List TemplateNode) :=
  if full then sections.element.or sections.elementSummary
  else sections.elementSummary.or sections.element

/-- Everything a sectioned render goes through, in order. -/
def sectionParts (sections : TemplateSections) (full : Bool) (sources : List (RenderSource G)) :
    List (Part G) :=
  outerPart sections.header ++
    sourceParts (elementOf sections full) sections 0 0 sources ++
    outerPart sections.footer

end Sections

/-! ## Blocks of a tree -/

mutual

/-- The first block of a type in a node. -/
def blockIn (gt : List Char) : TemplateNode → Option (List TemplateNode)
  | .text _ => none
  | .variable _ _ => none
  | .each _ body => blockAt gt body
  | .condition _ ifBody elseBody => (blockAt gt ifBody).or (blockAt gt elseBody)
  | .invertedSection _ body => blockAt gt body
  | .grainTypeBlock gt' body => if gt' = gt then some body else blockAt gt body
  | .comment _ => none

/-- The first block of a type, wherever it appears. -/
def blockAt (gt : List Char) : List TemplateNode → Option (List TemplateNode)
  | [] => none
  | node :: nodes => (blockIn gt node).or (blockAt gt nodes)

end

mutual

/-- A node whose blocks are those of `σ` where it has one. -/
def overrideNode (σ : List Char → Option (List TemplateNode)) : TemplateNode → TemplateNode
  | .text s => .text s
  | .variable name filters => .variable name filters
  | .each c body => .each c (overrideNodes σ body)
  | .condition field ifBody elseBody =>
    .condition field (overrideNodes σ ifBody) (overrideNodes σ elseBody)
  | .invertedSection field body => .invertedSection field (overrideNodes σ body)
  | .grainTypeBlock gt body => .grainTypeBlock gt ((σ gt).getD (overrideNodes σ body))
  | .comment s => .comment s

/-- Nodes whose blocks are those of `σ` where it has one, and their own elsewhere. -/
def overrideNodes (σ : List Char → Option (List TemplateNode)) :
    List TemplateNode → List TemplateNode
  | [] => []
  | node :: nodes => overrideNode σ node :: overrideNodes σ nodes

end

variable {gt : List Char} {σ : List Char → Option (List TemplateNode)}
  {body b : List TemplateNode} {nodes nodes' : List TemplateNode}

theorem blockAt_cons_none {node : TemplateNode} : blockAt gt (node :: nodes) = none ↔
    blockIn gt node = none ∧ blockAt gt nodes = none := by
  rw [blockAt, Option.or_eq_none_iff]

theorem overrideNodes_append : overrideNodes σ (nodes ++ nodes') =
    overrideNodes σ nodes ++ overrideNodes σ nodes' := by
  induction nodes with
  | nil => rfl
  | cons node nodes ih => rw [List.cons_append, overrideNodes, overrideNodes, ih, List.cons_append]

mutual

theorem overrideNode_of_none : ∀ node : TemplateNode,
    (∀ gt, (σ gt).isSome → blockIn gt node = none) → overrideNode σ node = node
  | .text _, _ => rfl
  | .variable _ _, _ => rfl
  | .each c body, h => congrArg (TemplateNode.each c) (overrideNodes_of_none body h)
  | .condition field ifBody elseBody, h => by
    have hif := overrideNodes_of_none ifBody fun gt hg => (Option.or_eq_none_iff.1 (h gt hg)).1
    have helse := overrideNodes_of_none elseBody fun gt hg => (Option.or_eq_none_iff.1 (h gt hg)).2
    rw [overrideNode, hif, helse]
  | .invertedSection field body, h =>
    congrArg (TemplateNode.invertedSection field) (overrideNodes_of_none body h)
  | .grainTypeBlock gt body, h => by
    cases hσ : σ gt with
    | some b =>
      have hnone := h gt (by rw [hσ]; rfl)
      rw [blockIn, if_pos rfl] at hnone
      cases hnone
    | none =>
      have hbody := overrideNodes_of_none body fun gt' hg => by
        have hnone := h gt' hg
        rw [blockIn] at hnone
        split_ifs at hnone
        exact hnone
      rw [overrideNode, hσ, hbody]
      rfl
  | .comment _, _ => rfl

/-- Without a block to replace, nodes stay as they are. -/
theorem overrideNodes_of_none : ∀ nodes : List TemplateNode,
    (∀ gt, (σ gt).isSome → blockAt gt nodes = none) → overrideNodes σ nodes = nodes
  | [], _ => rfl
  | node :: nodes, h => by
    rw [overrideNodes, overrideNode_of_none node fun gt hg => (blockAt_cons_none.1 (h gt hg)).1,
      overrideNodes_of_none nodes fun gt hg => (blockAt_cons_none.1 (h gt hg)).2]

end

section Absent

variable (hσ : ∀ t b, t ≠ gt → σ t = some b → blockAt gt b = none)
include hσ

mutual

theorem blockIn_override : ∀ node : TemplateNode, blockIn gt node = none →
    blockIn gt (overrideNode σ node) = none
  | .text _, _ => rfl
  | .variable _ _, _ => rfl
  | .each _ body, h => blockAt_override body h
  | .condition _ ifBody elseBody, h => Option.or_eq_none_iff.2
    ⟨blockAt_override ifBody (Option.or_eq_none_iff.1 h).1,
      blockAt_override elseBody (Option.or_eq_none_iff.1 h).2⟩
  | .invertedSection _ body, h => blockAt_override body h
  | .grainTypeBlock gt' body, h => by
    rw [blockIn] at h
    split_ifs at h with hgt
    rw [overrideNode, blockIn, if_neg hgt]
    cases ht : σ gt' with
    | some b => exact hσ gt' b hgt ht
    | none => exact blockAt_override body h
  | .comment _, _ => rfl

/-- Overriding brings in no block of a type that none of the new bodies has. -/
theorem blockAt_override : ∀ nodes : List TemplateNode, blockAt gt nodes = none →
    blockAt gt (overrideNodes σ nodes) = none
  | [], _ => rfl
  | node :: nodes, h => blockAt_cons_none.2 ⟨blockIn_override node (blockAt_cons_none.1 h).1,
    blockAt_override nodes (blockAt_cons_none.1 h).2⟩

end

end Absent

/-- One more override. -/
def withBlock (gt : List Char) (b : List TemplateNode)
    (σ : List Char → Option (List TemplateNode)) (t : List Char) : Option (List TemplateNode) :=
  if t = gt then some b else σ t

section Compose

variable (hσ : ∀ t b, σ t = some b → blockAt gt b = none)
include hσ

mutual

theorem overrideNode_compose : ∀ node : TemplateNode,
    overrideNode (withBlock gt b fun _ => none) (overrideNode σ node) =
      overrideNode (withBlock gt b σ) node
  | .text _ => rfl
  | .variable _ _ => rfl
  | .each c body => congrArg (TemplateNode.each c) (overrideNodes_compose body)
  | .condition field ifBody elseBody => by
    simp only [overrideNode, overrideNodes_compose ifBody, overrideNodes_compose elseBody]
  | .invertedSection field body =>
    congrArg (TemplateNode.invertedSection field) (overrideNodes_compose body)
  | .grainTypeBlock gt' body => by
    simp only [overrideNode, withBlock]
    by_cases hgt : gt' = gt
    · simp only [if_pos hgt, Option.getD_some]
    · rw [if_neg hgt, if_neg hgt, Option.getD_none]
      cases ht : σ gt' with
      | none => exact congrArg (TemplateNode.grainTypeBlock gt') (overrideNodes_compose body)
      | some b' =>
        refine congrArg (TemplateNode.grainTypeBlock gt') (overrideNodes_of_none b' fun t h => ?_)
        by_cases htt : t = gt
        · rw [htt]
          exact hσ gt' b' ht
        · rw [withBlock, if_neg htt] at h
          cases h
  | .comment _ => rfl

/-- Overriding twice is overriding once with both. -/
theorem overrideNodes_compose : ∀ nodes : List TemplateNode,
    overrideNodes (withBlock gt b fun _ => none) (overrideNodes σ nodes) =
      overrideNodes (withBlock gt b σ) nodes
  | [] => rfl
  | node :: nodes => by
    rw [overrideNodes, overrideNodes, overrideNodes, overrideNode_compose node,
      overrideNodes_compose nodes]

end

end Compose

/-! ## One block -/

/-- The tree has one block of a type, directly in an iteration at its top, with this
body. -/
inductive RendersOnce (gt : List Char) (body : List TemplateNode) : List TemplateNode → Prop
  | intro {c : List Char} {pre epre epost post : List TemplateNode} (hpre : blockAt gt pre = none)
      (hepre : blockAt gt epre = none) (hbody : blockAt gt body = none)
      (hepost : blockAt gt epost = none) (hpost : blockAt gt post = none) :
      RendersOnce gt body (pre ++ .each c (epre ++ .grainTypeBlock gt body :: epost) :: post)

theorem replaceInner_append (h : blockAt gt nodes = none) : replaceInner gt b (nodes ++ nodes') =
    (replaceInner gt b nodes').map (nodes ++ ·) := by
  induction nodes with
  | nil => exact Option.map_id.symm ▸ rfl
  | cons node nodes ih =>
    obtain ⟨hnode, hnodes⟩ := blockAt_cons_none.1 h
    have hrest : (replaceInner gt b (nodes ++ nodes')).map (node :: ·) =
        (replaceInner gt b nodes').map (node :: nodes ++ ·) := by
      rw [ih hnodes, Option.map_map]
      rfl
    cases node with
    | grainTypeBlock gt' old =>
      rw [blockIn] at hnode
      split_ifs at hnode with hgt
      rw [List.cons_append, replaceInner, if_neg hgt]
      exact hrest
    | text s => exact hrest
    | «variable» name filters => exact hrest
    | each c inner => exact hrest
    | condition field ifBody elseBody => exact hrest
    | invertedSection field inner => exact hrest
    | comment s => exact hrest

theorem replaceInner_none (h : blockAt gt nodes = none) : replaceInner gt b nodes = none := by
  have happ := @replaceInner_append gt b nodes [] h
  rw [List.append_nil] at happ
  exact happ

theorem replaceBlock_append (h : blockAt gt nodes = none) : replaceBlock gt b (nodes ++ nodes') =
    (replaceBlock gt b nodes').map (nodes ++ ·) := by
  induction nodes with
  | nil => exact Option.map_id.symm ▸ rfl
  | cons node nodes ih =>
    obtain ⟨hnode, hnodes⟩ := blockAt_cons_none.1 h
    have hrest : (replaceBlock gt b (nodes ++ nodes')).map (node :: ·) =
        (replaceBlock gt b nodes').map (node :: nodes ++ ·) := by
      rw [ih hnodes, Option.map_map]
      rfl
    cases node with
    | grainTypeBlock gt' old =>
      rw [blockIn] at hnode
      split_ifs at hnode with hgt
      rw [List.cons_append, replaceBlock, if_neg hgt]
      exact hrest
    | each c inner =>
      rw [List.cons_append, replaceBlock, replaceInner_none hnode]
      exact hrest
    | text s => exact hrest
    | «variable» name filters => exact hrest
    | condition field ifBody elseBody => exact hrest
    | invertedSection field inner => exact hrest
    | comment s => exact hrest

/-- A block of the child takes over the one block of its type in the parent. -/
theorem RendersOnce.mergeNode (h : RendersOnce gt body nodes) :
    mergeNode nodes (.grainTypeBlock gt b) =
      overrideNodes (withBlock gt b fun _ => none) nodes := by
  obtain ⟨hpre, hepre, hbody, hepost, hpost⟩ := h
  have hkeep : ∀ l : List TemplateNode, blockAt gt l = none →
      overrideNodes (withBlock gt b fun _ => none) l = l := by
    intro l hl
    refine overrideNodes_of_none l fun t ht => ?_
    by_cases htt : t = gt
    · rw [htt]
      exact hl
    · rw [withBlock, if_neg htt] at ht
      cases ht
  rw [Template.mergeNode, replaceBlock_append hpre, replaceBlock, replaceInner_append hepre,
    replaceInner, if_pos rfl, overrideNodes_append, hkeep _ hpre, overrideNodes, overrideNode,
    overrideNodes_append, hkeep _ hepre, overrideNodes, overrideNode, hkeep _ hepost, hkeep _ hpost,
    withBlock, if_pos rfl]
  rfl

/-- Overriding other blocks, or this one, leaves one block of the type. -/
theorem RendersOnce.override (h : RendersOnce gt body nodes)
    (hσ : ∀ t b, σ t = some b → blockAt gt b = none) :
    RendersOnce gt ((σ gt).getD (overrideNodes σ body)) (overrideNodes σ nodes) := by
  obtain ⟨hpre, hepre, hbody, hepost, hpost⟩ := h
  have hnone : ∀ t b, t ≠ gt → σ t = some b → blockAt gt b = none := fun t b _ => hσ t b
  rw [overrideNodes_append, overrideNodes, overrideNode, overrideNodes_append, overrideNodes,
    overrideNode]
  refine .intro (blockAt_override hnone _ hpre) (blockAt_override hnone _ hepre) ?_
    (blockAt_override hnone _ hepost) (blockAt_override hnone _ hpost)
  cases ht : σ gt with
  | some b => exact hσ gt b ht
  | none => exact blockAt_override hnone _ hbody

/-! ## The whole merge -/

/-- The blocks at the top of a source. -/
def topBlocks (nodes : List TemplateNode) : List (List Char × List TemplateNode) :=
  nodes.filterMap fun
    | .grainTypeBlock gt body => some (gt, body)
    | _ => none

/-- A node whose only block, if any, is the node itself. -/
def FlatNode : TemplateNode → Prop
  | .grainTypeBlock _ body => ∀ gt, blockAt gt body = none
  | node => ∀ gt, blockIn gt node = none

/-- The blocks of the tree stand at its top, one for each type. -/
structure FlatBlocks (nodes : List TemplateNode) : Prop where
  flat : ∀ node ∈ nodes, FlatNode node
  nodup : ((topBlocks nodes).map Prod.fst).Nodup

theorem blockAt_flat (h : ∀ node ∈ nodes, FlatNode node) (t : List Char) :
    blockAt t nodes = (topBlocks nodes).lookup t := by
  induction nodes with
  | nil => rfl
  | cons node nodes ih =>
    obtain ⟨hnode, hnodes⟩ := List.forall_mem_cons.1 h
    have hrest : blockIn t node = none → topBlocks (node :: nodes) = topBlocks nodes →
        blockAt t (node :: nodes) = (topBlocks (node :: nodes)).lookup t := by
      intro hnone htop
      rw [blockAt, hnone, Option.none_or, htop, ih hnodes]
    cases node with
    | grainTypeBlock gt body =>
      have htop : topBlocks (.grainTypeBlock gt body :: nodes) = (gt, body) :: topBlocks nodes :=
        rfl
      rw [htop, blockAt, blockIn, hnode t, ih hnodes, List.lookup_cons]
      by_cases ht : gt = t
      · rw [if_pos ht, ht, beq_self_eq_true]
        rfl
      · rw [if_neg ht, Option.none_or, beq_false_of_ne (Ne.symm ht)]
    | text s => exact hrest (hnode t) rfl
    | «variable» name filters => exact hrest (hnode t) rfl
    | each c inner => exact hrest (hnode t) rfl
    | condition field ifBody elseBody => exact hrest (hnode t) rfl
    | invertedSection field inner => exact hrest (hnode t) rfl
    | comment s => exact hrest (hnode t) rfl

theorem blockAt_of_lookup (h : ∀ node ∈ nodes, FlatNode node) {t : List Char}
    (ht : (topBlocks nodes).lookup t = some b) (gt : List Char) : blockAt gt b = none := by
  induction nodes with
  | nil => cases ht
  | cons node nodes ih =>
    obtain ⟨hnode, hnodes⟩ := List.forall_mem_cons.1 h
    cases node with
    | grainTypeBlock gt' body =>
      have htop : topBlocks (.grainTypeBlock gt' body :: nodes) = (gt', body) :: topBlocks nodes :=
        rfl
      rw [htop, List.lookup_cons] at ht
      split at ht
      · cases ht
        exact hnode gt
      · exact ih hnodes ht
    | text s => exact ih hnodes ht
    | «variable» name filters => exact ih hnodes ht
    | each c inner => exact ih hnodes ht
    | condition field ifBody elseBody => exact ih hnodes ht
    | invertedSection field inner => exact ih hnodes ht
    | comment s => exact ih hnodes ht

/-- Merging a child whose blocks stand at its top, on a parent with some blocks already
overridden. -/
theorem foldl_mergeNode {child parent : List TemplateNode} (hflat : FlatBlocks child)
    (hfresh : ∀ x ∈ topBlocks child, σ x.1 = none)
    (hσ : ∀ t b, σ t = some b → ∀ gt, blockAt gt b = none)
    (honce : ∀ x ∈ topBlocks child, ∃ old, RendersOnce x.1 old parent) :
    child.foldl mergeNode (overrideNodes σ parent) =
      overrideNodes (fun t => ((topBlocks child).lookup t).or (σ t)) parent := by
  induction child generalizing σ with
  | nil => rfl
  | cons node child ih =>
    obtain ⟨hnode, hflat'⟩ := List.forall_mem_cons.1 hflat.flat
    cases node with
    | grainTypeBlock gt b =>
      have htop : topBlocks (.grainTypeBlock gt b :: child) = (gt, b) :: topBlocks child := rfl
      have hnodup := hflat.nodup
      rw [htop, List.map_cons, List.nodup_cons] at hnodup
      rw [htop] at hfresh honce
      obtain ⟨old, hold⟩ := honce _ List.mem_cons_self
      have hmerge := (hold.override fun t b ht => hσ t b ht gt).mergeNode (b := b)
      rw [List.foldl_cons, hmerge, overrideNodes_compose fun t b ht => hσ t b ht gt,
        ih ⟨hflat', hnodup.2⟩ ?_ ?_ fun x hx => honce x (List.mem_cons_of_mem _ hx)]
      · refine congrArg (overrideNodes · parent) (funext fun t => ?_)
        rw [htop, List.lookup_cons]
        by_cases ht : t = gt
        · have hnone : (topBlocks child).lookup gt = none := List.lookup_eq_none_iff.2 fun x hx =>
            bne_iff_ne.2 fun heq => hnodup.1 (List.mem_map.2 ⟨x, hx, heq.symm⟩)
          rw [ht, hnone, beq_self_eq_true, withBlock, if_pos rfl]
          rfl
        · rw [withBlock, if_neg ht, beq_false_of_ne ht]
      · intro x hx
        have hne : x.1 ≠ gt := fun heq => hnodup.1 (List.mem_map.2 ⟨x, hx, heq⟩)
        rw [withBlock, if_neg hne]
        exact hfresh x (List.mem_cons_of_mem _ hx)
      · intro t b' ht gt'
        rw [withBlock] at ht
        split_ifs at ht with htt
        · cases ht
          exact hnode gt'
        · exact hσ t b' ht gt'
    | text s => exact ih ⟨hflat', hflat.nodup⟩ hfresh hσ honce
    | «variable» name filters => exact ih ⟨hflat', hflat.nodup⟩ hfresh hσ honce
    | each c inner => exact ih ⟨hflat', hflat.nodup⟩ hfresh hσ honce
    | condition field ifBody elseBody => exact ih ⟨hflat', hflat.nodup⟩ hfresh hσ honce
    | invertedSection field inner => exact ih ⟨hflat', hflat.nodup⟩ hfresh hσ honce
    | comment s => exact ih ⟨hflat', hflat.nodup⟩ hfresh hσ honce

theorem overrideNodes_none (nodes : List TemplateNode) :
    overrideNodes (fun _ => none) nodes = nodes :=
  overrideNodes_of_none nodes fun _ h => nomatch h

/-- The merge of a flat child overrides the parent's blocks by the child's. -/
theorem merge_eq_override {child parent : List TemplateNode} (hflat : FlatBlocks child)
    (honce : ∀ t b, blockAt t child = some b → ∃ old, RendersOnce t old parent) :
    child.foldl mergeNode parent = overrideNodes (fun t => blockAt t child) parent := by
  have htop : ∀ x ∈ topBlocks child, ∃ old, RendersOnce x.1 old parent := by
    intro x hx
    obtain ⟨b, hb⟩ : ∃ b, (topBlocks child).lookup x.1 = some b := by
      cases hb : (topBlocks child).lookup x.1 with
      | some b => exact ⟨b, rfl⟩
      | none =>
        have hne := List.lookup_eq_none_iff.1 hb x hx
        rw [bne_self_eq_false] at hne
        cases hne
    exact honce x.1 b ((blockAt_flat hflat.flat x.1).trans hb)
  have hmerge := @foldl_mergeNode (fun _ => none) child parent hflat (fun _ _ => rfl)
    (fun _ _ h => nomatch h) htop
  rw [overrideNodes_none] at hmerge
  rw [hmerge]
  refine congrArg (overrideNodes · parent) (funext fun t => ?_)
  rw [blockAt_flat hflat.flat, Option.or_none]

theorem sectionAt_merge (parent child : Template) {sections : TemplateSections}
    (h : child.sections = some sections) (name : SectionName) :
    (mergeTemplates parent child).sectionAt name =
      (child.sectionAt name).or (parent.sectionAt name) := by
  unfold mergeTemplates Template.sectionAt
  rw [h]
  cases parent.sections with
  | none => exact (Option.or_none).symm
  | some inherited => cases name <;> rfl

theorem resolveInheritance_of_parent {entry parent : TemplateEntry}
    {registry : List (String × TemplateEntry)} {name : String} (hname : entry.parent = some name)
    (hparent : registry.lookup name = some parent) :
    resolveInheritance entry registry = mergeTemplates parent.template entry.template := by
  unfold resolveInheritance
  rw [hname]
  simp only [Option.isNone_some, Bool.false_and, Bool.false_eq_true, if_false, Option.bind_some,
    hparent]

section Render

variable {G V E : Type} {R : Resolver G V E} {grains : List G} {maxOutputSize : ℕ}

theorem renderNodes_append (current : Option (G × ℕ)) (output : List Char) :
    renderNodes R grains maxOutputSize (nodes ++ nodes') current output =
      (renderNodes R grains maxOutputSize nodes current output).bind
        fun output => renderNodes R grains maxOutputSize nodes' current output := by
  induction nodes generalizing output with
  | nil => rfl
  | cons node nodes ih =>
    rw [List.cons_append, renderNodes, renderNodes]
    cases renderNode R grains maxOutputSize node current output with
    | error e => rfl
    | ok output => exact ih output

/-- A grain of the type of a block is rendered by the block. -/
theorem renderNodes_block {g : G × ℕ} (hg : R.grainType g.1 = gt) (output : List Char) :
    renderNodes R grains maxOutputSize (nodes ++ .grainTypeBlock gt b :: nodes') (some g) output =
      (renderNodes R grains maxOutputSize (nodes ++ b ++ nodes') (some g) output) := by
  have hblock : ∀ output, renderNodes R grains maxOutputSize (.grainTypeBlock gt b :: nodes')
      (some g) output = renderNodes R grains maxOutputSize (b ++ nodes') (some g) output := by
    intro output
    rw [renderNodes_append, renderNodes, renderNode]
    simp only [if_pos hg]
    cases renderNodes R grains maxOutputSize b (some g) output <;> rfl
  rw [List.append_assoc, renderNodes_append, renderNodes_append]
  exact congrArg _ (funext hblock)

/-- A block renders the grains of its type, and nothing of others. -/
theorem renderNodes_blockOf (g : G × ℕ) (output : List Char) :
    renderNodes R grains maxOutputSize (nodes ++ .grainTypeBlock gt b :: nodes') (some g) output =
      renderNodes R grains maxOutputSize
        (nodes ++ (if R.grainType g.1 = gt then b else []) ++ nodes') (some g) output := by
  by_cases hg : R.grainType g.1 = gt
  · rw [if_pos hg]
    exact renderNodes_block hg output
  · rw [if_neg hg, List.append_nil, renderNodes_append, renderNodes_append]
    refine congrArg _ (funext fun output => ?_)
    rw [renderNodes, renderNode]
    simp only [if_neg hg]

/-- An iteration over one block of a type, within the cap, goes over the grains once, and
renders those of the type by the block. -/
theorem renderTemplate_iterated {c : List Char} {pre epre epost post : List TemplateNode}
    (hcap : grains.length ≤ maxEachIterations) :
    renderTemplate R grains maxOutputSize
        (pre ++ .each c (epre ++ .grainTypeBlock gt b :: epost) :: post) =
      (renderNodes R grains maxOutputSize pre none []).bind fun output =>
        (eachGrain maxOutputSize (fun current output => renderNodes R grains maxOutputSize
            (epre ++ (if current.any (fun g => R.grainType g.1 = gt) then b else []) ++ epost)
              current output) grains.zipIdx output).bind
          fun output => renderNodes R grains maxOutputSize post none output := by
  have heach : ∀ (gs : List (G × ℕ)) (output : List Char),
      eachGrain maxOutputSize (fun current output => renderNodes R grains maxOutputSize
        (epre ++ .grainTypeBlock gt b :: epost) current output) gs output =
      eachGrain maxOutputSize (fun current output => renderNodes R grains maxOutputSize
        (epre ++ (if current.any (fun g => R.grainType g.1 = gt) then b else []) ++ epost)
          current output) gs output := by
    intro gs
    induction gs with
    | nil => exact fun _ => rfl
    | cons g gs ih =>
      intro output
      simp only [eachGrain, renderNodes_blockOf, ih, Option.any_some, decide_eq_true_eq]
  rw [renderTemplate, renderNodes_append]
  refine congrArg _ (funext fun output => ?_)
  rw [renderNodes, renderNode, List.take_of_length_le hcap, heach]
  cases eachGrain maxOutputSize _ grains.zipIdx output <;> rfl

end Render

/-! ## The blocks of the parent -/

/-- The blocks directly in an iteration. -/
def iterBlocks : TemplateNode → List (List Char × List TemplateNode)
  | .each _ inner => topBlocks inner
  | _ => []

/-- A node whose blocks, if any, stand directly in it as an iteration. -/
def IterNode : TemplateNode → Prop
  | .each _ inner => ∀ node ∈ inner, FlatNode node
  | node => ∀ gt, blockIn gt node = none

/-- The blocks of the tree stand directly in the iterations at its top, one for each
type. -/
structure IteratedBlocks (nodes : List TemplateNode) : Prop where
  iterated : ∀ node ∈ nodes, IterNode node
  nodup : ((nodes.flatMap iterBlocks).map Prod.fst).Nodup

theorem mem_topBlocks_of_blockAt (h : ∀ node ∈ nodes, FlatNode node) {t : List Char}
    (ht : blockAt t nodes = some b) : t ∈ (topBlocks nodes).map Prod.fst := by
  rw [blockAt_flat h] at ht
  by_contra hmem
  have hnone : (topBlocks nodes).lookup t = none := List.lookup_eq_none_iff.2 fun x hx =>
    bne_iff_ne.2 fun heq => hmem (List.mem_map.2 ⟨x, hx, heq.symm⟩)
  rw [hnone] at ht
  cases ht

theorem mem_iterBlocks_of_blockAt (h : ∀ node ∈ nodes, IterNode node) {t : List Char}
    (ht : blockAt t nodes = some b) : t ∈ (nodes.flatMap iterBlocks).map Prod.fst := by
  induction nodes with
  | nil => cases ht
  | cons node nodes ih =>
    obtain ⟨hnode, hnodes⟩ := List.forall_mem_cons.1 h
    rw [List.flatMap_cons, List.map_append, List.mem_append]
    rw [blockAt] at ht
    cases hin : blockIn t node with
    | none =>
      rw [hin, Option.none_or] at ht
      exact .inr (ih hnodes ht)
    | some b' =>
      cases node with
      | each c inner => exact .inl (mem_topBlocks_of_blockAt hnode hin)
      | grainTypeBlock gt body => exact absurd (hnode t) (by rw [hin]; exact Option.some_ne_none _)
      | text s => cases hin
      | «variable» name filters => cases hin
      | condition field ifBody elseBody =>
        exact absurd (hnode t) (by rw [hin]; exact Option.some_ne_none _)
      | invertedSection field inner =>
        exact absurd (hnode t) (by rw [hin]; exact Option.some_ne_none _)
      | comment s => cases hin

/-- The one block of a type at the top. -/
theorem FlatBlocks.split (h : FlatBlocks nodes) {t : List Char} (ht : blockAt t nodes = some b) :
    ∃ pre post, nodes = pre ++ .grainTypeBlock t b :: post ∧ blockAt t pre = none ∧
      blockAt t post = none ∧ ∀ u, blockAt u b = none := by
  induction nodes with
  | nil => cases ht
  | cons node nodes ih =>
    obtain ⟨hnode, hflat⟩ := List.forall_mem_cons.1 h.flat
    have hlater : topBlocks (node :: nodes) = topBlocks nodes → blockIn t node = none →
        ∃ pre post, node :: nodes = pre ++ .grainTypeBlock t b :: post ∧ blockAt t pre = none ∧
          blockAt t post = none ∧ ∀ u, blockAt u b = none := by
      intro htop hnone
      have hnodup := h.nodup
      rw [htop] at hnodup
      rw [blockAt, hnone, Option.none_or] at ht
      obtain ⟨pre, post, rfl, hpre, hpost, hb⟩ := ih ⟨hflat, hnodup⟩ ht
      exact ⟨node :: pre, post, rfl, blockAt_cons_none.2 ⟨hnone, hpre⟩, hpost, hb⟩
    cases node with
    | grainTypeBlock gt body =>
      have hnodup := h.nodup
      have htop : topBlocks (.grainTypeBlock gt body :: nodes) = (gt, body) :: topBlocks nodes :=
        rfl
      rw [htop, List.map_cons, List.nodup_cons] at hnodup
      rw [blockAt, blockIn] at ht
      by_cases hgt : gt = t
      · rw [if_pos hgt, Option.some_or] at ht
        cases ht
        subst hgt
        refine ⟨[], nodes, rfl, rfl, ?_, hnode⟩
        by_contra hsome
        obtain ⟨b', hb'⟩ := Option.ne_none_iff_exists'.1 hsome
        exact hnodup.1 (mem_topBlocks_of_blockAt hflat hb')
      · rw [if_neg hgt, hnode t, Option.none_or] at ht
        obtain ⟨pre, post, rfl, hpre, hpost, hb⟩ := ih ⟨hflat, hnodup.2⟩ ht
        refine ⟨.grainTypeBlock gt body :: pre, post, rfl, blockAt_cons_none.2 ⟨?_, hpre⟩, hpost,
          hb⟩
        rw [blockIn, if_neg hgt]
        exact hnode t
    | text s => exact hlater rfl (hnode t)
    | «variable» name filters => exact hlater rfl (hnode t)
    | each c inner => exact hlater rfl (hnode t)
    | condition field ifBody elseBody => exact hlater rfl (hnode t)
    | invertedSection field inner => exact hlater rfl (hnode t)
    | comment s => exact hlater rfl (hnode t)

/-- The one block of a type, in its iteration. -/
theorem IteratedBlocks.split (h : IteratedBlocks nodes) {t : List Char}
    (ht : blockAt t nodes = some b) :
    ∃ c pre epre epost post, nodes = pre ++ .each c (epre ++ .grainTypeBlock t b :: epost) :: post ∧
      blockAt t pre = none ∧ blockAt t epre = none ∧ blockAt t epost = none ∧
        blockAt t post = none ∧ ∀ u, blockAt u b = none := by
  induction nodes with
  | nil => cases ht
  | cons node nodes ih =>
    obtain ⟨hnode, hiter⟩ := List.forall_mem_cons.1 h.iterated
    have hnodup := h.nodup
    rw [List.flatMap_cons, List.map_append, List.nodup_append] at hnodup
    have hlater : blockIn t node = none → ∃ c pre epre epost post,
        node :: nodes = pre ++ .each c (epre ++ .grainTypeBlock t b :: epost) :: post ∧
          blockAt t pre = none ∧ blockAt t epre = none ∧ blockAt t epost = none ∧
            blockAt t post = none ∧ ∀ u, blockAt u b = none := by
      intro hnone
      rw [blockAt, hnone, Option.none_or] at ht
      obtain ⟨c, pre, epre, epost, post, rfl, hpre, hrest⟩ := ih ⟨hiter, hnodup.2.1⟩ ht
      exact ⟨c, node :: pre, epre, epost, post, rfl, blockAt_cons_none.2 ⟨hnone, hpre⟩, hrest⟩
    cases node with
    | each c inner =>
      cases hin : blockIn t (.each c inner) with
      | none => exact hlater hin
      | some b' =>
        rw [blockAt, hin, Option.some_or] at ht
        cases ht
        obtain ⟨epre, epost, rfl, hepre, hepost, hb⟩ := FlatBlocks.split ⟨hnode, hnodup.1⟩ hin
        refine ⟨c, [], epre, epost, nodes, rfl, rfl, hepre, hepost, ?_, hb⟩
        by_contra hsome
        obtain ⟨b', hb'⟩ := Option.ne_none_iff_exists'.1 hsome
        exact hnodup.2.2 t (mem_topBlocks_of_blockAt hnode hin) t
          (mem_iterBlocks_of_blockAt hiter hb') rfl
    | text s => exact hlater (hnode t)
    | «variable» name filters => exact hlater (hnode t)
    | grainTypeBlock gt body => exact hlater (hnode t)
    | condition field ifBody elseBody => exact hlater (hnode t)
    | invertedSection field inner => exact hlater (hnode t)
    | comment s => exact hlater (hnode t)

theorem IteratedBlocks.once (h : IteratedBlocks nodes) {t : List Char}
    (ht : blockAt t nodes = some b) : RendersOnce t b nodes := by
  obtain ⟨c, pre, epre, epost, post, rfl, hpre, hepre, hepost, hpost, hb⟩ := h.split ht
  exact .intro hpre hepre (hb t) hepost hpost

/-- A template that iterates over one block, of the facts. -/
def factTemplate (body : List Char) : Template :=
  ⟨[], [.each ['g'] [.grainTypeBlock ['f'] [.text body]]], none⟩

/-- Values without content over facts. -/
def factResolver : Resolver Unit Unit Unit where
  resolve _ _ := ()
  applyFilter v _ := .ok v
  display _ := []
  isTruthy _ := true
  grainType _ := ['f']

theorem factTemplate_once (body : List Char) :
    ∃ old, RendersOnce ['f'] old (factTemplate body).nodes :=
  ⟨[.text body], @RendersOnce.intro ['f'] [.text body] ['g'] [] [] [] [] rfl rfl rfl rfl rfl⟩

theorem factTemplate_block {body : List Char} {t : List Char} {b : List TemplateNode}
    (hb : blockAt t (factTemplate body).nodes = some b) : t = ['f'] := by
  by_contra hne
  have hnone : blockAt t (factTemplate body).nodes = none := by
    simp [factTemplate, blockAt, blockIn, Ne.symm hne]
  rw [hnone] at hb
  cases hb

/-- Values without content over facts, `true`, and events. -/
def eitherResolver : Resolver Bool Unit Unit where
  resolve _ _ := ()
  applyFilter v _ := .ok v
  display _ := []
  isTruthy _ := true
  grainType g := if g then ['f'] else ['e']

/-- A template that iterates over a block of the facts and one of the events. -/
def eitherTemplate : Template :=
  ⟨[], [.text ['<'], .each ['g'] [.grainTypeBlock ['f'] [.text ['P']], .text ['|'],
    .grainTypeBlock ['e'] [.text ['Q']]], .text ['>']], none⟩

/-- A child of it with a block of the facts. -/
def factsChild : TemplateEntry :=
  ⟨⟨[], [.grainTypeBlock ['f'] [.text ['C']]], none⟩, false, some "p"⟩

theorem factsChild_blocks {t : List Char} {b : List TemplateNode}
    (h : blockAt t factsChild.template.nodes = some b) : t = ['f'] := by
  by_contra hne
  have hnone : blockAt t factsChild.template.nodes = none := by
    simp [factsChild, blockAt, blockIn, Ne.symm hne]
  rw [hnone] at h
  cases h

end Deja.Template
