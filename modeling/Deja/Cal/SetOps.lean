import Deja.Cal.Agree
import Deja.Cal.Execute
import Deja.Core.Sample

/-!
# Chains of set operations

`q₁ UNION q₂ EXCEPT q₃` is parsed into one statement with one operator, the
first; the others are read and dropped.  A chain means what it says where its
operators are all the same, and in general only there
(`chain_means_iff_operatorsAgree`).

* `parseSetOpTail_chain` — what the parser makes of a chain.
* `execSetOp_chain` — what the executor makes of that.
-/

namespace Deja.Cal

variable {G B : Type}

/-! ## The parser -/

/-- The text after a statement, as `parse_set_op_tail` reads it: an operand,
parenthesized or a bare `RECALL`, is one item. -/
inductive Item (B : Type) where
  | setOp (op : SetOp)
  | operand (s : Statement B)
  | other

/-- The refusals of `parse_set_op_tail`. -/
inductive SetOpError where
  | operandExpected
  | tooManySetOperands (count max : ℕ)

/-- `MAX_SET_OPERANDS`. -/
def maxSetOperands : ℕ := 4

/-- `parse_paren_statement` or `parse_recall_stmt`, whichever the text asks for. -/
def parseOperand : List (Item B) → Except SetOpError (Statement B × List (Item B))
  | .operand s :: rest => .ok (s, rest)
  | _ => .error .operandExpected

/-- The loop over further operands, which reads an operator and forgets it. -/
def parseOperands (operands : List (Statement B)) :
    List (Item B) → Except SetOpError (List (Statement B) × List (Item B))
  | .setOp _ :: rest =>
    if maxSetOperands ≤ operands.length then
      .error (.tooManySetOperands (operands.length + 1) maxSetOperands)
    else match rest with
      | .operand s :: rest => parseOperands (operands ++ [s]) rest
      | _ => .error .operandExpected
  | items => .ok (operands, items)

/-- `parse_set_op_tail`. -/
def parseSetOpTail (first : Statement B) :
    List (Item B) → Except SetOpError (Statement B × List (Item B))
  | .setOp op :: rest => do
    let (rhs, rest) ← parseOperand rest
    let (operands, rest) ← parseOperands [first, rhs] rest
    .ok (.setOp op operands, rest)
  | items => .ok (first, items)

/-- A chain after its first operand: each operator with the operand behind it. -/
abbrev Chain (B : Type) := List (SetOp × RecallStmt B)

/-- The text of a chain. -/
def Chain.items (rest : Chain B) : List (Item B) :=
  rest.flatMap fun x => [.setOp x.1, .operand (.recallStmt x.2)]

/-- The operands of a chain as statements. -/
def Chain.operands (rest : Chain B) : List (Statement B) := rest.map fun x => .recallStmt x.2

theorem parseOperands_chain (rest : Chain B) : ∀ operands : List (Statement B),
    parseOperands operands rest.items =
      if operands.length + rest.length ≤ maxSetOperands ∨ rest = [] then
        .ok (operands ++ rest.operands, [])
      else .error
        (.tooManySetOperands (max operands.length maxSetOperands + 1) maxSetOperands) := by
  induction rest with
  | nil =>
    intro operands
    simp [Chain.items, Chain.operands, parseOperands]
  | cons x rest ih =>
    intro operands
    have hitems : Chain.items (x :: rest) =
        .setOp x.1 :: .operand (.recallStmt x.2) :: Chain.items rest := rfl
    rw [hitems, parseOperands]
    by_cases hmax : maxSetOperands ≤ operands.length
    · have hmore : ¬ (operands.length + (x :: rest).length ≤ maxSetOperands ∨ x :: rest = []) := by
        simp only [List.length_cons, reduceCtorEq, or_false]
        omega
      rw [if_pos hmax, if_neg hmore, max_eq_left hmax]
    · rw [if_neg hmax, ih]
      have hlen : (operands ++ [Statement.recallStmt x.2]).length + rest.length =
          operands.length + (x :: rest).length := by
        simp only [List.length_append, List.length_cons, List.length_nil]
        omega
      have happ : operands ++ [Statement.recallStmt x.2] ++ Chain.operands rest =
          operands ++ Chain.operands (x :: rest) := by
        simp [Chain.operands]
      rw [hlen, happ]
      cases rest with
      | nil =>
        have hle : operands.length + [x].length ≤ maxSetOperands := by
          simp only [List.length_singleton]
          omega
        rw [if_pos (.inr rfl), if_pos (.inl hle)]
      | cons y rest =>
        simp only [reduceCtorEq, or_false, List.length_append, List.length_singleton]
        rw [max_eq_right (by omega), max_eq_right (by omega)]

/-- **The parser keeps the first operator of a chain and every operand**, as
long as these are not too many. -/
theorem parseSetOpTail_chain (first : Statement B) (x : SetOp × RecallStmt B) (rest : Chain B) :
    parseSetOpTail first (Chain.items (x :: rest)) =
      if rest.length + 2 ≤ maxSetOperands then
        .ok (.setOp x.1 (first :: Chain.operands (x :: rest)), [])
      else .error (.tooManySetOperands (maxSetOperands + 1) maxSetOperands) := by
  have hitems : Chain.items (x :: rest) =
      .setOp x.1 :: .operand (.recallStmt x.2) :: Chain.items rest := rfl
  have hmax : maxSetOperands = 4 := rfl
  rw [hitems, parseSetOpTail]
  simp only [parseOperand, parseOperands_chain, bind, Except.bind, List.length_cons,
    List.length_nil]
  by_cases hle : rest.length + 2 ≤ maxSetOperands
  · rw [if_pos (.inl (by omega)), if_pos hle]
    rfl
  · have hne : rest ≠ [] := by
      rintro rfl
      exact hle (by simp [hmax])
    rw [if_neg (by simp only [hne, or_false]; omega), if_neg hle]
    rfl

/-! ## What a chain means -/

/-- The hashes of the grains of a result. -/
def hashesOf (gs : List GrainResult) : List String := gs.map GrainResult.hash

/-- What an operator does to sets. -/
def SetOp.onSets (left right : Set String) : SetOp → Set String
  | .union => left ∪ right
  | .intersect => left ∩ right
  | .except => left \ right

/-- The sets of the operands, combined from left to right by the operators
written between them. -/
def combined (matching : RecallStmt B → Set String) (first : RecallStmt B) (rest : Chain B) :
    Set String :=
  rest.foldl (fun s x => x.1.onSets s (matching x.2)) (matching first)

/-- A list of grains holds each grain of a set once. -/
structure Lists (gs : List GrainResult) (s : Set String) : Prop where
  nodup : (hashesOf gs).Nodup
  mem_iff : ∀ h, h ∈ hashesOf gs ↔ h ∈ s

/-- A result that a limit cuts off lists what matches only where nothing is cut. -/
theorem Lists.take_iff {all : List GrainResult} {s : Set String} (h : Lists all s) (limit : ℕ) :
    Lists (all.take limit) s ↔ all.length ≤ limit := by
  constructor
  · intro hcut
    have hsub : hashesOf all ⊆ hashesOf (all.take limit) := fun x hx =>
      (hcut.mem_iff x).2 ((h.mem_iff x).1 hx)
    have hle := (h.nodup.subperm hsub).length_le
    simp only [hashesOf, List.length_map, List.length_take] at hle
    omega
  · intro hle
    rwa [List.take_of_length_le hle]

theorem hashesOf_filter (p : String → Bool) (gs : List GrainResult) :
    hashesOf (gs.filter fun g => p g.hash) = (hashesOf gs).filter p := by
  simp [hashesOf, List.filter_map, Function.comp_def]

/-- Each operator on lists is that operator on sets. -/
theorem Lists.apply {left right : List GrainResult} {s t : Set String} (hl : Lists left s)
    (hr : Lists right t) (op : SetOp) : Lists (op.apply left right) (op.onSets s t) := by
  have hright : hashesOf (right.filter fun g => !(left.map GrainResult.hash).contains g.hash) =
      (hashesOf right).filter fun h => !(hashesOf left).contains h :=
    hashesOf_filter (fun h => !(left.map GrainResult.hash).contains h) right
  have hkeep : hashesOf (left.filter fun g => (right.map GrainResult.hash).contains g.hash) =
      (hashesOf left).filter fun h => (hashesOf right).contains h :=
    hashesOf_filter (fun h => (right.map GrainResult.hash).contains h) left
  have hdrop : hashesOf (left.filter fun g => !(right.map GrainResult.hash).contains g.hash) =
      (hashesOf left).filter fun h => !(hashesOf right).contains h :=
    hashesOf_filter (fun h => !(right.map GrainResult.hash).contains h) left
  cases op with
  | union =>
    have happ : hashesOf (SetOp.union.apply left right) =
        hashesOf left ++ (hashesOf right).filter fun h => !(hashesOf left).contains h := by
      rw [← hright]
      exact List.map_append
    constructor
    · rw [happ]
      refine hl.nodup.append (hr.nodup.filter _) fun h hleft hnew => ?_
      have := (List.mem_filter.1 hnew).2
      simp [hleft] at this
    · intro h
      rw [happ, List.mem_append, List.mem_filter, hr.mem_iff]
      by_cases hleft : h ∈ hashesOf left
      · simp [hleft, SetOp.onSets, (hl.mem_iff h).1 hleft]
      · have hs : h ∉ s := fun hs => hleft ((hl.mem_iff h).2 hs)
        simp [hleft, SetOp.onSets, hs]
  | intersect =>
    constructor
    · rw [SetOp.apply, hkeep]
      exact hl.nodup.filter _
    · intro h
      rw [SetOp.apply, hkeep, List.mem_filter, hl.mem_iff, List.contains_iff_mem, hr.mem_iff]
      exact Iff.rfl
  | except =>
    constructor
    · rw [SetOp.apply, hdrop]
      exact hl.nodup.filter _
    · intro h
      rw [SetOp.apply, hdrop, List.mem_filter, hl.mem_iff, Bool.not_eq_true',
        ← Bool.not_eq_true, List.contains_iff_mem, hr.mem_iff]
      exact Iff.rfl

/-- The fold of the executor over results that list the sets of the operands. -/
theorem lists_foldl (op : SetOp) {matching : RecallStmt B → Set String} {rest : Chain B}
    {gss : List (List GrainResult)}
    (h : List.Forall₂ (fun x gs => Lists gs (matching x.2)) rest gss) :
    ∀ {gs : List GrainResult} {s : Set String}, Lists gs s →
      Lists (gss.foldl (fun acc next => op.apply acc next) gs)
        (rest.foldl (fun s x => op.onSets s (matching x.2)) s) := by
  induction h with
  | nil => exact fun hs => hs
  | cons hgs _ ih => exact fun hs => ih (hs.apply hgs op)

/-! ## Execution -/

variable {C : Core G} (arms : Arms C B) (cfg : CalExecutorConfig) (L : Shipped) (scan : ScanOrder)

/-- The `RECALL` of an operand, run by itself in a memory, lists the grains
that match it. -/
def Answers (fuel : ℕ) (ctx : Context B) (m : Memory) (matching : RecallStmt B → Set String)
    (r : RecallStmt B) : Prop :=
  ∃ p, exec arms cfg L scan fuel (.recallStmt r) ctx.surrogate m = .ok p m ∧
    Lists (extractGrains p) (matching r)

theorem execGrains_answers {fuel : ℕ} {ctx : Context B} {m : Memory}
    {matching : RecallStmt B → Set String} {r : RecallStmt B}
    (h : Answers arms cfg L scan fuel ctx m matching r) :
    ∃ gs, execGrains (exec arms cfg L scan fuel) ctx (.recallStmt r) m = .ok gs m ∧
      Lists gs (matching r) := by
  obtain ⟨p, hrun, hlists⟩ := h
  refine ⟨extractGrains p, ?_, hlists⟩
  simp [execGrains, bind, EStateM.bind, hrun, pure, EStateM.pure]

/-- The operands run one after the other, and leave the memory as it was. -/
theorem mapM_answers {fuel : ℕ} {ctx : Context B} {m : Memory}
    {matching : RecallStmt B → Set String} (rest : Chain B)
    (h : ∀ x ∈ rest, Answers arms cfg L scan fuel ctx m matching x.2) :
    ∃ gss, rest.operands.mapM (execGrains (exec arms cfg L scan fuel) ctx) m = .ok gss m ∧
      List.Forall₂ (fun x gs => Lists gs (matching x.2)) rest gss := by
  induction rest with
  | nil => exact ⟨[], rfl, .nil⟩
  | cons x rest ih =>
    obtain ⟨hx, hrest⟩ := List.forall_mem_cons.1 h
    obtain ⟨gs, hrun, hlists⟩ := execGrains_answers arms cfg L scan hx
    obtain ⟨gss, hruns, hall⟩ := ih hrest
    refine ⟨gs :: gss, ?_, .cons hlists hall⟩
    have hops : Chain.operands (x :: rest) = .recallStmt x.2 :: Chain.operands rest := rfl
    rw [hops, List.mapM_cons]
    simp [bind, EStateM.bind, hrun, hruns, pure, EStateM.pure]

/-- **The executor combines the operands with the one operator it is given.** -/
theorem execSetOp_chain {fuel : ℕ} {ctx : Context B} {m : Memory}
    {matching : RecallStmt B → Set String} (op : SetOp) (first : RecallStmt B) (rest : Chain B)
    (hfirst : Answers arms cfg L scan fuel ctx m matching first)
    (hrest : ∀ x ∈ rest, Answers arms cfg L scan fuel ctx m matching x.2) :
    ∃ gs, execSetOp (exec arms cfg L scan fuel) op (.recallStmt first :: rest.operands) ctx m =
        .ok (.grains gs) m ∧
      Lists gs (rest.foldl (fun s x => op.onSets s (matching x.2)) (matching first)) := by
  obtain ⟨gs, hrun, hlists⟩ := execGrains_answers arms cfg L scan hfirst
  obtain ⟨gss, hruns, hall⟩ := mapM_answers arms cfg L scan rest hrest
  refine ⟨gss.foldl (fun acc next => op.apply acc next) gs, ?_, lists_foldl op hall hlists⟩
  simp [execSetOp, List.mapM_cons, bind, EStateM.bind, hrun, hruns, pure, EStateM.pure]

/-- A session that may read. -/
def MayRead (cfg : CalExecutorConfig) : Prop :=
  cfg.callerScopes.isEmpty ∨ "admin" ∈ cfg.callerScopes ∨ "read" ∈ cfg.callerScopes ∨
    "write" ∈ cfg.callerScopes

/-- A query that is a chain, run on a memory where every operand answers with
the grains that match it, returns each grain of the combined sets once. -/
def ChainMeans (fuel : ℕ) (ctx : Context B) (m : Memory) (matching : RecallStmt B → Set String)
    (first : RecallStmt B) (x : SetOp × RecallStmt B) (rest : Chain B) : Prop :=
  ∀ s p m', parseSetOpTail (.recallStmt first) (Chain.items (x :: rest)) = .ok (s, []) →
    exec arms cfg L scan (fuel + 1) s ctx m = .ok p m' →
    Lists (extractGrains p) (combined matching first (x :: rest))

theorem exec_setOp_eq_ok {fuel : ℕ} {ctx : Context B} {m m' : Memory} {op : SetOp}
    {operands : List (Statement B)} {p : Payload}
    (h : exec arms cfg L scan (fuel + 1) (.setOp op operands) ctx m = .ok p m') :
    execSetOp (exec arms cfg L scan fuel) op operands ctx m = .ok p m' := by
  rw [exec] at h
  cases hscope : checkCallerScope cfg (Statement.setOp op operands) with
  | error e => simp [reading, hscope, bind, EStateM.bind] at h
  | ok u => simpa [reading, hscope, bind, EStateM.bind] using h

/-- **A chain whose operators are all the same means what it says.** -/
theorem chainMeans_of_same {fuel : ℕ} {ctx : Context B} {m : Memory}
    {matching : RecallStmt B → Set String} {first : RecallStmt B} {x : SetOp × RecallStmt B}
    {rest : Chain B} (hsame : ∀ y ∈ rest, y.1 = x.1)
    (hfirst : Answers arms cfg L scan fuel ctx m matching first)
    (hrest : ∀ y ∈ x :: rest, Answers arms cfg L scan fuel ctx m matching y.2) :
    ChainMeans arms cfg L scan fuel ctx m matching first x rest := by
  intro s p m' hparse hrun
  rw [parseSetOpTail_chain] at hparse
  split at hparse
  · cases hparse
    obtain ⟨gs, hgs, hlists⟩ := execSetOp_chain arms cfg L scan x.1 first (x :: rest) hfirst hrest
    rw [exec_setOp_eq_ok arms cfg L scan hrun] at hgs
    cases hgs
    have hfold : ∀ (l : Chain B), (∀ y ∈ l, y.1 = x.1) → ∀ s : Set String,
        l.foldl (fun s y => y.1.onSets s (matching y.2)) s =
          l.foldl (fun s y => x.1.onSets s (matching y.2)) s := by
      intro l hl s
      exact List.foldl_ext _ _ _ fun s y hy => by rw [hl y hy]
    rw [combined, hfold _ (List.forall_mem_cons.2 ⟨rfl, hsame⟩)]
    exact hlists
  · cases hparse

/-! ## Chains of different operators -/

/-- What an operator does to one grain, by whether each side has it. -/
def SetOp.onBool (left right : Bool) : SetOp → Bool
  | .union => left || right
  | .intersect => left && right
  | .except => left && !right

theorem SetOp.mem_onSets {s t : Set String} {h : String} {a b : Bool} (hs : h ∈ s ↔ a = true)
    (ht : h ∈ t ↔ b = true) (op : SetOp) : h ∈ op.onSets s t ↔ op.onBool a b = true := by
  cases op with
  | union => simp [onSets, onBool, hs, ht]
  | intersect => simp [onSets, onBool, hs, ht]
  | except => simp [onSets, onBool, hs, ht]

/-- Two operators that differ at the end of a chain are told apart by a grain. -/
theorem SetOp.exists_ne_two {o a : SetOp} (h : a ≠ o) :
    ∃ w y z : Bool, a.onBool (o.onBool w y) z ≠ o.onBool (o.onBool w y) z := by
  cases o <;> cases a <;> first | exact absurd rfl h | decide

theorem SetOp.exists_ne_three {o a b : SetOp} (h : a ≠ o ∨ b ≠ o) :
    ∃ w y z u : Bool, b.onBool (a.onBool (o.onBool w y) z) u ≠
      o.onBool (o.onBool (o.onBool w y) z) u := by
  cases o <;> cases a <;> cases b <;> first | simp at h; done | decide

/-- The membership of one grain in the combined sets, for a grain that is in
the set of each operand as `f` says. -/
def foldBool (f : RecallStmt B → Bool) (opOf : SetOp × RecallStmt B → SetOp) (a : Bool)
    (l : Chain B) : Bool :=
  l.foldl (fun a y => (opOf y).onBool a (f y.2)) a

theorem mem_foldl_onSets {f : RecallStmt B → Bool} {matching : RecallStmt B → Set String}
    {h : String} (hf : ∀ r, h ∈ matching r ↔ f r = true)
    (opOf : SetOp × RecallStmt B → SetOp) (l : Chain B) :
    ∀ {s : Set String} {a : Bool}, (h ∈ s ↔ a = true) →
      (h ∈ l.foldl (fun s y => (opOf y).onSets s (matching y.2)) s ↔
        foldBool f opOf a l = true) := by
  induction l with
  | nil => exact fun hs => hs
  | cons y l ih => exact fun hs => ih (SetOp.mem_onSets hs (hf y.2) (opOf y))

/-- Distinct elements take any values. -/
theorem exists_map_eq {α β : Type} [Inhabited β] {l : List α} (hl : l.Nodup) :
    ∀ bs : List β, bs.length = l.length → ∃ f : α → β, l.map f = bs := by
  classical
  induction l with
  | nil =>
    intro bs hlen
    obtain rfl := List.length_eq_zero_iff.1 hlen
    exact ⟨fun _ => default, rfl⟩
  | cons a l ih =>
    intro bs hlen
    obtain ⟨hnot, hnodup⟩ := List.nodup_cons.1 hl
    cases bs with
    | nil => simp at hlen
    | cons b bs =>
      obtain ⟨f, hf⟩ := ih hnodup bs (by simpa using hlen)
      refine ⟨fun c => if c = a then b else f c, ?_⟩
      rw [List.map_cons, if_pos rfl, ← hf]
      congr 1
      refine List.map_congr_left fun c hc => if_neg ?_
      rintro rfl
      exact hnot hc

/-- **A chain whose operators differ is told apart by one grain.** -/
theorem exists_foldBool_ne {first : RecallStmt B} {x : SetOp × RecallStmt B} {rest : Chain B}
    (hlen : rest.length + 2 ≤ maxSetOperands) (hne : ¬ ∀ y ∈ rest, y.1 = x.1)
    (hnodup : (first :: (x :: rest).map Prod.snd).Nodup) :
    ∃ f : RecallStmt B → Bool, foldBool f Prod.fst (f first) (x :: rest) ≠
      foldBool f (fun _ => x.1) (f first) (x :: rest) := by
  have hmax : maxSetOperands = 4 := rfl
  match rest with
  | [] => exact absurd (by simp) hne
  | [y] =>
    obtain ⟨w, b, c, hbits⟩ := SetOp.exists_ne_two (o := x.1) (a := y.1) (by simpa using hne)
    obtain ⟨f, hf⟩ := exists_map_eq hnodup [w, b, c] rfl
    simp only [List.map_cons, List.map_nil, List.cons.injEq] at hf
    obtain ⟨rfl, rfl, rfl, -⟩ := hf
    exact ⟨f, hbits⟩
  | [y, z] =>
    obtain ⟨w, b, c, d, hbits⟩ := SetOp.exists_ne_three (o := x.1) (a := y.1) (b := z.1) (by
      by_contra hsame
      simp only [not_or, not_not] at hsame
      exact hne (by simp [hsame.1, hsame.2]))
    obtain ⟨f, hf⟩ := exists_map_eq hnodup [w, b, c, d] rfl
    simp only [List.map_cons, List.map_nil, List.cons.injEq] at hf
    obtain ⟨rfl, rfl, rfl, rfl, -⟩ := hf
    exact ⟨f, hbits⟩
  | _ :: _ :: _ :: _ =>
    simp only [List.length_cons] at hlen
    omega

/-- A statement without a `CONTRADICTIONS` clause. -/
def RecallStmt.Plain : RecallStmt B → Prop
  | .mk _ contradictions inner => contradictions = false ∧ inner = none

/-- Arms that answer a `RECALL` with one grain or none. -/
def answering (C : Core G) (f : B → Bool) : Arms C B where
  read _ _ _ _ := .ok (.other "")
  append _ _ _ _ := ([], .ok (.other ""))
  control _ _ _ := pure (.other "")
  destroy _ _ _ := pure (.other "")
  recallGrains body _ _ := .ok (if f body then [⟨"a", "fact", []⟩] else [])
  finishRecall _ _ _ grains _ _ := .ok (.grains grains)
  assembleMany _ _ _ _ := .ok (.other "")
  assembleOne _ _ _ _ := .ok (.other "")
  getAll _ _ := []
  assembleOptions _ := []
  manifest _ _ _ := none
  plan _ _ _ := .ok (.other "")
  finish _ p _ := .ok p
  validate _ := .ok ()
  substitute _ _ := .ok ""
  parse _ := .error ""
  mergeOptions a _ := a
  mergeClauses b _ := b

/-- The set of the grains that `answering` answers with. -/
def answeredSet (f : B → Bool) : RecallStmt B → Set String
  | .mk body _ _ => {h | h = "a" ∧ f body = true}

theorem checkCallerScope_of_mayRead {cfg : CalExecutorConfig} (h : MayRead cfg)
    {s : Statement B} (hs : s.requiredScope = "read") : checkCallerScope cfg s = .ok () := by
  unfold checkCallerScope
  dsimp only
  rw [if_pos]
  rw [hs]
  rcases h with h | h | h | h <;> simp [h]

theorem answers_answering {cfg : CalExecutorConfig} (h : MayRead cfg) (f : B → Bool)
    (ctx : Context B) (m : Memory) {r : RecallStmt B} (hr : r.Plain) :
    Answers (answering C f) cfg L scan 1 ctx m (answeredSet f) r := by
  obtain ⟨body, contradictions, inner⟩ := r
  obtain ⟨rfl, rfl⟩ := hr
  have hscope : checkCallerScope cfg (Statement.recallStmt (.mk body false none)) = .ok () :=
    checkCallerScope_of_mayRead h rfl
  refine ⟨.grains (if f body then [⟨"a", "fact", []⟩] else []), ?_, ?_⟩
  · rw [exec]
    simp [reading, hscope, execRecall, answering, bind, EStateM.bind]
  · constructor
    · cases f body <;> simp [extractGrains, hashesOf]
    · intro a
      cases hf : f body <;> simp [extractGrains, hashesOf, answeredSet, hf]

theorem exec_setOp {cfg : CalExecutorConfig} (h : MayRead cfg) {fuel : ℕ} {ctx : Context B}
    {m : Memory} {op : SetOp} {operands : List (Statement B)} :
    exec arms cfg L scan (fuel + 1) (.setOp op operands) ctx m =
      execSetOp (exec arms cfg L scan fuel) op operands ctx m := by
  have hscope : checkCallerScope cfg (Statement.setOp op operands) = .ok () :=
    checkCallerScope_of_mayRead h rfl
  rw [exec]
  simp [reading, hscope, bind, EStateM.bind]

/-- On every memory where every operand answers with what matches it, the chain
means what it says. -/
def MeansEverywhere (C : Core G) (cfg : CalExecutorConfig) (L : Shipped) (scan : ScanOrder)
    (first : RecallStmt B) (x : SetOp × RecallStmt B) (rest : Chain B) : Prop :=
  ∀ (arms : Arms C B) (fuel : ℕ) (ctx : Context B) (m : Memory)
    (matching : RecallStmt B → Set String),
    Answers arms cfg L scan fuel ctx m matching first →
    (∀ y ∈ x :: rest, Answers arms cfg L scan fuel ctx m matching y.2) →
    ChainMeans arms cfg L scan fuel ctx m matching first x rest

/-- A chain of distinct plain operands that a session may run. -/
structure Runs (cfg : CalExecutorConfig) (first : RecallStmt B) (x : SetOp × RecallStmt B)
    (rest : Chain B) : Prop where
  mayRead : MayRead cfg
  short : rest.length + 2 ≤ maxSetOperands
  plain : first.Plain ∧ ∀ y ∈ x :: rest, y.2.Plain
  distinct : (first :: (x :: rest).map Prod.snd).Nodup

/-- The value of a function of the body at a statement. -/
def RecallStmt.body : RecallStmt B → B
  | .mk body _ _ => body

theorem RecallStmt.Plain.eq {r : RecallStmt B} (h : r.Plain) : r = .mk r.body false none := by
  obtain ⟨body, contradictions, inner⟩ := r
  obtain ⟨rfl, rfl⟩ := h
  rfl

/-- Different operators are told apart on some memory. -/
theorem not_meansEverywhere {first : RecallStmt B} {x : SetOp × RecallStmt B} {rest : Chain B}
    (h : Runs cfg first x rest) (hne : ¬ ∀ y ∈ rest, y.1 = x.1) :
    ¬ MeansEverywhere C cfg L scan first x rest := by
  intro hmeans
  obtain ⟨f, hf⟩ := exists_foldBool_ne h.short hne h.distinct
  -- the grain is in the set of an operand as `f` says of its body
  let g : B → Bool := fun b => f (.mk b false none)
  have hfirst := answers_answering (C := C) L scan h.mayRead g ⟨[], none, []⟩
    ⟨sampleStore, Host.create⟩ h.plain.1
  have hrest : ∀ y ∈ x :: rest, Answers (answering C g) cfg L scan 1 ⟨[], none, []⟩
      ⟨sampleStore, Host.create⟩ (answeredSet g) y.2 := fun y hy =>
    answers_answering (C := C) L scan h.mayRead g _ _ (h.plain.2 y hy)
  obtain ⟨gs, hrun, hlists⟩ := execSetOp_chain (answering C g) cfg L scan x.1 first (x :: rest)
    hfirst hrest
  have hparse := parseSetOpTail_chain (.recallStmt first) x rest
  rw [if_pos h.short] at hparse
  have hlisted := hmeans (answering C g) 1 _ _ (answeredSet g) hfirst hrest _ _ _ hparse
    ((exec_setOp (answering C g) L scan h.mayRead).trans hrun)
  have hiff : "a" ∈ combined (answeredSet g) first (x :: rest) ↔
      "a" ∈ (x :: rest).foldl (fun s y => x.1.onSets s (answeredSet g y.2))
        (answeredSet g first) := (hlisted.mem_iff "a").symm.trans (hlists.mem_iff "a")
  have hmem : ∀ r : RecallStmt B, "a" ∈ answeredSet g r ↔ g r.body = true := by
    rintro ⟨body, c, i⟩
    simp [answeredSet, RecallStmt.body]
  rw [combined, mem_foldl_onSets hmem Prod.fst _ (hmem first),
    mem_foldl_onSets hmem (fun _ => x.1) _ (hmem first)] at hiff
  have hg : ∀ r : RecallStmt B, r.Plain → g r.body = f r := fun r hr => by
    conv_rhs => rw [hr.eq]
  have hfold : ∀ (opOf : SetOp × RecallStmt B → SetOp) (l : Chain B),
      (∀ y ∈ l, y.2.Plain) → ∀ a, foldBool (fun r => g r.body) opOf a l = foldBool f opOf a l := by
    intro opOf l hl a
    exact List.foldl_ext _ _ _ fun a y hy => by simp only [hg _ (hl y hy)]
  rw [hfold _ _ h.plain.2, hfold _ _ h.plain.2, hg _ h.plain.1] at hiff
  exact hf (Bool.eq_iff_iff.2 hiff)

/-- **A chain of one operator means what it says, and a chain of distinct
operands only where its operators are one.** -/
theorem chain_means_iff_operatorsAgree (C : Core G) (cfg : CalExecutorConfig) (L : Shipped)
    (scan : ScanOrder) :
    (∀ (first : RecallStmt B) (x : SetOp × RecallStmt B) (rest : Chain B),
      (∀ y ∈ rest, y.1 = x.1) → MeansEverywhere C cfg L scan first x rest) ∧
    ∀ (first : RecallStmt B) (x : SetOp × RecallStmt B) (rest : Chain B),
      Runs cfg first x rest →
      (MeansEverywhere C cfg L scan first x rest ↔ ∀ y ∈ rest, y.1 = x.1) := by
  have hsame : ∀ (first : RecallStmt B) (x : SetOp × RecallStmt B) (rest : Chain B),
      (∀ y ∈ rest, y.1 = x.1) → MeansEverywhere C cfg L scan first x rest :=
    fun first x rest hsame arms fuel ctx m matching hfirst hrest =>
      chainMeans_of_same arms cfg L scan hsame hfirst hrest
  refine ⟨hsame, fun first x rest hruns => ⟨fun hmeans => ?_, hsame first x rest⟩⟩
  by_contra hne
  exact not_meansEverywhere cfg L scan hruns hne hmeans

/-! ### On a fixed chain -/

/-- `RECALL … UNION RECALL … EXCEPT RECALL …`, over three operands. -/
def unionExcept : Chain ℕ := [(.except, .mk 2 false none)]

/-- The grain of the last operand is returned, for the parser made a union of
the difference. -/
theorem unionExcept_not_means :
    ¬ ∀ (cfg : CalExecutorConfig) (first : RecallStmt ℕ) (x : SetOp × RecallStmt ℕ)
      (rest : Chain ℕ), MeansEverywhere sampleCore cfg plainTexts storedOrder first x rest := by
  intro h
  refine not_meansEverywhere ⟨true, false, []⟩ plainTexts storedOrder ?_ ?_
    (h ⟨true, false, []⟩ (.mk 0 false none) (.union, .mk 1 false none) unionExcept)
  · refine ⟨.inl rfl, by decide, ⟨⟨rfl, rfl⟩, ?_⟩, by simp [unionExcept]⟩
    intro y hy
    rcases List.mem_cons.1 hy with rfl | hy
    · exact ⟨rfl, rfl⟩
    · obtain rfl := List.mem_singleton.1 hy
      exact ⟨rfl, rfl⟩
  · intro hsame
    exact absurd (hsame _ (List.mem_singleton_self _)) (by decide)

end Deja.Cal
