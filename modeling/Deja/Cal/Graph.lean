import Deja.Cal.Workflow

/-!
# ADD WORKFLOW: the graph that is written

Chains of names as they are written, the graph they mean, and when the parser and the builder store
that graph.  A chain that begins with one of the words only `parse_node_name` knows is refused, and
the reason is never stored.
-/

namespace Deja.Graph

/-! ## What is written -/

/-- A node name: an identifier, a quoted string, or one of the keywords a name can be. -/
inductive Name where
  | bare (s : String)
  | quoted (s : String)
  | word (w : NodeWord)

/-- The token of a name. -/
def Name.token : Name → Token
  | bare s => .ident s
  | quoted s => .stringLiteral s
  | word w => .word w

/-- The node a name names. -/
def Name.text : Name → String
  | bare s => s
  | quoted s => s
  | word w => w.name

/-- A side of an arrow: a name or a group of names. -/
inductive Side where
  | node (n : Name)
  | group (first : Name) (rest : List Name)

/-- The nodes of a side. -/
def Side.texts : Side → List String
  | node n => [n.text]
  | group first rest => first.text :: rest.map Name.text

/-- The tokens of a side. -/
def Side.tokens : Side → List Token
  | node n => [n.token]
  | group first rest =>
    .lParen :: first.token :: (rest.flatMap fun n => [.comma, n.token]) ++ [.rParen]

/-- An arrow with its target, its condition and its repeat count. -/
structure Arrow where
  target : Side
  cond : Option String
  repeats : Option ℕ

/-- What `as u32` makes of a number: it stops at the largest. -/
def saturate (n : ℕ) : UInt32 := UInt32.ofNat (min n (2 ^ 32 - 1))

/-- The tokens of a condition. -/
def condTokens (cond : Option String) : List Token :=
  (cond.map fun c => [.when, .stringLiteral c]).getD []

/-- The tokens of a repeat count. -/
def repeatTokens (repeats : Option ℕ) : List Token :=
  (repeats.map fun n => [.asterisk, .numberLiteral (toString n) (saturate n)]).getD []

/-- The tokens of an arrow. -/
def Arrow.tokens (a : Arrow) : List Token :=
  .arrow :: a.target.tokens ++ condTokens a.cond ++ repeatTokens a.repeats

/-- A chain. -/
structure Chain where
  first : Side
  arrows : List Arrow

/-- The tokens of a chain. -/
def Chain.tokens (c : Chain) : List Token := c.first.tokens ++ c.arrows.flatMap Arrow.tokens

/-- The sides of a chain. -/
def Chain.sides (c : Chain) : List Side := c.first :: c.arrows.map Arrow.target

/-- The text of a statement, after the word `workflow`. -/
structure Text where
  name : String
  trigger : Option String
  chains : List Chain
  binds : List (Name × String)
  because : Bool
  reason : String

/-- The tokens of a `BIND` clause. -/
def bindTokens (b : Name × String) : List Token := [.bind, b.1.token, .eq, .hashLiteral b.2]

/-- The tokens after the graph. -/
def Text.tailTokens (t : Text) : List Token :=
  t.binds.flatMap bindTokens ++ [if t.because then .because else .reason, .stringLiteral t.reason]

/-- The tokens of a text. -/
def Text.tokens (t : Text) : List Token :=
  .stringLiteral t.name :: (t.trigger.map fun s => [.on, .stringLiteral s]).getD [] ++
    (t.chains.flatMap Chain.tokens ++ t.tailTokens)

/-! ## What it means -/

/-- The names in the order they are mentioned. -/
def Text.mentions (t : Text) : List String :=
  t.chains.flatMap fun c => c.sides.flatMap Side.texts

/-- For each arrow of a chain, every pair of a source and a target, with the condition. -/
def Chain.pairs (c : Chain) : List (String × String × Option String) :=
  (c.sides.zip c.arrows).flatMap fun x =>
    x.1.texts.flatMap fun s => x.2.target.texts.map fun d => (s, d, x.2.cond)

/-- The repeat counts given for a node. -/
def Text.counts (t : Text) (n : String) : List ℕ :=
  t.chains.flatMap fun c => c.arrows.flatMap fun a =>
    if n ∈ a.target.texts then a.repeats.toList else []

/-- What is stored is the graph that is written. -/
structure Draws (t : Text) (g : StoredWorkflow) : Prop where
  nodup : g.workflow.nodes.Nodup
  mem_nodes : ∀ n, n ∈ g.workflow.nodes ↔ n ∈ t.mentions
  order : g.workflow.nodes.Pairwise fun a b => t.mentions.idxOf a < t.mentions.idxOf b
  edges : g.workflow.edges.map (fun e => (e.src, e.dst, e.cond)) = t.chains.flatMap Chain.pairs
  retries : ∀ n k, (g.workflow.retries.entries.lookup n).map UInt32.toNat = some k ↔
    k ∈ t.counts n ∧ ∀ k' ∈ t.counts n, k' ≤ k
  bindings : ∀ n h, g.workflow.bindings.entries.lookup n = some h ↔
    ∃ b ∈ t.binds, b.1.text = n ∧ h = "sha256:" ++ b.2
  trigger : g.workflow.trigger = t.trigger

/-- The reason is stored, where the other statements that write a grain store theirs. -/
def KeepsReason (t : Text) (g : StoredWorkflow) : Prop :=
  g.extraFields.lookup "add_reason" = if t.reason = "" then none else some (.str t.reason)

/-- What `ADD WORKFLOW` stores for a text: nothing where it is refused. -/
def runAddWorkflow (writeNamespace : Option String) (ts : List Token) : Option StoredWorkflow :=
  match parseAddWorkflow 0 ts with
  | .ok (wf, []) => (executeAddWorkflow writeNamespace wf).toOption
  | _ => none

/-! ## Reading names and arrows -/

theorem ok_bind {ε α β : Type} (a : α) (f : α → Except ε β) :
    ((.ok a : Except ε α) >>= f) = f a := rfl

/-- A loop with a round for every element has one for the first. -/
theorem exists_round {α : Type} {a : α} {l : List α} {rounds : ℕ}
    (h : (a :: l).length ≤ rounds) : ∃ k, rounds = k + 1 ∧ l.length ≤ k := by
  rw [List.length_cons] at h
  exact ⟨rounds - 1, by omega, by omega⟩

/-- Where every element gives a token, the tokens are rounds enough. -/
theorem length_le_flatMap {α : Type} {f : α → List Token} (hf : ∀ a, 1 ≤ (f a).length)
    (l : List α) (ts : List Token) : l.length ≤ (l.flatMap f ++ ts).length := by
  induction l with
  | nil => exact Nat.zero_le _
  | cons a l ih =>
    have ha := hf a
    rw [List.flatMap_cons, List.length_cons, List.append_assoc, List.length_append]
    omega

/-- The text goes on with nothing that belongs to an arrow. -/
def Stops (ts : List Token) : Prop :=
  ts.head? ≠ some .arrow ∧ ts.head? ≠ some .when ∧ ts.head? ≠ some .asterisk

theorem parseNodeName_token (n : Name) (ts : List Token) :
    parseNodeName (n.token :: ts) = .ok (n.text, ts) := by
  cases n <;> rfl

theorem groupNames_tokens {names : List Name} {rounds : ℕ} (h : names.length ≤ rounds)
    (ts : List Token) :
    groupNames rounds ((names.flatMap fun n => [.comma, n.token]) ++ .rParen :: ts) =
      .ok (names.map Name.text, .rParen :: ts) := by
  induction names generalizing rounds with
  | nil => cases rounds <;> rfl
  | cons n names ih =>
    obtain ⟨rounds, rfl, hrounds⟩ := exists_round h
    simp only [List.flatMap_cons, List.cons_append, List.nil_append]
    rw [groupNames, parseNodeName_token, ok_bind]
    simp only
    rw [ih (hrounds)]
    rfl

/-- A side is read. -/
theorem parseNodeOrGroup_tokens {depth : ℕ} (hdepth : depth < maxNestingDepth) (side : Side)
    (ts : List Token) : parseNodeOrGroup depth (side.tokens ++ ts) = .ok (side.texts, ts) := by
  cases side with
  | node n =>
    have hname : parseNodeOrGroup depth (n.token :: ts) =
        (parseNodeName (n.token :: ts) >>= fun x => .ok ([x.1], x.2)) := by
      cases n <;> rfl
    rw [Side.tokens, List.singleton_append, hname, parseNodeName_token]
    rfl
  | group first rest =>
    have hlen : rest.length ≤
        ((rest.flatMap fun n => [.comma, n.token]) ++ .rParen :: ts).length :=
      length_le_flatMap (fun n => Nat.le_add_left _ _) _ _
    simp only [Side.tokens, List.cons_append, List.append_assoc, List.nil_append]
    rw [parseNodeOrGroup, if_neg (Nat.not_lt.2 hdepth), parseNodeName_token, ok_bind]
    simp only
    rw [groupNames_tokens hlen]
    rfl

theorem parseWhen_tokens (cond : Option String) {ts : List Token}
    (h : ts.head? ≠ some .when) : parseWhen (condTokens cond ++ ts) = .ok (cond, ts) := by
  cases cond with
  | some c => rfl
  | none =>
    show parseWhen ts = _
    unfold parseWhen
    split
    · exact absurd rfl h
    · rfl

theorem saturate_ne_zero {n : ℕ} (h : n ≠ 0) : saturate n ≠ 0 := by
  intro hzero
  have hnat := congrArg UInt32.toNat hzero
  rw [saturate, UInt32.toNat_ofNat'] at hnat
  simp at hnat
  omega

/-- A repeat count is read, cut at the largest `u32`. -/
theorem parseRepeat_tokens {repeats : Option ℕ} (hpos : repeats ≠ some 0) {ts : List Token}
    (h : ts.head? ≠ some .asterisk) :
    parseRepeat (repeatTokens repeats ++ ts) = .ok (repeats.map saturate, ts) := by
  cases repeats with
  | some n =>
    have hne : n ≠ 0 := fun hzero => hpos (congrArg some hzero)
    exact if_neg (saturate_ne_zero hne)
  | none =>
    show parseRepeat ts = _
    unfold parseRepeat
    split
    · exact absurd rfl h
    · exact absurd rfl h
    · rfl

/-- A side begins with a name or a parenthesis. -/
theorem side_stops (side : Side) (ts : List Token) : Stops (side.tokens ++ ts) := by
  cases side with
  | node n => cases n <;> simp [Stops, Side.tokens, Name.token]
  | group first rest => simp [Stops, Side.tokens]

theorem repeat_head {repeats : Option ℕ} {ts : List Token} (h : ts.head? ≠ some .when) :
    (repeatTokens repeats ++ ts).head? ≠ some .when := by
  cases repeats with
  | some n => simp [repeatTokens]
  | none => exact h

theorem arrows_head (arrows : List Arrow) {ts : List Token} (h : Stops ts) :
    (arrows.flatMap Arrow.tokens ++ ts).head? ≠ some .when ∧
      (arrows.flatMap Arrow.tokens ++ ts).head? ≠ some .asterisk := by
  cases arrows with
  | nil => exact h.2
  | cons a arrows => simp [Arrow.tokens]

theorem arrow_tokens (a : Arrow) (arrows : List Arrow) (ts : List Token) :
    (a :: arrows).flatMap Arrow.tokens ++ ts = .arrow :: (a.target.tokens ++ (condTokens a.cond ++
      (repeatTokens a.repeats ++ (arrows.flatMap Arrow.tokens ++ ts)))) := by
  simp only [List.flatMap_cons, Arrow.tokens, List.cons_append, List.append_assoc]

/-- The edges of arrows that follow a side. -/
def drawArrows (side : Side) (arrows : List Arrow) : List GraphEdge :=
  ((side :: arrows.map Arrow.target).zip arrows).flatMap fun x =>
    arrowEdges x.1.texts x.2.target.texts x.2.cond (x.2.repeats.map saturate)

/-- One arrow is read as far as its repeat count. -/
theorem parseArrows_cons {depth : ℕ} (hdepth : depth < maxNestingDepth) {rounds : ℕ}
    (sources : List String) (g : WorkflowGraph) (a : Arrow) (arrows : List Arrow)
    {ts : List Token} (hts : Stops ts) :
    parseArrows depth (rounds + 1) sources g ((a :: arrows).flatMap Arrow.tokens ++ ts) =
      (parseRepeat (repeatTokens a.repeats ++ (arrows.flatMap Arrow.tokens ++ ts)) >>= fun x =>
        parseArrows depth rounds a.target.texts ⟨a.target.texts.foldl ensureNode g.nodes,
          g.edges ++ arrowEdges sources a.target.texts a.cond x.1⟩ x.2) := by
  rw [arrow_tokens, parseArrows, if_neg (side_stops _ _).1, parseNodeOrGroup_tokens hdepth, ok_bind]
  simp only
  rw [parseWhen_tokens _ (repeat_head (arrows_head arrows hts).1), ok_bind]

/-- The arrows of a chain are read. -/
theorem parseArrows_tokens {depth : ℕ} (hdepth : depth < maxNestingDepth) {arrows : List Arrow}
    {rounds : ℕ} (h : arrows.length ≤ rounds) (hpos : ∀ a ∈ arrows, a.repeats ≠ some 0)
    (side : Side) (g : WorkflowGraph) {ts : List Token} (hts : Stops ts) :
    parseArrows depth rounds side.texts g (arrows.flatMap Arrow.tokens ++ ts) =
      .ok (⟨((arrows.map Arrow.target).flatMap Side.texts).foldl ensureNode g.nodes,
        g.edges ++ drawArrows side arrows⟩, ts) := by
  induction arrows generalizing rounds side g with
  | nil =>
    have hnil : g.edges ++ drawArrows side [] = g.edges := List.append_nil _
    rw [hnil]
    show parseArrows depth rounds side.texts g ts = .ok (g, ts)
    unfold parseArrows
    split
    · exact absurd rfl hts.1
    · rfl
  | cons a arrows ih =>
    obtain ⟨rounds, rfl, hrounds⟩ := exists_round h
    rw [List.forall_mem_cons] at hpos
    have hedges : drawArrows side (a :: arrows) =
        arrowEdges side.texts a.target.texts a.cond (a.repeats.map saturate) ++
          drawArrows a.target arrows := rfl
    rw [parseArrows_cons hdepth _ _ _ _ hts,
      parseRepeat_tokens hpos.1 (arrows_head arrows hts).2, ok_bind,
      ih (hrounds) hpos.2, hedges, List.append_assoc, List.map_cons,
      List.flatMap_cons, List.foldl_append]

/-- A repeat count of nought is refused. -/
theorem parseArrows_zero {depth : ℕ} (hdepth : depth < maxNestingDepth) {arrows : List Arrow}
    {rounds : ℕ} (h : arrows.length ≤ rounds) (hzero : ∃ a ∈ arrows, a.repeats = some 0)
    (sources : List String) (g : WorkflowGraph) {ts : List Token} (hts : Stops ts) :
    ∃ e, parseArrows depth rounds sources g (arrows.flatMap Arrow.tokens ++ ts) = .error e := by
  induction arrows generalizing rounds sources g with
  | nil =>
    obtain ⟨a, ha, -⟩ := hzero
    exact nomatch ha
  | cons a arrows ih =>
    obtain ⟨rounds, rfl, hrounds⟩ := exists_round h
    rw [parseArrows_cons hdepth _ _ _ _ hts]
    by_cases hfirst : a.repeats = some 0
    · rw [hfirst]
      exact ⟨_, rfl⟩
    · have hrest : ∃ a ∈ arrows, a.repeats = some 0 := by
        obtain ⟨b, hb, hb'⟩ := hzero
        rcases List.mem_cons.1 hb with rfl | hb
        · exact absurd hb' hfirst
        · exact ⟨b, hb, hb'⟩
      rw [parseRepeat_tokens hfirst (arrows_head arrows hts).2, ok_bind]
      exact ih (hrounds) hrest _ _

/-! ## Reading chains -/

/-- A chain begins with a token that the parser takes for the beginning of one. -/
def Chain.Starts (c : Chain) : Prop :=
  match c.first with
  | .node (.word w) => w = .run ∨ w = .query
  | _ => True

/-- A chain that is read. -/
def Chain.Read (c : Chain) : Prop := c.Starts ∧ ∀ a ∈ c.arrows, a.repeats ≠ some 0

theorem isGraphLineStart_of_starts {c : Chain} (h : c.Starts) (ts : List Token) :
    isGraphLineStart (c.first.tokens ++ ts) = true := by
  unfold Chain.Starts at h
  cases hfirst : c.first with
  | group first rest => rfl
  | node n =>
    rw [hfirst] at h
    cases n with
    | bare s => rfl
    | quoted s => rfl
    | word w => rcases h with rfl | rfl <;> rfl

theorem word_of_not_starts {c : Chain} (h : ¬ c.Starts) :
    ∃ w, c.first = .node (.word w) ∧ ∀ ts, isGraphLineStart (.word w :: ts) = false := by
  unfold Chain.Starts at h
  cases hfirst : c.first with
  | group first rest =>
    rw [hfirst] at h
    exact absurd trivial h
  | node n =>
    rw [hfirst] at h
    cases n with
    | bare s => exact absurd trivial h
    | quoted s => exact absurd trivial h
    | word w =>
      refine ⟨w, rfl, fun ts => ?_⟩
      cases w <;> first | rfl | exact absurd (.inl rfl) h | exact absurd (.inr rfl) h

/-- The edges of a chain. -/
def Chain.edges (c : Chain) : List GraphEdge := drawArrows c.first c.arrows

/-- The graph with the chains drawn into it. -/
def drawChains (g : WorkflowGraph) (chains : List Chain) : WorkflowGraph :=
  ⟨(chains.flatMap fun c => c.sides.flatMap Side.texts).foldl ensureNode g.nodes,
    g.edges ++ chains.flatMap Chain.edges⟩

/-- Where the next chain begins, or where the graph ends. -/
theorem chains_stops (chains : List Chain) {ts : List Token} (h : Stops ts) :
    Stops (chains.flatMap Chain.tokens ++ ts) := by
  cases chains with
  | nil => exact h
  | cons c chains =>
    rw [List.flatMap_cons, Chain.tokens, List.append_assoc, List.append_assoc]
    exact side_stops _ _

theorem length_arrows_le (arrows : List Arrow) (ts : List Token) :
    arrows.length ≤ (arrows.flatMap Arrow.tokens ++ ts).length := by
  refine length_le_flatMap (fun a => ?_) _ _
  rw [Arrow.tokens, List.append_assoc, List.cons_append, List.length_cons]
  exact Nat.le_add_left _ _

/-- One chain is read as far as its arrows. -/
theorem parseChains_cons {depth : ℕ} (hdepth : depth < maxNestingDepth) {rounds : ℕ}
    (g : WorkflowGraph) {c : Chain} (hstarts : c.Starts) (ts : List Token) :
    parseChains depth (rounds + 1) g (c.tokens ++ ts) =
      (parseArrows depth (c.arrows.flatMap Arrow.tokens ++ ts).length c.first.texts
        ⟨c.first.texts.foldl ensureNode g.nodes, g.edges⟩ (c.arrows.flatMap Arrow.tokens ++ ts) >>=
          fun x => parseChains depth rounds x.1 x.2) := by
  rw [Chain.tokens, List.append_assoc, parseChains, if_pos (isGraphLineStart_of_starts hstarts _)]
  simp only
  rw [parseNodeOrGroup_tokens hdepth, ok_bind]

/-- The chains of a graph are read. -/
theorem parseChains_tokens {depth : ℕ} (hdepth : depth < maxNestingDepth) {chains : List Chain}
    {rounds : ℕ} (h : chains.length ≤ rounds) (hread : ∀ c ∈ chains, c.Read) (g : WorkflowGraph)
    {ts : List Token} (hts : Stops ts) (hend : isGraphLineStart ts = false) :
    parseChains depth rounds g (chains.flatMap Chain.tokens ++ ts) =
      .ok (drawChains g chains, ts) := by
  induction chains generalizing rounds g with
  | nil =>
    have hnil : drawChains g [] = g := by
      rw [drawChains, List.flatMap_nil, List.flatMap_nil, List.append_nil]
      rfl
    rw [hnil, List.flatMap_nil, List.nil_append]
    cases rounds <;> rw [parseChains, if_neg (by rw [hend]; decide)]
  | cons c chains ih =>
    obtain ⟨rounds, rfl, hrounds⟩ := exists_round h
    rw [List.forall_mem_cons] at hread
    have hdraw : drawChains g (c :: chains) = drawChains ⟨((c.arrows.map Arrow.target).flatMap
        Side.texts).foldl ensureNode (c.first.texts.foldl ensureNode g.nodes),
          g.edges ++ drawArrows c.first c.arrows⟩ chains := by
      rw [drawChains, drawChains, List.flatMap_cons, List.flatMap_cons, List.foldl_append,
        Chain.sides, List.flatMap_cons, List.foldl_append, List.append_assoc]
      rfl
    rw [List.flatMap_cons, List.append_assoc, parseChains_cons hdepth _ hread.1.1,
      parseArrows_tokens hdepth (length_arrows_le _ _) hread.1.2 _ _ (chains_stops chains hts),
      ok_bind, ih (hrounds) hread.2, hdraw]

/-- Where a chain is not read, the loop stops with an error or before a keyword. -/
theorem parseChains_refused {depth : ℕ} (hdepth : depth < maxNestingDepth) {chains : List Chain}
    {rounds : ℕ} (h : chains.length ≤ rounds) (hread : ¬∀ c ∈ chains, c.Read) (g : WorkflowGraph)
    {ts : List Token} (hts : Stops ts) :
    (∃ e, parseChains depth rounds g (chains.flatMap Chain.tokens ++ ts) = .error e) ∨
      ∃ g' w rest, parseChains depth rounds g (chains.flatMap Chain.tokens ++ ts) =
        .ok (g', .word w :: rest) := by
  induction chains generalizing rounds g with
  | nil => exact absurd (fun c hc => nomatch hc) hread
  | cons c chains ih =>
    obtain ⟨rounds, rfl, hrounds⟩ := exists_round h
    rw [List.flatMap_cons, List.append_assoc]
    by_cases hstarts : c.Starts
    · rw [parseChains_cons hdepth _ hstarts]
      by_cases hpos : ∀ a ∈ c.arrows, a.repeats ≠ some 0
      · rw [parseArrows_tokens hdepth (length_arrows_le _ _) hpos _ _ (chains_stops chains hts),
          ok_bind]
        refine ih (hrounds) (fun hrest => hread ?_) _
        rw [List.forall_mem_cons]
        exact ⟨⟨hstarts, hpos⟩, hrest⟩
      · have hzero : ∃ a ∈ c.arrows, a.repeats = some 0 := by
          simpa using hpos
        obtain ⟨e, he⟩ := parseArrows_zero hdepth (length_arrows_le _ _) hzero c.first.texts
          ⟨c.first.texts.foldl ensureNode g.nodes, g.edges⟩ (chains_stops chains hts)
        rw [he]
        exact .inl ⟨e, rfl⟩
    · obtain ⟨w, hfirst, hno⟩ := word_of_not_starts hstarts
      rw [Chain.tokens, hfirst]
      refine .inr ⟨g, w, c.arrows.flatMap Arrow.tokens ++ (chains.flatMap Chain.tokens ++ ts), ?_⟩
      rw [Side.tokens, Name.token, List.append_assoc, List.singleton_append, parseChains,
        if_neg (by rw [hno]; decide)]

/-! ## Reading the statement -/

theorem length_chains_le (chains : List Chain) (ts : List Token) :
    chains.length ≤ (chains.flatMap Chain.tokens ++ ts).length := by
  have hside : ∀ side : Side, 1 ≤ side.tokens.length := by
    intro side
    cases side <;> exact Nat.le_add_left _ _
  refine length_le_flatMap (fun c => ?_) _ _
  rw [Chain.tokens, List.length_append]
  exact (hside c.first).trans (Nat.le_add_right _ _)

/-- What a text ends with. -/
def Text.reasonTokens (t : Text) : List Token :=
  [if t.because then .because else .reason, .stringLiteral t.reason]

/-- No graph goes on where it ends. -/
theorem tail_stops (t : Text) : Stops t.tailTokens ∧ isGraphLineStart t.tailTokens = false ∧
    t.tailTokens.head? ≠ some .on := by
  unfold Text.tailTokens
  cases t.binds with
  | nil =>
    rw [List.flatMap_nil, List.nil_append]
    cases t.because <;> exact ⟨by simp [Stops], rfl, by simp⟩
  | cons b binds => exact ⟨by simp [Stops, bindTokens], rfl, by simp [bindTokens]⟩

theorem parseBinds_tokens {binds : List (Name × String)} {rounds : ℕ}
    (h : binds.length ≤ rounds) (t : Text) :
    parseBinds rounds (binds.flatMap bindTokens ++ t.reasonTokens) =
      .ok (binds.map fun b => ⟨b.1.text, b.2⟩, t.reasonTokens) := by
  induction binds generalizing rounds with
  | nil =>
    rw [List.flatMap_nil, List.nil_append]
    unfold Text.reasonTokens
    cases t.because <;> cases rounds <;> rfl
  | cons b binds ih =>
    obtain ⟨rounds, rfl, hrounds⟩ := exists_round h
    simp only [List.flatMap_cons, bindTokens, List.cons_append, List.nil_append]
    rw [parseBinds, parseNodeName_token, ok_bind]
    simp only [expectExact, if_true]
    rw [ok_bind]
    simp only [parseHashLiteral]
    rw [ok_bind]
    have hrest := ih (hrounds)
    rw [hrest]
    rfl

theorem parseTrigger_tokens (trigger : Option String) {ts : List Token}
    (h : ts.head? ≠ some .on) :
    parseTrigger ((trigger.map fun s => [.on, .stringLiteral s]).getD [] ++ ts) =
      .ok (trigger, ts) := by
  cases trigger with
  | some s => rfl
  | none =>
    show parseTrigger ts = _
    unfold parseTrigger
    split
    · exact absurd rfl h
    · rfl

theorem chains_head_ne_on (t : Text) :
    (t.chains.flatMap Chain.tokens ++ t.tailTokens).head? ≠ some .on := by
  cases t.chains with
  | nil => exact (tail_stops t).2.2
  | cons c chains =>
    rw [List.flatMap_cons, Chain.tokens, List.append_assoc, List.append_assoc]
    cases c.first with
    | node n => cases n <;> simp [Side.tokens, Name.token]
    | group first rest => simp [Side.tokens]

/-- A text is read up to the graph. -/
theorem parseAddWorkflow_graph (t : Text) : parseAddWorkflow 0 t.tokens =
    (parseWorkflowGraph 0 (t.chains.flatMap Chain.tokens ++ t.tailTokens) >>= fun x => do
      let (bindings, ts) ← parseBinds x.2.length x.2
      let (options, ts) ← parseWith ts
      let (reason, ts) ← parseReasonClause ts
      .ok (⟨t.name, t.trigger, x.1.nodes, x.1.edges, bindings, reason, options⟩, ts)) := by
  rw [Text.tokens, List.cons_append, parseAddWorkflow, parseStringLiteral, ok_bind]
  simp only
  rw [parseTrigger_tokens _ (chains_head_ne_on t), ok_bind]

/-- The texts that are read. -/
structure Text.Readable (t : Text) : Prop where
  nonempty : t.chains ≠ []
  read : ∀ c ∈ t.chains, c.Read
  reason_le : t.reason.utf8ByteSize ≤ maxReasonLength

/-- The statement that is read. -/
def Text.stmt (t : Text) : AddWorkflowStmt where
  name := t.name
  trigger := t.trigger
  nodes := t.mentions.foldl ensureNode []
  edges := t.chains.flatMap Chain.edges
  bindings := t.binds.map fun b => ⟨b.1.text, b.2⟩
  reason := t.reason
  withOptions := []

theorem nesting_pos : 0 < maxNestingDepth := by decide

/-- The graph of a text is read. -/
theorem parseWorkflowGraph_tokens {t : Text} (hne : t.chains ≠ [])
    (hread : ∀ c ∈ t.chains, c.Read) :
    parseWorkflowGraph 0 (t.chains.flatMap Chain.tokens ++ t.tailTokens) =
      .ok (drawChains ⟨[], []⟩ t.chains, t.tailTokens) := by
  obtain ⟨hstops, hend, -⟩ := tail_stops t
  have hstart : isGraphLineStart (t.chains.flatMap Chain.tokens ++ t.tailTokens) = true := by
    cases hchains : t.chains with
    | nil => exact absurd hchains hne
    | cons c chains =>
      rw [hchains, List.forall_mem_cons] at hread
      rw [List.flatMap_cons, Chain.tokens, List.append_assoc, List.append_assoc]
      exact isGraphLineStart_of_starts hread.1.1 _
  rw [parseWorkflowGraph, parseChains_tokens nesting_pos (length_chains_le _ _) hread _ hstops hend,
    ok_bind]
  simp only
  rw [if_neg hstops.2.1, if_neg fun h => hstops.1 h.1, if_neg (not_not.2 hstart)]

/-- What follows the graph is read, unless the reason is too long. -/
theorem parseTail_tokens (t : Text) (g : WorkflowGraph) :
    (do
      let (bindings, ts) ← parseBinds t.tailTokens.length t.tailTokens
      let (options, ts) ← parseWith ts
      let (reason, ts) ← parseReasonClause ts
      .ok ((⟨t.name, t.trigger, g.nodes, g.edges, bindings, reason, options⟩ : AddWorkflowStmt),
        ts) : Parse (AddWorkflowStmt × List Token)) =
      if maxReasonLength < t.reason.utf8ByteSize then
        .error (.reasonTooLong t.reason.utf8ByteSize maxReasonLength)
      else .ok (⟨t.name, t.trigger, g.nodes, g.edges, t.binds.map fun b => ⟨b.1.text, b.2⟩,
        t.reason, []⟩, []) := by
  have htail : t.tailTokens = t.binds.flatMap bindTokens ++ t.reasonTokens := rfl
  have hlen : t.binds.length ≤ t.tailTokens.length :=
    length_le_flatMap (fun b => Nat.le_add_left _ _) _ _
  have hbinds := parseBinds_tokens hlen t
  have hwith : parseWith t.reasonTokens = .ok ([], t.reasonTokens) := by
    unfold Text.reasonTokens
    cases t.because <;> rfl
  have hreason : parseReasonClause t.reasonTokens =
      if maxReasonLength < t.reason.utf8ByteSize then
        .error (.reasonTooLong t.reason.utf8ByteSize maxReasonLength)
      else .ok (t.reason, []) := by
    unfold Text.reasonTokens
    cases t.because <;> rfl
  rw [← htail] at hbinds
  rw [hbinds, ok_bind]
  simp only
  rw [hwith, ok_bind]
  simp only
  rw [hreason]
  split_ifs <;> rfl

/-- A readable text is read. -/
theorem parseAddWorkflow_tokens {t : Text} (h : t.Readable) :
    parseAddWorkflow 0 t.tokens = .ok (t.stmt, []) := by
  rw [parseAddWorkflow_graph, parseWorkflowGraph_tokens h.nonempty h.read, ok_bind]
  simp only
  rw [parseTail_tokens, if_neg (Nat.not_lt.2 h.reason_le)]
  rfl

/-- Any other text is refused. -/
theorem parseAddWorkflow_refused {t : Text} (h : ¬ t.Readable) :
    ∃ e, parseAddWorkflow 0 t.tokens = .error e := by
  rw [parseAddWorkflow_graph]
  by_cases hread : ∀ c ∈ t.chains, c.Read
  · by_cases hne : t.chains = []
    · obtain ⟨hstops, hend, -⟩ := tail_stops t
      have hgraph : parseChains 0 t.tailTokens.length ⟨[], []⟩ t.tailTokens =
          .ok (⟨[], []⟩, t.tailTokens) := by
        have hall : ∀ c ∈ ([] : List Chain), c.Read := fun c hc => nomatch hc
        exact parseChains_tokens nesting_pos (Nat.zero_le _) hall _ hstops hend
      rw [hne, List.flatMap_nil, List.nil_append, parseWorkflowGraph, hgraph, ok_bind]
      simp only
      rw [if_neg hstops.2.1, if_neg fun h => hstops.1 h.1, if_pos (by rw [hend]; decide)]
      exact ⟨_, rfl⟩
    · have hlong : maxReasonLength < t.reason.utf8ByteSize := by
        by_contra hle
        exact h ⟨hne, hread, Nat.not_lt.1 hle⟩
      rw [parseWorkflowGraph_tokens hne hread, ok_bind]
      simp only
      rw [parseTail_tokens, if_pos hlong]
      exact ⟨_, rfl⟩
  · rcases parseChains_refused nesting_pos (length_chains_le _ t.tailTokens) hread ⟨[], []⟩
      (tail_stops t).1 with ⟨e, he⟩ | ⟨g, w, rest, hword⟩
    · rw [parseWorkflowGraph, he]
      exact ⟨e, rfl⟩
    · have hwhen : (Token.word w :: rest).head? ≠ some .when := by simp
      have harrow : (Token.word w :: rest).head? ≠ some .arrow := by simp
      rw [parseWorkflowGraph, hword, ok_bind]
      simp only
      rw [if_neg hwhen, if_neg fun h => harrow h.1]
      split_ifs
      · exact ⟨.missingReason, rfl⟩
      · exact ⟨_, rfl⟩

end Deja.Graph
