import Deja.Lib.Newest
import Deja.Spec.Prep

/-!
# The execution records of a workflow

A record of the execution of a step is a link `mg:step_action:<node_id>` from the
record to the workflow.  The relations are as many as there are nodes, so an
unfiltered `step_actions` looks them up in the dictionary the process has at hand,
asks for the first `limit` links of each, and drops what does not spell a record
afterwards.  So it returns the newest records of all nodes exactly when each record it
has not read has `limit` among those it has that are as new (`stepActions_union_iff`).
-/

namespace Deja

open OrderBy

/-! ## The relations -/

/-- `STEP_ACTION_PREFIX`. -/
def stepActionPrefix : String := "mg:step_action:"

/-- `step_action_relation`. -/
def stepActionRelation (nodeId : String) : String := stepActionPrefix ++ nodeId

/-- `step_action_node`: the node of a relation that has one. -/
def stepActionNode (relation : String) : Option String :=
  if stepActionPrefix.toList.isPrefixOf relation.toList then
    if (relation.toList.drop stepActionPrefix.toList.length).isEmpty then none
    else some (String.ofList (relation.toList.drop stepActionPrefix.toList.length))
  else none

theorem stepActionNode_eq_some {relation node : String} :
    stepActionNode relation = some node ↔ node ≠ "" ∧ relation = stepActionRelation node := by
  unfold stepActionNode stepActionRelation
  constructor
  · intro h
    split_ifs at h with hpre hempty
    obtain ⟨rest, hrest⟩ := List.isPrefixOf_iff_prefix.1 hpre
    rw [← hrest, List.drop_left] at h hempty
    cases h
    refine ⟨fun hnil => hempty ?_, String.toList_inj.1 ?_⟩
    · rw [← String.ofList_nil, String.ofList_inj] at hnil
      rw [hnil]
      rfl
    · rw [String.toList_append, String.toList_ofList, hrest]
  · rintro ⟨hne, rfl⟩
    rw [String.toList_append, if_pos (List.isPrefixOf_iff_prefix.2 (List.prefix_append _ _)),
      List.drop_left, if_neg, String.ofList_toList]
    intro hempty
    rw [List.isEmpty_iff, String.toList_eq_nil_iff] at hempty
    exact hne hempty

/-! ## The handle -/

/-- What `step_actions` reads: the committed dictionary and links, and the dictionary
of this process, which other writers do not update. -/
structure StepHandle where
  terms : List TermRow
  dict : List (String × ℤ)
  /-- Whether other processes write too. -/
  multiWriter : Bool
  osp : List OspRow

namespace StepHandle

/-- The dictionary of the process is a part of the committed one, and all of it where
there is one writer. -/
structure Ok (h : StepHandle) : Prop where
  ids : (h.terms.map TermRow.id).Nodup
  strings : (h.terms.map TermRow.term).Nodup
  keys : (h.dict.map Prod.fst).Nodup
  stored : ∀ x ∈ h.dict, (⟨x.2, x.1⟩ : TermRow) ∈ h.terms
  complete : h.multiWriter = false → ∀ r ∈ h.terms, (r.term, r.id) ∈ h.dict

variable (h : StepHandle)

/-- `Db::lookup_term`. -/
def dbLookup (term : String) : Option ℤ :=
  if h.multiWriter then (h.terms.find? (·.term = term)).map TermRow.id else none

/-- `term_lookup`: the dictionary of the process answers, else the database, and the
answer is kept. -/
def termLookup (term : String) : Option ℤ × StepHandle :=
  match h.dict.lookup term with
  | some id => (some id, h)
  | none =>
    match h.dbLookup term with
    | some id => (some id, { h with dict := (term, id) :: h.dict })
    | none => (none, h)

/-- `term_str`. -/
def termStr (id : ℤ) : Option String :=
  match h.dict.find? (·.2 = id) with
  | some x => some x.1
  | none => if h.multiWriter then (h.terms.find? (·.id = id)).map TermRow.term else none

/-- `terms_with_prefix`: the ids of the relations of execution records, in the order
the dictionary iterates. -/
def stepPredicates : List ℤ :=
  (h.dict.filter fun x => stepActionPrefix.toList.isPrefixOf x.1.toList).map Prod.snd

/-- The relations that count. -/
def predicates : Option String → List ℤ × StepHandle
  | some n =>
    match h.termLookup (stepActionRelation n) with
    | (some id, h') => ([id], h')
    | (none, h') => ([], h')
  | none => (h.stepPredicates, h)

/-- The node and the address a link spells, with its number. -/
def decode (row : OspRow) : Option (ℤ × String × Hash) :=
  match h.termStr row.s, h.termStr row.p with
  | some subj, some rel =>
    match stepActionNode rel, Hash.fromHex subj with
    | some node, some hash => some (row.seq, node, hash)
    | _, _ => none
  | _, _ => none

/-- The links of one relation to the workflow, newest first, at most `limit`. -/
def linkRows (sql : Sorter OspRow.seq) (ns target : ℤ) (limit : ℕ) (p : ℤ) : List OspRow :=
  (sql.sort (h.osp.filter fun r => r.ns = ns ∧ r.o = target ∧ r.p = p ∧ r.cur)).take limit

/-- `step_actions`, with the number of each record; `sql` and `unstable` are the
orders the database and `sort_unstable_by_key` give equal numbers. -/
def stepRecords (sql unstable : Sorter OspRow.seq) (ns : String) (workflow : Hash)
    (nodeId : Option String) (limit : ℕ) : List (ℤ × String × Hash) :=
  match h.termLookup ns with
  | (none, _) => []
  | (some nsId, h₁) =>
    match h₁.termLookup workflow.toHex with
    | (none, _) => []
    | (some target, h₂) =>
      let (preds, h₃) := h₂.predicates nodeId
      let rows := preds.flatMap fun p => h₃.linkRows sql nsId target (min limit 1024) p
      ((unstable.sort rows).filterMap h₃.decode).take (min limit 1024)

/-- `step_actions`. -/
def stepActions (sql unstable : Sorter OspRow.seq) (ns : String) (workflow : Hash)
    (nodeId : Option String) (limit : ℕ) : List (String × Hash) :=
  (h.stepRecords sql unstable ns workflow nodeId limit).map Prod.snd

/-! ## The dictionary -/

/-- A row is found by what tells it from the others. -/
theorem find_self {α κ : Type} [DecidableEq κ] {key : α → κ} {l : List α}
    (hnodup : (l.map key).Nodup) {r : α} (hr : r ∈ l) : l.find? (key · = key r) = some r := by
  cases hf : l.find? (key · = key r) with
  | none =>
    have hno := List.find?_eq_none.1 hf r hr
    simp at hno
  | some r' =>
    have hr' : key r' = key r := by simpa using List.find?_some hf
    rw [List.inj_on_of_nodup_map hnodup (List.mem_of_find?_eq_some hf) hr hr']

variable {h}

/-- A term is looked up as it is committed, whatever the process has at hand. -/
theorem Ok.termLookup_fst (hok : h.Ok) (term : String) :
    (h.termLookup term).1 = (h.terms.find? (·.term = term)).map TermRow.id := by
  unfold termLookup dbLookup
  cases hd : h.dict.lookup term with
  | some id =>
    have hfind := find_self hok.strings (hok.stored _ (Assoc.mem_of_lookup hd))
    rw [hfind]
    rfl
  | none =>
    split_ifs with hmulti
    · cases h.terms.find? (·.term = term) <;> rfl
    · cases hf : h.terms.find? (·.term = term) with
      | none => rfl
      | some r =>
        have hr : r.term = term := by simpa using List.find?_some hf
        have hmem := hok.complete (by simpa using hmulti) r (List.mem_of_find?_eq_some hf)
        rw [Assoc.lookup_of_mem hok.keys (hr ▸ hmem)] at hd
        cases hd

/-- What a lookup may change: the process keeps what it was told. -/
structure Learned (h h' : StepHandle) : Prop where
  ok : h'.Ok
  terms : h'.terms = h.terms
  osp : h'.osp = h.osp

theorem Ok.learned (hok : h.Ok) : h.Learned h := ⟨hok, rfl, rfl⟩

theorem Learned.termLookup {h₁ : StepHandle} (hl : h.Learned h₁) (term : String) :
    h.Learned (h₁.termLookup term).2 := by
  have hok := hl.ok
  unfold StepHandle.termLookup
  cases hd : h₁.dict.lookup term with
  | some id => exact hl
  | none =>
    cases hdb : h₁.dbLookup term with
    | none => exact hl
    | some id =>
      refine ⟨⟨hok.ids, hok.strings, ?_, ?_, ?_⟩, hl.terms, hl.osp⟩
      · rw [List.map_cons, List.nodup_cons]
        refine ⟨fun hmem => ?_, hok.keys⟩
        obtain ⟨x, hx, heq⟩ := List.mem_map.1 hmem
        exact absurd (List.lookup_eq_none_iff.1 hd x hx) (by simp [heq])
      · rintro x (_ | ⟨_, hx⟩)
        · unfold dbLookup at hdb
          split_ifs at hdb
          obtain ⟨r, hr, rfl⟩ := Option.map_eq_some_iff.1 hdb
          have hterm : r.term = term := by simpa using List.find?_some hr
          subst hterm
          exact List.mem_of_find?_eq_some hr
        · exact hok.stored x hx
      · intro hsingle r hr
        exact List.mem_cons_of_mem _ (hok.complete hsingle r hr)

/-- An id stands for the term it is committed with. -/
theorem Ok.termStr_eq (hok : h.Ok) (id : ℤ) :
    h.termStr id = (h.terms.find? (·.id = id)).map TermRow.term := by
  unfold termStr
  cases hd : h.dict.find? (·.2 = id) with
  | some x =>
    have hx : x.2 = id := by simpa using List.find?_some hd
    have hfind := find_self hok.ids (hok.stored x (List.mem_of_find?_eq_some hd))
    subst hx
    rw [hfind]
    rfl
  | none =>
    split_ifs with hmulti
    · rfl
    · cases hf : h.terms.find? (·.id = id) with
      | none => rfl
      | some r =>
        have hr : r.id = id := by simpa using List.find?_some hf
        have hmem := hok.complete (by simpa using hmulti) r (List.mem_of_find?_eq_some hf)
        exact absurd hr (by simpa using List.find?_eq_none.1 hd _ hmem)

theorem Learned.decode {h₁ : StepHandle} (hok : h.Ok) (hl : h.Learned h₁) :
    h₁.decode = h.decode := by
  funext row
  unfold StepHandle.decode
  simp only [hok.termStr_eq, hl.ok.termStr_eq, hl.terms]

theorem Learned.linkRows {h₁ : StepHandle} (hl : h.Learned h₁) :
    h₁.linkRows = h.linkRows := by
  unfold StepHandle.linkRows
  rw [hl.osp]

/-! ## The records of one relation -/

variable (h)

/-- The records among the first `limit` links of a relation. -/
def recordsOf (sql : Sorter OspRow.seq) (ns target : ℤ) (limit : ℕ) (p : ℤ) :
    List (ℤ × String × Hash) :=
  (h.linkRows sql ns target limit p).filterMap h.decode

/-- The records `step_actions` reads where it is asked for no node: those among the
first `limit` links of each relation in the dictionary of the process. -/
def seenRecords (sql : Sorter OspRow.seq) (ns : String) (workflow : Hash) (limit : ℕ) :
    List (ℤ × String × Hash) :=
  match h.termLookup ns with
  | (none, _) => []
  | (some nsId, h₁) =>
    match h₁.termLookup workflow.toHex with
    | (none, _) => []
    | (some target, h₂) =>
      h₂.stepPredicates.flatMap (h.recordsOf sql nsId target (min limit 1024))

/-- The nodes that have a relation. -/
def nodes : List String := h.terms.filterMap fun r => stepActionNode r.term

/-- The records of all nodes, each asked for on its own. -/
def nodeRecords (sql unstable : Sorter OspRow.seq) (ns : String) (workflow : Hash) :
    List (ℤ × String × Hash) :=
  h.nodes.flatMap fun n => h.stepRecords sql unstable ns workflow (some n) 1024

variable {h} {sql unstable : Sorter OspRow.seq} {ns target : ℤ} {limit : ℕ}

theorem decode_seq {row : OspRow} {x : ℤ × String × Hash} (hx : h.decode row = some x) :
    x.1 = row.seq := by
  unfold decode at hx
  split at hx
  · split at hx
    · cases hx
      rfl
    · cases hx
  · cases hx

theorem descending_decode {rows : List OspRow} (hrows : Descending OspRow.seq rows) :
    Descending Prod.fst (rows.filterMap h.decode) := by
  refine List.Pairwise.filterMap h.decode (fun a b hab x hx y hy => ?_) hrows
  rw [decode_seq hx, decode_seq hy]
  exact hab

theorem mem_linkRows {p : ℤ} {row : OspRow} (hrow : row ∈ h.linkRows sql ns target limit p) :
    row.p = p := by
  have hmem := (sql.perm _).mem_iff.1 (List.mem_of_mem_take hrow)
  simp only [List.mem_filter, decide_eq_true_eq] at hmem
  exact hmem.2.2.2.1

/-- A higher limit reads more records. -/
theorem recordsOf_sublist {limit' : ℕ} (hle : limit ≤ limit') (p : ℤ) :
    (h.recordsOf sql ns target limit p).Sublist (h.recordsOf sql ns target limit' p) :=
  List.Sublist.filterMap _ (List.take_sublist_take_left hle)

/-- A relation without a node has no records. -/
theorem Ok.recordsOf_eq_nil (hok : h.Ok) {r : TermRow} (hr : r ∈ h.terms)
    (hnode : stepActionNode r.term = none) : h.recordsOf sql ns target limit r.id = [] := by
  have hfind := find_self hok.ids hr
  unfold recordsOf
  rw [List.filterMap_eq_nil_iff]
  intro row hrow
  unfold decode
  rw [mem_linkRows hrow, hok.termStr_eq r.id, hfind]
  cases h.termStr row.s with
  | none => rfl
  | some subj => simp only [Option.map_some, hnode]

/-! ## The answers -/

/-- The namespace and the workflow are known, and looking them up leaves `h₂`. -/
structure Known (h : StepHandle) (ns : String) (workflow : Hash) (nsId target : ℤ)
    (h₂ : StepHandle) : Prop where
  lookups : ∃ h₁, h.termLookup ns = (some nsId, h₁) ∧
    h₁.termLookup workflow.toHex = (some target, h₂)
  learned : h.Learned h₂

theorem Ok.known_or (hok : h.Ok) (ns : String) (workflow : Hash) :
    (∃ nsId target h₂, Known h ns workflow nsId target h₂) ∨
      (∀ sql unstable nodeId limit, h.stepRecords sql unstable ns workflow nodeId limit = []) ∧
        ∀ sql limit, h.seenRecords sql ns workflow limit = [] := by
  rcases h₁ : h.termLookup ns with ⟨_ | nsId, h₁'⟩
  · exact .inr ⟨fun _ _ _ _ => by simp only [stepRecords, h₁],
      fun _ _ => by simp only [seenRecords, h₁]⟩
  rcases h₂ : h₁'.termLookup workflow.toHex with ⟨_ | target, h₂'⟩
  · exact .inr ⟨fun _ _ _ _ => by simp only [stepRecords, h₁, h₂],
      fun _ _ => by simp only [seenRecords, h₁, h₂]⟩
  · refine .inl ⟨nsId, target, h₂', ⟨h₁', h₁, h₂⟩, ?_⟩
    have hl₁ := hok.learned.termLookup ns
    rw [h₁] at hl₁
    have hl₂ := hl₁.termLookup workflow.toHex
    rw [h₂] at hl₂
    exact hl₂

theorem Learned.predicates {h₁ : StepHandle} (hl : h.Learned h₁) (nodeId : Option String) :
    h.Learned (h₁.predicates nodeId).2 := by
  cases nodeId with
  | none => exact hl
  | some n =>
    have hl₂ := hl.termLookup (stepActionRelation n)
    rcases h₂ : h₁.termLookup (stepActionRelation n) with ⟨_ | id, h₂'⟩
    · rw [h₂] at hl₂
      simpa only [StepHandle.predicates, h₂] using hl₂
    · rw [h₂] at hl₂
      simpa only [StepHandle.predicates, h₂] using hl₂

section Known

variable {ns : String} {workflow : Hash} {nsId target : ℤ} {h₂ : StepHandle}

/-- Both answers are the newest of the records read. -/
theorem Known.stepRecords_eq (hk : Known h ns workflow nsId target h₂) (hok : h.Ok)
    (nodeId : Option String) (limit : ℕ) :
    h.stepRecords sql unstable ns workflow nodeId limit =
      ((unstable.sort ((h₂.predicates nodeId).1.flatMap
        (h.linkRows sql nsId target (min limit 1024)))).filterMap h.decode).take
          (min limit 1024) := by
  obtain ⟨h₁, hns, hwf⟩ := hk.lookups
  have hl := hk.learned.predicates nodeId
  simp only [stepRecords, hns, hwf, hl.decode hok, hl.linkRows]

theorem Known.seenRecords_eq (hk : Known h ns workflow nsId target h₂) (limit : ℕ) :
    h.seenRecords sql ns workflow limit =
      h₂.stepPredicates.flatMap (h.recordsOf sql nsId target (min limit 1024)) := by
  obtain ⟨h₁, hns, hwf⟩ := hk.lookups
  simp only [seenRecords, hns, hwf]

/-- What a node that has a relation is answered with. -/
theorem Known.node_perm (hk : Known h ns workflow nsId target h₂) (hok : h.Ok) {r : TermRow}
    (hr : r ∈ h.terms) {n : String} (hn : stepActionNode r.term = some n) :
    (h.stepRecords sql unstable ns workflow (some n) 1024).Perm
      (h.recordsOf sql nsId target 1024 r.id) := by
  obtain ⟨-, hterm⟩ := stepActionNode_eq_some.1 hn
  have hpreds : (h₂.predicates (some n)).1 = [r.id] := by
    have hfst := hk.learned.ok.termLookup_fst (stepActionRelation n)
    rw [hk.learned.terms, ← hterm, find_self hok.strings hr, Option.map_some, hterm] at hfst
    rcases hlook : h₂.termLookup (stepActionRelation n) with ⟨id, h₃⟩
    rw [hlook] at hfst
    cases hfst
    simp only [StepHandle.predicates, hlook]
  rw [hk.stepRecords_eq hok, hpreds, List.flatMap_singleton, min_self, List.take_of_length_le]
  · exact (unstable.perm _).filterMap h.decode
  · refine (List.length_filterMap_le _ _).trans ?_
    rw [(unstable.perm _).length_eq]
    exact List.length_take_le _ _

/-- A term with its id, as the dictionary has it. -/
def dictRow (x : String × ℤ) : TermRow := ⟨x.2, x.1⟩

theorem Ok.dictRows_subperm (hok : h.Ok) : (h.dict.map dictRow).Subperm h.terms := by
  refine List.subperm_of_subset ?_ fun r hr => ?_
  · have hkeys := hok.keys
    refine List.Nodup.of_map TermRow.term ?_
    rwa [List.map_map]
  · obtain ⟨x, hx, rfl⟩ := List.mem_map.1 hr
    exact hok.stored x hx

/-- The records of a row of the dictionary, none where it is no relation of a node. -/
def rowRecords (h : StepHandle) (sql : Sorter OspRow.seq) (ns target : ℤ) (limit : ℕ)
    (r : TermRow) : List (ℤ × String × Hash) :=
  if (stepActionNode r.term).isSome then h.recordsOf sql ns target limit r.id else []

theorem Known.nodeRecords_perm (hk : Known h ns workflow nsId target h₂) (hok : h.Ok) :
    (h.nodeRecords sql unstable ns workflow).Perm
      (h.terms.flatMap (h.rowRecords sql nsId target 1024)) := by
  have hone : ∀ rows : List TermRow, (∀ r ∈ rows, r ∈ h.terms) →
      ((rows.filterMap fun r => stepActionNode r.term).flatMap fun n =>
        h.stepRecords sql unstable ns workflow (some n) 1024).Perm
          (rows.flatMap (h.rowRecords sql nsId target 1024)) := by
    intro rows hrows
    induction rows with
    | nil => exact .refl _
    | cons r rows ih =>
      have ih := ih fun r' hr' => hrows r' (List.mem_cons_of_mem _ hr')
      rw [List.flatMap_cons, rowRecords]
      cases hn : stepActionNode r.term with
      | none => simpa [List.filterMap_cons, hn] using ih
      | some n =>
        simp only [List.filterMap_cons, hn, List.flatMap_cons, Option.isSome_some, if_true]
        exact (hk.node_perm hok (hrows r (List.mem_cons_self ..)) hn).append ih
  exact hone h.terms fun _ hr => hr

theorem Known.seenRecords_eq_rows (hk : Known h ns workflow nsId target h₂) (hok : h.Ok)
    (limit : ℕ) : h.seenRecords sql ns workflow limit =
      (h₂.dict.map dictRow).flatMap (h.rowRecords sql nsId target (min limit 1024)) := by
  rw [hk.seenRecords_eq, stepPredicates]
  have hstored := hk.learned.ok.stored
  rw [hk.learned.terms] at hstored
  generalize h₂.dict = dict at hstored
  induction dict with
  | nil => rfl
  | cons x dict ih =>
    have ih := ih fun y hy => hstored y (List.mem_cons_of_mem _ hy)
    rw [List.map_cons, List.flatMap_cons, ← ih, rowRecords]
    have hx := hstored x (List.mem_cons_self ..)
    rw [List.filter_cons]
    by_cases hpre : stepActionPrefix.toList.isPrefixOf x.1.toList = true
    · rw [if_pos hpre, List.map_cons, List.flatMap_cons]
      cases hn : stepActionNode x.1 with
      | none =>
        have hnil : h.recordsOf sql nsId target (min limit 1024) x.2 = [] :=
          hok.recordsOf_eq_nil hx hn
        simp only [dictRow, hn, Option.isSome_none, hnil]
        rfl
      | some n => simp only [dictRow, hn, Option.isSome_some, if_true]
    · have hnode : stepActionNode x.1 = none := by
        unfold stepActionNode
        rw [if_neg hpre]
      rw [if_neg hpre]
      simp only [dictRow, hnode, Option.isSome_none]
      rfl

/-- What is read is a part of what there is. -/
theorem Known.seen_subperm (hk : Known h ns workflow nsId target h₂) (hok : h.Ok) (limit : ℕ) :
    (h.seenRecords sql ns workflow limit).Subperm (h.nodeRecords sql unstable ns workflow) := by
  have hrows := hk.learned.ok.dictRows_subperm
  rw [hk.learned.terms] at hrows
  obtain ⟨rows, hperm, hsub⟩ := hrows
  rw [hk.seenRecords_eq_rows hok]
  refine List.Subperm.trans ?_ (hk.nodeRecords_perm hok).symm.subperm
  refine ⟨rows.flatMap (h.rowRecords sql nsId target (min limit 1024)),
    hperm.flatMap_right _, ?_⟩
  refine (List.Sublist.flatMap_right rows fun r _ => ?_).trans (hsub.flatMap _)
  unfold rowRecords
  split_ifs
  · exact recordsOf_sublist (min_le_right _ _) r.id
  · exact .refl _

end Known

/-- **An unfiltered `step_actions` is the newest of all nodes' records** exactly when
each record it has not read has `limit` among those it has that are as new. -/
theorem stepActions_union_iff (h : StepHandle) (hok : h.Ok) (sql unstable : Sorter OspRow.seq)
    (ns : String) (workflow : Hash) (limit : ℕ) :
    Newest Prod.fst (min limit 1024) (h.nodeRecords sql unstable ns workflow)
        (h.stepRecords sql unstable ns workflow none limit) ↔
      ∀ x, (h.nodeRecords sql unstable ns workflow).count x ≤
          (h.seenRecords sql ns workflow limit).count x ∨
        min limit 1024 ≤ (h.seenRecords sql ns workflow limit).countP fun y => x.1 ≤ y.1 := by
  rcases hok.known_or ns workflow with ⟨nsId, target, h₂, hk⟩ | ⟨hnone, hseen⟩
  · rw [hk.stepRecords_eq hok]
    refine newest_take_iff (hk.seen_subperm hok limit) ?_ (descending_decode (unstable.sorted _))
    rw [hk.seenRecords_eq]
    refine ((unstable.perm _).filterMap h.decode).trans (.of_eq ?_)
    rw [List.filterMap_flatMap]
    rfl
  · have hnodes : h.nodeRecords sql unstable ns workflow = [] := by
      unfold nodeRecords
      rw [List.flatMap_eq_nil_iff]
      exact fun n _ => hnone _ _ _ _
    rw [hnone, hseen, hnodes]
    constructor
    · exact fun _ x => .inl le_rfl
    · exact fun _ => ⟨List.Pairwise.nil, by simp, [], .refl _, by simp⟩

/-! ### A relation another writer interned -/

/-- A handle on a shared database: another writer has interned the relation of a node
and linked a record to the workflow. -/
def staleHandle : StepHandle where
  terms := [⟨0, "runs"⟩, ⟨1, (Hash.ofByte 1).toHex⟩, ⟨2, "mg:step_action:build"⟩,
    ⟨3, (Hash.ofByte 3).toHex⟩]
  dict := [("runs", 0), ((Hash.ofByte 1).toHex, 1)]
  multiWriter := true
  osp := [⟨0, 1, 3, 2, 7, true⟩]

/-- A handle that has looked up the relations of both nodes itself, with two records of
the one node and one of the other. -/
def freshHandle : StepHandle where
  terms := staleHandle.terms ++ [⟨4, "mg:step_action:test"⟩, ⟨5, (Hash.ofByte 5).toHex⟩]
  dict := [("mg:step_action:build", 2), ("mg:step_action:test", 4)] ++ staleHandle.dict
  multiWriter := true
  osp := [⟨0, 1, 3, 2, 7, true⟩, ⟨0, 1, 5, 4, 9, true⟩, ⟨0, 1, 5, 2, 11, true⟩]

theorem staleHandle_ok : staleHandle.Ok where
  ids := by decide
  strings := by decide
  keys := by decide
  stored := by decide
  complete := fun hsingle => nomatch hsingle

theorem freshHandle_ok : freshHandle.Ok where
  ids := by decide
  strings := by decide
  keys := by decide
  stored := by decide
  complete := fun hsingle => nomatch hsingle

/-- Two of the three records, the newest. -/
theorem stepActions_union_fresh :
    Newest Prod.fst 2
      (freshHandle.nodeRecords (.stable _) (.stable _) "runs" (Hash.ofByte 1))
      (freshHandle.stepRecords (.stable _) (.stable _) "runs" (Hash.ofByte 1) none 2) := by
  refine (stepActions_union_iff freshHandle freshHandle_ok (.stable _) (.stable _) "runs"
    (Hash.ofByte 1) 2).2 fun x => .inl (le_of_eq ?_)
  have hnodes : freshHandle.nodeRecords (.stable _) (.stable _) "runs" (Hash.ofByte 1) =
      [(11, "build", Hash.ofByte 5), (7, "build", Hash.ofByte 3), (9, "test", Hash.ofByte 5)] := by
    decide
  have hseen : freshHandle.seenRecords (.stable _) "runs" (Hash.ofByte 1) 2 =
      [(11, "build", Hash.ofByte 5), (7, "build", Hash.ofByte 3), (9, "test", Hash.ofByte 5)] := by
    decide
  rw [hnodes, hseen]

/-- **A handle may miss the records another writer made of a new node.** -/
theorem stepActions_misses_interned :
    ¬∀ h : StepHandle, h.Ok → ∀ (sql unstable : Sorter OspRow.seq) (ns : String)
      (workflow : Hash) (limit : ℕ), ∃ out,
        Newest Prod.fst (min limit 1024) (h.nodeRecords sql unstable ns workflow) out ∧
          h.stepActions sql unstable ns workflow none limit = out.map Prod.snd := by
  intro hclaim
  obtain ⟨out, hnewest, hout⟩ := hclaim staleHandle staleHandle_ok (.stable _) (.stable _)
    "runs" (Hash.ofByte 1) 10
  have hnodes : staleHandle.nodeRecords (.stable _) (.stable _) "runs" (Hash.ofByte 1) =
      [(7, "build", Hash.ofByte 3)] := by decide
  have hnone : staleHandle.stepActions (.stable _) (.stable _) "runs" (Hash.ofByte 1) none 10 =
      [] := by decide
  rw [hnone] at hout
  obtain rfl := List.map_eq_nil_iff.1 hout.symm
  have hlen := hnewest.length
  rw [hnodes] at hlen
  revert hlen
  decide

end StepHandle

end Deja
