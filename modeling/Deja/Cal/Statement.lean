import Mathlib.Order.Lattice
import Mathlib.Tactic

/-!
# Statements and their classes

The syntax of a query as far as the classifier and the dispatch look at it.
`B` stands for the clauses only a statement's own arm reads.  A statement with
statements inside it has a constructor of its own; the others are a kind with
its clauses.

* `classify` — the class hosts gate a text by.
* `checkReadOnlyStatement` — the check on the body of a saved query.
-/

namespace Deja.Cal

/-! ## Syntax -/

/-- The statements that contain no statement. -/
inductive LeafKind where
  | exists | history | describe
  | entityAt | runTrace | runsTouching | derivedFrom | showForks | related | novelty
  | reportSubject | showGrants
  | add | addWorkflow | supersede | supersedeWorkflow | accumulate | revert | remember | merge
  | defineTemplate | dropTemplate | defineQuery | dropQuery
  | grant | revoke
  | approve | reject | applyRec | rollbackRec | runLoop
  | forget | purge
  deriving DecidableEq

/-- Set operation type. -/
inductive SetOp where
  | union | intersect | except
  deriving DecidableEq

mutual

/-- A statement. -/
inductive Statement (B : Type) where
  | leaf (kind : LeafKind) (body : B)
  | recallStmt (r : RecallStmt B)
  | setOp (op : SetOp) (operands : List (Statement B))
  | assemble (body : B) (streaming : Bool) (source : Source B)
      (sources : Option (List (NamedSource B)))
  | explain (inner : Statement B)
  | batch (statements : List (BatchEntry B)) (labeled : Option (List (String × BatchEntry B)))
  | coalesce (body : B) (branches : List (Statement B)) (elseBranch : Option (Statement B))
  | runQuery (name : String) (bindings : B)

/-- A `RECALL`; `CONTRADICTIONS` may carry an `OF (sub-query)`. -/
inductive RecallStmt (B : Type) where
  | mk (body : B) (contradictions : Bool) (inner : Option (Statement B))

/-- The `FROM` of a single-source `ASSEMBLE`. -/
inductive Source (B : Type) where
  | query (r : RecallStmt B)
  | parameter (name : String)
  | hashes (hashes : List String)

/-- A labelled source of a multi-source `ASSEMBLE`. -/
inductive NamedSource (B : Type) where
  | mk (label : String) (query : Statement B) (withOptions : List B)

/-- An entry of a `BATCH`, with the clauses around its statement. -/
inductive BatchEntry (B : Type) where
  | mk (statement : Statement B) (withOptions : List B) (clauses : B)

end

/-- The extractor of a `LET` binding. -/
inductive Extractor where
  | subjects | objects | hashes
  deriving DecidableEq

/-- A `LET` binding: a name and the statement its values come from. -/
structure LetBinding (B : Type) where
  name : String
  extractor : Extractor
  source : Statement B

/-- A parsed query: its bindings, its statement, and the clauses around it. -/
structure Query (B : Type) where
  letBindings : List (LetBinding B)
  statement : Statement B
  withOptions : List B
  clauses : B

variable {B : Type}

/-! ## Classes -/

/-- What executing a statement can do to the memory, coarsest first. -/
inductive StatementClass where
  | read | evolve | control | destructive
  deriving DecidableEq

/-- The place of a class in the order of the enum. -/
def StatementClass.rank : StatementClass → ℕ
  | read => 0
  | evolve => 1
  | control => 2
  | destructive => 3

instance : LinearOrder StatementClass :=
  LinearOrder.lift' StatementClass.rank (by
    intro a b h
    cases a <;> cases b <;> simp [StatementClass.rank] at h <;> rfl)

theorem StatementClass.read_le (c : StatementClass) : StatementClass.read ≤ c :=
  Nat.zero_le c.rank

/-- The arms of `classify` for the statements that contain none. -/
def LeafKind.classify : LeafKind → StatementClass
  | .exists | .history | .describe => .read
  | .entityAt | .runTrace | .runsTouching | .derivedFrom | .showForks | .related | .novelty => .read
  | .reportSubject => .read
  | .merge => .evolve
  | .add | .addWorkflow | .supersede | .supersedeWorkflow | .accumulate | .revert | .remember =>
    .evolve
  | .defineTemplate | .dropTemplate | .defineQuery | .dropQuery => .control
  | .grant | .revoke => .control
  | .showGrants => .read
  | .approve | .reject | .applyRec | .rollbackRec | .runLoop => .control
  | .forget | .purge => .destructive

mutual

/-- `classify`. -/
def classify : Statement B → StatementClass
  | .leaf kind _ => kind.classify
  | .recallStmt _ | .setOp .. | .assemble .. | .explain _ | .coalesce .. => .read
  | .runQuery .. => .read
  -- a batch is as privileged as its most privileged entry
  | .batch statements labeled => max (classifyAll statements) (classifyLabeled labeled)

/-- The most privileged of the entries, `Read` where there is none. -/
def classifyAll : List (BatchEntry B) → StatementClass
  | [] => .read
  | e :: rest => max (classifyEntry e) (classifyAll rest)

/-- The same of the labelled entries, where there are any. -/
def classifyLabeled : Option (List (String × BatchEntry B)) → StatementClass
  | none => .read
  | some entries => classifyPairs entries

/-- The same of labelled entries. -/
def classifyPairs : List (String × BatchEntry B) → StatementClass
  | [] => .read
  | x :: rest => max (classifyPair x) (classifyPairs rest)

/-- The class of a labelled entry. -/
def classifyPair : String × BatchEntry B → StatementClass
  | (_, e) => classifyEntry e

/-- The class of an entry. -/
def classifyEntry : BatchEntry B → StatementClass
  | .mk s _ _ => classify s

end

/-! ## The check on saved bodies -/

/-- The refusals of `check_read_only_statement`. -/
inductive BodyError where
  | writeInQueryBody (stmt : String)
  | recursiveQuery
  deriving DecidableEq

/-- The arms of `check_read_only_statement` for the statements that contain none. -/
def LeafKind.checkReadOnly : LeafKind → Except BodyError Unit
  | .exists | .history | .describe => .ok ()
  | .add | .addWorkflow => .error (.writeInQueryBody "ADD")
  | .supersede | .supersedeWorkflow => .error (.writeInQueryBody "SUPERSEDE")
  | .accumulate => .error (.writeInQueryBody "ACCUMULATE")
  | .revert => .error (.writeInQueryBody "REVERT")
  | .remember => .error (.writeInQueryBody "REMEMBER")
  | .entityAt | .runTrace | .runsTouching | .derivedFrom | .showForks | .related | .novelty
  | .reportSubject => .ok ()
  | .merge => .error (.writeInQueryBody "MERGE")
  | .forget => .error (.writeInQueryBody "FORGET")
  | .purge => .error (.writeInQueryBody "PURGE")
  | .grant => .error (.writeInQueryBody "GRANT")
  | .revoke => .error (.writeInQueryBody "REVOKE")
  | .showGrants => .ok ()
  | .approve => .error (.writeInQueryBody "APPROVE")
  | .reject => .error (.writeInQueryBody "REJECT")
  | .applyRec => .error (.writeInQueryBody "APPLY")
  | .rollbackRec => .error (.writeInQueryBody "ROLLBACK")
  | .runLoop => .error (.writeInQueryBody "RUN LOOP")
  | .defineTemplate => .error (.writeInQueryBody "DEFINE TEMPLATE")
  | .dropTemplate => .error (.writeInQueryBody "DROP TEMPLATE")
  | .defineQuery => .error (.writeInQueryBody "DEFINE QUERY")
  | .dropQuery => .error (.writeInQueryBody "DROP QUERY")

mutual

/-- `check_read_only_statement`. -/
def checkReadOnlyStatement : Statement B → Except BodyError Unit
  | .leaf kind _ => kind.checkReadOnly
  | .recallStmt _ | .setOp .. | .assemble .. | .explain _ | .coalesce .. => .ok ()
  | .batch statements labeled => do
    checkReadOnlyAll statements
    checkReadOnlyLabeled labeled
  | .runQuery .. => .error .recursiveQuery

/-- The check on every entry, in order. -/
def checkReadOnlyAll : List (BatchEntry B) → Except BodyError Unit
  | [] => .ok ()
  | e :: rest => do
    checkReadOnlyEntry e
    checkReadOnlyAll rest

/-- The check on the labelled entries, where there are any. -/
def checkReadOnlyLabeled : Option (List (String × BatchEntry B)) → Except BodyError Unit
  | none => .ok ()
  | some entries => checkReadOnlyPairs entries

/-- The check on labelled entries. -/
def checkReadOnlyPairs : List (String × BatchEntry B) → Except BodyError Unit
  | [] => .ok ()
  | x :: rest => do
    checkReadOnlyPair x
    checkReadOnlyPairs rest

/-- The check on a labelled entry. -/
def checkReadOnlyPair : String × BatchEntry B → Except BodyError Unit
  | (_, e) => checkReadOnlyEntry e

/-- The check on an entry. -/
def checkReadOnlyEntry : BatchEntry B → Except BodyError Unit
  | .mk s _ _ => checkReadOnlyStatement s

end

/-- A leaf the check accepts is a read. -/
theorem LeafKind.classify_of_checkReadOnly {k : LeafKind} (h : k.checkReadOnly = .ok ()) :
    k.classify = .read := by
  cases k <;> first | rfl | cases h

end Deja.Cal
