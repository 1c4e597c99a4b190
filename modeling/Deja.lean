import Deja.Core.Grain
import Deja.Core.Sample
import Deja.Lib.Run
import Deja.Lib.Assoc
import Deja.Lib.Sorted
import Deja.Codec.FieldMap
import Deja.Codec.Value
import Deja.Codec.Malleable
import Deja.Codec.Types
import Deja.Codec.Serialize
import Deja.Codec.Names
import Deja.Codec.Fields
import Deja.Codec.Canonical
import Deja.Codec.Reading
import Deja.Codec.RoundTrip
import Deja.Codec.Framing
import Deja.Store.Tables
import Deja.Store.Prep
import Deja.Store.Read
import Deja.Store.Write
import Deja.Store.Erase
import Deja.Store.Bundle
import Deja.Store.Index
import Deja.Spec.Prep
import Deja.Spec.Txn
import Deja.Spec.Commits
import Deja.Spec.Runs
import Deja.Spec.Issued
import Deja.Spec.Rows
import Deja.Spec.Texts
import Deja.Erase.Wiped
import Deja.Erase.Survivors
import Deja.Erase.Report
import Deja.Attach.Blobs
import Deja.Attach.Stored
import Deja.Attach.Effects
import Deja.Attach.Kept
import Deja.Telemetry.Scrubbed
import Deja.Index.Coherent
import Deja.Lib.Replay
import Deja.Lib.Acyclic
import Deja.Heads.Chain
import Deja.Index.Relinked
import Deja.Clock.Hlc
import Deja.Heads.Tips
import Deja.Heads.Elected
import Deja.Heads.Attributed
import Deja.Heads.Readers
import Deja.Pg.Counters
import Deja.Index.Reopened
import Deja.Index.Migrated
import Deja.Index.Lineage
import Deja.Import.Idempotent
import Deja.Import.Addressed
import Deja.Authz.Grant
import Deja.Authz.Audit
import Deja.Authz.Rights
import Deja.Authz.Escalation
import Deja.Cal.Agree
import Deja.Cal.ReadOnly
import Deja.Loop.Gates
import Deja.Loop.Reading
import Deja.Loop.Refused
import Deja.Loop.History
import Deja.Loop.Crash
import Deja.Loop.Interleaved
import Deja.Loop.Covered
import Deja.Loop.Checkpoints
import Deja.Loop.Arrivals
import Deja.Loop.Contradiction
import Deja.Loop.Preflight
import Deja.Lib.Best
import Deja.Index.Ranked
import Deja.Lib.Newest
import Deja.Index.Stepped
import Deja.Lib.Bfs
import Deja.Index.Hops
import Deja.Writes.Readded
import Deja.Lib.Lockstep
import Deja.Writes.Batched
import Deja.Heads.Replayed
import Deja.Assemble.Engine
import Deja.Lib.Fitting
import Deja.Assemble.Budget
import Deja.Assemble.Surplus
import Deja.Assemble.Single
import Deja.Lib.Firsts
import Deja.Assemble.Placed
import Deja.Template.Parse
import Deja.Template.Render
import Deja.Template.Inert
import Deja.Template.Inherit
import Deja.Core.Number
import Deja.Schema.Subset
import Deja.Schema.Strip
import Deja.Schema.Instance
import Deja.Schema.Agree
import Deja.Schema.Catalog
import Deja.Lib.Ration
import Deja.Context.Budget
import Deja.Context.Assembly
import Deja.Template.Bounded
import Deja.Lib.Blocks
import Deja.Lib.Occur
import Deja.Assemble.Options
import Deja.Assemble.Attributed
import Deja.Cal.SetOps
import Deja.Pipeline.Compare
import Deja.Pipeline.Stages
import Deja.Pipeline.Composed
import Deja.Cal.Exists
import Deja.Cal.Section
import Deja.Index.Exports
import Deja.Lib.Delimited
import Deja.Cal.Formats
import Deja.Cal.Toon
import Deja.Cal.Tagged
import Deja.Lib.Calendar
import Deja.Lib.Machine
import Deja.Template.Date
import Deja.Import.Records
import Deja.Import.Iso8601
import Deja.Import.Stamps
import Deja.Cal.Workflow
import Deja.Cal.Graph
import Deja.Cal.Drawn
import Deja.Lib.Journal
import Deja.Replica.Logged
import Deja.Replica.Shipped
import Deja.Replica.Stream
import Deja.Replica.Restored
import Deja.Replica.Exchanged
import Deja.Lib.Grammar
import Deja.Cal.Where
import Deja.Cal.Sentences
import Deja.Cal.Rounds
import Deja.Cal.Nesting
import Deja.Erase.Retention
