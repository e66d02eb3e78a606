import LoomV4.Lib.KeyedList
import LoomV4.Lib.Steps
import LoomV4.Lib.SlotTable
import LoomV4.Lib.SlotItems
import LoomV4.Lib.SlotSweep
import LoomV4.Lib.Ledger
import LoomV4.Lib.Frontier
import LoomV4.Abi.Fault
import LoomV4.Proc.Events
import LoomV4.Proc.Index
import LoomV4.Proc.Keys
import LoomV4.Proc.Scheduler
import LoomV4.Proc.Registration
import LoomV4.Proc.Wakes
import LoomV4.Heap.Value
import LoomV4.Heap.Shape
import LoomV4.Heap.TextViews
import LoomV4.Heap.Views
import LoomV4.Heap.Table
import LoomV4.Heap.Sweep
import LoomV4.Heap.Ops
import LoomV4.Heap.Effects
import LoomV4.Heap.Slots
import LoomV4.Heap.Stale
import LoomV4.Heap.Charges
import LoomV4.Heap.Accounting
import LoomV4.Lib.GraphIso
import LoomV4.Graph.Copied
import LoomV4.World.CutRuns
import LoomV4.World.Reclaimed
import LoomV4.World.Unnamed
import LoomV4.World.ImagesHeld
import LoomV4.Bytecode.Canonical
import LoomV4.World.PolicyTable
import LoomV4.World.Policy
import LoomV4.World.LiteralRuns
import LoomV4.World.Literals
import LoomV4.Lib.Interaction
import LoomV4.Hir.Expr
import LoomV4.Hir.Inline
import LoomV4.Hir.Args
import LoomV4.Hir.Calls
import LoomV4.Hir.SourceOrder
import LoomV4.Types.Subtype
import LoomV4.Types.Deciders
import LoomV4.Types.Lowering
import LoomV4.Types.Coincide
import LoomV4.Types.Covariance
import LoomV4.Closed.Types
import LoomV4.Closed.Laws
import LoomV4.Boundary.Check
import LoomV4.Boundary.Typing
import LoomV4.Boundary.Formed
import LoomV4.Boundary.Subtype
import LoomV4.Boundary.Steps
import LoomV4.Boundary.Sound
import LoomV4.Boundary.Settled
import LoomV4.Lib.Scc
import LoomV4.Lib.Kahn
import LoomV4.Lib.Lex
import LoomV4.Lib.Traverse
import LoomV4.Identity.Items
import LoomV4.Identity.Preflight
import LoomV4.Identity.Graph
import LoomV4.Identity.Resolve
import LoomV4.Identity.Refine
import LoomV4.Identity.Hashing
import LoomV4.Identity.Ranges
import LoomV4.Identity.Edges
import LoomV4.Identity.Reads
import LoomV4.Identity.Inherited
import LoomV4.Identity.Bodies
import LoomV4.Identity.Scheduled
import LoomV4.Identity.Colours
import LoomV4.Identity.Returns
import LoomV4.Identity.Answers
import LoomV4.Lib.Bisim
import LoomV4.Identity.Bisimilar
import LoomV4.Identity.Growth
import LoomV4.Lib.Memo
import LoomV4.Types.Store
import LoomV4.Types.Agree
import LoomV4.Types.Cache
import LoomV4.Lib.Nearest
import LoomV4.Link.Dispatch
import LoomV4.Link.Rows
import LoomV4.Link.Sealed
import LoomV4.Lib.Accounts
import LoomV4.World.Children
import LoomV4.World.Charged
import LoomV4.World.ChildRuns
import LoomV4.World.Mail
import LoomV4.World.MailSteps
import LoomV4.World.MailCases
import LoomV4.World.MailRuns
import LoomV4.Proc.ReadyQueue
import LoomV4.Proc.HostFailure
import LoomV4.Library.Integer
import LoomV4.Library.Base64
import LoomV4.Library.SplitMix
import LoomV4.Library.Random
import LoomV4.Library.Lines
import LoomV4.Abi.Bundle
import LoomV4.Proc.EventBatch
