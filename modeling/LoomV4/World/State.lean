import LoomV4.Graph.Collect
import LoomV4.Proc.Events

namespace LoomV4.Vm

open Abi Proc

abbrev VmId := ℕ

structure VmImageKey where
  image : ℕ
  generation : ℕ
deriving DecidableEq

inductive ImageSlotTarget
  | empty
  | function (id : ℕ)
  | cls (cls constructor : ℕ)
  | value (v : Value)
  | process (proc : VmId) (generation : ℕ)
deriving DecidableEq

inductive MachineState
  | empty | ready | running | asked | waiting | blocked | done | faulted
deriving DecidableEq

inductive Block
  | receive
  | send (target : VmId) (generation : ℕ)
  | done (target : VmId) (generation : ℕ)
  | snapshot (target : VmId) (generation : ℕ) (remaining : ℕ) (retry : Bool)
  | wait (token : ℕ)
deriving DecidableEq

inductive WaitSource
  | receive
  | drive (target : VmId)
  | choice (first second : ℕ)
  | any (roots : List ℕ)
  | operation (op ordinal scope : ℕ) (consumeResource : Option ℕ) (replyTy env : ℕ) (ready : Option Value)
deriving DecidableEq

structure WaitEntry where
  source : WaitSource
  linked : Bool := false
deriving DecidableEq

inductive Ownership
  | holder | scheduler
deriving DecidableEq

structure Mailbox where
  limit : ℕ := 0
  queue : List Value := []
  closed : Bool := false
  frozen : Bool := false
deriving DecidableEq

structure Pending where
  op : ℕ
  args : List Value
  ordinal : ℕ
deriving DecidableEq

inductive PolicyCursor
  | table (vm : VmId)
  | root
deriving DecidableEq

structure RoutedRequest where
  target : VmId
  cursor : PolicyCursor
deriving DecidableEq

structure FaultRec where
  code : FaultCode
  message : String
  op : Option ℕ
  trace : List FaultSite
deriving DecidableEq

inductive Terminal
  | done (v : Value)
  | fault (record : FaultRec)
deriving DecidableEq

inductive Action
  | pass
  | block
  | mock (closure : ObjRef)
deriving DecidableEq

/-- Each list ends at its highest edited slot. -/
structure PolicyTable where
  exact : List (Option Action) := []
  group : List (Option Action) := []
deriving DecidableEq

def PolicyTable.actions (t : PolicyTable) : List Action := (t.exact ++ t.group).filterMap id

inductive FrameCapture
  | closure (r : ObjRef)
  | callback (r : CallbackRef)
deriving DecidableEq

structure Frame where
  func : ℕ
  block : ℕ
  ip : ℕ
  baseLocal : ℕ
  baseOperand : ℕ
  closure : Option FrameCapture
  env : ℕ
deriving DecidableEq

structure CallbackDescriptor where
  func : ℕ
  captures : List Value
  env : ℕ
  ownerDepth : ℕ
deriving DecidableEq

structure CallbackSlot where
  generation : ℕ
  descriptor : Option CallbackDescriptor
deriving DecidableEq

inductive ResourceKind
  | pendingOperation | file | tcpStream | tcpListener | tlsStream | rawMode | signalStream | pipeReader | pipeWriter
  | child | udpSocket
  | extension (identity : Hash)
deriving DecidableEq

structure ResourceRecord where
  kind : ResourceKind
  op : ℕ
  live : Bool
deriving DecidableEq

structure VmConfig where
  graph : GraphLimits
  heapBytes : ℕ
  maxChildren : ℕ
  snapshotBytes : ℕ
deriving DecidableEq

structure Arenas where
  frames : List Frame := []
  locals : List Value := []
  operands : List Value := []
deriving DecidableEq

/-- Frames that native code keeps across a quantum: what they root, and the arenas that materialization leaves,
after success or after failure. -/
structure NativeContinuation where
  roots : List ObjRef
  arenas : Except Arenas Arenas
deriving DecidableEq

structure VmState where
  heap : Heap
  arenas : Arenas := {}
  state : MachineState := .empty
  pending : Option Pending := none
  nested : Option VmId := none
  routed : Option RoutedRequest := none
  terminal : Option Terminal := none
  parent : Option VmId := none
  waits : List (ℕ × WaitEntry) := []
  mailbox : Mailbox := {}
  block : Option Block := none
  literals : List Value := []
deriving DecidableEq

structure Machine where
  vm : VmState
  table : PolicyTable := {}
  active : ℕ := 0
  resources : List ResourceRecord := []
  config : VmConfig
  children : ℕ := 0
  owner : Ownership := .holder
  generation : ℕ := 0
  paused : Bool := false
  barrier : Option ℕ := none
  isProc : Bool := false
  image : Option VmImageKey := none
  gate : ℕ := 0
  startBody : Option ObjRef := none
  callbacks : List CallbackSlot := []
  native : Option NativeContinuation := none
  pendingRegexCompile : Option ObjRef := none
deriving DecidableEq

structure VmImageRecord where
  generation : ℕ
  live : Bool
  config : VmConfig
  slots : List ImageSlotTarget
  slotVersions : List ℕ
  heap : Heap
deriving DecidableEq

structure Activation where
  vm : VmId
  replyTo : Option VmId
deriving DecidableEq

structure GateGroup where
  id : ℕ
  members : List VmId
deriving DecidableEq

structure BoundResource where
  owner : VmId
  kind : ResourceKind
deriving DecidableEq

/-- The machines of one world. A slot without a machine is leased to a worker. `scratch` is at least the length of
every work table that a graph walk reuses. -/
structure World (ι : Type) where
  machines : List (Option Machine)
  vmImages : List VmImageRecord := []
  vmImageFree : List ℕ := []
  mockFree : List VmId := []
  vmFree : List VmId := []
  suspended : List (VmId × List Activation) := []
  schedulerProcs : List TaskKey := []
  scheduleEvents : ScheduleEvents := {}
  gateGroups : List GateGroup := []
  boundResources : List (ℕ × BoundResource) := []
  config : VmConfig
  cut : ℕ := 0
  images : List (Option ι) := []
  imageFree : List ℕ := []
  scratch : ℕ := 0
deriving DecidableEq

namespace Machine

variable (m : Machine)

def rootsOf (values : List Value) : List ObjRef := values.filterMap Value.asObj

def frameRoots : List ObjRef :=
  m.vm.arenas.frames.filterMap fun frame =>
    match frame.closure with
    | some (.closure r) => some r
    | _ => none

def callbackRoots : List ObjRef :=
  m.callbacks.flatMap fun slot =>
    match slot.descriptor with
    | some descriptor => rootsOf descriptor.captures
    | none => []

def arenaRoots : List ObjRef := rootsOf (m.vm.arenas.locals ++ m.vm.arenas.operands)

def pendingRoots : List ObjRef :=
  match m.vm.pending with
  | some pending => rootsOf pending.args
  | none => []

def waitRoots : List ObjRef :=
  m.vm.waits.filterMap fun entry =>
    match entry.2.source with
    | .operation _ _ _ _ _ _ (some (.obj r)) => some r
    | _ => none

def terminalRoots : List ObjRef :=
  match m.vm.terminal with
  | some (.done (.obj r)) => [r]
  | _ => []

def mockRoots : List ObjRef :=
  m.table.actions.filterMap fun action =>
    match action with
    | .mock r => some r
    | _ => none

def gcRoots (extra : List ObjRef) : List ObjRef :=
  (match m.native with
    | some native => native.roots
    | none => []) ++
  m.arenaRoots ++ m.frameRoots ++ m.callbackRoots ++ m.pendingRoots ++ m.waitRoots ++ m.terminalRoots ++
  rootsOf m.vm.mailbox.queue ++ m.mockRoots ++ m.startBody.toList ++ m.pendingRegexCompile.toList ++
  rootsOf m.vm.literals ++ extra

def snapshotRoots : List ObjRef :=
  m.frameRoots ++ m.callbackRoots ++ m.arenaRoots ++ m.pendingRoots ++ m.terminalRoots ++
  rootsOf m.vm.mailbox.queue ++ m.startBody.toList ++ rootsOf m.vm.literals

def materialize : Except FaultCode Unit × Machine :=
  match m.native with
  | none => (.ok (), m)
  | some native =>
    match native.arenas with
    | .ok arenas => (.ok (), { m with vm := { m.vm with arenas }, native := none })
    | .error arenas => (.error .malformedState, { m with vm := { m.vm with arenas }, native := none })

def liveAttachment : Option ResourceRecord := m.resources.find? ResourceRecord.live

end Machine

end LoomV4.Vm
