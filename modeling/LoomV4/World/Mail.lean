import LoomV4.World.Images

namespace LoomV4.Vm

open Abi Proc Lib

structure MailCore where
  sendSent : Option UInt32
  sendClosed : Option UInt32
  sendFault : Option UInt32
  recvMsg : Option UInt32
  recvClosed : Option UInt32

/-- What surrounds one operation of a machine: the grants, its classes, whether the reply carries the type of its
perform, and the execution trace. -/
structure MailEnv where
  grants : Grants
  core : MailCore
  fits : Except FaultCode Unit
  trace : List FaultSite

inductive Arm
  | sent
  | closed
  | fault
  | message (v : Value)
  | drained
deriving DecidableEq

inductive Answer
  | answered (arm : Arm)
  | faulted (code : FaultCode)
  | blocked
deriving DecidableEq

namespace Mailbox

def accepts (b : Mailbox) : Bool := !b.closed && !b.frozen && decide (b.queue.length % 2 ^ 32 < b.limit)

def push (v : Value) (b : Mailbox) : Mailbox := { b with queue := b.queue ++ [v] }

def pop (b : Mailbox) : Option Value × Mailbox :=
  match b.queue with
  | [] => (none, b)
  | v :: rest => (some v, { b with queue := rest })

end Mailbox

namespace Machine

def setFault (host : Bool) (trace : List FaultSite) (code : FaultCode) (message : String) (op : Option ℕ)
    (m : Machine) : Option Machine :=
  let fault (code : FaultCode) (message : String) (m : Machine) : Option Machine :=
    compactTerminalProc host { m with
      vm := { m.vm with
        terminal := some (.fault ⟨code, message, op, trace⟩), state := .faulted, pending := none, nested := none,
        routed := none }
      callbacks := []
      resources := m.resources.map fun record => { record with live := false } }
  match m.materialize with
  | (.ok _, m) => fault code message m
  | (.error _, m) => fault .malformedState "the native machine state did not materialize" m

def installReply (e : MailEnv) (host : Bool) (v : Value) (m : Machine) : Option (Except FaultCode Unit × Machine) :=
  match e.fits with
  | .error code =>
    (m.setFault host e.trace code "the reply does not carry the type of its perform" none).map (.error code, ·)
  | .ok _ =>
    match ({ m with vm.pending := none } : Machine).push e.grants.room v with
    | (.error code, m) => (m.setFault host e.trace code "" none).map (.error code, ·)
    | (.ok _, m) =>
      some (.ok (), if m.vm.state = .running then m else { m with vm.state := .ready })

end Machine

namespace World

variable {ι : Type}

def onMachine {α : Type} (vm : VmId) (f : Machine → Option (α × Machine)) (w : World ι) : Option (α × World ι) :=
  (w.machine vm).bind fun m => (f m).map fun x => (x.1, w.setMachine vm x.2)

/-- Read one proc reference out of a handle value; a stale reference is a panic. -/
def handleProc (holder : VmId) (value : Value) (w : World ι) : Option (Option (VmId × ℕ)) :=
  match value.asObj with
  | none => some none
  | some r =>
    ((w.machine holder).bind fun m => m.vm.heap.tryGet r).map fun object =>
      match object with
      | .nativeHandle proc generation => some (proc.toNat, generation.toNat)
      | _ => none

def procRunning (proc : VmId) (generation : ℕ) (w : World ι) : Option Bool :=
  if w.machines.length ≤ proc then some false
  else (w.machine proc).map fun m =>
    decide (m.generation = generation ∧ m.vm.state ≠ .done ∧ m.vm.state ≠ .faulted)

def makeInstance (vm : VmId) (cls : Option UInt32) (fields : List Value) (w : World ι) :
    Option (Except FaultCode Value × World ι) :=
  match cls with
  | none => some (.error .malformedState, w)
  | some cls => w.onMachine vm fun m =>
      (m.alloc (.inst cls fields 0) true).map fun x => (x.1.map Value.obj, x.2)

def makeFault (e : MailEnv) (vm : VmId) (code : FaultCode) (message : String) (w : World ι) :
    Option (Except FaultCode Value × World ι) :=
  w.onMachine vm fun m => (m.alloc (.nativeFault code message none e.trace) true).map fun x => (x.1.map Value.obj, x.2)

def faultCaller (e : MailEnv) (vm : VmId) (op : ℕ) (code : FaultCode) (message : String) (w : World ι) :
    Option (Answer × World ι) :=
  w.onMachine vm fun m =>
    (m.setFault (e.grants.host vm) e.trace code message (some op)).map fun m => (.faulted code, m)

def replyOrFault (e : MailEnv) (vm : VmId) (op : ℕ) (arm : Arm) (built : Except FaultCode Value) (w : World ι) :
    Option (Answer × World ι) :=
  match built with
  | .error code => w.faultCaller e vm op code ""
  | .ok v => w.onMachine vm fun m => (m.installReply e (e.grants.host vm) v).map fun x =>
      (match x.1 with
        | .ok _ => .answered arm
        | .error code => .faulted code, x.2)

def answerCase (e : MailEnv) (vm : VmId) (op : ℕ) (arm : Arm) (cls : Option UInt32) (fields : List Value)
    (w : World ι) : Option (Answer × World ι) :=
  (w.makeInstance vm cls fields).bind fun x => x.2.replyOrFault e vm op arm x.1

def answerDead (e : MailEnv) (vm : VmId) (op : ℕ) (w : World ι) : Option (Answer × World ι) :=
  (w.makeFault e vm .deadProc "the target proc is dead").bind fun x =>
    match x.1 with
    | .error code => x.2.faultCaller e vm op code ""
    | .ok fault => x.2.answerCase e vm op .fault e.core.sendFault [fault]

def blockMachine (vm : VmId) (block : Block) (w : World ι) : Option (Answer × World ι) :=
  w.onMachine vm fun m => some (.blocked, { m with vm.block := some block, vm.state := .blocked })

def copyFailure (what : String) : FaultCode → String
  | .heapLimit => "the " ++ what ++ " copy exceeded the heap limit"
  | .boundaryLimit => "the " ++ what ++ " copy exceeded the boundary limit"
  | _ => "the " ++ what ++ " is not sendable"

def emitWake (wake : WakeKey) (w : World ι) : World ι := { w with scheduleEvents := w.scheduleEvents.pushWake wake }

def enqueue (proc : VmId) (v : Value) (w : World ι) : Option (World ι) :=
  (w.machine proc).map fun m =>
    (w.setMachine proc { m with vm.mailbox := m.vm.mailbox.push v }).emitWake (.receive ⟨proc, m.generation⟩)

def deliver (e : MailEnv) (vm : VmId) (op : ℕ) (proc : VmId) (message : Value) (w : World ι) :
    Option ((Answer × Option (VmId × Value)) × World ι) :=
  (w.boundaryCopy e.grants vm proc message).bind fun x =>
    match x.1 with
    | .error code => (x.2.faultCaller e vm op code (copyFailure "message" code)).map fun y => ((y.1, none), y.2)
    | .ok moved => (x.2.enqueue proc moved).bind fun w =>
        (w.answerCase e vm op .sent e.core.sendSent []).map fun y => ((y.1, some (proc, moved)), y.2)

/-- `h.send(message)`: the answer, and the message with its proc when it was accepted. -/
def procSend (e : MailEnv) (vm : VmId) (op : ℕ) (handle message : Value) (w : World ι) :
    Option ((Answer × Option (VmId × Value)) × World ι) := do
  let refused (x : Answer × World ι) : (Answer × Option (VmId × Value)) × World ι := ((x.1, none), x.2)
  match ← w.handleProc vm handle with
  | none => (w.faultCaller e vm op .typeMismatch "the receiver is not a proc handle").map refused
  | some (proc, generation) =>
    if ← w.procRunning proc generation then
      let m ← w.machine proc
      if m.vm.mailbox.closed then (w.answerCase e vm op .closed e.core.sendClosed []).map refused
      else if !m.vm.mailbox.accepts then (w.blockMachine vm (.send proc generation)).map refused
      else w.deliver e vm op proc message
    else (w.answerDead e vm op).map refused

/-- `h.close()`: a repeat answers `Closed`. -/
def procClose (e : MailEnv) (vm : VmId) (op : ℕ) (handle : Value) (w : World ι) : Option (Answer × World ι) := do
  match ← w.handleProc vm handle with
  | none => w.faultCaller e vm op .typeMismatch "the receiver is not a proc handle"
  | some (proc, generation) =>
    if ← w.procRunning proc generation then
      let m ← w.machine proc
      let first := !m.vm.mailbox.closed
      let closed := w.setMachine proc { m with vm.mailbox.closed := true }
      let woken := (closed.emitWake (.receive ⟨proc, generation⟩)).emitWake (.send ⟨proc, generation⟩)
      woken.answerCase e vm op (if first then .sent else .closed) (if first then e.core.sendSent else e.core.sendClosed) []
    else w.answerDead e vm op

def takeMessage (vm : VmId) (w : World ι) : Option (Option Value × World ι) :=
  (w.machine vm).map fun m =>
    let taken := w.setMachine vm { m with vm.mailbox := m.vm.mailbox.pop.2 }
    (m.vm.mailbox.pop.1, if m.vm.mailbox.pop.1.isSome then taken.emitWake (.send ⟨vm, m.generation⟩) else taken)

/-- `self.receive()` inside a proc: the answer, and the message that was taken. -/
def procRecv (e : MailEnv) (vm : VmId) (op : ℕ) (w : World ι) : Option ((Answer × Option Value) × World ι) := do
  let m ← w.machine vm
  if m.owner ≠ .scheduler then
    (w.faultCaller e vm op .invalidVmState "receive is valid only on a scheduler-owned proc").map fun y => ((y.1, none), y.2)
  else do
    let x ← w.takeMessage vm
    match x.1 with
    | some v => (x.2.answerCase e vm op (.message v) e.core.recvMsg [v]).map fun y => ((y.1, some v), y.2)
    | none =>
      if m.vm.mailbox.closed then (x.2.answerCase e vm op .drained e.core.recvClosed []).map fun y => ((y.1, none), y.2)
      else (x.2.blockMachine vm .receive).map fun y => ((y.1, none), y.2)

def takeReceiveWaitValue (e : MailEnv) (vm : VmId) (w : World ι) :
    Option ((Except FaultCode Value × Option Value) × World ι) := do
  let m ← w.machine vm
  let x ← w.takeMessage vm
  match x.1 with
  | some v => (x.2.makeInstance vm e.core.recvMsg [v]).map fun y => ((y.1, some v), y.2)
  | none =>
    if m.vm.mailbox.closed then (x.2.makeInstance vm e.core.recvClosed []).map fun y => ((y.1, none), y.2)
    else some ((.error .malformedState, none), x.2)

end World

end LoomV4.Vm
