import LoomV4.World.References

namespace LoomV4.Vm

open Abi Proc Lib

structure CutReport where
  set : List VmId
  order : List VmId
  cut : ℕ
  objects : ℕ
  resumed : Bool
deriving DecidableEq

inductive CutError
  | overlaps (vm : VmId)
  | resourceActive (path : List ℕ) (kind : String)
  | limit (vm : VmId) (code : FaultCode)
  | notCapturable (vm : VmId) (message : String)
  | tooLarge
deriving DecidableEq

inductive SnapshotFail
  | resourceActive (path : List ℕ) (kind : String)
  | limitExceeded
  | fault (code : FaultCode) (message : String)
deriving DecidableEq

/-- The names that the ABI bundle of a machine gives to operations and extension resources. -/
structure Bundle where
  opName : ℕ → Option String
  resourceName : Hash → Option String

def ResourceKind.text (bundle : Bundle) (pending : String) : ResourceKind → String
  | .pendingOperation => pending
  | .file => "file handle"
  | .tcpStream => "TCP stream"
  | .tcpListener => "TCP listener"
  | .tlsStream => "TLS stream"
  | .rawMode => "raw terminal mode"
  | .signalStream => "signal stream"
  | .pipeReader => "pipe reader"
  | .pipeWriter => "pipe writer"
  | .child => "child handle"
  | .udpSocket => "UDP socket"
  | .extension identity => (bundle.resourceName identity).getD "extension resource"

def preflightResource : Object → Option ℕ
  | .nativeFileHandle resource | .nativeResourceHandle _ resource | .nativeTcpStream resource
  | .nativeTcpListener resource | .nativePipeReader resource | .nativePipeWriter resource | .nativeChild resource
  | .nativeUdpSocket resource => some resource.toNat
  | _ => none

def attachedResource : Object → Option ℕ
  | .nativeFileHandle resource | .nativeResourceHandle _ resource | .nativeTcpStream resource
  | .nativeTcpListener resource | .nativeTlsStream resource | .nativeRawMode resource | .nativeSignalStream resource
  | .nativePipeReader resource | .nativePipeWriter resource | .nativeChild resource | .nativeUdpSocket resource
  | .nativeHostResource _ resource => some resource.toNat
  | _ => none

namespace World

variable {ι : Type} (bundles : VmId → Bundle) (w : World ι)

def nextCut : World ι := { w with cut := w.cut + 1 }

def setBarrier (vm : VmId) (barrier : Option ℕ) : Option (World ι) :=
  match w.machine vm with
  | none => none
  | some m =>
    let w := w.setMachine vm { m with barrier }
    let key : TaskKey := ⟨vm, m.generation⟩
    if key ∉ w.schedulerProcs ∧ vm ≠ 0 then some w
    else some { w with scheduleEvents :=
      if barrier.isSome then w.scheduleEvents.pushRemoved key else w.scheduleEvents.pushReady key }

def freezeMailbox (vm : VmId) (frozen : Bool) : Option (World ι) :=
  match w.machine vm with
  | none => none
  | some m =>
    let w := w.setMachine vm { m with vm := { m.vm with mailbox := { m.vm.mailbox with frozen } } }
    some (if frozen then w else { w with scheduleEvents := w.scheduleEvents.pushWake (.send ⟨vm, m.generation⟩) })

def releaseCut (set : List VmId) (thaw : Bool) : Option (World ι) :=
  set.foldlM (fun w vm => (if thaw then w.freezeMailbox vm false else some w).bind fun w => w.setBarrier vm none) w

def freezeAll (set : List VmId) : Option (World ι) := set.foldlM (fun w vm => w.freezeMailbox vm true) w

def refuse {α : Type} (set : List VmId) (thaw : Bool) (e : CutError) : Option (Except CutError α × World ι) :=
  (w.releaseCut set thaw).map fun w => (.error e, w)

/-- Stop the reachable machines and close the set over what they name. The head of the list is the top of the
stack; `left` bounds the machines that can still join the set. -/
def closeSet (barrier : ℕ) : ℕ → List VmId → List VmId → World ι → Option (Except CutError (List VmId) × World ι)
  | left, queue, set, w =>
    match left, queue.dropWhile (fun vm => decide (vm ∈ set)) with
    | _, [] => some (.ok set, w)
    | 0, _ :: _ => none
    | left + 1, vm :: queue =>
      match w.machine vm with
      | none => none
      | some m =>
        if m.barrier ≠ none ∧ m.barrier ≠ some barrier then w.refuse set false (.overlaps vm)
        else match w.setBarrier vm (some barrier) with
          | none => none
          | some w =>
            if m.vm.state = .empty then closeSet barrier left queue (set ++ [vm]) w
            else match w.machineReferences vm with
              | none => none
              | some (.ok found, w) => closeSet barrier left (found.reverse ++ queue) (set ++ [vm]) w
              | some (.error code, w) => w.refuse (set ++ [vm]) false (.limit vm code)

def snapshotObjectOrder (m : Machine) : Option (Except FaultCode (List ObjRef)) :=
  snapshotOrdinals w.scratch m.vm.heap m.snapshotRoots m.config.graph

def liveAttachmentKind (vm : VmId) (m : Machine) : Option (Option String) :=
  match m.liveAttachment with
  | some record =>
    let op := ((bundles vm).opName record.op).getD "<invalid operation>"
    some (some (record.kind.text (bundles vm) ("a pending " ++ op)))
  | none =>
    match w.snapshotObjectOrder m with
    | none => none
    | some (.error _) => some none
    | some (.ok order) => some (order.findSome? fun r =>
        ((m.vm.heap.tryGet r).bind attachedResource).bind fun resource =>
          (w.boundResources.lookup resource).map fun bound =>
            bound.kind.text (bundles vm) "pending operation")

def snapshotPreflight (m : Machine) : Option (Except FaultCode ℕ) :=
  if m.liveAttachment ≠ none then some (.error .boundaryViolation)
  else match w.snapshotObjectOrder m with
    | none => none
    | some (.error e) => some (.error e)
    | some (.ok order) =>
      if order.any fun r => ((m.vm.heap.tryGet r).bind preflightResource).any fun resource =>
          (w.boundResources.lookup resource).isSome
      then some (.error .boundaryViolation) else some (.ok order.length)

def pathParents : ℕ → List VmId → List VmId → List (VmId × VmId) → World ι →
    Option (List VmId × List (VmId × VmId) × World ι)
  | 0, _, order, parent, w => some (order, parent, w)
  | _ + 1, [], order, parent, w => some (order, parent, w)
  | left + 1, vm :: queue, order, parent, w =>
    match w.machine vm with
    | none => none
    | some m =>
      if m.vm.state = .empty then pathParents left queue order parent w
      else match w.machineReferences vm with
        | none => none
        | some (.error _, w) => pathParents left queue order parent w
        | some (.ok found, w) =>
          let new := (found.foldl pushNew []).filter fun next => decide (next ∉ order)
          pathParents left (queue ++ new) (order ++ new) (parent ++ new.map fun next => (next, vm)) w

def pathUp (parent : List (VmId × VmId)) : ℕ → VmId → List VmId
  | 0, vm => [vm]
  | n + 1, vm =>
    match parent.lookup vm with
    | none => [vm]
    | some up => vm :: pathUp parent n up

def machinePathMany (roots : List VmId) (target : VmId) : Option (List ℕ × World ι) :=
  (pathParents (roots.length + w.machines.length) roots roots [] w).map fun (order, parent, w) =>
    (if target ∈ order then ((pathUp parent parent.length target).map fun vm => order.idxOf vm).reverse else [], w)

def preflight (roots set : List VmId) : List VmId → ℕ → World ι → Option (Except CutError ℕ × World ι)
  | [], objects, w => some (.ok objects, w)
  | vm :: rest, objects, w =>
    match w.machine vm with
    | none => none
    | some m =>
      if m.vm.state = .empty then preflight roots set rest objects w
      else match w.liveAttachmentKind bundles vm m with
        | none => none
        | some (some kind) =>
          (w.machinePathMany roots vm).bind fun (path, w) => w.refuse set true (.resourceActive path kind)
        | some none =>
          match w.snapshotPreflight m with
          | none => none
          | some (.error code) => w.refuse set true (.limit vm code)
          | some (.ok count) => preflight roots set rest (objects + count) w

def orderFrom : ℕ → List VmId → List VmId → World ι → Option (List VmId × World ι)
  | left, queue, order, w =>
    match left, queue.dropWhile (fun vm => decide (vm ∈ order)) with
    | _, [] => some (order, w)
    | 0, _ :: _ => none
    | left + 1, vm :: queue =>
      match w.machine vm with
      | none => none
      | some m =>
        if m.vm.state = .empty then orderFrom left queue (order ++ [vm]) w
        else match w.machineReferences vm with
          | some (.ok found, w) =>
            orderFrom left (queue ++ found.filter fun target => decide (target ∉ order ++ [vm])) (order ++ [vm]) w
          | _ => none

def machineOrderMany (roots : List VmId) : Option (List VmId × World ι) := orderFrom w.machines.length roots [] w

def runCutMany (barrier : ℕ) (roots : List VmId) : Option (Except CutError CutReport × World ι) :=
  match closeSet barrier w.machines.length roots [] w with
  | none => none
  | some (.error e, w) => some (.error e, w)
  | some (.ok found, w) =>
    let set := found.insertionSort (· ≤ ·)
    let w := w.nextCut
    let cut := w.cut
    match w.freezeAll set with
    | none => none
    | some w =>
      match preflight bundles roots set set 0 w with
      | none => none
      | some (.error e, w) => some (.error e, w)
      | some (.ok objects, w) =>
        (w.machineOrderMany roots).map fun (order, w) => (.ok ⟨set, order, cut, objects, false⟩, w)

def suspendedRefs (vm : VmId) : ℕ :=
  (w.suspended.flatMap fun saved => saved.2).countP (fun act => act.vm = vm) +
  (w.suspended.flatMap fun saved => saved.2).countP fun act => act.replyTo = some vm

def capturable (distinguished : Option VmId) (selfRoot : Bool) (vm : VmId) : Option (Except String Unit) :=
  if selfRoot = true ∧ distinguished = some vm then some (.ok ())
  else match w.machine vm with
    | none => none
    | some m =>
      if m.vm.state = .running then some (.error "is running, so it is not at a boundary")
      else if w.suspendedRefs vm < m.active then some (.error "is in use by a driver")
      else some (.ok ())

def firstUncapturable (distinguished : Option VmId) (selfRoot : Bool) : List VmId → Option (Option (VmId × String))
  | [] => some none
  | vm :: rest =>
    match w.capturable distinguished selfRoot vm with
    | none => none
    | some (.error message) => some (some (vm, message))
    | some (.ok _) => firstUncapturable distinguished selfRoot rest

def materializeFrom : List VmId → World ι → Option (Except FaultCode Unit × World ι)
  | [], w => some (.ok (), w)
  | vm :: rest, w =>
    match w.machine vm with
    -- A leased machine is skipped.
    | none => materializeFrom rest w
    | some m =>
      match m.materialize with
      | (.error e, m) => some (.error e, w.setMachine vm m)
      | (.ok _, m) => materializeFrom rest (w.setMachine vm m)

def materializeNativeMachines : Option (Except FaultCode Unit × World ι) :=
  materializeFrom (List.range w.machines.length) w

end World

def CutError.fail : CutError → SnapshotFail
  | .resourceActive path kind => .resourceActive path kind
  | .tooLarge => .limitExceeded
  | .overlaps vm => .fault .invalidVmState s!"another snapshot holds machine {vm}"
  | .limit vm code => .fault code s!"the capture of machine {vm} passed a graph limit"
  | .notCapturable vm message => .fault .invalidVmState s!"machine {vm} {message}"

/-- Capture one selected run or one selected VM. `build` makes the image of the stopped world, and `sealed` checks it
against the byte limit of the machine that asks for it. -/
def World.captureSelected {ι β γ : Type} (bundles : VmId → Bundle)
    (build : CutReport → World ι → Option (Except SnapshotFail β × World ι)) (sealed : β → ℕ → Except SnapshotFail γ)
    (barrier : ℕ) (roots : List VmId) (distinguished : Option VmId) (selfRoot : Bool) (limitHolder : VmId)
    (w : World ι) : Option (Except SnapshotFail γ × World ι) :=
  match w.materializeNativeMachines with
  | none => none
  | some (.error code, w) => some (.error (.fault code "the native machine state did not materialize"), w)
  | some (.ok _, w) =>
    match w.runCutMany bundles barrier roots with
    | none => none
    | some (.error e, w) => some (.error e.fail, w)
    | some (.ok report, w) =>
      match w.firstUncapturable distinguished selfRoot report.set with
      | none => none
      | some (some (vm, message)) =>
        (w.releaseCut report.set true).map fun w => (.error (.fault .invalidVmState s!"machine {vm} {message}"), w)
      | some none =>
        match build report w with
        | none => none
        | some (built, w) =>
          match w.releaseCut report.set true with
          | none => none
          | some w =>
            match built with
            | .error e => some (.error e, w)
            | .ok image => (w.machine limitHolder).map fun m => (sealed image m.config.snapshotBytes, w)

end LoomV4.Vm
