import Mathlib.Data.List.DropRight
import LoomV4.Graph.Copy
import LoomV4.World.Reclaim

namespace LoomV4.Vm

open Abi Proc Lib

/-- What surrounds one operation: which shared allocations have no other holder, which work tables the host grants,
whether the operand stack has room, the length of the graph tables, and the sizes of the policy tables. -/
structure Grants where
  unique : ObjRef → Bool
  host : VmId → Bool
  room : Bool
  held : ℕ
  opCount : ℕ
  groupCount : ℕ

namespace PolicyTable

def set (entries : List (Option Action)) (limit slot : ℕ) (action : Option Action) : Option (List (Option Action)) :=
  if limit ≤ slot then none
  else
    let entries := if action.isSome ∧ entries.length ≤ slot
      then entries ++ List.replicate (slot + 1 - entries.length) none else entries
    if slot < entries.length then some ((entries.set slot action).rdropWhile Option.isNone) else some entries

def setExact (limit slot : ℕ) (action : Option Action) (t : PolicyTable) : Option PolicyTable :=
  (set t.exact limit slot action).map fun exact => { t with exact }

def setGroup (limit slot : ℕ) (action : Option Action) (t : PolicyTable) : Option PolicyTable :=
  (set t.group limit slot action).map fun group => { t with group }

end PolicyTable

namespace Machine

def collectGarbage (m : Machine) : Option Machine :=
  (collect (m.gcRoots []) m.vm.heap).map fun heap => { m with vm.heap := heap }

def collectionDue (h : Heap) (growth : ℕ) : Bool :=
  decide (usizeMax < h.usedBytes + growth ∨ h.collectionThreshold < h.usedBytes + growth)

def allocRoom (object : Object) (unique : Bool) (m : Machine) : Option (Bool × Heap) :=
  if collectionDue m.vm.heap (m.vm.heap.allocationCost object unique) then
    (collect (m.gcRoots object.children) m.vm.heap).map fun heap =>
      (!heap.wouldExceed (heap.allocationCost object unique), heap)
  else some (true, m.vm.heap)

def alloc (object : Object) (unique : Bool) (m : Machine) : Option (Except FaultCode ObjRef × Machine) :=
  match m.allocRoom object unique with
  | none => none
  | some (false, heap) => some (.error .heapLimit, { m with vm.heap := heap })
  | some (true, heap) => (heap.alloc object).map fun x => (.ok x.1, { m with vm.heap := x.2 })

def push (room : Bool) (v : Value) (m : Machine) : Except FaultCode Unit × Machine :=
  match m.materialize with
  | (.error _, m) => (.error .malformedState, m)
  | (.ok _, m) =>
    if room then (.ok (), { m with vm.arenas.operands := m.vm.arenas.operands ++ [v] }) else (.error .stackLimit, m)

end Machine

namespace World

variable {ι : Type}

def executing (w : World ι) (vm : VmId) : Option Machine := if vm ∈ w.freeSlots then none else w.machine vm

def internImage (image : ι) (w : World ι) : ℕ × World ι :=
  match w.imageFree.getLast? with
  | some slot => (slot, { w with imageFree := w.imageFree.dropLast, images := w.images.set slot (some image) })
  | none => (w.images.length % 2 ^ 32, { w with images := w.images ++ [some image] })

def imageAt (w : World ι) (slot : ℕ) : Option ι := (w.images[slot]?).join

def installSnapshot (g : Grants) (vm : VmId) (resultOk : UInt32) (image : ι) (w : World ι) : Option (ℕ × World ι) :=
  let (slot, w) := w.internImage image
  match w.machine vm with
  | none => none
  | some m =>
    match m.alloc (.nativeSnapshotRef (.ofNat slot)) true with
    | none => none
    | some (.error _, m) => some (slot, w.setMachine vm m)
    | some (.ok r, m) =>
      match m.alloc (.inst resultOk [.obj r] 0) true with
      | none => none
      | some (.error _, m) => some (slot, w.setMachine vm m)
      | some (.ok r, m) => some (slot, w.setMachine vm (m.push g.room (.obj r)).2)

def boundaryCopy (g : Grants) (src dst : VmId) (value : Value) (w : World ι) :
    Option (Except FaultCode Value × World ι) :=
  match w.machine src, w.machine dst with
  | some source, some target =>
    if value.asObj = none then some (copyImmediate value, w)
    else
      let copied := if src = dst
        then copyWithin g.unique g.held target.vm.heap (target.gcRoots []) value target.config.graph
        else transfer g.unique g.held source.vm.heap target.vm.heap (target.gcRoots []) value target.config.graph
      copied.map fun x => (x.1, w.setMachine dst { target with vm.heap := x.2 })
  | _, _ => none

def sendValue (g : Grants) (src dst : VmId) (operand : ℕ) (w : World ι) : Option (World ι) :=
  match (w.executing src).bind (fun m => m.vm.arenas.operands[operand]?) with
  | none => none
  | some value =>
    match w.boundaryCopy g src dst value with
    | none => none
    | some (.error _, w) => some w
    | some (.ok moved, w) => (w.machine dst).map fun m =>
        w.setMachine dst { m with vm.mailbox.queue := m.vm.mailbox.queue ++ [moved] }

inductive TableEdit
  | pass
  | block
  | mock (operand : ℕ)
  | clear

def editEntry (g : Grants) (vm target : VmId) (edit : TableEdit) (w : World ι) :
    Option (Except FaultCode (Option Action) × World ι) :=
  match edit with
  | .pass => some (.ok (some .pass), w)
  | .block => some (.ok (some .block), w)
  | .clear => some (.ok none, w)
  | .mock operand =>
    match (w.executing vm).bind (fun m => m.vm.arenas.operands[operand]?) with
    | none => none
    | some closure =>
      (w.boundaryCopy g vm target closure).map fun x =>
        (x.1.bind fun value =>
          match value with
          | .obj r => .ok (some (.mock r))
          | _ => .error .typeMismatch, x.2)

def handleTableEdit (g : Grants) (vm target : VmId) (edit : TableEdit) (exact : Bool) (slot : ℕ) (w : World ι) :
    Option (World ι) :=
  match w.editEntry g vm target edit with
  | none => none
  | some (.error _, w) => some w
  | some (.ok entry, w) =>
    (w.machine target).map fun m =>
      match (if exact then m.table.setExact g.opCount slot entry else m.table.setGroup g.groupCount slot entry) with
      | none => w
      | some table => w.setMachine target { m with table }

def setVmImage (w : World ι) (image : ℕ) (record : VmImageRecord) : World ι :=
  { w with vmImages := w.vmImages.set image record }

def stageValueTarget (g : Grants) (key : VmImageKey) (source : VmId) (value : Value) (w : World ι) :
    Option (Except FaultCode Value × World ι) :=
  match w.vmImages[key.image]?, w.machine source with
  | some record, some m =>
    (detach g.unique g.held m.vm.heap record.heap record.valueRoots value record.config.graph).map fun x =>
      (x.1, w.setVmImage key.image { record with heap := x.2 })
  | _, _ => none

def commitSlotTarget (key : VmImageKey) (slot version : ℕ) (target : ImageSlotTarget) (w : World ι) :
    Except FaultCode Unit × World ι :=
  match w.liveImage key with
  | none => (.error .invalidVmState, w)
  | some record =>
    if record.slotVersions[slot]? ≠ some version ∨ u64Max ≤ version then (.error .invalidVmState, w)
    else (.ok (), w.setVmImage key.image { record with
      slots := record.slots.set slot target, slotVersions := record.slotVersions.set slot (version + 1) })

def replaceValueSlot (g : Grants) (key : VmImageKey) (slot : ℕ) (source : VmId) (operand : ℕ) (w : World ι) :
    Option (World ι) :=
  match (w.liveImage key).bind fun record => record.slotVersions[slot]?,
      (w.executing source).bind (fun m => m.vm.arenas.operands[operand]?) with
  | some version, some value =>
    match w.stageValueTarget g key source value with
    | none => none
    | some (.error _, w) => some w
    | some (.ok moved, w) => some (w.commitSlotTarget key slot version (.value moved)).2
  | _, _ => some w

def loadValueSlot (g : Grants) (vm : VmId) (slot : ℕ) (w : World ι) : Option (World ι) :=
  match w.executing vm with
  | none => none
  | some m =>
    match (m.image.bind w.liveImage).bind (fun record => (record.slots[slot]?).map fun target => (record, target)) with
    | some (record, .value value) =>
      if value.asObj = none then some (w.setMachine vm (m.push g.room value).2)
      else match transfer g.unique g.held record.heap m.vm.heap (m.gcRoots []) value m.config.graph with
        | none => none
        | some (.error _, heap) => some (w.setMachine vm { m with vm.heap := heap })
        | some (.ok moved, heap) => some (w.setMachine vm ({ m with vm.heap := heap }.push g.room moved).2)
    | _ => some w

inductive ImageOp (ι : Type)
  | installSnapshot (vm : VmId) (resultOk : UInt32) (image : ι)
  | sendValue (src dst : VmId) (operand : ℕ)
  | handleTableEdit (vm target : VmId) (edit : TableEdit) (exact : Bool) (slot : ℕ)
  | replaceValueSlot (key : VmImageKey) (slot : ℕ) (source : VmId) (operand : ℕ)
  | loadValueSlot (vm : VmId) (slot : ℕ)
  | collectGarbage (vm : VmId)
  | collectMachines
  | collectImages

def imageStep (g : Grants) (op : ImageOp ι) (w : World ι) : Option (Option (ℕ × ι) × World ι) :=
  match op with
  | .installSnapshot vm resultOk image =>
    (w.installSnapshot g vm resultOk image).map fun x => (some (x.1, image), x.2)
  | .sendValue src dst operand => (w.sendValue g src dst operand).map fun w => (none, w)
  | .handleTableEdit vm target edit exact slot => (w.handleTableEdit g vm target edit exact slot).map fun w => (none, w)
  | .replaceValueSlot key slot source operand => (w.replaceValueSlot g key slot source operand).map fun w => (none, w)
  | .loadValueSlot vm slot => (w.loadValueSlot g vm slot).map fun w => (none, w)
  | .collectGarbage vm =>
    ((w.machine vm).bind Machine.collectGarbage).map fun m => (none, w.setMachine vm m)
  | .collectMachines => (w.collectMachines g.host).map fun x => (none, x.2)
  | .collectImages => w.collectImages.map fun w => (none, w)

end World

end LoomV4.Vm
