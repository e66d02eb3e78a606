import LoomV4.World.References

namespace LoomV4.Vm

open Abi Proc Lib

namespace Machine

def blank (config : VmConfig) (generation : ℕ) : Machine :=
  { vm := { heap := .new config.heapBytes }, config, generation }

def cleared (m : Machine) : Machine :=
  { m with
    vm := { m.vm with
      arenas := {}
      literals := []
      pending := none
      nested := none
      routed := none
      block := none
      waits := []
      mailbox := { m.vm.mailbox with queue := [] } }
    startBody := none
    table := if 0 < m.children then m.table else {}
    resources := [] }

def compactTerminalProc (host : Bool) (m : Machine) : Option Machine :=
  if m.isProc = false ∨ (m.vm.state ≠ .done ∧ m.vm.state ≠ .faulted) then some m
  else match collect (m.cleared.gcRoots []) m.vm.heap with
    | none => none
    | some heap =>
      if 0 < m.children then some { m.cleared with vm.heap := heap }
      else match m.vm.terminal with
        | some (.done (.obj r)) =>
          match heap.compactLive [r] host with
          | (.ok [r], heap) => some { m.cleared with vm.heap := heap, vm.terminal := some (.done (.obj r)) }
          | (_, heap) => some { m.cleared with vm.heap := heap }
        | _ => some { m.cleared with vm.heap := (heap.compactLive [] host).2 }

end Machine

namespace World

variable {ι : Type} (host : VmId → Bool) (w : World ι)

def retiredSchedulerMachine (vm : VmId) (m : Machine) : Bool :=
  decide (m.owner = .scheduler ∧ (m.vm.state = .done ∨ m.vm.state = .faulted) ∧
    (⟨vm, m.generation⟩ : TaskKey) ∉ w.schedulerProcs)

def isHeld (vm : VmId) (m : Machine) : Bool :=
  decide (0 < m.active ∨ (m.owner ≠ .holder ∧ w.retiredSchedulerMachine vm m = false) ∨ m.paused = true ∨
    m.barrier ≠ none)

def isRoot (vm : VmId) (m : Machine) : Bool :=
  decide (m.vm.parent = none ∨ m.vm.state = .empty ∨ w.isHeld vm m = true)

def isSpared (vm : VmId) (m : Machine) : Bool :=
  decide (w.isHeld vm m = true ∨ 0 < (m.resources.filter ResourceRecord.live).length ∨
    m.vm.state = .running ∨ m.vm.state = .waiting ∨ m.vm.state = .blocked)

def freeSlots : List VmId := w.vmFree ++ w.mockFree

def mark (count : ℕ) (queue : List VmId) (vm : VmId) : List VmId :=
  if vm < count ∧ vm ∉ queue then queue ++ [vm] else queue

def markRoots (free : List VmId) : List VmId :=
  ((List.range w.machines.length).filter (fun vm =>
      decide (vm ∉ free) && (w.machine vm).any fun m => w.isRoot vm m) ++
    w.suspended.flatMap (fun saved => saved.1 :: saved.2.flatMap fun act => act.vm :: act.replyTo.toList) ++
    w.gateGroups.flatMap GateGroup.members ++ w.boundResources.map fun bound => bound.2.owner).foldl
      (mark w.machines.length) []

/-- The loop of the mark phase: `done` has been looked at. The inner `none` is a walk that failed. -/
def markFrom (count : ℕ) (free : List VmId) :
    ℕ → List VmId → List VmId → World ι → Option (Option (List VmId) × World ι)
  | _, done, [], w => some (some done, w)
  | 0, _, _ :: _, _ => none
  | left + 1, done, vm :: pending, w =>
    match w.machine vm with
    | none => none
    | some m =>
      if m.vm.state = .empty then markFrom count free left (done ++ [vm]) pending w
      else
        let parents := m.vm.parent.toList.filter fun parent => decide (parent ∉ free)
        match w.machineReferences vm with
        | none => none
        | some (.error _, w) => some (none, w)
        | some (.ok found, w) =>
          let queue := (parents ++ found).foldl (mark count) (done ++ vm :: pending)
          markFrom count free left (done ++ [vm]) (queue.drop (done.length + 1)) w

def releaseChild (up : VmId) : Option (World ι) :=
  match w.machine up with
  | none => none
  | some record =>
    let record := { record with children := record.children - 1 }
    (if record.children = 0 then record.compactTerminalProc (host up) else some record).map (w.setMachine up)

def sweepOne (marked free : List VmId) (w : World ι) (id : VmId) : Option (World ι) :=
  if id ∈ marked ∨ id ∈ free then some w
  else match w.machine id with
    | none => none
    | some m =>
      if w.isSpared id m = true then some w
      else
        let w := w.setMachine id (.blank w.config ((m.generation + 1) % 2 ^ 32))
        let released := match m.vm.parent with
          | none => some w
          | some up => w.releaseChild host up
        released.map fun w => { w with vmFree := w.vmFree ++ [id] }

def namedImages (m : Machine) (order : List ObjRef) : List VmImageKey :=
  m.image.toList ++ (order.filterMap m.vm.heap.tryGet).filterMap imageNamed

/-- The VM images that these machines name; the inner `none` is a walk that failed. -/
def usedVmImages : List VmId → Option (Option (List ℕ))
  | [] => some (some [])
  | vm :: rest =>
    match w.machine vm with
    | none => none
    | some m =>
      if vm ∈ w.freeSlots ∨ m.vm.state = .empty then usedVmImages rest
      else match snapshotOrdinals w.scratch m.vm.heap m.snapshotRoots m.config.graph with
        | none => none
        | some (.error _) => some none
        | some (.ok order) =>
          (usedVmImages rest).map fun used => used.map fun used =>
            ((namedImages m order).filter fun key => (w.liveImage key).isSome).map VmImageKey.image ++ used

def VmImageRecord.reclaimed (record : VmImageRecord) : VmImageRecord :=
  { record with live := false, generation := (record.generation + 1) % 2 ^ 32, heap := .new record.config.heapBytes }

def collectVmImages : Option (World ι) :=
  if w.vmImages = [] then some w
  else (w.usedVmImages (List.range w.machines.length)).map fun used =>
    match used with
    | none => w
    | some used => { w with
        vmImages := w.vmImages.mapIdx fun image record =>
          if record.live = false ∨ image ∈ used then record else VmImageRecord.reclaimed record
        vmImageFree := w.vmImageFree ++ (List.range w.vmImages.length).filter (fun image =>
          (w.vmImages[image]?).any VmImageRecord.live && decide (image ∉ used)) }

/-- The image slots that these machines name; the inner `none` is a walk that failed. -/
def usedImages : List VmId → Option (Option (List ℕ))
  | [] => some (some [])
  | vm :: rest =>
    match w.machine vm with
    | none => none
    | some m =>
      if vm ∈ w.freeSlots ∨ m.vm.state = .empty then usedImages rest
      else match w.imageReferences vm with
        | none => none
        | some (.error _) => some none
        | some (.ok found) => (usedImages rest).map fun used => used.map fun used => found ++ used

def collectImages : Option (World ι) :=
  if w.images.isEmpty then some w
  else (w.usedImages (List.range w.machines.length)).map fun used =>
    match used with
    | none => w
    | some used => { w with
        images := w.images.mapIdx fun slot image => if slot ∈ used then image else none
        imageFree := w.imageFree ++ (List.range w.images.length).filter (fun slot =>
          (w.images[slot]?).any Option.isSome && decide (slot ∉ used)) }

def collectMachines : Option (ℕ × World ι) :=
  if w.machines.any Option.isNone then some (0, w)
  else if w.freeSlots.any (fun id => decide (w.machines.length ≤ id)) then none
  else
    let free := w.freeSlots
    match markFrom w.machines.length free w.machines.length [] (w.markRoots free) w with
    | none => none
    | some (none, w) => some (0, w)
    | some (some marked, w) =>
      match (List.range w.machines.length).foldlM (sweepOne host marked free) w with
      | none => none
      | some swept =>
        (swept.collectVmImages.bind collectImages).map fun w' => (swept.vmFree.length - w.vmFree.length, w')

end World

end LoomV4.Vm
