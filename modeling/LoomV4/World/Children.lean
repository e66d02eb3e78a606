import LoomV4.Lib.Accounts
import LoomV4.World.Reclaim

namespace LoomV4.Vm

open Abi Proc Lib

/-- What the limits of the world and the host decide: the machine limit, whether the last pass lies
far enough back, whether the host grants one more record, and its work tables. -/
structure ChildEnv where
  maxMachines : ℕ
  due : Bool
  reserve : Bool
  host : VmId → Bool

def Machine.child (config : VmConfig) (parent : VmId) (generation : ℕ) : Machine :=
  { Machine.blank config generation with vm := { heap := .new config.heapBytes, parent := some parent } }

def intersectConfig (run image : VmConfig) : VmConfig where
  graph := ⟨min run.graph.maxObjects image.graph.maxObjects, min run.graph.maxEdges image.graph.maxEdges,
    min run.graph.maxBytes image.graph.maxBytes, min run.graph.maxWork image.graph.maxWork⟩
  heapBytes := min run.heapBytes image.heapBytes
  maxChildren := min run.maxChildren image.maxChildren
  snapshotBytes := min run.snapshotBytes image.snapshotBytes

inductive SpawnOutcome
  | noTask
  | refused
  | started (body : Machine)

structure ImageMachine where
  parent : Option ℕ
  maxChildren : ℕ
  body : Machine

structure RestorePlan where
  target : Option VmId
  restorer : VmId
  machines : List Machine
  childCharge : ℕ
  gate : ℕ
  gateMembers : List VmId

namespace World

variable {ι : Type} (e : ChildEnv) (w : World ι)

def occupiedMachineRecords : ℕ := w.machines.length - w.vmFree.length - w.mockFree.length

def hasMachineRoom (count : ℕ) : Bool := decide (w.occupiedMachineRecords + count ≤ e.maxMachines)

def childReclamationNeeded (parent : VmId) : Bool :=
  match w.machine parent with
  | none => false
  | some m => !w.hasMachineRoom e 1 || decide (m.config.maxChildren ≤ m.children) || (w.vmFree.isEmpty && e.due)

def canReserveChild (parent : VmId) : Option Bool :=
  (w.machine parent).map fun m =>
    w.hasMachineRoom e 1 && (!w.vmFree.isEmpty || e.reserve) && decide (m.children < m.config.maxChildren)

def passDone : Option (World ι) := (w.collectMachines e.host).map Prod.snd

def reclaimFor (parent : VmId) : Option (World ι) :=
  if w.childReclamationNeeded e parent then w.passDone e
  else (w.canReserveChild e parent).bind fun can => if can then some w else w.passDone e

def reserveChild (parent : VmId) : Option (Option VmConfig × World ι) := do
  let w ← w.reclaimFor e parent
  let can ← w.canReserveChild e parent
  if can then do
    let m ← w.machine parent
    some (some { m.config with maxChildren := m.config.maxChildren - (m.children + 1) },
      w.setMachine parent { m with children := m.children + 1 })
  else some (none, w)

def installChild (config : VmConfig) (parent : VmId) : Option (VmId × World ι) :=
  match w.vmFree.getLast? with
  | some id => (w.machine id).map fun m =>
      (id, { w.setMachine id (.child config parent m.generation) with vmFree := w.vmFree.dropLast })
  | none => some (w.machines.length, { w with machines := w.machines ++ [some (.child config parent 0)] })

def newChild (parent : VmId) : Option (Option VmId × World ι) := do
  match ← w.reserveChild e parent with
  | (none, w) => some (none, w)
  | (some config, w) => (w.installChild config parent).map fun r => (some r.1, r.2)

def prepareRunTarget (parent : VmId) (image : VmImageKey) : Option (Option VmId × World ι) := do
  match ← w.reserveChild e parent with
  | (none, w) => some (none, w)
  | (some config, w) =>
    match w.vmImages[image.image]? with
    | none => some (none, w)
    | some record => do
      let r ← w.installChild (intersectConfig config record.config) parent
      let m ← r.2.machine r.1
      some (some r.1, r.2.setMachine r.1 { m with image := some image })

/-- The parent counts one child less, and a finished proc without children is compacted. -/
def rollbackChild (host : VmId → Bool) (parent child : VmId) : Option (World ι) := do
  let m ← w.machine child
  let w := { w.setMachine child (.blank w.config m.generation) with vmFree := w.vmFree ++ [child] }
  w.releaseChild host parent

def uncharge (parent : VmId) : Option (World ι) := do
  let m ← w.machine parent
  if m.children = 0 then none
  else some (w.setMachine parent { m with children := m.children - 1 })

def spawn (vm : VmId) (outcome : SpawnOutcome) : Option (World ι) := do
  match ← w.reserveChild e vm with
  | (none, w) => some w
  | (some config, w) =>
    match outcome with
    | .noTask => w.uncharge vm
    | .refused =>
      let pushed : World ι := { w with machines := w.machines ++ [some (.child config vm 0)] }
      let popped : World ι := { pushed with machines := pushed.machines.dropLast }
      popped.uncharge vm
    | .started body =>
      some { w with machines := w.machines ++
        [some { body with vm := { body.vm with parent := some vm }, children := 0, config := config }] }

def startMock (config : VmConfig) : Option (World ι) :=
  match w.mockFree.getLast? with
  | some id => (w.machine id).map fun _ =>
      { w.setMachine id (.blank config 0) with mockFree := w.mockFree.dropLast }
  | none =>
    if w.hasMachineRoom e 1 && e.reserve then
      some { w with machines := w.machines ++ [some (.blank config 0)] }
    else some w

def retireMock (mock : VmId) : Option (World ι) :=
  (w.machine mock).map fun m =>
    { w.setMachine mock (.blank w.config ((m.generation + 1) % 2 ^ 32)) with mockFree := w.mockFree ++ [mock] }

def childCount (image : List ImageMachine) (ordinal : ℕ) : ℕ :=
  image.countP fun source => source.parent = some ordinal

def restoreIds (target : Option VmId) (added : ℕ) : List VmId :=
  target.toList ++ (List.range added).map (w.machines.length + ·)

def restoredMachine (restorer : VmId) (ids : List VmId) (ceiling : VmConfig) (image : List ImageMachine)
    (ordinal : ℕ) (source : ImageMachine) : Machine :=
  { source.body with
    vm := { source.body.vm with parent := (source.parent.bind fun parent => ids[parent]?).or (some restorer) }
    children := childCount image ordinal
    config := { source.body.config with maxChildren := min source.maxChildren ceiling.maxChildren } }

def restoreCeiling (restorer : VmId) (config : VmConfig) : Option VmId → Option VmConfig
  | none => some config
  | some target => (w.machine target).bind fun m =>
      if restorer = target ∨ m.vm.state ≠ .empty then none else some m.config

def prepareRestore (restorer : VmId) (target : Option VmId) (gate : ℕ) (image : List ImageMachine) :
    Option RestorePlan := do
  let r ← w.machine restorer
  let added := image.length - (if target.isSome then 1 else 0)
  let ids := w.restoreIds target added
  let ceiling ← w.restoreCeiling restorer r.config target
  if (image.isEmpty ↔ target = none) ∧ w.hasMachineRoom e added ∧ r.children + added ≤ r.config.maxChildren ∧
      (∀ source ∈ image, ∀ parent, source.parent = some parent → parent < image.length) ∧
      (∀ source ∈ image.zipIdx, childCount image source.2 ≤ min source.1.maxChildren ceiling.maxChildren) then
    some { target, restorer, gate
           machines := image.zipIdx.map fun source =>
             restoredMachine restorer ids ceiling image source.2 source.1
           childCharge := added
           gateMembers := ids }
  else none

def activated (plan : RestorePlan) : List TaskKey :=
  (plan.gateMembers.zip plan.machines).filterMap fun member =>
    if member.2.owner = .scheduler ∧ member.2.paused = false ∧ member.2.vm.state ≠ .done ∧
        member.2.vm.state ≠ .faulted then some ⟨member.1, member.2.generation⟩ else none

def commitRestore (plan : RestorePlan) : Option (World ι) := do
  let r ← w.machine plan.restorer
  let w := w.setMachine plan.restorer { r with children := r.children + plan.childCharge }
  let w : World ι := { w with
    schedulerProcs := w.schedulerProcs ++ activated plan
    gateGroups := w.gateGroups ++ [⟨plan.gate, plan.gateMembers⟩] }
  match plan.target, plan.machines with
  | none, machines => some { w with machines := w.machines ++ machines.map some }
  | some target, first :: rest =>
    let w := w.setMachine target first
    some { w with machines := w.machines ++ rest.map some }
  | some _, [] => none

end World

end LoomV4.Vm
