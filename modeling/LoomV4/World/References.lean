import LoomV4.World.State
import LoomV4.Lib.Frontier

namespace LoomV4.Vm

open Abi Proc Lib

def pushNew {α : Type} [DecidableEq α] (out : List α) (x : α) : List α := if x ∈ out then out else out ++ [x]

theorem mem_foldl_pushNew {α : Type} [DecidableEq α] {out xs : List α} {x : α} :
    x ∈ xs.foldl pushNew out ↔ x ∈ out ∨ x ∈ xs := by
  induction xs generalizing out with
  | nil => simp
  | cons y ys ih =>
    rw [List.foldl_cons, ih, pushNew, List.mem_cons]
    split
    · next hy =>
      constructor
      · rintro (h | h)
        · exact .inl h
        · exact .inr (.inr h)
      · rintro (h | rfl | h)
        · exact .inl h
        · exact .inl hy
        · exact .inr h
    · rw [List.mem_append, List.mem_singleton]
      tauto

def snapshotCheck : Visitor := visitAll

def snapshotOrdinals (scratch : ℕ) (h : Heap) (roots : List ObjRef) (limits : GraphLimits) :
    Option (Except FaultCode (List ObjRef)) :=
  (walk h scratch roots limits snapshotCheck).map fun walked => walked.map fun x => x.2.order

def machineNamed : Object → Option VmId
  | .nativeRun vm | .nativeDynRef vm _ | .nativeTable vm | .nativeRequest vm _ | .nativeCall vm _ _ => some vm.toNat
  | .nativeHandle proc _ => some proc.toNat
  | .nativeResourceHandle surface _ => some surface.toNat
  | _ => none

def imageNamed : Object → Option VmImageKey
  | .nativeVm image generation => some ⟨image.toNat, generation.toNat⟩
  | _ => none

def handleNamed : Object → Option VmId
  | .nativeHandle proc _ => some proc.toNat
  | _ => none

def VmImageRecord.valueRoots (image : VmImageRecord) : List ObjRef :=
  image.slots.filterMap fun target =>
    match target with
    | .value (.obj r) => some r
    | _ => none

def VmImageRecord.processes (image : VmImageRecord) : List VmId :=
  image.slots.filterMap fun target =>
    match target with
    | .process proc _ => some proc
    | _ => none

namespace World

variable {ι : Type} (w : World ι)

def machine (vm : VmId) : Option Machine := (w.machines[vm]?).join

def setMachine (vm : VmId) (m : Machine) : World ι := { w with machines := w.machines.set vm (some m) }

def liveImage (key : VmImageKey) : Option VmImageRecord :=
  match w.vmImages[key.image]? with
  | none => none
  | some image => if image.live = true ∧ image.generation = key.generation then some image else none

def imageMachines : List VmImageKey → List VmId → Option (Except FaultCode (List VmId))
  | [], out => some (.ok out)
  | key :: keys, out =>
    match w.liveImage key with
    | none => imageMachines keys out
    | some image =>
      let out := image.processes.foldl pushNew out
      match snapshotOrdinals w.scratch image.heap image.valueRoots image.config.graph with
      | none => none
      | some (.error e) => some (.error e)
      | some (.ok order) =>
        imageMachines keys (((order.filterMap image.heap.tryGet).filterMap handleNamed).foldl pushNew out)

def controlTargets (m : Machine) : List VmId :=
  m.vm.nested.toList ++ (m.vm.routed.map RoutedRequest.target).toList ++
  m.vm.waits.filterMap (fun entry =>
    match entry.2.source with
    | .drive target => some target
    | _ => none) ++
  match m.vm.block with
  | some (.snapshot target _ _ _) => [target]
  | _ => []

def named (m : Machine) : Option (Except FaultCode (List VmId)) :=
  match snapshotOrdinals w.scratch m.vm.heap m.snapshotRoots m.config.graph with
  | none => none
  | some (.error e) => some (.error e)
  | some (.ok order) =>
    let objects := order.filterMap m.vm.heap.tryGet
    let images := (objects.filterMap imageNamed).foldl pushNew m.image.toList
    match w.imageMachines images ((objects.filterMap machineNamed).foldl pushNew []) with
    | none => none
    | some (.error e) => some (.error e)
    | some (.ok out) => some (.ok ((controlTargets m).foldl pushNew out))

def machineReferences (vm : VmId) : Option (Except FaultCode (List VmId) × World ι) :=
  match w.machine vm with
  | none => none
  | some m =>
    match m.materialize with
    | (.error e, m) => some (.error e, w.setMachine vm m)
    | (.ok _, m) => (w.named m).map fun out => (out, w.setMachine vm m)

def imageReferences (vm : VmId) : Option (Except FaultCode (List ℕ)) :=
  match w.machine vm with
  | none => none
  | some m =>
    (snapshotOrdinals w.scratch m.vm.heap m.snapshotRoots m.config.graph).map fun walked => walked.map fun order =>
      ((order.filterMap m.vm.heap.tryGet).filterMap fun object =>
        match object with
        | .nativeSnapshotRef image => some image.toNat
        | _ => none).foldl pushNew []

theorem machine_setMachine {m m' : Machine} {vm : VmId} (hm : w.machine vm = some m) (vm' : VmId) :
    (w.setMachine vm m').machine vm' = if vm' = vm then some m' else w.machine vm' := by
  have hlt : vm < w.machines.length := by
    by_contra hge
    rw [machine, List.getElem?_eq_none (not_lt.mp hge)] at hm
    cases hm
  rw [machine, setMachine, List.getElem?_set]
  by_cases h : vm = vm'
  · subst h
    simp [hlt]
  · rw [if_neg h, if_neg (Ne.symm h)]
    rfl

theorem machine_lt {m : Machine} {vm : VmId} (hm : w.machine vm = some m) : vm < w.machines.length := by
  by_contra hge
  rw [machine, List.getElem?_eq_none (not_lt.mp hge)] at hm
  cases hm

end World

end LoomV4.Vm
