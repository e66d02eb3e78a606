import LoomV4.Graph.Collect

namespace LoomV4

open Lib Abi

inductive CopyMode
  | transfer
  | detach
deriving DecidableEq

def copyCheck : Visitor := fun _ _ object =>
  if object.shape.boundary = .holderLocal then .error .unsendableValue else .ok ()

def makeRoom (roots : List ObjRef) (exceeds : Heap → Bool) (h : Heap) : Option (Bool × Heap) :=
  if exceeds h then (collect roots h).map (fun h => (!exceeds h, h)) else some (true, h)

def GraphScratch.newRef (s : GraphScratch) (new : List ObjRef) (r : ObjRef) : ObjRef := (new[s.ordinal r]?).getD r

def Heap.popHostRoots (refs : List ObjRef) (h : Heap) : Option Heap := refs.foldlM (fun h r => Heap.popHostRoot r h) h

def Heap.freeAll (refs : List ObjRef) (h : Heap) : Option Heap := refs.foldlM (fun h r => Heap.free r h) h

/-- The places where the two copies differ: the heap that the source graph is read from. `unique` says of each
object whether no other value holds its shared allocation. -/
structure CopySource where
  read : Heap → ObjRef → Option Object
  frozen : Heap → ObjRef → Bool
  unique : ObjRef → Bool

namespace CopySource

variable (source : CopySource) (roots : List ObjRef)

def shells : List ObjRef → List ObjRef → Heap → Option (Except FaultCode Unit × List ObjRef × Heap)
  | [], new, h => some (.ok (), new, h)
  | r :: order, new, h =>
    match source.read h r with
    | none => some (.error .boundaryViolation, new, h)
    | some object =>
      match object.shell with
      | none => some (.error .unsendableValue, new, h)
      | some shell =>
        match makeRoom roots (fun h => h.wouldExceed (h.allocationCost shell (source.unique r))) h with
        | none => none
        | some (false, h) => some (.error .heapLimit, new, h)
        | some (true, h) =>
          match h.alloc shell with
          | none => none
          | some (x, h) => shells order (new ++ [x]) (h.pushHostRoot x)

def patch (scratch : GraphScratch) (new : List ObjRef) :
    List (ObjRef × ObjRef) → Heap → Option (Except FaultCode Unit × Heap)
  | [], h => some (.ok (), h)
  | (old, x) :: rest, h =>
    match source.read h old with
    | none => some (.error .boundaryViolation, h)
    | some object =>
      -- A child whose ordinal is past the new references is a panic.
      if object.children.any (fun child => decide (new.length ≤ scratch.ordinal child)) then none
      else match object.remap (scratch.newRef new) with
        | none => patch scratch new rest h
        | some patched => ((h.setObject x patched).bind (Heap.recharge x)).bind (patch scratch new rest)

def freezeCopies : List (ObjRef × ObjRef) → Heap → Option Heap
  | [], h => some h
  | (old, x) :: rest, h =>
    if source.frozen h old then (h.setFrozen x).bind (freezeCopies rest) else freezeCopies rest h

def passes (scratch : GraphScratch) (root : ObjRef) (h : Heap) : Option (Except FaultCode Value × Heap) :=
  match source.shells roots scratch.order [] h with
  | none => none
  | some (.error e, new, h) =>
    ((h.popHostRoots new.reverse).bind (Heap.freeAll new.reverse)).map fun h => (.error e, h)
  | some (.ok (), new, h) =>
    match source.patch scratch new (scratch.order.zip new) h with
    | none => none
    -- The early return leaves the shells rooted.
    | some (.error e, h) => some (.error e, h)
    | some (.ok (), h) =>
      match (h.popHostRoots new.reverse).bind (source.freezeCopies (scratch.order.zip new)) with
      | none => none
      | some h => (new[scratch.ordinal root]?).map fun x => (.ok (.obj x), h)

end CopySource

/-- `unique` as in `CopySource`; `held` is the length of the work tables of the source. -/
def copyPasses (unique : ObjRef → Bool) (src dst : Heap) (dstRoots : List ObjRef) (scratch : GraphScratch)
    (root : ObjRef) (mode : CopyMode) : Option (Except FaultCode Value × Heap) :=
  CopySource.passes ⟨fun _ r => src.tryCloneObject r, fun _ r => decide (mode = .detach) || src.isFrozen r, unique⟩
    dstRoots scratch root dst

def copyPassesWithin (unique : ObjRef → Bool) (heap : Heap) (roots : List ObjRef) (scratch : GraphScratch)
    (root : ObjRef) : Option (Except FaultCode Value × Heap) :=
  CopySource.passes ⟨fun h r => h.tryCloneObject r, fun h r => h.isFrozen r, unique⟩ roots scratch root heap

def copyImmediate : Value → Except FaultCode Value
  | .callback _ | .uninit => .error .boundaryViolation
  | value => .ok value

def copyValue (unique : ObjRef → Bool) (held : ℕ) (src dst : Heap) (dstRoots : List ObjRef) (value : Value)
    (limits : GraphLimits) (mode : CopyMode) : Option (Except FaultCode Value × Heap) :=
  match value.asObj with
  | none => some (copyImmediate value, dst)
  | some root =>
    match walk src held [root] limits copyCheck with
    | none => none
    | some (.error e) => some (.error e, dst)
    | some (.ok (cost, scratch)) =>
      match makeRoom dstRoots (fun h => h.wouldExceedBatch cost.bytes cost.objects) dst with
      | none => none
      | some (false, dst) => some (.error .heapLimit, dst)
      | some (true, dst) => copyPasses unique src dst dstRoots scratch root mode

def transfer (unique : ObjRef → Bool) (held : ℕ) (src dst : Heap) (dstRoots : List ObjRef) (value : Value)
    (limits : GraphLimits) : Option (Except FaultCode Value × Heap) :=
  copyValue unique held src dst dstRoots value limits .transfer

def detach (unique : ObjRef → Bool) (held : ℕ) (src dst : Heap) (dstRoots : List ObjRef) (value : Value)
    (limits : GraphLimits) : Option (Except FaultCode Value × Heap) :=
  copyValue unique held src dst dstRoots value limits .detach

def copyWithin (unique : ObjRef → Bool) (held : ℕ) (heap : Heap) (roots : List ObjRef) (value : Value)
    (limits : GraphLimits) : Option (Except FaultCode Value × Heap) :=
  match value.asObj with
  | none => some (copyImmediate value, heap)
  | some root =>
    match walk heap held [root] limits copyCheck with
    | none => none
    | some (.error e) => some (.error e, heap)
    | some (.ok (cost, scratch)) =>
      match makeRoom roots (fun h => h.wouldExceedBatch cost.bytes cost.objects) (heap.pushHostRoot root) with
      | none => none
      | some (room, heap) =>
        match (if room then copyPassesWithin unique heap roots scratch root
          else some (.error .heapLimit, heap)) with
        | none => none
        | some (out, heap) => (heap.popHostRoot root).map fun heap => (out, heap)

end LoomV4
