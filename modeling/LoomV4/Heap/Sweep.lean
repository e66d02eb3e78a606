import LoomV4.Heap.Table

namespace LoomV4

open Lib

structure ObjectSweep where
  heap : Heap
  pending : Option (ℕ × ℕ) := none
  freedBytes : ℕ := 0
  freed : ℕ := 0

namespace ObjectSweep

def flush (s : ObjectSweep) : Option ObjectSweep :=
  match s.pending with
  | none => some s
  | some (key, references) =>
    match s.heap.sharedAllocations.release key references with
    | none => none
    | some (released, sharedAllocations) => some { s with
        heap := { s.heap with sharedAllocations }
        pending := none
        freedBytes := s.freedBytes + released }

def note (shared : Option ℕ) (s : ObjectSweep) : Option ObjectSweep :=
  match shared with
  | none => some s
  | some key =>
    match s.pending with
    | none => some { s with pending := some (key, 1) }
    | some (pending, references) =>
      if pending = key then some { s with pending := some (pending, references + 1) }
      else s.flush.map fun s => { s with pending := some (key, 1) }

def slot (keep : ObjRef → Bool) (s : ObjectSweep) (slot : ℕ) : Option ObjectSweep :=
  match s.heap.objects.cells[slot]? with
  | some ⟨g, some _⟩ =>
    if keep ⟨slot, g⟩ then some s
    else match s.heap.objects.kill generationLimit slot with
      | none => none
      | some (e, objects) =>
        note e.header.shared { s with
          heap := Heap.dropDigest ⟨slot, g⟩ { s.heap with objects }
          freedBytes := s.freedBytes + e.header.bytes
          freed := s.freed + 1 }
  | _ => some s

end ObjectSweep

namespace Heap

def setNextCollectionThreshold (h : Heap) : Heap :=
  { h with collectionThreshold := nextCollectionThreshold h.usedBytes h.capBytes }

def sweep (keep : ObjRef → Bool) (h : Heap) : Option Heap :=
  let start : ObjectSweep := { heap := { h with collections := h.collections + 1 } }
  match (List.range h.objects.cells.length).foldlM (ObjectSweep.slot keep) start with
  | none => none
  | some s =>
    match s.flush with
    | none => none
    | some s =>
      match s.heap.textViews.sweep keep (fun key l => l.release key 1) s.heap.sharedAllocations with
      | none => none
      | some (textViews, (objects, bytes), sharedAllocations) =>
        let freed := s.freed + objects
        let freedBytes := s.freedBytes + (objects * minObjectCost + bytes)
        let digests := if objects = 0 then s.heap.digests
          else s.heap.digests.filter fun d =>
            !TextViewTable.isReference d.1 || (textViews.get d.1).isSome
        if s.heap.usedBytes < freedBytes ∨ s.heap.live < freed then none
        else some (setNextCollectionThreshold { s.heap with
          textViews, sharedAllocations, digests
          usedBytes := s.heap.usedBytes - freedBytes
          live := s.heap.live - freed })

def trimFreePages (h : Heap) : Heap :=
  let objects := h.objects.dropPages pageSlots
  let slots := if objects.pages pageSlots ≠ h.objects.pages pageSlots
    then objects.pages pageSlots * pageSlots else h.objects.slots
  { h with
    objects := objects.setSlots slots
    textViews := h.textViews.trimFreePages }

section Compact

def compactMapping (h : Heap) : List (ObjRef × ObjRef) :=
  h.forEachLive.zipIdx.map fun e =>
    (e.1.1, ⟨e.2, match h.objects.generations[e.2]? with
      | some held => (held + 1) % generationLimit
      | none => 0⟩)

def mapped (mapping : List (ObjRef × ObjRef)) (r : ObjRef) : Option ObjRef :=
  (mapping.find? fun e => e.1 = r).map Prod.snd

def mapRoots (mapping : List (ObjRef × ObjRef)) (roots : List ObjRef) : Option (List ObjRef) :=
  roots.mapM (mapped mapping)

def compactOne (h : Heap) (mapping : List (ObjRef × ObjRef)) (compacted : Heap)
    (e : ObjRef × Bool × Object) : Except CompactError Heap :=
  match h.tryCloneObject e.1, mapped mapping e.1 with
  | some object, some expected =>
    if object.children.any (fun child => (mapped mapping child).isNone) then .error .invalidReference
    else
      match compacted.tryAlloc (object.cloneRemapped fun child => (mapped mapping child).getD child) false true with
      | some (some r, compacted) =>
        if r.slot ≠ expected.slot then .error .invalidReference
        else
          let compacted := { compacted with
            objects := compacted.objects.setGeneration r.slot expected.generation }
          if e.2.1 then
            match compacted.setFrozen expected with
            | some compacted => .ok compacted
            | none => .error .invalidReference
          else .ok compacted
      | _ => .error .allocation
  | _, _ => .error .invalidReference

/-- A failure changes nothing. `host` grants the work tables. -/
def compactLive (roots : List ObjRef) (host : Bool) (h : Heap) : Except CompactError (List ObjRef) × Heap :=
  if host = false ∨ SlotTable.slotNumbers < h.forEachLive.length then (.error .allocation, h)
  else
    let mapping := h.compactMapping
    match mapRoots mapping roots, mapRoots mapping h.hostRoots with
    | some mappedRoots, some hostRoots =>
      match h.forEachLive.foldlM (h.compactOne mapping) (Heap.new h.capBytes) with
      | .error e => (.error e, h)
      | .ok compacted =>
        if compacted.live ≠ h.live ∨ compacted.usedBytes ≠ h.usedBytes then (.error .invalidReference, h)
        else (.ok mappedRoots, setNextCollectionThreshold { h with
          objects := compacted.objects
          hostRoots
          digests := compacted.digests
          sharedAllocations := compacted.sharedAllocations
          textViews := compacted.textViews })
    | _, _ => (.error .invalidReference, h)

end Compact

end Heap

end LoomV4
