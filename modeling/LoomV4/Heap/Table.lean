import LoomV4.Heap.TextViews
import LoomV4.Lib.Ledger

namespace LoomV4

open Lib TextViewTable

def usizeMax : ℕ := 2 ^ 64 - 1

def initialCollectionBytes : ℕ := 2 ^ 22

def nextCollectionThreshold (usedBytes capBytes : ℕ) : ℕ :=
  min capBytes (max initialCollectionBytes (usedBytes * 2))

structure Header where
  frozen : Bool
  bytes : ℕ
  shared : Option ℕ
deriving DecidableEq

structure LiveEntry where
  header : Header
  object : Object
deriving DecidableEq

structure DigestCacheEntry where
  generation : ℕ
  values : List (Option UInt32 × Hash)
deriving DecidableEq

structure BatchHost where
  values : Bool
  objectPages : ℕ
  roots : Bool
  viewPages : ℕ
deriving DecidableEq

inductive CompactError
  | allocation
  | invalidReference
deriving DecidableEq, Repr

structure Heap where
  capBytes : ℕ
  objects : SlotTable LiveEntry := {}
  live : ℕ := 0
  usedBytes : ℕ := 0
  collectionThreshold : ℕ := min capBytes initialCollectionBytes
  collections : ℕ := 0
  hostRoots : List ObjRef := []
  digests : List (ObjRef × DigestCacheEntry) := []
  sharedAllocations : Ledger ℕ := []
  textViews : TextViewTable := {}
deriving DecidableEq

namespace Heap

def new (capBytes : ℕ) : Heap := { capBytes }

section Read

variable (h : Heap)

def entry (r : ObjRef) : Option LiveEntry := h.objects.find r.slot r.generation

def tryGet (r : ObjRef) : Option Object :=
  if isReference r then none else (h.entry r).map LiveEntry.object

def text (r : ObjRef) : Option SharedText :=
  if isReference r then h.textViews.get r
  else match h.tryGet r with
    | some (.str text) | some (.substring text) => some text
    | _ => none

def tryCloneObject (r : ObjRef) : Option Object :=
  match h.textViews.get r with
  | some text => some (.substring text)
  | none => h.tryGet r

def isLiveReference (r : ObjRef) : Bool :=
  if isReference r then (h.textViews.get r).isSome else (h.tryGet r).isSome

def isFrozen (r : ObjRef) : Bool :=
  if isReference r then (h.textViews.get r).isSome
  else ((h.entry r).map fun e => e.header.frozen).getD false

def liveEntries : List (ObjRef × LiveEntry) :=
  (List.range h.objects.cells.length).filterMap fun (slot : ℕ) =>
    match h.objects.cells[slot]? with
    | some ⟨g, some e⟩ => some (⟨slot, g⟩, e)
    | _ => none

def forEachLive : List (ObjRef × Bool × Object) :=
  h.liveEntries.map (fun x => (x.1, x.2.header.frozen, x.2.object)) ++
    h.textViews.forEachLive.map fun v => (v.1, true, .substring v.2)

def wouldExceedBatch (bytes objects : ℕ) : Bool :=
  decide (h.capBytes < h.usedBytes + bytes ∨ usizeMax < h.usedBytes + bytes ∨ usizeMax < h.live + objects)

def wouldExceed (cost : ℕ) : Bool := h.wouldExceedBatch cost 1

/-- `unique` says whether no other value holds the shared allocation of the object. -/
def allocationCost (object : Object) (unique : Bool) : ℕ :=
  object.heapBaseCost +
    match object.sharedAllocation with
    | some (key, capacity) => if unique ∨ h.sharedAllocations.lookup key = none then capacity else 0
    | none => 0

end Read

def addSharedReferences (shared : Option (ℕ × ℕ)) (references : ℕ) (l : Ledger ℕ) : ℕ × Ledger ℕ :=
  if references = 0 then (0, l)
  else match shared with
    | none => (0, l)
    | some (key, capacity) => l.add key capacity references

def removeShared (key : Option ℕ) (l : Ledger ℕ) : Option (ℕ × Ledger ℕ) :=
  match key with
  | none => some (0, l)
  | some key => l.release key 1

def headerOf (object : Object) : Header :=
  ⟨object.shape.bornFrozen, object.heapBaseCost, object.sharedAllocation.map Prod.fst⟩

def installEntry (e : LiveEntry) (h : Heap) : Option (ObjRef × Heap) :=
  match (h.objects.room pageSlots).install e with
  | some ((slot, generation), objects) => some (⟨slot, generation⟩, { h with objects })
  | none => none

def alloc (object : Object) (h : Heap) : Option (ObjRef × Heap) :=
  let (sharedCost, sharedAllocations) := addSharedReferences object.sharedAllocation 1 h.sharedAllocations
  installEntry ⟨headerOf object, object⟩ { h with
    sharedAllocations
    usedBytes := h.usedBytes + (object.heapBaseCost + sharedCost)
    live := h.live + 1 }

/-- The inner `none` is the refusal, which changes nothing. `host` grants the page. -/
def tryAlloc (object : Object) (unique host : Bool) (h : Heap) : Option (Option ObjRef × Heap) :=
  if h.wouldExceed (h.allocationCost object unique) then some (none, h)
  else if h.objects.free = [] ∧ h.objects.slots = h.objects.cells.length then
    match (if host then h.objects.tryAddPage pageSlots usizeMax else none) with
    | none => some (none, h)
    | some objects => (alloc object { h with objects }).map fun (r, h) => (some r, h)
  else (h.alloc object).map fun (r, h) => (some r, h)

def textViewListBaseCost (count : ℕ) : Option ℕ :=
  let cost := count * (minObjectCost + 16) + minObjectCost
  if usizeMax < cost then none else some cost

def reservePrechargedSlots (count host : ℕ) (h : Heap) : Bool × Heap :=
  let (ok, objects) := h.objects.reserve pageSlots usizeMax count host
  (ok, { h with objects })

def batchSharedCost (batch : TextViewBatch) (h : Heap) : ℕ :=
  match batch.sharedAllocation with
  | some (key, capacity) => if h.sharedAllocations.lookup key = none then capacity else 0
  | none => 0

def tryAllocTextViewList (batch : TextViewBatch) (host : BatchHost) (h : Heap) :
    Option (Option ObjRef × Heap) :=
  let count := batch.views.length
  match textViewListBaseCost count with
  | none => some (none, h)
  | some base =>
    if h.textViews.canInstallBatch batch = false then some (none, h)
    else if h.wouldExceedBatch (base + h.batchSharedCost batch) (count + 1) ∨ host.values = false then
      some (none, h)
    else
      let (ok, h) := h.reservePrechargedSlots 1 host.objectPages
      if ok = false then some (none, h)
      else
        let (ok, textViews) :=
          h.textViews.tryReserveBatch count batch.needsNewOwner host.roots host.viewPages
        if ok = false then some (none, { h with textViews })
        else
          let (charged, sharedAllocations) :=
            addSharedReferences batch.sharedAllocation count h.sharedAllocations
          match textViews.installBatch batch with
          | none => none
          | some (values, textViews) =>
            (alloc (.list values 0) { h with
              sharedAllocations
              textViews
              usedBytes := h.usedBytes + (count * minObjectCost + charged)
              live := h.live + count }).map fun (r, h) => (some r, h)

def dropDigest (r : ObjRef) (h : Heap) : Heap := { h with digests := h.digests.filter (fun d => d.1 ≠ r) }

def freeTextView (r : ObjRef) (h : Heap) : Option Heap :=
  match h.textViews.free r with
  | none => none
  | some (key, textViews) =>
    match h.sharedAllocations.release key 1 with
    | none => none
    | some (shared, sharedAllocations) =>
      if h.usedBytes < minObjectCost + shared ∨ h.live < 1 then none
      else some (dropDigest r { h with
        textViews, sharedAllocations
        usedBytes := h.usedBytes - (minObjectCost + shared)
        live := h.live - 1 })

def free (r : ObjRef) (h : Heap) : Option Heap :=
  if isReference r then h.freeTextView r
  else match h.entry r with
    | none => none
    | some _ =>
      match h.objects.kill generationLimit r.slot with
      | none => none
      | some (e, objects) =>
        match removeShared e.header.shared h.sharedAllocations with
        | none => none
        | some (shared, sharedAllocations) =>
          if h.usedBytes < e.header.bytes + shared ∨ h.live < 1 then none
          else some (dropDigest r { h with
            objects, sharedAllocations
            usedBytes := h.usedBytes - (e.header.bytes + shared)
            live := h.live - 1 })

def setObject (r : ObjRef) (object : Object) (h : Heap) : Option Heap :=
  match h.entry r with
  | none => none
  | some e =>
    match h.objects.put r.slot { e with object } with
    | none => none
    | some (_, objects) => some { h with objects }

def setHeader (r : ObjRef) (header : Header) (h : Heap) : Option Heap :=
  match h.entry r with
  | none => none
  | some e =>
    match h.objects.put r.slot { e with header } with
    | none => none
    | some (_, objects) => some { h with objects }

def setFrozen (r : ObjRef) (h : Heap) : Option Heap :=
  if isReference r then
    if (h.textViews.get r).isSome then some h else none
  else match h.entry r with
    | none => none
    | some e => h.setHeader r { e.header with frozen := true }

def rechargeShared (oldKey : Option ℕ) (shared : Option (ℕ × ℕ)) (l : Ledger ℕ) : Option (ℕ × ℕ × Ledger ℕ) :=
  if oldKey = shared.map Prod.fst then some (0, 0, l)
  else match removeShared oldKey l with
    | none => none
    | some (released, l) =>
      let (added, l) := addSharedReferences shared 1 l
      some (released, added, l)

def recharge (r : ObjRef) (h : Heap) : Option Heap :=
  match h.entry r with
  | none => none
  | some ⟨header, object⟩ =>
    match rechargeShared header.shared object.sharedAllocation h.sharedAllocations with
    | none => none
    | some (released, added, sharedAllocations) =>
      if h.usedBytes < header.bytes + released then none
      else setHeader r
        { header with bytes := object.heapBaseCost, shared := object.sharedAllocation.map Prod.fst }
        { h with
          sharedAllocations
          usedBytes := h.usedBytes - header.bytes - released + object.heapBaseCost + added }

def rechargeLocal (r : ObjRef) (h : Heap) : Option Heap :=
  match h.entry r with
  | none => none
  | some ⟨header, object⟩ =>
    if h.usedBytes < header.bytes then none
    else setHeader r { header with bytes := object.heapBaseCost } { h with
      usedBytes := h.usedBytes - header.bytes + object.heapBaseCost }

def materializePrechargedInstance (cls : UInt32) (fields : List Value) (env : UInt32) (frozen : Bool)
    (h : Heap) : Option (ObjRef × Heap) :=
  let object := Object.inst cls fields env
  match h.objects.install ⟨⟨frozen, object.heapBaseCost, none⟩, object⟩ with
  | some ((slot, generation), objects) => some (⟨slot, generation⟩, { h with objects })
  | none => none

def pushHostRoot (r : ObjRef) (h : Heap) : Heap := { h with hostRoots := r :: h.hostRoots }

def popHostRoot (r : ObjRef) (h : Heap) : Option Heap :=
  match h.hostRoots with
  | top :: hostRoots => if top = r then some { h with hostRoots } else none
  | [] => none

end Heap

end LoomV4
