import LoomV4.Heap.Sweep

namespace LoomV4

open Lib

inductive HeapOp
  | alloc (object : Object)
  | tryAlloc (object : Object) (unique host : Bool)
  | tryAllocTextViewList (batch : TextViewBatch) (host : BatchHost)
  | free (r : ObjRef)
  | sweep (keep : ObjRef → Bool)
  | trimFreePages
  | compactLive (roots : List ObjRef) (host : Bool)
  /-- A write through `get_mut`, then `recharge`. -/
  | mutate (r : ObjRef) (object : Object)
  /-- A write through `get_mut`, then `recharge_local`. -/
  | mutateLocal (r : ObjRef) (object : Object)
  | setFrozen (r : ObjRef)
  | pushHostRoot (r : ObjRef)
  | popHostRoot (r : ObjRef)
  | reservePrechargedSlots (count host : ℕ)
  | materializePrechargedInstance (cls : UInt32) (fields : List Value) (env : UInt32) (frozen : Bool)

/-- The batch was made from this heap: its allocation is the one of its owner. -/
def TextViewBatch.Of (b : TextViewBatch) (h : Heap) : Prop :=
  match b.owner with
  | .new owner => b.allocation = (owner.key, owner.capacity)
  | .existing r => ∀ i held, h.textViews.existingRoot r = some i → h.textViews.root i = some held →
      b.allocation = (held.owner.key, held.owner.capacity)

namespace Heap

/-- One operation; `none` is a panic. -/
def step (h : Heap) : HeapOp → Option Heap
  | .alloc object => (h.alloc object).map Prod.snd
  | .tryAlloc object unique host => (h.tryAlloc object unique host).map Prod.snd
  | .tryAllocTextViewList batch host => (h.tryAllocTextViewList batch host).map Prod.snd
  | .free r => h.free r
  | .sweep keep => h.sweep keep
  | .trimFreePages => some h.trimFreePages
  | .compactLive roots host => some (h.compactLive roots host).2
  | .mutate r object => (h.setObject r object).bind (recharge r)
  | .mutateLocal r object => (h.setObject r object).bind (rechargeLocal r)
  | .setFrozen r => h.setFrozen r
  | .pushHostRoot r => some (h.pushHostRoot r)
  | .popHostRoot r => h.popHostRoot r
  | .reservePrechargedSlots count host => some (h.reservePrechargedSlots count host).2
  | .materializePrechargedInstance cls fields env frozen =>
    (h.materializePrechargedInstance cls fields env frozen).map Prod.snd

def run (capBytes : ℕ) (ops : List HeapOp) : Option Heap := ops.foldlM step (new capBytes)

theorem run_append (capBytes : ℕ) (ops ops' : List HeapOp) :
    run capBytes (ops ++ ops') = (run capBytes ops).bind (fun h => ops'.foldlM Heap.step h) := by
  rw [run, List.foldlM_append]
  rfl

/-- A slot that the operation takes has a number of its own. -/
def Numbered (h : Heap) : HeapOp → Prop
  | .alloc _ => h.objects.Numbered
  | .tryAlloc .. => h.objects.Numbered
  | .tryAllocTextViewList .. => h.objects.Numbered
  | .materializePrechargedInstance .. => h.objects.Numbered
  | _ => True

instance (h : Heap) (op : HeapOp) : Decidable (Numbered h op) := by
  unfold Numbered
  split <;> infer_instance

def Allowed (h : Heap) : HeapOp → Prop
  | .free r => h.isLiveReference r = true
  | .tryAllocTextViewList batch _ => batch.Of h
  | .mutate r _ => h.entry r ≠ none
  | .mutateLocal r object =>
    (∃ e, h.entry r = some e ∧ e.header.shared = none) ∧ object.sharedAllocation = none
  | .setFrozen r => h.isLiveReference r = true
  | .popHostRoot r => h.hostRoots.head? = some r
  | .materializePrechargedInstance .. => h.objects.Spare
  | _ => True

end Heap

end LoomV4
