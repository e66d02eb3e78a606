import LoomV4.Graph.CopyPasses

namespace LoomV4

open Lib Abi List Option

section Iso

variable {src h h' h₀ : Heap} {roots new : List ObjRef} {content : List (Bool × Object)}
  {root x : ObjRef} {cost : GraphCost} {scratch : GraphScratch}

variable {r : ObjRef}

theorem Toured.ordinal_eq (ht : Toured src [root] copyCheck cost scratch) (hc : scratch.order.length ≤ 2 ^ 32)
    {i : ℕ} (hi : scratch.order[i]? = some r) : scratch.ordinal r = i := by
  obtain ⟨hlt, hg⟩ := List.getElem?_eq_some_iff.mp hi
  have hf : scratch.order.findIdx (fun x => scratch.index x = scratch.index r) = i := by
    rw [findIdx_eq hlt]
    refine ⟨by simp [hg], fun j hj => decide_eq_false fun he => ?_⟩
    have hj' : j < (scratch.order.map scratch.index).length := by
      rw [length_map]
      omega
    have hi' : i < (scratch.order.map scratch.index).length := by rwa [length_map]
    have hji : (scratch.order.map scratch.index)[j] = (scratch.order.map scratch.index)[i] := by simp [he, hg]
    have heq := ht.nodup.getElem_inj_iff.mp hji
    omega
  rw [GraphScratch.ordinal, hf, Nat.mod_eq_of_lt (by omega)]

theorem Toured.sendable (ht : Toured src [root] copyCheck cost scratch) (hr : r ∈ scratch.order) :
    ∃ n, src.node r = some n ∧ n.2.shape.boundary ≠ .holderLocal := by
  obtain ⟨n, k, hn, hv⟩ := ht.admitted r hr
  refine ⟨n, hn, fun hb => ?_⟩
  rw [copyCheck, if_pos hb] at hv
  cases hv

/-- The heap as a labelled graph; `freeze` reads every object as frozen. -/
def Heap.graph (freeze : Bool) (h : Heap) (r : ObjRef) : Option ((Bool × Object) × List ObjRef) :=
  (h.node r).map fun n => ((freeze || n.1, n.2.label), n.2.children)

theorem Heap.childrenOf_graph (freeze : Bool) (h : Heap) : childrenOf (h.graph freeze) = h.succ := by
  funext r
  simp only [childrenOf, Heap.graph, Heap.succ, Option.map_map]
  rfl

/-- What a copy assumes of the graph under its root: no reference dangles, and an object of a shape that is born frozen
is frozen. -/
structure Heap.Copyable (h : Heap) (root : ObjRef) : Prop where
  live : ∀ x, Reachable h.succ [root] x → h.node x ≠ none
  born : ∀ x n, h.Under [root] x → h.node x = some n → n.2.shape.bornFrozen = true → n.1 = true

/-- The objects under the root and the pages of the destination together have a number for every slot. -/
def Heap.RoomFor (dst src : Heap) (root : ObjRef) : Prop :=
  ∀ l : List ObjRef, l.Nodup → (∀ x ∈ l, src.Under [root] x) →
    dst.objects.cells.length + l.length ≤ SlotTable.slotNumbers

/-- The tables of the heap take up less than half of the slot numbers. -/
def Heap.Small (h : Heap) : Prop := h.objects.cells.length + h.textViews.table.cells.length + 16 ≤ 2 ^ 31

instance (h : Heap) : Decidable h.Small := inferInstanceAs (Decidable (_ ≤ _))

theorem Heap.Small.numbered_of_within {h' : Heap} (hs : h.Small) (hw : h'.Within h.objects.cells.length) :
    h'.objects.Numbered := by
  refine hw.numbered ?_
  have hb : SlotTable.slotNumbers = 2 ^ 32 := rfl
  unfold Heap.Small at hs
  omega

theorem Heap.Small.slack (hs : h.Small) (ht : h.Tabled) : h.Slack 16 := by
  refine ⟨_, Heap.within_length ht, ?_⟩
  have hb : SlotTable.slotNumbers = 2 ^ 32 := rfl
  unfold Heap.Small at hs
  omega

theorem Heap.Small.roomFor {dst : Heap} (hs : src.Small) (hd : dst.Small) (root : ObjRef) : dst.RoomFor src root := by
  intro l hl hu
  have hle := Heap.length_le_of_node hl fun x hx => (hu x hx).2
  have hb : SlotTable.slotNumbers = 2 ^ 32 := rfl
  unfold Heap.Small at hs hd
  omega

theorem Toured.fits {dst : Heap} (ht : Toured src [root] copyCheck cost scratch) (hs : src.Slotted)
    (hr : dst.RoomFor src root) : dst.objects.cells.length + scratch.order.length ≤ SlotTable.slotNumbers :=
  hr scratch.order (Nodup.of_map _ ht.nodup) fun _ hx => (ht.mem_order hs).mp hx

section Final

variable {obj : ObjRef → Object} {frozen : ObjRef → Bool}

theorem Copying.node_newRef (ht : Toured src [root] copyCheck cost scratch) (ho : scratch.order.length ≤ 2 ^ 32)
    (hc : Copying h₀ roots [] (scratch.order.map fun r => (obj r).finalNode (scratch.newRef new) (frozen r)) new h)
    {i : ℕ} {r : ObjRef} (hi : scratch.order[i]? = some r) : new[i]? = some (scratch.newRef new r) ∧
      h.node (scratch.newRef new r) = some ((obj r).finalNode (scratch.newRef new) (frozen r)) := by
  have hg := congrArg (fun l => l[i]?) hc.contents
  simp only [getElem?_map, hi, map_some] at hg
  obtain ⟨y, hy, hn⟩ := map_eq_some_iff.mp hg
  have he : scratch.newRef new r = y := by rw [GraphScratch.newRef, ht.ordinal_eq ho hi, hy, getD_some]
  exact ⟨he ▸ hy, he ▸ hn⟩

theorem Copying.iso (freeze : Bool) (ht : Toured src [root] copyCheck cost scratch) (hs : src.Slotted)
    (hy : src.Copyable root)
    (ho : scratch.order.length ≤ 2 ^ 32)
    (hc : Copying h₀ roots [] (scratch.order.map fun r => (obj r).finalNode (scratch.newRef new) (frozen r)) new h)
    (hob : ∀ r ∈ scratch.order, ∃ b, src.node r = some (b, obj r) ∧ frozen r = (freeze || b))
    (hx : new[scratch.ordinal root]? = some x) :
    GraphIso (src.graph freeze) (h.graph false) root x (scratch.newRef new) ∧
      ∀ r, src.Under [root] r → scratch.newRef new r ∈ new := by
  have hp : ∀ r, Reachable src.succ [root] r → ∃ i, scratch.order[i]? = some r := fun r hr =>
    mem_iff_getElem?.mp ((ht.mem_order hs).mpr ⟨hr, hy.live r hr⟩)
  have hh := Heap.childrenOf_graph freeze src
  refine ⟨GraphIso.of_node ?_ (fun r hr => ?_) fun a b ha hb hab => ?_, fun r hr => ?_⟩
  · rw [GraphScratch.newRef, hx, getD_some]
  · rw [hh] at hr
    obtain ⟨i, hi⟩ := hp r hr
    have hm := mem_of_getElem? hi
    obtain ⟨b, hd, hf⟩ := hob r hm
    obtain ⟨n, hn, he⟩ := ht.sendable hm
    have hbo := hy.born r _ ⟨hr, hy.live r hr⟩ hd
    rw [hd] at hn
    cases hn
    refine ⟨(freeze || b, (obj r).label), (obj r).children, by rw [Heap.graph, hd]; rfl, ?_⟩
    rw [Heap.graph, (hc.node_newRef ht ho hi).2, map_some, Object.finalNode, Object.children_copyOf he,
      Object.label_copyOf he, hf]
    cases hb : (obj r).shape.bornFrozen with
    | false => simp
    | true =>
      have hf : b = true := hbo hb
      simp [hf]
  · rw [hh] at ha hb
    obtain ⟨i, hi⟩ := hp a ha
    obtain ⟨j, hj⟩ := hp b hb
    have hia := (hc.node_newRef ht ho hi).1
    have hjb := (hc.node_newRef ht ho hj).1
    rw [← hab, ← hia] at hjb
    have hij := (getElem?_inj (lt_of_getElem? hia) hc.nodup).mp hjb.symm
    rw [← hij, hi] at hj
    exact some.inj hj
  · obtain ⟨i, hi⟩ := hp r hr.1
    exact mem_of_getElem? (hc.node_newRef ht ho hi).1

end Final

structure CopiedTo (src : Heap) (freeze : Bool) (root : ObjRef) (dst : Heap) (roots : List ObjRef) (dst' : Heap)
    (x : ObjRef) : Prop where
  iso : ∃ f, GraphIso (src.graph freeze) (dst'.graph false) root x f ∧
    ∀ r, src.Under [root] r → ¬dst.Under (roots ++ dst.hostRoots) (f r)
  kept : ∀ y, dst.Under (roots ++ dst.hostRoots) y → dst'.node y = dst.node y
  hostRoots : dst'.hostRoots = dst.hostRoots

def CopyDone (src : Heap) (freeze : Bool) (value : Value) (dst : Heap) (roots : List ObjRef) (dst' : Heap) (v : Value) :
    Prop :=
  match value.asObj with
  | none => v = value ∧ dst' = dst
  | some root => ∃ x, v = .obj x ∧ CopiedTo src freeze root dst roots dst' x

def Heap.objectAt (h : Heap) (r : ObjRef) : Object := ((h.node r).map Prod.snd).getD (.tuple [])

theorem Toured.objectAt (ht : Toured src [root] copyCheck cost scratch) (hr : r ∈ scratch.order) :
    src.node r = some (src.isFrozen r, src.objectAt r) ∧ (src.objectAt r).shape.boundary ≠ .holderLocal := by
  obtain ⟨n, hn, hb⟩ := ht.sendable hr
  have ho : src.objectAt r = n.2 := by rw [Heap.objectAt, hn]; rfl
  have hf : src.isFrozen r = n.1 := by rw [Heap.isFrozen_eq, hn]; rfl
  rw [ho, hf]
  exact ⟨hn, hb⟩

theorem copyPasses_reads (unique : ObjRef → Bool) (mode : CopyMode) (dst : Heap) (roots : List ObjRef)
    (ht : Toured src [root] copyCheck cost scratch) :
    CopySource.Reads ⟨fun _ r => src.tryCloneObject r, fun _ r => decide (mode = .detach) || src.isFrozen r, unique⟩
      dst roots scratch.order src.objectAt (fun r => decide (mode = .detach) || src.isFrozen r) := by
  refine ⟨fun h _ r hr => ?_, fun _ _ _ _ => rfl, fun r hr => (ht.objectAt hr).2⟩
  dsimp only
  rw [Heap.tryCloneObject_eq, (ht.objectAt hr).1]
  rfl

theorem copyPassesWithin_reads (unique : ObjRef → Bool) (roots : List ObjRef) (hs : src.Slotted)
    (ht : Toured src [root] copyCheck cost scratch) :
    CopySource.Reads ⟨fun h r => h.tryCloneObject r, fun h r => h.isFrozen r, unique⟩ (src.pushHostRoot root) roots
      scratch.order src.objectAt src.isFrozen := by
  have he : ∀ h : Heap, (∀ x, (src.pushHostRoot root).Under (roots ++ (src.pushHostRoot root).hostRoots) x →
      h.node x = (src.pushHostRoot root).node x) → ∀ r ∈ scratch.order, h.node r = src.node r := by
    intro h hk r hr
    refine hk r (((ht.mem_order hs).mp hr).of_kept (fun _ _ => rfl) fun x hx => ?_)
    rw [mem_singleton.mp hx]
    exact mem_append_right _ mem_cons_self
  refine ⟨fun h hk r hr => ?_, fun h hk r hr => ?_, fun r hr => (ht.objectAt hr).2⟩
  · dsimp only
    rw [Heap.tryCloneObject_eq, he h hk r hr, (ht.objectAt hr).1]
    rfl
  · dsimp only
    rw [Heap.isFrozen_eq, Heap.isFrozen_eq, he h hk r hr]

theorem Refused.same (h : Heap) (roots : List ObjRef) : Refused h roots h := ⟨fun _ _ => rfl, rfl, fun _ _ => rfl⟩

theorem Copying.refused_room (hc : Copying h₀ roots [] [] [] h) : Refused h₀ roots h :=
  ⟨hc.kept, hc.hostRoots, fun x hx => (hc.other x not_mem_nil).resolve_left hx⟩

variable {value : Value}

theorem copyImmediate_eq {v : Value} (h : copyImmediate value = .ok v) : v = value := by
  cases value <;> first | cases h; rfl | cases h

/-- The copy took at most one slot for each object under the value. -/
def GrownBy (src : Heap) (value : Value) (dst dst' : Heap) : Prop :=
  ∃ l : List ObjRef, l.Nodup ∧ (∀ x ∈ l, src.Under value.asObj.toList x) ∧
    dst'.Within (dst.objects.cells.length + l.length)

theorem grownBy_nil {dst : Heap} (h : dst.Slotted) : GrownBy src value dst dst :=
  ⟨[], nodup_nil, fun _ hx => absurd hx not_mem_nil, Heap.within_length h.tabled⟩

theorem Toured.grownBy {dst dst' : Heap} (ht : Toured src [root] copyCheck cost scratch) (hs : src.Slotted)
    (hv : value.asObj = some root) (hw : dst'.Within (dst.objects.cells.length + scratch.order.length)) :
    GrownBy src value dst dst' :=
  ⟨scratch.order, Nodup.of_map _ ht.nodup, fun _ hx => hv ▸ (ht.mem_order hs).mp hx, hw⟩

theorem GrownBy.slack {dst dst' : Heap} (hg : GrownBy src value dst dst') (hs : src.Small) (hd : dst.Small) :
    dst'.Slack 16 := by
  obtain ⟨l, hl, hu, hw⟩ := hg
  refine ⟨_, hw, ?_⟩
  have hle := Heap.length_le_of_node hl fun x hx => (hu x hx).2
  have hb : SlotTable.slotNumbers = 2 ^ 32 := rfl
  unfold Heap.Small at hs hd
  omega

/-- What a copy into `dst` does: it refuses, it answers a value that is no reference, or it makes the new objects. -/
inductive CopyCases (src : Heap) (freeze : ObjRef → Bool) (value : Value) (dst : Heap) (roots : List ObjRef)
    (dst' : Heap) : Except FaultCode Value → Prop
  | refused (e : FaultCode) (hr : Refused dst roots dst') (hs : dst'.Slotted) (hg : GrownBy src value dst dst') :
    CopyCases _ _ _ _ _ _ (.error e)
  | immediate (hv : value.asObj = none) (hd : dst' = dst) (hs : dst.Slotted) : CopyCases _ _ _ _ _ _ (.ok value)
  | copied {root x : ObjRef} {cost : GraphCost} {scratch : GraphScratch} {new : List ObjRef}
    (hv : value.asObj = some root) (ht : Toured src [root] copyCheck cost scratch)
    (hl : scratch.order.length ≤ 2 ^ 32) (hx : new[scratch.ordinal root]? = some x)
    (hc : Copying dst roots [] (scratch.order.map fun r =>
      (src.objectAt r).finalNode (scratch.newRef new) (freeze r || src.isFrozen r)) new dst')
    (hg : GrownBy src value dst dst') : CopyCases _ _ _ _ _ _ (.ok (.obj x))

variable {out : Except FaultCode Value}

theorem CopyCases.done {freeze : Bool} {dst dst' : Heap}
    (h : CopyCases src (fun _ => freeze) value dst roots dst' out) (hs : src.Slotted) :
    (∀ e, out = .error e → Refused dst roots dst') ∧
      ((∀ root, value.asObj = some root → src.Copyable root) → ∀ v, out = .ok v →
        CopyDone src freeze value dst roots dst' v) := by
  cases h with
  | refused e hr =>
    exact ⟨fun _ _ => hr, fun _ v hv => by cases hv⟩
  | immediate hv hd =>
    refine ⟨nofun, fun _ v he => ?_⟩
    rw [CopyDone, hv]
    cases he
    exact ⟨rfl, hd⟩
  | copied hv ht hl hx hc hg =>
    refine ⟨nofun, fun ho v he => ?_⟩
    obtain ⟨hi, hn⟩ := hc.iso freeze ht hs (ho _ hv) hl (fun r hr => ⟨_, (ht.objectAt hr).1, rfl⟩) hx
    rw [CopyDone, hv]
    cases he
    exact ⟨_, rfl, ⟨_, hi, fun r hr => hc.fresh _ (hn r hr)⟩, hc.kept, hc.hostRoots⟩

variable {unique : ObjRef → Bool} {limits : GraphLimits} {held : ℕ}

theorem copyValue_cases {dst dst' : Heap} {mode : CopyMode} (hs : src.Slotted) (hd : dst.Slotted)
    (hroom : ∀ root, value.asObj = some root → dst.RoomFor src root)
    (h : copyValue unique held src dst roots value limits mode = some (out, dst')) :
    CopyCases src (fun _ => decide (mode = .detach)) value dst roots dst' out := by
  unfold copyValue at h
  cases hv : value.asObj with
  | none =>
    simp only [hv] at h
    cases h
    cases hu : copyImmediate value with
    | error e => exact .refused e (.same _ _) hd (grownBy_nil hd)
    | ok v =>
      rw [copyImmediate_eq hu]
      exact .immediate hv rfl hd
  | some root =>
    simp only [hv] at h
    split at h
    · cases h
    · next e hw =>
      cases h
      exact .refused e (.same _ _) hd (grownBy_nil hd)
    · next cost scratch hw =>
      have ht := walk_toured hw
      split at h
      · cases h
      · next dst1 hr =>
        cases h
        have hc := (Copying.start hd roots).room (fun x hx => absurd hx not_mem_nil) hr
        exact .refused _ hc.refused_room hc.slotted
          ⟨[], nodup_nil, fun _ hx => absurd hx not_mem_nil, hc.within⟩
      · next dst1 hr =>
        have hc := (Copying.start hd roots).room (fun x hx => absurd hx not_mem_nil) hr
        have hl := ht.fits hs (hroom root hv)
        have ho := passes_spec (copyPasses_reads unique mode dst roots ht) hc hl h
        cases out with
        | error e => exact .refused e ho.1 ho.2.1 (ht.grownBy hs hv ho.2.2)
        | ok v =>
          obtain ⟨new, x, rfl, hx, hc'⟩ := ho
          have hm : new.length = scratch.order.length := by
            simpa using congrArg List.length hc'.contents
          exact .copied hv ht (le_trans (Nat.le_add_left _ _) hl) hx hc' (ht.grownBy hs hv (hm ▸ hc'.within))

theorem under_pushHostRoot (hx : src.Under (roots ++ src.hostRoots) r) :
    (src.pushHostRoot root).Under (roots ++ (src.pushHostRoot root).hostRoots) r := by
  refine hx.of_kept (fun _ _ => rfl) fun y hy => ?_
  rcases mem_append.mp hy with hy | hy
  · exact mem_append_left _ hy
  · exact mem_append_right _ (mem_cons_of_mem root hy)

theorem popHostRoot_eq {host : List ObjRef} (hh : h.hostRoots = r :: host) :
    h.popHostRoot r = some { h with hostRoots := host } := by
  simp [Heap.popHostRoot, hh]

theorem popHostRoot_within {n : ℕ} (hp : h.popHostRoot r = some h') (hw : h.Within n) : h'.Within n := by
  unfold Heap.popHostRoot at hp
  repeat' split at hp
  all_goals first | cases hp; exact hw | cases hp

theorem Refused.pop (hr : Refused (src.pushHostRoot root) roots h) (hp : h.popHostRoot root = some h') :
    Refused src roots h' := by
  rw [popHostRoot_eq hr.hostRoots] at hp
  cases hp
  exact ⟨fun x hx => hr.kept x (under_pushHostRoot hx), rfl, hr.live⟩

theorem Copying.pop (hc : Copying (src.pushHostRoot root) roots [] content new h)
    (hp : h.popHostRoot root = some h') : Copying src roots [] content new h' := by
  have hs := (hc.slotted.step (show h.step (.popHostRoot root) = some h' from hp) trivial).1
  rw [popHostRoot_eq hc.hostRoots] at hp
  cases hp
  exact ⟨hs, rfl, hc.nodup, fun x hx => hc.kept x (under_pushHostRoot hx),
    fun x hx hu => hc.fresh x hx (under_pushHostRoot hu), hc.other, hc.contents, hc.within⟩

theorem copyWithin_cases (hs : src.Slotted) (hroom : ∀ root, value.asObj = some root → src.RoomFor src root)
    (ha : copyWithin unique held src roots value limits = some (out, h')) :
    CopyCases src (fun _ => false) value src roots h' out := by
  unfold copyWithin at ha
  cases hv : value.asObj with
  | none =>
    simp only [hv] at ha
    cases ha
    cases hou : copyImmediate value with
    | error e => exact .refused e (.same _ _) hs (grownBy_nil hs)
    | ok v =>
      rw [copyImmediate_eq hou]
      exact .immediate hv rfl hs
  | some root =>
    simp only [hv] at ha
    split at ha
    · cases ha
    · next e hw =>
      cases ha
      exact .refused e (.same _ _) hs (grownBy_nil hs)
    · next cost scratch hw =>
      have ht := walk_toured hw
      have hu : (src.pushHostRoot root).Slotted :=
        (hs.step (show src.step (.pushHostRoot root) = some _ from rfl) trivial).1
      split at ha
      · cases ha
      · next room h1 hr =>
        have hc := (Copying.start hu roots).room (fun x hx => absurd hx not_mem_nil) hr
        split at ha
        · cases ha
        · next out' h2 hp =>
          obtain ⟨h3, ho, he⟩ := map_eq_some_iff.mp ha
          cases he
          have hl : h2.Slotted → h'.Slotted := fun hs2 =>
            (hs2.step (show h2.step (.popHostRoot root) = some h' from ho) trivial).1
          cases room with
          | false =>
            cases hp
            refine .refused _ (hc.refused_room.pop ho) (hl hc.slotted)
              ⟨[], nodup_nil, fun _ hx => absurd hx not_mem_nil, popHostRoot_within ho hc.within⟩
          | true =>
            have hf := ht.fits hs (hroom root hv)
            have hd := passes_spec (copyPassesWithin_reads unique roots hs ht) hc hf hp
            cases out with
            | error e =>
              exact .refused e (hd.1.pop ho) (hl hd.2.1) (ht.grownBy hs hv (popHostRoot_within ho hd.2.2))
            | ok v =>
              obtain ⟨new, x, rfl, hx, hc'⟩ := hd
              have hm : new.length = scratch.order.length := by
                simpa using congrArg List.length hc'.contents
              have hp := hc'.pop ho
              exact .copied hv ht (le_trans (Nat.le_add_left _ _) hf) hx hp (ht.grownBy hs hv (hm ▸ hp.within))

def smallLimits : GraphLimits := ⟨10, 10, 10000, 100⟩

/-- A list that holds itself and, twice, a frozen tuple. -/
def ringOps : List HeapOp := [.alloc (.list [] 0), .alloc (.tuple [.int 7]),
  .mutate ⟨0, 0⟩ (.list [.obj ⟨1, 0⟩, .obj ⟨0, 0⟩, .obj ⟨1, 0⟩] 0)]

end Iso

end LoomV4
