import LoomV4.Graph.Copy
import LoomV4.Lib.Frontier
import LoomV4.Lib.GraphIso

namespace LoomV4

open Lib Abi List Option Heap

namespace Object

def label (o : Object) : Object := o.cloneRemapped fun _ => ⟨0, 0⟩

def copyOf (f : ObjRef → ObjRef) (o : Object) : Object := (o.remap f).getD (o.shell.getD o)

variable {o : Object} {f : ObjRef → ObjRef}

theorem shell_of_sendable (h : o.shape.boundary ≠ .holderLocal) : ∃ s, o.shell = some s ∧ s.shape = o.shape := by
  cases o <;> first | exact ⟨_, rfl, rfl⟩ | exact absurd rfl h

theorem isLive_map (e : MapEntry) : (e.map f).isLive = e.isLive := by
  obtain ⟨key, value, hash⟩ := e
  cases key <;> rfl

theorem filter_isLive_map (entries : List MapEntry) :
    ((entries.filter MapEntry.isLive).map (MapEntry.map f)).filter MapEntry.isLive =
      (entries.filter MapEntry.isLive).map (MapEntry.map f) := by
  rw [List.filter_map, Function.comp_def]
  simp only [isLive_map, List.filter_filter, Bool.and_self]

theorem children_map (values : List Value) :
    (values.map (Value.map f)).filterMap Value.asObj = (values.filterMap Value.asObj).map f := by
  rw [filterMap_map, map_filterMap]
  congr 1
  funext v
  exact Value.asObj_map f v

theorem children_copyOf (h : o.shape.boundary ≠ .holderLocal) : (o.copyOf f).children = o.children.map f := by
  cases o with
  | inst cls fields env => exact children_map fields
  | list items epoch => exact children_map items
  | tuple items => exact children_map items
  | closure func captures env => exact children_map captures
  | map entries index =>
    simp only [copyOf, remap, getD_some, children, filter_isLive_map, flatMap_map, map_flatMap]
    congr 1
    funext e
    exact children_map [e.key, e.value]
  | dynValue value ty => cases value <;> rfl
  | _ => first | rfl | exact absurd rfl h

theorem map_const (v : Value) (r : ObjRef) : (v.map f).map (fun _ => r) = v.map (fun _ => r) := by
  cases v <;> rfl

theorem label_copyOf (h : o.shape.boundary ≠ .holderLocal) : (o.copyOf f).label = o.label := by
  cases o with
  | inst cls fields env => simp [copyOf, remap, label, cloneRemapped, map_const]
  | list items epoch => simp [copyOf, remap, label, cloneRemapped, map_const]
  | tuple items => simp [copyOf, remap, label, cloneRemapped, map_const]
  | closure func captures env => simp [copyOf, remap, label, cloneRemapped, map_const]
  | map entries index =>
    simp only [copyOf, remap, label, cloneRemapped, getD_some, filter_isLive_map, List.map_map, length_map]
    congr 1
    apply map_congr_left
    intro e _
    simp [MapEntry.map, map_const]
  | dynValue value ty => simp [copyOf, remap, label, cloneRemapped, map_const]
  | _ => first | rfl | exact absurd rfl h

end Object

section

variable {h h' h₀ : Heap} {roots held new : List ObjRef} {content : List (Bool × Object)} {x : ObjRef} {o : Object}

theorem Heap.Under.of_kept {roots' : List ObjRef} (hk : ∀ x, h.Under roots x → h'.node x = h.node x)
    (hr : ∀ r ∈ roots, r ∈ roots') (hx : h.Under roots x) : h'.Under roots' x := by
  obtain ⟨⟨root, ho, hp⟩, hl⟩ := hx
  suffices he : Reachable h'.succ roots' x by
    refine ⟨he, ?_⟩
    rwa [hk x ⟨⟨root, ho, hp⟩, hl⟩]
  clear hl
  induction hp with
  | refl => exact reachable_root (hr root ho)
  | @tail y z hpr hc ih =>
    obtain ⟨children, hs, hz⟩ := hc
    refine ih.child ⟨children, ?_, hz⟩
    have hy : h.Under roots y := ⟨⟨root, ho, hpr⟩, by
      rw [← succ_ne_none, hs]
      exact some_ne_none children⟩
    rw [← hs, Heap.succ, hk y hy, Heap.succ]

structure Copying (h₀ : Heap) (roots held : List ObjRef) (content : List (Bool × Object)) (new : List ObjRef)
    (h : Heap) : Prop where
  slotted : h.Slotted
  hostRoots : h.hostRoots = held ++ h₀.hostRoots
  nodup : new.Nodup
  kept : ∀ x, h₀.Under (roots ++ h₀.hostRoots) x → h.node x = h₀.node x
  fresh : ∀ x ∈ new, ¬h₀.Under (roots ++ h₀.hostRoots) x
  other : ∀ x, x ∉ new → h.node x = none ∨ h.node x = h₀.node x
  contents : new.map h.node = content.map some
  within : h.Within (h₀.objects.cells.length + new.length)

namespace Copying

theorem start (hs : h.Slotted) (roots : List ObjRef) : Copying h roots [] [] [] h :=
  ⟨hs, rfl, nodup_nil, fun _ _ => rfl, fun _ hx => absurd hx not_mem_nil, fun _ _ => .inr rfl, rfl,
    within_length hs.tabled⟩

section

variable (hc : Copying h₀ roots held content new h)

include hc

theorem live (hx : x ∈ new) : h.node x ≠ none := by
  have hm : h.node x ∈ content.map some := hc.contents ▸ List.mem_map_of_mem hx
  obtain ⟨n, -, hn⟩ := List.mem_map.mp hm
  rw [← hn]
  exact some_ne_none n

theorem collected (hh : ∀ x ∈ new, x ∈ held)
    (ho : collect roots h = some h') : Copying h₀ roots held content new h' := by
  have ho := collect_collected hc.slotted ho
  have hin : ∀ r ∈ roots ++ h₀.hostRoots, r ∈ roots ++ h.hostRoots := by
    rw [hc.hostRoots]
    intro r hr
    simp only [mem_append] at hr ⊢
    tauto
  have hn : ∀ x ∈ new, h'.node x = h.node x := by
    intro x hx
    refine ho.kept x ⟨reachable_root ?_, hc.live hx⟩
    rw [hc.hostRoots]
    exact mem_append_right _ (mem_append_left _ (hh x hx))
  refine ⟨ho.slotted, ho.hostRoots.trans hc.hostRoots, hc.nodup, fun x hx => ?_, hc.fresh, fun x hx => ?_, ?_,
    ho.within _ hc.within⟩
  · rw [ho.kept x (hx.of_kept hc.kept hin), hc.kept x hx]
  · by_cases hu : h.Under (roots ++ h.hostRoots) x
    · rw [ho.kept x hu]
      exact hc.other x hx
    · exact .inl (ho.dropped x hu)
  · rw [← hc.contents]
    exact map_congr_left hn

theorem room {exceeds : Heap → Bool} {ok : Bool}
    (hh : ∀ x ∈ new, x ∈ held) (hr : makeRoom roots exceeds h = some (ok, h')) :
    Copying h₀ roots held content new h' := by
  unfold makeRoom at hr
  split at hr
  · obtain ⟨h1, ho, he⟩ := map_eq_some_iff.mp hr
    cases he
    exact hc.collected hh ho
  · cases hr
    exact hc

theorem alloc (hr : h₀.objects.cells.length + new.length < SlotTable.slotNumbers) (ha : h.alloc o = some (x, h')) :
    Copying h₀ roots (x :: held) (content ++ [(o.shape.bornFrozen, o)]) (new ++ [x]) (h'.pushHostRoot x) := by
  have hn := node_alloc hc.slotted ha
  have hd := node_alloc_fresh hc.slotted (hc.within.numbered hr) ha
  have hx : x ∉ new := fun hin => hc.live hin hd
  have hu : ¬h₀.Under (roots ++ h₀.hostRoots) x := fun hu => hu.2 (hc.kept x hu ▸ hd)
  refine ⟨?_, ?_, nodup_append_singleton hc.nodup hx, fun y hy => ?_, ?_, fun y hy => ?_, ?_, ?_⟩
  · exact ((hc.slotted.alloc ha).step (show h'.step (.pushHostRoot x) = some _ from rfl) trivial).1
  · obtain ⟨-, -, hr, -⟩ := alloc_room hc.slotted.tabled ha
    rw [Heap.pushHostRoot, hr, hc.hostRoots, cons_append]
  · change h'.node y = h₀.node y
    rw [hn, if_neg fun he : y = x => hu (he ▸ hy), hc.kept y hy]
  · exact forall_append_singleton hc.fresh hu
  · rw [mem_append, mem_singleton, not_or] at hy
    change h'.node y = none ∨ h'.node y = h₀.node y
    rw [hn, if_neg hy.2]
    exact hc.other y hy.1
  · change (new ++ [x]).map h'.node = _
    rw [map_append, map_append, ← hc.contents, map_singleton, map_singleton, hn, if_pos rfl]
    congr 1
    apply map_congr_left
    intro y hy
    rw [hn, if_neg fun he : y = x => hx (he ▸ hy)]
  · rw [length_append, length_singleton, ← Nat.add_assoc]
    have hw := hc.within.alloc hc.slotted.tabled ha
    exact hw

end

theorem node_mid {pre post : List ObjRef} {c c' : List (Bool × Object)} {n : Bool × Object}
    (hc : Copying h₀ roots held (c ++ n :: c') (pre ++ x :: post) h) (hl : c.length = pre.length) :
    h.node x = some n := by
  have ho := hc.contents
  rw [map_append, map_append, map_cons, map_cons] at ho
  exact (List.cons.inj (append_inj ho (by simp [hl])).2).1

theorem written {pre post : List ObjRef} {c c' : List (Bool × Object)} {n n' : Bool × Object}
    (hc : Copying h₀ roots held (c ++ n :: c') (pre ++ x :: post) h) (hl : c.length = pre.length) (hs : h'.Slotted)
    (hr : h'.hostRoots = h.hostRoots) (hw : ∀ n, h.Within n → h'.Within n)
    (hn : ∀ y, h'.node y = if y = x then some n' else h.node y) :
    Copying h₀ roots held (c ++ n' :: c') (pre ++ x :: post) h' := by
  have hm : x ∈ pre ++ x :: post := by simp
  refine ⟨hs, hr.trans hc.hostRoots, hc.nodup, fun y hy => ?_, hc.fresh, fun y hy => ?_, ?_, hw _ hc.within⟩
  · rw [hn, if_neg fun he : y = x => hc.fresh x hm (he ▸ hy), hc.kept y hy]
  · rw [hn, if_neg fun he : y = x => hy (he ▸ hm)]
    exact hc.other y hy
  · have ho := hc.contents
    rw [map_append, map_append, map_cons, map_cons] at ho
    obtain ⟨hpr, ht⟩ := append_inj ho (by simp [hl])
    have hp := (List.cons.inj ht).2
    obtain ⟨-, hnd, hd⟩ := nodup_append.mp hc.nodup
    rw [map_append, map_append, map_cons, map_cons, ← hpr, ← hp, hn, if_pos rfl]
    congr 1
    · apply map_congr_left
      intro y hy
      rw [hn, if_neg (hd y hy x (mem_cons_self))]
    · congr 1
      apply map_congr_left
      intro y hy
      rw [hn, if_neg fun he : y = x => (nodup_cons.mp hnd).1 (he ▸ hy)]

end Copying

section Passes

variable {source : CopySource} {order rest : List ObjRef} {obj : ObjRef → Object} {frozen : ObjRef → Bool}
  {scratch : GraphScratch}

structure CopySource.Reads (source : CopySource) (h₀ : Heap) (roots order : List ObjRef) (obj : ObjRef → Object)
    (frozen : ObjRef → Bool) : Prop where
  read : ∀ h : Heap, (∀ x, h₀.Under (roots ++ h₀.hostRoots) x → h.node x = h₀.node x) →
    ∀ r ∈ order, source.read h r = some (obj r)
  frozen : ∀ h : Heap, (∀ x, h₀.Under (roots ++ h₀.hostRoots) x → h.node x = h₀.node x) →
    ∀ r ∈ order, source.frozen h r = frozen r
  sendable : ∀ r ∈ order, (obj r).shape.boundary ≠ .holderLocal

def Object.shellNode (o : Object) : Bool × Object := (o.shape.bornFrozen, o.shell.getD o)

def Object.copyNode (f : ObjRef → ObjRef) (o : Object) : Bool × Object := (o.shape.bornFrozen, o.copyOf f)

variable {out : Except FaultCode Unit}

theorem shells_spec {new' : List ObjRef} (hr : source.Reads h₀ roots order obj frozen)
    (hu : ∀ r ∈ rest, r ∈ order) (hc : Copying h₀ roots new.reverse content new h)
    (hf : h₀.objects.cells.length + (new.length + rest.length) ≤ SlotTable.slotNumbers)
    (hs : source.shells roots rest new h = some (out, new', h')) :
    ∃ content', Copying h₀ roots new'.reverse content' new' h' ∧ new'.length ≤ new.length + rest.length ∧
      (out = .ok () → content' = content ++ rest.map fun r => (obj r).shellNode) := by
  induction rest generalizing new content h with
  | nil =>
    cases hs
    exact ⟨content, hc, le_rfl, fun _ => by simp⟩
  | cons r rest ih =>
    have hin := hu r mem_cons_self
    obtain ⟨s, hh, ha⟩ := Object.shell_of_sendable (hr.sendable r hin)
    simp only [CopySource.shells, hr.read h hc.kept r hin, hh] at hs
    split at hs
    · cases hs
    · next h1 ho =>
      cases hs
      exact ⟨content, hc.room (fun x hx => mem_reverse.mpr hx) ho, Nat.le_add_right _ _, fun he => by cases he⟩
    · next h1 ho =>
      have hc1 := hc.room (fun x hx => mem_reverse.mpr hx) ho
      split at hs
      · cases hs
      · next x h2 hl =>
        rw [length_cons] at hf
        have hc2 := hc1.alloc (by omega) hl
        rw [← reverse_concat] at hc2
        obtain ⟨content', hc', hle, ht⟩ := ih (fun y hy => hu y (mem_cons_of_mem r hy)) hc2
          (by rw [length_append, length_singleton]; omega) hs
        rw [length_append, length_singleton] at hle
        refine ⟨content', hc', by rw [length_cons]; omega, fun he => ?_⟩
        rw [ht he, map_cons, append_assoc, Object.shellNode, hh, ha]
        rfl

variable {pre post : List ObjRef} {c : List (Bool × Object)}

variable {c' : List (Bool × Object)} {n : Bool × Object}

theorem Copying.patched (hc : Copying h₀ roots held (c ++ n :: c') (pre ++ x :: post) h) (hl : c.length = pre.length)
    (hw : (h.setObject x o).bind (Heap.recharge x) = some h') :
    Copying h₀ roots held (c ++ (n.1, o) :: c') (pre ++ x :: post) h' := by
  obtain ⟨e, header, l, k, -, -, rfl⟩ := write_cases (fun _ _ _ => recharge_cases) hw
  obtain ⟨frozen, before, hx, ho⟩ := node_write hc.slotted hw
  have hn : h.node x = some n := hc.node_mid hl
  rw [hn] at hx
  cases hx
  refine hc.written hl (hc.slotted.step (show h.step (.mutate x o) = some _ from hw) trivial).1 rfl ?_ ho
  exact fun _ => within_withEntry

theorem patch_spec (hr : source.Reads h₀ roots order obj frozen)
    (hs : ∀ r ∈ rest, r ∈ order) (hl : rest.length = post.length) (hpr : c.length = pre.length)
    (hc : Copying h₀ roots held (c ++ rest.map fun r => (obj r).shellNode) (pre ++ post) h)
    (hp : source.patch scratch new (rest.zip post) h = some (out, h')) : out = .ok () ∧
      Copying h₀ roots held (c ++ rest.map fun r => (obj r).copyNode (scratch.newRef new)) (pre ++ post) h' := by
  induction rest generalizing pre post c h with
  | nil =>
    cases hp
    exact ⟨rfl, hc⟩
  | cons r rest ih =>
    cases post with
    | nil => cases hl
    | cons x post =>
      have hin := hs r mem_cons_self
      have hs' : ∀ y ∈ rest, y ∈ order := fun y hy => hs y (mem_cons_of_mem r hy)
      have hpr' : (c ++ [(obj r).copyNode (scratch.newRef new)]).length = (pre ++ [x]).length := by simp [hpr]
      rw [zip_cons_cons, CopySource.patch] at hp
      simp only [hr.read h hc.kept r hin] at hp
      rw [map_cons, append_cons c, append_cons pre]
      split at hp
      · cases hp
      · split at hp
        · next he =>
          have ha : (obj r).copyNode (scratch.newRef new) = (obj r).shellNode := by
            rw [Object.copyNode, Object.copyOf, he]
            rfl
          refine ih hs' (Nat.succ.inj hl) hpr' ?_ hp
          simpa [ha] using hc
        · next patched he =>
          obtain ⟨h1, hw, hp1⟩ := bind_eq_some_iff.mp hp
          have hc1 := hc.patched hpr hw
          have ha : (obj r).copyNode (scratch.newRef new) = ((obj r).shellNode.1, patched) := by
            rw [Object.copyNode, Object.copyOf, he]
            rfl
          refine ih hs' (Nat.succ.inj hl) hpr' ?_ hp1
          simpa [ha] using hc1

theorem Copying.freeze (hc : Copying h₀ roots held (c ++ n :: c') (pre ++ x :: post) h) (hl : c.length = pre.length)
    (hf : h.setFrozen x = some h') : Copying h₀ roots held (c ++ (true, n.2) :: c') (pre ++ x :: post) h' := by
  have hr : h'.hostRoots = h.hostRoots := by
    obtain rfl | ⟨e, -, rfl⟩ := setFrozen_cases hf <;> rfl
  have hw : ∀ n, h.Within n → h'.Within n := by
    obtain rfl | ⟨e, -, rfl⟩ := setFrozen_cases hf
    · exact fun _ => id
    · exact fun _ => within_withEntry
  refine hc.written hl (hc.slotted.step (show h.step (.setFrozen x) = some _ from hf) trivial).1 hr hw fun y => ?_
  rw [node_setFrozen hc.slotted hf]
  split
  · next hy => rw [hy, hc.node_mid hl, map_some]
  · rfl

theorem freezeCopies_spec {node : ObjRef → Bool × Object}
    (hr : source.Reads h₀ roots order obj frozen) (hs : ∀ r ∈ rest, r ∈ order) (hl : rest.length = post.length)
    (hp : c.length = pre.length) (hc : Copying h₀ roots held (c ++ rest.map node) (pre ++ post) h)
    (hf : source.freezeCopies (rest.zip post) h = some h') :
    Copying h₀ roots held (c ++ rest.map fun r => (frozen r || (node r).1, (node r).2)) (pre ++ post) h' := by
  induction rest generalizing pre post c h with
  | nil =>
    cases hf
    exact hc
  | cons r rest ih =>
    cases post with
    | nil => cases hl
    | cons x post =>
      have hs' : ∀ y ∈ rest, y ∈ order := fun y hy => hs y (mem_cons_of_mem r hy)
      have hp' : (c ++ [(frozen r || (node r).1, (node r).2)]).length = (pre ++ [x]).length := by simp [hp]
      rw [zip_cons_cons, CopySource.freezeCopies, hr.frozen h hc.kept r (hs r mem_cons_self)] at hf
      rw [map_cons, append_cons c, append_cons pre]
      split at hf
      · next hb =>
        obtain ⟨h1, he, hf1⟩ := bind_eq_some_iff.mp hf
        have hc1 := hc.freeze hp he
        refine ih hs' (Nat.succ.inj hl) hp' ?_ hf1
        simpa [hb] using hc1
      · next hb =>
        refine ih hs' (Nat.succ.inj hl) hp' ?_ hf
        simpa [hb] using hc

theorem popHostRoots_spec {refs host : List ObjRef} (hs : h.Slotted) (hh : h.hostRoots = refs ++ host)
    (hp : h.popHostRoots refs = some h') :
    h'.Slotted ∧ h'.hostRoots = host ∧ h'.objects = h.objects ∧ ∀ x, h'.node x = h.node x := by
  induction refs generalizing h with
  | nil =>
    cases hp
    exact ⟨hs, hh, rfl, fun _ => rfl⟩
  | cons r refs ih =>
    rw [Heap.popHostRoots, foldlM_cons] at hp
    obtain ⟨h1, ho, hr⟩ := bind_eq_some_iff.mp hp
    have hs1 := (hs.step (show h.step (.popHostRoot r) = some h1 from ho) trivial).1
    rw [Heap.popHostRoot, hh, cons_append] at ho
    simp only [if_true, Option.some.injEq] at ho
    subst ho
    have he := ih hs1 rfl hr
    exact he

theorem free_hostRoots {r : ObjRef} (hf : h.free r = some h') : h'.hostRoots = h.hostRoots := by
  unfold Heap.free Heap.freeTextView at hf
  repeat' split at hf
  all_goals first | cases hf; rfl | cases hf

theorem Copying.unrooted (hc : Copying h₀ roots held content new h) (hp : h.popHostRoots held = some h') :
    Copying h₀ roots [] content new h' := by
  obtain ⟨hs, hr, ho, hn⟩ := popHostRoots_spec hc.slotted hc.hostRoots hp
  refine ⟨hs, hr, hc.nodup, fun x hx => ?_, hc.fresh, fun x hx => ?_, ?_, ?_⟩
  · rw [hn, hc.kept x hx]
  · rw [hn]
    exact hc.other x hx
  · rw [← hc.contents]
    exact map_congr_left fun x _ => hn x
  · rw [Heap.Within, ho]
    exact hc.within

theorem freeAll_spec {refs : List ObjRef} (hs : h.Slotted) (hf : h.freeAll refs = some h') :
    h'.Slotted ∧ h'.hostRoots = h.hostRoots ∧ (∀ n, h.Within n → h'.Within n) ∧
      ∀ x, h'.node x = if x ∈ refs then none else h.node x := by
  induction refs generalizing h with
  | nil =>
    cases hf
    exact ⟨hs, rfl, fun _ => id, fun _ => by simp⟩
  | cons r refs ih =>
    rw [Heap.freeAll, foldlM_cons] at hf
    obtain ⟨h1, ho, he⟩ := bind_eq_some_iff.mp hf
    obtain ⟨hl, hr, hw, hn⟩ := ih (hs.step (show h.step (.free r) = some h1 from ho) trivial).1 he
    refine ⟨hl, hr.trans (free_hostRoots ho), fun n hx => hw n (free_within ho hx), fun x => ?_⟩
    rw [hn, node_free hs.tabled ho]
    by_cases hx : x = r <;> simp [hx]

structure Refused (h₀ : Heap) (roots : List ObjRef) (h : Heap) : Prop where
  kept : ∀ x, h₀.Under (roots ++ h₀.hostRoots) x → h.node x = h₀.node x
  hostRoots : h.hostRoots = h₀.hostRoots
  live : ∀ x, h.node x ≠ none → h.node x = h₀.node x

theorem Copying.refused (hc : Copying h₀ roots [] content new h) (hf : h.freeAll new.reverse = some h') :
    Refused h₀ roots h' ∧ h'.Slotted ∧ h'.Within (h₀.objects.cells.length + new.length) := by
  obtain ⟨hs, hr, hw, hn⟩ := freeAll_spec hc.slotted hf
  simp only [mem_reverse] at hn
  refine ⟨⟨fun x hx => ?_, hr.trans hc.hostRoots, fun x hx => ?_⟩, hs, hw _ hc.within⟩
  · rw [hn, if_neg fun hin => hc.fresh x hin hx, hc.kept x hx]
  · rw [hn] at hx ⊢
    split at hx
    · exact absurd rfl hx
    · next hin =>
      rw [if_neg hin]
      exact (hc.other x hin).resolve_left hx

def Object.finalNode (f : ObjRef → ObjRef) (frozen : Bool) (o : Object) : Bool × Object :=
  (frozen || o.shape.bornFrozen, o.copyOf f)

def PassesDone (h₀ : Heap) (roots : List ObjRef) (scratch : GraphScratch) (root : ObjRef) (obj : ObjRef → Object)
    (frozen : ObjRef → Bool) (h : Heap) : Except FaultCode Value → Prop
  | .error _ => Refused h₀ roots h ∧ h.Slotted ∧ h.Within (h₀.objects.cells.length + scratch.order.length)
  | .ok v => ∃ new x, v = .obj x ∧ new[scratch.ordinal root]? = some x ∧
      Copying h₀ roots [] (scratch.order.map fun r => (obj r).finalNode (scratch.newRef new) (frozen r)) new h

theorem passes_spec {out : Except FaultCode Value} {root : ObjRef}
    (hr : source.Reads h₀ roots scratch.order obj frozen) (hc : Copying h₀ roots [] [] [] h)
    (hf : h₀.objects.cells.length + scratch.order.length ≤ SlotTable.slotNumbers)
    (hp : source.passes roots scratch root h = some (out, h')) :
    PassesDone h₀ roots scratch root obj frozen h' out := by
  unfold CopySource.passes at hp
  cases hs : source.shells roots scratch.order [] h with
  | none =>
    rw [hs] at hp
    cases hp
  | some result =>
    obtain ⟨res, new, h1⟩ := result
    have ht : Copying h₀ roots ([] : List ObjRef).reverse [] [] h := hc
    obtain ⟨content, hc1, hle, hok⟩ := shells_spec hr (fun r hr => hr) ht (by simpa using hf) hs
    simp only [hs] at hp
    cases res with
    | error e =>
      obtain ⟨h2, hpo, he⟩ := map_eq_some_iff.mp hp
      cases he
      obtain ⟨h3, hpo, hfr⟩ := bind_eq_some_iff.mp hpo
      obtain ⟨hr, hs, hw⟩ := (hc1.unrooted hpo).refused hfr
      rw [length_nil, Nat.zero_add] at hle
      exact ⟨hr, hs, hw.mono (Nat.add_le_add_left hle _)⟩
    | ok _ =>
      have ho := hok rfl
      rw [nil_append] at ho
      subst ho
      have hl : scratch.order.length = new.length := by
        have hm := congrArg List.length hc1.contents
        simpa using hm.symm
      cases ha : source.patch scratch new (scratch.order.zip new) h1 with
      | none =>
        simp only [ha] at hp
        cases hp
      | some patched =>
        obtain ⟨res, h2⟩ := patched
        have hc1' : Copying h₀ roots new.reverse ([] ++ scratch.order.map fun r => (obj r).shellNode) ([] ++ new)
            h1 := hc1
        obtain ⟨rfl, hc2⟩ := patch_spec hr (fun r hr => hr) hl rfl hc1' ha
        simp only [ha] at hp
        cases hz : (h2.popHostRoots new.reverse).bind (source.freezeCopies (scratch.order.zip new)) with
        | none =>
          simp only [hz] at hp
          cases hp
        | some h3 =>
          simp only [hz] at hp
          obtain ⟨x, hx, he⟩ := map_eq_some_iff.mp hp
          cases he
          obtain ⟨h4, hpo, hf⟩ := bind_eq_some_iff.mp hz
          have hc3 := freezeCopies_spec hr (fun r hr => hr) hl rfl (hc2.unrooted hpo) hf
          exact ⟨new, x, rfl, hx, hc3⟩

end Passes

end

end LoomV4
