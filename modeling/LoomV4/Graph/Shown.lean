import LoomV4.Graph.Copied
import LoomV4.Heap.Stale

/-!
The slots of the image table that the snapshot values of a heap name, and how copies and collections change them.
-/

namespace LoomV4

open Lib Abi List Option Heap SlotTable

variable {h h' h₀ src dst dst' : Heap} {roots tops held new : List ObjRef} {content : List (Bool × Object)}
  {x y : ObjRef} {o : Object} {s : ℕ}

def imageSlot : Object → Option ℕ
  | .nativeSnapshotRef image => some image.toNat
  | _ => none

def Heap.Shows (h : Heap) (roots : List ObjRef) (s : ℕ) : Prop :=
  ∃ r n, h.Under roots r ∧ h.node r = some n ∧ imageSlot n.2 = some s

theorem imageSlot_copyOf (f : ObjRef → ObjRef) (o : Object) : imageSlot (o.copyOf f) = imageSlot o := by
  cases o <;> rfl

theorem imageSlot_cloneRemapped (f : ObjRef → ObjRef) (o : Object) : imageSlot (o.cloneRemapped f) = imageSlot o := by
  cases o <;> rfl

theorem Heap.Under.mono (hr : ∀ r ∈ tops, r ∈ roots) (hx : h.Under tops x) : h.Under roots x :=
  hx.of_kept (fun _ _ => rfl) hr

/-- After a collection the live references are those that the roots reached, with what they held. A later collection,
for the same roots or fewer, leaves what it would have left without the first. -/
theorem collect_exact {capBytes : ℕ} {ops : List HeapOp} (hrun : Heap.run capBytes ops = some h)
    (hn : AlongM Heap.Numbered Heap.step ops (.new capBytes)) (hcollect : collect roots h = some h') :
    (∀ r, h'.node r ≠ none ↔ h.Under (roots ++ h.hostRoots) r) ∧ (∀ r, h'.node r ≠ none → h'.node r = h.node r) ∧
      ∀ fewer h₁ h₂, fewer ⊆ roots → collect fewer h = some h₁ → collect fewer h' = some h₂ →
        ∀ r, h₂.node r = h₁.node r := by
  have hs : h.Slotted := .run hrun hn
  have hc := collect_collected hs hcollect
  have hl : ∀ r, h'.node r ≠ none ↔ h.Under (roots ++ h.hostRoots) r := fun r =>
    ⟨fun hn => by_contra fun hu => hn (hc.dropped r hu), fun hu => hc.kept r hu ▸ hu.2⟩
  refine ⟨hl, fun r hn => hc.kept r ((hl r).mp hn), ?_⟩
  intro fewer h₁ h₂ hf hcollect₁ hcollect₂ r
  have hc₁ := collect_collected hs hcollect₁
  have hc₂ := collect_collected hc.slotted hcollect₂
  have hm : ∀ y, h.Under (fewer ++ h.hostRoots) y → h.Under (roots ++ h.hostRoots) y := fun y =>
    Heap.Under.mono fun x hx => mem_append.mpr ((mem_append.mp hx).imp_left fun hx => hf hx)
  have kept := hc₂.kept r
  have dropped := hc₂.dropped r
  rw [hc.hostRoots] at kept dropped
  by_cases hr : h.Under (fewer ++ h.hostRoots) r
  · have hr' := hr.of_kept (fun y hy => hc.kept y (hm y hy)) fun _ => id
    rw [kept hr', hc₁.kept r hr, hc.kept r (hm r hr)]
  · have hr' : ¬h'.Under (fewer ++ h.hostRoots) r := fun hu =>
      hr (hu.of_kept (fun y hy => (hc.kept y ((hl y).mp hy.2)).symm) fun _ => id)
    rw [dropped hr', hc₁.dropped r hr]

/-- A list that the root reaches and one that it does not; the later collection takes the other one too. -/
theorem collect_exact_pair : ∃ h h' h₁ h₂, Heap.run 4096 [.alloc (.list [] 0), .alloc (.list [] 1)] = some h ∧
    collect [⟨0, 0⟩] h = some h' ∧ collect [] h = some h₁ ∧ collect [] h' = some h₂ ∧
    h'.node ⟨0, 0⟩ = some (false, .list [] 0) ∧ h'.node ⟨1, 0⟩ = none ∧ h₂.node ⟨0, 0⟩ = none ∧
    ∀ r, h₂.node r = h₁.node r := by
  have hnumbered : AlongM Heap.Numbered Heap.step [.alloc (.list [] 0), .alloc (.list [] 1)] (.new 4096) := by
    decide +kernel
  have hchargeable : AlongM Heap.Chargeable Heap.step [.alloc (.list [] 0), .alloc (.list [] 1)] (.new 4096) :=
    ⟨⟨trivial, fun _ _ _ hx => by cases hx⟩, fun _ _ => ⟨⟨trivial, fun _ _ _ hx => by cases hx⟩, fun _ _ => trivial⟩⟩
  obtain ⟨h, hrun, capacity, hb⟩ := Heap.run_balanced 4096 _ hchargeable hnumbered
  have heval : (Heap.run 4096 [.alloc (.list [] 0), .alloc (.list [] 1)]).map (fun h => (h.node ⟨0, 0⟩, h.hostRoots,
      (walk h 0 ([⟨0, 0⟩] ++ h.hostRoots) .unbounded visitAll).map fun r => r.toOption.isSome)) =
      some (some (false, .list [] 0), [], some true) := by
    decide +kernel
  rw [hrun] at heval
  simp only [map_some, Option.some.injEq, Prod.mk.injEq] at heval
  obtain ⟨hnode, hhost, hwalk⟩ := heval
  have hempty : ∀ g : Heap, g.hostRoots = [] → ∃ x, walk g 0 ([] ++ g.hostRoots) .unbounded visitAll = some (.ok x) := by
    intro g hg
    rw [hg]
    exact ⟨_, rfl⟩
  obtain ⟨h', hc', hb'⟩ : ∃ h', collect [⟨0, 0⟩] h = some h' ∧ h'.Balanced capacity := by
    obtain ⟨walked, hw, hs⟩ := map_eq_some_iff.mp hwalk
    cases walked with
    | error code => cases hs
    | ok x => exact exists_collect hb hw
  have hs := Heap.Slotted.run hrun hnumbered
  obtain ⟨x, hw₁⟩ := hempty h hhost
  obtain ⟨h₁, hc₁, -⟩ := exists_collect hb hw₁
  obtain ⟨y, hw₂⟩ := hempty h' ((collect_collected hs hc').hostRoots.trans hhost)
  obtain ⟨h₂, hc₂, -⟩ := exists_collect hb' hw₂
  obtain ⟨hlive, hkept, hlater⟩ := collect_exact hrun hnumbered hc'
  have hlive₁ := (collect_exact hrun hnumbered hc₁).1
  have hagree := hlater [] h₁ h₂ (nil_subset _) hc₁ hc₂
  rw [hhost] at hlive hlive₁
  have hroot : h'.node ⟨0, 0⟩ ≠ none := (hlive _).mpr ⟨reachable_root mem_cons_self, by rw [hnode]; exact some_ne_none _⟩
  refine ⟨h, h', h₁, h₂, hrun, hc', hc₁, hc₂, (hkept _ hroot).trans hnode, ?_, ?_, hagree⟩
  · by_contra hne
    obtain ⟨⟨root, hin, hpath⟩, -⟩ := (hlive _).mp hne
    rw [append_nil, mem_singleton] at hin
    subst hin
    obtain he | ⟨z, hz, -⟩ := hpath.cases_head
    · cases he
    · obtain ⟨children, hchildren, hm⟩ := hz
      rw [Heap.succ, hnode] at hchildren
      cases hchildren
      cases hm
  · rw [hagree]
    by_contra hne
    obtain ⟨⟨root, hin, -⟩, -⟩ := (hlive₁ _).mp hne
    cases hin

theorem Heap.Shows.mono (hr : ∀ r ∈ tops, r ∈ roots) (hs : h.Shows tops s) : h.Shows roots s := by
  obtain ⟨r, n, hu, hn⟩ := hs
  exact ⟨r, n, hu.mono hr, hn⟩

theorem Heap.Shows.of_root {r : ObjRef} {n : Bool × Object} (hr : r ∈ roots) (hn : h.node r = some n)
    (hi : imageSlot n.2 = some s) : h.Shows roots s :=
  ⟨r, n, ⟨reachable_root hr, by rw [hn]; exact some_ne_none n⟩, hn, hi⟩

theorem Heap.Shows.of_child {r : ObjRef} {cs : List ObjRef} (hr : r ∈ roots) (hcs : h.succ r = some cs)
    (hs : h.Shows cs s) : h.Shows roots s := by
  obtain ⟨x, n, ⟨⟨c, hc, hp⟩, hl⟩, hn⟩ := hs
  exact ⟨x, n, ⟨⟨r, hr, .head ⟨cs, hcs, hc⟩ hp⟩, hl⟩, hn⟩

theorem Heap.Under.step_back {P : ObjRef → Prop} (ht : ∀ r ∈ tops, h'.node r ≠ none → P r ∨ h.Under roots r)
    (hs : ∀ y cs, P y → h'.succ y = some cs → ∀ c ∈ cs, h'.node c ≠ none → P c ∨ h.Under roots c)
    (hk : ∀ y, h.Under roots y → ¬P y → h'.node y = h.node y)
    (hold : ∀ y, ¬P y → h'.node y ≠ none → h.node y ≠ none) (hx : h'.Under tops x) : P x ∨ h.Under roots x := by
  obtain ⟨⟨root, hr, ha⟩, hl⟩ := hx
  induction ha with
  | refl => exact ht root hr hl
  | @tail y z _ hc ih =>
    obtain ⟨cs, hcs, hz⟩ := hc
    have hy : h'.node y ≠ none := by
      rw [← succ_ne_none, hcs]
      exact some_ne_none cs
    by_cases hp : P y
    · exact hs y cs hp hcs z hz hl
    · have hu := (ih hy).resolve_left hp
      by_cases hpz : P z
      · exact .inl hpz
      · refine .inr ⟨hu.1.child ⟨cs, ?_, hz⟩, hold z hpz hl⟩
        rw [← hcs, Heap.succ, Heap.succ, hk y hu hp]

theorem alloc_shows (hsl : h.Slotted) (ha : h.alloc o = some (x, h')) (hs : h'.Shows (roots ++ [x]) s) :
    imageSlot o = some s ∨ h.Shows (roots ++ o.children) s := by
  obtain ⟨r, n, hu, hn, hi⟩ := hs
  have ho := node_alloc hsl ha
  have hb : r = x ∨ h.Under (roots ++ o.children) r := by
    refine hu.step_back (P := fun y => y = x) ?_ ?_ ?_ ?_
    · intro t ht hl
      by_cases htx : t = x
      · exact .inl htx
      · rw [ho, if_neg htx] at hl
        refine .inr ⟨reachable_root ?_, hl⟩
        simp only [mem_append, mem_singleton] at ht ⊢
        exact .inl (ht.resolve_right htx)
    · rintro y cs rfl hcs c hc hl
      by_cases hcy : c = y
      · exact .inl hcy
      · rw [ho, if_neg hcy] at hl
        rw [Heap.succ, ho, if_pos rfl] at hcs
        cases hcs
        exact .inr ⟨reachable_root (mem_append_right _ hc), hl⟩
    · intro y _ hy
      rw [ho, if_neg hy]
    · intro y hy hl
      rwa [ho, if_neg hy] at hl
  by_cases hx : r = x
  · rw [ho, if_pos hx] at hn
    cases hn
    exact .inl hi
  · rw [ho, if_neg hx] at hn
    exact .inr ⟨r, n, hb.resolve_left hx, hn, hi⟩

section Copy

variable {root : ObjRef} {cost : GraphCost} {scratch : GraphScratch} {obj : ObjRef → Object} {frozen : ObjRef → Bool}

theorem Toured.newRef_mem (ht : Toured src [root] copyCheck cost scratch) (hl : new.length = scratch.order.length)
    {r c : ObjRef} (hr : r ∈ scratch.order) {cs : List ObjRef} (hcs : src.succ r = some cs) (hc : c ∈ cs) :
    scratch.newRef new c ∈ new := by
  obtain hn | ⟨cs', hcs', hin⟩ := ht.walked.closed hr
  · cases hn
  · rw [hcs] at hcs'
    cases hcs'
    have hlt : scratch.order.findIdx (fun x => scratch.index x = scratch.index c) < scratch.order.length := by
      obtain ⟨y, hy, he⟩ := List.mem_map.mp (hin c hc)
      exact findIdx_lt_length_of_exists ⟨y, hy, decide_eq_true he⟩
    have ho : scratch.ordinal c < new.length := by
      rw [hl]
      exact lt_of_le_of_lt (Nat.mod_le _ _) hlt
    rw [GraphScratch.newRef, getElem?_eq_getElem ho, getD_some]
    exact getElem_mem ho

theorem Copying.shows (ht : Toured src [root] copyCheck cost scratch) (hsl : src.Slotted)
    (hc : Copying h₀ roots [] (scratch.order.map fun r =>
      (src.objectAt r).finalNode (scratch.newRef new) (frozen r)) new h)
    (hp : ∀ t ∈ tops, t ∈ roots ++ h₀.hostRoots ∨ t ∈ new) (hs : h.Shows tops s) :
    h₀.Shows (roots ++ h₀.hostRoots) s ∨ src.Shows [root] s := by
  have hle : new.length = scratch.order.length := by
    have ha := congrArg List.length hc.contents
    simpa using ha
  have hw : ∀ y ∈ new, ∃ r ∈ scratch.order,
      h.node y = some ((src.objectAt r).finalNode (scratch.newRef new) (frozen r)) := by
    intro y hy
    have hm : h.node y ∈ new.map h.node := List.mem_map_of_mem hy
    rw [hc.contents, List.map_map] at hm
    obtain ⟨r, hr, he⟩ := List.mem_map.mp hm
    exact ⟨r, hr, he.symm⟩
  obtain ⟨r, n, hu, hn, hi⟩ := hs
  have hb : r ∈ new ∨ h₀.Under (roots ++ h₀.hostRoots) r := by
    refine hu.step_back (P := fun y => y ∈ new) ?_ ?_ (fun y hy _ => hc.kept y hy) ?_
    · intro t ht' hl
      by_cases hin : t ∈ new
      · exact .inl hin
      · rw [(hc.other t hin).resolve_left hl] at hl
        exact .inr ⟨reachable_root ((hp t ht').resolve_right hin), hl⟩
    · intro y cs hy hcs c hci _
      obtain ⟨q, hq, ho⟩ := hw y hy
      obtain ⟨hd, hse⟩ := ht.objectAt hq
      rw [Heap.succ, ho, map_some] at hcs
      cases hcs
      rw [Object.finalNode, Object.children_copyOf hse] at hci
      obtain ⟨child, hh, rfl⟩ := List.mem_map.mp hci
      exact .inl (ht.newRef_mem hle hq (by rw [Heap.succ, hd]; rfl) hh)
    · intro y hy hl
      rwa [(hc.other y hy).resolve_left hl] at hl
  by_cases hin : r ∈ new
  · obtain ⟨q, hq, ho⟩ := hw r hin
    rw [hn] at ho
    cases ho
    rw [Object.finalNode, imageSlot_copyOf] at hi
    exact .inr ⟨q, _, (ht.mem_order hsl).mp hq, (ht.objectAt hq).1, hi⟩
  · have hr := hb.resolve_left hin
    rw [hc.kept r hr] at hn
    exact .inl ⟨r, n, hr, hn, hi⟩

variable {out : Except FaultCode Value} {freeze : ObjRef → Bool} {value : Value}

theorem CopyCases.keeps
    (ha : CopyCases src freeze value dst roots dst' out) : dst'.Slotted ∧ dst'.hostRoots = dst.hostRoots := by
  cases ha with
  | refused e hr hs hg => exact ⟨hs, hr.hostRoots⟩
  | immediate hv hd hs =>
    subst hd
    exact ⟨hs, rfl⟩
  | copied hv ht hl hx hc hg => exact ⟨hc.slotted, hc.hostRoots⟩

theorem CopyCases.shows (ha : CopyCases src freeze value dst roots dst' out) (hsl : src.Slotted)
    (ho : ∀ t ∈ tops, t ∈ roots ++ dst.hostRoots ∨ out = .ok (.obj t)) (hh : dst'.Shows tops s) :
    dst.Shows (roots ++ dst.hostRoots) s ∨ src.Shows value.asObj.toList s := by
  cases ha with
  | refused e hr hs hg =>
    refine .inl ?_
    obtain ⟨r, n, hu, hn, hm⟩ := hh
    have hi : ∀ y, dst'.node y ≠ none → dst.node y ≠ none := fun y hy => hr.live y hy ▸ hy
    have hb : False ∨ dst.Under (roots ++ dst.hostRoots) r := by
      refine hu.step_back (P := fun _ => False) (fun t ht hl => ?_) (fun y cs hp => hp.elim)
        (fun y hy _ => hr.kept y hy) fun y _ hl => hi y hl
      exact .inr ⟨reachable_root ((ho t ht).resolve_right nofun), hi t hl⟩
    have hr' := hb.resolve_left id
    exact ⟨r, n, hr', by rw [← hr.kept r hr', hn], hm⟩
  | immediate hv hd hs =>
    subst hd
    refine .inl (hh.mono fun t ht => (ho t ht).resolve_right ?_)
    intro he
    rw [Except.ok.inj he] at hv
    cases hv
  | copied hv ht hl hx hc hg =>
    rw [hv]
    refine hc.shows ht hsl (fun t hto => (ho t hto).imp_right fun he => ?_) hh
    cases he
    exact mem_of_getElem? hx

end Copy

section Compact

variable {c c' : Heap} {mapping : List (ObjRef × ObjRef)} {P : Object → Prop} {e : ObjRef × Bool × Object}

theorem tryAlloc_live {unique host : Bool} (ht : c.Tabled) (hm : c.objects.Numbered)
    (ha : c.tryAlloc o unique host = some (some x, c')) :
    c'.objects.live = ⟨Heap.headerOf o, o⟩ ::ₘ c.objects.live := by
  obtain hn | ⟨objects, r, c1, ho, ht1, ha1⟩ := tryAlloc_cases ht o unique host
  · rw [hn] at ha
    cases ha
  · rw [ht1] at ha
    cases ha
    have hl : objects.live = c.objects.live := by
      rcases ho with rfl | rfl
      · rfl
      · exact live_addPage _ _
    have hb : ({ c with objects } : Heap).Tabled := by
      rcases ho with rfl | rfl
      · exact ht
      · exact ⟨ht.objects.addPage, ht.views⟩
    have hm' : objects.Numbered := by
      rcases ho with rfl | rfl
      · exact hm
      · exact hm
    rw [(alloc_room hb ha1).1.live hm'.room, live_room, hl]

theorem compactOne_live (hc : c.Slotted) (hm : c.objects.Numbered)
    (hP : ∀ r o f, h.tryCloneObject r = some o → P (o.cloneRemapped f))
    (hold : ∀ e ∈ c.objects.live, P e.object) (hok : h.compactOne mapping c e = .ok c') :
    ∀ e ∈ c'.objects.live, P e.object := by
  obtain ⟨object, expected, g, c1, ho, -, ha, hs⟩ := compactOne_ok hok
  have hce := entry_eq_some.mp (tryAlloc_entry hc.tabled ha)
  have hi : (c1.objects.setGeneration expected.slot expected.generation).live = _ :=
    (live_setGeneration hce _).trans (tryAlloc_live hc.tabled hm ha)
  have hl : ∀ e ∈ (c1.objects.setGeneration expected.slot expected.generation).live, P e.object := by
    rw [hi]
    intro entry he
    rcases Multiset.mem_cons.mp he with rfl | he
    · exact hP e.1 _ _ ho
    · exact hold entry he
  rcases hs with rfl | hf
  · exact hl
  · obtain rfl | ⟨e', he', rfl⟩ := setFrozen_cases hf
    · exact hl
    · obtain ⟨rest, hr, ht⟩ := live_replace (entry_eq_some.mp he')
      intro e he
      rw [Heap.withEntry, ht] at he
      rw [hr] at hl
      rcases Multiset.mem_cons.mp he with rfl | he
      · exact hl e' (Multiset.mem_cons_self _ _)
      · exact hl e (Multiset.mem_cons_of_mem he)

/-- A compaction makes no object of a kind that the heap did not hold. -/
theorem compactLive_holds {host : Bool} {r : ObjRef} {n : Bool × Object} (hP : ∀ f o, P (o.cloneRemapped f) → P o)
    (hn : (h.compactLive roots host).2.node r = some n) (hi : P n.2) : ∃ r n, h.node r = some n ∧ P n.2 := by
  obtain ⟨_, he⟩ | ⟨_, c, hostRoots, hn', hf, -, -, -, he⟩ := compactLive_cases h roots host
  · rw [he] at hn
    exact ⟨r, n, hn, hi⟩
  · rw [he] at hn
    have hp := packed_compactLive hn' hf
    have ha := compacted_keeps (I := fun c => c.Slotted ∧ c.objects.Full ∧
        ∀ e ∈ c.objects.live, ∃ r n, h.node r = some n ∧ (P e.object → P n.2))
      (fun _ hc => hc.1.tabled)
      (fun c c' e hm hc hok => ⟨(hc.1.compactOne hc.2.1 hm hok).1, (hc.1.compactOne hc.2.1 hm hok).2,
        compactOne_live (P := fun o => ∃ r n, h.node r = some n ∧ (P o → P n.2)) hc.1 hm
          (fun r o f hl => by
            rw [tryCloneObject_eq] at hl
            obtain ⟨n, hn, rfl⟩ := map_eq_some_iff.mp hl
            exact ⟨r, n, hn, hP f n.2⟩) hc.2.2 hok⟩)
      ⟨slotted_new h.capBytes, full_empty, fun e he => by
        obtain ⟨slot, g, hce⟩ := mem_live.mp he
        cases hce⟩ hn' hf
    cases hr : TextViewTable.isReference r with
    | true =>
      have hv : c.textViews.get r = none := by
        rw [hp.views, get_eq]
        simp [TextViewTable.item, SlotTable.find]
      simp only [Heap.node, hr, if_true, Heap.setNextCollectionThreshold, hv] at hn
      cases hn
    | false =>
      obtain ⟨entry, ht, rfl⟩ := entry_of_node hr hn
      obtain ⟨r', n', hn', heq⟩ := ha.2.2 entry (mem_live.mpr ⟨_, _, entry_eq_some.mp ht⟩)
      exact ⟨r', n', hn', heq hi⟩

end Compact

end LoomV4
