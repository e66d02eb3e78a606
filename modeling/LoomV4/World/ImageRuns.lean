import LoomV4.World.Shown

namespace LoomV4.Vm

open Abi Proc Lib List Option Machine

namespace World

variable {ι : Type} {w w' w₁ w₂ : World ι} {vm : VmId} {m m' : Machine} {s : ℕ} {g : Grants} {fresh : Option ℕ}

/-- Every machine and every VM image is as it is between operations. -/
structure Formed (w : World ι) : Prop where
  machines : ∀ vm m, w.machine vm = some m → m.Formed
  images : ∀ image ∈ w.vmImages, image.heap.Slotted ∧ image.heap.hostRoots = []

/-- A snapshot value that a machine in use keeps, or a value slot of a live VM image, names the slot. -/
def Shows (w : World ι) (s : ℕ) : Prop :=
  (∃ vm m, w.machine vm = some m ∧ vm ∉ w.freeSlots ∧ m.Shows s) ∨
    ∃ image ∈ w.vmImages, image.live = true ∧ image.heap.Shows image.valueRoots s

/-- The table of admitted images is untouched, and what is shown was shown before or is fresh. -/
structure Moves (fresh : Option ℕ) (w w' : World ι) : Prop where
  formed : w'.Formed
  shows : ∀ s, w'.Shows s → w.Shows s ∨ fresh = some s
  images : w'.images = w.images
  imageFree : w'.imageFree = w.imageFree

theorem Formed.moves (h : w.Formed) : Moves fresh w w := ⟨h, fun _ => .inl, rfl, rfl⟩

theorem Moves.setMachine (h : Moves fresh w w₁) (hm : w₁.machine vm = some m) (hf : m'.Formed)
    (hs : ∀ s, vm ∉ w₁.freeSlots → m'.Shows s → w.Shows s ∨ fresh = some s) : Moves fresh w (w₁.setMachine vm m') := by
  refine ⟨⟨fun v n hv => ?_, h.formed.images⟩, fun s hh => ?_, h.images, h.imageFree⟩
  · rw [w₁.machine_setMachine hm] at hv
    split at hv
    · cases hv
      exact hf
    · exact h.formed.machines v n hv
  · rcases hh with ⟨v, n, hv, hr, hn⟩ | hi
    · rw [w₁.machine_setMachine hm] at hv
      split at hv
      · next he =>
        cases hv
        subst he
        exact hs s hr hn
      · exact h.shows s (.inl ⟨v, n, hv, hr, hn⟩)
    · exact h.shows s (.inr hi)

variable {record : VmImageRecord}

theorem Moves.setVmImage {i : ℕ} (h : Moves fresh w w₁) (hf : record.heap.Slotted ∧ record.heap.hostRoots = [])
    (hs : ∀ s, record.live = true → record.heap.Shows record.valueRoots s → w.Shows s ∨ fresh = some s) :
    Moves fresh w (w₁.setVmImage i record) := by
  refine ⟨⟨h.formed.machines, fun image hi => ?_⟩, fun s hh => ?_, h.images, h.imageFree⟩
  · rcases mem_or_eq_of_mem_set hi with hi | rfl
    · exact h.formed.images image hi
    · exact hf
  · rcases hh with hm | ⟨image, hi, hl, hh⟩
    · exact h.shows s (.inl hm)
    · rcases mem_or_eq_of_mem_set hi with hi | rfl
      · exact h.shows s (.inr ⟨image, hi, hl, hh⟩)
      · exact hs s hl hh

theorem executing_some (h : w.executing vm = some m) : w.machine vm = some m ∧ vm ∉ w.freeSlots := by
  unfold executing at h
  split at h
  · cases h
  · next hf => exact ⟨h, hf⟩

theorem shows_of_executing (h : w.executing vm = some m) (hs : m.Shows s) : w.Shows s :=
  .inl ⟨vm, m, (executing_some h).1, (executing_some h).2, hs⟩

variable {operand : ℕ} {r : ObjRef}

theorem mem_gcRoots_of_operand (h : m.vm.arenas.operands[operand]? = some (.obj r)) : r ∈ m.gcRoots [] := by
  refine mem_gcRoots.mpr (.inr (.inl ?_))
  refine mem_append_left _ (mem_filterMap.mpr ⟨.obj r, ?_, rfl⟩)
  exact mem_append_right _ (mem_of_getElem? h)

variable {value : Value}

theorem shows_operand (hm : w.executing vm = some m)
    (h : m.vm.arenas.operands[operand]? = some value) (hs : m.vm.heap.Shows value.asObj.toList s) : w.Shows s := by
  refine shows_of_executing hm (hs.mono fun r hr => ?_)
  cases value with
  | obj x =>
    obtain rfl := mem_singleton.mp hr
    exact mem_gcRoots_of_operand h
  | _ => cases hr

theorem copyImmediate_asObj {v : Value} (h : copyImmediate value = .ok v) : v = value := by
  cases value <;> cases h <;> rfl

theorem boundaryCopy_moves {src dst : VmId} {source : Machine} {out : Except FaultCode Value}
    (hw : w.Formed) (hsm : w.Small) (h : w.boundaryCopy g src dst value = some (out, w'))
    (hsr : w.executing src = some source)
    (hv : ∀ s, source.vm.heap.Shows value.asObj.toList s → w.Shows s) :
    ∃ (target : Machine) (heap : Heap), w'.machine dst = some { target with vm.heap := heap } ∧ w'.freeSlots = w.freeSlots ∧
      target.Formed ∧ heap.Slotted ∧ heap.hostRoots = [] ∧ Moves none w w' ∧ ∀ s tops, dst ∉ w.freeSlots →
        (∀ t ∈ tops, t ∈ target.gcRoots [] ∨ out = .ok (.obj t)) → heap.Shows tops s → w.Shows s := by
  have ho := (executing_some hsr).1
  unfold boundaryCopy at h
  rw [ho] at h
  cases hd : w.machine dst with
  | none =>
    rw [hd] at h
    cases h
  | some target =>
    simp only [hd] at h
    have hf := hw.machines dst target hd
    split at h
    · next hi =>
      obtain ⟨rfl, rfl⟩ := Prod.mk.inj (some.inj h)
      refine ⟨target, target.vm.heap, hd, rfl, hf, hf.slotted, hf.hostRoots, hw.moves, fun s tops hr hp hs => ?_⟩
      refine .inl ⟨dst, target, hd, hr, hs.mono fun t ht => (hp t ht).resolve_right fun he => ?_⟩
      rw [← copyImmediate_asObj he] at hi
      cases hi
    · obtain ⟨⟨out', heap⟩, hy, he⟩ := map_eq_some_iff.mp h
      obtain ⟨rfl, rfl⟩ := Prod.mk.inj he
      have hc : ∃ freeze, CopyCases source.vm.heap freeze value target.vm.heap (target.gcRoots []) heap out' := by
        split at hy
        · next ha =>
          subst ha
          rw [ho] at hd
          cases hd
          exact ⟨_, copyWithin_cases hf.slotted
            (fun root _ => (hsm.machines _ _ ho).roomFor (hsm.machines _ _ ho) root) hy⟩
        · exact ⟨_, copyValue_cases (hw.machines src source ho).slotted hf.slotted
            (fun root _ => (hsm.machines _ _ ho).roomFor (hsm.machines _ _ hd) root) hy⟩
      obtain ⟨freeze, hc⟩ := hc
      have hl := (hw.machines src source ho).slotted
      have hb : ∀ s tops, dst ∉ w.freeSlots → (∀ t ∈ tops, t ∈ target.gcRoots [] ∨ out' = .ok (.obj t)) →
          heap.Shows tops s → w.Shows s := by
        intro s tops hr hp hs
        have hb := hc.shows hl (fun t ht => ?_) hs
        · rw [hf.hostRoots, append_nil] at hb
          exact hb.elim (fun hs => .inl ⟨dst, target, hd, hr, hs⟩) (hv s)
        · rw [hf.hostRoots, append_nil]
          exact hp t ht
      obtain ⟨hl', hro⟩ := hc.keeps
      rw [hf.hostRoots] at hro
      refine ⟨target, heap, by rw [w.machine_setMachine hd, if_pos rfl], rfl, hf, hl', hro, ?_, hb⟩
      refine hw.moves.setMachine hd (hf.withHeap hl' hro) fun s hr hs => .inl ?_
      exact hb s _ hr (fun t ht => .inl ht) hs

def fixedRoots (m : Machine) : List ObjRef :=
  m.callbackRoots ++ m.pendingRoots ++ m.waitRoots ++ m.terminalRoots ++ m.startBody.toList ++
    m.pendingRegexCompile.toList ++ rootsOf m.vm.literals

theorem mem_otherRoots : r ∈ m.otherRoots ↔ r ∈ fixedRoots m ∨ r ∈ rootsOf m.vm.mailbox.queue ∨ r ∈ m.mockRoots := by
  simp only [otherRoots, fixedRoots, mem_append]
  tauto

theorem mem_gcRoots_queue {moved : Value}
    (h : r ∈ ({ m with vm.mailbox.queue := m.vm.mailbox.queue ++ [moved] } : Machine).gcRoots []) :
    r ∈ m.gcRoots [] ∨ moved = .obj r := by
  have hq : r ∈ rootsOf (m.vm.mailbox.queue ++ [moved]) → r ∈ rootsOf m.vm.mailbox.queue ∨ moved = .obj r := by
    simp only [rootsOf, filterMap_append, mem_append]
    refine Or.imp_right fun hr => ?_
    cases moved <;> simp_all [Value.asObj]
  rw [mem_gcRoots, mem_otherRoots] at h ⊢
  rcases h with h | h | (h | h | h) | h
  · exact .inl (.inl h)
  · exact .inl (.inr (.inl h))
  · exact .inl (.inr (.inr (.inl (.inl h))))
  · exact (hq h).imp_left fun h => .inr (.inr (.inl (.inr (.inl h))))
  · exact .inl (.inr (.inr (.inl (.inr (.inr h)))))
  · cases h

variable {table : PolicyTable}

theorem mem_gcRoots_table (h : r ∈ ({ m with table } : Machine).gcRoots []) :
    r ∈ m.gcRoots [] ∨ Action.mock r ∈ table.actions := by
  rw [mem_gcRoots, mem_otherRoots] at h ⊢
  rcases h with h | h | (h | h | h) | h
  · exact .inl (.inl h)
  · exact .inl (.inr (.inl h))
  · exact .inl (.inr (.inr (.inl (.inl h))))
  · exact .inl (.inr (.inr (.inl (.inr (.inl h)))))
  · obtain ⟨action, ha, he⟩ := mem_filterMap.mp h
    cases action with
    | mock x =>
      cases he
      exact .inr ha
    | _ => cases he
  · cases h

theorem mem_gcRoots_of_mock (h : Action.mock r ∈ m.table.actions) : r ∈ m.gcRoots [] := by
  refine mem_gcRoots.mpr (.inr (.inr (.inl (mem_otherRoots.mpr (.inr (.inr ?_))))))
  exact mem_filterMap.mpr ⟨.mock r, h, rfl⟩

variable {slot : ℕ}

theorem mem_policySet {entries entries' : List (Option Action)} {limit : ℕ} {entry : Option Action} {a : Action}
    (h : PolicyTable.set entries limit slot entry = some entries') (ha : some a ∈ entries') :
    some a ∈ entries ∨ entry = some a := by
  unfold PolicyTable.set at h
  split at h
  · cases h
  · have hm : some a ∈ (if entry.isSome = true ∧ entries.length ≤ slot
        then entries ++ List.replicate (slot + 1 - entries.length) none else entries) → some a ∈ entries := by
      split <;> simp
    generalize (if entry.isSome = true ∧ entries.length ≤ slot
      then entries ++ List.replicate (slot + 1 - entries.length) none else entries) = grown at h hm
    dsimp only at h
    split at h
    · cases h
      have hs := ( rdropWhile_prefix _ _).sublist.subset ha
      rcases mem_or_eq_of_mem_set hs with hin | he
      · exact .inl (hm hin)
      · exact .inr he.symm
    · cases h
      exact .inl (hm ha)

theorem mem_actions {a : Action} :
    a ∈ table.actions ↔ some a ∈ table.exact ∨ some a ∈ table.group := by
  simp [PolicyTable.actions]

theorem sendValue_moves {src dst : VmId} (hw : w.Formed) (hsm : w.Small) (h : w.sendValue g src dst operand = some w') :
    Moves none w w' := by
  unfold sendValue at h
  split at h
  · cases h
  · next value hv =>
    obtain ⟨source, hr, hop⟩ := bind_eq_some_iff.mp hv
    have hh : ∀ s, source.vm.heap.Shows value.asObj.toList s → w.Shows s := fun s => shows_operand hr hop
    split at h
    · cases h
    · next hc =>
      cases h
      obtain ⟨_, _, -, -, -, -, -, hm, -⟩ := boundaryCopy_moves hw hsm hc hr hh
      exact hm
    · next moved w₁ hc =>
      obtain ⟨target, heap, hd, hfr, hf, hl, ho, hm, hb⟩ := boundaryCopy_moves hw hsm hc hr hh
      rw [hd, map_some] at h
      obtain rfl := some.inj h
      refine hm.setMachine hd ⟨hl, ho, hf.native⟩ fun s hn hs => .inl ?_
      refine hb s _ (hfr ▸ hn) (fun t ht => ?_) hs
      exact (mem_gcRoots_queue ht).imp_right fun he => by rw [he]

/-- What the entry that an edit stores can add to the roots of the table's machine. -/
def Stores (w w₁ : World ι) (target : VmId) (out : Except FaultCode (Option Action)) : Prop :=
  Moves none w w₁ ∧ ∀ entry, out = .ok entry → ∀ m, w₁.machine target = some m → target ∉ w₁.freeSlots → ∀ s tops,
    (∀ t ∈ tops, t ∈ m.gcRoots [] ∨ entry = some (.mock t)) → m.vm.heap.Shows tops s → w.Shows s

theorem Formed.stores (hw : w.Formed) {target : VmId} {entry : Option Action} (hno : ∀ t, entry ≠ some (.mock t)) :
    Stores w w target (.ok entry) := by
  refine ⟨hw.moves, fun entry' he m hm hfr s tops hp hs => .inl ⟨target, m, hm, hfr, ?_⟩⟩
  cases he
  exact hs.mono fun t ht => (hp t ht).resolve_right (hno t)

theorem editEntry_stores {target : VmId} {edit : TableEdit} {out : Except FaultCode (Option Action)} (hw : w.Formed)
    (hsm : w.Small) (he : w.editEntry g vm target edit = some (out, w₁)) : Stores w w₁ target out := by
  cases edit with
  | pass | block | clear =>
    cases he
    exact hw.stores nofun
  | mock operand =>
    unfold editEntry at he
    dsimp only at he
    split at he
    · cases he
    · next closure hc =>
      obtain ⟨source, hsr, hop⟩ := bind_eq_some_iff.mp hc
      obtain ⟨⟨copied, w₂⟩, hy, heq⟩ := map_eq_some_iff.mp he
      obtain ⟨rfl, rfl⟩ := Prod.mk.inj heq
      obtain ⟨record, heap, hds, hfr, hf, hsl, hro, ho, hb⟩ :=
        boundaryCopy_moves hw hsm hy hsr fun s => shows_operand hsr hop
      refine ⟨ho, fun entry hn m hm hnt s tops hp hs => ?_⟩
      dsimp only at hn hds hfr hy
      rw [hds] at hm
      cases hm
      refine hb s tops (hfr ▸ hnt) (fun t ht => (hp t ht).imp_right fun hk => ?_) hs
      subst hk
      cases copied with
      | error e => cases hn
      | ok v =>
        cases v <;> cases hn
        rfl

theorem handleTableEdit_moves {target : VmId} {edit : TableEdit} {exact : Bool} (hw : w.Formed) (hsm : w.Small)
    (h : w.handleTableEdit g vm target edit exact slot = some w') : Moves none w w' := by
  unfold handleTableEdit at h
  split at h
  · cases h
  · next hn =>
    cases h
    exact (editEntry_stores hw hsm hn).1
  · next entry w₁ hn =>
    obtain ⟨ho, hb⟩ := editEntry_stores hw hsm hn
    obtain ⟨m, hm, he⟩ := map_eq_some_iff.mp h
    have hf := ho.formed.machines target m hm
    have hl : ∀ table, (if exact then m.table.setExact g.opCount slot entry
        else m.table.setGroup g.groupCount slot entry) = some table →
        ∀ a ∈ table.actions, a ∈ m.table.actions ∨ entry = some a := by
      intro table ht a ha
      rw [mem_actions] at ha ⊢
      split at ht
      · obtain ⟨entries, hse, rfl⟩ := map_eq_some_iff.mp ht
        exact ha.elim (fun ha => (mem_policySet hse ha).imp_left .inl) fun ha => .inl (.inr ha)
      · obtain ⟨entries, hse, rfl⟩ := map_eq_some_iff.mp ht
        exact ha.elim (fun ha => .inl (.inl ha)) fun ha => (mem_policySet hse ha).imp_left .inr
    split at he
    · cases he
      exact ho
    · next table ht =>
      subst he
      refine ho.setMachine hm ⟨hf.slotted, hf.hostRoots, hf.native⟩ fun s hnt hs => .inl ?_
      refine hb entry rfl m hm hnt s _ (fun t hto => ?_) hs
      rcases mem_gcRoots_table hto with hr | hr
      · exact .inl hr
      · exact (hl table ht _ hr).imp_left mem_gcRoots_of_mock

theorem liveImage_some {key : VmImageKey} (h : w.liveImage key = some record) :
    w.vmImages[key.image]? = some record ∧ record.live = true := by
  unfold liveImage at h
  split at h
  · cases h
  · next image hi =>
    split at h
    · next hl =>
      cases h
      exact ⟨hi, hl.1⟩
    · cases h

theorem mem_valueRoots : r ∈ record.valueRoots ↔ ImageSlotTarget.value (.obj r) ∈ record.slots := by
  simp only [VmImageRecord.valueRoots, mem_filterMap]
  constructor
  · rintro ⟨target, ht, he⟩
    split at he
    · cases he
      exact ht
    · cases he
  · exact fun h => ⟨_, h, rfl⟩

theorem replaceValueSlot_moves {key : VmImageKey} {source : VmId} (hw : w.Formed) (hsm : w.Small)
    (h : w.replaceValueSlot g key slot source operand = some w') : Moves none w w' := by
  unfold replaceValueSlot at h
  split at h
  · next version value hn hu =>
    obtain ⟨m, hsr, hop⟩ := bind_eq_some_iff.mp hu
    have hm := (executing_some hsr).1
    -- The copy into the image heap, with the copied value as a root.
    have ha : ∀ out w₁, w.stageValueTarget g key source value = some (out, w₁) →
        ∃ (record : VmImageRecord) (heap : Heap), w₁ = w.setVmImage key.image { record with heap } ∧
          w.vmImages[key.image]? = some record ∧ heap.Slotted ∧ heap.hostRoots = [] ∧
          ∀ s tops, record.live = true → (∀ t ∈ tops, t ∈ record.valueRoots ∨ out = .ok (.obj t)) →
            heap.Shows tops s → w.Shows s := by
      intro out w₁ hs
      unfold stageValueTarget at hs
      rw [hm] at hs
      cases hr : w.vmImages[key.image]? with
      | none =>
        rw [hr] at hs
        cases hs
      | some record =>
        simp only [hr] at hs
        obtain ⟨⟨out', heap⟩, hp, he⟩ := map_eq_some_iff.mp hs
        obtain ⟨rfl, rfl⟩ := Prod.mk.inj he
        obtain ⟨hsl, ho⟩ := hw.images record (mem_of_getElem? hr)
        have hc := copyValue_cases (hw.machines source m hm).slotted hsl
          (fun root _ => (hsm.machines _ _ hm).roomFor (hsm.images record (mem_of_getElem? hr)) root) hp
        refine ⟨record, heap, rfl, rfl, hc.keeps.1, hc.keeps.2.trans ho, fun s tops hi hto hs => ?_⟩
        have hb := hc.shows (hw.machines source m hm).slotted (fun t ht => ?_) hs
        · rw [ho, append_nil] at hb
          exact hb.elim (fun hs => .inr ⟨record, mem_of_getElem? hr, hi, hs⟩) (shows_operand hsr hop)
        · rw [ho, append_nil]
          exact hto t ht
    split at h
    · cases h
    · next hs =>
      cases h
      obtain ⟨record, heap, rfl, hr, hsl, ho, hb⟩ := ha _ _ hs
      exact hw.moves.setVmImage ⟨hsl, ho⟩ fun s hi hs => .inl (hb s _ hi (fun t ht => .inl ht) hs)
    · next moved w₁ hs =>
      cases h
      obtain ⟨record, heap, rfl, hr, hsl, ho, hb⟩ := ha _ _ hs
      have hv : Moves none w (w.setVmImage key.image { record with heap }) :=
        hw.moves.setVmImage ⟨hsl, ho⟩ fun s hi hs => .inl (hb s _ hi (fun t ht => .inl ht) hs)
      unfold commitSlotTarget
      split
      · exact hv
      · next record' hi =>
        have hsa : record' = { record with heap } := by
          have hg := (liveImage_some hi).1
          have hlt : key.image < w.vmImages.length := by
            by_contra hge
            rw [getElem?_eq_none (not_lt.mp hge)] at hr
            cases hr
          rw [setVmImage, getElem?_set_self hlt] at hg
          exact (some.inj hg).symm
        subst hsa
        split
        · exact hv
        · refine hv.setVmImage ⟨hsl, ho⟩ (fun s hl hs => .inl (hb s _ hl (fun t ht => ?_) hs))
          rw [mem_valueRoots] at ht ⊢
          rcases mem_or_eq_of_mem_set ht with ht | ht
          · exact .inl ht
          · cases ht
            exact .inr rfl
  · cases h
    exact hw.moves

theorem loadValueSlot_moves (hw : w.Formed) (hsm : w.Small) (h : w.loadValueSlot g vm slot = some w') :
    Moves none w w' := by
  unfold loadValueSlot at h
  split at h
  · cases h
  · next m hx =>
    obtain ⟨hm, hfr⟩ := executing_some hx
    have hf := hw.machines vm m hm
    split at h
    · next record value hd =>
      obtain ⟨record', hi, ho⟩ := bind_eq_some_iff.mp hd
      obtain ⟨target, hta, he⟩ := map_eq_some_iff.mp ho
      cases he
      obtain ⟨key, -, hi⟩ := bind_eq_some_iff.mp hi
      obtain ⟨hge, hl⟩ := liveImage_some hi
      have hg := mem_of_getElem? hge
      split at h
      · next him =>
        cases h
        refine hw.moves.setMachine hm hf.push.1 fun s _ hs => .inl (shows_of_executing hx ?_)
        have hs' := hf.push.2 s hs
        rwa [him, toList_none, append_nil] at hs'
      · have hp : ∀ out heap, transfer g.unique g.held record.heap m.vm.heap (m.gcRoots []) value m.config.graph =
            some (out, heap) → heap.Slotted ∧ heap.hostRoots = [] ∧ ∀ s tops,
              (∀ t ∈ tops, t ∈ m.gcRoots [] ∨ out = .ok (.obj t)) → heap.Shows tops s → w.Shows s := by
          intro out heap hc
          have ha := copyValue_cases (hw.images record hg).1 hf.slotted
            (fun root _ => (hsm.images record hg).roomFor (hsm.machines vm m hm) root) hc
          refine ⟨ha.keeps.1, ha.keeps.2.trans hf.hostRoots, fun s tops hto hs => ?_⟩
          have hb := ha.shows (hw.images record hg).1 (fun t ht => ?_) hs
          · rw [hf.hostRoots, append_nil] at hb
            refine hb.elim (shows_of_executing hx) fun hs => .inr ⟨record, hg, hl, hs.mono fun t ht => ?_⟩
            rw [mem_valueRoots]
            cases value with
            | obj x =>
              obtain rfl := mem_singleton.mp ht
              exact mem_of_getElem? hta
            | _ => cases ht
          · rw [hf.hostRoots, append_nil]
            exact hto t ht
        split at h
        · cases h
        · next hc =>
          cases h
          obtain ⟨ho, hr, hb⟩ := hp _ _ hc
          exact hw.moves.setMachine hm (hf.withHeap ho hr) fun s _ hs => .inl (hb s _ (fun t ht => .inl ht) hs)
        · next moved heap hc =>
          cases h
          obtain ⟨ho, hr, hb⟩ := hp _ _ hc
          have hf' := hf.withHeap ho hr
          refine hw.moves.setMachine hm hf'.push.1 fun s _ hs => .inl (hb s _ (fun t ht => ?_) (hf'.push.2 s hs))
          refine (mem_append.mp ht).imp_right fun ht => ?_
          cases moved with
          | obj x =>
            obtain rfl := mem_singleton.mp ht
            rfl
          | _ => cases ht
    · cases h
      exact hw.moves

theorem internImage_shows {image : ι} : (w.internImage image).2.Shows s ↔ w.Shows s := by
  unfold internImage
  split <;> exact Iff.rfl

theorem Formed.internImage (h : w.Formed) (image : ι) : (w.internImage image).2.Formed := by
  unfold World.internImage
  split <;> exact ⟨h.machines, h.images⟩

theorem installSnapshot_moves {resultOk : UInt32} {image : ι} (hw : w.Formed)
    (h : w.installSnapshot g vm resultOk image = some (slot, w')) :
    slot = (w.internImage image).1 ∧ Moves (some (slot % 2 ^ 32)) (w.internImage image).2 w' := by
  unfold installSnapshot at h
  have hw1 := hw.internImage image
  generalize w.internImage image = interned at h hw1
  obtain ⟨slot', w₁⟩ := interned
  dsimp only at h hw1 ⊢
  split at h
  · cases h
  · next m hm =>
    have hf := hw1.machines vm m hm
    have hl : imageSlot (.nativeSnapshotRef (.ofNat slot')) = some (slot' % 2 ^ 32) := by
      simp [imageSlot]
    -- What an allocation over the references of the machine shows.
    have hh : ∀ s, vm ∉ w₁.freeSlots → m.vm.heap.Shows (m.gcRoots []) s ∨
        imageSlot (.nativeSnapshotRef (.ofNat slot')) = some s → w₁.Shows s ∨ some (slot' % 2 ^ 32) = some s := by
      intro s hr hs
      exact hs.imp (fun hs => .inl ⟨vm, m, hm, hr, hs⟩) fun he => hl.symm.trans he
    split at h
    · cases h
    · next m1 ha =>
      cases h
      obtain ⟨heap, -, hf1, ho, -⟩ := hf.alloc ha
      exact ⟨rfl, hw1.moves.setMachine hm hf1 fun s hr hs => hh s hr (ho s hs)⟩
    · next r m1 ha =>
      obtain ⟨heap, hm1, hf1, ho, hb⟩ := hf.alloc ha
      have hi : ∀ s, m1.vm.heap.Shows (m1.gcRoots (Object.inst resultOk [.obj r] 0).children) s →
          m.vm.heap.Shows (m.gcRoots []) s ∨ imageSlot (.nativeSnapshotRef (.ofNat slot')) = some s := by
        intro s hs
        rw [m1.gcRoots_append] at hs
        subst hm1
        exact hb r s rfl hs
      split at h
      · cases h
      · next m2 ha2 =>
        cases h
        obtain ⟨heap2, -, hf2, ho2, -⟩ := hf1.alloc ha2
        refine ⟨rfl, hw1.moves.setMachine hm hf2 fun s hr hs => hh s hr (hi s ?_)⟩
        exact (ho2 s hs).resolve_right nofun
      · next r2 m2 ha2 =>
        cases h
        obtain ⟨heap2, hm2, hf2, -, hb2⟩ := hf1.alloc ha2
        refine ⟨rfl, hw1.moves.setMachine hm hf2.push.1 fun s hr hs => hh s hr (hi s ?_)⟩
        have hs' := hf2.push.2 s hs
        subst hm2
        exact (hb2 r2 s rfl hs').resolve_right nofun

theorem collectGarbage_moves (hw : w.Formed) (hm : w.machine vm = some m) (h : m.collectGarbage = some m') :
    Moves none w (w.setMachine vm m') := by
  obtain ⟨heap, hc, rfl⟩ := map_eq_some_iff.mp h
  have hf := hw.machines vm m hm
  obtain ⟨hl, hr, hb⟩ := hf.collected hc
  refine hw.moves.setMachine hm (hf.withHeap hl hr) fun s he hs => .inl (.inl ⟨vm, m, hm, he, ?_⟩)
  obtain ⟨r, n, -, hn, hi⟩ := hs
  obtain ⟨hu, hn'⟩ := hb r n hn
  exact ⟨r, n, hu, hn', hi⟩

theorem Looked.moves (h : Looked w w₁) (hw : w.Formed) : Moves none w w₁ := by
  have he : ∀ v m1, w₁.machine v = some m1 → ∃ m0, w.machine v = some m0 ∧ m1.Formed ∧
      ∀ s, m1.Shows s → m0.Shows s := by
    intro v m1 hv
    obtain ⟨m0, hm0⟩ := h.resident v m1 hv
    have hf := hw.machines v m0 hm0
    refine ⟨m0, hm0, ?_⟩
    rcases h.records v m0 hm0 with hr | hr
    · rw [hr] at hv
      cases hv
      exact ⟨hf, fun _ => id⟩
    · rw [hr] at hv
      cases hv
      exact ⟨hf.materialize.1, fun _ => hf.materialize_shows⟩
  have hi : w₁.vmImages = w.vmImages := by rw [h.rest]
  have hfr : w₁.freeSlots = w.freeSlots := by rw [h.rest]; rfl
  refine ⟨⟨fun v m1 hv => ?_, hi ▸ hw.images⟩, fun s hs => .inl ?_, by rw [h.rest], by rw [h.rest]⟩
  · obtain ⟨-, -, hf, -⟩ := he v m1 hv
    exact hf
  · rcases hs with ⟨v, m1, hv, hn, hs⟩ | hs
    · obtain ⟨m0, hm0, -, hb⟩ := he v m1 hv
      exact .inl ⟨v, m0, hm0, hfr ▸ hn, hb s hs⟩
    · exact .inr (hi ▸ hs)

theorem formed_blank (config : VmConfig) (generation : ℕ) : (Machine.blank config generation).Formed :=
  ⟨Heap.slotted_new _, rfl, nofun⟩

theorem Sweeping.moves {marked seen freed : List VmId} (h : Sweeping w w₁ marked seen freed w₂)
    (hr : w₁ = { w with machines := w₁.machines }) (hw : w.Formed) : Moves none w w₂ := by
  have he : ∀ v m2, w₂.machine v = some m2 → m2.Formed ∧
      (v ∉ freed → ∃ m0, w.machine v = some m0 ∧ ∀ s, m2.Shows s → m0.Shows s) := by
    intro v m2 hv
    by_cases hin : v ∈ freed
    · obtain ⟨generation, m', hm', ht⟩ := h.blanks v hin
      rw [hv] at hm'
      cases hm'
      exact ⟨((formed_blank _ generation).settled ht).1, fun hn => absurd hin hn⟩
    · obtain ⟨m0, hm0⟩ := h.resident v m2 hv
      obtain ⟨m', hm', ht⟩ := h.records v m0 hm0 hin
      rw [hv] at hm'
      cases hm'
      have hf := hw.machines v m0 hm0
      exact ⟨(hf.settled ht).1, fun _ => ⟨m0, hm0, fun _ => hf.settled_shows ht⟩⟩
  have hvmFree : w₂.freeSlots = w.vmFree ++ freed ++ w.mockFree := by
    rw [freeSlots, h.vmFree, h.rest, hr]
  have hi : w₂.vmImages = w.vmImages := by rw [h.rest, hr]
  refine ⟨⟨fun v m2 hv => (he v m2 hv).1, hi ▸ hw.images⟩, fun s hs => .inl ?_, ?_, ?_⟩
  · rcases hs with ⟨v, m2, hv, ho, hs⟩ | hs
    · simp only [hvmFree, mem_append, not_or] at ho
      obtain ⟨m0, hm0, hb⟩ := (he v m2 hv).2 ho.1.2
      refine .inl ⟨v, m0, hm0, ?_, hb s hs⟩
      rw [freeSlots, mem_append, not_or]
      exact ⟨ho.1.1, ho.2⟩
    · exact .inr (hi ▸ hs)
  · rw [h.rest, hr]
  · rw [h.rest, hr]

theorem Moves.collectVmImages (h : Moves none w w₁) (hc : w₁.collectVmImages = some w₂) : Moves none w w₂ := by
  obtain ⟨hr, hp⟩ := collectVmImages_spec hc
  have hm : ∀ v, w₂.machine v = w₁.machine v := fun v => by rw [hr]; rfl
  have hf : w₂.freeSlots = w₁.freeSlots := by rw [hr]; rfl
  refine ⟨⟨fun v m hv => h.formed.machines v m (hm v ▸ hv), fun image hi => ?_⟩, fun s hs => h.shows s ?_, ?_, ?_⟩
  · obtain ⟨i, hg⟩ := getElem?_of_mem hi
    rcases hp i image hg with hold | ⟨-, hh⟩
    · exact h.formed.images image (mem_of_getElem? hold)
    · rw [hh]
      exact ⟨Heap.slotted_new _, rfl⟩
  · rcases hs with ⟨v, m, hv, hn, hs⟩ | ⟨image, hi, hl, hs⟩
    · exact .inl ⟨v, m, hm v ▸ hv, hf ▸ hn, hs⟩
    · obtain ⟨i, hg⟩ := getElem?_of_mem hi
      rcases hp i image hg with hold | ⟨hd, -⟩
      · exact .inr ⟨image, mem_of_getElem? hold, hl, hs⟩
      · rw [hl] at hd
        cases hd
  · rw [hr]
    exact h.images
  · rw [hr]
    exact h.imageFree

end World

end LoomV4.Vm
