import LoomV4.World.ImageRuns

namespace LoomV4.Vm

open Abi Proc Lib List Option

namespace World

variable {ι : Type} {w w' w₀ w₁ : World ι} {vm : VmId} {m m' : Machine} {s : ℕ} {g : Grants} {op : ImageOp ι}
  {made : ℕ → Option ι} {stored : Option (ℕ × ι)}

/-- The walk of the image pass finds every slot that is shown: the snapshot roots of a machine that it looks at lead
to the value. -/
def Walkable (w : World ι) : Prop :=
  ∀ s, w.Shows s → ∃ vm m, w.machine vm = some m ∧ vm ∉ w.freeSlots ∧ m.vm.state ≠ .empty ∧
    m.vm.heap.Shows m.snapshotRoots s

/-- The heaps leave slot numbers for what is copied, the numbers of images fit their width, and an image pass starts
where its walk finds every slot that is shown. -/
def Sees (g : Grants) (op : ImageOp ι) (w : World ι) : Prop :=
  w.Small ∧ match op with
  | .installSnapshot _ _ _ => w.imageFree ≠ [] ∨ w.images.length < 2 ^ 32
  | .collectImages => w.Walkable
  | .collectMachines => ∀ w₁, w.imagePass g.host = some w₁ → w₁.Walkable
  | _ => True

def recorded (stored : Option (ℕ × ι)) (made : ℕ → Option ι) : ℕ → Option ι :=
  match stored with
  | none => made
  | some (slot, image) => Function.update made slot (some image)

/-- The runs of a world. Between the operations guests run: they make no snapshot value but from one that is shown. -/
inductive Run (ok : Grants → ImageOp ι → World ι → Prop) (w₀ : World ι) : (ℕ → Option ι) → World ι → Prop
  | start : Run ok w₀ (fun _ => none) w₀
  | op {made : ℕ → Option ι} {stored : Option (ℕ × ι)} {w w' : World ι} (g : Grants) (op : ImageOp ι)
      (h : Run ok w₀ made w) (hok : ok g op w)
    (hs : w.imageStep g op = some (stored, w')) : Run ok w₀ (recorded stored made) w'
  | guest {made : ℕ → Option ι} {w w' : World ι} (h : Run ok w₀ made w) (hm : Moves none w w') : Run ok w₀ made w'

structure ImagesHeld (made : ℕ → Option ι) (w : World ι) : Prop where
  formed : w.Formed
  shown : ∀ s, w.Shows s → ∃ image, w.images[s]? = some (some image) ∧ made s = some image
  nodup : w.imageFree.Nodup
  free : ∀ s ∈ w.imageFree, w.images[s]? = some none
  bound : w.images.length ≤ 2 ^ 32

theorem ImagesHeld.moves (h : ImagesHeld made w) (hm : Moves none w w') : ImagesHeld made w' := by
  refine ⟨hm.formed, fun s hs => ?_, ?_, ?_, ?_⟩
  · rw [hm.images]
    exact h.shown s ((hm.shows s hs).resolve_right nofun)
  · rw [hm.imageFree]
    exact h.nodup
  · rw [hm.imageFree, hm.images]
    exact h.free
  · rw [hm.images]
    exact h.bound

theorem usedImages_mem {vms : List VmId} {used : List ℕ} (hw : w.Formed) (h : w.usedImages vms = some (some used))
    (hv : vm ∈ vms) (hm : w.machine vm = some m) (hfr : vm ∉ w.freeSlots) (ht : m.vm.state ≠ .empty)
    (hs : m.vm.heap.Shows m.snapshotRoots s) : s ∈ used := by
  induction vms generalizing used with
  | nil => cases hv
  | cons v vms ih =>
    unfold usedImages at h
    split at h
    · cases h
    · next m1 hm1 =>
      split at h
      · next hk =>
        rcases mem_cons.mp hv with rfl | hv
        · rw [hm] at hm1
          cases hm1
          exact (hk.elim hfr ht).elim
        · exact ih h hv
      · split at h
        · cases h
        · cases h
        · next found hf =>
          obtain ⟨rest, hre, he⟩ := map_eq_some_iff.mp h
          obtain ⟨used', rfl, rfl⟩ := map_eq_some_iff.mp he
          rcases mem_cons.mp hv with rfl | hv
          · refine mem_append_left _ ?_
            unfold imageReferences at hf
            rw [hm] at hf
            obtain ⟨walked, ha, hp⟩ := map_eq_some_iff.mp hf
            cases walked with
            | error e => cases hp
            | ok order =>
              cases hp
              obtain ⟨r, n, hu, hn, hi⟩ := hs
              refine mem_foldl_pushNew.mpr (.inr (mem_filterMap.mpr ⟨n.2, mem_filterMap.mpr ⟨r, ?_, ?_⟩, ?_⟩))
              · exact (mem_snapshotOrdinals (hw.machines vm m hm).slotted ha).mpr hu
              · rw [Heap.tryGet_eq]
                cases hr : TextViewTable.isReference r with
                | true =>
                  simp only [Heap.node, hr, if_true] at hn
                  obtain ⟨text, -, rfl⟩ := map_eq_some_iff.mp hn
                  cases hi
                | false =>
                  rw [hn]
                  rfl
              · obtain ⟨frozen, object⟩ := n
                cases object with
                | nativeSnapshotRef image => exact hi
                | _ => cases hi
          · exact mem_append_right _ (ih hre hv)

theorem ImagesHeld.collectImages (h : ImagesHeld made w) (hw : w.Walkable) (hc : w.collectImages = some w') :
    ImagesHeld made w' := by
  unfold World.collectImages at hc
  split at hc
  · cases hc
    exact h
  · obtain ⟨used, hu, he⟩ := map_eq_some_iff.mp hc
    cases used with
    | none =>
      cases he
      exact h
    | some used =>
      subst he
      have hg : ∀ s, (w.images.mapIdx fun slot image => if slot ∈ used then image else none)[s]? =
          (w.images[s]?).map (fun image => if s ∈ used then image else none) := fun s => getElem?_mapIdx
      refine ⟨⟨h.formed.machines, h.formed.images⟩, fun s hs => ?_, ?_, fun s hs => ?_, ?_⟩
      · obtain ⟨image, hi, ha⟩ := h.shown s hs
        obtain ⟨vm, m, hm, hr, ht, hh⟩ := hw s hs
        have hme := usedImages_mem h.formed hu (mem_range.mpr (w.machine_lt hm)) hm hr ht hh
        refine ⟨image, ?_, ha⟩
        rw [hg, hi, map_some, if_pos hme]
      · refine h.nodup.append (nodup_range.filter _) (fun s hs hf => ?_)
        have ho := (mem_filter.mp hf).2
        rw [h.free s hs] at ho
        cases ho
      · dsimp only
        rw [hg]
        rcases mem_append.mp hs with hs | hs
        · rw [h.free s hs]
          simp
        · obtain ⟨hlt, hn⟩ := mem_filter.mp hs
          rw [mem_range] at hlt
          simp only [Bool.and_eq_true, decide_eq_true_eq] at hn
          rw [getElem?_eq_getElem hlt, map_some, if_neg hn.2]
      · dsimp only
        rw [length_mapIdx]
        exact h.bound

theorem ImagesHeld.internImage (image : ι) (h : ImagesHeld made w)
    (ht : w.imageFree ≠ [] ∨ w.images.length < 2 ^ 32) :
    (w.internImage image).1 < 2 ^ 32 ∧ ¬w.Shows (w.internImage image).1 ∧
      ImagesHeld (Function.update made (w.internImage image).1 (some image)) (w.internImage image).2 ∧
      (w.internImage image).2.images[(w.internImage image).1]? = some (some image) := by
  have hf := h.formed.internImage image
  have hh : ∀ s, (w.internImage image).2.Shows s → w.Shows s := fun s => internImage_shows.mp
  have hlt : ∀ s x, w.images[s]? = some x → s < w.images.length := fun s x hs => lt_of_getElem? hs
  unfold World.internImage at hf hh ⊢
  split at hf
  · next slot hl =>
    simp only [hl] at hh ⊢
    have hme : slot ∈ w.imageFree := mem_of_getLast? hl
    have hsl := hlt slot _ (h.free slot hme)
    have hsp : w.imageFree = w.imageFree.dropLast ++ [slot] := (dropLast_append_getLast? slot hl).symm
    have hn := h.nodup
    rw [hsp] at hn
    have ho : ¬w.Shows slot := by
      intro hs
      obtain ⟨image', hi, -⟩ := h.shown slot hs
      rw [h.free slot hme] at hi
      cases hi
    refine ⟨lt_of_lt_of_le hsl h.bound, ho, ⟨hf, fun s hs => ?_, (nodup_append.mp hn).1, fun s hs => ?_, ?_⟩, ?_⟩
    · have hne : s ≠ slot := fun he => ho (he ▸ hh s hs)
      obtain ⟨image', hi, hm⟩ := h.shown s (hh s hs)
      exact ⟨image', by rw [getElem?_set_ne hne.symm, hi], by rw [Function.update_of_ne hne, hm]⟩
    · have hne : slot ≠ s := by
        rintro rfl
        exact (nodup_append.mp hn).2.2 slot hs slot (mem_singleton_self slot) rfl
      dsimp only
      rw [getElem?_set_ne hne]
      exact h.free s (mem_of_mem_dropLast hs)
    · dsimp only
      rw [length_set]
      exact h.bound
    · exact getElem?_set_self hsl
  · next hno =>
    simp only [hno] at hh ⊢
    have hp : w.imageFree = [] := getLast?_eq_none_iff.mp hno
    have ht' := ht.resolve_left fun hne => hne hp
    rw [Nat.mod_eq_of_lt ht']
    have ho : ¬w.Shows w.images.length := by
      intro hs
      obtain ⟨image', hi, -⟩ := h.shown _ hs
      exact absurd (hlt _ _ hi) (lt_irrefl _)
    refine ⟨ht', ho, ⟨hf, fun s hs => ?_, h.nodup, fun s hs => ?_, ?_⟩, ?_⟩
    · have hne : s ≠ w.images.length := fun he => ho (he ▸ hh s hs)
      obtain ⟨image', hi, hm⟩ := h.shown s (hh s hs)
      exact ⟨image', by rw [getElem?_append_left (hlt s _ hi), hi], by rw [Function.update_of_ne hne, hm]⟩
    · dsimp only at hs
      rw [hp] at hs
      cases hs
    · simp only [length_append, length_singleton]
      exact ht'
    · exact getElem?_concat_length

theorem ImagesHeld.installSnapshot {resultOk : UInt32} {image : ι} {slot : ℕ} (h : ImagesHeld made w)
    (hf : w.imageFree ≠ [] ∨ w.images.length < 2 ^ 32)
    (hs : w.installSnapshot g vm resultOk image = some (slot, w')) :
    ImagesHeld (Function.update made slot (some image)) w' ∧ ¬w.Shows slot := by
  obtain ⟨rfl, hm⟩ := installSnapshot_moves h.formed hs
  obtain ⟨hlt, hn, hh, hg⟩ := h.internImage image hf
  rw [Nat.mod_eq_of_lt hlt] at hm
  refine ⟨⟨hm.formed, fun s hs => ?_, ?_, ?_, ?_⟩, hn⟩
  · rw [hm.images]
    rcases hm.shows s hs with hs | he
    · exact hh.shown s hs
    · obtain rfl := some.inj he
      exact ⟨image, hg, Function.update_self _ _ _⟩
  · rw [hm.imageFree]
    exact hh.nodup
  · rw [hm.imageFree, hm.images]
    exact hh.free
  · rw [hm.images]
    exact hh.bound

theorem ImagesHeld.collectMachines {n : ℕ} (h : ImagesHeld made w)
    (hw : ∀ w₁, w.imagePass g.host = some w₁ → w₁.Walkable) (hc : w.collectMachines g.host = some (n, w')) :
    ImagesHeld made w' := by
  obtain hm | ⟨w2, w3, hp, hvm, hi⟩ := collectMachines_split hc
  · exact h.moves (hm.moves h.formed)
  · obtain ⟨marked, w₁, freed, hm, hs⟩ := swept_spec hp
    have ho := (hs.moves hm.rest h.formed).collectVmImages hvm
    refine (h.moves ho).collectImages (hw w3 ?_) hi
    rw [imagePass, hp, bind_some, hvm]

theorem ImagesHeld.step (h : ImagesHeld made w) (hok : w.Sees g op) (hs : w.imageStep g op = some (stored, w')) :
    ImagesHeld (recorded stored made) w' ∧ ∀ slot image, stored = some (slot, image) → ¬w.Shows slot := by
  obtain ⟨hsm, hok⟩ := hok
  cases op with
  | installSnapshot vm resultOk image =>
    obtain ⟨⟨slot, w₁⟩, hi, he⟩ := map_eq_some_iff.mp hs
    cases he
    obtain ⟨hh, hn⟩ := h.installSnapshot hok hi
    refine ⟨hh, fun slot' image' he => ?_⟩
    cases he
    exact hn
  | sendValue src dst operand =>
    obtain ⟨w₁, hop, he⟩ := map_eq_some_iff.mp hs
    cases he
    exact ⟨h.moves (sendValue_moves h.formed hsm hop), nofun⟩
  | handleTableEdit vm target edit exact slot =>
    obtain ⟨w₁, hop, he⟩ := map_eq_some_iff.mp hs
    cases he
    exact ⟨h.moves (handleTableEdit_moves h.formed hsm hop), nofun⟩
  | replaceValueSlot key slot source operand =>
    obtain ⟨w₁, hop, he⟩ := map_eq_some_iff.mp hs
    cases he
    exact ⟨h.moves (replaceValueSlot_moves h.formed hsm hop), nofun⟩
  | loadValueSlot vm slot =>
    obtain ⟨w₁, hop, he⟩ := map_eq_some_iff.mp hs
    cases he
    exact ⟨h.moves (loadValueSlot_moves h.formed hsm hop), nofun⟩
  | collectGarbage vm =>
    obtain ⟨m', hop, he⟩ := map_eq_some_iff.mp hs
    obtain ⟨m, hm, hc⟩ := bind_eq_some_iff.mp hop
    cases he
    exact ⟨h.moves (collectGarbage_moves h.formed hm hc), nofun⟩
  | collectMachines =>
    obtain ⟨⟨n, w₁⟩, hop, he⟩ := map_eq_some_iff.mp hs
    cases he
    exact ⟨h.collectMachines hok hop, nofun⟩
  | collectImages =>
    obtain ⟨w₁, hop, he⟩ := map_eq_some_iff.mp hs
    cases he
    exact ⟨h.collectImages hok hop, nofun⟩

structure Unshown (w : World ι) : Prop where
  formed : w.Formed
  shows : ∀ s, ¬w.Shows s
  images : w.images = []
  imageFree : w.imageFree = []

theorem Unshown.held (h : w.Unshown) : ImagesHeld (fun _ => none) w := by
  refine ⟨h.formed, fun s hs => absurd hs (h.shows s), ?_, ?_, ?_⟩
  · rw [h.imageFree]
    exact nodup_nil
  · rw [h.imageFree]
    exact fun s hs => absurd hs not_mem_nil
  · rw [h.images]
    exact Nat.zero_le _

theorem Run.held (h : Run Sees w₀ made w) (hw0 : w₀.Unshown) : ImagesHeld made w := by
  induction h with
  | start => exact hw0.held
  | op g op _ hok hs ih => exact (ih.step hok hs).1
  | guest _ hm ih => exact ih.moves hm

/-- Every slot that is shown holds the image that it was given, and no operation gives it another one. -/
theorem shown_slot_keeps_image (w₀ w : World ι) (made : ℕ → Option ι) (hw₀ : w₀.Unshown) (h : Run Sees w₀ made w) :
    (∀ s, w.Shows s → ∃ image, made s = some image ∧ w.imageAt s = some image) ∧
      ∀ g op slot image w', w.Sees g op → w.imageStep g op = some (some (slot, image), w') → ¬w.Shows slot := by
  have hheld := h.held hw₀
  refine ⟨fun s hs => ?_, fun g op slot image w' hok hstep => (hheld.step hok hstep).2 slot image rfl⟩
  obtain ⟨image, himage, hmade⟩ := hheld.shown s hs
  refine ⟨image, hmade, ?_⟩
  rw [imageAt, himage]
  rfl

section Mock

def freshPair : World ℕ :=
  { machines := [some { vm := { heap := .new 4096, state := .running }, config := ⟨smallLimits, 4096, 1, 100⟩, children := 1 },
      some { vm := { heap := .new 4096, state := .ready, parent := some 0 }, config := ⟨smallLimits, 4096, 1, 100⟩ }]
    config := ⟨smallLimits, 4096, 1, 100⟩ }

def pairGrants : Grants := ⟨fun _ => false, fun _ => true, true, 0, 1, 1⟩

theorem not_shows_new {cap : ℕ} {roots : List ObjRef} : ¬(Heap.new cap).Shows roots s := by
  rintro ⟨r, n, -, hn, -⟩
  cases hr : TextViewTable.isReference r with
  | true =>
    simp only [Heap.node, hr, if_true, Heap.get_eq] at hn
    simp [Heap.new, TextViewTable.item, SlotTable.find] at hn
  | false =>
    obtain ⟨e, he, -⟩ := Heap.entry_of_node hr hn
    cases he

theorem freshPair_unshown : freshPair.Unshown := by
  have ha : ∀ vm m, freshPair.machine vm = some m → m.vm.heap = .new 4096 ∧ m.native = none := by
    intro vm m hm
    have he := mem_of_getElem? (join_eq_some_iff.mp hm)
    simp only [freshPair, mem_cons, Option.some.injEq, not_mem_nil, or_false] at he
    rcases he with rfl | rfl <;> exact ⟨rfl, rfl⟩
  refine ⟨⟨fun vm m hm => ?_, nofun⟩, fun s hs => ?_, rfl, rfl⟩
  · obtain ⟨hh, ht⟩ := ha vm m hm
    refine ⟨?_, ?_, fun native hn => ?_⟩
    · rw [hh]
      exact Heap.slotted_new 4096
    · rw [hh]
      rfl
    · rw [ht] at hn
      cases hn
  · rcases hs with ⟨vm, m, hm, -, hs⟩ | ⟨image, hi, -⟩
    · rw [Machine.Shows, (ha vm m hm).1] at hs
      exact not_shows_new hs
    · cases hi

theorem walkable_of_all (h : w.machines.all (fun slot => slot.all fun m =>
      decide (m.vm.state ≠ .empty ∧ m.gcRoots [] = m.snapshotRoots)) = true)
    (hi : w.vmImages = []) : w.Walkable := by
  rintro s (⟨vm, m, hm, hfr, hs⟩ | ⟨image, hin, -⟩)
  · have hd := all_eq_true.mp h _ (mem_of_getElem? (join_eq_some_iff.mp hm))
    obtain ⟨ht, hr⟩ := of_decide_eq_true hd
    exact ⟨vm, m, hm, hfr, ht, hr ▸ hs⟩
  · exact absurd (hi ▸ hin) not_mem_nil

theorem guest_alloc {object : Object} {unique room : Bool} {r : ObjRef} (hw : w.Formed) (hm : w.machine vm = some m)
    (ha : m.alloc object unique = some (.ok r, m')) (hc : ∀ c ∈ object.children, c ∈ m.gcRoots [])
    (hi : imageSlot object = none) : Moves none w (w.setMachine vm (m'.push room (.obj r)).2) := by
  obtain ⟨heap, hm', hf, -, hb⟩ := (hw.machines vm m hm).alloc ha
  refine hw.moves.setMachine hm hf.push.1 fun s hr hs => .inl (.inl ⟨vm, m, hm, hr, ?_⟩)
  have hs' := hf.push.2 s hs
  subst hm'
  have hold := (hb r s rfl hs').resolve_right fun he => by rw [hi] at he; cases he
  refine hold.mono fun c hin => ?_
  rw [m.gcRoots_append] at hin
  exact (mem_append.mp hin).elim id (hc c)

theorem guest_drop (hw : w.Formed) (hm : w.machine vm = some m) :
    Moves none w (w.setMachine vm { m with vm.arenas.operands := [] }) := by
  have hf := hw.machines vm m hm
  refine hw.moves.setMachine hm ⟨hf.slotted, hf.hostRoots, hf.native⟩ fun s he hs => .inl (.inl ⟨vm, m, hm, he, ?_⟩)
  refine hs.mono fun r hr => ?_
  rw [Machine.mem_gcRoots] at hr ⊢
  refine hr.imp_right (Or.imp_left fun hr => ?_)
  simp only [Arenas.roots, Machine.rootsOf, append_nil, filterMap_append, mem_append] at hr ⊢
  exact hr.imp_left .inl

def snapped : World ℕ := ((freshPair.imageStep pairGrants (.installSnapshot 0 0 7)).map Prod.snd).getD freshPair

theorem snapped_step : freshPair.imageStep pairGrants (.installSnapshot 0 0 7) = some (some (0, 7), snapped) := by
  decide +kernel

theorem snapped_run : Run Sees freshPair (recorded (some (0, 7)) fun _ => none) snapped :=
  .op pairGrants (.installSnapshot 0 0 7) .start ⟨small_of_isSmall (by decide +kernel), .inr (by decide)⟩ snapped_step

theorem snapped_shows : ∃ m, snapped.machine 0 = some m ∧ ⟨1, 0⟩ ∈ m.gcRoots [] ∧ snapped.Shows 0 := by
  have hf : (snapped.machine 0).map (fun m => (m.gcRoots [], m.vm.heap.succ ⟨1, 0⟩, m.vm.heap.node ⟨0, 0⟩)) =
      some ([⟨1, 0⟩], some [⟨0, 0⟩], some (true, .nativeSnapshotRef 0)) := by
    decide +kernel
  obtain ⟨m, hm, he⟩ := map_eq_some_iff.mp hf
  simp only [Prod.mk.injEq] at he
  obtain ⟨hr, hs, hn⟩ := he
  have hme : ⟨1, 0⟩ ∈ m.gcRoots [] := hr ▸ mem_singleton_self _
  have hfr : 0 ∉ snapped.freeSlots := by decide +kernel
  refine ⟨m, hm, hme, .inl ⟨0, m, hm, hfr, ?_⟩⟩
  exact .of_child hme hs (.of_root (mem_singleton_self _) hn rfl)

def machineOr (w : World ι) (vm : VmId) : Machine := (w.machine vm).getD (.blank w.config 0)

def forgotten : World ℕ := snapped.setMachine 0 { snapped.machineOr 0 with vm.arenas.operands := [] }

def retaken : World ℕ := ((forgotten.imageStep pairGrants (.installSnapshot 0 0 8)).map Prod.snd).getD forgotten

def passed : World ℕ := ((retaken.imageStep pairGrants .collectImages).map Prod.snd).getD retaken

theorem passed_run :
    Run Sees freshPair (recorded none (recorded (some (1, 8)) (recorded (some (0, 7)) fun _ => none))) passed := by
  obtain ⟨m, hm, -⟩ := snapped_shows
  have hdrop : Moves none snapped forgotten := by
    have hf : forgotten = snapped.setMachine 0 { m with vm.arenas.operands := [] } := by
      rw [forgotten, machineOr, hm]
      rfl
    exact hf ▸ guest_drop (snapped_run.held freshPair_unshown).formed hm
  have htake : forgotten.imageStep pairGrants (.installSnapshot 0 0 8) = some (some (1, 8), retaken) := by decide +kernel
  have hpass : retaken.imageStep pairGrants .collectImages = some (none, passed) := by decide +kernel
  have hretaken := (snapped_run.guest hdrop).op pairGrants (.installSnapshot 0 0 8)
    ⟨small_of_isSmall (by decide +kernel), .inr (by decide +kernel)⟩ htake
  refine hretaken.op pairGrants .collectImages ⟨?_, ?_⟩ hpass
  · exact small_of_isSmall (by decide +kernel)
  · exact walkable_of_all (by decide +kernel) (by decide +kernel)

/-- A snapshot is dropped and a second one taken; the image pass clears the slot of the first. -/
theorem shown_slot_keeps_image_passed : passed.Shows 1 ∧ passed.imageAt 0 = none ∧
    ∃ image, recorded none (recorded (some (1, 8)) (recorded (some (0, 7)) fun _ => none)) 1 = some image ∧
      passed.imageAt 1 = some image := by
  have hf : (passed.machine 0).map (fun m => (m.gcRoots [], m.vm.heap.succ ⟨3, 0⟩, m.vm.heap.node ⟨2, 0⟩)) =
      some ([⟨3, 0⟩], some [⟨2, 0⟩], some (true, .nativeSnapshotRef 1)) := by
    decide +kernel
  obtain ⟨m, hm, he⟩ := map_eq_some_iff.mp hf
  simp only [Prod.mk.injEq] at he
  obtain ⟨hr, hs, hn⟩ := he
  have hfr : 0 ∉ passed.freeSlots := by decide +kernel
  have hshows : passed.Shows 1 :=
    .inl ⟨0, m, hm, hfr, .of_child (hr ▸ mem_singleton_self _) hs (.of_root (mem_singleton_self _) hn rfl)⟩
  exact ⟨hshows, by decide +kernel, (shown_slot_keeps_image _ _ _ freshPair_unshown passed_run).1 1 hshows⟩

def closed : World ℕ :=
  snapped.setMachine 0 ((((snapped.machineOr 0).alloc (.closure 0 [.obj ⟨1, 0⟩] 0) true).map Prod.snd).getD
    (snapped.machineOr 0) |>.push true (.obj ⟨2, 0⟩)).2

def mocked : World ℕ := (closed.handleTableEdit pairGrants 0 1 (.mock 1) true 0).getD closed

def dropped : World ℕ := mocked.setMachine 0 { mocked.machineOr 0 with vm.arenas.operands := [] }

def cleared : World ℕ := ((dropped.imageStep pairGrants .collectImages).map Prod.snd).getD dropped

theorem closed_moves : Moves none snapped closed := by
  obtain ⟨m, hm, hr, -⟩ := snapped_shows
  have hf : ((snapped.machine 0).bind fun m => m.alloc (.closure 0 [.obj ⟨1, 0⟩] 0) true).map
      (fun x => x.1.toOption) = some (some ⟨2, 0⟩) := by
    decide +kernel
  obtain ⟨⟨out, m'⟩, ha, ho⟩ := map_eq_some_iff.mp hf
  rw [hm, bind_some] at ha
  cases out with
  | error e => cases ho
  | ok r =>
    cases ho
    have hl : closed = snapped.setMachine 0 (m'.push true (.obj ⟨2, 0⟩)).2 := by
      rw [closed, machineOr, hm, getD_some, ha]
      rfl
    rw [hl]
    refine guest_alloc (snapped_run.held freshPair_unshown).formed hm ha (fun c hc => ?_) rfl
    rw [mem_singleton.mp hc]
    exact hr

/-- The walk of the image pass leaves out the policy table. -/
theorem cleared_slot_in_mock : ∃ (made : ℕ → Option ℕ) (w w' : World ℕ), freshPair.Unshown ∧
    Run (fun _ _ _ => True) freshPair made w ∧ w.Shows 0 ∧ made 0 = some 7 ∧ w.imageAt 0 = none ∧
    w.imageStep pairGrants (.installSnapshot 0 0 8) = some (some (0, 8), w') ∧ w'.imageAt 0 = some 8 := by
  have hop : closed.handleTableEdit pairGrants 0 1 (.mock 1) true 0 = some mocked := by decide +kernel
  have hedit : closed.imageStep pairGrants (.handleTableEdit 0 1 (.mock 1) true 0) = some (none, mocked) := by
    rw [imageStep, hop, map_some]
  have hcollect : dropped.imageStep pairGrants .collectImages = some (none, cleared) := by
    decide +kernel
  have hmocked : ∃ m, mocked.machine 0 = some m := by
    have hsome : (mocked.machine 0).isSome = true := by decide +kernel
    exact isSome_iff_exists.mp hsome
  obtain ⟨m, hm⟩ := hmocked
  have hsmall : closed.Small := small_of_isSmall (by decide +kernel)
  have hmoves : Moves none closed mocked := handleTableEdit_moves closed_moves.formed hsmall hop
  have hdropped : dropped = mocked.setMachine 0 { m with vm.arenas.operands := [] } := by
    rw [dropped, machineOr, hm]
    rfl
  have hdrop : Moves none mocked dropped := hdropped ▸ guest_drop hmoves.formed hm
  have hsnapped : Run (fun _ _ _ => True) freshPair _ snapped :=
    .op pairGrants (.installSnapshot 0 0 7) .start trivial snapped_step
  have hrun := (((hsnapped.guest closed_moves).op pairGrants _ trivial hedit).guest hdrop).op pairGrants _ trivial hcollect
  have hreuse : (cleared.imageStep pairGrants (.installSnapshot 0 0 8)).map (fun x => (x.1, x.2.imageAt 0)) =
      some (some (0, 8), some 8) := by
    decide +kernel
  obtain ⟨⟨stored, w'⟩, hstep, he⟩ := map_eq_some_iff.mp hreuse
  obtain ⟨rfl, himage⟩ := Prod.mk.inj he
  refine ⟨_, cleared, w', freshPair_unshown, hrun, ?_, rfl, by decide +kernel, hstep, himage⟩
  have hmock : (cleared.machine 1).map (fun m => (m.gcRoots [], m.vm.heap.succ ⟨0, 0⟩)) =
      some ([⟨0, 0⟩], some [⟨1, 0⟩]) := by
    decide +kernel
  have hvalue : (cleared.machine 1).map (fun m => (m.vm.heap.succ ⟨1, 0⟩, m.vm.heap.node ⟨2, 0⟩)) =
      some (some [⟨2, 0⟩], some (true, .nativeSnapshotRef 0)) := by
    decide +kernel
  obtain ⟨m₁, hm₁, he⟩ := map_eq_some_iff.mp hmock
  obtain ⟨hroots, hclosure⟩ := Prod.mk.inj he
  rw [hm₁, map_some, Option.some.injEq] at hvalue
  obtain ⟨hinst, hnode⟩ := Prod.mk.inj hvalue
  have hfree : 1 ∉ cleared.freeSlots := by decide +kernel
  refine .inl ⟨1, m₁, hm₁, hfree, ?_⟩
  rw [Machine.Shows, hroots]
  refine .of_child (mem_singleton_self _) hclosure (.of_child (mem_singleton_self _) hinst ?_)
  exact .of_root (mem_singleton_self _) hnode rfl

end Mock

end World

end LoomV4.Vm
