import LoomV4.World.Mail
import LoomV4.World.Shown

namespace LoomV4.Vm

open Abi Proc Lib List Option

namespace Machine

variable {m m' m₁ : Machine} {host : Bool} {r : ObjRef} {extra : List ObjRef}

def Running (m : Machine) : Prop := m.vm.state ≠ .done ∧ m.vm.state ≠ .faulted

structure Keeps (extra : List ObjRef) (m m' : Machine) : Prop where
  mailbox : m'.vm.mailbox = m.vm.mailbox
  nodes : ∀ r, m.vm.heap.Under (m.gcRoots extra) r → m'.vm.heap.node r = m.vm.heap.node r

/-- With `k` slots left, a machine that goes on running keeps its mailbox and what it holds. -/
def Calm (k : ℕ) (extra : List ObjRef) (m m' : Machine) : Prop :=
  m.Formed → m.vm.heap.Slack k → m.Running → m'.Formed ∧ (m'.Running → m.Keeps extra m')

/-- The machine takes at most one slot and changes nothing but its heap. -/
def Steady (k : ℕ) (extra : List ObjRef) (m m' : Machine) : Prop :=
  m.Formed → m.vm.heap.Slack (k + 1) →
    m'.Formed ∧ m.Keeps extra m' ∧ m'.vm.heap.Slack k ∧ ∃ heap, m' = { m with vm.heap := heap }

variable {k : ℕ}

theorem Keeps.refl (extra : List ObjRef) (m : Machine) : m.Keeps extra m := ⟨rfl, fun _ _ => rfl⟩

theorem Steady.refl (k : ℕ) (extra : List ObjRef) (m : Machine) : m.Steady k extra m := fun hf hk =>
  ⟨hf, .refl extra m, hk.mono (Nat.le_succ k), _, rfl⟩

theorem Keeps.grow {heap : Heap} (h1 : m.Keeps extra { m with vm.heap := heap })
    (h2 : ({ m with vm.heap := heap } : Machine).Keeps extra m') : m.Keeps extra m' := by
  refine ⟨h2.mailbox.trans h1.mailbox, fun r hr => ?_⟩
  have hr1 : heap.Under (({ m with vm.heap := heap } : Machine).gcRoots extra) r :=
    hr.of_kept h1.nodes fun _ hx => hx
  rw [h2.nodes r hr1, h1.nodes r hr]

theorem Steady.calm (h1 : m.Steady k extra m₁) (h2 : m₁.Calm k extra m') : m.Calm (k + 1) extra m' := by
  intro hf hl hr
  obtain ⟨hf1, hk1, hl1, heap, rfl⟩ := h1 hf hl
  obtain ⟨hf', hk⟩ := h2 hf1 hl1 hr
  exact ⟨hf', fun hr' => hk1.grow (hk hr')⟩

theorem queue_mem_gcRoots (h : r ∈ rootsOf m.vm.mailbox.queue) : r ∈ m.gcRoots extra := by
  refine mem_gcRoots.mpr (.inr (.inr (.inl ?_)))
  simp only [otherRoots, mem_append]
  tauto

theorem state_compactTerminalProc (h : m.compactTerminalProc host = some m') : m'.vm.state = m.vm.state := by
  unfold compactTerminalProc at h
  split at h
  · cases h
    rfl
  · split at h
    · cases h
    · split at h
      · cases h
        rfl
      · split at h
        · split at h <;> (cases h; rfl)
        · cases h
          rfl

variable {trace : List FaultSite} {code : FaultCode} {message : String}

theorem setFault_stops {op : Option ℕ}
    (h : m.setFault host trace code message op = some m') : (m.Formed → m'.Formed) ∧ ¬m'.Running := by
  have key : ∀ m₁ : Machine, (m.Formed → m₁.Formed) → m₁.vm.state = .faulted →
      m₁.compactTerminalProc host = some m' → (m.Formed → m'.Formed) ∧ ¬m'.Running := by
    intro m₁ hf hs hc
    exact ⟨fun hm => ((hf hm).compactTerminalProc hc).1, fun hr => hr.2 ((state_compactTerminalProc hc).trans hs)⟩
  unfold setFault at h
  split at h
  all_goals
    next m₁ ha =>
    refine key _ (fun hm => ?_) rfl h
    have hf := hm.materialize.1
    rw [ha] at hf
    exact ⟨hf.slotted, hf.hostRoots, hf.native⟩

theorem calm_setFault {op : Option ℕ} (h : m.setFault host trace code message op = some m') : m.Calm k extra m' := by
  obtain ⟨hf, hs⟩ := setFault_stops h
  exact fun hm _ _ => ⟨hf hm, fun hr => absurd hr hs⟩

variable {object : Object} {unique : Bool}

theorem alloc_kept {out : Except FaultCode ObjRef} (hm : m.Formed) (hslack : m.vm.heap.Slack (k + 1))
    (h : m.alloc object unique = some (out, m')) : ∃ heap, m' = { m with vm.heap := heap } ∧ m'.Formed ∧
      (∀ r, m.vm.heap.Under (m.gcRoots object.children) r → heap.node r = m.vm.heap.node r) ∧ heap.Slack k := by
  obtain ⟨heap, rfl, hf, -⟩ := hm.alloc h
  refine ⟨heap, rfl, hf, ?_⟩
  have ho : ∀ ok h1, m.allocRoom object unique = some (ok, h1) → h1.Slotted ∧ h1.Slack (k + 1) ∧
      ∀ r, m.vm.heap.Under (m.gcRoots object.children) r → h1.node r = m.vm.heap.node r := by
    intro ok h1 hr
    unfold allocRoom at hr
    split at hr
    · obtain ⟨h2, hco, he⟩ := map_eq_some_iff.mp hr
      cases he
      have hc := collect_collected hm.slotted hco
      obtain ⟨n, hn, hle⟩ := hslack
      exact ⟨hc.slotted, ⟨n, hc.within n hn, hle⟩, fun r hr => hc.kept r (hr.mono fun _ hx => mem_append_left _ hx)⟩
    · cases hr
      exact ⟨hm.slotted, hslack, fun _ _ => rfl⟩
  unfold alloc at h
  split at h
  · cases h
  · next h1 hr =>
    simp only [Option.some.injEq, Prod.mk.injEq] at h
    obtain ⟨rfl, he⟩ := h
    have hh : h1 = heap := congrArg (fun m : Machine => m.vm.heap) he
    subst hh
    exact ⟨(ho _ _ hr).2.2, (ho _ _ hr).2.1.mono (Nat.le_succ k)⟩
  · next h1 hr =>
    obtain ⟨x, hx, he⟩ := map_eq_some_iff.mp h
    simp only [Prod.mk.injEq] at he
    obtain ⟨rfl, he⟩ := he
    have hh : x.2 = heap := congrArg (fun m : Machine => m.vm.heap) he
    subst hh
    obtain ⟨hl, hsl, hk⟩ := ho _ _ hr
    replace hx : h1.alloc object = some (x.1, x.2) := hx
    refine ⟨fun r hr => ?_, hsl.alloc hl.tabled hx⟩
    rw [Heap.node_alloc hl hx, if_neg, hk r hr]
    rintro rfl
    have hs := Heap.node_alloc_fresh hl hsl.numbered hx
    rw [hk _ hr] at hs
    exact hr.2 hs

theorem steady_alloc {out : Except FaultCode ObjRef}
    (he : ∀ r ∈ extra, r ∈ object.children) (h : m.alloc object unique = some (out, m')) : m.Steady k extra m' := by
  intro hm hslack
  obtain ⟨heap, rfl, hf, hk, hl⟩ := alloc_kept hm hslack h
  refine ⟨hf, ⟨rfl, fun r hr => hk r (hr.mono fun x hx => ?_)⟩, hl, heap, rfl⟩
  rw [gcRoots_append, mem_append] at hx ⊢
  exact hx.imp_right (he x)

theorem push_keeps (room : Bool) (v : Value) (m : Machine) : (m.push room v).2.vm.mailbox = m.vm.mailbox ∧
    (m.push room v).2.vm.heap = m.vm.heap := by
  have ha : m.materialize.2.vm.mailbox = m.vm.mailbox ∧ m.materialize.2.vm.heap = m.vm.heap := by
    unfold materialize
    split
    · exact ⟨rfl, rfl⟩
    · split <;> exact ⟨rfl, rfl⟩
  unfold push
  split
  · next hm =>
    rw [hm] at ha
    exact ha
  · next hm =>
    rw [hm] at ha
    split <;> exact ha

theorem calm_installReply {e : MailEnv} {v : Value} {out : Except FaultCode Unit}
    (h : m.installReply e host v = some (out, m')) : m.Calm k extra m' := by
  unfold installReply at h
  split at h
  · obtain ⟨m₁, ha, he⟩ := map_eq_some_iff.mp h
    cases he
    exact calm_setFault ha
  · intro hm _ hr
    have hc : ({ m with vm.pending := none } : Machine).Formed := ⟨hm.slotted, hm.hostRoots, hm.native⟩
    have hf : (({ m with vm.pending := none } : Machine).push e.grants.room v).2.Formed := hc.push.1
    obtain ⟨hb, hh⟩ := push_keeps e.grants.room v { m with vm.pending := none }
    split at h
    · next m₁ hp =>
      rw [hp] at hf
      obtain ⟨m2, ha, he⟩ := map_eq_some_iff.mp h
      cases he
      obtain ⟨ho, hs⟩ := setFault_stops ha
      exact ⟨ho hf, fun hr => absurd hr hs⟩
    · next m₁ hp =>
      rw [hp] at hf hb hh
      cases h
      have hb : m₁.vm.mailbox = m.vm.mailbox := hb
      have hh : m₁.vm.heap = m.vm.heap := hh
      split
      · exact ⟨hf, fun _ => ⟨hb, fun r _ => by rw [hh]⟩⟩
      · exact ⟨⟨hf.slotted, hf.hostRoots, hf.native⟩, fun _ => ⟨hb, fun r _ => by rw [← hh]⟩⟩

end Machine

namespace World

variable {ι : Type} {w w' w₁ : World ι} {vm : VmId} {m m' : Machine} {e : MailEnv} {op : ℕ} {answer : Answer}
  {extra : List ObjRef} {k : ℕ}

structure At (step : Machine → Machine → Prop) (vm : VmId) (w w' : World ι) : Prop where
  others : ∀ q, q ≠ vm → w'.machine q = w.machine q
  own : ∀ m, w.machine vm = some m → ∃ m', w'.machine vm = some m' ∧ step m m'

variable {step : Machine → Machine → Prop}

theorem setMachine_edits (hm : w.machine vm = some m) : (w.setMachine vm m').machine vm = some m' ∧
    ∀ q, q ≠ vm → (w.setMachine vm m').machine q = w.machine q :=
  ⟨(w.machine_setMachine hm vm).trans (if_pos rfl), fun q hq => (w.machine_setMachine hm q).trans (if_neg hq)⟩

theorem At.set (hm : w.machine vm = some m) (h : step m m') : At step vm w (w.setMachine vm m') where
  others := (setMachine_edits hm).2
  own m₁ hm1 := by
    obtain rfl := mem_unique hm hm1
    exact ⟨m', (setMachine_edits hm).1, h⟩

theorem At.comp {step1 step2 : Machine → Machine → Prop} (h1 : At step1 vm w w₁) (h2 : At step2 vm w₁ w')
    (h : ∀ m m₁ m', step1 m m₁ → step2 m₁ m' → step m m') : At step vm w w' where
  others q hq := (h2.others q hq).trans (h1.others q hq)
  own m hm := by
    obtain ⟨m₁, hm1, hs1⟩ := h1.own m hm
    obtain ⟨m', hm', hs2⟩ := h2.own m₁ hm1
    exact ⟨m', hm', h m m₁ m' hs1 hs2⟩

theorem At.steady_calm (h1 : At (Machine.Steady k extra) vm w w₁) (h2 : At (Machine.Calm k extra) vm w₁ w') :
    At (Machine.Calm (k + 1) extra) vm w w' :=
  h1.comp h2 fun _ _ _ hs hc => hs.calm hc

theorem At.onMachine {α : Type} {f : Machine → Option (α × Machine)} {a : α}
    (h : w.onMachine vm f = some (a, w')) (hf : ∀ m m', f m = some (a, m') → step m m') : At step vm w w' := by
  obtain ⟨m, hm, h⟩ := bind_eq_some_iff.mp h
  obtain ⟨⟨a', m'⟩, hfm, he⟩ := map_eq_some_iff.mp h
  cases he
  exact .set hm (hf m m' hfm)

theorem steady_refl (k : ℕ) (extra : List ObjRef) (vm : VmId) (w : World ι) : At (Machine.Steady k extra) vm w w where
  others _ _ := rfl
  own m hm := ⟨m, hm, .refl k extra m⟩

variable {built : Except FaultCode Value}

variable {cls : Option UInt32} {fields : List Value}

theorem makeInstance_steady (hx : ∀ r ∈ extra, r ∈ Machine.rootsOf fields)
    (h : w.makeInstance vm cls fields = some (built, w')) : At (Machine.Steady k extra) vm w w' := by
  unfold makeInstance at h
  split at h
  · cases h
    exact steady_refl k extra vm w
  · refine .onMachine h fun m m' hf => ?_
    obtain ⟨⟨out, m₁⟩, ha, he⟩ := map_eq_some_iff.mp hf
    cases he
    refine Machine.steady_alloc ?_ ha
    exact hx

variable {code : FaultCode} {message : String}

theorem makeFault_steady (h : w.makeFault e vm code message = some (built, w')) : At (Machine.Steady k []) vm w w' := by
  refine .onMachine h fun m m' hf => ?_
  obtain ⟨⟨out, m₁⟩, ha, he⟩ := map_eq_some_iff.mp hf
  cases he
  exact Machine.steady_alloc (fun _ hr => nomatch hr) ha

theorem faultCaller_calm (extra : List ObjRef) (h : w.faultCaller e vm op code message = some (answer, w')) :
    At (Machine.Calm k extra) vm w w' ∧ answer = .faulted code := by
  obtain ⟨m, hm, h⟩ := bind_eq_some_iff.mp h
  obtain ⟨⟨answer', m'⟩, hf, he⟩ := map_eq_some_iff.mp h
  obtain ⟨m₁, ha, he'⟩ := map_eq_some_iff.mp hf
  cases he'
  cases he
  exact ⟨.set hm (Machine.calm_setFault ha), rfl⟩

def Replies (arm : Arm) (answer : Answer) : Prop := answer = .answered arm ∨ ∃ code, answer = .faulted code

theorem replyOrFault_calm (extra : List ObjRef) {arm : Arm}
    (h : w.replyOrFault e vm op arm built = some (answer, w')) :
    At (Machine.Calm k extra) vm w w' ∧ Replies arm answer := by
  unfold replyOrFault at h
  split at h
  · obtain ⟨hc, rfl⟩ := faultCaller_calm extra h
    exact ⟨hc, .inr ⟨_, rfl⟩⟩
  · obtain ⟨m, hm, h⟩ := bind_eq_some_iff.mp h
    obtain ⟨⟨answer', m'⟩, hf, he⟩ := map_eq_some_iff.mp h
    obtain ⟨⟨out, m₁⟩, hr, he'⟩ := map_eq_some_iff.mp hf
    cases he'
    cases he
    refine ⟨.set hm (Machine.calm_installReply hr), ?_⟩
    cases out with
    | ok _ => exact .inl rfl
    | error code => exact .inr ⟨code, rfl⟩

theorem answerCase_calm (extra : List ObjRef) {arm : Arm} (he : ∀ r ∈ extra, r ∈ Machine.rootsOf fields)
    (h : w.answerCase e vm op arm cls fields = some (answer, w')) :
    At (Machine.Calm (k + 1) extra) vm w w' ∧ Replies arm answer := by
  obtain ⟨⟨built, w₁⟩, hm, hr⟩ := bind_eq_some_iff.mp h
  obtain ⟨hc, ha⟩ := replyOrFault_calm (k := k) extra hr
  exact ⟨(makeInstance_steady he hm).steady_calm hc, ha⟩

theorem answerDead_calm (h : w.answerDead e vm op = some (answer, w')) :
    At (Machine.Calm (k + 2) []) vm w w' ∧ Replies .fault answer := by
  obtain ⟨⟨built, w₁⟩, hm, h⟩ := bind_eq_some_iff.mp h
  cases built with
  | error code =>
    obtain ⟨hc, rfl⟩ := faultCaller_calm (k := k + 1) [] h
    exact ⟨(makeFault_steady hm).steady_calm hc, .inr ⟨_, rfl⟩⟩
  | ok fault =>
    obtain ⟨hc, ha⟩ := answerCase_calm (k := k) [] (fun _ hr => nomatch hr) h
    exact ⟨(makeFault_steady hm).steady_calm hc, ha⟩

theorem blockMachine_calm {block : Block} (h : w.blockMachine vm block = some (answer, w')) :
    At (Machine.Calm k extra) vm w w' ∧ answer = .blocked := by
  obtain ⟨m, hm, h⟩ := bind_eq_some_iff.mp h
  cases h
  exact ⟨.set hm fun hf _ _ => ⟨⟨hf.slotted, hf.hostRoots, hf.native⟩, fun _ => ⟨rfl, fun _ _ => rfl⟩⟩, rfl⟩

def Settled (w : World ι) : Prop := ∀ vm m, w.machine vm = some m → m.Formed

variable {value : Value} {out : Except FaultCode Value}

theorem copyCases_kept {src dst dst' : Heap} {roots : List ObjRef}
    (h : CopyCases src (fun _ => false) value dst roots dst' out) : dst'.Slotted ∧ dst'.hostRoots = dst.hostRoots ∧
      ∀ y, dst.Under (roots ++ dst.hostRoots) y → dst'.node y = dst.node y := by
  cases h with
  | refused code hr hs => exact ⟨hs, hr.hostRoots, hr.kept⟩
  | immediate _ hd hs =>
    subst hd
    exact ⟨hs, rfl, fun _ _ => rfl⟩
  | copied _ _ _ _ hc => exact ⟨hc.slotted, hc.hostRoots, hc.kept⟩

theorem copyCases_slack {src dst dst' : Heap} {roots : List ObjRef}
    (h : CopyCases src (fun _ => false) value dst roots dst' out) (hs : src.Small) (hd : dst.Small) : dst'.Slack 16 := by
  cases h with
  | refused code _ _ hg => exact hg.slack hs hd
  | immediate _ he hsl =>
    subst he
    exact hd.slack hsl.tabled
  | copied _ _ _ _ _ hg => exact hg.slack hs hd

structure Crosses (value : Value) (source target : Machine) (heap : Heap) (out : Except FaultCode Value) : Prop where
  formed : ({ target with vm.heap := heap } : Machine).Formed
  keeps : target.Keeps [] { target with vm.heap := heap }
  slack : heap.Slack 16
  cases : CopyCases source.vm.heap (fun _ => false) value target.vm.heap (target.gcRoots []) heap out

theorem Crosses.of_cases {source target : Machine} {heap : Heap} (ht : target.Formed) (hss : source.vm.heap.Small)
    (hst : target.vm.heap.Small)
    (h : CopyCases source.vm.heap (fun _ => false) value target.vm.heap (target.gcRoots []) heap out) :
    Crosses value source target heap out := by
  obtain ⟨hs, ho, hk⟩ := copyCases_kept h
  exact ⟨ht.withHeap hs (ho.trans ht.hostRoots),
    ⟨rfl, fun r hr => hk r (hr.mono fun x hx => mem_append_left _ hx)⟩, copyCases_slack h hss hst, h⟩

theorem boundaryCopy_crosses {g : Grants} {src dst : VmId} (hw : w.Settled) (hsm : w.Small)
    (h : w.boundaryCopy g src dst value = some (out, w')) :
    ∃ source target heap, w.machine src = some source ∧ w.machine dst = some target ∧
      Crosses value source target heap out ∧ w'.machine dst = some { target with vm.heap := heap } ∧
      ∀ q, q ≠ dst → w'.machine q = w.machine q := by
  unfold boundaryCopy at h
  split at h
  swap
  · cases h
  next source target hs ha =>
  have ht := hw dst target ha
  have hss := hsm.machines src source hs
  have hst := hsm.machines dst target ha
  refine ⟨source, target, ?_⟩
  split at h
  · next hv =>
    simp only [Option.some.injEq, Prod.mk.injEq] at h
    obtain ⟨ho, rfl⟩ := h
    refine ⟨target.vm.heap, hs, ha, .of_cases ht hss hst ?_, ha, fun _ _ => rfl⟩
    cases hc : copyImmediate value with
    | error code =>
      rw [← ho, hc]
      exact .refused code (.same _ _) ht.slotted (grownBy_nil ht.slotted)
    | ok v =>
      rw [← ho, hc, copyImmediate_eq hc]
      exact .immediate hv rfl ht.slotted
  · obtain ⟨⟨out', heap⟩, hc, he⟩ := map_eq_some_iff.mp h
    simp only [Prod.mk.injEq] at he
    obtain ⟨rfl, rfl⟩ := he
    refine ⟨heap, hs, ha, .of_cases ht hss hst ?_, setMachine_edits ha⟩
    split at hc
    · next heq =>
      subst heq
      obtain rfl := mem_unique hs ha
      exact copyWithin_cases ht.slotted (fun root _ => hss.roomFor hss root) hc
    · exact copyValue_cases (hw src source hs).slotted ht.slotted (fun root _ => hss.roomFor hst root) hc

end World

end LoomV4.Vm
