import LoomV4.World.MailCases

namespace LoomV4.Vm

open Abi Proc Lib List Option Machine

/-- The messages that one proc accepted and those that it was given, each with the heap of that moment. -/
structure MailLog where
  accepted : List (Value × Heap) := []
  delivered : List (Value × Heap) := []

inductive MailEvent
  | send (e : MailEnv) (vm : VmId) (op : ℕ) (handle message : Value)
  | close (e : MailEnv) (vm : VmId) (op : ℕ) (handle : Value)
  | receive (e : MailEnv) (op : ℕ)
  | waitReceive (e : MailEnv)
  | freeze (frozen : Bool)
  | barrier (barrier : Option ℕ)
  | other

/-- The same value, and the same objects under it. -/
def SameMessage (a b : Value × Heap) : Prop :=
  a.1 = b.1 ∧ ∀ r, b.2.Under b.1.asObj.toList r → a.2.node r = b.2.node r

def World.heapOf {ι : Type} (w : World ι) (vm : VmId) : Heap := ((w.machine vm).map fun m => m.vm.heap).getD (.new 0)

namespace MailLog

variable {ι : Type} (p : VmId) (w : World ι) (log : MailLog)

def accept : Option (VmId × Value) → MailLog
  | some (proc, v) => if proc = p then { log with accepted := log.accepted ++ [(v, w.heapOf p)] } else log
  | none => log

def deliver : Option Value → MailLog
  | some v => { log with delivered := log.delivered ++ [(v, w.heapOf p)] }
  | none => log

end MailLog

/-- What is queued is what was accepted and not yet delivered, and it is within the limit. -/
structure Orderly (m : Machine) (log : MailLog) : Prop where
  narrow : m.vm.mailbox.limit < 2 ^ 32
  bounded : m.vm.mailbox.queue.length ≤ m.vm.mailbox.limit
  order : ∃ done rest, log.accepted = done ++ rest ∧ List.Forall₂ SameMessage log.delivered done ∧
    List.Forall₂ (fun v b => SameMessage (v, m.vm.heap) b) m.vm.mailbox.queue rest

namespace Orderly

variable {m m' : Machine} {log : MailLog}

variable {queue : List Value}

theorem same_of_kept {rest : List (Value × Heap)} {roots : List ObjRef}
    (h : List.Forall₂ (fun v b => SameMessage (v, m.vm.heap) b) queue rest)
    (ho : ∀ v ∈ queue, ∀ r ∈ v.asObj.toList, r ∈ roots)
    (hn : ∀ r, m.vm.heap.Under roots r → m'.vm.heap.node r = m.vm.heap.node r) :
    List.Forall₂ (fun v b => SameMessage (v, m'.vm.heap) b) queue rest := by
  induction h with
  | nil => exact .nil
  | @cons v b queue rest hs _ ih =>
    refine .cons ⟨hs.1, fun r hr => ?_⟩ (ih fun x hx => ho x (mem_cons_of_mem _ hx))
    have hv : v = b.1 := hs.1
    have hu : m.vm.heap.Under v.asObj.toList r := hr.of_kept hs.2 fun x hx => by rwa [hv]
    rw [hn r (hu.mono (ho v mem_cons_self)), hs.2 r hr]

theorem toList_subset_queue : ∀ v ∈ queue, ∀ r ∈ v.asObj.toList, r ∈ rootsOf queue := by
  intro v hv r hr
  exact mem_filterMap.mpr ⟨v, hv, mem_toList.mp hr⟩

theorem keep (h : Orderly m log) (hq : m'.vm.mailbox.queue = m.vm.mailbox.queue)
    (hl : m'.vm.mailbox.limit = m.vm.mailbox.limit)
    (hn : ∀ r, m.vm.heap.Under (rootsOf m.vm.mailbox.queue) r →
      m'.vm.heap.node r = m.vm.heap.node r) : Orderly m' log := by
  obtain ⟨done, rest, ha, hd, hr⟩ := h.order
  refine ⟨hl ▸ h.narrow, ?_, done, rest, ha, hd, ?_⟩
  · rw [hq, hl]
    exact h.bounded
  · rw [hq]
    exact same_of_kept hr toList_subset_queue hn

theorem length_lt_of_accepts {b : Mailbox} (h : b.accepts = true) (hb : b.queue.length ≤ b.limit)
    (hl : b.limit < 2 ^ 32) : b.queue.length < b.limit := by
  simp only [Mailbox.accepts, Bool.and_eq_true, decide_eq_true_eq] at h
  rw [Nat.mod_eq_of_lt (by omega)] at h
  exact h.2

theorem accept (h : Orderly m log) {moved : Value} (hc : m.vm.mailbox.accepts = true)
    (hb : m'.vm.mailbox = m.vm.mailbox.push moved)
    (hn : ∀ r, m.vm.heap.Under (rootsOf m.vm.mailbox.queue) r → m'.vm.heap.node r = m.vm.heap.node r) :
    Orderly m' { log with accepted := log.accepted ++ [(moved, m'.vm.heap)] } := by
  obtain ⟨done, rest, ha, hd, hr⟩ := h.order
  have hlt := length_lt_of_accepts hc h.bounded h.narrow
  refine ⟨?_, ?_, done, rest ++ [(moved, m'.vm.heap)], ?_, hd, ?_⟩
  · rw [hb]
    exact h.narrow
  · rw [hb, Mailbox.push, length_append, length_singleton]
    exact hlt
  · rw [ha, append_assoc]
  · rw [hb]
    exact rel_append (same_of_kept hr toList_subset_queue hn) (.cons ⟨rfl, fun _ _ => rfl⟩ .nil)

theorem deliver (h : Orderly m log) {v : Value} (hq : m.vm.mailbox.queue = v :: queue)
    (ho : m'.vm.mailbox = { m.vm.mailbox with queue })
    (hn : ∀ r, m.vm.heap.Under (rootsOf m.vm.mailbox.queue) r → m'.vm.heap.node r = m.vm.heap.node r) :
    Orderly m' { log with delivered := log.delivered ++ [(v, m'.vm.heap)] } := by
  obtain ⟨done, rest, ha, hd, hr⟩ := h.order
  have hr' := same_of_kept hr toList_subset_queue hn
  have hb := h.bounded
  rw [hq] at hr' hb
  cases hr' with
  | @cons _ b _ rest hs hr' =>
    refine ⟨?_, ?_, done ++ [b], rest, ?_, rel_append hd (.cons hs .nil), ?_⟩
    · rw [ho]
      exact h.narrow
    · rw [ho]
      exact Nat.le_of_succ_le hb
    · rw [ha, append_assoc]
      rfl
    · rw [ho]
      exact hr'

end Orderly

namespace World

variable {ι : Type} {w w' w₁ w₂ : World ι} {vm proc p : VmId} {m m' : Machine} {e : MailEnv} {op : ℕ}
  {log log' : MailLog} {event : MailEvent}

/-- One event at the mailbox of `p`. A machine that performs an operation has not stopped, and the other steps leave
the mailbox and its messages alone. -/
def MailPerforms (p : VmId) (w : World ι) (log : MailLog) : MailEvent → World ι → MailLog → Prop
  | .send e vm op handle message, w', log' => (∃ m, w.machine vm = some m ∧ m.Running) ∧
    ∃ answer out, w.procSend e vm op handle message = some ((answer, out), w') ∧ log' = log.accept p w' out
  | .close e vm op handle, w', log' => (∃ m, w.machine vm = some m ∧ m.Running) ∧
    (∃ answer, w.procClose e vm op handle = some (answer, w')) ∧ log' = log
  | .receive e op, w', log' => (∃ m, w.machine p = some m ∧ m.Running) ∧
    ∃ answer taken, w.procRecv e p op = some ((answer, taken), w') ∧ log' = log.deliver p w' taken
  | .waitReceive e, w', log' => (∃ m, w.machine p = some m ∧ m.Running) ∧
    ∃ built taken, w.takeReceiveWaitValue e p = some ((built, taken), w') ∧ log' = log.deliver p w' taken
  | .freeze frozen, w', log' => w.freezeMailbox p frozen = some w' ∧ log' = log
  | .barrier barrier, w', log' => w.setBarrier p barrier = some w' ∧ log' = log
  | .other, w', log' => w'.Settled ∧ log' = log ∧ ∃ m m', w.machine p = some m ∧ w'.machine p = some m' ∧
    (m'.Running → m.Running ∧ m'.vm.mailbox = m.vm.mailbox ∧
      ∀ r, m.vm.heap.Under (rootsOf m.vm.mailbox.queue) r → m'.vm.heap.node r = m.vm.heap.node r)

structure MailKept (p : VmId) (w : World ι) (log : MailLog) : Prop where
  settled : w.Settled
  own : ∃ m, w.machine p = some m ∧ (m.Running → Orderly m log)

theorem heapOf_eq (hm : w.machine p = some m) : w.heapOf p = m.vm.heap := by
  rw [heapOf, hm]
  rfl

theorem Orderly.keeps {extra : List ObjRef} (h : Orderly m log) (hk : m.Keeps extra m') : Orderly m' log :=
  h.keep (by rw [hk.mailbox]) (by rw [hk.mailbox])
    fun r hr => hk.nodes r (hr.mono fun _ => queue_mem_gcRoots)

theorem MailKept.calm {extra : List ObjRef} (h : MailKept p w log) (hr : w.Roomy)
    (hc : At (Machine.Calm 2 extra) vm w w') (hvm : ∃ m, w.machine vm = some m ∧ m.Running) : MailKept p w' log := by
  obtain ⟨m, hm, ho⟩ := h.own
  obtain ⟨m', hm', hk⟩ := hc.frame h.settled hr hvm hm
  exact ⟨hc.settled h.settled hr hvm, m', hm', fun hr' => Orderly.keeps (ho (hk hr').1) (hk hr').2⟩

theorem MailKept.send {handle message : Value} {answer : Answer} {out : Option (VmId × Value)} (h : MailKept p w log)
    (hsm : w.Small) (hvm : ∃ m, w.machine vm = some m ∧ m.Running)
    (hs : w.procSend e vm op handle message = some ((answer, out), w')) :
    MailKept p w' (log.accept p w' out) := by
  have he := (procSend_cases hs).sends h.settled hsm hvm
  obtain ⟨m, hm, ho⟩ := h.own
  refine ⟨he.settled, ?_⟩
  cases out with
  | none =>
    obtain ⟨m', hm', hk⟩ := he.refused rfl p m hm
    exact ⟨m', hm', fun hu' => Orderly.keeps (ho (hk hu').1) (hk hu').2⟩
  | some out =>
    obtain ⟨proc, moved⟩ := out
    obtain ⟨source, target, heap, m', -, ht, hm', hu, ha, -, hd, hh⟩ :=
      he.accepted proc moved rfl
    by_cases hp : proc = p
    · subst hp
      obtain rfl := mem_unique hm ht
      refine ⟨m', hm', fun hu' => ?_⟩
      obtain ⟨hb, -, hn⟩ := hd hu'
      rw [MailLog.accept, if_pos rfl, heapOf_eq hm']
      exact (ho hu).accept ha hb fun r hr => hn r (hr.mono fun _ => queue_mem_gcRoots)
    · obtain ⟨m1, hm1, hk⟩ := hh p m (Ne.symm hp) hm
      refine ⟨m1, hm1, fun hu' => ?_⟩
      rw [MailLog.accept, if_neg hp]
      exact Orderly.keeps (ho (hk hu').1) (hk hu').2

theorem MailKept.edit (h : MailKept p w log) (hm : w.machine proc = some m) (hw : w₁.machine proc = some m')
    (ht : ∀ q, q ≠ proc → w₁.machine q = w.machine q) (hs : m'.vm.state = m.vm.state)
    (hh : m'.vm.heap = m.vm.heap) (hn : m'.native = m.native)
    (hu : m'.vm.mailbox.queue = m.vm.mailbox.queue) (hl : m'.vm.mailbox.limit = m.vm.mailbox.limit) :
    MailKept p w₁ log := by
  obtain ⟨own, hp, ho⟩ := h.own
  have hf := h.settled proc m hm
  refine ⟨h.settled.edit hw ⟨hh ▸ hf.slotted, hh ▸ hf.hostRoots, hn ▸ hf.native⟩ ht, ?_⟩
  by_cases hq : p = proc
  · subst hq
    obtain rfl := mem_unique hp hm
    exact ⟨m', hw, fun hr => (ho ⟨hs ▸ hr.1, hs ▸ hr.2⟩).keep hu hl
      fun r _ => by rw [hh]⟩
  · exact ⟨own, (ht p hq).trans hp, ho⟩

theorem MailKept.take {taken : Option Value} (h : MailKept p w log) (hro : w.Roomy)
    (hu : ∃ m, w.machine p = some m ∧ m.Running)
    (ht : TakeCases p w taken w') : MailKept p w' (log.deliver p w' taken) := by
  cases ht with
  | none hc => exact h.calm hro hc hu
  | @message v rest m w₁ _ hm hq hw hh hc =>
    obtain ⟨own, hp, ho⟩ := h.own
    obtain rfl := mem_unique hp hm
    obtain ⟨_, hm1, hu⟩ := hu
    obtain rfl := mem_unique hm hm1
    have hf := h.settled p own hm
    have hw1 : w₁.Settled := h.settled.edit hw ⟨hf.slotted, hf.hostRoots, hf.native⟩ hh
    have hro1 : w₁.Roomy := hro.edit hw (hro p own hm) hh
    obtain ⟨m', hm', he⟩ := hc.frame hw1 hro1 ⟨_, hw, hu⟩ hw
    refine ⟨hc.settled hw1 hro1 ⟨_, hw, hu⟩, m', hm', fun hu' => ?_⟩
    have hk := (he hu').2
    rw [MailLog.deliver, heapOf_eq hm']
    refine (ho hu).deliver hq hk.mailbox fun r hr => hk.nodes r (hr.mono fun x hx => ?_)
    rw [hq] at hx
    obtain ⟨y, hy, hyx⟩ := mem_filterMap.mp hx
    rcases mem_cons.mp hy with rfl | hy
    · exact mem_gcRoots.mpr (.inr (.inr (.inr (mem_toList.mpr hyx))))
    · exact queue_mem_gcRoots (mem_filterMap.mpr ⟨y, hy, hyx⟩)

theorem freezeMailbox_spec {frozen : Bool} (h : w.freezeMailbox p frozen = some w') :
    ∃ m, w.machine p = some m ∧ w'.machine p = some { m with vm.mailbox.frozen := frozen } ∧
      ∀ q, q ≠ p → w'.machine q = w.machine q := by
  unfold freezeMailbox at h
  split at h
  · cases h
  · next m hm =>
    obtain rfl := some.inj h
    refine ⟨m, hm, ?_⟩
    cases frozen <;> exact setMachine_edits hm

theorem setBarrier_spec {barrier : Option ℕ} (h : w.setBarrier p barrier = some w') :
    ∃ m, w.machine p = some m ∧ w'.machine p = some { m with barrier } ∧ ∀ q, q ≠ p → w'.machine q = w.machine q := by
  cases hm : w.machine p with
  | none => simp [setBarrier, hm] at h
  | some m =>
    simp only [setBarrier, hm] at h
    refine ⟨m, rfl, ?_⟩
    split at h <;> (obtain rfl := some.inj h; exact setMachine_edits hm)

theorem MailKept.step (h : MailKept p w log) (hsm : w.Small) (ht : w.MailPerforms p log event w' log') :
    MailKept p w' log' := by
  have hro := hsm.roomy h.settled
  cases event with
  | send e vm op handle message =>
    obtain ⟨hvm, answer, out, hs, rfl⟩ := ht
    exact h.send hsm hvm hs
  | close e vm op handle =>
    obtain ⟨⟨own, hvm, hu⟩, ⟨answer, hc⟩, rfl⟩ := ht
    cases procClose_cases hc with
    | refused ha => exact h.calm hro ha ⟨own, hvm, hu⟩
    | @closed proc m w₁ _ hm hn hw ho ha =>
      exact (h.edit hm hw ho rfl rfl rfl rfl rfl).calm (hro.edit hw (hro proc m hm) ho) ha
        (running_edit ⟨own, hvm, hu⟩ hw hn ho)
  | receive e op =>
    obtain ⟨hu, answer, taken, hr, rfl⟩ := ht
    exact h.take hro hu (procRecv_cases hr).1
  | waitReceive e =>
    obtain ⟨hu, built, taken, hr, rfl⟩ := ht
    exact h.take hro hu (takeReceiveWaitValue_cases hr).1
  | freeze frozen =>
    obtain ⟨hf, rfl⟩ := ht
    obtain ⟨m, hm, hw, ho⟩ := freezeMailbox_spec hf
    exact h.edit hm hw ho rfl rfl rfl rfl rfl
  | barrier barrier =>
    obtain ⟨hb, rfl⟩ := ht
    obtain ⟨m, hm, hw, ho⟩ := setBarrier_spec hb
    exact h.edit hm hw ho rfl rfl rfl rfl rfl
  | other =>
    obtain ⟨hw', rfl, m1, m', hm1, hm', hp⟩ := ht
    obtain ⟨m, hm, hd⟩ := h.own
    obtain rfl := mem_unique hm hm1
    refine ⟨hw', m', hm', fun hu' => ?_⟩
    obtain ⟨hu, hx, he⟩ := hp hu'
    exact (hd hu).keep (by rw [hx]) (by rw [hx]) he

/-- An event at the mailbox of `p`, with slot numbers left for what it copies and makes. -/
def MailStep (p : VmId) (s s' : World ι × MailLog) : Prop :=
  s.1.Small ∧ ∃ event, s.1.MailPerforms p s.2 event s'.1 s'.2

theorem MailKept.reached {s s' : World ι × MailLog} (h : MailKept p s.1 s.2)
    (hr : Relation.ReflTransGen (MailStep p) s s') : MailKept p s'.1 s'.2 := by
  induction hr with
  | refl => exact h
  | tail _ hs ih =>
    obtain ⟨hsm, event, hs⟩ := hs
    exact ih.step hsm hs

theorem Orderly.drained (h : Orderly m log) (he : m.vm.mailbox.queue = []) :
    List.Forall₂ SameMessage log.delivered log.accepted := by
  obtain ⟨done, rest, ha, hd, hr⟩ := h.order
  rw [he, forall₂_nil_left_iff] at hr
  rw [ha, hr, append_nil]
  exact hd

/-- The mailbox of a running proc is a bounded channel: what was delivered is a first part of what was accepted, what
is queued is the rest, and `Closed` is seen when there is no rest. -/
theorem mailbox_channel (p : VmId) {w₀ : World ι} {m₀ : Machine} (hsettled : w₀.Settled)
    (hm₀ : w₀.machine p = some m₀) (hempty : m₀.vm.mailbox.queue = []) (hlimit : m₀.vm.mailbox.limit < 2 ^ 32)
    (hrun : Relation.ReflTransGen (MailStep p) (w₀, {}) (w, log)) :
    (∀ m, w.machine p = some m → m.Running → Orderly m log) ∧
    (∀ e vm op handle message answer out w', w.Small → (∃ m, w.machine vm = some m ∧ m.Running) →
      w.procSend e vm op handle message = some ((answer, out), w') → Sends vm message w answer out w') ∧
    (∀ e op answer taken w', (∃ m, w.machine p = some m ∧ m.Running) →
      w.procRecv e p op = some ((answer, taken), w') → answer = .answered .drained →
      List.Forall₂ SameMessage log.delivered log.accepted) ∧
    ∀ e built taken w' v, (∃ m, w.machine p = some m ∧ m.Running) →
      w.takeReceiveWaitValue e p = some ((built, taken), w') → built = .ok v → taken = none →
      List.Forall₂ SameMessage log.delivered log.accepted := by
  have hstart : MailKept p w₀ {} := by
    refine ⟨hsettled, m₀, hm₀, fun _ => ⟨hlimit, ?_, [], [], rfl, .nil, ?_⟩⟩
    · rw [hempty]
      exact Nat.zero_le _
    · rw [hempty]
      exact .nil
  have hkept : MailKept p w log := MailKept.reached (s := (w₀, {})) hstart hrun
  obtain ⟨m, hm, horderly⟩ := hkept.own
  have hdrained : (∃ m, w.machine p = some m ∧ m.Running) →
      (∃ m, w.machine p = some m ∧ m.vm.mailbox.queue = [] ∧ m.vm.mailbox.closed = true) →
      Forall₂ SameMessage log.delivered log.accepted := by
    rintro ⟨m₁, hm₁, hrun⟩ ⟨m₂, hm₂, hqueue, -⟩
    obtain rfl := mem_unique hm hm₁
    obtain rfl := mem_unique hm hm₂
    exact Orderly.drained (horderly hrun) hqueue
  refine ⟨?_, ?_, ?_, ?_⟩
  · intro m₁ hm₁ hrun
    obtain rfl := mem_unique hm hm₁
    exact horderly hrun
  · intro e vm op handle message answer out w' hsmall hvm hs
    exact (procSend_cases hs).sends hkept.settled hsmall hvm
  · intro e op answer taken w' hp hr hanswer
    exact hdrained hp ((procRecv_cases hr).2 hanswer).2
  · intro e built taken w' v hp hr hbuilt htaken
    exact hdrained hp ((takeReceiveWaitValue_cases hr).2 htaken v hbuilt)

def mailEnv : MailEnv :=
  ⟨⟨fun _ => true, fun _ => true, true, 0, 0, 0⟩, ⟨some 1, some 2, some 3, some 4, some 5⟩, .ok (), []⟩

def senderHeap (capBytes : ℕ) : Heap := ((Heap.new capBytes).alloc (.nativeHandle 1 0)).elim (.new capBytes) Prod.snd

theorem senderHeap_slotted {capBytes : ℕ}
    (h : (Heap.new capBytes).alloc (.nativeHandle 1 0) = some (⟨0, 0⟩, senderHeap capBytes)) :
    (senderHeap capBytes).Slotted :=
  (Heap.slotted_new capBytes).alloc h

def mailConfig : VmConfig := ⟨⟨10, 10, 100, 10⟩, 4096, 1, 100⟩

def mailSender (heap : Heap) : Machine :=
  { vm := { heap, state := .running, arenas := { operands := [.obj ⟨0, 0⟩] } }, config := mailConfig }

def mailPair (heap : Heap) : World Unit :=
  { machines := [
      some (mailSender heap),
      some { vm := { heap := .new 4096, state := .ready, mailbox := { limit := 2 } }, config := mailConfig,
             owner := .scheduler }]
    config := mailConfig }

theorem mailSender_formed {heap : Heap} (hs : heap.Slotted) (hr : heap.hostRoots = []) : (mailSender heap).Formed :=
  ⟨hs, hr, nofun⟩

theorem mailPair_settled {heap : Heap} (hs : heap.Slotted) (hr : heap.hostRoots = []) : (mailPair heap).Settled := by
  intro vm m hm
  have he := mem_of_getElem? (join_eq_some_iff.mp hm)
  simp only [mailPair, mem_cons, Option.some.injEq, not_mem_nil, or_false] at he
  rcases he with rfl | rfl
  · exact mailSender_formed hs hr
  · refine ⟨?_, rfl, nofun⟩
    dsimp only
    exact Heap.slotted_new 4096

def messageHeap : Heap := ((senderHeap 4096).alloc (.list [.int 3] 0)).elim (senderHeap 4096) Prod.snd

theorem messageHeap_alloc : (senderHeap 4096).alloc (.list [.int 3] 0) = some (⟨1, 0⟩, messageHeap) := by decide +kernel

def mailRun : Option (((Answer × Option (VmId × Value)) × World Unit) × ((Answer × Option (VmId × Value)) × World Unit) ×
    ((Answer × Option Value) × World Unit) × (Answer × Option Value) × World Unit) := do
  let a ← (mailPair messageHeap).procSend mailEnv 0 7 (.obj ⟨0, 0⟩) (.int 5)
  let b ← a.2.procSend mailEnv 0 7 (.obj ⟨0, 0⟩) (.obj ⟨1, 0⟩)
  let c ← b.2.procRecv mailEnv 1 8
  let d ← c.2.procRecv mailEnv 1 8
  some (a, b, c, d)

def summary (w : World Unit) : Option MachineState × Option MachineState × Bool :=
  ((w.machine 0).map (·.vm.state), (w.machine 1).map (·.vm.state), w.isSmall)

theorem summary_running {w : World Unit} (h : w.summary = (some .running, some .ready, true)) :
    (∃ m, w.machine 0 = some m ∧ m.Running) ∧ (∃ m, w.machine 1 = some m ∧ m.Running) ∧ w.Small := by
  have hrun : ∀ {vm : VmId} {s : MachineState}, (w.machine vm).map (·.vm.state) = some s → s ≠ .done ∧ s ≠ .faulted →
      ∃ m, w.machine vm = some m ∧ m.Running := by
    intro vm s hs hne
    obtain ⟨m, hm, rfl⟩ := map_eq_some_iff.mp hs
    exact ⟨m, hm, hne⟩
  simp only [summary, Prod.mk.injEq] at h
  exact ⟨hrun h.1 (by decide), hrun h.2.1 (by decide), small_of_isSmall h.2.2⟩

/-- An integer and a list are sent and received. -/
theorem mailbox_channel_pair : ∃ (w : World Unit) (log : MailLog) (m : Machine),
    Relation.ReflTransGen (MailStep 1) (mailPair messageHeap, {}) (w, log) ∧
    log.accepted.map Prod.fst = [.int 5, .obj ⟨0, 0⟩] ∧ log.delivered.map Prod.fst = [.int 5, .obj ⟨0, 0⟩] ∧
    w.machine 1 = some m ∧ m.Running ∧ Orderly m log := by
  have hsent : mailRun.map (fun r => [r.1.1, r.2.1.1]) =
      some [(.answered .sent, some (1, .int 5)), (.answered .sent, some (1, .obj ⟨0, 0⟩))] := by
    decide +kernel
  have hreceived : mailRun.map (fun r => [r.2.2.1.1, r.2.2.2.1]) =
      some [(.answered (.message (.int 5)), some (.int 5)),
        (.answered (.message (.obj ⟨0, 0⟩)), some (.obj ⟨0, 0⟩))] := by
    decide +kernel
  have hstates : mailRun.map (fun r => [(mailPair messageHeap).summary, r.1.2.summary, r.2.1.2.summary,
      r.2.2.1.2.summary, r.2.2.2.2.summary]) = some (List.replicate 5 (some .running, some .ready, true)) := by
    decide +kernel
  obtain ⟨⟨⟨a, w₁⟩, ⟨b, w₂⟩, ⟨c, w₃⟩, d, w₄⟩, hr, he⟩ := map_eq_some_iff.mp hsent
  rw [hr, map_some, Option.some.injEq] at hreceived hstates
  simp only [List.cons.injEq, and_true] at he hreceived
  obtain ⟨⟨rfl, rfl⟩, rfl, rfl⟩ := And.intro he hreceived
  simp only [List.replicate, List.cons.injEq] at hstates
  obtain ⟨h₀, h₁, h₂, h₃, h₄, -⟩ := hstates
  simp only [mailRun, bind_eq_bind, bind_eq_some_iff] at hr
  obtain ⟨x, hsend₁, y, hsend₂, z, hrecv₁, u, hrecv₂, he⟩ := hr
  cases he
  obtain ⟨hu₀, -, hs₀⟩ := summary_running h₀
  obtain ⟨hu₁, -, hs₁⟩ := summary_running h₁
  obtain ⟨-, hp₂, hs₂⟩ := summary_running h₂
  obtain ⟨-, hp₃, hs₃⟩ := summary_running h₃
  obtain ⟨-, ⟨m, hm, hrunning⟩, -⟩ := summary_running h₄
  let log₁ := ({} : MailLog).accept 1 w₁ (some (1, .int 5))
  let log₂ := log₁.accept 1 w₂ (some (1, .obj ⟨0, 0⟩))
  let log₃ := log₂.deliver 1 w₃ (some (.int 5))
  let log₄ := log₃.deliver 1 w₄ (some (.obj ⟨0, 0⟩))
  have hreach : Relation.ReflTransGen (MailStep 1) (mailPair messageHeap, {}) (w₄, log₄) := by
    refine .tail (b := (w₃, log₃)) (.tail (b := (w₂, log₂)) (.tail (b := (w₁, log₁)) (.single ?_) ?_) ?_) ?_
    · exact ⟨hs₀, .send mailEnv 0 7 (.obj ⟨0, 0⟩) (.int 5), hu₀, _, _, hsend₁, rfl⟩
    · exact ⟨hs₁, .send mailEnv 0 7 (.obj ⟨0, 0⟩) (.obj ⟨1, 0⟩), hu₁, _, _, hsend₂, rfl⟩
    · exact ⟨hs₂, .receive mailEnv 8, hp₂, _, _, hrecv₁, rfl⟩
    · exact ⟨hs₃, .receive mailEnv 8, hp₃, _, _, hrecv₂, rfl⟩
  have hslotted : messageHeap.Slotted ∧ messageHeap.hostRoots = [] :=
    ⟨(senderHeap_slotted (by decide +kernel)).alloc messageHeap_alloc, by decide +kernel⟩
  exact ⟨w₄, log₄, m, hreach, rfl, rfl, hm, hrunning,
    (mailbox_channel 1 (mailPair_settled hslotted.1 hslotted.2) rfl rfl (by decide) hreach).1 m hm hrunning⟩

theorem senderHeap_full : ∃ heap, collect [⟨0, 0⟩] (senderHeap 64) = some heap ∧
    heap.wouldExceed (heap.allocationCost (.inst 1 [] 0) true) = true :=
  ⟨_, collect_kept (by decide +kernel) (by decide +kernel), by decide +kernel⟩

theorem alloc_full {object : Object} {unique : Bool} {heap : Heap}
    (hd : collectionDue m.vm.heap (m.vm.heap.allocationCost object unique) = true)
    (hc : collect (m.gcRoots object.children) m.vm.heap = some heap)
    (hf : heap.wouldExceed (heap.allocationCost object unique) = true) :
    m.alloc object unique = some (.error .heapLimit, { m with vm.heap := heap }) := by
  have hr : m.allocRoom object unique = some (false, heap) := by
    rw [allocRoom, if_pos hd, hc, map_some, hf]
    rfl
  rw [Machine.alloc, hr]

theorem procSend_unanswered {handle message : Value} {generation : ℕ} {sender sender' stopped : Machine} {cls : UInt32}
    {code : FaultCode} (hh : w.handleProc vm handle = some (some (proc, generation)))
    (hr : w.procRunning proc generation = some true) (hm : w.machine proc = some m) (hne : vm ≠ proc)
    (hc : m.vm.mailbox.closed = false) (ha : m.vm.mailbox.accepts = true)
    (he : message.asObj = none) (hp : copyImmediate message = .ok message)
    (hs : w.machine vm = some sender) (hcl : e.core.sendSent = some cls)
    (hl : sender.alloc (.inst cls [] 0) true = some (.error code, sender'))
    (hf : sender'.setFault (e.grants.host vm) e.trace code "" (some op) = some stopped) :
    ∃ w', w.procSend e vm op handle message = some ((.faulted code, some (proc, message)), w') ∧
      w'.machine proc = some { m with vm.mailbox := m.vm.mailbox.push message } := by
  have hcr : w.boundaryCopy e.grants vm proc message = some (.ok message, w) := by
    simp only [boundaryCopy, hs, hm, if_pos he, hp]
  obtain ⟨w₂, hq⟩ : ∃ w₂, w.enqueue proc message = some w₂ := by
    simp only [enqueue, hm, map_some, Option.some.injEq, exists_eq']
  obtain ⟨hw, ho⟩ := enqueue_spec hq hm
  have hs2 : w₂.machine vm = some sender := (ho vm hne).trans hs
  have hk : w₂.makeInstance vm (some cls) [] = some (.error code, w₂.setMachine vm sender') := by
    simp only [makeInstance, onMachine, hs2, bind_some, hl, map_some]
    rfl
  have hs3 : (w₂.setMachine vm sender').machine vm = some sender' :=
    (setMachine_edits hs2).1
  have hn : w₂.answerCase e vm op .sent e.core.sendSent [] =
      some (.faulted code, (w₂.setMachine vm sender').setMachine vm stopped) := by
    simp only [answerCase, hcl, hk, bind_some, replyOrFault, faultCaller, onMachine, hs3, hf, map_some]
  refine ⟨(w₂.setMachine vm sender').setMachine vm stopped, ?_, ?_⟩
  · simp only [procSend, hh, hr, hm, hc, ha, deliver, hcr, hq, hn, bind_eq_bind,
      bind_some, ↓reduceIte, Bool.false_eq_true, Bool.not_true, map_some]
  · rw [machine_setMachine _ hs3, if_neg (Ne.symm hne), machine_setMachine _ hs2, if_neg (Ne.symm hne), hw]

/-- The sender has no room for the answer of the message that was accepted: it stops, and the message stays. -/
theorem faulted_send_accepted : ∃ w w' : World Unit, w.Settled ∧ (∃ m, w.machine 0 = some m ∧ m.Running) ∧
    w.procSend mailEnv 0 7 (.obj ⟨0, 0⟩) (.int 5) = some ((.faulted .heapLimit, some (1, .int 5)), w') ∧
    ∃ m', w'.machine 1 = some m' ∧ m'.vm.mailbox.queue = [.int 5] := by
  have hheap : (Heap.new 64).alloc (.nativeHandle 1 0) = some (⟨0, 0⟩, senderHeap 64) := by decide +kernel
  have hdue : collectionDue (senderHeap 64) ((senderHeap 64).allocationCost (.inst 1 [] 0) true) = true := by
    decide +kernel
  have hhandle : (mailPair (senderHeap 64)).handleProc 0 (.obj ⟨0, 0⟩) = some (some (1, 0)) := by decide +kernel
  have hsettled := mailPair_settled (senderHeap_slotted hheap) (by decide +kernel)
  obtain ⟨heap, hcollect, hfull⟩ := senderHeap_full
  have halloc : ∀ h : Heap, collectionDue h (h.allocationCost (.inst 1 [] 0) true) = true →
      collect [⟨0, 0⟩] h = some heap →
      Machine.alloc (.inst 1 [] 0) true (mailSender h) = some (.error .heapLimit, mailSender heap) :=
    fun h hdue hcollect => alloc_full (m := mailSender h) hdue hcollect hfull
  obtain ⟨w', hsend, hproc⟩ : ∃ w', (mailPair (senderHeap 64)).procSend mailEnv 0 7 (.obj ⟨0, 0⟩) (.int 5) =
      some ((.faulted .heapLimit, some (1, .int 5)), w') ∧ w'.machine 1 = some _ :=
    procSend_unanswered hhandle rfl rfl (by decide) rfl rfl rfl rfl rfl rfl (halloc _ hdue hcollect) rfl
  exact ⟨mailPair (senderHeap 64), w', hsettled, ⟨_, rfl, by decide, by decide⟩, hsend, _, hproc, rfl⟩

end World

end LoomV4.Vm
