import LoomV4.World.ImageRuns
import LoomV4.World.MailSteps

/-!
What a send, a close and a receive can do, and what they leave alone.
-/

namespace LoomV4.Vm

open Abi Proc Lib List Option Machine

namespace World

variable {ι : Type}

inductive SendCases (e : MailEnv) (vm : VmId) (message : Value) (w : World ι) :
    Answer → Option (VmId × Value) → World ι → Prop
  | refused {answer : Answer} {w' : World ι} (hcalm : At (Machine.Calm 2 []) vm w w') (hanswer : answer ≠ .answered .sent) :
    SendCases e vm message w answer none w'
  | uncopied {proc : VmId} {code : FaultCode} {w₁ w' : World ι}
    (hcopy : w.boundaryCopy e.grants vm proc message = some (.error code, w₁))
    (hcalm : At (Machine.Calm 2 []) vm w₁ w') : SendCases e vm message w (.faulted code) none w'
  | accepted {proc : VmId} {m : Machine} {moved : Value} {answer : Answer} {w₁ w₂ w' : World ι}
    (hm : w.machine proc = some m) (hrun : m.Running) (haccepts : m.vm.mailbox.accepts = true)
    (hcopy : w.boundaryCopy e.grants vm proc message = some (.ok moved, w₁)) (hqueue : w₁.enqueue proc moved = some w₂)
    (hcalm : At (Machine.Calm 2 []) vm w₂ w') (hanswer : Replies .sent answer) :
    SendCases e vm message w answer (some (proc, moved)) w'

variable {w w' w₁ w₂ : World ι} {vm proc : VmId} {m m' : Machine} {e : MailEnv} {op : ℕ} {answer : Answer}
  {handle message moved : Value} {out : Option (VmId × Value)} {taken : Option Value}

theorem replies_ne_sent {arm : Arm} (h : Replies arm answer) (ha : arm ≠ .sent) : answer ≠ .answered .sent := by
  rcases h with rfl | ⟨code, rfl⟩
  · exact fun h => ha (Answer.answered.inj h)
  · exact Answer.noConfusion

theorem nil_subset_rootsOf (fields : List Value) : ∀ r ∈ ([] : List ObjRef), r ∈ rootsOf fields := nofun

theorem procRunning_some {generation : ℕ} (h : w.procRunning proc generation = some true) :
    ∃ m, w.machine proc = some m ∧ m.Running := by
  unfold procRunning at h
  split at h
  · cases h
  · obtain ⟨m, hm, hr⟩ := map_eq_some_iff.mp h
    exact ⟨m, hm, (of_decide_eq_true hr).2⟩

theorem procSend_cases (h : w.procSend e vm op handle message = some ((answer, out), w')) :
    SendCases e vm message w answer out w' := by
  simp only [procSend, bind_eq_bind, bind_eq_some_iff] at h
  obtain ⟨target, -, h⟩ := h
  cases target with
  | none =>
    obtain ⟨⟨answer', w₁⟩, hf, he⟩ := map_eq_some_iff.mp h
    cases he
    obtain ⟨hc, rfl⟩ := faultCaller_calm (k := 2) [] hf
    exact .refused hc Answer.noConfusion
  | some target =>
    obtain ⟨proc, generation⟩ := target
    simp only [bind_eq_some_iff] at h
    obtain ⟨running, hr, h⟩ := h
    cases running with
    | false =>
      obtain ⟨⟨answer', w₁⟩, hd, he⟩ := map_eq_some_iff.mp h
      cases he
      obtain ⟨hc, ha⟩ := answerDead_calm (k := 0) hd
      exact .refused hc (replies_ne_sent ha Arm.noConfusion)
    | true =>
      simp only [↓reduceIte, bind_eq_some_iff] at h
      obtain ⟨m, hm, h⟩ := h
      obtain ⟨m', hm', hu⟩ := procRunning_some hr
      obtain rfl := mem_unique hm hm'
      split at h
      · obtain ⟨⟨answer', w₁⟩, hl, he⟩ := map_eq_some_iff.mp h
        cases he
        obtain ⟨hc, ha⟩ := answerCase_calm (k := 1) [] (nil_subset_rootsOf _) hl
        exact .refused hc (replies_ne_sent ha Arm.noConfusion)
      · split at h
        · obtain ⟨⟨answer', w₁⟩, hb, he⟩ := map_eq_some_iff.mp h
          cases he
          obtain ⟨hc, rfl⟩ := blockMachine_calm (k := 2) hb
          exact .refused hc Answer.noConfusion
        · next hp =>
          obtain ⟨⟨copied, w₁⟩, ho, h⟩ := bind_eq_some_iff.mp h
          cases copied with
          | error code =>
            obtain ⟨⟨answer', w₂⟩, hf, he⟩ := map_eq_some_iff.mp h
            cases he
            obtain ⟨hc, rfl⟩ := faultCaller_calm (k := 2) [] hf
            exact .uncopied ho hc
          | ok moved =>
            obtain ⟨w₂, hq, h⟩ := bind_eq_some_iff.mp h
            obtain ⟨⟨answer', w3⟩, hs, he⟩ := map_eq_some_iff.mp h
            cases he
            obtain ⟨hc, ha⟩ := answerCase_calm (k := 1) [] (nil_subset_rootsOf _) hs
            exact .accepted hm hu (by simpa using hp) ho hq hc ha

variable {extra : List ObjRef}

theorem running_edit (hvm : ∃ m, w.machine vm = some m ∧ m.Running) (hw : w₁.machine proc = some m')
    (hr : m'.Running) (ho : ∀ q, q ≠ proc → w₁.machine q = w.machine q) : ∃ m, w₁.machine vm = some m ∧ m.Running := by
  by_cases hq : vm = proc
  · subst hq
    exact ⟨m', hw, hr⟩
  · obtain ⟨m, hm, hm'⟩ := hvm
    exact ⟨m, (ho vm hq).trans hm, hm'⟩

theorem Settled.edit (h : w.Settled) (hw : w₁.machine proc = some m') (hf : m'.Formed)
    (ho : ∀ q, q ≠ proc → w₁.machine q = w.machine q) : w₁.Settled := by
  intro q m hm
  by_cases hq : q = proc
  · subst hq
    obtain rfl := mem_unique hm hw
    exact hf
  · exact h q m ((ho q hq).symm.trans hm)

def Roomy (w : World ι) : Prop := ∀ vm m, w.machine vm = some m → m.vm.heap.Slack 2

theorem Small.roomy (h : w.Small) (hw : w.Settled) : w.Roomy := fun vm m hm =>
  ((h.machines vm m hm).slack (hw vm m hm).slotted.tabled).mono (by decide)

theorem Roomy.edit (h : w.Roomy) (hw : w₁.machine proc = some m') (hs : m'.vm.heap.Slack 2)
    (ho : ∀ q, q ≠ proc → w₁.machine q = w.machine q) : w₁.Roomy := by
  intro q m hm
  by_cases hq : q = proc
  · subst hq
    obtain rfl := mem_unique hm hw
    exact hs
  · exact h q m ((ho q hq).symm.trans hm)

theorem At.frame (h : At (Machine.Calm 2 extra) vm w w') (hw : w.Settled) (hr : w.Roomy)
    (hvm : ∃ m, w.machine vm = some m ∧ m.Running) {q : VmId} (hm : w.machine q = some m) :
    ∃ m', w'.machine q = some m' ∧ (m'.Running → m.Running ∧ m.Keeps extra m') := by
  by_cases hq : q = vm
  · subst hq
    obtain ⟨own, ho, hu⟩ := hvm
    obtain rfl := mem_unique hm ho
    obtain ⟨m', hm', hc⟩ := h.own m hm
    exact ⟨m', hm', fun hr' => ⟨hu, (hc (hw q m hm) (hr q m hm) hu).2 hr'⟩⟩
  · exact ⟨m, (h.others q hq).trans hm, fun hr' => ⟨hr', .refl extra m⟩⟩

theorem At.settled (h : At (Machine.Calm 2 extra) vm w w') (hw : w.Settled) (hr : w.Roomy)
    (hvm : ∃ m, w.machine vm = some m ∧ m.Running) : w'.Settled := by
  obtain ⟨own, ho, hu⟩ := hvm
  obtain ⟨m', hm', hc⟩ := h.own own ho
  exact hw.edit hm' (hc (hw vm own ho) (hr vm own ho) hu).1 h.others

/-- A copy at `proc` gives every machine the heap it had, or a larger one, with what it keeps. -/
structure Grown (w w₁ : World ι) : Prop where
  settled : w₁.Settled
  roomy : w₁.Roomy
  machines : ∀ q m, w.machine q = some m → ∃ heap, w₁.machine q = some { m with vm.heap := heap } ∧
    m.Keeps [] { m with vm.heap := heap }

theorem Crosses.grown {source target : Machine} {heap : Heap} {copied : Except FaultCode Value}
    (h : Crosses message source target heap copied) (hs : w.Settled) (hsm : w.Small) (ht : w.machine proc = some target)
    (hw : w₁.machine proc = some { target with vm.heap := heap })
    (ho : ∀ q, q ≠ proc → w₁.machine q = w.machine q) : Grown w w₁ := by
  refine ⟨hs.edit hw h.formed ho, (hsm.roomy hs).edit hw (h.slack.mono (by decide)) ho, fun q m hm => ?_⟩
  by_cases hq : q = proc
  · subst hq
    obtain rfl := mem_unique hm ht
    exact ⟨heap, hw, h.keeps⟩
  · exact ⟨m.vm.heap, (ho q hq).trans hm, .refl [] m⟩

theorem enqueue_spec (h : w₁.enqueue proc moved = some w₂) (hm : w₁.machine proc = some m) :
    w₂.machine proc = some { m with vm.mailbox := m.vm.mailbox.push moved } ∧
      ∀ q, q ≠ proc → w₂.machine q = w₁.machine q := by
  obtain ⟨m1, hm1, rfl⟩ := map_eq_some_iff.mp h
  obtain rfl := mem_unique hm hm1
  exact setMachine_edits hm

theorem mem_gcRoots_push {r : ObjRef} (h : r ∈ m.gcRoots [] ∨ r ∈ moved.asObj.toList) :
    r ∈ ({ m with vm.mailbox := m.vm.mailbox.push moved } : Machine).gcRoots [] := by
  have hq : r ∈ rootsOf m.vm.mailbox.queue ∨ r ∈ moved.asObj.toList →
      r ∈ rootsOf (m.vm.mailbox.queue ++ [moved]) := by
    cases moved <;> simp [rootsOf, Value.asObj]
  rw [mem_gcRoots, mem_otherRoots] at h ⊢
  rcases h with (h | h | (h | h | h) | h) | h
  · exact .inl h
  · exact .inr (.inl h)
  · exact .inr (.inr (.inl (.inl h)))
  · exact .inr (.inr (.inl (.inr (.inl (hq (.inl h))))))
  · exact .inr (.inr (.inl (.inr (.inr h))))
  · cases h
  · exact .inr (.inr (.inl (.inr (.inl (hq (.inr h))))))

structure Sends (vm : VmId) (message : Value) (w : World ι) (answer : Answer) (out : Option (VmId × Value))
    (w' : World ι) : Prop where
  sent : answer = .answered .sent → out ≠ none
  only : out ≠ none → Replies .sent answer
  refused : out = none → ∀ q m, w.machine q = some m →
    ∃ m', w'.machine q = some m' ∧ (m'.Running → m.Running ∧ m.Keeps [] m')
  accepted : ∀ proc moved, out = some (proc, moved) → ∃ source target heap m',
    w.machine vm = some source ∧ w.machine proc = some target ∧ w'.machine proc = some m' ∧
    target.Running ∧ target.vm.mailbox.accepts = true ∧
    ((∀ root, message.asObj = some root → source.vm.heap.Copyable root) →
      CopyDone source.vm.heap false message target.vm.heap (target.gcRoots []) heap moved) ∧
    (m'.Running → m'.vm.mailbox = target.vm.mailbox.push moved ∧
      (∀ r, heap.Under moved.asObj.toList r → m'.vm.heap.node r = heap.node r) ∧
      ∀ r, target.vm.heap.Under (target.gcRoots []) r → m'.vm.heap.node r = target.vm.heap.node r) ∧
    ∀ q m, q ≠ proc → w.machine q = some m →
      ∃ m', w'.machine q = some m' ∧ (m'.Running → m.Running ∧ m.Keeps [] m')
  settled : w'.Settled

theorem SendCases.sends (h : SendCases e vm message w answer out w') (hw : w.Settled) (hsm : w.Small)
    (hvm : ∃ m, w.machine vm = some m ∧ m.Running) : Sends vm message w answer out w' := by
  obtain ⟨own, hn, hu⟩ := hvm
  have hro := hsm.roomy hw
  cases h with
  | refused ha hs =>
    exact ⟨fun hse => absurd hse hs, fun hne => absurd rfl hne,
      fun _ q m hm => ha.frame hw hro ⟨own, hn, hu⟩ hm, nofun, ha.settled hw hro ⟨own, hn, hu⟩⟩
  | uncopied hy ha =>
    obtain ⟨source, target, heap, -, ht, hc, hn1, ho⟩ := boundaryCopy_crosses hw hsm hy
    have hg := hc.grown hw hsm ht hn1 ho
    obtain ⟨heap1, hn1', -⟩ := hg.machines vm own hn
    refine ⟨nofun, fun hne => absurd rfl hne, fun _ q m hm => ?_, nofun,
      ha.settled hg.settled hg.roomy ⟨_, hn1', hu⟩⟩
    obtain ⟨heap2, hm1, he⟩ := hg.machines q m hm
    obtain ⟨m', hm', he'⟩ := ha.frame hg.settled hg.roomy ⟨_, hn1', hu⟩ hm1
    exact ⟨m', hm', fun hu' => ⟨(he' hu').1, he.grow (he' hu').2⟩⟩
  | @accepted proc target moved answer w₁ w₂ _ ht hi hac hy hqu ha hs =>
    obtain ⟨source, target', heap, hso, ht', hc, hn1, ho⟩ := boundaryCopy_crosses hw hsm hy
    obtain rfl := mem_unique ht ht'
    obtain rfl := mem_unique hn hso
    have hg := hc.grown hw hsm ht hn1 ho
    obtain ⟨hn2, ho2⟩ := enqueue_spec hqu hn1
    have hw2 : w₂.Settled :=
      hg.settled.edit hn2 ⟨hc.formed.slotted, hc.formed.hostRoots, hc.formed.native⟩ ho2
    have hro2 : w₂.Roomy := hg.roomy.edit hn2 (hc.slack.mono (by decide)) ho2
    have hvm2 := running_edit ⟨own, hn, hu⟩ hn2 hi fun q hq => (ho2 q hq).trans (ho q hq)
    obtain ⟨m', hm', he⟩ := ha.frame hw2 hro2 hvm2 hn2
    refine ⟨fun _ => some_ne_none _, fun _ => hs, nofun, ?_, ha.settled hw2 hro2 hvm2⟩
    rintro _ _ ⟨⟩
    refine ⟨own, target, heap, m', hn, ht, hm', hi, hac, ?_, ?_, ?_⟩
    · intro hp
      exact ((hc.cases).done (hw vm own hn).slotted).2 hp moved rfl
    · intro hu'
      have hk := (he hu').2
      have hke : ∀ r, heap.Under moved.asObj.toList r ∨ heap.Under (target.gcRoots []) r →
          m'.vm.heap.node r = heap.node r := by
        intro r hr
        apply hk.nodes
        rcases hr with hr | hr
        · exact hr.mono fun x hx => mem_gcRoots_push (.inr hx)
        · exact hr.mono fun x hx => mem_gcRoots_push (.inl hx)
      refine ⟨hk.mailbox, fun r hr => hke r (.inl hr), fun r hr => ?_⟩
      rw [hke r (.inr (hr.of_kept hc.keeps.nodes fun _ hx => hx))]
      exact hc.keeps.nodes r hr
    · intro q m hq hm
      exact ha.frame hw2 hro2 hvm2 ((ho2 q hq).trans ((ho q hq).trans hm))

inductive CloseCases (vm : VmId) (w : World ι) : World ι → Prop
  | refused {w' : World ι} (hcalm : At (Machine.Calm 2 []) vm w w') : CloseCases vm w w'
  | closed {proc : VmId} {m : Machine} {w₁ w' : World ι} (hm : w.machine proc = some m) (hrun : m.Running)
    (hown : w₁.machine proc = some { m with vm.mailbox.closed := true })
    (hothers : ∀ q, q ≠ proc → w₁.machine q = w.machine q) (hcalm : At (Machine.Calm 2 []) vm w₁ w') :
    CloseCases vm w w'

theorem procClose_cases (h : w.procClose e vm op handle = some (answer, w')) : CloseCases vm w w' := by
  simp only [procClose, bind_eq_bind, bind_eq_some_iff] at h
  obtain ⟨target, -, h⟩ := h
  cases target with
  | none => exact .refused (faultCaller_calm (k := 2) [] h).1
  | some target =>
    obtain ⟨proc, generation⟩ := target
    simp only [bind_eq_some_iff] at h
    obtain ⟨running, hr, h⟩ := h
    cases running with
    | false => exact .refused (answerDead_calm (k := 0) h).1
    | true =>
      simp only [↓reduceIte, bind_eq_some_iff] at h
      obtain ⟨m, hm, h⟩ := h
      obtain ⟨m', hm', hu⟩ := procRunning_some hr
      obtain rfl := mem_unique hm hm'
      refine .closed hm hu ?_ ?_ (answerCase_calm (k := 1) [] (nil_subset_rootsOf _) h).1
      · exact (setMachine_edits hm).1
      · exact (setMachine_edits hm).2

inductive TakeCases (vm : VmId) (w : World ι) : Option Value → World ι → Prop
  | message {v : Value} {rest : List Value} {m : Machine} {w₁ w' : World ι} (hm : w.machine vm = some m)
    (hqueue : m.vm.mailbox.queue = v :: rest)
    (hown : w₁.machine vm = some { m with vm.mailbox.queue := rest })
    (hothers : ∀ q, q ≠ vm → w₁.machine q = w.machine q)
    (hcalm : At (Machine.Calm 2 v.asObj.toList) vm w₁ w') : TakeCases vm w (some v) w'
  | none {w' : World ι} (hcalm : At (Machine.Calm 2 []) vm w w') : TakeCases vm w none w'

theorem takeMessage_cases (h : w.takeMessage vm = some (taken, w₁)) (hm : w.machine vm = some m) :
    (∃ v rest, taken = some v ∧ m.vm.mailbox.queue = v :: rest ∧
      w₁.machine vm = some { m with vm.mailbox.queue := rest } ∧ ∀ q, q ≠ vm → w₁.machine q = w.machine q) ∨
    taken = none ∧ m.vm.mailbox.queue = [] ∧ At (Machine.Steady 1 []) vm w w₁ := by
  obtain ⟨m1, hm1, h⟩ := map_eq_some_iff.mp h
  obtain rfl := mem_unique hm hm1
  cases hq : m.vm.mailbox.queue with
  | nil =>
    have hp : m.vm.mailbox.pop = (none, m.vm.mailbox) := by simp only [Mailbox.pop, hq]
    simp only [hp] at h
    cases h
    exact .inr ⟨rfl, rfl, .set hm (.refl 1 [] m)⟩
  | cons v rest =>
    have hp : m.vm.mailbox.pop = (some v, { m.vm.mailbox with queue := rest }) := by simp only [Mailbox.pop, hq]
    simp only [hp] at h
    cases h
    exact .inl ⟨v, rest, rfl, rfl, setMachine_edits hm⟩

theorem toList_subset_rootsOf (v : Value) : ∀ r ∈ v.asObj.toList, r ∈ rootsOf [v] := by
  intro r hr
  cases v <;> simp_all [rootsOf, Value.asObj]

theorem procRecv_cases (h : w.procRecv e vm op = some ((answer, taken), w')) :
    TakeCases vm w taken w' ∧ (answer = .answered .drained → taken = none ∧
      ∃ m, w.machine vm = some m ∧ m.vm.mailbox.queue = [] ∧ m.vm.mailbox.closed = true) := by
  simp only [procRecv, bind_eq_bind, bind_eq_some_iff] at h
  obtain ⟨m, hm, h⟩ := h
  split at h
  · obtain ⟨⟨answer', w₁⟩, hf, he⟩ := map_eq_some_iff.mp h
    cases he
    obtain ⟨hc, rfl⟩ := faultCaller_calm (k := 2) [] hf
    exact ⟨.none hc, nofun⟩
  · obtain ⟨⟨found, w₁⟩, ht, h⟩ := bind_eq_some_iff.mp h
    rcases takeMessage_cases ht hm with ⟨v, rest, rfl, hq, hw, ho⟩ | ⟨rfl, hq, hs⟩
    · obtain ⟨⟨answer', w₂⟩, ha, he⟩ := map_eq_some_iff.mp h
      cases he
      obtain ⟨hc, hr⟩ := answerCase_calm (k := 1) v.asObj.toList (toList_subset_rootsOf v) ha
      refine ⟨.message hm hq hw ho hc, fun hd => ?_⟩
      subst hd
      rcases hr with h | ⟨code, h⟩ <;> cases h
    · dsimp only at h
      split at h
      · next hl =>
        obtain ⟨⟨answer', w₂⟩, ha, he⟩ := map_eq_some_iff.mp h
        cases he
        exact ⟨.none (hs.steady_calm (answerCase_calm (k := 0) [] (nil_subset_rootsOf _) ha).1),
          fun _ => ⟨rfl, m, hm, hq, hl⟩⟩
      · obtain ⟨⟨answer', w₂⟩, hb, he⟩ := map_eq_some_iff.mp h
        cases he
        obtain ⟨hc, rfl⟩ := blockMachine_calm (k := 1) hb
        exact ⟨.none (hs.steady_calm hc), nofun⟩

theorem Steady.toCalm {k : ℕ} (h : m.Steady k extra m') : m.Calm (k + 1) extra m' := by
  intro hf hl _
  obtain ⟨hf', hk, -⟩ := h hf hl
  exact ⟨hf', fun _ => hk⟩

theorem At.calm {k : ℕ} (h : At (Machine.Steady k extra) vm w w') : At (Machine.Calm (k + 1) extra) vm w w' where
  others := h.others
  own m hm := by
    obtain ⟨m', hm', hs⟩ := h.own m hm
    exact ⟨m', hm', Steady.toCalm hs⟩

theorem takeReceiveWaitValue_cases {built : Except FaultCode Value}
    (h : w.takeReceiveWaitValue e vm = some ((built, taken), w')) :
    TakeCases vm w taken w' ∧ (taken = none → ∀ v, built = .ok v →
      ∃ m, w.machine vm = some m ∧ m.vm.mailbox.queue = [] ∧ m.vm.mailbox.closed = true) := by
  simp only [takeReceiveWaitValue, bind_eq_bind, bind_eq_some_iff] at h
  obtain ⟨m, hm, ⟨found, w₁⟩, ht, h⟩ := h
  rcases takeMessage_cases ht hm with ⟨v, rest, rfl, hq, hw, ho⟩ | ⟨rfl, hq, hs⟩
  · obtain ⟨⟨built', w₂⟩, ha, he⟩ := map_eq_some_iff.mp h
    cases he
    have hs := makeInstance_steady (k := 1) (toList_subset_rootsOf v) ha
    exact ⟨.message hm hq hw ho hs.calm, nofun⟩
  · dsimp only at h
    split at h
    · next hc =>
      obtain ⟨⟨built', w₂⟩, ha, he⟩ := map_eq_some_iff.mp h
      cases he
      have hd := makeInstance_steady (k := 0) (nil_subset_rootsOf _) ha
      exact ⟨.none (hs.steady_calm hd.calm), fun _ _ _ => ⟨m, hm, hq, hc⟩⟩
    · cases h
      exact ⟨.none hs.calm, nofun⟩

end World

end LoomV4.Vm
