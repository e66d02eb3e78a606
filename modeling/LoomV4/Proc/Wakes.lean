import LoomV4.Proc.Registration

namespace LoomV4.Proc

open Lib WakeIndex

namespace Scheduler

/-- The wake has taken the entry of the task, so the task must leave the state it is indexed under. -/
def CleanBlocked (w : World) (key : WakeKey) (s : Scheduler) (task : TaskKey) : Prop :=
  ∀ primary, s.tasks.get task = some (.blocked primary) → s.HoldsKey task primary key →
    w.taskStatus task ≠ .blocked primary ∧ s.Admits w task (w.taskStatus task)

def CleanParked (w : World) (source : WaitSourceKey) (s : Scheduler) (task : TaskKey) : Prop :=
  ∀ wait, s.tasks.get task = some (.parked wait) → s.Admits w task (w.taskStatus task) ∧
    ∀ sources, s.parked.sets[wait]? = some sources → source ∈ sources → w.taskStatus task ≠ .parked wait

def CleanWake (w : World) (s : Scheduler) (key : WakeKey) : Prop :=
  let (tasks, s) := s.takeBlocked key
  let woken := tasks.foldl (wakeBlocked w key) s
  Along (CleanBlocked w key) (wakeBlocked w key) tasks s ∧
    Along (CleanParked w (.wake key)) (wakeParkedTask w) (woken.takeParkedWake key).1
      (woken.takeParkedWake key).2

def CleanWaiting (w : World) (s : Scheduler) (completion : CompletionKey) : Prop :=
  ∀ task, s.waiting[completion]? = some task → s.tasks.get task = some (.waiting completion) →
    w.taskStatus task ≠ .waiting completion ∧ s.Admits w task (w.taskStatus task)

def CleanCompletion (w : World) (s : Scheduler) (completion : CompletionKey) : Prop :=
  let woken := s.completeWaiting w completion
  CleanWaiting w s completion ∧
    Along (CleanParked w (.completion completion)) (wakeParkedTask w)
      (woken.takeParkedCompletion completion).1 (woken.takeParkedCompletion completion).2

variable {s : Scheduler}

theorem holds_take {x : WakeIndex} {other : WakeKey} {task : TaskKey} (key : WakeKey) (hold : x.Holds other task) :
    (x.take key).2.Holds other task ∨ other = key ∧ task ∈ ((x.take key).1.map Waiters.toList).getD [] := by
  cases hw : (x.take key).1 with
  | none =>
    rw [(take_none hw).1]
    exact .inl hold
  | some waiters =>
    by_cases hne : other = key
    · subst hne
      exact .inr ⟨rfl, ((take_some hw).1 task).mpr hold⟩
    · exact .inl ((take_some hw).2 other task hne hold)

/-- Entries leave the two wake tables; what is still asked for stays, or was taken. -/
theorem Sound.take {taken : TaskKey → Entry → Prop} {blocked : WakeIndex} {parked : ParkIndex} (h : s.Sound nothing)
    (hs : parked.sets = s.parked.sets)
    (hb : ∀ task key, s.blocked.Holds key task → blocked.Holds key task ∨ taken task (.blocked key))
    (hp : ∀ task source, s.parked.Holds task source → parked.Holds task source ∨ taken task (.parked source)) :
    ({ s with blocked, parked } : Scheduler).Sound taken := by
  refine ⟨h.separate, fun task => ?_⟩
  have ht := h.tasks task
  apply taskRegistered_of
  · intro wake (hg : s.tasks.get task = _) key hk ha
    exact (hb task key ((taskRegistered_blocked hg).mp ht key hk id)).resolve_right ha
  · exact fun c (hg : s.tasks.get task = _) => (taskRegistered_waiting hg).mp ht
  · intro wait (hg : s.tasks.get task = _)
    obtain ⟨sources, h1, h2⟩ := (taskRegistered_parked hg).mp ht
    refine ⟨sources, hs ▸ h1, fun source hm ha => ?_⟩
    exact (hp task source (h2 source hm id)).resolve_right ha

theorem sound_takeBlocked (h : s.Sound nothing) (key : WakeKey) :
    (s.takeBlocked key).2.Sound (fun task entry => task ∈ (s.takeBlocked key).1 ∧ entry = .blocked key) := by
  refine h.take rfl (fun task other hold => ?_) fun _ _ => .inl
  rcases holds_take key hold with hold | ⟨rfl, hin⟩
  · exact .inl hold
  · exact .inr ⟨hin, rfl⟩

theorem sound_takeParkedWake (h : s.Sound nothing) (key : WakeKey) : (s.takeParkedWake key).2.Sound
      (fun task entry => task ∈ (s.takeParkedWake key).1 ∧ entry = .parked (.wake key)) := by
  refine h.take rfl (fun _ _ => .inl) fun task source hold => ?_
  cases source with
  | completion c => exact .inl hold
  | wake other =>
    rcases holds_take key hold with hold | ⟨rfl, hin⟩
    · exact .inl hold
    · exact .inr ⟨hin, rfl⟩

theorem sound_takeParkedCompletion (h : s.Sound nothing) (c : CompletionKey) : (s.takeParkedCompletion c).2.Sound
      (fun task entry => task ∈ (s.takeParkedCompletion c).1 ∧ entry = .parked (.completion c)) := by
  refine h.take rfl (fun _ _ => .inl) fun task source hold => ?_
  cases source with
  | wake other => exact .inl hold
  | completion other =>
    obtain ⟨waiters, hw, hin⟩ := hold
    by_cases hne : other = c
    · subst hne
      refine .inr ⟨?_, rfl⟩
      simpa [takeParkedCompletion, ParkIndex.takeCompletion, hw] using hin
    · refine .inl ⟨waiters, ?_, hin⟩
      simpa [ParkIndex.takeCompletion, Std.TreeMap.getElem?_erase, compare_eq_iff_eq, Ne.symm hne] using hw

theorem Sound.noteReady {taken : TaskKey → Entry → Prop} (h : s.Sound taken)
    (w : World) (task : TaskKey) : (s.noteReady w task).Sound taken := by
  unfold Scheduler.noteReady
  split
  · exact h.congr rfl rfl rfl rfl rfl
  · exact h

theorem SoundBut.noteReady {taken : TaskKey → Entry → Prop} {task : TaskKey}
    (h : s.SoundBut task taken) (w : World) : (s.noteReady w task).SoundBut task taken := by
  unfold Scheduler.noteReady
  split
  · exact ⟨h.separate, fun other ho => (h.others other ho).frame (.inl rfl) rfl (fun _ => id)
      (fun _ _ => id) (fun _ _ => rfl) fun _ => id⟩
  · exact h

theorem noteReady_fields (s : Scheduler) (w : World) (task : TaskKey) :
    (s.noteReady w task).tasks = s.tasks ∧ (s.noteReady w task).blockKeys = s.blockKeys ∧
      (s.noteReady w task).parked = s.parked := by
  unfold Scheduler.noteReady
  split <;> exact ⟨rfl, rfl, rfl⟩

theorem Admits.congr {s' : Scheduler} {w : World} {task : TaskKey} {status : TaskStatus}
    (h : s.Admits w task status) (ht : s'.tasks = s.tasks)
    (hk : (∀ key, s.tasks.get task ≠ some (.blocked key)) → s'.blockKeys[task]? = s.blockKeys[task]?) :
    s'.Admits w task status := by
  cases status with
  | blocked wake =>
    intro hl hb
    rw [ht] at hb
    rw [hk hb]
    exact h hl hb
  | waiting c => simpa only [Admits, ht] using h
  | parked wait => simpa only [Admits, ht] using h
  | ready => trivial
  | terminal => trivial
  | dormant => trivial

theorem sound_wakeBlocked (w : World) (key : WakeKey) (task : TaskKey) (rest : List TaskKey) (s : Scheduler)
    (h : s.Sound fun t entry => t ∈ task :: rest ∧ entry = .blocked key) (hc : CleanBlocked w key s task) :
    (wakeBlocked w key s task).Sound (fun t entry => t ∈ rest ∧ entry = .blocked key) := by
  -- A task that the wake does not move asks for nothing under the taken key.
  have hy : (∀ primary, s.tasks.get task = some (.blocked primary) → ¬ s.HoldsKey task primary key) →
      s.Sound (fun t entry => t ∈ rest ∧ entry = .blocked key) := by
    intro hn
    refine ⟨h.separate, fun t => (h.tasks t).mono ?_ ?_⟩
    · rintro wake other hg hk ⟨hm, he⟩
      obtain rfl : other = key := by simpa using he
      rcases List.mem_cons.mp hm with rfl | hm
      · exact absurd hk (hn wake hg)
      · exact ⟨hm, rfl⟩
    · rintro wait sources source - - - ⟨-, he⟩
      cases he
  unfold wakeBlocked
  split
  · next primary hg =>
    split
    · next hk =>
      obtain ⟨hne, ha⟩ := hc primary hg hk
      obtain ⟨ht, hbk, -⟩ := noteReady_fields (s.removeIndex task) w task
      have hbu := (h.but task).removeIndex.noteReady w
      have ha' : ((s.removeIndex task).noteReady w task).Admits w task (w.taskStatus task) :=
        ha.congr (ht.trans (by simp)) fun hb => absurd hg (hb primary)
      have hs := sound_indexStatus hbu w _ ha' fun state hi hst => by
        rw [ht, removeIndex_tasks, hg] at hst
        obtain rfl := Option.some.inj hst
        cases hu : w.taskStatus task <;> simp_all [indexedState]
      refine ⟨hs.separate, fun t => (hs.tasks t).mono ?_ ?_⟩
      · rintro wake other - - ⟨hn, hm, he⟩
        exact ⟨(List.mem_cons.mp hm).resolve_left hn, he⟩
      · rintro wait sources source - - - ⟨-, -, he⟩
        cases he
    · next hk =>
      exact hy fun p hp => by rw [hg] at hp; cases hp; exact hk
  · next hn => exact hy fun p hp => absurd hp (hn p)

theorem isParked_iff (s : Scheduler) (task : TaskKey) :
    s.isParked task = true ↔ ∃ wait, s.tasks.get task = some (.parked wait) := by
  unfold isParked
  split
  · next wait hg => exact ⟨fun _ => ⟨wait, hg⟩, fun _ => rfl⟩
  · next hn => exact ⟨fun h => (by cases h), fun ⟨wait, hg⟩ => absurd hg (hn wait)⟩

theorem sound_wakeParkedTask (w : World) (source : WaitSourceKey) (task : TaskKey) (rest : List TaskKey)
    (s : Scheduler) (h : s.Sound fun t entry => t ∈ task :: rest ∧ entry = .parked source)
    (hc : CleanParked w source s task) :
    (wakeParkedTask w s task).Sound (fun t entry => t ∈ rest ∧ entry = .parked source) := by
  unfold wakeParkedTask
  split
  · next hp =>
    obtain ⟨wait, hg⟩ := (isParked_iff s task).mp hp
    obtain ⟨ha, hne⟩ := hc wait hg
    obtain ⟨ht, hbk, hpk⟩ := noteReady_fields s w task
    have hb := (h.noteReady w task).but task
    have ha' : (s.noteReady w task).Admits w task (w.taskStatus task) := ha.congr ht fun _ => by rw [hbk]
    have hs := sound_indexStatus hb w _ ha' fun state hi hst => by
      rw [ht, hg] at hst
      obtain rfl := Option.some.inj hst
      refine ((h.noteReady w task).tasks task).mono ?_ ?_
      · rintro wake other - - ⟨-, he⟩
        cases he
      · rintro wait' sources other hg' hse hm ⟨-, he⟩
        rw [ht, hg] at hg'
        cases hg'
        cases he
        rw [hpk] at hse
        refine absurd ?_ (hne sources hse hm)
        cases hu : w.taskStatus task <;> simp_all [indexedState]
    refine ⟨hs.separate, fun t => (hs.tasks t).mono ?_ ?_⟩
    · rintro wake other - - ⟨-, -, he⟩
      cases he
    · rintro wait' sources other - - - ⟨hn, hm, he⟩
      exact ⟨(List.mem_cons.mp hm).resolve_left hn, he⟩
  · next hp =>
    refine ⟨h.separate, fun t => (h.tasks t).mono ?_ ?_⟩
    · rintro wake other - - ⟨-, he⟩
      cases he
    · rintro wait sources other hg - - ⟨hm, he⟩
      rcases List.mem_cons.mp hm with rfl | hm
      · exact absurd ((isParked_iff s t).mpr ⟨wait, hg⟩) hp
      · exact ⟨hm, he⟩

theorem Sound.of_nil {entry : Entry}
    (h : s.Sound fun t e => t ∈ ([] : List TaskKey) ∧ e = entry) : s.Sound nothing := by
  refine ⟨h.separate, fun t => (h.tasks t).mono ?_ ?_⟩ <;> simp

theorem Sound.wakeParkedTasks {w : World} {source : WaitSourceKey} {tasks : List TaskKey}
    (h : s.Sound fun t entry => t ∈ tasks ∧ entry = .parked source)
    (hc : Along (CleanParked w source) (wakeParkedTask w) tasks s) :
    (tasks.foldl (wakeParkedTask w) s).Sound nothing :=
  Sound.of_nil (foldl_consumes (I := fun l s => s.Sound fun t entry => t ∈ l ∧ entry = .parked source)
    (fun a l s hs ha => sound_wakeParkedTask w source a l s hs ha) tasks s h hc)

theorem Sound.wake (h : s.Sound nothing) (w : World) (key : WakeKey)
    (hc : CleanWake w s key) : (s.wake w key).Sound nothing := by
  obtain ⟨hb, hp⟩ := hc
  have hw := Sound.of_nil (foldl_consumes
    (I := fun l s => s.Sound fun t entry => t ∈ l ∧ entry = .blocked key)
    (fun a l s hs ha => sound_wakeBlocked w key a l s hs ha) _ _ (sound_takeBlocked h key) hb)
  exact (sound_takeParkedWake hw key).wakeParkedTasks hp

theorem Sound.completeWaiting (h : s.Sound nothing) (w : World) (c : CompletionKey)
    (hc : CleanWaiting w s c) : (s.completeWaiting w c).Sound nothing := by
  -- The completion leaves the table; only the task it names can have asked for it.
  have he : ∀ c', c' ≠ c → (s.waiting.erase c)[c']? = s.waiting[c']? := by
    intro c' hne
    simp [Std.TreeMap.getElem?_erase, compare_eq_iff_eq, Ne.symm hne]
  have ht : ∀ other, s.tasks.get other ≠ some (.waiting c) →
      ({ s with waiting := s.waiting.erase c } : Scheduler).TaskRegistered (nothing other) other := by
    intro other hn
    refine (h.tasks other).frame (.inl rfl) rfl (fun _ => id) ?_ (fun _ _ => rfl) fun _ => id
    intro c' hg hw
    exact (he c' fun e => hn (e ▸ hg)).trans hw
  simp only [Scheduler.completeWaiting, takeWaiting]
  split
  · next s' heq =>
    obtain ⟨hno, rfl⟩ := Prod.mk.inj heq
    refine ⟨h.separate, fun other => ht other fun hg => ?_⟩
    have := (taskRegistered_waiting hg).mp (h.tasks other)
    rw [hno] at this
    cases this
  · next task s' heq =>
    obtain ⟨hm, rfl⟩ := Prod.mk.inj heq
    have hb : ({ s with waiting := s.waiting.erase c } : Scheduler).SoundBut task nothing := by
      refine ⟨h.separate, fun other hne => ht other fun hg => hne ?_⟩
      have := (taskRegistered_waiting hg).mp (h.tasks other)
      rw [hm] at this
      exact (Option.some.inj this).symm
    split
    · next hg =>
      obtain ⟨hne, ha⟩ := hc task hm hg
      have hb' : ({ s with waiting := s.waiting.erase c } : Scheduler).noteUnblocked.SoundBut task nothing :=
        ⟨hb.separate, fun other ho => (hb.others other ho).frame (.inl rfl) rfl (fun _ => id)
          (fun _ _ => id) (fun _ _ => rfl) fun _ => id⟩
      have hs := sound_indexStatus hb' w (w.taskStatus task)
        (ha.congr rfl fun _ => rfl) fun state hi hst => by
          change s.tasks.get task = some state at hst
          change s.tasks.get task = _ at hg
          rw [hg] at hst
          obtain rfl := Option.some.inj hst
          cases hu : w.taskStatus task <;> simp_all [indexedState]
      rwa [settle_nothing] at hs
    · next hg =>
      have := hb.sound (ht task hg)
      rwa [settle_nothing] at this

theorem Sound.completeCompletion (h : s.Sound nothing) (w : World) (c : CompletionKey)
    (hc : CleanCompletion w s c) : (s.completeCompletion w c).Sound nothing :=
  (sound_takeParkedCompletion (h.completeWaiting w c hc.1) c).wakeParkedTasks hc.2

def CleanEvents (w : World) (s : Scheduler) : Prop :=
  w.scheduleEvents.isEmpty = false →
    let events := w.scheduleEvents.prepareDrain
    let dropped := events.removed.reverse.foldl dropTask s
    let woken := events.wakes.reverse.foldl (fun s key => s.wake w key) dropped
    Along (CleanWake w) (fun s key => s.wake w key) events.wakes.reverse dropped ∧
      Along (fun s task => s.includeRoot ∨ task.vm ≠ w.root → s.Admits w task (w.taskStatus task))
        (refreshReady w) events.ready.reverse woken

theorem Sound.consumeEvents (h : s.Sound nothing) (w : World) (hc : CleanEvents w s) :
    (s.consumeEvents w).Sound nothing := by
  unfold Scheduler.consumeEvents
  split
  · exact h
  · next he =>
    obtain ⟨hw, hr⟩ := hc (by simpa using he)
    have hd : ∀ (l : List TaskKey) (s : Scheduler), s.Sound nothing →
        (l.foldl Scheduler.dropTask s).Sound nothing := by
      intro l
      induction l with
      | nil => exact fun _ h => h
      | cons a l ih => exact fun s h => ih _ (h.dropTask a)
    have hk := foldl_keeps (I := Sound nothing) (fun s key hs hcl => Sound.wake hs w key hcl) _ _
      (hd _ _ h) hw
    refine foldl_keeps (I := Sound nothing) (fun s task hs ha => ?_) _ _ hk hr
    unfold refreshReady
    split
    · next ho => exact hs.indexStatus w _ _ (ha ho)
    · exact hs

/-- The condition along the queue loop: every status that the loop meets can be indexed. -/
def CleanReady (w : World) : ℕ → Scheduler → Prop
  | 0, _ => True
  | n + 1, s =>
    match s.ready with
    | [] => True
    | (task, ticket) :: rest =>
      let s := { s with ready := rest }
      if s.tasks.get task ≠ some (.queued ticket) then CleanReady w n s
      else w.taskStatus task ≠ .ready → s.Admits w task (w.taskStatus task) ∧
        CleanReady w n (s.indexStatus w task (w.taskStatus task))

theorem Sound.nextReadyLoop {w : World} (n : ℕ) (h : s.Sound nothing)
    (hc : CleanReady w n s) : (Scheduler.nextReadyLoop w n s).2.Sound nothing := by
  induction n generalizing s with
  | zero => exact h
  | succ n ih =>
    unfold CleanReady at hc
    unfold Scheduler.nextReadyLoop
    split
    · exact h
    · next task ticket rest hr =>
      rw [hr] at hc
      have hs : ({ s with ready := rest } : Scheduler).Sound nothing := h.congr rfl rfl rfl rfl rfl
      dsimp only at hc ⊢
      split
      · next hg =>
        rw [if_pos hg] at hc
        exact ih hs hc
      · next hg =>
        rw [if_neg hg] at hc
        split
        · exact hs
        · next hst => exact ih (hs.indexStatus w _ _ (hc hst).1) (hc hst).2

def CleanExit (w : World) (s : Scheduler) (task : TaskKey) : Option SliceExit → Prop
  | some .yielded => True
  | some (.blocked wake) => s.Admits w task (.blocked wake)
  | some (.waiting completion) => s.Admits w task (.waiting completion)
  | some (.parked wait) => s.Admits w task (.parked wait)
  | some .terminal => CleanWake w (s.dropTask task) (.send task) ∧
      CleanWake w ((s.dropTask task).wake w (.send task)) (.done task)
  | none => s.Admits w task (w.taskStatus task)

theorem Sound.finishSlice (h : s.Sound nothing) (w : World) (task : TaskKey)
    (exit : Option SliceExit) (hc : CleanExit w s task exit) : (s.finishSlice w task exit).Sound nothing := by
  cases exit with
  | none => exact h.indexStatus w task _ hc
  | some exit =>
    cases exit with
    | yielded => exact h.indexStatus w task .ready trivial
    | blocked wake => exact h.indexStatus w task (.blocked wake) hc
    | waiting completion => exact h.indexStatus w task (.waiting completion) hc
    | parked wait => exact h.indexStatus w task (.parked wait) hc
    | terminal => exact ((h.dropTask task).wake w _ hc.1).wake w _ hc.2

theorem Sound.markRunning (h : s.Sound nothing) (task : TaskKey) : (s.markRunning task).Sound nothing := by
  refine ⟨h.separate.insert rfl fun _ _ _ => by simp, fun other => ?_⟩
  by_cases hne : other = task
  · simp [TaskRegistered, Scheduler.markRunning, TaskIndex.get_insert, hne]
  · exact (h.tasks other).frame_insert hne rfl rfl (fun _ => id) (fun _ _ _ => id) (fun _ _ _ => rfl)
      (fun _ => id)

theorem sound_empty (includeRoot : Bool) : ({ includeRoot } : Scheduler).Sound nothing := by
  refine ⟨⟨?_, ?_⟩, ?_⟩
  · intro a b c ha
    cases ha
  · intro a b c ha
    cases ha
  · intro task
    trivial

def Clean (s : Scheduler) (a : Step) : Prop :=
  match a.op with
  | .reset includeRoot =>
    let seeds := a.world.schedulerSeeds includeRoot
    Along (fun s (seed : TaskKey × TaskStatus) => s.Admits a.world seed.1 seed.2) (indexSeed a.world)
        seeds { includeRoot } ∧
      CleanEvents a.world (seeds.foldl (indexSeed a.world) { includeRoot })
  | .consumeEvents => CleanEvents a.world s
  | .wake key => CleanWake a.world s key
  | .wakeParked waiters =>
    Along (fun s task => s.isParked task → s.Admits a.world task (a.world.taskStatus task))
      (wakeParkedTask a.world) waiters.toList s
  | .completeCompletion completion => CleanCompletion a.world s completion
  | .nextReady => CleanReady a.world s.ready.length s
  | .finishSlice task exit => CleanExit a.world s task exit
  | .block task key => s.Admits a.world task (.blocked key)
  | .wait task completion => s.Admits a.world task (.waiting completion)
  | .park task wait => s.Admits a.world task (.parked wait)
  | .markRunning _ | .enqueue _ | .dropTask _ => True

theorem Sound.step (h : s.Sound nothing) (a : Step) (hc : s.Clean a) : (s.step a).Sound nothing := by
  obtain ⟨w, op⟩ := a
  cases op with
  | reset includeRoot =>
    have hs := foldl_keeps (I := Sound nothing) (fun s (seed : TaskKey × TaskStatus) hs ha =>
      Sound.indexStatus hs w _ _ ha) _ _ (sound_empty includeRoot) hc.1
    exact hs.consumeEvents w hc.2
  | consumeEvents => exact h.consumeEvents w hc
  | wake key => exact h.wake w key hc
  | wakeParked waiters =>
    refine foldl_keeps (I := Sound nothing) (fun s task hs ha => ?_) _ _ h hc
    unfold wakeParkedTask
    split
    · next hp =>
      obtain ⟨ht, hbk, -⟩ := noteReady_fields s w task
      exact (hs.noteReady w task).indexStatus w task _ ((ha hp).congr ht fun _ => by rw [hbk])
    · exact hs
  | completeCompletion completion => exact h.completeCompletion w completion hc
  | nextReady => exact h.nextReadyLoop _ hc
  | markRunning task => exact h.markRunning task
  | finishSlice task exit => exact h.finishSlice w task exit hc
  | enqueue task => exact h.indexStatus w task .ready trivial
  | block task key => exact h.indexStatus w task (.blocked key) hc
  | wait task completion => exact h.indexStatus w task (.waiting completion) hc
  | park task wait => exact h.indexStatus w task (.parked wait) hc
  | dropTask task => exact h.dropTask task

/-- In a run of clean steps every state keeps every waiting task where its wake finds it. -/
theorem registered_of_clean (steps : List Step) (h : Along Clean step steps {}) (n : ℕ) :
    (run (steps.take n)).Registered ∧ ∀ task wake, (run (steps.take n)).tasks.get task = some (.blocked wake) →
        ∃ waiters, ((run (steps.take n)).blocked.take wake).1 = some waiters ∧ task ∈ waiters.toList := by
  have hs : (run (steps.take n)).Sound nothing :=
    foldl_keeps (I := Sound nothing) (fun s a hs hc => hs.step a hc) _ _ (sound_empty true) (h.take n)
  refine ⟨hs.registered, ?_⟩
  intro task wake hg
  have hold := hs.registered.blocked task wake hg wake (.inl rfl)
  cases ht : ((run (steps.take n)).blocked.take wake).1 with
  | none => exact absurd hold ((take_none ht).2 task)
  | some waiters => exact ⟨waiters, rfl, ((take_some ht).1 task).mpr hold⟩

section Mailbox

def sender : TaskKey := ⟨1, 0⟩
def receiver : TaskKey := ⟨2, 0⟩

def thawedFull : World where
  taskStatus := fun _ => .blocked (.send receiver)
  procs := [sender]
  scheduleEvents := { wakes := [.send receiver] }

def drained : World where
  taskStatus := fun _ => .ready
  procs := [sender]
  scheduleEvents := { wakes := [.send receiver] }

def quiet : World where
  taskStatus := fun _ => .blocked (.send receiver)
  procs := [sender]

theorem registered_of_clean_drained : (run [⟨quiet, .reset false⟩, ⟨drained, .consumeEvents⟩]).Registered := by
  refine (registered_of_clean [⟨quiet, .reset false⟩, ⟨drained, .consumeEvents⟩] ?_ 2).1
  refine ⟨⟨⟨fun _ _ => rfl, trivial⟩, fun h => by cases h⟩, fun _ => ⟨⟨⟨⟨?_, trivial⟩, trivial⟩, trivial⟩, trivial⟩,
    trivial⟩
  intro primary _ _
  exact ⟨by simp [drained], trivial⟩

/-- The wake of the thaw takes the sender out of the index, and the next wake misses it. -/
theorem thawed_full_mailbox_loses_sender :
    ¬ (run [⟨quiet, .reset false⟩, ⟨thawedFull, .consumeEvents⟩]).Registered ∧
      (run [⟨quiet, .reset false⟩, ⟨thawedFull, .consumeEvents⟩, ⟨drained, .consumeEvents⟩]).tasks.get
        sender = some (.blocked (.send receiver)) := by
  constructor
  · intro h
    obtain ⟨b, hb, -⟩ := h.blocked sender (.send receiver) (by decide) (.send receiver) (.inl rfl)
    have hn : (run [⟨quiet, .reset false⟩, ⟨thawedFull, .consumeEvents⟩]).blocked.bucket
        (.send receiver) = none := by decide
    rw [hn] at hb
    cases hb
  · decide

end Mailbox

end Scheduler

end LoomV4.Proc
