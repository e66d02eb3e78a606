import LoomV4.Proc.Scheduler

/-!
Which registrations survive a run of the scheduler. A task that waits must stay
in the index that its wake reads.
-/

namespace LoomV4.Proc

open Lib ParkIndex TaskIndex

namespace Scheduler

structure Registered (s : Scheduler) : Prop where
  blocked : ∀ task wake, s.tasks.get task = some (.blocked wake) →
    ∀ key, s.HoldsKey task wake key → s.blocked.Holds key task
  parked : ∀ task wait, s.tasks.get task = some (.parked wait) →
    ∃ sources, s.parked.sets[wait]? = some sources ∧ ∀ source ∈ sources, s.parked.Holds task source
  waiting : ∀ task completion, s.tasks.get task = some (.waiting completion) →
    s.waiting[completion]? = some task

inductive Entry
  | blocked (key : WakeKey)
  | parked (source : WaitSourceKey)

def TaskRegistered (s : Scheduler) (taken : Entry → Prop) (task : TaskKey) : Prop :=
  match s.tasks.get task with
  | some (.blocked wake) =>
    ∀ key, s.HoldsKey task wake key → ¬ taken (.blocked key) → s.blocked.Holds key task
  | some (.waiting completion) => s.waiting[completion]? = some task
  | some (.parked wait) => ∃ sources, s.parked.sets[wait]? = some sources ∧
      ∀ source ∈ sources, ¬ taken (.parked source) → s.parked.Holds task source
  | _ => True

section Cases

variable {s : Scheduler} {taken : Entry → Prop} {task : TaskKey}

theorem taskRegistered_blocked {wake : WakeKey} (hg : s.tasks.get task = some (.blocked wake)) :
    s.TaskRegistered taken task ↔
      ∀ key, s.HoldsKey task wake key → ¬ taken (.blocked key) → s.blocked.Holds key task := by
  simp only [TaskRegistered, hg]

theorem taskRegistered_waiting {c : CompletionKey} (hg : s.tasks.get task = some (.waiting c)) :
    s.TaskRegistered taken task ↔ s.waiting[c]? = some task := by
  simp only [TaskRegistered, hg]

theorem taskRegistered_parked {wait : WaitSetKey} (hg : s.tasks.get task = some (.parked wait)) :
    s.TaskRegistered taken task ↔ ∃ sources, s.parked.sets[wait]? = some sources ∧
      ∀ source ∈ sources, ¬ taken (.parked source) → s.parked.Holds task source := by
  simp only [TaskRegistered, hg]

theorem taskRegistered_of (hb : ∀ wake, s.tasks.get task = some (.blocked wake) →
      ∀ key, s.HoldsKey task wake key → ¬ taken (.blocked key) → s.blocked.Holds key task)
    (hw : ∀ c, s.tasks.get task = some (.waiting c) → s.waiting[c]? = some task)
    (hp : ∀ wait, s.tasks.get task = some (.parked wait) → ∃ sources, s.parked.sets[wait]? = some sources ∧
      ∀ source ∈ sources, ¬ taken (.parked source) → s.parked.Holds task source) :
    s.TaskRegistered taken task := by
  unfold TaskRegistered
  split
  · next wake hg => exact hb wake hg
  · next c hg => exact hw c hg
  · next wait hg => exact hp wait hg
  · trivial

theorem TaskRegistered.mono {taken' : Entry → Prop} (h : s.TaskRegistered taken task)
    (hb : ∀ wake key, s.tasks.get task = some (.blocked wake) → s.HoldsKey task wake key →
      taken (.blocked key) → taken' (.blocked key))
    (hp : ∀ wait sources source, s.tasks.get task = some (.parked wait) →
      s.parked.sets[wait]? = some sources → source ∈ sources → taken (.parked source) → taken' (.parked source)) :
    s.TaskRegistered taken' task := by
  apply taskRegistered_of
  · intro wake hg key hk hn
    exact (taskRegistered_blocked hg).mp h key hk (fun ht => hn (hb wake key hg hk ht))
  · exact fun c hg => (taskRegistered_waiting hg).mp h
  · intro wait hg
    obtain ⟨sources, h1, h2⟩ := (taskRegistered_parked hg).mp h
    exact ⟨sources, h1, fun source hm hn => h2 source hm (fun ht => hn (hp wait sources source hg h1 hm ht))⟩

end Cases

def Separate (s : Scheduler) : Prop :=
  (∀ a b c, s.tasks.get a = some (.waiting c) → s.tasks.get b = some (.waiting c) → a = b) ∧
    ∀ a b w, s.tasks.get a = some (.parked w) → s.tasks.get b = some (.parked w) → a = b

structure Sound (taken : TaskKey → Entry → Prop) (s : Scheduler) : Prop where
  separate : s.Separate
  tasks : ∀ task, s.TaskRegistered (taken task) task

structure SoundBut (task : TaskKey) (taken : TaskKey → Entry → Prop) (s : Scheduler) : Prop where
  separate : s.Separate
  others : ∀ other ≠ task, s.TaskRegistered (taken other) other

def nothing : TaskKey → Entry → Prop := fun _ _ => False

variable {s : Scheduler}

theorem Sound.registered (h : s.Sound nothing) : s.Registered := by
  refine ⟨?_, ?_, ?_⟩
  · exact fun task wake hg key hk => (taskRegistered_blocked hg).mp (h.tasks task) key hk id
  · intro task wait hg
    obtain ⟨sources, hs, hh⟩ := (taskRegistered_parked hg).mp (h.tasks task)
    exact ⟨sources, hs, fun source hm => hh source hm id⟩
  · exact fun task c hg => (taskRegistered_waiting hg).mp (h.tasks task)

variable {taken : TaskKey → Entry → Prop}

theorem Sound.but (h : s.Sound taken) (task : TaskKey) :
    s.SoundBut task taken := ⟨h.separate, fun other _ => h.tasks other⟩

variable {s' : Scheduler} {task : TaskKey}

theorem TaskRegistered.frame {taken : Entry → Prop} (h : s.TaskRegistered taken task)
    (hg : s'.tasks.get task = s.tasks.get task ∨ s'.tasks.get task = none)
    (hk : s'.blockKeys[task]? = s.blockKeys[task]?)
    (hb : ∀ key, s.blocked.Holds key task → s'.blocked.Holds key task)
    (hw : ∀ c, s.tasks.get task = some (.waiting c) → s.waiting[c]? = some task → s'.waiting[c]? = some task)
    (hs : ∀ w, s.tasks.get task = some (.parked w) → s'.parked.sets[w]? = s.parked.sets[w]?)
    (hp : ∀ source, s.parked.Holds task source → s'.parked.Holds task source) : s'.TaskRegistered taken task := by
  rcases hg with hg | hg
  · apply taskRegistered_of
    · intro wake hg' key hk' hn
      rw [HoldsKey, hk] at hk'
      exact hb key ((taskRegistered_blocked (hg ▸ hg')).mp h key hk' hn)
    · intro c hg'
      exact hw c (hg ▸ hg') ((taskRegistered_waiting (hg ▸ hg')).mp h)
    · intro wait hg'
      obtain ⟨sources, h1, h2⟩ := (taskRegistered_parked (hg ▸ hg')).mp h
      exact ⟨sources, (hs wait (hg ▸ hg')).trans h1, fun source hm hn => hp source (h2 source hm hn)⟩
  · simp only [TaskRegistered, hg]

section RemoveIndex

variable (s : Scheduler) (task : TaskKey)

@[simp] theorem removeIndex_tasks : (s.removeIndex task).tasks = s.tasks := by
  unfold removeIndex
  split
  · split <;> rfl
  all_goals rfl

variable {other : TaskKey}

theorem removeIndex_blockKeys_ne (h : other ≠ task) :
    (s.removeIndex task).blockKeys[other]? = s.blockKeys[other]? := by
  unfold removeIndex
  split
  · split
    · simp [Std.TreeMap.getElem?_erase, compare_eq_iff_eq, Ne.symm h]
    · rfl
  all_goals rfl

theorem removeIndex_blockKeys_self {wake : WakeKey} (h : s.tasks.get task = some (.blocked wake)) :
    (s.removeIndex task).blockKeys[task]? = none := by
  simp only [removeIndex, h]
  split
  · simp
  · assumption

theorem foldl_remove_holds {task : TaskKey} (hne : other ≠ task) (keys : List WakeKey)
    (x : WakeIndex) (key : WakeKey) (h : x.Holds key other) :
    (keys.foldl (fun x key => x.remove key task) x).Holds key other :=
  List.foldlRecOn (motive := (WakeIndex.Holds · key other)) keys _ h fun _ hx _ _ => WakeIndex.holds_remove (.inr hne) hx

theorem removeIndex_blocked (hne : other ≠ task) (key : WakeKey)
    (h : s.blocked.Holds key other) : (s.removeIndex task).blocked.Holds key other := by
  unfold removeIndex
  split
  · split
    · exact foldl_remove_holds hne _ _ _ h
    · exact WakeIndex.holds_remove (.inr hne) h
  all_goals exact h

theorem removeIndex_waiting {c : CompletionKey} (h : s.tasks.get task ≠ some (.waiting c)) :
    (s.removeIndex task).waiting[c]? = s.waiting[c]? := by
  unfold removeIndex
  split
  · split <;> rfl
  · next c' hc =>
    have : c' ≠ c := fun e => h (e ▸ hc)
    simp [Std.TreeMap.getElem?_erase, compare_eq_iff_eq, this]
  all_goals rfl

theorem removeIndex_sets {w : WaitSetKey} (h : s.tasks.get task ≠ some (.parked w)) :
    (s.removeIndex task).parked.sets[w]? = s.parked.sets[w]? := by
  unfold removeIndex
  split
  · split <;> rfl
  · rfl
  · next w' hw =>
    have : w ≠ w' := fun e => h (e ▸ hw)
    simp [sets_remove, this]
  · rfl

theorem removeIndex_parked (hne : other ≠ task) (source : WaitSourceKey)
    (h : s.parked.Holds other source) : (s.removeIndex task).parked.Holds other source := by
  unfold removeIndex
  split
  · split <;> exact h
  · exact h
  · exact holds_remove _ hne h
  · exact h

end RemoveIndex

theorem SoundBut.removeIndex (h : s.SoundBut task taken) : (s.removeIndex task).SoundBut task taken := by
  refine ⟨?_, ?_⟩
  · simpa only [Separate, removeIndex_tasks] using h.separate
  · intro other hne
    apply (h.others other hne).frame (.inl (by simp)) (removeIndex_blockKeys_ne s task hne)
      (fun key => removeIndex_blocked s task hne key) _ _ (fun source => removeIndex_parked s task hne source)
    · intro c hg hw
      rw [removeIndex_waiting s task (fun e => hne (h.separate.1 _ _ _ hg e)), hw]
    · intro w hg
      exact removeIndex_sets s task (fun e => hne (h.separate.2 _ _ _ hg e))

variable {state : IndexedState}

theorem TaskRegistered.frame_insert {taken : Entry → Prop} {other : TaskKey} (h : s.TaskRegistered taken other)
    (hne : other ≠ task)
    (ht : s'.tasks = s.tasks.insert task state) (hk : s'.blockKeys[other]? = s.blockKeys[other]?)
    (hb : ∀ key, s.blocked.Holds key other → s'.blocked.Holds key other)
    (hw : ∀ c, other.vm ≠ task.vm → s.tasks.get other = some (.waiting c) →
      s.waiting[c]? = some other → s'.waiting[c]? = some other)
    (hs : ∀ w, other.vm ≠ task.vm → s.tasks.get other = some (.parked w) → s'.parked.sets[w]? = s.parked.sets[w]?)
    (hp : ∀ source, s.parked.Holds other source → s'.parked.Holds other source) :
    s'.TaskRegistered taken other := by
  by_cases hv : other.vm = task.vm
  · simp [TaskRegistered, ht, get_insert, hne, hv]
  · apply h.frame (.inl _) hk hb (fun c => hw c hv) (fun w => hs w hv) hp
    rw [ht, get_insert, if_neg hne, if_neg hv]

theorem Separate.insert (h : s.Separate) (ht : s'.tasks = s.tasks.insert task state)
    (hs : ∀ other, other.vm ≠ task.vm → s.tasks.get other = some state →
      (∀ c, state ≠ .waiting c) ∧ ∀ w, state ≠ .parked w) : s'.Separate := by
  have hg : ∀ a st, s'.tasks.get a = some st →
      (a = task ∧ st = state) ∨ (a ≠ task ∧ a.vm ≠ task.vm ∧ s.tasks.get a = some st) := by
    intro a st ha
    rw [ht, get_insert] at ha
    split at ha
    · exact .inl ⟨by assumption, (Option.some.inj ha).symm⟩
    · split at ha
      · cases ha
      · exact .inr ⟨by assumption, by assumption, ha⟩
  constructor
  · intro a b c ha hb
    rcases hg a _ ha with ⟨rfl, hst⟩ | ⟨-, hva, ha'⟩ <;> rcases hg b _ hb with ⟨rfl, hst'⟩ | ⟨-, hvb, hb'⟩
    · rfl
    · exact absurd hst.symm ((hs b hvb (hst ▸ hb')).1 c)
    · exact absurd hst'.symm ((hs a hva (hst' ▸ ha')).1 c)
    · exact h.1 a b c ha' hb'
  · intro a b w ha hb
    rcases hg a _ ha with ⟨rfl, hst⟩ | ⟨-, hva, ha'⟩ <;> rcases hg b _ hb with ⟨rfl, hst'⟩ | ⟨-, hvb, hb'⟩
    · rfl
    · exact absurd hst.symm ((hs b hvb (hst ▸ hb')).2 w)
    · exact absurd hst'.symm ((hs a hva (hst' ▸ ha')).2 w)
    · exact h.2 a b w ha' hb'

def settle (taken : TaskKey → Entry → Prop) (task : TaskKey) : TaskKey → Entry → Prop :=
  fun other entry => other ≠ task ∧ taken other entry

theorem SoundBut.sound (h : s.SoundBut task taken) (ht : s.TaskRegistered (fun _ => False) task) :
    s.Sound (settle taken task) := by
  refine ⟨h.separate, ?_⟩
  intro other
  by_cases hne : other = task
  · have he : settle taken task other = fun _ => False := by funext e; simp [settle, hne]
    rw [he, hne]
    exact ht
  · have he : settle taken task other = taken other := by funext e; simp [settle, hne]
    rw [he]
    exact h.others other hne

theorem sound_enqueue (h : s.SoundBut task taken) : (s.enqueue task).Sound (settle taken task) := by
  unfold enqueue
  split
  · next hq =>
    apply h.sound
    unfold isQueued at hq
    unfold TaskRegistered
    split at hq
    · next heq => rw [heq]; trivial
    · cases hq
  · have h' := h.removeIndex
    dsimp only
    apply SoundBut.sound
    · refine ⟨h'.separate.insert rfl (fun _ _ _ => by simp), ?_⟩
      intro other hne
      exact (h'.others other hne).frame_insert hne rfl rfl (fun _ => id) (fun _ _ _ => id)
        (fun _ _ _ => rfl) (fun _ => id)
    · simp [TaskRegistered, get_insert]

theorem sound_dropTask (h : s.SoundBut task taken) : (s.dropTask task).Sound (settle taken task) := by
  have h' := h.removeIndex
  have he : ∀ other st, ((s.removeIndex task).tasks.remove task).get other = some st →
      (s.removeIndex task).tasks.get other = some st := by
    intro other st hg
    rw [get_remove] at hg
    split at hg
    · cases hg
    · exact hg
  apply SoundBut.sound
  · refine ⟨⟨fun a b c ha hb => h'.separate.1 a b c (he a _ ha) (he b _ hb),
      fun a b w ha hb => h'.separate.2 a b w (he a _ ha) (he b _ hb)⟩, ?_⟩
    intro other hne
    refine (h'.others other hne).frame (.inl ?_) rfl (fun _ => id) (fun _ _ => id)
      (fun _ _ => rfl) (fun _ => id)
    simp [dropTask, get_remove, hne]
  · simp [dropTask, TaskRegistered, get_remove]

theorem foldl_insert_holds {other : TaskKey} (keys : List WakeKey) (x : WakeIndex) (key : WakeKey) :
    (keys.foldl (fun x key => x.insert key task) x).Holds key other ↔
      (key ∈ keys ∧ other = task) ∨ x.Holds key other := by
  induction keys generalizing x with
  | nil => simp
  | cons k keys ih =>
    simp only [List.foldl_cons, ih, WakeIndex.holds_insert, List.mem_cons]
    tauto

/--
The conditions under which a task can take a status. A completion and a wait set belong to
one machine, and a task that is not indexed as blocked has no extra keys left to it.
-/
def Admits (s : Scheduler) (w : World) (task : TaskKey) : TaskStatus → Prop
  | .blocked wake => (w.blockWakes task wake).length ≤ 1 →
      (∀ key, s.tasks.get task ≠ some (.blocked key)) → s.blockKeys[task]? = none
  | .waiting c => ∀ other, other.vm ≠ task.vm → s.tasks.get other ≠ some (.waiting c)
  | .parked wait => w.waitSources wait = [] ∨
      ∀ other, other.vm ≠ task.vm → s.tasks.get other ≠ some (.parked wait)
  | _ => True

variable {w : World}

theorem sound_block {wake : WakeKey} (h : s.SoundBut task taken) (ha : s.Admits w task (.blocked wake))
    (hs : s.tasks.get task = some (.blocked wake) → s.TaskRegistered (fun _ => False) task) :
    (s.block w task wake).Sound (settle taken task) := by
  unfold block
  split
  · next hg => exact h.sound (hs hg)
  · have h' := h.removeIndex
    dsimp only
    apply SoundBut.sound
    · refine ⟨h'.separate.insert rfl (fun _ _ _ => by simp), ?_⟩
      intro other hne
      refine (h'.others other hne).frame_insert hne rfl ?_
        (fun key hk => (foldl_insert_holds _ _ _).mpr (.inr hk)) (fun _ _ _ => id)
        (fun _ _ _ => rfl) (fun _ => id)
      dsimp only
      split
      · simp [Std.TreeMap.getElem?_insert, compare_eq_iff_eq, Ne.symm hne]
      · rfl
    · -- A single key relies on the extras of the last block being gone.
      simp only [TaskRegistered, get_insert, ↓reduceIte]
      intro key hk _
      refine (foldl_insert_holds _ _ _).mpr (.inl ⟨?_, rfl⟩)
      rcases hk with rfl | ⟨keys, hk, hm⟩
      · exact w.mem_blockWakes task wake
      · dsimp only at hk
        split at hk
        · rw [Std.TreeMap.getElem?_insert_self] at hk
          exact Option.some.inj hk ▸ hm
        · next hl =>
          have hn : (s.removeIndex task).blockKeys[task]? = none := by
            by_cases hb : ∃ key, s.tasks.get task = some (.blocked key)
            · obtain ⟨key, hb⟩ := hb
              exact removeIndex_blockKeys_self s task hb
            · have := ha (by omega) (fun key hg => hb ⟨key, hg⟩)
              unfold removeIndex
              split
              · next hg => exact absurd ⟨_, hg⟩ hb
              all_goals exact this
          rw [hn] at hk
          cases hk

theorem sound_wait {c : CompletionKey} (h : s.SoundBut task taken) (ha : s.Admits w task (.waiting c))
    (hs : s.tasks.get task = some (.waiting c) → s.TaskRegistered (fun _ => False) task) :
    (s.wait task c).Sound (settle taken task) := by
  unfold wait
  split
  · next hg => exact h.sound (hs hg)
  · have h' := h.removeIndex
    dsimp only
    apply SoundBut.sound
    · refine ⟨h'.separate.insert rfl (fun other hv hg => absurd (by simpa using hg) (ha other hv)), ?_⟩
      intro other hne
      refine (h'.others other hne).frame_insert hne rfl rfl (fun _ => id) ?_
        (fun _ _ _ => rfl) (fun _ => id)
      intro c' hv hg hw
      have hcc : c ≠ c' := by
        rintro rfl
        exact ha other hv (by simpa using hg)
      simpa [Std.TreeMap.getElem?_insert, compare_eq_iff_eq, hcc] using hw
    · simp [TaskRegistered, get_insert]

theorem sound_park {wait : WaitSetKey} (h : s.SoundBut task taken) (ha : s.Admits w task (.parked wait))
    (he : s.tasks.get task = some (.parked wait) → s.TaskRegistered (fun _ => False) task) :
    (s.park w task wait).Sound (settle taken task) := by
  unfold park
  split
  · next hg => exact h.sound (he hg)
  · have h' := h.removeIndex
    dsimp only
    split
    · exact sound_enqueue h'
    · next hn =>
      have ha := ha.resolve_left (by simpa using hn)
      apply SoundBut.sound
      · refine ⟨h'.separate.insert rfl (fun other hv hg => absurd (by simpa using hg) (ha other hv)), ?_⟩
        intro other hne
        refine (h'.others other hne).frame_insert hne rfl rfl (fun _ => id) (fun _ _ _ => id) ?_ ?_
        · intro wait' hv hg
          have hww : wait' ≠ wait := by
            rintro rfl
            exact ha other hv (by simpa using hg)
          simp [sets_insert, hww]
        · intro source hs
          exact (holds_insert _ _ _ _ _ _).mpr (.inr (holds_remove _ hne hs))
      · simp only [TaskRegistered, get_insert, ↓reduceIte]
        refine ⟨w.waitSources wait, by simp [sets_insert], ?_⟩
        intro source hm _
        exact (holds_insert _ _ _ _ _ _).mpr (.inl ⟨hm, rfl⟩)

def indexedState : TaskStatus → Option IndexedState
  | .blocked wake => some (.blocked wake)
  | .waiting completion => some (.waiting completion)
  | .parked wait => some (.parked wait)
  | _ => none

theorem sound_indexStatus (h : s.SoundBut task taken) (w : World) (status : TaskStatus) (ha : s.Admits w task status)
    (hs : ∀ state, indexedState status = some state → s.tasks.get task = some state →
      s.TaskRegistered (fun _ => False) task) :
    (s.indexStatus w task status).Sound (settle taken task) := by
  cases status with
  | ready => exact sound_enqueue h
  | blocked wake => exact sound_block h ha (hs _ rfl)
  | waiting completion => exact sound_wait h ha (hs _ rfl)
  | parked wait => exact sound_park h ha (hs _ rfl)
  | terminal => exact sound_dropTask h
  | dormant => exact sound_dropTask h

theorem settle_nothing (task : TaskKey) : settle nothing task = nothing := by
  funext other entry
  simp [settle, nothing]

theorem Sound.indexStatus (h : s.Sound nothing) (w : World) (task : TaskKey)
    (status : TaskStatus) (ha : s.Admits w task status) : (s.indexStatus w task status).Sound nothing := by
  have := sound_indexStatus (h.but task) w status ha (fun _ _ _ => h.tasks task)
  rwa [settle_nothing] at this

theorem Sound.dropTask (h : s.Sound nothing) (task : TaskKey) : (s.dropTask task).Sound nothing := by
  have := sound_dropTask (h.but task)
  rwa [settle_nothing] at this

theorem Sound.congr (h : s.Sound taken)
    (ht : s'.tasks = s.tasks) (hk : s'.blockKeys = s.blockKeys) (hb : s'.blocked = s.blocked)
    (hw : s'.waiting = s.waiting) (hp : s'.parked = s.parked) : s'.Sound taken := by
  obtain ⟨⟨h1, h2⟩, h3⟩ := h
  refine ⟨⟨by rwa [ht], by rwa [ht]⟩, fun task => ?_⟩
  have := h3 task
  simpa only [TaskRegistered, HoldsKey, ht, hk, hb, hw, hp] using this

end Scheduler

end LoomV4.Proc
