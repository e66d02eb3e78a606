import LoomV4.Proc.ReadyQueue

namespace LoomV4.Proc

open List

/--
`fail_waiting_task` of the world. It leaves a suspended task yielded and faults any other,
so the status it leaves is never a wait.
-/
structure HostFailure where
  fail : World → TaskKey → World
  settles : ∀ w task, (fail w task).taskStatus task = .ready ∨ (fail w task).taskStatus task = .terminal ∨
    (fail w task).taskStatus task = .dormant

def ParkIndex.tasksWithCompletions (x : ParkIndex) : List TaskKey :=
  (((x.completions.toList.map Prod.snd).flatMap Waiters.toList).insertionSort (· ≤ ·)).dedup

namespace Scheduler

def failedTasks (s : Scheduler) : List TaskKey :=
  ((s.waiting.toList.map Prod.snd ++ s.parked.tasksWithCompletions).insertionSort (· ≤ ·)).dedup

def failTask (f : HostFailure) (p : World × Scheduler) (task : TaskKey) : World × Scheduler :=
  (f.fail p.1 task, p.2.refresh (f.fail p.1 task) task)

def failWaiting (s : Scheduler) (w : World) (f : HostFailure) : World × Scheduler :=
  s.failedTasks.foldl (failTask f) (w, { s with waiting := {}, parked := {} })

/-- Each index entry of a host wait belongs to a task in that state, and the other way. -/
structure Indexed (s : Scheduler) : Prop where
  registered : s.Registered
  queued : ∀ task t, s.tasks.get task = some (.queued t) → (task, t) ∈ s.ready
  waiting : ∀ c task, s.waiting[c]? = some task → s.tasks.get task = some (.waiting c)
  parked : ∀ c task, s.parked.Holds task (.completion c) → ∃ wait sources,
    s.tasks.get task = some (.parked wait) ∧ s.parked.sets[wait]? = some sources ∧ .completion c ∈ sources
  sources : ∀ task wait, s.tasks.get task = some (.parked wait) → s.parked.sets[wait]? ≠ some []

def WaitsForHost (s : Scheduler) (task : TaskKey) : Prop :=
  (∃ c, s.tasks.get task = some (.waiting c)) ∨ ∃ wait sources c,
    s.tasks.get task = some (.parked wait) ∧ s.parked.sets[wait]? = some sources ∧ .completion c ∈ sources

/-- A ready task is in the queue under its ticket, and any other task has left the index. -/
def Refreshed (s : Scheduler) (status : TaskStatus) (task : TaskKey) : Prop :=
  match status with
  | .ready => ∃ t, s.tasks.get task = some (.queued t) ∧ (task, t) ∈ s.ready
  | _ => s.tasks.get task = none

section Failed

variable {s s' : Scheduler} {w : World} {task other : TaskKey}

theorem mem_values {β : Type} {m : Std.TreeMap CompletionKey β} {b : β} :
    b ∈ m.toList.map Prod.snd ↔ ∃ c : CompletionKey, m[c]? = some b := by
  have : Std.LawfulEqOrd CompletionKey := ⟨compare_eq_iff_eq.mp⟩
  simp only [mem_map, Prod.exists, exists_eq_right, Std.TreeMap.mem_toList_iff_getElem?_eq_some]

theorem mem_failedTasks (h : s.Indexed) : task ∈ s.failedTasks ↔ s.WaitsForHost task := by
  have hp : task ∈ s.parked.tasksWithCompletions ↔ ∃ c, s.parked.Holds task (.completion c) := by
    simp only [ParkIndex.tasksWithCompletions, mem_dedup, mem_insertionSort, mem_flatMap, mem_values, ParkIndex.Holds]
    constructor
    · rintro ⟨ws, ⟨c, hc⟩, hm⟩
      exact ⟨c, ws, hc, hm⟩
    · rintro ⟨c, ws, hc, hm⟩
      exact ⟨ws, ⟨c, hc⟩, hm⟩
  simp only [failedTasks, mem_dedup, mem_insertionSort, mem_append, hp, mem_values]
  apply or_congr
  · exact exists_congr fun c => ⟨h.waiting c task, h.registered.waiting task c⟩
  · constructor
    · rintro ⟨c, hc⟩
      obtain ⟨wait, sources, hw⟩ := h.parked c task hc
      exact ⟨wait, sources, c, hw⟩
    · rintro ⟨wait, sources, c, hg, hs, hm⟩
      obtain ⟨sources', hs', hh⟩ := h.registered.parked task wait hg
      exact ⟨c, hh _ (Option.mem_unique hs hs' ▸ hm)⟩

structure Kept (other : TaskKey) (s s' : Scheduler) : Prop where
  task : s'.tasks.get other = s.tasks.get other
  keys : s'.blockKeys[other]? = s.blockKeys[other]?
  blocked : ∀ key, s.blocked.Holds key other → s'.blocked.Holds key other
  ready : ∀ t, (other, t) ∈ s.ready → (other, t) ∈ s'.ready

theorem kept_removeIndex (hne : other ≠ task) : Kept other s (s.removeIndex task) :=
  ⟨by rw [removeIndex_tasks], removeIndex_blockKeys_ne s task hne, removeIndex_blocked s task hne, by simp⟩

theorem Kept.trans {s'' : Scheduler} (h : Kept other s s') (h' : Kept other s' s'') : Kept other s s'' :=
  ⟨h'.task.trans h.task, h'.keys.trans h.keys, fun key hk => h'.blocked key (h.blocked key hk),
    fun t ht => h'.ready t (h.ready t ht)⟩

theorem refresh_settled (f : HostFailure) :
    s.refresh (f.fail w task) task = s.enqueue task ∨ s.refresh (f.fail w task) task = s.dropTask task := by
  unfold refresh
  rcases f.settles w task with he | he | he <;> rw [he]
  · exact .inl rfl
  · exact .inr rfl
  · exact .inr rfl

theorem kept_refresh {state : IndexedState} (f : HostFailure) (hg : s.tasks.get task = some state) (hne : other ≠ task) :
    Kept other s (s.refresh (f.fail w task) task) := by
  rcases refresh_settled f with he | he <;> rw [he]
  · unfold enqueue
    split
    · exact ⟨rfl, rfl, fun _ => id, fun _ => id⟩
    · refine (kept_removeIndex hne).trans ⟨?_, rfl, fun _ => id, fun t ht => mem_append_left _ ht⟩
      simp only [TaskIndex.get_insert, removeIndex_tasks, if_neg hne]
      split
      · next hv => exact (get_eq_none_of_vm hg hne hv).symm
      · rfl
  · refine (kept_removeIndex hne).trans ⟨?_, rfl, fun _ => id, fun _ => id⟩
    simp [dropTask, TaskIndex.get_remove, hne]

theorem refresh_parked (f : HostFailure) (h : s.parked = {}) : (s.refresh (f.fail w task) task).parked = {} := by
  have hr : (s.removeIndex task).parked = {} := by
    unfold removeIndex
    split
    · split <;> exact h
    · exact h
    · simp [h, ParkIndex.remove]
    · exact h
  rcases refresh_settled f with he | he <;> rw [he]
  · unfold enqueue
    split
    · exact h
    · exact hr
  · exact hr

theorem refreshed_refresh {c : CompletionKey} {wait : WaitSetKey} (f : HostFailure)
    (hg : s.tasks.get task = some (.waiting c) ∨ s.tasks.get task = some (.parked wait)) :
    (s.refresh (f.fail w task) task).Refreshed ((f.fail w task).taskStatus task) task := by
  have hq : s.isQueued task = false := by
    rcases hg with hg | hg <;> simp only [isQueued, hg]
  rcases f.settles w task with he | he | he
  · have hr : s.refresh (f.fail w task) task = s.enqueue task := by rw [refresh, he, indexStatus]
    rw [hr, he, enqueue, hq]
    exact ⟨_, by simp [TaskIndex.get_insert], mem_append_right _ (mem_singleton_self _)⟩
  all_goals
    rw [refresh, he]
    simp [Refreshed, indexStatus, dropTask, TaskIndex.get_remove]

theorem Refreshed.kept {status : TaskStatus} (h : s.Refreshed status other) (hk : Kept other s s') :
    s'.Refreshed status other := by
  cases status with
  | ready =>
    obtain ⟨t, hg, ht⟩ := h
    exact ⟨t, hk.task.trans hg, hk.ready t ht⟩
  | _ => exact hk.task.trans h

/-- The loop has failed the tasks of `done`: each is indexed by the status it was left in, and no other task moved. -/
structure Failing (f : HostFailure) (s : Scheduler) (w : World) (done : List TaskKey) (p : World × Scheduler) : Prop where
  world : p.1 = done.foldl f.fail w
  parked : p.2.parked = {}
  kept : ∀ other, other ∉ done → Kept other s p.2
  refreshed : ∀ i task, done[i]? = some task →
    p.2.Refreshed (((done.take (i + 1)).foldl f.fail w).taskStatus task) task

theorem Failing.turn {f : HostFailure} {done : List TaskKey} {p : World × Scheduler} (h : Failing f s w done p)
    (hw : s.WaitsForHost task) (hn : task ∉ done) : Failing f s w (done ++ [task]) (failTask f p task) := by
  obtain ⟨c, wait, hg⟩ : ∃ c wait, s.tasks.get task = some (.waiting c) ∨ s.tasks.get task = some (.parked wait) := by
    rcases hw with ⟨c, hg⟩ | ⟨wait, -, c, hg, -⟩
    · exact ⟨c, ⟨task, 0⟩, .inl hg⟩
    · exact ⟨c, wait, .inr hg⟩
  rw [← (h.kept task hn).task] at hg
  have hkept : ∀ other, other ≠ task → Kept other p.2 (failTask f p task).2 := fun other hne =>
    hg.elim (fun hg => kept_refresh f hg hne) fun hg => kept_refresh f hg hne
  refine ⟨?_, refresh_parked f h.parked, ?_, ?_⟩
  · rw [failTask, h.world, foldl_append, foldl_cons, foldl_nil]
  · intro other ho
    rw [mem_append, mem_singleton, not_or] at ho
    exact (h.kept other ho.1).trans (hkept other ho.2)
  · intro i other hi
    rw [getElem?_append] at hi
    split at hi
    · next hlt =>
      rw [take_append_of_le_length hlt]
      refine (h.refreshed i other hi).kept (hkept other ?_)
      rintro rfl
      exact hn (mem_of_getElem? hi)
    · next hge =>
      rw [getElem?_singleton, ite_eq_iff] at hi
      obtain ⟨hlast, hi⟩ | ⟨-, hi⟩ := hi
      · cases hi
        rw [take_of_length_le (by simp; omega), foldl_append, foldl_cons, foldl_nil, ← h.world]
        exact refreshed_refresh f hg
      · cases hi

theorem failWaiting_spec (h : s.Indexed) (w : World) (f : HostFailure) :
    Failing f s w s.failedTasks (s.failWaiting w f) := by
  have hrun : ∀ (l done : List TaskKey) (p : World × Scheduler), (done ++ l).Nodup →
      (∀ task ∈ l, s.WaitsForHost task) → Failing f s w done p → Failing f s w (done ++ l) (l.foldl (failTask f) p) := by
    intro l
    induction l with
    | nil =>
      intro done p _ _ hf
      rwa [append_nil]
    | cons task l ih =>
      intro done p hn hl hf
      have ht : task ∉ done := fun hm => (nodup_append.mp hn).2.2 task hm task mem_cons_self rfl
      rw [append_cons] at hn ⊢
      exact ih _ _ hn (fun t hm => hl t (mem_cons_of_mem _ hm)) (hf.turn (hl task mem_cons_self) ht)
  apply hrun _ [] _ (nodup_dedup _) (fun task => (mem_failedTasks h).mp)
  refine ⟨rfl, rfl, fun other _ => ⟨rfl, rfl, fun _ => id, fun _ => id⟩, ?_⟩
  intro i task hi
  cases hi

end Failed

/--
The failure of the host goes through the tasks that wait for it, each once, and leaves the others in the index. The
status that `fail_waiting_task` left a task in is the one of its own turn.
-/
structure FailsOnlyHost (f : HostFailure) (s : Scheduler) (w : World) (w' : World) (s' : Scheduler) : Prop where
  blocked : ∀ task wake, s.tasks.get task = some (.blocked wake) → s'.tasks.get task = some (.blocked wake) ∧
    ∀ key, s.HoldsKey task wake key → s'.HoldsKey task wake key ∧ s'.blocked.Holds key task
  parked : ∀ task wait sources, s.tasks.get task = some (.parked wait) → s.parked.sets[wait]? = some sources →
    (∀ c, .completion c ∉ sources) → ∀ key, .wake key ∈ sources → s'.parked.Holds task (.wake key)
  queued : ∀ task t, s.tasks.get task = some (.queued t) →
    s'.tasks.get task = some (.queued t) ∧ (task, t) ∈ s'.ready
  spared : ∀ task, ¬ s.WaitsForHost task → s'.tasks.get task = s.tasks.get task
  failed : ∃ tasks : List TaskKey, tasks.Nodup ∧ (∀ task, task ∈ tasks ↔ s.WaitsForHost task) ∧
    w' = tasks.foldl f.fail w ∧
    ∀ i task, tasks[i]? = some task →
      s'.Refreshed (((tasks.take (i + 1)).foldl f.fail w).taskStatus task) task

end Scheduler

open Scheduler

theorem fail_waiting_spares_iff (s : Scheduler) (w : World) (f : HostFailure) (h : s.Indexed) :
    FailsOnlyHost f s w (s.failWaiting w f).1 (s.failWaiting w f).2 ↔
      ∀ task wait sources, s.tasks.get task = some (.parked wait) → s.parked.sets[wait]? = some sources →
        ∃ c, .completion c ∈ sources := by
  have hf := failWaiting_spec h w f
  have hk : ∀ task, ¬ s.WaitsForHost task → Kept task s (s.failWaiting w f).2 := fun task hn =>
    hf.kept task fun hm => hn ((mem_failedTasks h).mp hm)
  constructor
  · intro ho task wait sources hg hs
    by_contra hc
    push Not at hc
    obtain ⟨source, hm⟩ := exists_mem_of_ne_nil sources fun e => h.sources task wait hg (e ▸ hs)
    cases source with
    | completion c => exact hc c hm
    | wake key =>
      obtain ⟨bucket, hb, -⟩ := ho.parked task wait sources hg hs hc key hm
      simp [hf.parked, WakeIndex.bucket] at hb
  · intro hc
    have hno : ∀ task state, s.tasks.get task = some state → (∀ c, state ≠ .waiting c) →
        (∀ wait, state ≠ .parked wait) → ¬ s.WaitsForHost task := by
      rintro task state hg hw hp (⟨c, hg'⟩ | ⟨wait, -, -, hg', -⟩)
      · exact hw c (Option.mem_unique hg hg')
      · exact hp wait (Option.mem_unique hg hg')
    refine ⟨?_, ?_, ?_, fun task hn => (hk task hn).task, s.failedTasks, nodup_dedup _, fun task => mem_failedTasks h,
      hf.world, hf.refreshed⟩
    · intro task wake hg
      have hkept := hk task (hno task _ hg (fun c he => by cases he) fun wait he => by cases he)
      refine ⟨hkept.task.trans hg, fun key hkey => ⟨?_, hkept.blocked key (h.registered.blocked task wake hg key hkey)⟩⟩
      rw [HoldsKey, hkept.keys]
      exact hkey
    · intro task wait sources hg hs hn
      obtain ⟨c, hm⟩ := hc task wait sources hg hs
      exact absurd hm (hn c)
    · intro task t hg
      have hkept := hk task (hno task _ hg (fun c he => by cases he) fun wait he => by cases he)
      exact ⟨hkept.task.trans hg, hkept.ready t (h.queued task t hg)⟩

/-- A run of `wait` and `park` where one task waits for the host and the other for a proc. -/
def mixedWaits : Scheduler :=
  (({} : Scheduler).wait ⟨1, 0⟩ ⟨⟨1, 0⟩, 0⟩).park
    { taskStatus := fun _ => .dormant, waitSources := fun _ => [.wake (.done ⟨1, 0⟩)] } ⟨2, 0⟩ ⟨⟨2, 0⟩, 0⟩

theorem mixedWaits_get {task : TaskKey} {state : IndexedState} (h : mixedWaits.tasks.get task = some state) :
    (task = ⟨2, 0⟩ ∧ state = .parked ⟨⟨2, 0⟩, 0⟩) ∨ (task = ⟨1, 0⟩ ∧ state = .waiting ⟨⟨1, 0⟩, 0⟩) := by
  have ht : mixedWaits.tasks = (({} : TaskIndex).insert ⟨1, 0⟩ (.waiting ⟨⟨1, 0⟩, 0⟩)).insert ⟨2, 0⟩
    (.parked ⟨⟨2, 0⟩, 0⟩) := rfl
  rw [ht, TaskIndex.get_insert, TaskIndex.get_insert] at h
  split_ifs at h with h2 _ h1
  · exact .inl ⟨h2, (Option.some.inj h).symm⟩
  · exact .inr ⟨h1, (Option.some.inj h).symm⟩
  · simp [TaskIndex.get] at h

theorem mixedWaits_indexed : mixedWaits.Indexed := by
  refine ⟨⟨?_, ?_, ?_⟩, ?_, ?_, ?_, ?_⟩
  · intro task wake hg
    rcases mixedWaits_get hg with ⟨-, he⟩ | ⟨-, he⟩ <;> cases he
  · intro task wait hg
    rcases mixedWaits_get hg with ⟨rfl, he⟩ | ⟨-, he⟩ <;> cases he
    refine ⟨[.wake (.done ⟨1, 0⟩)], rfl, fun source hm => ?_⟩
    rw [mem_singleton.mp hm]
    exact ⟨⟨.done ⟨1, 0⟩, .one ⟨2, 0⟩⟩, rfl, by simp [Waiters.toList]⟩
  · intro task c hg
    rcases mixedWaits_get hg with ⟨-, he⟩ | ⟨rfl, he⟩ <;> cases he
    rfl
  · intro task t hg
    rcases mixedWaits_get hg with ⟨-, he⟩ | ⟨-, he⟩ <;> cases he
  · intro c task hg
    have hw : mixedWaits.waiting = ({} : Std.TreeMap CompletionKey TaskKey).insert ⟨⟨1, 0⟩, 0⟩ ⟨1, 0⟩ := rfl
    rw [hw, Std.TreeMap.getElem?_insert] at hg
    split at hg
    · next hc =>
      cases hg
      rw [← compare_eq_iff_eq.mp hc]
      rfl
    · simp at hg
  · rintro c task ⟨waiters, hw, -⟩
    have hc : mixedWaits.parked.completions = {} := rfl
    simp [hc] at hw
  · intro task wait hg
    rcases mixedWaits_get hg with ⟨-, he⟩ | ⟨-, he⟩ <;> cases he
    intro hs
    cases hs

theorem fail_waiting_loses_parked :
    let f : HostFailure := ⟨fun w _ => { w with taskStatus := fun _ => .terminal }, fun _ _ => .inr (.inl rfl)⟩
    let s := (mixedWaits.failWaiting { taskStatus := fun _ => .dormant } f).2
    mixedWaits.Indexed ∧ mixedWaits.parked.Holds ⟨2, 0⟩ (.wake (.done ⟨1, 0⟩)) ∧
      s.tasks.get ⟨2, 0⟩ = some (.parked ⟨⟨2, 0⟩, 0⟩) ∧ ¬ s.parked.Holds ⟨2, 0⟩ (.wake (.done ⟨1, 0⟩)) ∧
      (s.wake { taskStatus := fun _ => .ready } (.done ⟨1, 0⟩)).tasks.get ⟨2, 0⟩ = some (.parked ⟨⟨2, 0⟩, 0⟩) := by
  refine ⟨mixedWaits_indexed, ⟨⟨.done ⟨1, 0⟩, .one ⟨2, 0⟩⟩, rfl, by simp [Waiters.toList]⟩, by decide +kernel, ?_,
    by decide +kernel⟩
  rintro ⟨bucket, hb, -⟩
  simp [(failWaiting_spec mixedWaits_indexed _ _).parked, WakeIndex.bucket] at hb

theorem fail_waiting_spares_iff_mixed :
    let f : HostFailure := ⟨fun w _ => { w with taskStatus := fun _ => .terminal }, fun _ _ => .inr (.inl rfl)⟩
    let failed := mixedWaits.failWaiting { taskStatus := fun _ => .dormant } f
    ¬ FailsOnlyHost f mixedWaits { taskStatus := fun _ => .dormant } failed.1 failed.2 := by
  intro f failed hf
  obtain ⟨c, hc⟩ := (fail_waiting_spares_iff mixedWaits { taskStatus := fun _ => .dormant } f mixedWaits_indexed).mp hf
    ⟨2, 0⟩ ⟨⟨2, 0⟩, 0⟩ [.wake (.done ⟨1, 0⟩)] rfl rfl
  simp at hc

end LoomV4.Proc
