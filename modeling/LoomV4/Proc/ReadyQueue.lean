import LoomV4.Proc.Registration
import Mathlib.Data.List.Nodup

/-!
The ready queue keeps stale entries on purpose. A ticket tells the live entry of a task
from those it left behind.
-/

namespace LoomV4.Proc

open List TaskIndex

/-- `wait_set_status` answers `Parked` only for a wait set that has a source. -/
def World.Sourced (w : World) : Prop :=
  ∀ task wait, w.taskStatus task = .parked wait → w.waitSources wait ≠ []

namespace Scheduler

def nextParallelLoop (w : World) (stopped : List TaskKey) : ℕ → Scheduler → Option TaskKey × Scheduler
  | 0, s => (none, s)
  | n + 1, s =>
    match s.ready with
    | [] => (none, s)
    | (task, ticket) :: rest =>
      let s := { s with ready := rest }
      if s.tasks.get task ≠ some (.queued ticket) then nextParallelLoop w stopped n s
      else if w.taskStatus task = .ready then
        if task ∈ stopped then
          nextParallelLoop w stopped n { s with ready := s.ready ++ [(task, ticket)] }
        else (some task, s)
      else nextParallelLoop w stopped n (s.indexStatus w task (w.taskStatus task))

def nextParallelReady (s : Scheduler) (w : World) (stopped : List TaskKey) : Option TaskKey × Scheduler :=
  nextParallelLoop w stopped s.ready.length s

/-- Both run loops mark the task they take before anything else reads the index. -/
def started : Option TaskKey × Scheduler → Scheduler
  | (some task, s) => s.markRunning task
  | (none, s) => s

inductive QueueOp
  | enqueue (task : TaskKey)
  | block (task : TaskKey) (key : WakeKey)
  | wait (task : TaskKey) (completion : CompletionKey)
  | park (task : TaskKey) (wait : WaitSetKey)
  | dropTask (task : TaskKey)
  | wake (key : WakeKey)
  | start
  | startParallel (stopped : List TaskKey)
  | finishSlice (task : TaskKey) (exit : Option SliceExit)

def queueStep (s : Scheduler) (a : World × QueueOp) : Scheduler :=
  match a.2 with
  | .enqueue task => s.enqueue task
  | .block task key => s.block a.1 task key
  | .wait task completion => s.wait task completion
  | .park task wait => s.park a.1 task wait
  | .dropTask task => s.dropTask task
  | .wake key => s.wake a.1 key
  | .start => started (s.nextReady a.1)
  | .startParallel stopped => started (s.nextParallelReady a.1 stopped)
  | .finishSlice task exit => s.finishSlice a.1 task exit

def queueRun (steps : List (World × QueueOp)) : Scheduler := steps.foldl queueStep {}

/-- `lost` is the task whose entry was popped while its state still says queued. -/
structure Queue (R : TaskKey × ℕ → TaskKey × ℕ → Prop) (lost : Option TaskKey) (s : Scheduler) : Prop where
  order : s.ready.Pairwise R
  bound : ∀ e ∈ s.ready, e.2 < s.readyTicket
  entry : ∀ task t, s.tasks.get task = some (.queued t) → lost ≠ some task → (task, t) ∈ s.ready

section Operations

variable {R : TaskKey × ℕ → TaskKey × ℕ → Prop} {s s' : Scheduler} {w : World} {task : TaskKey}

@[simp] theorem removeIndex_ready : (s.removeIndex task).ready = s.ready := by
  unfold removeIndex
  split
  · split <;> rfl
  all_goals rfl

@[simp] theorem removeIndex_readyTicket : (s.removeIndex task).readyTicket = s.readyTicket := by
  unfold removeIndex
  split
  · split <;> rfl
  all_goals rfl

variable {lost : Option TaskKey}

theorem Queue.keep {lost' : Option TaskKey} (h : s.Queue R lost) (hr : s'.ready = s.ready)
    (ht : s'.readyTicket = s.readyTicket)
    (hq : ∀ other t, s'.tasks.get other = some (.queued t) → lost' ≠ some other →
      s.tasks.get other = some (.queued t) ∧ lost ≠ some other) : s'.Queue R lost' := by
  refine ⟨hr ▸ h.order, fun e he => ht ▸ h.bound e (hr ▸ he), ?_⟩
  intro other t hg hl
  obtain ⟨hg', hl'⟩ := hq other t hg hl
  exact hr ▸ h.entry other t hg' hl'

theorem Queue.view (h : s.Queue R lost) (hr : s'.ready = s.ready)
    (ht : s'.readyTicket = s.readyTicket) (hs : s'.tasks = s.tasks) : s'.Queue R lost :=
  h.keep hr ht fun _ _ hg hl => ⟨hs ▸ hg, hl⟩

theorem Queue.removeIndex (h : s.Queue R lost) : (s.removeIndex task).Queue R lost :=
  h.view removeIndex_ready removeIndex_readyTicket (removeIndex_tasks s task)

theorem Queue.settle {state : IndexedState} (h : s.Queue R (some task)) (hr : s'.ready = s.ready)
    (ht : s'.readyTicket = s.readyTicket) (hs : s'.tasks = s.tasks.insert task state)
    (hn : ∀ t, state ≠ .queued t) : s'.Queue R none := by
  apply h.keep hr ht
  intro other t hg _
  rw [hs, get_insert] at hg
  split at hg
  · exact absurd (Option.some.inj hg) (hn t)
  · next hne =>
    split at hg
    · cases hg
    · exact ⟨hg, fun e => hne (Option.some.inj e).symm⟩

theorem Queue.settled (h : s.Queue R (some task)) (hn : ∀ t, s.tasks.get task ≠ some (.queued t)) :
    s.Queue R none := by
  apply h.keep rfl rfl
  exact fun other t hg _ => ⟨hg, fun e => hn t (Option.some.inj e ▸ hg)⟩

theorem Queue.but (h : s.Queue R none) (task : TaskKey) : s.Queue R (some task) :=
  h.keep rfl rfl fun _ _ hg _ => ⟨hg, nofun⟩

theorem Queue.indexed {status : TaskStatus} (h : s.Queue R (some task)) (hs : status ≠ .ready)
    (hp : ∀ wait, status = .parked wait → w.waitSources wait ≠ []) :
    (s.indexStatus w task status).Queue R none := by
  cases status with
  | ready => exact absurd rfl hs
  | blocked wake =>
    simp only [indexStatus, block]
    split
    · next hg => exact h.settled (by simp [hg])
    · exact h.removeIndex.settle rfl rfl rfl nofun
  | waiting completion =>
    simp only [indexStatus, wait]
    split
    · next hg => exact h.settled (by simp [hg])
    · exact h.removeIndex.settle rfl rfl rfl nofun
  | parked wait =>
    simp only [indexStatus, park]
    split
    · next hg => exact h.settled (by simp [hg])
    · rw [if_neg (by simpa using hp wait rfl)]
      exact h.removeIndex.settle rfl rfl rfl nofun
  | terminal | dormant =>
    refine h.keep removeIndex_ready removeIndex_readyTicket ?_
    intro other t hg _
    simp only [indexStatus, dropTask, removeIndex_tasks, get_remove] at hg
    split at hg
    · cases hg
    · next hne => exact ⟨hg, fun e => hne (Option.some.inj e).symm⟩

section Order

variable (hR : ∀ a b : TaskKey × ℕ, a.2 < b.2 → R a b)
include hR

section

variable (h : s.Queue R none)

include h

theorem Queue.enqueue : (s.enqueue task).Queue R none := by
  unfold Scheduler.enqueue
  split
  · exact h
  · have h' : (s.removeIndex task).Queue R none := h.removeIndex
    refine ⟨?_, ?_, ?_⟩
    · apply pairwise_append.mpr
      refine ⟨h'.order, pairwise_singleton _ _, ?_⟩
      intro a ha b hb
      rw [mem_singleton] at hb
      exact hR a b (hb ▸ h'.bound a ha)
    · intro e he
      rcases mem_append.mp he with he | he
      · exact (h'.bound e he).trans (Nat.lt_succ_self _)
      · rw [mem_singleton.mp he]
        exact Nat.lt_succ_self _
    · intro other t hg _
      dsimp only at hg ⊢
      rw [get_insert] at hg
      split at hg
      · next he =>
        cases hg
        exact mem_append_right _ (he ▸ mem_singleton_self _)
      · split at hg
        · cases hg
        · exact mem_append_left _ (h'.entry other t hg nofun)

theorem Queue.index (status : TaskStatus) : (s.indexStatus w task status).Queue R none := by
  by_cases hs : status = .ready
  · exact hs ▸ h.enqueue hR
  by_cases hp : ∀ wait, status = .parked wait → w.waitSources wait ≠ []
  · exact (h.but task).indexed hs hp
  · push Not at hp
    obtain ⟨wait, rfl, he⟩ := hp
    simp only [indexStatus, park]
    split
    · exact h
    · rw [if_pos (by simpa using he)]
      exact h.removeIndex.enqueue hR

theorem Queue.refreshed : ((s.noteReady w task).refresh w task).Queue R none := by
  apply Queue.index hR
  unfold noteReady
  split
  · exact h.view rfl rfl rfl
  · exact h

theorem Queue.wake (key : WakeKey) : (s.wake w key).Queue R none := by
  have hb : ((s.takeBlocked key).1.foldl (wakeBlocked w key) (s.takeBlocked key).2).Queue R none := by
    apply foldlRecOn
    · exact h.view rfl rfl rfl
    · intro s' hs task _
      unfold wakeBlocked
      split
      · split
        · exact hs.removeIndex.refreshed hR
        · exact hs
      · exact hs
  apply foldlRecOn
  · exact hb.view rfl rfl rfl
  · intro s' hs task _
    unfold wakeParkedTask
    split
    · exact hs.refreshed hR
    · exact hs

theorem Queue.finishSlice (exit : Option SliceExit) : (s.finishSlice w task exit).Queue R none := by
  match exit with
  | some .yielded => exact h.enqueue hR
  | some (.blocked wake) => exact h.index hR (.blocked wake)
  | some (.waiting completion) => exact h.index hR (w := w) (.waiting completion)
  | some (.parked wait) => exact h.index hR (.parked wait)
  | some .terminal => exact ((h.index hR (w := w) .terminal).wake hR _).wake hR _
  | none => exact h.index hR _

end

end Order

variable {rest : List (TaskKey × ℕ)}

variable {ticket : ℕ}

theorem Queue.pop (h : s.Queue R none)
    (hr : s.ready = (task, ticket) :: rest) : { s with ready := rest }.Queue R (some task) := by
  refine ⟨(pairwise_cons.mp (hr ▸ h.order)).2, fun e he => h.bound e (hr ▸ mem_cons_of_mem _ he), ?_⟩
  intro other t hg hl
  rcases mem_cons.mp (hr ▸ h.entry other t hg nofun) with he | he
  · exact absurd (congrArg some (Prod.ext_iff.mp he).1.symm) hl
  · exact he

theorem Queue.drop (h : s.Queue R none)
    (hr : s.ready = (task, ticket) :: rest) (hn : s.tasks.get task ≠ some (.queued ticket)) :
    { s with ready := rest }.Queue R none := by
  refine ⟨(h.pop hr).order, (h.pop hr).bound, ?_⟩
  intro other t hg _
  rcases mem_cons.mp (hr ▸ h.entry other t hg nofun) with he | he
  · cases he
    exact absurd hg hn
  · exact he

theorem Queue.rotate (h : s.Queue R none)
    (hr : s.ready = (task, ticket) :: rest) (hR : ∀ b, R (task, ticket) b → R b (task, ticket)) :
    { s with ready := rest ++ [(task, ticket)] }.Queue R none := by
  have hp : (rest ++ [(task, ticket)]).Perm s.ready := hr ▸ perm_append_singleton _ _
  have hc := pairwise_cons.mp (hr ▸ h.order)
  refine ⟨?_, fun e he => h.bound e (hp.mem_iff.mp he), fun other t hg _ => hp.mem_iff.mpr (h.entry other t hg nofun)⟩
  apply pairwise_append.mpr
  refine ⟨hc.2, pairwise_singleton _ _, ?_⟩
  intro a ha b hb
  rw [mem_singleton.mp hb]
  exact hR a (hc.1 a ha)

theorem Queue.parallelLoop {stopped : List TaskKey} (hw : w.Sourced)
    (hR : ∀ a b, a.1 ∈ stopped → w.taskStatus a.1 = .ready → R a b → R b a) (n : ℕ) (h : s.Queue R none) :
    (started (nextParallelLoop w stopped n s)).Queue R none := by
  induction n generalizing s with
  | zero => exact h
  | succ n ih =>
    unfold nextParallelLoop
    split
    · exact h
    · next task ticket rest hr =>
      dsimp only
      split
      · next hn => exact ih (h.drop hr hn)
      · split
        · next hs =>
          split
          · next hm => exact ih (h.rotate hr fun b => hR _ b hm hs)
          · exact (h.pop hr).settle rfl rfl rfl nofun
        · next hs => exact ih ((h.pop hr).indexed hs fun wait => hw task wait)

theorem nextReadyLoop_eq (n : ℕ) : nextReadyLoop w n s = nextParallelLoop w [] n s := by
  induction n generalizing s with
  | zero => rfl
  | succ n ih =>
    unfold nextReadyLoop nextParallelLoop
    cases s.ready with
    | nil => rfl
    | cons e rest => simp only [ih, not_mem_nil, if_false]

theorem Queue.step (hR : ∀ a b : TaskKey × ℕ, a.2 < b.2 → R a b) {a : World × QueueOp} (hw : a.1.Sourced)
    (hp : ∀ stopped, a.2 = .startParallel stopped →
      ∀ e e', e.1 ∈ stopped → a.1.taskStatus e.1 = .ready → R e e' → R e' e)
    (h : s.Queue R none) : (s.queueStep a).Queue R none := by
  obtain ⟨w, op⟩ := a
  cases op with
  | enqueue task => exact h.enqueue hR
  | block task key => exact h.index hR (.blocked key)
  | wait task completion => exact h.index hR (w := w) (.waiting completion)
  | park task wait => exact h.index hR (.parked wait)
  | dropTask task => exact h.index hR (w := w) .terminal
  | wake key => exact h.wake hR key
  | start =>
    simp only [queueStep, nextReady, nextReadyLoop_eq]
    exact h.parallelLoop hw (fun _ _ hm => absurd hm not_mem_nil) _
  | startParallel stopped => exact h.parallelLoop hw (hp stopped rfl) _
  | finishSlice task exit => exact h.finishSlice hR exit

theorem Queue.run (hR : ∀ a b : TaskKey × ℕ, a.2 < b.2 → R a b) {steps : List (World × QueueOp)}
    (hw : ∀ a ∈ steps, a.1.Sourced) (hp : ∀ a ∈ steps, ∀ stopped, a.2 = .startParallel stopped →
      ∀ e e', e.1 ∈ stopped → a.1.taskStatus e.1 = .ready → R e e' → R e' e) :
    (queueRun steps).Queue R none := by
  apply foldlRecOn
  · exact ⟨.nil, nofun, fun task t hg => by simp [TaskIndex.get] at hg⟩
  · exact fun s h a ha => h.step hR (hw a ha) (hp a ha)

end Operations

def Runnable (s : Scheduler) (w : World) (e : TaskKey × ℕ) : Prop :=
  s.tasks.get e.1 = some (.queued e.2) ∧ w.taskStatus e.1 = .ready

section Answers

variable {s : Scheduler} {w : World} {task : TaskKey}

theorem get_eq_none_of_vm {x : TaskIndex} {other : TaskKey} {state : IndexedState}
    (h : x.get task = some state) (hne : other ≠ task) (hv : other.vm = task.vm) : x.get other = none := by
  unfold TaskIndex.get at h ⊢
  rw [hv]
  split at h
  · next found hf =>
    split at h
    · next hk => simp [hk, Ne.symm hne]
    · cases h
  · cases h

theorem indexStatus_queued {t : ℕ} {status : TaskStatus} (hq : s.tasks.get task = some (.queued t))
    (hs : status ≠ .ready) : (s.indexStatus w task status).ready = s.ready ∧
      ∀ other ≠ task, (s.indexStatus w task status).tasks.get other = s.tasks.get other := by
  have hg : ∀ other ≠ task, ∀ state, (s.tasks.insert task state).get other = s.tasks.get other := by
    intro other hne state
    rw [get_insert, if_neg hne]
    split
    · next hv => exact (get_eq_none_of_vm hq hne hv).symm
    · rfl
  have hi : s.removeIndex task = s := by simp [removeIndex, hq]
  cases status with
  | ready => exact absurd rfl hs
  | blocked wake => simpa [indexStatus, block, hq, hi] using fun other hne => hg other hne _
  | waiting completion => simpa [indexStatus, wait, hq, hi] using fun other hne => hg other hne _
  | parked wait =>
    simp only [indexStatus, park, hq, hi, enqueue, isQueued]
    split
    · exact ⟨rfl, fun _ _ => rfl⟩
    · split
      · exact ⟨rfl, fun _ _ => rfl⟩
      · exact ⟨rfl, fun other hne => hg other hne _⟩
  | terminal | dormant =>
    exact ⟨by simp [indexStatus, dropTask, hi], fun other hne => by
      simp [indexStatus, dropTask, hi, get_remove, hne]⟩

/-- The entries before the one that the queue answers are stale or no longer ready. -/
structure Answers (s : Scheduler) (w : World) (r : Option TaskKey × Scheduler) : Prop where
  none : r.1 = none → ∀ e ∈ s.ready, ¬ s.Runnable w e
  some : ∀ task, r.1 = some task → ∃ before t, s.ready = before ++ (task, t) :: r.2.ready ∧
    s.Runnable w (task, t) ∧ ∀ e ∈ before, ¬ s.Runnable w e

theorem Answers.skip {s' : Scheduler} {e : TaskKey × ℕ} {r : Option TaskKey × Scheduler}
    (h : s'.Answers w r) (hr : s.ready = e :: s'.ready) (he : ¬ s.Runnable w e)
    (hs : ∀ e, s'.Runnable w e ↔ s.Runnable w e) : s.Answers w r := by
  refine ⟨?_, ?_⟩
  · intro hn
    rw [hr]
    exact forall_mem_cons.mpr ⟨he, fun e he' hc => h.none hn e he' ((hs e).mpr hc)⟩
  · intro task ht
    obtain ⟨before, t, hb, hc, hn⟩ := h.some task ht
    refine ⟨e :: before, t, ?_, (hs _).mp hc, ?_⟩
    · rw [hr, hb, cons_append]
    · exact forall_mem_cons.mpr ⟨he, fun e he' hc => hn e he' ((hs e).mpr hc)⟩

theorem nextReadyLoop_answers (n : ℕ) (hn : s.ready.length ≤ n) : s.Answers w (nextReadyLoop w n s) := by
  induction n generalizing s with
  | zero =>
    have hr : s.ready = [] := eq_nil_of_length_eq_zero (Nat.le_zero.mp hn)
    exact ⟨fun _ => by simp [hr], nofun⟩
  | succ n ih =>
    unfold nextReadyLoop
    split
    · next hr => exact ⟨fun _ => by simp [hr], nofun⟩
    · next task ticket rest hr =>
      have hl : rest.length ≤ n := by simpa [hr] using hn
      dsimp only
      split
      · next hg => exact (ih hl).skip hr (fun hc => hg hc.1) fun _ => .rfl
      · next hg =>
        split
        · next hs =>
          refine ⟨nofun, fun task' he => ?_⟩
          cases he
          exact ⟨[], ticket, hr, ⟨not_not.mp hg, hs⟩, nofun⟩
        · next hs =>
          obtain ⟨hr', hg'⟩ := indexStatus_queued (s := { s with ready := rest }) (w := w) (not_not.mp hg) hs
          refine (ih (hr'.symm ▸ hl)).skip (hr.trans (congrArg _ hr'.symm)) (fun hc => hs hc.2) ?_
          rintro ⟨other, t⟩
          by_cases hne : other = task
          · simp [Runnable, hne, hs]
          · simp only [Runnable, hg' other hne]

theorem nextReady_answers (s : Scheduler) (w : World) : s.Answers w (s.nextReady w) :=
  nextReadyLoop_answers _ le_rfl

theorem Queue.smallest (h : s.Queue (·.2 < ·.2) none) :
    (s.nextReady w).1 = some task ↔ ∃ t, s.Runnable w (task, t) ∧ ∀ e, s.Runnable w e → t ≤ e.2 := by
  have hle : ∀ task, (s.nextReady w).1 = some task →
      ∃ t, s.Runnable w (task, t) ∧ ∀ e, s.Runnable w e → e = (task, t) ∨ t < e.2 := by
    intro task ht
    obtain ⟨before, t, hb, hc, hn⟩ := (nextReady_answers s w).some task ht
    refine ⟨t, hc, ?_⟩
    intro e he
    have hm := h.entry e.1 e.2 he.1 nofun
    have ho := hb ▸ h.order
    rw [hb, mem_append, mem_cons] at hm
    rcases hm with hm | hm | hm
    · exact absurd he (hn e hm)
    · exact .inl hm
    · exact .inr ((pairwise_cons.mp (pairwise_append.mp ho).2.1).1 e hm)
  constructor
  · intro ht
    obtain ⟨t, hc, hn⟩ := hle task ht
    refine ⟨t, hc, fun e he => ?_⟩
    rcases hn e he with rfl | hlt
    · exact le_rfl
    · exact hlt.le
  · rintro ⟨t, hc, hn⟩
    cases hr : (s.nextReady w).1 with
    | none => exact absurd hc ((nextReady_answers s w).none hr _ (h.entry task t hc.1 nofun))
    | some task' =>
      obtain ⟨t', hc', hn'⟩ := hle task' hr
      rcases hn' _ hc with he | hlt
      · cases he
        rfl
      · exact absurd (hn _ hc') (Nat.not_le.mpr hlt)

end Answers

structure QueueExact (s : Scheduler) : Prop where
  tickets : (s.ready.map Prod.snd).Nodup
  below : ∀ e ∈ s.ready, e.2 < s.readyTicket
  queued : ∀ task t, s.tasks.get task = some (.queued t) → s.ready.count (task, t) = 1
  live : ∀ e ∈ s.ready, ∀ e' ∈ s.ready, s.tasks.get e.1 = some (.queued e.2) →
    s.tasks.get e'.1 = some (.queued e'.2) → e.1 = e'.1 → e = e'

end Scheduler

open Scheduler

theorem ready_queue_exact (steps : List (World × QueueOp)) (hw : ∀ a ∈ steps, a.1.Sourced) :
    (queueRun steps).QueueExact ∧ (∀ w, (queueRun steps).Answers w ((queueRun steps).nextReady w)) ∧
      ((∀ a ∈ steps, ∀ stopped, a.2 = .startParallel stopped → ∀ task ∈ stopped, a.1.taskStatus task ≠ .ready) →
        ∀ w task, ((queueRun steps).nextReady w).1 = some task ↔
          ∃ t, (queueRun steps).Runnable w (task, t) ∧ ∀ e, (queueRun steps).Runnable w e → t ≤ e.2) := by
  refine ⟨?_, fun w => nextReady_answers _ w, ?_⟩
  · have h : (queueRun steps).Queue (·.2 ≠ ·.2) none :=
      Queue.run (fun _ _ => ne_of_lt) hw fun _ _ _ _ _ _ _ _ hne => hne.symm
    have hn : ((queueRun steps).ready.map Prod.snd).Nodup := pairwise_map.mpr h.order
    refine ⟨hn, h.bound, ?_, ?_⟩
    · exact fun task t hg => count_eq_one_of_mem (List.Nodup.of_map _ hn) (h.entry task t hg nofun)
    · intro e _ e' _ hg hg' he
      rw [he, hg'] at hg
      exact Prod.ext he (IndexedState.queued.inj (Option.some.inj hg)).symm
  · intro hp w task
    exact (Queue.run (fun _ _ => id) hw fun a ha stopped hs e _ hm hr =>
      absurd hr (hp a ha stopped hs e.1 hm)).smallest

theorem ready_queue_exact_pair :
    let w : World := { taskStatus := fun _ => .ready }
    let s := queueRun [(w, .enqueue ⟨1, 0⟩), (w, .enqueue ⟨2, 0⟩), (w, .startParallel [])]
    s.QueueExact ∧ ((s.nextReady w).1 = some ⟨2, 0⟩ ↔
      ∃ t, s.Runnable w (⟨2, 0⟩, t) ∧ ∀ e, s.Runnable w e → t ≤ e.2) := by
  intro w s
  obtain ⟨he, -, hs⟩ := ready_queue_exact [(w, .enqueue ⟨1, 0⟩), (w, .enqueue ⟨2, 0⟩), (w, .startParallel [])]
    (by simp [World.Sourced, w])
  exact ⟨he, hs (by simp) w _⟩

/-- A stopped task goes to the back with its ticket, so a later task overtakes it. -/
theorem ready_queue_overtakes :
    let w : World := { taskStatus := fun _ => .ready }
    let s := queueRun [(w, .enqueue ⟨1, 0⟩), (w, .enqueue ⟨2, 0⟩), (w, .enqueue ⟨3, 0⟩), (w, .startParallel [⟨1, 0⟩])]
    w.Sourced ∧ s.Runnable w (⟨1, 0⟩, 0) ∧ s.tasks.get ⟨3, 0⟩ = some (.queued 2) ∧
      (s.nextReady w).1 = some ⟨3, 0⟩ := by
  refine ⟨by simp [World.Sourced], ⟨?_, rfl⟩, ?_, ?_⟩ <;> decide +kernel

end LoomV4.Proc
