import LoomV4.Proc.Events

/-!
One batch of scheduler events. The marks suppress most repeats, and the drain gives back what was pushed.
-/

namespace LoomV4.Proc

open List

section Marks

variable {α σ : Type} {slot : α → σ} {stamp : α → ℕ} {pushed values : List α} {mark mark' : σ → ℕ} {v : α}

/-- The value that set the mark of a slot is still in the batch. -/
def Marked (slot : α → σ) (stamp : α → ℕ) (values : List α) (mark : σ → ℕ) : Prop :=
  ∀ s, mark s ≠ 0 → ∃ v ∈ values, slot v = s ∧ stamp v = mark s

def clearMark [DecidableEq σ] (slot : α → σ) (stamp : α → ℕ) (mark : σ → ℕ) (v : α) (s : σ) : ℕ :=
  if s = slot v ∧ mark s = stamp v then 0 else mark s

theorem Marked.clear [DecidableEq σ] (h : Marked slot stamp (v :: values) mark) :
    Marked slot stamp values (clearMark slot stamp mark v) := by
  intro s hs
  unfold clearMark at hs ⊢
  split at hs
  · exact absurd rfl hs
  · next hn =>
    rw [if_neg hn]
    obtain ⟨u, hu, rfl, ht⟩ := h s hs
    rcases mem_cons.mp hu with rfl | hu
    · exact absurd ⟨rfl, ht.symm⟩ hn
    · exact ⟨u, hu, rfl, ht⟩

theorem Marked.clearAll [DecidableEq σ] (h : Marked slot stamp values mark) :
    Marked slot stamp [] (values.foldl (clearMark slot stamp) mark) := by
  induction values generalizing mark with
  | nil => exact h
  | cons v values ih => exact ih h.clear

structure Queued (slot : α → σ) (stamp : α → ℕ) (pushed values : List α) (mark : σ → ℕ) : Prop where
  marked : Marked slot stamp values mark
  mem : ∀ v, v ∈ values ↔ v ∈ pushed

theorem Queued.unmarked (h : Queued slot stamp [] values mark) (s : σ) : mark s = 0 := by
  by_contra hs
  obtain ⟨u, hu, -⟩ := h.marked s hs
  cases (h.mem u).mp hu

theorem Queued.add (h : Queued slot stamp pushed values mark)
    (hm : ∀ s, mark' s = mark s ∨ s = slot v ∧ mark' s = stamp v) :
    Queued slot stamp (pushed ++ [v]) (values ++ [v]) mark' := by
  refine ⟨fun s hs => ?_, fun u => ?_⟩
  · rcases hm s with he | ⟨rfl, he⟩
    · rw [he] at hs ⊢
      obtain ⟨u, hu, ht⟩ := h.marked s hs
      exact ⟨u, mem_append_left _ hu, ht⟩
    · exact ⟨v, mem_append_right _ (mem_singleton_self v), rfl, he.symm⟩
  · rw [mem_append, mem_append, h.mem]

theorem Queued.again (h : Queued slot stamp pushed values mark) (hs : mark (slot v) = stamp v) (hp : stamp v ≠ 0)
    (hi : ∀ u, slot u = slot v → stamp u = stamp v → u = v) : Queued slot stamp (pushed ++ [v]) values mark := by
  refine ⟨h.marked, fun u => ?_⟩
  obtain ⟨x, hx, hl, ht⟩ := h.marked (slot v) (hs ▸ hp)
  obtain rfl := hi x hl (ht.trans hs)
  rw [mem_append, mem_singleton, ← h.mem]
  constructor
  · exact .inl
  · rintro (hu | rfl)
    · exact hu
    · exact hx

end Marks

namespace ScheduleEvents

section Slots

def taskStamp (key : TaskKey) : ℕ := key.generation + 1

def taskMark (marks : List ℕ) (s : ℕ) : ℕ := marks[s]?.getD 0

def wakeSlot (wake : WakeKey) : ℕ × ℕ := ((wakeTask wake).vm, wake.lane)

def wakeStamp (wake : WakeKey) : ℕ := taskStamp (wakeTask wake)

def wakeMark (marks : List (List ℕ)) (s : ℕ × ℕ) : ℕ := (marks[s.1]?.getD (replicate 5 0))[s.2]?.getD 0

theorem setAt_getD {α : Type} (empty : α) (marks : List α) (slot : ℕ) (mark : α) (s : ℕ) :
    (setAt empty marks slot mark)[s]?.getD empty = if s = slot then mark else marks[s]?.getD empty := by
  unfold setAt
  rw [getElem?_set]
  by_cases he : slot = s
  · rw [if_pos he, if_pos he.symm, if_pos (by rw [length_append, length_replicate]; omega), Option.getD_some]
  · rw [if_neg he, if_neg (Ne.symm he), getElem?_append]
    split
    · rfl
    · next hl =>
      rw [getElem?_eq_none (not_lt.mp hl), getElem?_replicate]
      split <;> rfl

theorem modify_getD {α : Type} (empty : α) (marks : List α) (slot s : ℕ) (f : α → α) (hf : f empty = empty) :
    (marks.modify slot f)[s]?.getD empty = if s = slot then f (marks[s]?.getD empty) else marks[s]?.getD empty := by
  rw [getElem?_modify]
  by_cases he : slot = s
  · rw [if_pos he.symm]
    cases marks[s]? with
    | none => exact hf.symm
    | some m => simp [he]
  · rw [if_neg (Ne.symm he)]
    simp [he]

theorem eq_some_stamp {o : Option ℕ} {n : ℕ} : o = some (n + 1) ↔ o.getD 0 = n + 1 := by
  cases o with
  | none => simp
  | some m => simp

theorem task_eq {u v : TaskKey} (hv : u.vm = v.vm) (hg : taskStamp u = taskStamp v) : u = v := by
  cases u
  cases v
  simp_all [taskStamp]

theorem queued_pushTask {marks : List ℕ} {pushed tasks : List TaskKey}
    (h : Queued TaskKey.vm taskStamp pushed tasks (taskMark marks)) (key : TaskKey) :
    Queued TaskKey.vm taskStamp (pushed ++ [key]) (pushTask tasks marks key).1
      (taskMark (pushTask tasks marks key).2) := by
  unfold pushTask
  split
  · next hm =>
    exact h.again (eq_some_stamp.mp hm) (Nat.succ_ne_zero _) fun _ => task_eq
  · refine h.add fun s => ?_
    rw [taskMark, setAt_getD]
    split
    · next he => exact .inr ⟨he, rfl⟩
    · exact .inl rfl

theorem taskMark_clear (marks : List ℕ) (key : TaskKey) :
    clearMark TaskKey.vm taskStamp (taskMark marks) key = taskMark (clearTaskMark marks key) := by
  funext s
  have hm := modify_getD 0 marks key.vm s (fun mark => if mark = taskStamp key then 0 else mark) (ite_self 0)
  rw [clearMark, ite_and]
  exact hm.symm

theorem queued_pushWake {pushed : List WakeKey} {e : ScheduleEvents}
    (h : Queued wakeSlot wakeStamp pushed e.wakes (wakeMark e.wakeMarks)) (wake : WakeKey) :
    Queued wakeSlot wakeStamp (pushed ++ [wake]) (e.pushWake wake).wakes (wakeMark (e.pushWake wake).wakeMarks) := by
  unfold pushWake
  dsimp only
  split
  · next hm =>
    refine h.again (eq_some_stamp.mp hm) (Nat.succ_ne_zero _) fun u hv hg => ?_
    have ht := task_eq (congrArg Prod.fst hv) hg
    have hl : u.lane = wake.lane := congrArg Prod.snd hv
    cases u <;> cases wake <;> simp_all [WakeKey.lane, wakeTask]
  · refine h.add fun s => ?_
    simp only [wakeMark, setAt_getD]
    split
    · next he =>
      rw [getElem?_set, he]
      split
      · next hl =>
        split
        · exact .inr ⟨Prod.ext he hl.symm, rfl⟩
        · next hn => rw [← hl, getElem?_eq_none (not_lt.mp hn)]; exact .inl rfl
      · exact .inl rfl
    · exact .inl rfl

theorem wakeMark_clear (marks : List (List ℕ)) (wake : WakeKey) :
    clearMark wakeSlot wakeStamp (wakeMark marks) wake = wakeMark (clearWakeMark marks wake) := by
  funext s
  have hz : ((replicate 5 0).modify wake.lane fun mark => if mark = wakeStamp wake then 0 else mark) =
      replicate 5 0 := by
    refine ext_getElem? fun i => ?_
    rw [getElem?_modify, getElem?_replicate]
    split <;> simp
  have ho := modify_getD (replicate 5 0) marks (wakeTask wake).vm s.1
    (·.modify wake.lane fun mark => if mark = wakeStamp wake then 0 else mark) hz
  have hi := modify_getD 0 (marks[s.1]?.getD (replicate 5 0)) wake.lane s.2
    (fun mark => if mark = wakeStamp wake then 0 else mark) (ite_self 0)
  simp only [clearMark, wakeSlot, Prod.ext_iff, and_assoc, ite_and, wakeMark, clearWakeMark]
  by_cases hs : s.1 = (wakeTask wake).vm
  · rw [if_pos hs] at ho ⊢
    rw [← taskStamp, ← wakeStamp, ho, hi]
  · rw [if_neg hs] at ho ⊢
    rw [← taskStamp, ← wakeStamp, ho]

end Slots

section Batches

inductive Event
  | ready (key : TaskKey)
  | removed (key : TaskKey)
  | wake (key : WakeKey)
deriving DecidableEq

def Event.ready? : Event → Option TaskKey
  | .ready key => some key
  | _ => none

def Event.removed? : Event → Option TaskKey
  | .removed key => some key
  | _ => none

def Event.wake? : Event → Option WakeKey
  | .wake key => some key
  | _ => none

def push (e : ScheduleEvents) : Event → ScheduleEvents
  | .ready key => e.pushReady key
  | .removed key => e.pushRemoved key
  | .wake key => e.pushWake key

/-- The loop `while let Some(value) = values.pop()`. -/
def popAll {α : Type} (values : List α) : List α :=
  if h : values = [] then [] else values.getLast h :: popAll values.dropLast
termination_by values.length
decreasing_by
  have hp := length_pos_iff.mpr h
  rw [length_dropLast]
  omega

def drain (e : ScheduleEvents) : (List TaskKey × List WakeKey × List TaskKey) × ScheduleEvents :=
  let e := e.prepareDrain
  ((popAll e.removed, popAll e.wakes, popAll e.ready), { e with removed := [], wakes := [], ready := [] })

def afterBatches (batches : List (List Event)) : ScheduleEvents :=
  batches.foldl (fun e pushes => (pushes.foldl push e).drain.2) {}

def Popped {α : Type} [LT α] (pushed popped : List α) : Prop :=
  popped.Pairwise (· < ·) ∧ ∀ x, x ∈ popped ↔ x ∈ pushed

def Unmarked (e : ScheduleEvents) : Prop :=
  (∀ m ∈ e.readyMarks, m = 0) ∧ (∀ m ∈ e.removedMarks, m = 0) ∧ ∀ lanes ∈ e.wakeMarks, ∀ m ∈ lanes, m = 0

structure Holds (pushes : List Event) (e : ScheduleEvents) : Prop where
  ready : Queued TaskKey.vm taskStamp (pushes.filterMap Event.ready?) e.ready (taskMark e.readyMarks)
  removed : Queued TaskKey.vm taskStamp (pushes.filterMap Event.removed?) e.removed (taskMark e.removedMarks)
  wakes : Queued wakeSlot wakeStamp (pushes.filterMap Event.wake?) e.wakes (wakeMark e.wakeMarks)

variable {e : ScheduleEvents} {pushes : List Event}

theorem Holds.push (h : Holds pushes e) (event : Event) : Holds (pushes ++ [event]) (e.push event) := by
  obtain ⟨hr, hm, hw⟩ := h
  cases event with
  | ready key =>
    refine ⟨?_, ?_, ?_⟩ <;> rw [filterMap_append]
    · exact queued_pushTask hr key
    · exact (append_nil _).symm ▸ hm
    · exact (append_nil _).symm ▸ hw
  | removed key =>
    refine ⟨?_, ?_, ?_⟩ <;> rw [filterMap_append]
    · exact (append_nil _).symm ▸ hr
    · exact queued_pushTask hm key
    · exact (append_nil _).symm ▸ hw
  | wake key =>
    obtain ⟨wakes, wakeMarks, he⟩ : ∃ wakes wakeMarks, e.pushWake key = { e with wakes, wakeMarks } := by
      unfold pushWake
      dsimp only
      split <;> exact ⟨_, _, rfl⟩
    have hq := queued_pushWake hw key
    rw [he] at hq
    rw [ScheduleEvents.push, he]
    refine ⟨?_, ?_, ?_⟩ <;> rw [filterMap_append]
    · exact (append_nil _).symm ▸ hr
    · exact (append_nil _).symm ▸ hm
    · exact hq

theorem Holds.foldl (h : Holds [] e) (pushes : List Event) : Holds pushes (pushes.foldl ScheduleEvents.push e) := by
  induction pushes using reverseRecOn with
  | nil => exact h
  | append_singleton pushes event ih =>
    rw [foldl_append]
    exact ih.push event

theorem Holds.drain (h : Holds pushes e) : Holds [] e.drain.2 := by
  refine ⟨⟨?_, fun v => Iff.rfl⟩, ⟨?_, fun v => Iff.rfl⟩, ?_, fun v => Iff.rfl⟩
  · exact foldl_hom taskMark taskMark_clear ▸ h.ready.marked.clearAll
  · exact foldl_hom taskMark taskMark_clear ▸ h.removed.marked.clearAll
  · exact foldl_hom wakeMark wakeMark_clear ▸ h.wakes.marked.clearAll

theorem holds_afterBatches (batches : List (List Event)) : Holds [] (afterBatches batches) := by
  induction batches using reverseRecOn with
  | nil =>
    have hw : ∀ s, wakeMark [] s = 0 := fun s => by
      rw [wakeMark, getElem?_nil, Option.getD_none, getElem?_replicate]
      split <;> rfl
    exact ⟨⟨fun s hs => absurd rfl hs, fun v => Iff.rfl⟩, ⟨fun s hs => absurd rfl hs, fun v => Iff.rfl⟩,
      fun s hs => absurd (hw s) hs, fun v => Iff.rfl⟩
  | append_singleton batches pushes ih =>
    rw [afterBatches, foldl_append]
    exact (ih.foldl pushes).drain

theorem eq_zero_of_mem {marks : List ℕ} (h : ∀ s : ℕ, marks[s]?.getD 0 = 0) : ∀ m ∈ marks, m = 0 := by
  intro m hm
  obtain ⟨s, hs⟩ := getElem?_of_mem hm
  simpa [hs] using h s

theorem Holds.unmarked (h : Holds [] e) : e.Unmarked := by
  refine ⟨eq_zero_of_mem h.ready.unmarked, eq_zero_of_mem h.removed.unmarked, fun lanes hl => ?_⟩
  obtain ⟨s, hs⟩ := getElem?_of_mem hl
  refine eq_zero_of_mem fun l => ?_
  simpa [wakeMark, hs] using h.wakes.unmarked (s, l)

theorem popAll_eq {α : Type} (values : List α) : popAll values = values.reverse := by
  induction values using reverseRecOn with
  | nil =>
    rw [popAll]
    rfl
  | append_singleton values value ih =>
    rw [popAll]
    simp [ih]

theorem popped_orderForPop {α : Type} [LinearOrder α] {pushed values : List α} (h : ∀ v, v ∈ values ↔ v ∈ pushed) :
    Popped pushed (popAll (orderForPop values)) := by
  have hs : (values.insertionSort (· ≥ ·)).Pairwise (· ≥ ·) := pairwise_insertionSort _ values
  have ho : orderForPop values = (values.insertionSort (· ≥ ·)).dedup := hs.destutter_eq_dedup
  rw [popAll_eq, ho]
  refine ⟨?_, fun x => ?_⟩
  · rw [pairwise_reverse]
    have hd := hs.sublist (dedup_sublist _)
    exact (hd.and (nodup_dedup _)).imp fun hle => lt_of_le_of_ne hle.1 hle.2.symm
  · rw [mem_reverse, mem_dedup, mem_insertionSort, h]

/-- After any earlier batches, a batch delivers the distinct keys of its own pushes in order. -/
theorem drain_popped (before : List (List Event)) (pushes : List Event) :
    let batch := (pushes.foldl push (afterBatches before)).drain
    Popped (pushes.filterMap Event.removed?) batch.1.1 ∧ Popped (pushes.filterMap Event.wake?) batch.1.2.1 ∧
      Popped (pushes.filterMap Event.ready?) batch.1.2.2 ∧ batch.2.isEmpty ∧ batch.2.Unmarked := by
  have h := (holds_afterBatches before).foldl pushes
  exact ⟨popped_orderForPop h.removed.mem, popped_orderForPop h.wakes.mem, popped_orderForPop h.ready.mem, rfl,
    h.drain.unmarked⟩

end Batches

end ScheduleEvents

end LoomV4.Proc
