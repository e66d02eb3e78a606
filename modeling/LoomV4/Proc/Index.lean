import Mathlib.Order.Compare
import Std.Data.TreeMap.Lemmas
import LoomV4.Lib.KeyedList
import LoomV4.Lib.Steps
import LoomV4.Proc.Keys

namespace LoomV4.Proc

open Lib List Option

inductive IndexedState
  | queued (ticket : ℕ)
  | running
  | blocked (wake : WakeKey)
  | waiting (completion : CompletionKey)
  | parked (wait : WaitSetKey)
deriving DecidableEq, Repr

structure IndexedTask where
  key : TaskKey
  state : IndexedState
deriving DecidableEq, Repr

structure TaskIndex where
  slots : List (Option IndexedTask) := []

namespace TaskIndex

def get (x : TaskIndex) (key : TaskKey) : Option IndexedState :=
  match x.slots[key.vm]? with
  | some (some task) => if task.key = key then some task.state else none
  | _ => none

def insert (x : TaskIndex) (key : TaskKey) (state : IndexedState) : TaskIndex :=
  ⟨(grow x.slots (key.vm + 1) none).set key.vm (some ⟨key, state⟩)⟩

def remove (x : TaskIndex) (key : TaskKey) : TaskIndex :=
  match x.slots[key.vm]? with
  | some (some task) => if task.key = key then ⟨x.slots.set key.vm none⟩ else x
  | _ => x

theorem get_insert (x : TaskIndex) (key other : TaskKey) (state : IndexedState) : (x.insert key state).get other =
      if other = key then some state else if other.vm = key.vm then none else x.get other := by
  by_cases hv : other.vm = key.vm
  · have hs : (x.insert key state).slots[key.vm]? = some (some ⟨key, state⟩) :=
      getElem?_set_self (by simp)
    by_cases hk : other = key
    · simp only [get, hs, hk, ↓reduceIte]
    · simp only [get, hs, hk, hv, Ne.symm hk, ↓reduceIte]
  · have hs : (x.insert key state).slots[other.vm]? = (grow x.slots (key.vm + 1) none)[other.vm]? := by
      simp only [insert]
      exact getElem?_set_ne (Ne.symm hv)
    have hk : other ≠ key := fun h => hv (h ▸ rfl)
    simp only [get, hs, getElem?_grow, hk, hv, ↓reduceIte]
    by_cases hl : other.vm < x.slots.length
    · simp [hl]
    · simp only [hl, ↓reduceIte, getElem?_eq_none (by omega : x.slots.length ≤ other.vm)]
      split <;> simp_all

theorem get_remove (x : TaskIndex) (key other : TaskKey) :
    (x.remove key).get other = if other = key then none else x.get other := by
  unfold remove
  split
  · next task hs =>
    by_cases ht : task.key = key
    · rw [if_pos ht]
      by_cases hv : other.vm = key.vm
      · have hl : key.vm < x.slots.length := lt_of_getElem? hs
        by_cases hk : other = key
        · simp [get, hl, hk]
        · have : task.key ≠ other := fun h => hk (h.symm.trans ht)
          simp only [get, hv, hs, hk, this, getElem?_set_self hl, ↓reduceIte]
      · have hk : other ≠ key := fun h => hv (h ▸ rfl)
        simp [get, getElem?_set_ne (Ne.symm hv), hk]
    · rw [if_neg ht]
      by_cases hk : other = key
      · simp [get, hk, hs, ht]
      · simp [hk]
  · next hs =>
    by_cases hk : other = key
    · subst hk
      rw [if_pos rfl]
      unfold get
      split
      · next task h => exact absurd h (hs task)
      · rfl
    · simp [hk]

end TaskIndex

inductive Waiters
  | one (task : TaskKey)
  | many (tasks : KeyedList (id : TaskKey → TaskKey))
deriving DecidableEq

namespace Waiters

def toList : Waiters → List TaskKey
  | one task => [task]
  | many tasks => tasks.items

def insert (w : Waiters) (task : TaskKey) : Waiters :=
  match w with
  | one held =>
    if he : held = task then one held
    else if hle : held ≤ task then many ⟨[held, task], by simpa using lt_of_le_of_ne hle he⟩
    else many ⟨[task, held], by simpa using hle⟩
  | many tasks =>
    match h : searchBy id task tasks.items with
    | .ok _ => many tasks
    | .error i => many (tasks.insertAt task i h)

def remove (w : Waiters) (task : TaskKey) : Bool × Waiters :=
  match w with
  | one held => (held = task, one held)
  | many tasks =>
    match searchBy id task tasks.items with
    | .error _ => (false, many tasks)
    | .ok i =>
      let rest := tasks.eraseAt i
      match rest.items with
      | [last] => (false, one last)
      | _ => (false, many rest)

theorem mem_insert (w : Waiters) (task other : TaskKey) :
    other ∈ (w.insert task).toList ↔ other = task ∨ other ∈ w.toList := by
  cases w with
  | one held =>
    by_cases h : held = task
    · simp [insert, toList, h]
    · by_cases hle : held ≤ task <;> simp [insert, toList, h, hle, or_comm]
  | many tasks =>
    simp only [insert]
    split
    · next i h =>
      obtain ⟨hi, -, he⟩ := searchBy_found h
      have hm : task ∈ tasks.items := he ▸ getElem_mem hi
      simp only [toList]
      exact ⟨Or.inr, fun h => h.elim (fun e => e ▸ hm) id⟩
    · next i h => exact mem_insertIdx (searchBy_error h).2

theorem mem_remove_of_ne {w : Waiters} {task other : TaskKey} (hne : other ≠ task)
    (h : other ∈ w.toList) : (w.remove task).1 = false ∧ other ∈ (w.remove task).2.toList := by
  cases w with
  | one held =>
    obtain rfl : other = held := by simpa [toList] using h
    simp [remove, toList, hne]
  | many tasks =>
    simp only [remove]
    split
    · exact ⟨rfl, h⟩
    · next i hs =>
      obtain ⟨hi, -, he⟩ := searchBy_found hs
      have hm : other ∈ (tasks.eraseAt i).items := by
        obtain ⟨j, hj, rfl⟩ := mem_iff_getElem.mp h
        refine mem_eraseIdx_iff_getElem?.mpr ⟨j, ?_, getElem?_eq_getElem hj⟩
        rintro rfl
        exact hne he
      split
      · next last hl => exact ⟨rfl, by simpa [toList, hl] using hm⟩
      · exact ⟨rfl, hm⟩

end Waiters

structure WakeBucket where
  wake : WakeKey
  waiters : Waiters
deriving DecidableEq

structure WakeIndex where
  slots : List (KeyedList WakeBucket.wake) := []

namespace WakeIndex

def insert (x : WakeIndex) (wake : WakeKey) (task : TaskKey) : WakeIndex :=
  let slot := (wakeTask wake).vm
  let slots := grow x.slots (slot + 1) .empty
  let buckets := slots.getD slot .empty
  match h : searchBy WakeBucket.wake wake buckets.items with
  | .ok i =>
    ⟨slots.set slot (buckets.modifyAt i (fun b => { b with waiters := b.waiters.insert task }) fun _ _ => rfl)⟩
  | .error i => ⟨slots.set slot (buckets.insertAt ⟨wake, .one task⟩ i h)⟩

def remove (x : WakeIndex) (wake : WakeKey) (task : TaskKey) : WakeIndex :=
  let slot := (wakeTask wake).vm
  match x.slots[slot]? with
  | none => x
  | some buckets =>
    match searchBy WakeBucket.wake wake buckets.items with
    | .error _ => x
    | .ok i =>
      match buckets.items[i]? with
      | none => x
      | some bucket =>
        let (empty, waiters) := bucket.waiters.remove task
        if empty then ⟨x.slots.set slot (buckets.eraseAt i)⟩
        else ⟨x.slots.set slot (buckets.modifyAt i (fun b => { b with waiters }) fun _ _ => rfl)⟩

def take (x : WakeIndex) (wake : WakeKey) : Option Waiters × WakeIndex :=
  let slot := (wakeTask wake).vm
  match x.slots[slot]? with
  | none => (none, x)
  | some buckets =>
    match searchBy WakeBucket.wake wake buckets.items with
    | .error _ => (none, x)
    | .ok i =>
      ((buckets.items[i]?).map WakeBucket.waiters, ⟨x.slots.set slot (buckets.eraseAt i)⟩)

def bucket (x : WakeIndex) (wake : WakeKey) : Option WakeBucket :=
  ((x.slots[(wakeTask wake).vm]?).getD .empty).items.find? fun b => b.wake = wake

def Holds (x : WakeIndex) (wake : WakeKey) (task : TaskKey) : Prop :=
  ∃ b, x.bucket wake = some b ∧ task ∈ b.waiters.toList

variable {x : WakeIndex} {wake other : WakeKey}

theorem bucket_set {slots : List (KeyedList WakeBucket.wake)} {buckets new : KeyedList WakeBucket.wake}
    (hl : (wakeTask wake).vm < slots.length) (hs : ∀ i : ℕ, (slots[i]?).getD .empty = (x.slots[i]?).getD .empty)
    (hb : (x.slots[(wakeTask wake).vm]?).getD .empty = buckets)
    (hn : new.items.find? (fun b => b.wake = other) = buckets.items.find? fun b => b.wake = other) :
    (WakeIndex.mk (slots.set (wakeTask wake).vm new)).bucket other = x.bucket other := by
  unfold bucket
  by_cases hv : (wakeTask other).vm = (wakeTask wake).vm
  · simp only [hv, hb, getElem?_set_self hl, getD_some, hn]
  · simp only [getElem?_set_ne (Ne.symm hv), hs]

theorem grow_slots (x : WakeIndex) (n i : ℕ) :
    ((grow x.slots n .empty)[i]?).getD .empty = (x.slots[i]?).getD .empty := by
  rw [getElem?_grow]
  by_cases hi : i < x.slots.length
  · rw [if_pos hi]
  · rw [if_neg hi, getElem?_eq_none (by omega : x.slots.length ≤ i)]
    split <;> rfl

theorem bucket_insert_ne (x : WakeIndex) (task : TaskKey) (h : other ≠ wake) :
    (x.insert wake task).bucket other = x.bucket other := by
  have hl : (wakeTask wake).vm < (grow x.slots ((wakeTask wake).vm + 1) .empty).length := by simp
  have hd := grow_slots x ((wakeTask wake).vm + 1) (wakeTask wake).vm
  rw [← getD_eq_getElem?_getD] at hd
  simp only [insert]
  split
  · next i hs =>
    obtain ⟨hi, -, he⟩ := searchBy_found hs
    apply bucket_set hl (grow_slots x _) hd.symm
    rw [KeyedList.modifyAt_items hi]
    have hne := decide_eq_false fun e => h (Eq.trans (Eq.symm e) he)
    exact find?_set_of_false hi hne hne
  · next i hs =>
    apply bucket_set hl (grow_slots x _) hd.symm
    exact find?_insertIdx_of_false (by simp [Ne.symm h]) (searchBy_error hs).2

theorem bucket_of_getElem? {buckets : KeyedList WakeBucket.wake} (h : x.slots[(wakeTask wake).vm]? = some buckets) :
    x.bucket wake = buckets.items.find? (fun b => b.wake = wake) := by
  rw [bucket, h, getD_some]

theorem holds_insert (x : WakeIndex) (wake other : WakeKey) (task t : TaskKey) :
    (x.insert wake task).Holds other t ↔ (other = wake ∧ t = task) ∨ x.Holds other t := by
  by_cases h : other = wake
  · subst h
    have hl : (wakeTask other).vm < (grow x.slots ((wakeTask other).vm + 1) .empty).length := by simp
    have hd := grow_slots x ((wakeTask other).vm + 1) (wakeTask other).vm
    rw [← getD_eq_getElem?_getD] at hd
    simp only [Holds, insert, true_and]
    rw [bucket.eq_def x, ← hd]
    split
    · next i hs =>
      obtain ⟨hi, hf, he⟩ := searchBy_found hs
      rw [bucket_of_getElem? (getElem?_set_self hl), KeyedList.modifyAt_items hi, hf,
        find?_set_findIdx (searchBy_ok hs) (by simpa using he)]
      simp [Waiters.mem_insert]
    · next i hs =>
      obtain ⟨hn, hi⟩ := searchBy_error hs
      rw [bucket_of_getElem? (getElem?_set_self hl), KeyedList.insertAt,
        find?_insertIdx_of_none (a := ⟨other, .one task⟩) hn (by simp) hi, hn]
      simp [Waiters.toList]
  · simp only [Holds, bucket_insert_ne x task h, h, false_and, false_or]

theorem holds_remove {task t : TaskKey}
    (hne : other ≠ wake ∨ t ≠ task) (h : x.Holds other t) : (x.remove wake task).Holds other t := by
  simp only [remove]
  split
  · exact h
  · next buckets hb =>
    have hl : (wakeTask wake).vm < x.slots.length := lt_of_getElem? hb
    have hg : (x.slots[(wakeTask wake).vm]?).getD .empty = buckets := by rw [hb, getD_some]
    split
    · exact h
    · next i hs =>
      obtain ⟨hi, hf, he⟩ := searchBy_found hs
      rw [getElem?_eq_getElem hi]
      simp only
      by_cases hk : other = wake
      · subst hk
        obtain ⟨b, hbk, hm⟩ := h
        rw [bucket_of_getElem? hb, hf] at hbk
        obtain rfl := some.inj hbk
        obtain ⟨h1, h2⟩ := Waiters.mem_remove_of_ne (hne.resolve_left fun h => h rfl) hm
        rw [h1]
        refine ⟨{ buckets.items[i] with waiters := (buckets.items[i].waiters.remove task).2 }, ?_, h2⟩
        rw [if_neg (by simp), bucket_of_getElem? (getElem?_set_self hl), KeyedList.modifyAt_items hi]
        exact find?_set_findIdx (searchBy_ok hs) (by simpa using he)
      · obtain ⟨b, hbk, hm⟩ := h
        refine ⟨b, ?_, hm⟩
        rw [← hbk]
        split
        · exact bucket_set hl (fun _ => rfl) hg (find?_eraseIdx_of_false hi (by simp [he, Ne.symm hk]))
        · apply bucket_set hl (fun _ => rfl) hg
          rw [KeyedList.modifyAt_items hi]
          exact find?_set_of_false hi (by simp [he, Ne.symm hk]) (by simp [he, Ne.symm hk])

theorem take_none (h : (x.take wake).1 = none) : (x.take wake).2 = x ∧ ∀ t, ¬ x.Holds wake t := by
  simp only [take] at h ⊢
  split at h
  · next hb =>
    refine ⟨rfl, ?_⟩
    rintro t ⟨b, hbk, -⟩
    simp [bucket, hb] at hbk
  · next buckets hb =>
    split at h
    · next hs =>
      refine ⟨rfl, ?_⟩
      rintro t ⟨b, hbk, -⟩
      rw [bucket_of_getElem? hb, (searchBy_error hs).1] at hbk
      cases hbk
    · next i hs =>
      obtain ⟨hi, -⟩ := searchBy_found hs
      simp [getElem?_eq_getElem hi] at h

theorem take_some {ws : Waiters} (h : (x.take wake).1 = some ws) : (∀ t, t ∈ ws.toList ↔ x.Holds wake t) ∧
      ∀ other t, other ≠ wake → x.Holds other t → (x.take wake).2.Holds other t := by
  simp only [take] at h ⊢
  split at h
  · cases h
  · next buckets hb =>
    split at h
    · cases h
    · next i hs =>
      obtain ⟨hi, hf, he⟩ := searchBy_found hs
      rw [getElem?_eq_getElem hi, map_some] at h
      obtain rfl := some.inj h
      constructor
      · intro t
        simp [Holds, bucket_of_getElem? hb, hf]
      · rintro other t hk ⟨b, hbk, hm⟩
        refine ⟨b, ?_, hm⟩
        rw [← hbk]
        exact bucket_set (lt_of_getElem? hb) (fun _ => rfl) (by rw [hb, getD_some])
          (find?_eraseIdx_of_false hi (by simp [he, Ne.symm hk]))

end WakeIndex

structure ParkIndex where
  sets : Std.TreeMap WaitSetKey (List WaitSourceKey) := {}
  wakes : WakeIndex := {}
  completions : Std.TreeMap CompletionKey Waiters := {}

namespace ParkIndex

def insertSource (x : ParkIndex) (task : TaskKey) : WaitSourceKey → ParkIndex
  | .wake wake => { x with wakes := x.wakes.insert wake task }
  | .completion completion =>
    match x.completions[completion]? with
    | some waiters => { x with completions := x.completions.insert completion (waiters.insert task) }
    | none => { x with completions := x.completions.insert completion (.one task) }

def removeSource (x : ParkIndex) (task : TaskKey) : WaitSourceKey → ParkIndex
  | .wake wake => { x with wakes := x.wakes.remove wake task }
  | .completion completion =>
    match x.completions[completion]? with
    | none => x
    | some waiters =>
      let (empty, waiters) := waiters.remove task
      if empty then { x with completions := x.completions.erase completion }
      else { x with completions := x.completions.insert completion waiters }

def remove (x : ParkIndex) (wait : WaitSetKey) (task : TaskKey) : ParkIndex :=
  match x.sets[wait]? with
  | none => x
  | some sources =>
    sources.foldl (fun x source => x.removeSource task source) { x with sets := x.sets.erase wait }

def insert (x : ParkIndex) (wait : WaitSetKey) (task : TaskKey)
    (sources : List WaitSourceKey) : ParkIndex :=
  let x := sources.foldl (fun x source => x.insertSource task source) (x.remove wait task)
  { x with sets := x.sets.insert wait sources }

def takeWake (x : ParkIndex) (wake : WakeKey) : Option Waiters × ParkIndex :=
  let (waiters, wakes) := x.wakes.take wake
  (waiters, { x with wakes })

def takeCompletion (x : ParkIndex) (completion : CompletionKey) : Option Waiters × ParkIndex :=
  (x.completions[completion]?, { x with completions := x.completions.erase completion })

def Holds (x : ParkIndex) (task : TaskKey) : WaitSourceKey → Prop
  | .wake wake => x.wakes.Holds wake task
  | .completion completion =>
    ∃ waiters, x.completions[completion]? = some waiters ∧ task ∈ waiters.toList

theorem holds_insertSource (x : ParkIndex) (task t : TaskKey) (source other : WaitSourceKey) :
    (x.insertSource task source).Holds t other ↔ (other = source ∧ t = task) ∨ x.Holds t other := by
  cases source with
  | wake wake =>
    cases other with
    | wake k => simp [insertSource, Holds, WakeIndex.holds_insert]
    | completion c => simp [insertSource, Holds]
  | completion completion =>
    cases other with
    | wake k =>
      simp only [insertSource, reduceCtorEq, false_and, false_or]
      split <;> rfl
    | completion c =>
      by_cases hc : completion = c
      · subst hc
        simp only [insertSource]
        split
        · next waiters h => simp [Holds, h, Waiters.mem_insert]
        · next h => simp [Holds, h, Waiters.toList]
      · have hc' : c ≠ completion := Ne.symm hc
        simp only [insertSource]
        split <;> simp [Holds, Std.TreeMap.getElem?_insert, compare_eq_iff_eq, hc, hc']

theorem holds_removeSource {x : ParkIndex} {task t : TaskKey} {source other : WaitSourceKey}
    (hne : t ≠ task) (h : x.Holds t other) : (x.removeSource task source).Holds t other := by
  cases source with
  | wake wake =>
    cases other with
    | wake k => exact WakeIndex.holds_remove (.inr hne) h
    | completion c => exact h
  | completion completion =>
    simp only [removeSource]
    split
    · exact h
    · next waiters hw =>
      cases other with
      | wake k => split <;> exact h
      | completion c =>
        obtain ⟨ws, hc, hm⟩ := h
        by_cases hk : completion = c
        · subst hk
          obtain rfl := mem_unique hw hc
          obtain ⟨h1, h2⟩ := Waiters.mem_remove_of_ne hne hm
          simp only [h1]
          exact ⟨_, by simp, h2⟩
        · split
          · exact ⟨ws, by simpa [Std.TreeMap.getElem?_erase, compare_eq_iff_eq, hk] using hc, hm⟩
          · exact ⟨ws, by simpa [Std.TreeMap.getElem?_insert, compare_eq_iff_eq, hk] using hc, hm⟩

theorem sets_removeSource (x : ParkIndex) (task : TaskKey) (source : WaitSourceKey) :
    (x.removeSource task source).sets = x.sets := by
  cases source with
  | wake wake => rfl
  | completion completion =>
    simp only [removeSource]
    split
    · rfl
    · split <;> rfl

theorem sets_insertSource (x : ParkIndex) (task : TaskKey) (source : WaitSourceKey) :
    (x.insertSource task source).sets = x.sets := by
  cases source with
  | wake wake => rfl
  | completion completion =>
    simp only [insertSource]
    split <;> rfl

theorem holds_remove {x : ParkIndex} {task t : TaskKey} {source : WaitSourceKey} (wait : WaitSetKey)
    (hne : t ≠ task) (h : x.Holds t source) : (x.remove wait task).Holds t source := by
  unfold remove
  split
  · exact h
  · next sources hs =>
    have h' : ({ x with sets := x.sets.erase wait } : ParkIndex).Holds t source := by
      cases source <;> exact h
    exact foldlRecOn (motive := (Holds · t source)) sources _ h' fun _ hy _ _ => holds_removeSource hne hy

theorem sets_remove (x : ParkIndex) (wait other : WaitSetKey) (task : TaskKey) :
    (x.remove wait task).sets[other]? = if other = wait then none else x.sets[other]? := by
  have hf : ∀ (sources : List WaitSourceKey) (y : ParkIndex),
      (sources.foldl (fun x source => x.removeSource task source) y).sets = y.sets :=
    fun sources y => foldlRecOn (motive := (sets · = y.sets)) sources _ rfl
      fun z hz a _ => (sets_removeSource z task a).trans hz
  unfold remove
  split
  · next h =>
    by_cases hk : other = wait
    · simp [hk, h]
    · simp [hk]
  · next sources h =>
    rw [hf]
    by_cases hk : other = wait
    · simp [hk]
    · simp [Std.TreeMap.getElem?_erase, compare_eq_iff_eq, hk, Ne.symm hk]

theorem holds_insert (x : ParkIndex) (wait : WaitSetKey) (task t : TaskKey)
    (sources : List WaitSourceKey) (source : WaitSourceKey) : (x.insert wait task sources).Holds t source ↔
      (source ∈ sources ∧ t = task) ∨ (x.remove wait task).Holds t source := by
  have hf : ∀ (l : List WaitSourceKey) (y : ParkIndex),
      (l.foldl (fun x source => x.insertSource task source) y).Holds t source ↔
        (source ∈ l ∧ t = task) ∨ y.Holds t source := by
    intro l
    induction l with
    | nil => intro y; simp
    | cons a l ih =>
      intro y
      simp only [foldl_cons, ih, holds_insertSource, mem_cons]
      tauto
  rw [← hf sources (x.remove wait task)]
  cases source <;> exact Iff.rfl

theorem sets_insert (x : ParkIndex) (wait other : WaitSetKey) (task : TaskKey) (sources : List WaitSourceKey) :
    (x.insert wait task sources).sets[other]? = if other = wait then some sources else x.sets[other]? := by
  have hf : ∀ (l : List WaitSourceKey) (y : ParkIndex),
      (l.foldl (fun x source => x.insertSource task source) y).sets = y.sets :=
    fun l y => foldlRecOn (motive := (sets · = y.sets)) l _ rfl
      fun z hz a _ => (sets_insertSource z task a).trans hz
  simp only [insert, hf, Std.TreeMap.getElem?_insert, compare_eq_iff_eq]
  by_cases hk : other = wait
  · simp [hk]
  · simp [hk, Ne.symm hk, sets_remove]

end ParkIndex

end LoomV4.Proc
