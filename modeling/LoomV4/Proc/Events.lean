import Mathlib.Data.List.Sort
import Mathlib.Data.List.Destutter
import LoomV4.Proc.Keys

namespace LoomV4.Proc

structure ScheduleEvents where
  ready : List TaskKey := []
  removed : List TaskKey := []
  wakes : List WakeKey := []
  readyMarks : List ℕ := []
  removedMarks : List ℕ := []
  wakeMarks : List (List ℕ) := []
deriving DecidableEq, Repr

namespace ScheduleEvents

def isEmpty (e : ScheduleEvents) : Bool :=
  e.ready.isEmpty && e.removed.isEmpty && e.wakes.isEmpty

def setAt {α : Type} (empty : α) (marks : List α) (slot : ℕ) (mark : α) : List α :=
  (marks ++ List.replicate (slot + 1 - marks.length) empty).set slot mark

def pushTask (tasks : List TaskKey) (marks : List ℕ) (key : TaskKey) : List TaskKey × List ℕ :=
  if marks[key.vm]? = some (key.generation + 1) then (tasks, marks)
  else (tasks ++ [key], setAt 0 marks key.vm (key.generation + 1))

def pushReady (e : ScheduleEvents) (key : TaskKey) : ScheduleEvents :=
  let (ready, readyMarks) := pushTask e.ready e.readyMarks key
  { e with ready, readyMarks }

def pushRemoved (e : ScheduleEvents) (key : TaskKey) : ScheduleEvents :=
  let (removed, removedMarks) := pushTask e.removed e.removedMarks key
  { e with removed, removedMarks }

def pushWake (e : ScheduleEvents) (wake : WakeKey) : ScheduleEvents :=
  let key := wakeTask wake
  let lanes := (e.wakeMarks[key.vm]?).getD (List.replicate 5 0)
  if lanes[wake.lane]? = some (key.generation + 1) then e
  else { e with
    wakes := e.wakes ++ [wake]
    wakeMarks := setAt (List.replicate 5 0) e.wakeMarks key.vm (lanes.set wake.lane (key.generation + 1)) }

def clearTaskMark (marks : List ℕ) (key : TaskKey) : List ℕ :=
  marks.modify key.vm fun mark => if mark = key.generation + 1 then 0 else mark

def clearWakeMark (marks : List (List ℕ)) (wake : WakeKey) : List (List ℕ) :=
  marks.modify (wakeTask wake).vm
    (·.modify wake.lane fun mark => if mark = (wakeTask wake).generation + 1 then 0 else mark)

def releaseMarks (e : ScheduleEvents) : ScheduleEvents :=
  { e with
    readyMarks := e.ready.foldl clearTaskMark e.readyMarks
    removedMarks := e.removed.foldl clearTaskMark e.removedMarks
    wakeMarks := e.wakes.foldl clearWakeMark e.wakeMarks }

/-- The vectors are popped from the end, so the order is the descending one. -/
def orderForPop {α : Type} [LinearOrder α] (values : List α) : List α :=
  (values.insertionSort fun a b => b ≤ a).destutter (· ≠ ·)

def prepareDrain (e : ScheduleEvents) : ScheduleEvents :=
  let e := e.releaseMarks
  { e with
    removed := orderForPop e.removed
    wakes := orderForPop e.wakes
    ready := orderForPop e.ready }

end ScheduleEvents

end LoomV4.Proc
