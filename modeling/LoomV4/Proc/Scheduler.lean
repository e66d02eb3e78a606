import LoomV4.Proc.Events
import LoomV4.Proc.Index

namespace LoomV4.Proc

/--
What the scheduler reads of the world. `driven` lists the surfaces that the suspended
stack of a machine drives; `procs` holds the active procs.
-/
structure World where
  taskStatus : TaskKey → TaskStatus
  driven : ℕ → List TaskKey := fun _ => []
  waitSources : WaitSetKey → List WaitSourceKey := fun _ => []
  rootGeneration : ℕ := 0
  procs : List TaskKey := []
  scheduleEvents : ScheduleEvents := {}

namespace World

def root (_ : World) : ℕ := 0

def blockWakes (w : World) (key : TaskKey) (primary : WakeKey) : List WakeKey :=
  (w.driven key.vm).foldl
    (fun wakes surface => if .asked surface ∈ wakes then wakes else wakes ++ [.asked surface]) [primary]

def schedulerSeeds (w : World) (includeRoot : Bool) : List (TaskKey × TaskStatus) :=
  let root : TaskKey := ⟨w.root, w.rootGeneration⟩
  let keys := (if includeRoot then [root] else []) ++ w.procs.insertionSort (· ≤ ·)
  keys.map fun key => (key, w.taskStatus key)

theorem mem_blockWakes (w : World) (key : TaskKey) (primary : WakeKey) : primary ∈ w.blockWakes key primary := by
  have hf : ∀ (l : List TaskKey) (wakes : List WakeKey), primary ∈ wakes → primary ∈ l.foldl (fun wakes surface =>
        if .asked surface ∈ wakes then wakes else wakes ++ [.asked surface]) wakes := by
    intro l
    induction l with
    | nil => exact fun _ h => h
    | cons a l ih =>
      intro wakes h
      apply ih
      dsimp only
      split
      · exact h
      · exact List.mem_append_left _ h
  exact hf _ _ (by simp)

end World

structure Scheduler where
  includeRoot : Bool := true
  unblocked : ℕ := 0
  ready : List (TaskKey × ℕ) := []
  readyTicket : ℕ := 0
  tasks : TaskIndex := {}
  blocked : WakeIndex := {}
  blockKeys : Std.TreeMap TaskKey (List WakeKey) := {}
  waiting : Std.TreeMap CompletionKey TaskKey := {}
  parked : ParkIndex := {}

namespace Scheduler

def removeIndex (s : Scheduler) (task : TaskKey) : Scheduler :=
  match s.tasks.get task with
  | some (.blocked wake) =>
    match s.blockKeys[task]? with
    | some keys =>
      { s with
        blockKeys := s.blockKeys.erase task
        blocked := keys.foldl (fun blocked key => blocked.remove key task) s.blocked }
    | none => { s with blocked := s.blocked.remove wake task }
  | some (.waiting completion) => { s with waiting := s.waiting.erase completion }
  | some (.parked wait) => { s with parked := s.parked.remove wait task }
  | _ => s

def isQueued (s : Scheduler) (task : TaskKey) : Bool :=
  match s.tasks.get task with
  | some (.queued _) => true
  | _ => false

def enqueue (s : Scheduler) (task : TaskKey) : Scheduler :=
  if s.isQueued task then s
  else
    let s := s.removeIndex task
    { s with
      readyTicket := s.readyTicket + 1
      tasks := s.tasks.insert task (.queued s.readyTicket)
      ready := s.ready ++ [(task, s.readyTicket)] }

def block (s : Scheduler) (w : World) (task : TaskKey) (wake : WakeKey) : Scheduler :=
  if s.tasks.get task = some (.blocked wake) then s
  else
    let s := s.removeIndex task
    let keys := w.blockWakes task wake
    { s with
      tasks := s.tasks.insert task (.blocked wake)
      blocked := keys.foldl (fun blocked key => blocked.insert key task) s.blocked
      blockKeys := if 1 < keys.length then s.blockKeys.insert task keys else s.blockKeys }

def wait (s : Scheduler) (task : TaskKey) (completion : CompletionKey) : Scheduler :=
  if s.tasks.get task = some (.waiting completion) then s
  else
    let s := s.removeIndex task
    { s with
      tasks := s.tasks.insert task (.waiting completion)
      waiting := s.waiting.insert completion task }

def park (s : Scheduler) (w : World) (task : TaskKey) (wait : WaitSetKey) : Scheduler :=
  if s.tasks.get task = some (.parked wait) then s
  else
    let s := s.removeIndex task
    let sources := w.waitSources wait
    if sources.isEmpty then s.enqueue task
    else
      { s with
        tasks := s.tasks.insert task (.parked wait)
        parked := s.parked.insert wait task sources }

def dropTask (s : Scheduler) (task : TaskKey) : Scheduler :=
  let s := s.removeIndex task
  { s with tasks := s.tasks.remove task }

def indexStatus (s : Scheduler) (w : World) (task : TaskKey) : TaskStatus → Scheduler
  | .ready => s.enqueue task
  | .blocked wake => s.block w task wake
  | .waiting completion => s.wait task completion
  | .parked wait => s.park w task wait
  | .terminal | .dormant => s.dropTask task

def refresh (s : Scheduler) (w : World) (task : TaskKey) : Scheduler :=
  s.indexStatus w task (w.taskStatus task)

def noteUnblocked (s : Scheduler) : Scheduler :=
  { s with unblocked := min (s.unblocked + 1) (2 ^ 64 - 1) }

def noteReady (s : Scheduler) (w : World) (task : TaskKey) : Scheduler :=
  if w.taskStatus task = .ready then s.noteUnblocked else s

def HoldsKey (s : Scheduler) (task : TaskKey) (primary wake : WakeKey) : Prop :=
  primary = wake ∨ ∃ keys, s.blockKeys[task]? = some keys ∧ wake ∈ keys

instance (s : Scheduler) (task : TaskKey) (primary wake : WakeKey) :
    Decidable (s.HoldsKey task primary wake) :=
  inferInstanceAs (Decidable (_ ∨ ∃ keys, s.blockKeys[task]? = some keys ∧ wake ∈ keys))

def wakeBlocked (w : World) (wake : WakeKey) (s : Scheduler) (task : TaskKey) : Scheduler :=
  match s.tasks.get task with
  | some (.blocked primary) =>
    if s.HoldsKey task primary wake then ((s.removeIndex task).noteReady w task).refresh w task
    else s
  | _ => s

def isParked (s : Scheduler) (task : TaskKey) : Bool :=
  match s.tasks.get task with
  | some (.parked _) => true
  | _ => false

def wakeParkedTask (w : World) (s : Scheduler) (task : TaskKey) : Scheduler :=
  if s.isParked task then (s.noteReady w task).refresh w task else s

def wakeParked (s : Scheduler) (w : World) (waiters : Waiters) : Scheduler :=
  waiters.toList.foldl (wakeParkedTask w) s

def takeBlocked (s : Scheduler) (wake : WakeKey) : List TaskKey × Scheduler :=
  let (waiters, blocked) := s.blocked.take wake
  ((waiters.map Waiters.toList).getD [], { s with blocked })

def takeParkedWake (s : Scheduler) (wake : WakeKey) : List TaskKey × Scheduler :=
  let (waiters, parked) := s.parked.takeWake wake
  ((waiters.map Waiters.toList).getD [], { s with parked })

def wake (s : Scheduler) (w : World) (wake : WakeKey) : Scheduler :=
  let (tasks, s) := s.takeBlocked wake
  let s := tasks.foldl (wakeBlocked w wake) s
  let (tasks, s) := s.takeParkedWake wake
  tasks.foldl (wakeParkedTask w) s

def takeWaiting (s : Scheduler) (completion : CompletionKey) : Option TaskKey × Scheduler :=
  (s.waiting[completion]?, { s with waiting := s.waiting.erase completion })

def takeParkedCompletion (s : Scheduler) (completion : CompletionKey) : List TaskKey × Scheduler :=
  let (waiters, parked) := s.parked.takeCompletion completion
  ((waiters.map Waiters.toList).getD [], { s with parked })

def completeWaiting (s : Scheduler) (w : World) (completion : CompletionKey) : Scheduler :=
  match s.takeWaiting completion with
  | (none, s) => s
  | (some task, s) =>
    if s.tasks.get task = some (.waiting completion) then s.noteUnblocked.refresh w task else s

def completeCompletion (s : Scheduler) (w : World) (completion : CompletionKey) : Scheduler :=
  let s := s.completeWaiting w completion
  let (tasks, s) := s.takeParkedCompletion completion
  tasks.foldl (wakeParkedTask w) s

/--
One turn of the queue loop for each entry that the loop can pop. Nothing it runs adds an
entry: `indexStatus` meets the task in a queued state.
-/
def nextReadyLoop (w : World) : ℕ → Scheduler → Option TaskKey × Scheduler
  | 0, s => (none, s)
  | n + 1, s =>
    match s.ready with
    | [] => (none, s)
    | (task, ticket) :: rest =>
      let s := { s with ready := rest }
      if s.tasks.get task ≠ some (.queued ticket) then nextReadyLoop w n s
      else if w.taskStatus task = .ready then (some task, s)
      else nextReadyLoop w n (s.indexStatus w task (w.taskStatus task))

def nextReady (s : Scheduler) (w : World) : Option TaskKey × Scheduler :=
  nextReadyLoop w s.ready.length s

def markRunning (s : Scheduler) (task : TaskKey) : Scheduler :=
  { s with tasks := s.tasks.insert task .running }

def finishTerminal (s : Scheduler) (w : World) (task : TaskKey) : Scheduler :=
  ((s.dropTask task).wake w (.send task)).wake w (.done task)

def finishSlice (s : Scheduler) (w : World) (task : TaskKey) : Option SliceExit → Scheduler
  | some .yielded => s.enqueue task
  | some (.blocked wake) => s.block w task wake
  | some (.waiting completion) => s.wait task completion
  | some (.parked wait) => s.park w task wait
  | some .terminal => s.finishTerminal w task
  | none => s.refresh w task

def refreshReady (w : World) (s : Scheduler) (task : TaskKey) : Scheduler :=
  if s.includeRoot ∨ task.vm ≠ w.root then s.refresh w task else s

def consumeEvents (s : Scheduler) (w : World) : Scheduler :=
  if w.scheduleEvents.isEmpty then s
  else
    let events := w.scheduleEvents.prepareDrain
    let s := events.removed.reverse.foldl dropTask s
    let s := events.wakes.reverse.foldl (fun s key => s.wake w key) s
    events.ready.reverse.foldl (refreshReady w) s

def indexSeed (w : World) (s : Scheduler) (seed : TaskKey × TaskStatus) : Scheduler :=
  s.indexStatus w seed.1 seed.2

def reset (w : World) (includeRoot : Bool) : Scheduler :=
  ((w.schedulerSeeds includeRoot).foldl (indexSeed w) { includeRoot }).consumeEvents w

end Scheduler

inductive Op
  | reset (includeRoot : Bool)
  | consumeEvents
  | wake (key : WakeKey)
  | wakeParked (waiters : Waiters)
  | completeCompletion (completion : CompletionKey)
  | nextReady
  | markRunning (task : TaskKey)
  | finishSlice (task : TaskKey) (exit : Option SliceExit)
  | enqueue (task : TaskKey)
  | block (task : TaskKey) (key : WakeKey)
  | wait (task : TaskKey) (completion : CompletionKey)
  | park (task : TaskKey) (wait : WaitSetKey)
  | dropTask (task : TaskKey)

structure Step where
  world : World
  op : Op

namespace Scheduler

def step (s : Scheduler) (a : Step) : Scheduler :=
  match a.op with
  | .reset includeRoot => reset a.world includeRoot
  | .consumeEvents => s.consumeEvents a.world
  | .wake key => s.wake a.world key
  | .wakeParked waiters => s.wakeParked a.world waiters
  | .completeCompletion completion => s.completeCompletion a.world completion
  | .nextReady => (s.nextReady a.world).2
  | .markRunning task => s.markRunning task
  | .finishSlice task exit => s.finishSlice a.world task exit
  | .enqueue task => s.enqueue task
  | .block task key => s.block a.world task key
  | .wait task completion => s.wait task completion
  | .park task wait => s.park a.world task wait
  | .dropTask task => s.dropTask task

def run (steps : List Step) : Scheduler := steps.foldl step {}

end Scheduler

end LoomV4.Proc
