import Mathlib.Order.Lattice
import Mathlib.Algebra.Ring.Nat
import Mathlib.Data.Prod.Lex

namespace LoomV4.Proc

structure TaskKey where
  vm : ℕ
  generation : ℕ
deriving Repr

instance : LinearOrder TaskKey :=
  LinearOrder.lift' (fun t : TaskKey => toLex (t.vm, t.generation)) (by
    rintro ⟨v, g⟩ ⟨v', g'⟩ h
    simpa using h)

instance : DecidableEq TaskKey := LinearOrder.toDecidableEq

inductive WakeKey
  | receive (task : TaskKey)
  | send (task : TaskKey)
  | done (task : TaskKey)
  | asked (task : TaskKey)
  | snapshot (task : TaskKey)
deriving Repr

/-- The lane is the position of the variant, so the order below is the derived one. -/
def WakeKey.lane : WakeKey → ℕ
  | .receive _ => 0
  | .send _ => 1
  | .done _ => 2
  | .asked _ => 3
  | .snapshot _ => 4

def wakeTask : WakeKey → TaskKey
  | .receive task | .send task | .done task | .asked task | .snapshot task => task

instance : LinearOrder WakeKey :=
  LinearOrder.lift' (fun k : WakeKey => toLex (k.lane, wakeTask k)) (by
    intro a b h
    cases a <;> cases b <;> simp_all [WakeKey.lane, wakeTask])

instance : DecidableEq WakeKey := LinearOrder.toDecidableEq

structure CompletionKey where
  machine : TaskKey
  ordinal : ℕ
deriving DecidableEq, Repr

instance : LinearOrder CompletionKey :=
  LinearOrder.lift' (fun c : CompletionKey => toLex (c.machine, c.ordinal)) (by
    rintro ⟨m, o⟩ ⟨m', o'⟩ h
    simpa using h)

structure WaitSetKey where
  owner : TaskKey
  token : ℕ
deriving DecidableEq, Repr

instance : LinearOrder WaitSetKey :=
  LinearOrder.lift' (fun w : WaitSetKey => toLex (w.owner, w.token)) (by
    rintro ⟨o, t⟩ ⟨o', t'⟩ h
    simpa using h)

inductive WaitSourceKey
  | wake (key : WakeKey)
  | completion (key : CompletionKey)
deriving DecidableEq, Repr

inductive SliceExit
  | yielded
  | blocked (wake : WakeKey)
  | waiting (completion : CompletionKey)
  | parked (wait : WaitSetKey)
  | terminal
deriving DecidableEq, Repr

inductive TaskStatus
  | ready
  | blocked (wake : WakeKey)
  | waiting (completion : CompletionKey)
  | parked (wait : WaitSetKey)
  | terminal
  | dormant
deriving DecidableEq, Repr

end LoomV4.Proc
