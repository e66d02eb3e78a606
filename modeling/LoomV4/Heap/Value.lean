import Mathlib.Data.List.Basic
import Mathlib.Algebra.Ring.Nat

namespace LoomV4

/-- A generation-checked reference to one slot of the object table or of the text-view table. -/
structure ObjRef where
  slot : ℕ
  generation : ℕ
deriving DecidableEq, Repr

structure CallbackRef where
  slot : ℕ
  generation : ℕ
deriving DecidableEq, Repr

inductive Value
  | unit
  | bool (v : Bool)
  | int (v : Int64)
  | float (bits : UInt64)
  | char (c : Char)
  | obj (r : ObjRef)
  | op (slot : UInt32)
  | callback (r : CallbackRef)
  | emptyCase (ty arm : UInt32)
  | uninit
deriving DecidableEq

namespace Value

def asObj : Value → Option ObjRef
  | .obj r => some r
  | _ => none

def map (f : ObjRef → ObjRef) : Value → Value
  | .obj r => .obj (f r)
  | other => other

theorem asObj_map (f : ObjRef → ObjRef) (v : Value) : (v.map f).asObj = v.asObj.map f := by
  cases v <;> rfl

end Value

structure Backing where
  key : ℕ
  capacity : ℕ
  bytes : List UInt8
deriving DecidableEq

structure Span where
  root : Backing
  start : ℕ
  len : ℕ
deriving DecidableEq

namespace Span

def asBytes (s : Span) : List UInt8 := (s.root.bytes.drop s.start).take s.len

def allocationKey (s : Span) : ℕ := s.root.key

def retainedCapacity (s : Span) : ℕ := s.root.capacity

end Span

abbrev SharedText := Span

abbrev SharedBytes := Span

abbrev Hash := Vector UInt8 32

end LoomV4
