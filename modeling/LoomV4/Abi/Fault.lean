import Mathlib.Tactic.Basic

namespace LoomV4.Abi

inductive FaultCode
  | integerOverflow
  | divideByZero
  | shiftOutOfRange
  | outOfFuel
  | stackLimit
  | heapLimit
  | frozenWrite
  | indexOutOfBounds
  | lengthMismatch
  | invalidPrecision
  | missingKey
  | mutableMapKey
  | collectionModified
  | collectionEpochExhausted
  | badCast
  | policyDenied
  | invalidVmState
  | invalidRequestToken
  | unsendableValue
  | boundaryLimit
  | boundaryViolation
  | hostFault
  | userPanic
  | assertionFailed
  | deadProc
  | uninitializedField
  | unreachableCode
  | typeMismatch
  | malformedState
deriving DecidableEq, Repr

end LoomV4.Abi
