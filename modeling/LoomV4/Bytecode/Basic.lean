import LoomV4.Lib.Codec
import LoomV4.Heap.Value

namespace LoomV4.Bytecode

open Lib Lib.Reader

structure Utf8 where
  need : ℕ
  low : UInt8
  high : UInt8

def Utf8.start : Utf8 := ⟨0, 0, 0⟩

def Utf8.step (s : Utf8) (b : UInt8) : Option Utf8 :=
  if s.need ≠ 0 then
    if s.low ≤ b ∧ b ≤ s.high then some ⟨s.need - 1, 0x80, 0xbf⟩ else none
  else if b ≤ 0x7f then some .start
  else if 0xc2 ≤ b ∧ b ≤ 0xdf then some ⟨1, 0x80, 0xbf⟩
  else if b = 0xe0 then some ⟨2, 0xa0, 0xbf⟩
  else if b = 0xed then some ⟨2, 0x80, 0x9f⟩
  else if 0xe1 ≤ b ∧ b ≤ 0xef then some ⟨2, 0x80, 0xbf⟩
  else if b = 0xf0 then some ⟨3, 0x90, 0xbf⟩
  else if 0xf1 ≤ b ∧ b ≤ 0xf3 then some ⟨3, 0x80, 0xbf⟩
  else if b = 0xf4 then some ⟨3, 0x80, 0x8f⟩
  else none

def Utf8.after : Utf8 → Bytes → Bool
  | s, [] => s.need == 0
  | s, b :: bs =>
    match s.step b with
    | none => false
    | some s => after s bs

def validUtf8 (bs : Bytes) : Bool := Utf8.start.after bs

/-- A string is its UTF-8 bytes. -/
structure Text where
  bytes : Bytes
  valid : validUtf8 bytes = true
deriving DecidableEq

def Text.empty : Text := ⟨[], rfl⟩

end LoomV4.Bytecode
