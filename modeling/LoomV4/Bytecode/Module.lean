import LoomV4.Bytecode.Instr

namespace LoomV4.Bytecode

open Lib

abbrev Index := UInt32

def noIndex : Index := 0xffffffff

inductive BcRow
  | op (slot : Index)
  | group (slot : Index)
  | var (param : Index)
deriving DecidableEq

structure TypeApp where
  types : List Index
  rows : List (List BcRow)
deriving DecidableEq

structure BcInterfaceUse where
  interface : Index
  types : List Index
  rows : List (List BcRow)
deriving DecidableEq

abbrev TypeBounds := List (List BcInterfaceUse)

inductive BcType
  | unit | never | bool | int | float | str
  | class (c : Index)
  | inst (c : Index) (args : List Index)
  | list (elem : Index)
  | map (key value : Index)
  | tuple (elems : List Index)
  | fn (params : List Index) (muts : List Bool) (ret : Index) (row : List BcRow)
  | callback (params : List Index) (muts : List Bool) (ret : Index) (row : List BcRow)
  | var (param : Index)
  | projection (base interface assoc : Index)
  | fault | request | policyTable | vm
  | run (result : Index)
  | wait (result : Index)
  | pendingCall (args reply : Index)
  | handle (message result : Index)
  | op (slot fn : Index)
  | digest | vmSnapshot
  | runSnapshot (result : Index)
  | bytes | fileHandle | resourceHandle | hostResource
deriving DecidableEq

inductive BcClassKind
  | normal | abstract | case
deriving DecidableEq

structure BcClass where
  name : Text
  key : Text
  isFinal : Bool
  isFrozen : Bool
  parent : Index
  parentArgs : List Index
  typeParams : Index
  kind : BcClassKind
  fields : List (Text × Index)
  methods : List (Index × Index)
  fieldDefaults : List Bool
  ownStart : Index
  hasInit : Bool
deriving DecidableEq

structure BcAssociated where
  name : Text
  bounds : List BcInterfaceUse
deriving DecidableEq

structure BcTypePremise where
  subject : Index
  bounds : List BcInterfaceUse
deriving DecidableEq

structure BcInterfaceMethod where
  selector : Index
  mutSelf : Bool
  typeParams : Index
  typeBounds : TypeBounds
  effectParams : Index
  premises : List BcTypePremise
  params : List Index
  paramMuts : List Bool
  paramNames : List Text
  ret : Index
  row : List BcRow
  default : Index
deriving DecidableEq

structure BcInterface where
  name : Text
  key : Text
  typeParams : Index
  effectParams : Index
  genericIsEffect : List Bool
  parents : List BcInterfaceUse
  typeBounds : TypeBounds
  associated : List BcAssociated
  methods : List BcInterfaceMethod
deriving DecidableEq

structure BcConformancePremise where
  param : Index
  bounds : List BcInterfaceUse
deriving DecidableEq

structure BcConformance where
  class' : Index
  application : BcInterfaceUse
  premises : List BcConformancePremise
  associated : List Index
  methodOverrides : List Bool
deriving DecidableEq

structure BcCallableContract where
  typeParams : Index
  effectParams : Index
  typeBounds : TypeBounds
  params : List Index
  paramMuts : List Bool
  ret : Index
  row : List BcRow
deriving DecidableEq

inductive SlotContract
  | function (callable : BcCallableContract)
  | method (callable : BcCallableContract)
  | class (typeParams : Index) (abi : Hash) (ty : Index) (constructor : BcCallableContract)
  | value (ty : Index)
  | process (message result : Index)
deriving DecidableEq

inductive SlotTarget
  | function (func : Index)
  | class (c constructor : Index)
deriving DecidableEq

structure SlotSpec where
  binding : Text
  late : Bool
  key : Hash
  contractHash : Hash
  contract : SlotContract
  initial : Option SlotTarget
deriving DecidableEq

structure Func where
  name : Text
  typeParams : Index
  effectParams : Index
  params : List Index
  paramMuts : List Bool
  ret : Index
  row : List BcRow
  captures : List Index
  localTypes : List Index
  blocks : List (List Instr)
  paramNames : List Text
deriving DecidableEq

inductive ImportKind
  | class : ImportKind
  | ctor | method | func | constant
deriving DecidableEq

def ImportKind.isFunc : ImportKind → Bool
  | .ctor | .method | .func => true
  | _ => false

structure Import where
  module : Text
  name : Text
  kind : ImportKind
  defn : Index
  hash : Hash
deriving DecidableEq

inductive ExportKind
  | function
  | class : ExportKind
  | enum | enumCase | interface | constant
deriving DecidableEq

def ExportKind.isClass : ExportKind → Bool
  | .class | .enum | .enumCase => true
  | _ => false

structure FuncBinding where
  key : Text
  func : Index
  class' : Index
deriving DecidableEq

inductive ConstValue
  | unit
  | bool (b : Bool)
  | int (bits : UInt64)
  | float (bits : UInt64)
  | char (c : Char)
  | string (text : Text)
  | bytes (data : Bytes)
  | tuple (items : List ConstValue)

structure Constant where
  ty : Index
  value : ConstValue

structure Export where
  kind : ExportKind
  name : Text
  source : Bool
  defn : Index
  ctor : Index
  constant : Option Constant

structure ReflectionModule where
  name : Text
  semanticHash : Hash
deriving DecidableEq

def coreRoleCount : ℕ := 269

structure Module where
  strings : List Text
  bytes : List Bytes
  types : List BcType
  selectors : List Text
  apps : List TypeApp
  interfaces : List BcInterface
  conformances : List BcConformance
  classBounds : List TypeBounds
  funcBounds : List TypeBounds
  imports : List Import
  slots : List SlotSpec
  coreRoles : Vector Index coreRoleCount
  reflections : List ReflectionModule
  classes : List BcClass
  funcs : List Func
  entry : Index
  exports : List Export
  bindings : List FuncBinding
  debug : Bytes

end LoomV4.Bytecode
