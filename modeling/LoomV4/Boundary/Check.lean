import LoomV4.Closed.Types
import LoomV4.Heap.Table

namespace LoomV4.Boundary

open Abi Bytecode Closed Lib

inductive Scalar
  | unit | bool | int | float | char
  | op (slot : Index)
deriving DecidableEq

inductive Kind
  | str | text | substring | stringBuilder | byteBuffer | bytes | fileHandle | resourceHandle
  | hostResource | wait | fault | request | policyTable | digest | snapshot | vm | run
  | pendingCall | handle | closure | list | map | tuple | inst | tcpResource | tcpStream
  | tcpListener | tlsStream | rawMode | signalStream | pipeEnd | pipeReader | pipeWriter | child
  | udpSocket | artifact | verifiedModule | moduleCode | declarationCode | memberCode | openCode
  | functionCode | classCode | slotSpec | codeInstance | slot | functionDef | classDef
  | functionBinding | classBinding | slotChange | dynValue | regex | regexMatch
deriving DecidableEq

inductive Node
  | scalar (tag : Scalar)
  | heap (kind : Kind)
  | callback
  | option (payload : Ty) (case : Option Bool)
deriving DecidableEq

def roleOption : ℕ := 0
def roleOptionSome : ℕ := 1
def roleOptionNone : ℕ := 2
def roleList : ℕ := 100
def roleMap : ℕ := 101

def classNodes : List (ℕ × Node) :=
  [(57, .heap .stringBuilder), (58, .heap .byteBuffer), (61, .scalar .char), (59, .heap .text),
    (60, .heap .substring), (88, .heap .tcpResource), (89, .heap .tcpStream),
    (90, .heap .tcpListener), (99, .heap .tlsStream), (178, .heap .rawMode),
    (189, .heap .signalStream), (219, .heap .pipeEnd), (220, .heap .pipeReader),
    (221, .heap .pipeWriter), (245, .heap .child), (248, .heap .udpSocket), (102, .heap .artifact),
    (103, .heap .verifiedModule), (258, .heap .moduleCode), (259, .heap .declarationCode),
    (260, .heap .memberCode), (268, .heap .openCode), (128, .heap .classCode),
    (104, .heap .slotSpec), (105, .heap .codeInstance), (106, .heap .slot), (126, .heap .classDef),
    (133, .heap .classBinding), (135, .heap .slotChange), (125, .heap .dynValue),
    (255, .heap .regex), (256, .heap .regexMatch)]

def codeNodes : List (ℕ × Node) :=
  [(127, .heap .functionCode), (107, .heap .functionDef), (132, .heap .functionBinding)]

section Resolve

variable (M : NamespaceRuntime)

def resolveClass (table : List (ℕ × Node)) (c : Index) : Node :=
  ((table.find? fun entry => M.coreRoles entry.1 = c).map Prod.snd).getD (.heap .inst)

def resolveInst (c : Index) (args : List Ty) : Node :=
  match args with
  | [arg] =>
    if c = M.coreRoles roleOption ∨ c = M.coreRoles roleOptionSome ∨ c = M.coreRoles roleOptionNone then
      .option arg (if c = M.coreRoles roleOptionSome then some true
        else if c = M.coreRoles roleOptionNone then some false else none)
    else if c = M.coreRoles roleList then .heap .list
    else resolveClass M codeNodes c
  | [_, _] => if c = M.coreRoles roleMap then .heap .map else .heap .inst
  | _ => .heap .inst

def resolve : Ty → Node
  | .mk .unit _ => .scalar .unit
  | .mk .bool _ => .scalar .bool
  | .mk .int _ => .scalar .int
  | .mk .float _ => .scalar .float
  | .mk (.op slot) _ => .scalar (.op slot)
  | .mk .str _ => .heap .str
  | .mk .bytes _ => .heap .bytes
  | .mk .fileHandle _ => .heap .fileHandle
  | .mk .resourceHandle _ => .heap .resourceHandle
  | .mk .hostResource _ => .heap .hostResource
  | .mk .fault _ => .heap .fault
  | .mk .request _ => .heap .request
  | .mk .policyTable _ => .heap .policyTable
  | .mk .vm _ => .heap .vm
  | .mk .digest _ => .heap .digest
  | .mk .vmSnapshot _ => .heap .snapshot
  | .mk .runSnapshot _ => .heap .snapshot
  | .mk .run _ => .heap .run
  | .mk .wait _ => .heap .wait
  | .mk .pendingCall _ => .heap .pendingCall
  | .mk .handle _ => .heap .handle
  | .mk (.fn ..) _ => .heap .closure
  | .mk (.callback ..) _ => .callback
  | .mk .list _ => .heap .list
  | .mk .map _ => .heap .map
  | .mk .tuple _ => .heap .tuple
  | .mk (.class c) _ => resolveClass M classNodes c
  | .mk (.inst c) args => resolveInst M c args

end Resolve

def kindOf : Object → Kind
  | .str _ => .str
  | .substring _ => .substring
  | .strBuilder _ => .stringBuilder
  | .byteBuf _ => .byteBuffer
  | .bytes _ => .bytes
  | .nativeFileHandle _ => .fileHandle
  | .nativeResourceHandle .. => .resourceHandle
  | .nativeHostResource .. => .hostResource
  | .nativeWait .. => .wait
  | .nativeFault .. => .fault
  | .nativeRequest .. => .request
  | .nativeTable _ => .policyTable
  | .nativeVm .. => .vm
  | .nativeRun _ => .run
  | .nativeDynRef .. => .dynValue
  | .nativeDigest _ => .digest
  | .nativeSnapshot _ => .snapshot
  | .nativeSnapshotRef _ => .snapshot
  | .nativeCall .. => .pendingCall
  | .nativeHandle .. => .handle
  | .closure .. => .closure
  | .list .. => .list
  | .map .. => .map
  | .tuple _ => .tuple
  | .inst .. => .inst
  | .nativeTcpStream _ => .tcpStream
  | .nativeTcpListener _ => .tcpListener
  | .nativeTlsStream _ => .tlsStream
  | .nativeRawMode _ => .rawMode
  | .nativeSignalStream _ => .signalStream
  | .nativePipeReader _ => .pipeReader
  | .nativePipeWriter _ => .pipeWriter
  | .nativeChild _ => .child
  | .nativeUdpSocket _ => .udpSocket
  | .nativeCode code => match code.kind with
    | .artifact => .artifact
    | .verifiedModule => .verifiedModule
    | .slotSpec => .slotSpec
    | .function => .functionCode
    | .cls => .classCode
  | .nativeCodeDescriptor descriptor => match descriptor.kind with
    | .declaration => .declarationCode
    | .member => .memberCode
  | .nativeLinkedCode linked => match linked.kind with
    | .module => .moduleCode
    | .opened => .openCode
  | .nativeCodeHandle _ _ _ kind _ => match kind with
    | .inst => .codeInstance
    | .slot => .slot
    | .function => .functionDef
    | .cls => .classDef
    | .functionBinding => .functionBinding
    | .classBinding => .classBinding
  | .nativeSlotChange .. => .slotChange
  | .dynValue .. => .dynValue
  | .nativeRegex _ => .regex
  | .nativeRegexMatch _ => .regexMatch

def kindFits (found expected : Kind) : Bool :=
  found = expected ||
    (expected = .text && (found = .str || found = .substring)) ||
    (expected = .tcpResource && (found = .tcpStream || found = .tcpListener)) ||
    (expected = .pipeEnd && (found = .pipeReader || found = .pipeWriter))

def childCount : Object → ℕ
  | .list items _ => items.length
  | .tuple items => items.length
  | .map _ index => index.live
  | .inst _ fields _ => fields.length
  | .dynValue .. => 1
  | _ => 0

def scalarFits : Value → Scalar → Bool
  | .unit, .unit => true
  | .bool _, .bool => true
  | .int _, .int => true
  | .float _, .float => true
  | .char _, .char => true
  | .op slot, .op op => slot = op
  | _, _ => false

def asInstance : Ty → Option (Index × List Ty)
  | .mk (.class c) _ => some (c, [])
  | .mk (.inst c) args => some (c, args)
  | _ => none

def childOf (M : NamespaceRuntime) (expect : Ty) (place : ℕ) : Except FaultCode Ty :=
  match expect, place with
  | .mk .list (e :: _), 0 => .ok e
  | .mk .map (k :: _), 0 => .ok k
  | .mk .map (_ :: v :: _), 1 => .ok v
  | .mk (.inst c) args, n =>
    if c = M.coreRoles roleList ∨ c = M.coreRoles roleMap then
      match args[n]? with
      | some arg => .ok arg
      | none => .error .typeMismatch
    else .error .malformedState
  | .mk .tuple elems, n =>
    match elems[n]? with
    | some elem => .ok elem
    | none => .error .typeMismatch
  | _, _ => .error .malformedState

/-- The pairs of types left to compare for two types that are not both nominal, or `none` when
they are not related. -/
def structuralStep : Ty → Ty → Option (List (Ty × Ty))
  | .mk .tuple xs, .mk .tuple ys => if xs.length ≠ ys.length then none else some (xs.zip ys)
  | .mk (.fn fm frow) fs, .mk (.fn em erow) es
  | .mk (.callback fm frow) fs, .mk (.callback em erow) es =>
    if fs.length ≠ es.length ∨ ¬ (fm.zip em).all (fun p => !p.1 || p.2) ∨ ¬ frow.all (erow.contains ·)
    then none
    else some (es.dropLast.zip fs.dropLast ++ fs.getLast?.toList.zip es.getLast?.toList)
  | _, _ => none

abbrev Goal := Value × Ty

structure BoundaryContext where
  module : NamespaceRuntime
  heap : Heap
  fuel : ℕ

namespace BoundaryContext

variable (C : BoundaryContext)

def close (env : TypeEnv) (ty : Index) : EnvM Ty := C.module.closeFrom C.fuel env ty

def ancestorArgs (c : Index) (args : List Ty) (ancestor : Index) : EnvM (Option (List Ty)) :=
  C.module.ancestorArgs C.fuel c args ancestor

def child (expect : Ty) (place : ℕ) : EnvM Ty :=
  Exec.read fun _ => some (childOf C.module expect place)

def subtypeStep (found expected : Ty) : EnvM (Option (List (Ty × Ty))) :=
  match asInstance found, asInstance expected with
  | some (c, args), some (parent, expectedArgs) => do
    if (← C.ancestorArgs c args parent) = some expectedArgs then return some [] else return none
  | _, _ => pure (structuralStep found expected)

def subtypeFrom : ℕ → List (Ty × Ty) → List (Ty × Ty) → EnvM Bool
  | _, [], _ => pure true
  | 0, _ :: _, _ => Exec.stuck
  | turns + 1, (found, expected) :: work, seen =>
    if found = expected ∨ (found, expected) ∈ seen then subtypeFrom turns work seen
    else do
      match ← C.subtypeStep found expected with
      | none => return false
      | some pairs => subtypeFrom turns (pairs.reverse ++ work) ((found, expected) :: seen)

def closedIsSubtype (found expected : Ty) : EnvM Bool := C.subtypeFrom C.fuel [(found, expected)] []

def env (id : UInt32) : EnvM TypeEnv :=
  Exec.read fun E => some (match E.envs[id.toNat]? with
    | some env => .ok env
    | none => .error .malformedState)

def signature (func : Func) (env : TypeEnv) : EnvM Ty := do
  let params ← func.params.mapM (C.close env)
  let result ← C.close env func.ret
  intern (.mk (.fn func.paramMuts (C.module.closeRow func.row env)) (params ++ [result]))

def checkClosure (func envId : UInt32) (expect : Ty) : EnvM Unit :=
  match C.module.funcs[func.toNat]? with
  | none => throw .typeMismatch
  | some code => do
    let held ← env envId
    if held.types.length ≠ code.typeParams.toNat ∨ held.rows.length ≠ code.effectParams.toNat then
      throw .typeMismatch
    let actual ← C.signature code held
    if ← C.closedIsSubtype actual expect then pure () else throw .typeMismatch

def actualArgs (c : Index) (layout : BcClass) (want : Index) (wantArgs : List Ty) : Option (List Ty) :=
  if c = want then some wantArgs
  else if layout.typeParams = 0 then some []
  else if layout.typeParams.toNat = wantArgs.length then some wantArgs
  else none

def checkFields (env : TypeEnv) : List (Value × Index) → EnvM (List Goal)
  | [] => pure []
  | (value, ty) :: fields =>
    if value = .uninit then checkFields env fields
    else do
      let field ← C.close env ty
      return (value, field) :: (← checkFields env fields)

def checkInstance (c : Index) (fields : List Value) (expect : Ty) : EnvM (List Goal) :=
  match C.module.classes[c.toNat]? with
  | none => throw .typeMismatch
  | some layout =>
    if fields.length ≠ layout.fields.length then throw .typeMismatch
    else match asInstance expect with
      | none => throw .malformedState
      | some (want, wantArgs) =>
        match actualArgs c layout want wantArgs with
        | none => throw .typeMismatch
        | some args =>
          if args.length ≠ layout.typeParams.toNat then throw .typeMismatch
          else do
            if (← C.ancestorArgs c args want) ≠ some wantArgs then throw .typeMismatch
            let fieldEnv ← envOf args []
            C.checkFields fieldEnv (fields.zip (layout.fields.map Prod.snd))

def checkObject (object : Object) (kind : Kind) (expect : Ty) : EnvM (List Goal) :=
  match object, kind with
  | .list items _, .list => do
    let elem ← C.child expect 0
    return items.map fun item => (item, elem)
  | .map entries _, .map => do
    let key ← C.child expect 0
    let value ← C.child expect 1
    return (entries.filter MapEntry.isLive).flatMap fun entry => [(entry.key, key), (entry.value, value)]
  | .tuple items, .tuple =>
    match expect with
    | .mk .tuple elems => if items.length ≠ elems.length then throw .typeMismatch else pure (items.zip elems)
    | _ => throw .malformedState
  | .inst c fields _, .inst => C.checkInstance c fields expect
  | .closure func _ envId, .closure => do
    C.checkClosure func envId expect
    return []
  | .dynValue value ty, .dynValue =>
    Exec.read fun E => some (match E.types[ty.toNat]? with
      | some ty => .ok [(value, ty)]
      | none => .error .malformedState)
  | _, _ => pure []

abbrev Seen := List (ℕ × Ty)

def mark (object : Object) (key : ℕ × Ty) (seen : Seen) : Seen :=
  if 0 < childCount object then key :: seen else seen

def checkHeap (value : Value) (kind : Kind) (expect : Ty) (seen : Seen) : EnvM (List Goal × Seen) :=
  match value with
  | .obj r =>
    if (C.heap.textViews.get r).isSome then
      if kind = .text ∨ kind = .substring then pure ([], seen) else throw .typeMismatch
    else match C.heap.tryGet r with
      | none => Exec.stuck
      | some object =>
        if !kindFits (kindOf object) kind then throw .typeMismatch
        else if 0 < childCount object ∧ (r.slot, expect) ∈ seen then pure ([], seen)
        else do
          let goals ← C.checkObject object kind expect
          return (goals, mark object (r.slot, expect) seen)
  | _ => throw .typeMismatch

def isNone (value : Value) (family : Ty) : EnvM Bool :=
  Exec.read fun E => some (.ok (match value with
    | .emptyCase ty arm => arm = 1 ∧ E.types[ty.toNat]? = some family
    | _ => false))

def checkOption (value : Value) (payload expect : Ty) (case : Option Bool) : EnvM (List Goal) :=
  match expect with
  | .mk (.inst _) args => do
    let family ← intern (.mk (.inst (C.module.coreRoles roleOption)) args)
    match case, ← isNone value family with
    | some false, false => throw .typeMismatch
    | some true, true => throw .typeMismatch
    | none, true => pure []
    | some false, true => pure []
    | none, false => pure [(value, payload)]
    | some true, false => pure [(value, payload)]
  | _ => throw .malformedState

def checkOne (value : Value) (expect : Ty) (seen : Seen) : EnvM (List Goal × Seen) :=
  match resolve C.module expect with
  | .scalar tag => if scalarFits value tag then pure ([], seen) else throw .typeMismatch
  | .heap kind => C.checkHeap value kind expect seen
  | .callback => throw .boundaryViolation
  | .option payload case => do return (← C.checkOption value payload expect case, seen)

def maxSteps : ℕ := 2 ^ 20

def walk : ℕ → List Goal → Seen → EnvM Unit
  | _, [], _ => pure ()
  | 0, _ :: _, _ => throw .boundaryLimit
  | steps + 1, (value, expect) :: work, seen => do
    let (goals, seen) ← C.checkOne value expect seen
    walk steps (goals.reverse ++ work) seen

def plain : Value → BcType → Bool
  | .unit, .unit => true
  | .int _, .int => true
  | .float _, .float => true
  | .bool _, .bool => true
  | _, _ => false

def checkBoundaryValue (value : Value) (replyTy : Index) (envId : UInt32) : EnvM Unit := do
  match C.module.types[replyTy.toNat]? with
  | none => throw .malformedState
  | some ty =>
    let held ← env envId
    if plain value ty then return ()
    let root ← C.close held replyTy
    C.walk maxSteps [(value, root)] []

end BoundaryContext

end LoomV4.Boundary
