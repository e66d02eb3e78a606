import LoomV4.Abi.Fault
import LoomV4.Heap.Value

namespace LoomV4

open Abi

def headerCost : ℕ := 32

def minObjectCost : ℕ := headerCost

def valueCost : ℕ := 16

def entryCost : ℕ := 2 * valueCost + 8

structure FaultSite where
  function : UInt32
  block : UInt32
  instruction : UInt32
deriving DecidableEq

structure MapSlot where
  hash : UInt64
  entry : UInt32
deriving DecidableEq

structure MapIndex where
  built : UInt32 := 0
  live : ℕ := 0
  epoch : UInt32 := 0
  slots : List MapSlot := []
deriving DecidableEq

def MapIndex.withLive (epoch : UInt32) (live : ℕ) : MapIndex := { live, epoch }

structure MapEntry where
  key : Value
  value : Value
  semanticHash : Int64
deriving DecidableEq

namespace MapEntry

def isLive (e : MapEntry) : Bool := e.key != .uninit

def map (f : ObjRef → ObjRef) (e : MapEntry) : MapEntry :=
  { e with key := e.key.map f, value := e.value.map f }

end MapEntry

inductive PortableCodeKind
  | artifact | verifiedModule | slotSpec | function | cls
deriving DecidableEq

inductive CodeHandleKind
  | inst | slot | function | cls | functionBinding | classBinding
deriving DecidableEq

inductive SlotChangeKind
  | function | cls | value | process
deriving DecidableEq

/-- A decoded artifact, known by its shared allocation, with its logical byte charge. -/
structure CodeArtifact where
  key : ℕ
  encoded : Option SharedBytes
  retainedBytes : ℕ
deriving DecidableEq

inductive PortableCodeStorage
  | bytes (bytes : SharedBytes)
  | verified (artifact : CodeArtifact)
deriving DecidableEq

structure PortableCode where
  kind : PortableCodeKind
  storage : PortableCodeStorage
  slot : Option UInt32
  origin : Option Hash
deriving DecidableEq

inductive CodeDescriptorKind
  | declaration | member
deriving DecidableEq

structure CodeDescriptor where
  kind : CodeDescriptorKind
  artifact : CodeArtifact
  declaration : UInt32
  member : Option String
deriving DecidableEq

inductive LinkedCodeKind
  | module | opened
deriving DecidableEq

structure LinkedCode where
  kind : LinkedCodeKind
  unit : Hash
  descriptor : Option ObjRef
deriving DecidableEq

structure RegexCaptureRange where
  start : UInt32
  stop : UInt32
deriving DecidableEq

structure NativeRegexMatch where
  text : SharedText
  start : UInt32
  stop : UInt32
  groups : List (Option RegexCaptureRange)
  names : List (String × UInt32)
deriving DecidableEq

structure Regex where
  source : String
  memoryUsage : ℕ
deriving DecidableEq

/-- A string builder or a byte buffer. A finished one keeps no storage. -/
structure Buffer where
  bytes : List UInt8
  capacity : ℕ
  active : Bool
deriving DecidableEq

def Buffer.retainedCapacity (b : Buffer) : ℕ := if b.active then b.capacity else 0

inductive Object
  | str (text : SharedText)
  | inst (cls : UInt32) (fields : List Value) (env : UInt32)
  | list (items : List Value) (epoch : UInt32)
  | map (entries : List MapEntry) (index : MapIndex)
  | tuple (items : List Value)
  | closure (func : UInt32) (captures : List Value) (env : UInt32)
  | strBuilder (buffer : Buffer)
  | byteBuf (buffer : Buffer)
  | bytes (bytes : SharedBytes)
  | substring (text : SharedText)
  | nativeVm (image generation : UInt32)
  | nativeRun (vm : UInt32)
  | nativeDynRef (vm generation : UInt32)
  | nativeCode (code : PortableCode)
  | nativeCodeHandle (image generation instanceOf : UInt32) (kind : CodeHandleKind) (index : UInt32)
  | nativeSlotChange (image generation slot : UInt32) (version : UInt64) (kind : SlotChangeKind)
      (target : Value)
  | nativeTable (vm : UInt32)
  | nativeRequest (vm : UInt32) (ordinal : UInt64)
  | nativeCall (vm : UInt32) (ordinal : UInt64) (op : UInt32)
  | nativeFault (code : FaultCode) (message : String) (op : Option UInt32) (trace : List FaultSite)
  | nativeDigest (bytes : Hash)
  | nativeHandle (proc generation : UInt32)
  | nativeSnapshot (image : List UInt8)
  | nativeSnapshotRef (image : UInt32)
  | nativeFileHandle (resource : UInt64)
  | nativeResourceHandle (surface : UInt32) (resource : UInt64)
  | nativeWait (owner : UInt32) (token : UInt64)
  | nativeTcpStream (resource : UInt64)
  | nativeTcpListener (resource : UInt64)
  | nativeTlsStream (resource : UInt64)
  | nativeRawMode (resource : UInt64)
  | nativeSignalStream (resource : UInt64)
  | nativePipeReader (resource : UInt64)
  | nativePipeWriter (resource : UInt64)
  | nativeChild (resource : UInt64)
  | nativeUdpSocket (resource : UInt64)
  | nativeHostResource (kind : Hash) (resource : UInt64)
  | dynValue (value : Value) (ty : UInt32)
  | nativeRegex (regex : Regex)
  | nativeRegexMatch (matched : NativeRegexMatch)
  | nativeCodeDescriptor (descriptor : CodeDescriptor)
  | nativeLinkedCode (linked : LinkedCode)
deriving DecidableEq

inductive BoundaryPolicy
  | sendable
  | holderLocal
deriving DecidableEq, Repr

structure ShapeDesc where
  name : String
  bornFrozen : Bool
  boundary : BoundaryPolicy
  digestible : Bool
deriving DecidableEq, Repr

def shapes : Vector ShapeDesc 42 := #v[
  ⟨"String", true, .sendable, true⟩,
  ⟨"Instance", false, .sendable, true⟩,
  ⟨"List", false, .sendable, true⟩,
  ⟨"Map", false, .sendable, true⟩,
  ⟨"Tuple", true, .sendable, true⟩,
  ⟨"Closure", true, .sendable, true⟩,
  ⟨"StringBuilder", false, .holderLocal, false⟩,
  ⟨"ByteBuffer", false, .holderLocal, false⟩,
  ⟨"Vm", true, .holderLocal, false⟩,
  ⟨"PolicyTable", true, .holderLocal, false⟩,
  ⟨"Request", true, .holderLocal, false⟩,
  ⟨"PendingCall", true, .holderLocal, false⟩,
  ⟨"Fault", true, .sendable, true⟩,
  ⟨"Digest", true, .sendable, true⟩,
  ⟨"Handle", true, .sendable, false⟩,
  ⟨"Snapshot", true, .sendable, false⟩,
  ⟨"Bytes", true, .sendable, true⟩,
  ⟨"FileHandle", true, .sendable, false⟩,
  ⟨"ResourceHandle", true, .holderLocal, false⟩,
  ⟨"Wait", true, .holderLocal, false⟩,
  ⟨"Substring", true, .sendable, true⟩,
  ⟨"TcpStream", true, .sendable, false⟩,
  ⟨"TcpListener", true, .sendable, false⟩,
  ⟨"TlsStream", true, .sendable, false⟩,
  ⟨"SnapshotRef", true, .sendable, false⟩,
  ⟨"Run", true, .holderLocal, false⟩,
  ⟨"PortableCode", true, .sendable, true⟩,
  ⟨"CodeHandle", true, .holderLocal, false⟩,
  ⟨"DynValue", true, .sendable, true⟩,
  ⟨"SlotChange", true, .holderLocal, false⟩,
  ⟨"HostResource", true, .holderLocal, false⟩,
  ⟨"RawMode", true, .sendable, false⟩,
  ⟨"SignalStream", true, .sendable, false⟩,
  ⟨"PipeReader", true, .sendable, false⟩,
  ⟨"PipeWriter", true, .sendable, false⟩,
  ⟨"Child", true, .sendable, false⟩,
  ⟨"UdpSocket", true, .sendable, false⟩,
  ⟨"DynRef", true, .holderLocal, false⟩,
  ⟨"Regex", true, .sendable, false⟩,
  ⟨"RegexMatch", true, .sendable, false⟩,
  ⟨"CodeDescriptor", true, .sendable, false⟩,
  ⟨"LinkedCode", true, .holderLocal, false⟩]

namespace Object

def tag : Object → Fin 42
  | .str .. => 0
  | .inst .. => 1
  | .list .. => 2
  | .map .. => 3
  | .tuple .. => 4
  | .closure .. => 5
  | .strBuilder .. => 6
  | .byteBuf .. => 7
  | .nativeVm .. => 8
  | .nativeTable .. => 9
  | .nativeRequest .. => 10
  | .nativeCall .. => 11
  | .nativeFault .. => 12
  | .nativeDigest .. => 13
  | .nativeHandle .. => 14
  | .nativeSnapshot .. => 15
  | .bytes .. => 16
  | .nativeFileHandle .. => 17
  | .nativeResourceHandle .. => 18
  | .nativeWait .. => 19
  | .substring .. => 20
  | .nativeTcpStream .. => 21
  | .nativeTcpListener .. => 22
  | .nativeTlsStream .. => 23
  | .nativeSnapshotRef .. => 24
  | .nativeRun .. => 25
  | .nativeCode .. => 26
  | .nativeCodeHandle .. => 27
  | .dynValue .. => 28
  | .nativeSlotChange .. => 29
  | .nativeHostResource .. => 30
  | .nativeRawMode .. => 31
  | .nativeSignalStream .. => 32
  | .nativePipeReader .. => 33
  | .nativePipeWriter .. => 34
  | .nativeChild .. => 35
  | .nativeUdpSocket .. => 36
  | .nativeDynRef .. => 37
  | .nativeRegex .. => 38
  | .nativeRegexMatch .. => 39
  | .nativeCodeDescriptor .. => 40
  | .nativeLinkedCode .. => 41

def shape (o : Object) : ShapeDesc := shapes[o.tag]

def heapBaseCost (o : Object) : ℕ :=
  headerCost + match o with
    | .str _ | .bytes _ | .substring _ => 0
    | .inst _ fields _ => fields.length * valueCost
    | .list items _ => items.length * valueCost
    | .map entries _ => entries.length * entryCost
    | .tuple items => items.length * valueCost
    | .closure _ captures _ => captures.length * valueCost
    | .strBuilder b | .byteBuf b => b.retainedCapacity
    -- 12 is the size of one `FaultSite`, and of one optional capture range below.
    | .nativeFault _ message _ trace => message.utf8ByteSize + trace.length * 12
    | .nativeDigest _ => 32
    | .nativeSnapshot image => image.length
    | .nativeRegex regex => regex.memoryUsage + regex.source.utf8ByteSize
    | .nativeRegexMatch m =>
      m.text.retainedCapacity + m.groups.length * 12 + (m.names.map fun n => n.1.utf8ByteSize + 4).sum
    | .nativeCodeDescriptor d => (d.member.map fun m => valueCost + m.utf8ByteSize).getD valueCost
    | _ => valueCost

def sharedAllocation : Object → Option (ℕ × ℕ)
  | .str text | .substring text => some (text.allocationKey, text.retainedCapacity)
  | .bytes b => some (b.allocationKey, b.retainedCapacity)
  | .nativeCode code =>
    match code.storage with
    | .bytes b => some (b.allocationKey, b.retainedCapacity)
    | .verified artifact => some (artifact.key, artifact.retainedBytes)
  | .nativeCodeDescriptor d => some (d.artifact.key, d.artifact.retainedBytes)
  | _ => none

def cost (o : Object) : ℕ := o.heapBaseCost + (o.sharedAllocation.map Prod.snd).getD 0

def children : Object → List ObjRef
  | .inst _ values _ | .list values _ | .tuple values | .closure _ values _ => values.filterMap Value.asObj
  | .map entries _ =>
    (entries.filter MapEntry.isLive).flatMap fun e => [e.key, e.value].filterMap Value.asObj
  | .dynValue value _ => value.asObj.toList
  | .nativeSlotChange _ _ _ _ _ target => target.asObj.toList
  | .nativeLinkedCode linked => linked.descriptor.toList
  | _ => []

def shell : Object → Option Object
  | .tuple items => some (.tuple (List.replicate items.length .unit))
  | .list items epoch => some (.list (List.replicate items.length .unit) epoch)
  | .map entries index =>
    some (.map ((entries.filter MapEntry.isLive).map fun e => { e with key := .unit, value := .unit })
      (.withLive index.epoch index.live))
  | .inst cls fields env => some (.inst cls (List.replicate fields.length .unit) env)
  | .closure func captures env => some (.closure func (List.replicate captures.length .unit) env)
  | .dynValue _ ty => some (.dynValue .unit ty)
  | o@(.str _) | o@(.substring _) | o@(.nativeFault ..) | o@(.nativeDigest _) | o@(.nativeHandle ..)
  | o@(.nativeSnapshot _) | o@(.nativeSnapshotRef _) | o@(.bytes _) | o@(.nativeCode _)
  | o@(.nativeRegex _) | o@(.nativeRegexMatch _) | o@(.nativeCodeDescriptor _)
  | o@(.nativeFileHandle _) | o@(.nativeTcpStream _) | o@(.nativeTcpListener _)
  | o@(.nativeTlsStream _) | o@(.nativeRawMode _) | o@(.nativeSignalStream _)
  | o@(.nativePipeReader _) | o@(.nativePipeWriter _) | o@(.nativeChild _)
  | o@(.nativeUdpSocket _) => some o
  | _ => none

/-- The object with every child remapped; `none` for a shape whose shell is already complete. -/
def remap (f : ObjRef → ObjRef) : Object → Option Object
  | .nativeCodeDescriptor d => some (.nativeCodeDescriptor d)
  | .nativeLinkedCode linked =>
    some (.nativeLinkedCode { linked with descriptor := linked.descriptor.map f })
  | .tuple items => some (.tuple (items.map (Value.map f)))
  | .list items epoch => some (.list (items.map (Value.map f)) epoch)
  | .map entries index =>
    some (.map ((entries.filter MapEntry.isLive).map (MapEntry.map f)) (.withLive index.epoch index.live))
  | .inst cls fields env => some (.inst cls (fields.map (Value.map f)) env)
  | .closure func captures env => some (.closure func (captures.map (Value.map f)) env)
  | .dynValue value ty => some (.dynValue (value.map f) ty)
  | .nativeSlotChange image generation slot version kind target =>
    some (.nativeSlotChange image generation slot version kind (target.map f))
  | _ => none

def cloneRemapped (f : ObjRef → ObjRef) : Object → Object
  | .inst cls fields env => .inst cls (fields.map (Value.map f)) env
  | .list items epoch => .list (items.map (Value.map f)) epoch
  | .map entries index =>
    let copied := (entries.filter MapEntry.isLive).map (MapEntry.map f)
    .map copied (.withLive index.epoch copied.length)
  | .tuple items => .tuple (items.map (Value.map f))
  | .closure func captures env => .closure func (captures.map (Value.map f)) env
  | .nativeSlotChange image generation slot version kind target =>
    .nativeSlotChange image generation slot version kind (target.map f)
  | .dynValue value ty => .dynValue (value.map f) ty
  | .nativeLinkedCode linked => .nativeLinkedCode { linked with descriptor := linked.descriptor.map f }
  | o => o

theorem sharedAllocation_cloneRemapped (f : ObjRef → ObjRef) (o : Object) :
    (o.cloneRemapped f).sharedAllocation = o.sharedAllocation := by
  cases o <;> rfl

end Object

end LoomV4
