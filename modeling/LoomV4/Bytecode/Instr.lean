import LoomV4.Bytecode.Basic

namespace LoomV4.Bytecode

open Lib

inductive Op
  | constUnit | constBool | constInt | constFloat | constChar | constStr | constBytes | constRegex | numeric
  | loadLocal | storeLocal | pop | add | sub | mul | div | rem | neg | not | ltInt | leInt | gtInt | geInt | eqInt
  | neInt | eqBool | neBool | eqStr | neStr | strByteLen | strCharCount | strConcat | strStartsWith | strEndsWith
  | strContains | strFindIndex | textFindByteIndex | textAtByte | textTrim | textTrimStart | textTrimEnd
  | textToLowerAscii | textToUpperAscii | textReplace | textParseIntStatus | textParseIntValue | textPadStart
  | textPadEnd | bytesEndsWith | bytesContains | textSplit | textLines | textAt | textSlice | textIsBoundary
  | textSliceBytes | textBytes | textLt | textLe | textGt | textGe | textToString | charCodepoint | charUtf8Len
  | eqChar | neChar | ltChar | leChar | gtChar | geChar | eqRef | eqValue | neValue | callInterface | neRef | call
  | callG | callVirtual | callVirtualG | callValue | makeClosure | loadCapture | new | newG | loadField | storeField
  | tupleNew | tupleGet | isType | castType | listNew | listLen | listAt | listPush | mapNew | mapLen | mapHas
  | mapAt | mapPut | sbNew | sbAppendStr | sbAppendInt | sbAppendBool | sbBuild | sbLen | sbClear | bbNew | bbAppend
  | bbLen | bbBuild | sbAppendChar | sbByteLen | sbFinish | bbFinish | bytesCompact | bytesTextView | textHash
  | bytesHash | hashCombine | hashUnorderedCombine | regexCompileStatus | regexCompileValue | regexSource
  | regexIsMatch | regexCount | regexSplit | regexReplaceAll | regexMatchStart | regexMatchEnd | regexMatchText
  | regexMatchGroupCount | bbSet | bbCapacity | bbTruncate | bytesReadU32Be | bytesReadU32Le | ltBytes | leBytes
  | gtBytes | geBytes | bbExtend | bbReserve | bbClear | bbAt | bbFindFrom | bytesNew | bytesLen | bytesText
  | bytesTextRange | bytesAt | bytesGet | bytesSlice | bytesConcat | bytesStartsWith | bytesFindIndex | bytesHex
  | bytesIsUtf8 | eqBytes | neBytes | freeze | digest | eqDigest | neDigest | jump | jumpIfFalse | jumpIfTrue | ret
  | perform | performValue | opConst | tableEdit | asCall | callArgs | faultCode | faultDenied | raiseUserPanic
  | raiseAssertionFailed | raiseFault | requestOp | unreachable | prepareWait | regexCaptures | regexMatchGroup
  | regexMatchNamed | makeCallback | asCallback | optionSome | optionNone | optionPayload | listGet | mapGet
  | mapPutText | mapInternTextRange | listEpoch | listIterLen | mapEpoch | mapIterLen | mapNextIndex | sealInstance
  | mapKeyAt | mapValueAt | listCapacity | listSet | listPop | listInsert | listRemove | listSwapRemove | listSwap
  | listReserve | listTruncate | listContains | listReorder | mapRemove | mapClear | mapReserve | callSlot | newSlot
  | loadSlot | sendSlot | syntaxTreeRoot | syntaxKind | syntaxCategory | syntaxRangeStart | syntaxRangeEnd
  | syntaxText | syntaxChildren | syntaxDetach | dynPack | dynRender | syntaxBuildToken | syntaxBuildTrivia
  | syntaxBuildNode | syntaxToTree | functionCode | classCode | moduleCode | reflectionDeclarations | reflectionOpen
  | reflectionMembers | reflectionName | reflectionDeclarationKind | reflectionMemberKind
  | reflectionTypeParameterCount | reflectionInterfaceNames | reflectionRefine | reflectionEnd | codeSource
  | codeDefinition | faultSite | faultTrace | mapProbe | mapProbeFound | mapProbeKey | mapProbeValue
  | mapProbeSetValue | mapProbeRemove | mapInsertHashed | mapWriteGuard
deriving DecidableEq

inductive Code
  | main (byte : UInt8)
  | extension (byte : UInt8)
deriving DecidableEq

def opExtension : UInt8 := 0xfe
def opNumeric : UInt8 := 0xfb

def Code.bytes : Code → Bytes
  | .main b => [b]
  | .extension b => [opExtension, b]

/-- The byte that `encode_instr` writes for a form. -/
def Op.code : Op → Code
  | .constUnit => .main 0x00 | .constBool => .main 0x01 | .constInt => .main 0x02 | .constFloat => .main 0xfc
  | .constChar => .main 0x08 | .constStr => .main 0x03 | .constBytes => .main 0xfd | .constRegex => .extension 0x05
  | .numeric => .main 0xfb | .loadLocal => .main 0x04 | .storeLocal => .main 0x05 | .pop => .main 0x06
  | .add => .main 0x10 | .sub => .main 0x11 | .mul => .main 0x12 | .div => .main 0x13 | .rem => .main 0x14
  | .neg => .main 0x15 | .not => .main 0x16 | .ltInt => .main 0x20 | .leInt => .main 0x21 | .gtInt => .main 0x22
  | .geInt => .main 0x23 | .eqInt => .main 0x24 | .neInt => .main 0x25 | .eqBool => .main 0x26
  | .neBool => .main 0x27 | .eqStr => .main 0x28 | .neStr => .main 0x29 | .strByteLen => .main 0x67
  | .strCharCount => .main 0x68 | .strConcat => .main 0x69 | .strStartsWith => .main 0x6a
  | .strEndsWith => .main 0x6b | .strContains => .main 0x6c | .strFindIndex => .main 0x6d
  | .textFindByteIndex => .main 0xa6 | .textAtByte => .main 0xa7 | .textTrim => .main 0xa8
  | .textTrimStart => .main 0xa9 | .textTrimEnd => .main 0xaa | .textToLowerAscii => .main 0xab
  | .textToUpperAscii => .main 0xac | .textReplace => .main 0xad | .textParseIntStatus => .main 0xae
  | .textParseIntValue => .main 0xaf | .textPadStart => .extension 0x00 | .textPadEnd => .extension 0x01
  | .bytesEndsWith => .main 0xb0 | .bytesContains => .main 0xb1 | .textSplit => .main 0xb2 | .textLines => .main 0xb3
  | .textAt => .main 0x8a | .textSlice => .main 0x8b | .textIsBoundary => .main 0x8c | .textSliceBytes => .main 0x8d
  | .textBytes => .main 0x8e | .textLt => .main 0x8f | .textLe => .main 0x90 | .textGt => .main 0x91
  | .textGe => .main 0x92 | .textToString => .main 0x93 | .charCodepoint => .main 0x94 | .charUtf8Len => .main 0x95
  | .eqChar => .main 0x96 | .neChar => .main 0x97 | .ltChar => .main 0x98 | .leChar => .main 0x99
  | .gtChar => .main 0x9a | .geChar => .main 0x9b | .eqRef => .main 0x2a | .eqValue => .main 0xb6
  | .neValue => .main 0xb7 | .callInterface => .main 0xbc | .neRef => .main 0x2b | .call => .main 0x30
  | .callG => .main 0x60 | .callVirtual => .main 0x40 | .callVirtualG => .main 0x61 | .callValue => .main 0x41
  | .makeClosure => .main 0x42 | .loadCapture => .main 0x43 | .new => .main 0x44 | .newG => .main 0x62
  | .loadField => .main 0x45 | .storeField => .main 0x46 | .tupleNew => .main 0x63 | .tupleGet => .main 0x64
  | .isType => .main 0x65 | .castType => .main 0x66 | .listNew => .main 0x47 | .listLen => .main 0x48
  | .listAt => .main 0x49 | .listPush => .main 0x4a | .mapNew => .main 0x4b | .mapLen => .main 0x4c
  | .mapHas => .main 0x4d | .mapAt => .main 0x4e | .mapPut => .main 0x4f | .sbNew => .main 0x50
  | .sbAppendStr => .main 0x51 | .sbAppendInt => .main 0x52 | .sbAppendBool => .main 0x53 | .sbBuild => .main 0x54
  | .sbLen => .main 0x83 | .sbClear => .main 0x84 | .bbNew => .main 0x55 | .bbAppend => .main 0x56
  | .bbLen => .main 0x57 | .bbBuild => .main 0x58 | .sbAppendChar => .main 0xa2 | .sbByteLen => .main 0xa3
  | .sbFinish => .main 0xa4 | .bbFinish => .main 0xa5 | .bytesCompact => .main 0x9c | .bytesTextView => .main 0x9d
  | .textHash => .main 0xed | .bytesHash => .main 0xee | .hashCombine => .main 0xf7
  | .hashUnorderedCombine => .main 0xf8 | .regexCompileStatus => .extension 0x06
  | .regexCompileValue => .extension 0x07 | .regexSource => .extension 0x08 | .regexIsMatch => .extension 0x09
  | .regexCount => .extension 0x0a | .regexSplit => .extension 0x0b | .regexReplaceAll => .extension 0x0c
  | .regexMatchStart => .extension 0x0d | .regexMatchEnd => .extension 0x0e | .regexMatchText => .extension 0x0f
  | .regexMatchGroupCount => .extension 0x10 | .bbSet => .extension 0x15 | .bbCapacity => .extension 0x16
  | .bbTruncate => .extension 0x17 | .bytesReadU32Be => .extension 0x18 | .bytesReadU32Le => .extension 0x19
  | .ltBytes => .main 0x9e | .leBytes => .main 0x9f | .gtBytes => .main 0xa0 | .geBytes => .main 0xa1
  | .bbExtend => .main 0x85 | .bbReserve => .main 0x86 | .bbClear => .main 0x87 | .bbAt => .main 0xb4
  | .bbFindFrom => .main 0xb5 | .bytesNew => .main 0x5a | .bytesLen => .main 0x5b | .bytesText => .main 0x5c
  | .bytesTextRange => .extension 0x03 | .bytesAt => .main 0x6e | .bytesGet => .main 0x6f | .bytesSlice => .main 0x7b
  | .bytesConcat => .main 0x7c | .bytesStartsWith => .main 0x7d | .bytesFindIndex => .main 0x7e
  | .bytesHex => .main 0x7f | .bytesIsUtf8 => .main 0x80 | .eqBytes => .main 0x81 | .neBytes => .main 0x82
  | .freeze => .main 0x59 | .digest => .main 0x78 | .eqDigest => .main 0x79 | .neDigest => .main 0x7a
  | .jump => .main 0x31 | .jumpIfFalse => .main 0x32 | .jumpIfTrue => .main 0x33 | .ret => .main 0x34
  | .perform => .main 0x70 | .performValue => .main 0x71 | .opConst => .main 0x72 | .tableEdit => .main 0x73
  | .asCall => .main 0x74 | .callArgs => .main 0x75 | .faultCode => .main 0x76 | .faultDenied => .main 0x88
  | .raiseUserPanic => .main 0xeb | .raiseAssertionFailed => .main 0xec | .raiseFault => .main 0x07
  | .requestOp => .main 0x89 | .unreachable => .main 0x77 | .prepareWait => .main 0xff
  | .regexCaptures => .extension 0x11 | .regexMatchGroup => .extension 0x12 | .regexMatchNamed => .extension 0x13
  | .makeCallback => .main 0xcf | .asCallback => .main 0xd0 | .optionSome => .main 0xb8 | .optionNone => .main 0xb9
  | .optionPayload => .main 0xd1 | .listGet => .main 0xba | .mapGet => .main 0xbb | .mapPutText => .extension 0x02
  | .mapInternTextRange => .extension 0x04 | .listEpoch => .main 0xbd | .listIterLen => .main 0xbe
  | .mapEpoch => .main 0xbf | .mapIterLen => .main 0xc0 | .mapNextIndex => .main 0xf9 | .sealInstance => .main 0xfa
  | .mapKeyAt => .main 0xc1 | .mapValueAt => .main 0xc2 | .listCapacity => .main 0xc3 | .listSet => .main 0xc4
  | .listPop => .main 0xc5 | .listInsert => .main 0xc6 | .listRemove => .main 0xc7 | .listSwapRemove => .main 0xc8
  | .listSwap => .extension 0x14 | .listReserve => .main 0xc9 | .listTruncate => .main 0xca
  | .listContains => .main 0xcb | .listReorder => .main 0xd2 | .mapRemove => .main 0xcc | .mapClear => .main 0xcd
  | .mapReserve => .main 0xce | .callSlot => .main 0xd3 | .newSlot => .main 0xd4 | .loadSlot => .main 0xd5
  | .sendSlot => .main 0xd6 | .syntaxTreeRoot => .main 0xd7 | .syntaxKind => .main 0xd8
  | .syntaxCategory => .main 0xd9 | .syntaxRangeStart => .main 0xda | .syntaxRangeEnd => .main 0xdb
  | .syntaxText => .main 0xdc | .syntaxChildren => .main 0xdd | .syntaxDetach => .main 0xde | .dynPack => .main 0xdf
  | .dynRender => .main 0xe0 | .syntaxBuildToken => .main 0xe1 | .syntaxBuildTrivia => .main 0xe2
  | .syntaxBuildNode => .main 0xe3 | .syntaxToTree => .main 0xe4 | .functionCode => .main 0xe5
  | .classCode => .main 0xe6 | .moduleCode => .extension 0x1a | .reflectionDeclarations => .extension 0x1b
  | .reflectionOpen => .extension 0x24 | .reflectionMembers => .extension 0x1c | .reflectionName => .extension 0x1d
  | .reflectionDeclarationKind => .extension 0x1e | .reflectionMemberKind => .extension 0x1f
  | .reflectionTypeParameterCount => .extension 0x22 | .reflectionInterfaceNames => .extension 0x23
  | .reflectionRefine => .extension 0x20 | .reflectionEnd => .extension 0x21 | .codeSource => .main 0xe7
  | .codeDefinition => .main 0xea | .faultSite => .main 0xe8 | .faultTrace => .main 0xe9 | .mapProbe => .main 0xef
  | .mapProbeFound => .main 0xf0 | .mapProbeKey => .main 0xf1 | .mapProbeValue => .main 0xf2
  | .mapProbeSetValue => .main 0xf3 | .mapProbeRemove => .main 0xf4 | .mapInsertHashed => .main 0xf5
  | .mapWriteGuard => .main 0xf6

/-- The bytes that `decode_instr` takes for a form. -/
def mainTable : List (ℕ × Op) :=
  [
   (0x00, .constUnit), (0x01, .constBool), (0x02, .constInt), (0xfc, .constFloat), (0x08, .constChar),
   (0x03, .constStr), (0xfd, .constBytes), (0xfb, .numeric), (0x04, .loadLocal), (0x05, .storeLocal), (0x06, .pop),
   (0x10, .add), (0x11, .sub), (0x12, .mul), (0x13, .div), (0x14, .rem), (0x15, .neg), (0x16, .not), (0x20, .ltInt),
   (0x21, .leInt), (0x22, .gtInt), (0x23, .geInt), (0x24, .eqInt), (0x25, .neInt), (0x26, .eqBool), (0x27, .neBool),
   (0x28, .eqStr), (0x29, .neStr), (0x67, .strByteLen), (0x68, .strCharCount), (0x69, .strConcat),
   (0x6a, .strStartsWith), (0x6b, .strEndsWith), (0x6c, .strContains), (0x6d, .strFindIndex),
   (0xa6, .textFindByteIndex), (0xa7, .textAtByte), (0xa8, .textTrim), (0xa9, .textTrimStart), (0xaa, .textTrimEnd),
   (0xab, .textToLowerAscii), (0xac, .textToUpperAscii), (0xad, .textReplace), (0xae, .textParseIntStatus),
   (0xaf, .textParseIntValue), (0xb0, .bytesEndsWith), (0xb1, .bytesContains), (0xb2, .textSplit),
   (0xb3, .textLines), (0x8a, .textAt), (0x8b, .textSlice), (0x8c, .textIsBoundary), (0x8d, .textSliceBytes),
   (0x8e, .textBytes), (0x8f, .textLt), (0x90, .textLe), (0x91, .textGt), (0x92, .textGe), (0x93, .textToString),
   (0x94, .charCodepoint), (0x95, .charUtf8Len), (0x96, .eqChar), (0x97, .neChar), (0x98, .ltChar), (0x99, .leChar),
   (0x9a, .gtChar), (0x9b, .geChar), (0x2a, .eqRef), (0xb6, .eqValue), (0xb7, .neValue), (0x2b, .neRef),
   (0x30, .call), (0x60, .callG), (0x40, .callVirtual), (0x61, .callVirtualG), (0xbc, .callInterface),
   (0x41, .callValue), (0x42, .makeClosure), (0xcf, .makeCallback), (0xd0, .asCallback), (0x43, .loadCapture),
   (0x44, .new), (0x62, .newG), (0x45, .loadField), (0x46, .storeField), (0x63, .tupleNew), (0x64, .tupleGet),
   (0x65, .isType), (0x66, .castType), (0x47, .listNew), (0x48, .listLen), (0x49, .listAt), (0x4a, .listPush),
   (0x4b, .mapNew), (0x4c, .mapLen), (0x4d, .mapHas), (0x4e, .mapAt), (0x4f, .mapPut), (0xb8, .optionSome),
   (0xb9, .optionNone), (0xd1, .optionPayload), (0xba, .listGet), (0xbb, .mapGet), (0xbd, .listEpoch),
   (0xbe, .listIterLen), (0xbf, .mapEpoch), (0xc0, .mapIterLen), (0xf9, .mapNextIndex), (0xfa, .sealInstance),
   (0xc1, .mapKeyAt), (0xc2, .mapValueAt), (0xc3, .listCapacity), (0xc4, .listSet), (0xc5, .listPop),
   (0xc6, .listInsert), (0xc7, .listRemove), (0xc8, .listSwapRemove), (0xc9, .listReserve), (0xca, .listTruncate),
   (0xcb, .listContains), (0xd2, .listReorder), (0xcc, .mapRemove), (0xcd, .mapClear), (0xce, .mapReserve),
   (0xd3, .callSlot), (0xd4, .newSlot), (0xd5, .loadSlot), (0xd6, .sendSlot), (0xd7, .syntaxTreeRoot),
   (0xd8, .syntaxKind), (0xd9, .syntaxCategory), (0xda, .syntaxRangeStart), (0xdb, .syntaxRangeEnd),
   (0xdc, .syntaxText), (0xdd, .syntaxChildren), (0xde, .syntaxDetach), (0xdf, .dynPack), (0xe0, .dynRender),
   (0xe1, .syntaxBuildToken), (0xe2, .syntaxBuildTrivia), (0xe3, .syntaxBuildNode), (0xe4, .syntaxToTree),
   (0xe5, .functionCode), (0xe6, .classCode), (0xe7, .codeSource), (0xea, .codeDefinition), (0xe8, .faultSite),
   (0xe9, .faultTrace), (0xef, .mapProbe), (0xf0, .mapProbeFound), (0xf1, .mapProbeKey), (0xf2, .mapProbeValue),
   (0xf3, .mapProbeSetValue), (0xf4, .mapProbeRemove), (0xf5, .mapInsertHashed), (0xf6, .mapWriteGuard),
   (0x50, .sbNew), (0x51, .sbAppendStr), (0x52, .sbAppendInt), (0x53, .sbAppendBool), (0x54, .sbBuild),
   (0x83, .sbLen), (0x84, .sbClear), (0x55, .bbNew), (0x56, .bbAppend), (0x57, .bbLen), (0x58, .bbBuild),
   (0xa2, .sbAppendChar), (0xa3, .sbByteLen), (0xa4, .sbFinish), (0xa5, .bbFinish), (0x9c, .bytesCompact),
   (0x9d, .bytesTextView), (0xed, .textHash), (0xee, .bytesHash), (0xf7, .hashCombine),
   (0xf8, .hashUnorderedCombine), (0x9e, .ltBytes), (0x9f, .leBytes), (0xa0, .gtBytes), (0xa1, .geBytes),
   (0x85, .bbExtend), (0x86, .bbReserve), (0x87, .bbClear), (0xb4, .bbAt), (0xb5, .bbFindFrom), (0x5a, .bytesNew),
   (0x5b, .bytesLen), (0x5c, .bytesText), (0x6e, .bytesAt), (0x6f, .bytesGet), (0x7b, .bytesSlice),
   (0x7c, .bytesConcat), (0x7d, .bytesStartsWith), (0x7e, .bytesFindIndex), (0x7f, .bytesHex), (0x80, .bytesIsUtf8),
   (0x81, .eqBytes), (0x82, .neBytes), (0x59, .freeze), (0x78, .digest), (0x79, .eqDigest), (0x7a, .neDigest),
   (0x31, .jump), (0x32, .jumpIfFalse), (0x33, .jumpIfTrue), (0x34, .ret), (0x70, .perform), (0x71, .performValue),
   (0x72, .opConst), (0xff, .prepareWait), (0x73, .tableEdit), (0x74, .asCall), (0x75, .callArgs),
   (0x76, .faultCode), (0x88, .faultDenied), (0xeb, .raiseUserPanic), (0xec, .raiseAssertionFailed),
   (0x07, .raiseFault), (0x89, .requestOp), (0x77, .unreachable)]

def extensionTable : List (ℕ × Op) :=
  [
   (0x00, .textPadStart), (0x01, .textPadEnd), (0x02, .mapPutText), (0x03, .bytesTextRange),
   (0x04, .mapInternTextRange), (0x05, .constRegex), (0x06, .regexCompileStatus), (0x07, .regexCompileValue),
   (0x08, .regexSource), (0x09, .regexIsMatch), (0x0a, .regexCount), (0x0b, .regexSplit), (0x0c, .regexReplaceAll),
   (0x0d, .regexMatchStart), (0x0e, .regexMatchEnd), (0x0f, .regexMatchText), (0x10, .regexMatchGroupCount),
   (0x11, .regexCaptures), (0x12, .regexMatchGroup), (0x13, .regexMatchNamed), (0x14, .listSwap), (0x15, .bbSet),
   (0x16, .bbCapacity), (0x17, .bbTruncate), (0x18, .bytesReadU32Be), (0x19, .bytesReadU32Le), (0x1a, .moduleCode),
   (0x1b, .reflectionDeclarations), (0x24, .reflectionOpen), (0x1c, .reflectionMembers), (0x1d, .reflectionName),
   (0x1e, .reflectionDeclarationKind), (0x1f, .reflectionMemberKind), (0x22, .reflectionTypeParameterCount),
   (0x23, .reflectionInterfaceNames), (0x20, .reflectionRefine), (0x21, .reflectionEnd)]

inductive Table
  | strings | bytes | types | selectors | apps | classes | funcs | slots | reflections
deriving DecidableEq

inductive Operand
  | truth | flag | numeric | reflectionKind | word | pattern | half | optApp | site | number
  | index (table : Table)
deriving DecidableEq

def Op.operands : Op → List Operand
  | .constBool => [.truth] | .constInt => [.word] | .constFloat => [.word] | .constChar => [.number]
  | .constStr => [.index .strings] | .constBytes => [.index .bytes] | .constRegex => [.index .strings]
  | .numeric => [.numeric] | .loadLocal => [.number] | .storeLocal => [.number]
  | .callInterface => [.site, .index .types, .optApp] | .call => [.index .funcs]
  | .callG => [.index .funcs, .index .apps] | .callVirtual => [.index .selectors, .number]
  | .callVirtualG => [.index .selectors, .number, .index .apps] | .callValue => [.number]
  | .makeClosure => [.index .funcs, .number] | .loadCapture => [.number] | .new => [.index .classes]
  | .newG => [.index .classes, .index .apps] | .loadField => [.number] | .storeField => [.number]
  | .tupleNew => [.index .types, .number] | .tupleGet => [.number] | .isType => [.index .types]
  | .castType => [.index .types] | .listNew => [.index .types, .number] | .mapNew => [.index .types, .number]
  | .mapPut => [.index .types, .flag] | .digest => [.index .types] | .jump => [.number] | .jumpIfFalse => [.number]
  | .jumpIfTrue => [.number] | .perform => [.number, .number, .index .types]
  | .performValue => [.number, .index .types] | .opConst => [.number] | .tableEdit => [.number, .number, .number]
  | .asCall => [.number, .index .types] | .prepareWait => [.half, .half, .index .types]
  | .regexCaptures => [.index .types] | .regexMatchGroup => [.index .types] | .regexMatchNamed => [.index .types]
  | .makeCallback => [.index .funcs, .number] | .optionSome => [.index .types] | .optionNone => [.index .types]
  | .optionPayload => [.index .types] | .listGet => [.index .types] | .mapGet => [.index .types]
  | .mapPutText => [.index .types, .flag] | .listPop => [.index .types] | .mapRemove => [.index .types]
  | .callSlot => [.index .slots, .optApp] | .newSlot => [.index .slots, .optApp] | .loadSlot => [.index .slots]
  | .sendSlot => [.index .slots] | .dynPack => [.index .types] | .functionCode => [.index .funcs]
  | .classCode => [.index .classes] | .moduleCode => [.index .reflections]
  | .reflectionRefine => [.reflectionKind, .pattern, .number] | .reflectionEnd => [.index .funcs, .half, .half]
  | .codeSource => [.index .types] | .faultSite => [.index .types] | .faultTrace => [.index .types]
  | _ => []

structure Instr where
  op : Op
  args : List ℕ
deriving DecidableEq

/-- The form that `decode_instr` takes a code for. -/
def Code.op : Code → Option Op
  | .main b => mainTable.lookup b.toNat
  | .extension b => extensionTable.lookup b.toNat

theorem op_code (op : Op) : op.code ≠ .main opExtension ∧ op.code.op = some op := by
  cases op <;> decide +kernel

theorem code_op {c : Code} {op : Op} (h : c.op = some op) : op.code = c := by
  have hm : ∀ p ∈ mainTable, p.2.code = .main (.ofNat p.1) := by decide +kernel
  have he : ∀ p ∈ extensionTable, p.2.code = .extension (.ofNat p.1) := by decide +kernel
  cases c with
  | main b =>
    obtain ⟨l, l', hl, -⟩ := List.lookup_eq_some_iff.mp h
    have hop := hm (b.toNat, op) (hl ▸ List.mem_append_right l List.mem_cons_self)
    rw [hop, UInt8.ofNat_toNat]
  | extension b =>
    obtain ⟨l, l', hl, -⟩ := List.lookup_eq_some_iff.mp h
    have hop := he (b.toNat, op) (hl ▸ List.mem_append_right l List.mem_cons_self)
    rw [hop, UInt8.ofNat_toNat]

end LoomV4.Bytecode
