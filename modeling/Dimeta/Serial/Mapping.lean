import Dimeta.Core.Document
import Dimeta.Data

/-!
# YAML mappings of the data model

One mapping per type, for both directions. The mapping of a record refers to itself through its
members and bases: it takes the codec of the records nested in it, and `compoundType` ties the
knot level by level. Where the library may leave out an empty sequence is a parameter,
`canElide`, of what was written of the mapping so far.
-/

set_option autoImplicit false

namespace Dimeta

open Document

variable {α : Type}

/-- Write an optional key only if the value is not empty; always read it. -/
def mapOptionalNotEmpty (key : String) (y : Codec α) (isEmpty : α → Bool) (io : Io) (data : α) :
    Option (Io × α) :=
  if io.outputting then
    if !isEmpty data then io.mapOptional key y data else some (io, data)
  else io.mapOptional key y data

/-! ### Enumerations -/

def CompoundType.Tag.enumeration : List (String × CompoundType.Tag) :=
  [("class", .kClass), ("struct", .kStruct), ("union", .kUnion), ("enum", .kEnum),
    ("enum_class", .kEnumClass), ("unknown", .kUnknown)]

def FundamentalType.Encoding.enumeration : List (String × FundamentalType.Encoding) :=
  [("unknown", .kUnknown), ("bool", .kBool), ("char", .kChar), ("float", .kFloat),
    ("int", .kInt), ("signed", .kSigned), ("unsigned", .kUnsigned),
    ("signed_char", .kSignedChar), ("unsigned_char", .kUnsignedChar),
    ("signed_int", .kSignedInt), ("unsigned_int", .kUnsignedInt), ("padding", .kPadding),
    ("void_ptr", .kVoid), ("vtable_ptr", .kVtablePtr), ("nullptr", .kNullptr),
    ("utf_char", .kUTFChar), ("complex", .kComplex), ("function_ptr", .kFunctionPtr),
    ("string", .kString)]

def Qualifier.enumeration : List (String × Qualifier) :=
  [("none", .kNone), ("const", .kConst), ("ptr", .kPtr), ("ref", .kRef),
    ("ptr_to_mem", .kPtrToMember), ("array", .kArray), ("vector", .kVector),
    ("static", .kStatic)]

/-! ### Fundamental and qualified types -/

/-- Sequences of scalars; the elements are overwritten in place. -/
def uint64List : Codec (List UInt64) := Codec.scalar.seqIndex 0

def qualifiers : Codec (List Qualifier) := (Codec.enumeration Qualifier.enumeration).seqIndex .kNone

def FundamentalType.mapping (io : Io) (info : FundamentalType) :
    Option (Io × FundamentalType) := do
  let (io, name) ← io.mapRequired "Name" .scalar info.name
  let (io, extent) ← io.mapOptional "Extent" .scalar info.extent
  let (io, encoding) ← io.mapRequired "Encoding" (.enumeration Encoding.enumeration) info.encoding
  return (io, { info with name, extent, encoding })

/-- The fields that a qualified type has besides its type. -/
def mapQualtypeFields {T : Type} (io : Io) (info : QualType T) : Option (Io × QualType T) := do
  let (io, arraySize) ← mapOptionalNotEmpty "Array" uint64List List.isEmpty io info.arraySize
  let (io, qual) ← mapOptionalNotEmpty "Qualifiers" qualifiers List.isEmpty io info.qual
  let (io, typedefName) ← mapOptionalNotEmpty "Typedef" .scalar String.isEmpty io info.typedefName
  let (io, isVector) ← mapOptionalNotEmpty "Vector" .scalar not io info.isVector
  let (io, vectorSize) ← mapOptionalNotEmpty "VectorSize" .scalar (· == 0) io info.vectorSize
  let (io, isForwardDecl) ← mapOptionalNotEmpty "ForwardDecl" .scalar not io info.isForwardDecl
  let (io, isRecurring) ← mapOptionalNotEmpty "Recurring" .scalar not io info.isRecurring
  return (io, { info with arraySize, qual, typedefName, isVector, vectorSize, isForwardDecl,
                          isRecurring })

def mapQualType {T : Type} (key : String) (type : Codec T) (io : Io) (info : QualType T) :
    Option (Io × QualType T) := do
  let (io, type) ← io.mapRequired key type info.type
  mapQualtypeFields io { info with type }

def QualifiedFundamental.mapping : Io → QualifiedFundamental → Option (Io × QualifiedFundamental) :=
  mapQualType "Fundamental" (.ofMapping FundamentalType.mapping)

/-! ### Records -/

section Record

-- the codec of the records nested in the one at hand
variable (nested : Codec CompoundType)

def QualifiedCompound.mapping : Io → QualifiedCompound → Option (Io × QualifiedCompound) :=
  mapQualType "Compound" nested

/-- `Builtin` selects the alternative of the variant; reading starts from a fresh one. -/
def mapQualifiedType (io : Io) (type : QualifiedType) : Option (Io × QualifiedType) := do
  let holdsBuiltin :=
    match io.outputting, type with
    | true, .fundamental _ => true
    | _, _                 => false
  let (io, holdsBuiltin) ← io.mapRequired "Builtin" .scalar holdsBuiltin
  if holdsBuiltin then
    match if io.outputting then type else .fundamental default with
    | .fundamental info =>
      let (io, info) ← io.mapRequired "Type" (.ofMapping QualifiedFundamental.mapping) info
      return (io, .fundamental info)
    | .compound _ => none
  else
    match if io.outputting then type else .compound default with
    | .compound info =>
      let (io, info) ← io.mapRequired "Type" (.ofMapping (QualifiedCompound.mapping nested)) info
      return (io, .compound info)
    | .fundamental _ => none

def Member.mapping (io : Io) (info : Member) : Option (Io × Member) := do
  let (io, name) ← io.mapRequired "Name" .scalar info.name
  let (io, member) ← mapQualifiedType nested io info.member
  return (io, { info with name, member })

def BaseClass.mapping (io : Io) (info : BaseClass) : Option (Io × BaseClass) := do
  let (io, base) ← io.mapRequired "BaseClass" (.ofMapping (QualifiedCompound.mapping nested))
    info.base
  let (io, offset) ← mapOptionalNotEmpty "Offset" .scalar (· == 0) io info.offset
  let (io, isEmptyBaseClass) ← mapOptionalNotEmpty "EBO" .scalar not io info.isEmptyBaseClass
  return (io, { info with base, offset, isEmptyBaseClass })

def memberList : Codec (List Member) := Codec.seqAppend (.ofMapping (Member.mapping nested)) default

def baseList : Codec (List BaseClass) :=
  Codec.seqAppend (.ofMapping (BaseClass.mapping nested)) default

variable (canElide : List (String × Node) → Bool)

def CompoundType.mapping (io : Io) (info : CompoundType) : Option (Io × CompoundType) := do
  let (io, name) ← io.mapRequired "Name" .scalar info.name
  let (io, identifier) ← mapOptionalNotEmpty "Identifier" .scalar String.isEmpty io info.identifier
  let (io, type) ← io.mapRequired "Type" (.enumeration Tag.enumeration) info.type
  let (io, extent) ← io.mapRequired "Extent" .scalar info.extent
  let (io, sizes) ← io.mapOptionalSeq canElide "Sizes" uint64List info.sizes
  let (io, offsets) ← io.mapOptionalSeq canElide "Offsets" uint64List info.offsets
  let (io, bases) ← mapOptionalNotEmpty "Base" (baseList nested) List.isEmpty io info.bases
  let (io, members) ← io.mapOptionalSeq canElide "Members" (memberList nested) info.members
  let (io, staticMembers) ← io.mapOptionalSeq canElide "Static_Members" (memberList nested)
    info.staticMembers
  return (io, { info with name, identifier, type, extent, sizes, offsets, bases, members,
                          staticMembers })

end Record

section Emit

variable (canElide : List (String × Node) → Bool)

/-- Records nested below a given level. -/
def compoundType : ℕ → Codec CompoundType
  | 0         => ⟨fun _ => .map [], fun _ _ => none⟩
  | level + 1 => .ofMapping (CompoundType.mapping (compoundType level) canElide)

/-! ### Toplevel values -/

def SourceLocation.mapping (io : Io) (info : SourceLocation) : Option (Io × SourceLocation) := do
  let (io, file) ← io.mapRequired "File" .scalar info.file
  let (io, function) ← io.mapOptional "Function" .scalar info.function
  let (io, line) ← io.mapRequired "Line" .scalar info.line
  return (io, { info with file, function, line })

def LocatedType.mapping (nested : Codec CompoundType) (io : Io) (info : LocatedType) :
    Option (Io × LocatedType) := do
  let (io, location) ← io.mapRequired "SourceLoc" (.ofMapping SourceLocation.mapping) info.location
  let (io, type) ← mapQualifiedType nested io info.type
  return (io, { info with location, type })

def CompileUnitTypes.mapping (nested : Codec CompoundType) (io : Io) (info : CompileUnitTypes) :
    Option (Io × CompileUnitTypes) := do
  let (io, name) ← io.mapRequired "CUName" .scalar info.name
  let (io, types) ← io.mapOptionalSeq canElide "Types"
    (Codec.seqIndex (.ofMapping (mapQualifiedType nested)) default) info.types
  return (io, { info with name, types })

/-! ### `io::emit` and `io::input` -/

/-- A type with `emit` and `input`: its codec over the records nested below a level, and the
level that a value needs. -/
structure Serial (α : Type) where
  codec : ℕ → Codec α
  depth : α → ℕ

def Serial.emit (s : Serial α) (obj : α) : Node := (s.codec (s.depth obj)).output obj

/-- Read a document into an object; `none` stands for the error state of the reader. -/
def Serial.input (s : Serial α) (yaml : Node) (obj : α) : Option α :=
  (s.codec yaml.depth).input yaml obj

def qualifiedFundamental : Serial QualifiedFundamental where
  codec _ := .ofMapping QualifiedFundamental.mapping
  depth _ := 0

def qualifiedCompound : Serial QualifiedCompound where
  codec level := .ofMapping (QualifiedCompound.mapping (compoundType canElide level))
  depth v := v.type.depth

def locatedType : Serial LocatedType where
  codec level := .ofMapping (LocatedType.mapping (compoundType canElide level))
  depth v := v.type.depth

def CompileUnitTypes.depth (v : CompileUnitTypes) : ℕ := depthTypes v.types

def compileUnitTypes : Serial CompileUnitTypes where
  codec level := .ofMapping (CompileUnitTypes.mapping canElide (compoundType canElide level))
  depth v := v.depth

def compileUnitTypeList : Serial CompileUnitTypeList where
  codec level := ((compileUnitTypes canElide).codec level).seqIndex default
  depth vs := (vs.map CompileUnitTypes.depth).foldr max 0

end Emit

end Dimeta
