import Dimeta.Data
import Dimeta.Parse.Events
import Mathlib.Data.List.Infix

/-!
# The type parser

`DITypeParser` receives the events of `DIEventVisitor` and builds the data model: composites under
construction are on a stack, and a finished one becomes a member or a base of the one below, or the
result.
-/

set_option autoImplicit false

namespace Dimeta

variable {ι : Type}

/-! ### Helpers -/

def dwarf2compound : DwTag → CompoundType.Tag
  | .enumerationType => .kEnum
  | .classType       => .kClass
  | .structureType   => .kStruct
  | .unionType       => .kUnion
  | _                => .kUnknown

def dwarf2encoding : DwEncoding → FundamentalType.Encoding
  | .float        => .kFloat
  | .signed       => .kSignedInt
  | .unsigned     => .kUnsignedInt
  | .unsignedChar => .kUnsignedChar
  | .signedChar   => .kSignedChar
  | .boolean      => .kBool
  | .utf          => .kUTFChar
  | .complexFloat => .kComplex
  | .other        => .kUnknown

def dwarf2qual : CollectedTag → Qualifier
  | .dwarf .pointerType     => .kPtr
  | .dwarf .referenceType   => .kRef
  | .dwarf .constType       => .kConst
  | .dwarf .ptrToMemberType => .kPtrToMember
  | .dwarf .arrayType       => .kArray
  | .kVector                => .kVector
  | .dwarf _                => .kNone

def makeQualifiers (tagCollector : List CollectedTag) : List Qualifier :=
  (tagCollector.filter fun tag => dwarf2qual tag ≠ .kNone).map dwarf2qual

def makeArraySizes (metaArrayData : List ArrayData) : List UInt64 :=
  metaArrayData.map fun array => array.subranges.foldl (· * ·) 1

/-- The size of the last vector among the arrays. -/
def vectorSize (arrays : List ArrayData) : UInt64 :=
  arrays.foldl (fun size a => if a.isVector then a.arraySizeBits / 8 else size) 0

def makeQualType {T : Type} (type : T) (m : MetaData ι) : QualType T where
  type := type
  arraySize := makeArraySizes m.arrays
  qual := makeQualifiers m.dwarfTags ++ if m.isMemberStatic then [.kStatic] else []
  typedefName := m.typedefNames.headD ""
  vectorSize := vectorSize m.arrays
  isVector := m.isVector
  isForwardDecl := m.isForwardDecl
  isRecurring := m.isRecurring

def makeCompound (c : DICompositeType ι) : CompoundType where
  name := c.name
  identifier := c.identifier
  type := dwarf2compound c.tag
  extent := c.sizeInBits / 8
  offsets := []
  sizes := []
  bases := []
  members := []
  staticMembers := []

/-- `sizeof(void*)` -/
def sizeofPtr : UInt64 := 8

/-- The byte size of a fundamental type; function pointers, `nullptr` and strings have none of
their own. -/
def fundamentalSize (m : MetaData ι) (encoding : FundamentalType.Encoding) : UInt64 :=
  let size := m.type.elim 0 (·.sizeInBits) / 8
  if size = 0 then
    match encoding with
    | .kNullptr | .kFunctionPtr =>
      if 0 < m.memberSize then m.memberSize
      else if 0 < m.derivedSize then m.derivedSize
      else sizeofPtr
    | .kString => 1
    | _        => size
  else size

def makeQualifiedFundamental (m : MetaData ι) (name : String)
    (encoding : FundamentalType.Encoding) : QualifiedFundamental :=
  makeQualType { name, extent := fundamentalSize m encoding, encoding } m

/-! ### The parser -/

/-- The parser, with the top of its stack as the head. -/
structure DITypeParser where
  result : QualifiedType := default
  compositeStack : List QualifiedCompound := []
  undefined : Bool := false

/-- Add a member to a composite. -/
def CompoundType.emplaceMember (c : CompoundType) (type : QualifiedType) (m : MetaData ι) :
    CompoundType :=
  if m.isMemberStatic then { c with staticMembers := c.staticMembers ++ [⟨m.memberName, type⟩] }
  else
    { c with
      offsets := c.offsets ++ [m.memberOffset]
      sizes := c.sizes ++ [m.memberSize]
      members := c.members ++ [⟨m.memberName, type⟩] }

/-- Enumerators count as one member when it comes to offsets and sizes. -/
def CompoundType.truncateEnum (c : CompoundType) : CompoundType :=
  { c with offsets := c.offsets.take 1, sizes := c.sizes.take 1 }

def CompoundType.emplaceBase (c : CompoundType) (base : BaseClass) : CompoundType :=
  { c with bases := c.bases ++ [base] }

/-- A base class is empty if its size is one and it has no members. -/
def makeBase (base : QualifiedCompound) (offset : UInt64) : BaseClass where
  base := base
  offset := offset
  isEmptyBaseClass := base.type.extent == 1 && base.type.members.isEmpty

namespace DITypeParser

/-- Change the composite under construction. -/
def onTop (f : CompoundType → CompoundType) (p : DITypeParser) : DITypeParser :=
  match p.compositeStack with
  | []       => { p with undefined := true }
  | c :: cs  => { p with compositeStack := { c with type := f c.type } :: cs }

def emplaceMember (type : QualifiedType) (m : MetaData ι) (p : DITypeParser) : DITypeParser :=
  p.onTop fun c => c.emplaceMember type m

def emplaceFundamental (m : MetaData ι) (name : String) (encoding : FundamentalType.Encoding)
    (p : DITypeParser) : DITypeParser :=
  let type : QualifiedType := .fundamental (makeQualifiedFundamental m name encoding)
  if m.isMember then p.emplaceMember type m else { p with result := type }

/-- The basic type that an event is about; events of another type dereference null. -/
def withBasic (m : MetaData ι) (p : DITypeParser) (f : DIBasicType → DITypeParser) : DITypeParser :=
  match m.type with
  | some (.basicType b) => f b
  | _                   => { p with undefined := true }

def makeFundamental (m : MetaData ι) (p : DITypeParser) : DITypeParser :=
  withBasic m p fun b =>
    let encoding := if "nullptr".toList <:+: b.name.toList then .kNullptr
      else dwarf2encoding b.encoding
    p.emplaceFundamental m b.name encoding

def makeFunctionPtr (m : MetaData ι) (p : DITypeParser) : DITypeParser :=
  p.emplaceFundamental m "" .kFunctionPtr

def makeVoidPtr (m : MetaData ι) (p : DITypeParser) : DITypeParser :=
  p.emplaceFundamental m "void" .kVoid

def makeString (m : MetaData ι) (p : DITypeParser) : DITypeParser :=
  let name := m.type.elim "" (·.name)
  p.emplaceFundamental m (if name.isEmpty then "character" else name) .kString

def makeVtable (m : MetaData ι) (p : DITypeParser) : DITypeParser :=
  p.emplaceFundamental m (m.type.elim "" (·.name)) .kVtablePtr

def makeEnumMember (m : MetaData ι) (p : DITypeParser) : DITypeParser :=
  withBasic m p fun b =>
    (p.emplaceFundamental m b.name (dwarf2encoding b.encoding)).onTop CompoundType.truncateEnum

def makeComposite (m : MetaData ι) (p : DITypeParser) : DITypeParser :=
  match m.type with
  | some (.compositeType c) =>
    { p with compositeStack := makeQualType (makeCompound c) m :: p.compositeStack }
  | _ => { p with undefined := true }

def finalizeComposite (m : MetaData ι) (p : DITypeParser) : DITypeParser :=
  match p.compositeStack with
  | []      => { p with undefined := true }
  | c :: cs =>
    let p := { p with compositeStack := cs }
    if m.isMember then p.emplaceMember (.compound c) m
    else if m.isBaseClass then p.onTop fun t => t.emplaceBase (makeBase c m.memberOffset)
    else { p with result := .compound c }

def events : DIParseEvents ι DITypeParser where
  makeFundamental := makeFundamental
  makeFunctionPtr := makeFunctionPtr
  makeVoidPtr := makeVoidPtr
  makeString := makeString
  makeVtable := makeVtable
  makeEnumMember := makeEnumMember
  makeComposite := makeComposite
  finalizeComposite := finalizeComposite

end DITypeParser

/-- The type parsed from a variable or type; other nodes have none. The outer `none` stands for a
traversal that `fuel` does not suffice for. -/
def makeDimetadata [DecidableEq ι] (G : DIGraph ι) (fuel : ℕ) (n : ι) :
    Option (Option QualifiedType) :=
  if !((G.node n).isVariable || (G.node n).isType) then some none
  else (diparserVisitNode DITypeParser.events G fuel n {}).map fun s => some s.events.result

end Dimeta
