import Mathlib.Data.Int.Notation
import Mathlib.Data.List.Basic
import Mathlib.Data.Nat.Notation
import Mathlib.Tactic

/-!
# Debug-info nodes

The DWARF type graph as LLVM stores it: nodes named by `ι`, with the fields the library reads. A
null reference of the source is `none`.
-/

set_option autoImplicit false

namespace Dimeta

variable {ι : Type*}

/-- DWARF tags. -/
inductive DwTag where
  | arrayType
  | classType
  | enumerationType
  | structureType
  | unionType
  | member
  | inheritance
  | var
  | typedef
  | pointerType
  | referenceType
  | rvalueReferenceType
  | ptrToMemberType
  | constType
  | volatileType
  | restrictType
  | atomicType
  | baseType
  | stringType
  | subroutineType
  | enumerator
  | subrangeType
  | subprogram
  | other
  deriving DecidableEq

/-- DWARF encodings of basic types. -/
inductive DwEncoding where
  | float
  | signed
  | unsigned
  | unsignedChar
  | signedChar
  | boolean
  | utf
  | complexFloat
  | other
  deriving DecidableEq

/-- `DINode::DIFlags` -/
abbrev DIFlags := UInt32

def DIFlags.fwdDecl : DIFlags := 0x4
def DIFlags.vector : DIFlags := 0x800
def DIFlags.staticMember : DIFlags := 0x1000

structure DIBasicType where
  name : String
  sizeInBits : UInt64
  encoding : DwEncoding
  deriving DecidableEq

structure DIStringType where
  name : String
  sizeInBits : UInt64
  deriving DecidableEq

structure DIDerivedType (ι : Type*) where
  tag : DwTag
  name : String := ""
  sizeInBits : UInt64 := 0
  offsetInBits : UInt64 := 0
  flags : DIFlags := 0
  baseType : Option ι
  deriving DecidableEq

structure DICompositeType (ι : Type*) where
  tag : DwTag
  name : String := ""
  identifier : String := ""
  sizeInBits : UInt64 := 0
  flags : DIFlags := 0
  vtableHolder : Option ι := none
  associated : Bool := false
  baseType : Option ι := none
  elements : List ι := []
  deriving DecidableEq

def DIDerivedType.isStaticMember (d : DIDerivedType ι) : Bool :=
  d.flags &&& DIFlags.staticMember != 0

def DICompositeType.isVector (c : DICompositeType ι) : Bool := c.flags &&& DIFlags.vector != 0

def DICompositeType.isForwardDecl (c : DICompositeType ι) : Bool :=
  c.flags &&& DIFlags.fwdDecl != 0

/-- A node of the debug-info graph. A subrange has a count if that is a constant; one that has
no count at all, where the code reads a null pointer, is left out. -/
inductive DINode (ι : Type*) where
  | basicType (b : DIBasicType)
  | stringType (s : DIStringType)
  | derivedType (d : DIDerivedType ι)
  | compositeType (c : DICompositeType ι)
  | subroutineType
  | var (type : Option ι)
  | enumerator (name : String)
  | subrange (count : Option ℤ)
  | subprogram
  | other
  deriving DecidableEq

namespace DINode

def tag : DINode ι → DwTag
  | .basicType _     => .baseType
  | .stringType _    => .stringType
  | .derivedType d   => d.tag
  | .compositeType c => c.tag
  | .subroutineType  => .subroutineType
  | .var _           => .var
  | .enumerator _    => .enumerator
  | .subrange _      => .subrangeType
  | .subprogram      => .subprogram
  | .other           => .other

/-- `isa<DIType>` -/
def isType : DINode ι → Bool
  | .basicType _ | .stringType _ | .derivedType _ | .compositeType _ | .subroutineType => true
  | _ => false

def isVariable : DINode ι → Bool
  | .var _ => true
  | _      => false

/-- Nodes that are visited on their own: nothing is read below them. -/
def isPlain : DINode ι → Bool
  | .enumerator _ | .subrange _ | .subroutineType => true
  | _ => false

def sizeInBits : DINode ι → UInt64
  | .basicType b     => b.sizeInBits
  | .stringType s    => s.sizeInBits
  | .derivedType d   => d.sizeInBits
  | .compositeType c => c.sizeInBits
  | _                => 0

def flags : DINode ι → DIFlags
  | .derivedType d   => d.flags
  | .compositeType c => c.flags
  | _                => 0

def name : DINode ι → String
  | .basicType b     => b.name
  | .stringType s    => s.name
  | .derivedType d   => d.name
  | .compositeType c => c.name
  | .enumerator n    => n
  | _                => ""

def asDerived : DINode ι → Option (DIDerivedType ι)
  | .derivedType d => some d
  | _              => none

def asComposite : DINode ι → Option (DICompositeType ι)
  | .compositeType c => some c
  | _                => none

/-- The type that a node refers to. -/
def typeRef : DINode ι → Option ι
  | .derivedType d   => d.baseType
  | .compositeType c => c.baseType
  | .var type        => type
  | _                => none

end DINode

/-- The debug-info nodes of a module. -/
structure DIGraph (ι : Type*) where
  node : ι → DINode ι

/-- Numerals of `Fin (n + 1)` name the nodes and values of small modules. They are those of
`Fin.instOfNat` without the proof that the type is inhabited, so that such a module is plain
data. -/
instance finNumeral (n k : ℕ) : OfNat (Fin (n + 1)) k := ⟨Fin.ofNat (n + 1) k⟩

end Dimeta
