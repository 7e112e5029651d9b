import Mathlib.Data.List.Basic
import Mathlib.Data.Nat.Notation
import Mathlib.Tactic

/-!
# The type data model

What the library hands to its users: records with their members, static members and bases,
fundamental types, and the qualifiers around either. Non-null shared pointers of the source are
the values they point to.
-/

set_option autoImplicit false

namespace Dimeta

inductive Qualifier where
  | kNone
  | kConst
  | kPtr
  | kRef
  | kPtrToMember
  | kArray
  | kVector
  | kStatic
  deriving DecidableEq

/-- Kinds of records: struct, union, class etc. -/
inductive CompoundType.Tag where
  | kUnknown
  | kStruct
  | kClass
  | kUnion
  | kEnum
  | kEnumClass
  deriving DecidableEq

/-- What a fundamental type holds. -/
inductive FundamentalType.Encoding where
  | kUnknown
  | kFloat
  | kChar
  | kInt
  | kSigned
  | kUnsigned
  | kBool
  | kPadding
  | kVoid
  | kVtablePtr
  | kNullptr
  | kUTFChar
  | kComplex
  | kFunctionPtr
  | kString
  | kSignedChar
  | kUnsignedChar
  | kSignedInt
  | kUnsignedInt
  deriving DecidableEq

structure FundamentalType where
  name : String := ""
  extent : UInt64 := 0
  encoding : FundamentalType.Encoding := .kUnknown
  deriving DecidableEq, Inhabited

/-- A type with the qualifiers and the array dimensions around it. -/
structure QualType (T : Type) where
  type : T
  arraySize : List UInt64 := []
  qual : List Qualifier := []
  typedefName : String := ""
  vectorSize : UInt64 := 0
  isVector : Bool := false
  isForwardDecl : Bool := false
  isRecurring : Bool := false
  deriving DecidableEq

instance {T : Type} [Inhabited T] : Inhabited (QualType T) := ⟨{ type := default }⟩

abbrev QualifiedFundamental := QualType FundamentalType

mutual
/-- A record: struct, union, class or enumeration. -/
structure CompoundType where
  name : String
  identifier : String
  type : CompoundType.Tag
  extent : UInt64
  offsets : List UInt64
  sizes : List UInt64
  bases : List BaseClass
  members : List Member
  staticMembers : List Member

structure BaseClass where
  base : QualType CompoundType
  offset : UInt64
  isEmptyBaseClass : Bool

structure Member where
  name : String
  member : QualifiedType

/-- The `std::variant` over both kinds of types. -/
inductive QualifiedType where
  | compound (type : QualType CompoundType)
  | fundamental (type : QualType FundamentalType)
end

abbrev QualifiedCompound := QualType CompoundType

instance : Inhabited CompoundType := ⟨⟨"", "", .kUnknown, 0, [], [], [], [], []⟩⟩

instance : Inhabited BaseClass := ⟨⟨default, 0, false⟩⟩

instance : Inhabited QualifiedType := ⟨.compound default⟩

instance : Inhabited Member := ⟨⟨"", default⟩⟩

/-! What both kinds of types have around them. -/

def QualifiedType.qual : QualifiedType → List Qualifier
  | .compound q    => q.qual
  | .fundamental f => f.qual

def QualifiedType.arraySize : QualifiedType → List UInt64
  | .compound q    => q.arraySize
  | .fundamental f => f.arraySize

def QualifiedType.typedefName : QualifiedType → String
  | .compound q    => q.typedefName
  | .fundamental f => f.typedefName

structure CompileUnitTypes where
  name : String := ""
  types : List QualifiedType := []
  deriving Inhabited

abbrev CompileUnitTypeList := List CompileUnitTypes

structure SourceLocation where
  file : String := ""
  function : String := ""
  line : UInt32 := 0
  deriving DecidableEq, Inhabited

structure LocatedType where
  type : QualifiedType
  location : SourceLocation
  deriving Inhabited

/-! ### Nesting depth of records -/

mutual
def CompoundType.depth : CompoundType → ℕ
  | ⟨_, _, _, _, _, _, bases, members, staticMembers⟩ =>
    max (depthBases bases) (max (depthMembers members) (depthMembers staticMembers)) + 1

def BaseClass.depth : BaseClass → ℕ
  | ⟨⟨type, _, _, _, _, _, _, _⟩, _, _⟩ => type.depth

def Member.depth : Member → ℕ
  | ⟨_, member⟩ => member.depth

def QualifiedType.depth : QualifiedType → ℕ
  | .compound ⟨type, _, _, _, _, _, _, _⟩ => type.depth
  | .fundamental _ => 0

def depthBases : List BaseClass → ℕ
  | []      => 0
  | b :: bs => max b.depth (depthBases bs)

def depthMembers : List Member → ℕ
  | []      => 0
  | m :: ms => max m.depth (depthMembers ms)
end

def depthTypes (types : List QualifiedType) : ℕ := (types.map QualifiedType.depth).foldr max 0

lemma le_foldr_max {n : ℕ} {ns : List ℕ} (h : n ∈ ns) : n ≤ ns.foldr max 0 := by
  induction ns with
  | nil => cases h
  | cons m ns ih =>
    simp only [List.foldr_cons]
    rcases List.mem_cons.mp h with rfl | h
    · exact Nat.le_max_left _ _
    · exact Nat.le_trans (ih h) (Nat.le_max_right _ _)

lemma depth_le_depthTypes {t : QualifiedType} {types : List QualifiedType} (h : t ∈ types) :
    t.depth ≤ depthTypes types :=
  le_foldr_max (List.mem_map_of_mem h)

lemma depth_le_depthBases {b : BaseClass} {bs : List BaseClass} (h : b ∈ bs) :
    b.depth ≤ depthBases bs := by
  induction bs with
  | nil => cases h
  | cons c bs ih =>
    simp only [depthBases]
    rcases List.mem_cons.mp h with rfl | h
    · exact Nat.le_max_left _ _
    · exact Nat.le_trans (ih h) (Nat.le_max_right _ _)

lemma depth_le_depthMembers {m : Member} {ms : List Member} (h : m ∈ ms) :
    m.depth ≤ depthMembers ms := by
  induction ms with
  | nil => cases h
  | cons c ms ih =>
    simp only [depthMembers]
    rcases List.mem_cons.mp h with rfl | h
    · exact Nat.le_max_left _ _
    · exact Nat.le_trans (ih h) (Nat.le_max_right _ _)

lemma CompoundType.depth_eq (c : CompoundType) :
    c.depth = max (depthBases c.bases)
      (max (depthMembers c.members) (depthMembers c.staticMembers)) + 1 := by
  obtain ⟨⟩ := c
  rfl

lemma BaseClass.depth_eq (b : BaseClass) : b.depth = b.base.type.depth := by
  obtain ⟨⟨⟩⟩ := b
  rfl

lemma Member.depth_eq (m : Member) : m.depth = m.member.depth := by
  obtain ⟨⟩ := m
  rfl

lemma CompoundType.depth_base_lt {c : CompoundType} {b : BaseClass} (h : b ∈ c.bases) :
    b.base.type.depth < c.depth := by
  have hle := depth_le_depthBases h
  rw [c.depth_eq, ← b.depth_eq]
  omega

lemma CompoundType.depth_member_lt {c : CompoundType} {m : Member}
    (h : m ∈ c.members ∨ m ∈ c.staticMembers) : m.member.depth < c.depth := by
  have hle := h.imp depth_le_depthMembers depth_le_depthMembers
  rw [c.depth_eq, ← m.depth_eq]
  omega

end Dimeta
