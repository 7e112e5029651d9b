import Dimeta.Extract.Deref
import Dimeta.IR.Value

/-!
# Types behind address computations

`extract_gep_dereferenced_type`: the type and the member that a GEP on a value of a given type
computes the address of.
-/

set_option autoImplicit false

namespace Dimeta

variable {ι ν : Type}

/-- Detects the descriptor of an allocatable: arrays have ten elements, scalars have nine. -/
def isFortranDescriptor : LLType → Bool
  | .struct [e₀, e₁, e₂, e₃, e₄, e₅, e₆, .array n (.array 3 e₇), e₈, .array m e₉] =>
    e₀.isPointerTy && e₁.isIntegerTy 64 && e₂.isIntegerTy 32 && e₃.isIntegerTy 8 &&
      e₄.isIntegerTy 8 && e₅.isIntegerTy 8 && e₆.isIntegerTy 8 && e₇.isIntegerTy 64 &&
      e₈.isPointerTy && e₉.isIntegerTy 64 && n == m
  | .struct [e₀, e₁, e₂, e₃, e₄, e₅, e₆, e₈, .array _ e₉] =>
    e₀.isPointerTy && e₁.isIntegerTy 64 && e₂.isIntegerTy 32 && e₃.isIntegerTy 8 &&
      e₄.isIntegerTy 8 && e₅.isIntegerTy 8 && e₆.isIntegerTy 8 && e₈.isPointerTy &&
      e₉.isIntegerTy 64
  | _ => false

namespace GEPOperator

def isByteIndexing (gep : GEPOperator ν) : Bool := gep.sourceElementType.isIntegerTy 8

def isFirstNonZeroIndexing (gep : GEPOperator ν) : Except Fault Bool :=
  match gep.indices with
  | []               => .error .outOfBounds
  | some index :: _  => .ok (decide (0 < index))
  | none :: _        => .ok false

end GEPOperator

structure GepIndices where
  indices : List UInt64
  skippedFirst : Bool
  byteAccess : Bool
  dynamicAccess : Bool

/-- Only constant indices are kept. -/
def GepIndices.create (inst : GEPOperator ν) (skipFirst : Bool) : GepIndices :=
  let indices := (if skipFirst then inst.indices.drop 1 else inst.indices).filterMap fun index =>
    index.map UInt64.ofInt
  { indices
    skippedFirst := skipFirst
    byteAccess := inst.isByteIndexing
    dynamicAccess := indices.isEmpty && !inst.indices.isEmpty }

/-- The result of a GEP; an engaged type may still be null. -/
structure GepIndexToType (ι : Type*) where
  type : Option (Option ι) := none
  member : Option ι := none
  useType : Bool := false

namespace DIGraph

variable (G : DIGraph ι)

/-- Used to detect the empty base class optimization. -/
def selectNonZeroElement (element nextElement : ι) : ι :=
  match (G.node element).asDerived, (G.node nextElement).asDerived with
  | some d, some next => if d.offsetInBits = next.offsetInBits then nextElement else element
  | _, _ => element

/-- The first element, or the second if it is at the same place. -/
def selectFirstElement : List ι → Except Fault ι
  | []                     => .error .outOfBounds
  | [element]              => .ok element
  | element :: next :: _   => .ok (G.selectNonZeroElement element next)

def isEboInheritedComposite (n : ι) : Except Fault Bool :=
  match G.node n with
  | .derivedType d =>
    if !(DINode.derivedType d).isInheritance then .ok false
    else do
      let base ← deref d.baseType
      match G.node base with
      | .compositeType c => return !c.elements.any fun e => (G.node e).isNonStaticMember
      | _                => return false
  | _ => .ok false

def eboInheritanceOffset : List ι → Except Fault ℕ
  | []      => .ok 0
  | n :: ns => do
    let inherited ← G.isEboInheritedComposite n
    let count ← eboInheritanceOffset ns
    return if inherited then count + 1 else count

/-- Records with a single member are passed to the record that the member is. -/
def skipFirstGepAccess : ℕ → ι → DICompositeType ι → Except Fault (ι × DICompositeType ι)
  | 0, _, _ => .error .outOfFuel
  | fuel + 1, n, c =>
    if c.elements.countP (fun e => (G.node e).isNonStaticMember) = 1 then do
      let element ← G.selectFirstElement c.elements
      let next ← G.findNonDerivedTypeUnlessPtr fuel
        (if (G.node element).isType then some element else none)
      let next ← deref next
      match G.node next with
      | .compositeType c' => skipFirstGepAccess fuel next c'
      | _                 => return (n, c)
    else .ok (n, c)

def isStaticMember (n : ι) : Bool := (G.node n).asDerived.any (·.isStaticMember)

/-- Static members are passed to the next of the elements. -/
def skipStaticMembers (element : ι) : List ι → Except Fault ι
  | []               => if G.isStaticMember element then .error .outOfBounds else .ok element
  | next :: elements =>
    if G.isStaticMember element then skipStaticMembers next elements else .ok element

/-- The element for one index, and where it is. -/
def gepElement (elements : List ι) (index : ℕ) : Except Fault (ℕ × ι) := do
  let element ← (elements[index]?).elim (.error .outOfBounds) .ok
  let element ← if index = 0 then G.selectFirstElement elements else .ok element
  let offset ← G.eboInheritanceOffset elements
  if 0 < index ∧ 0 < offset then
    let element ← (elements[index + offset]?).elim (.error .outOfBounds) .ok
    return (index + offset, element)
  else return (index, element)

def iterateGepIndex (fuel : ℕ) : DICompositeType ι → List UInt64 →
    Except Fault (GepIndexToType ι)
  | _, [] => .ok {}
  | c, index :: indices => do
    let (index, element) ← G.gepElement c.elements index.toNat
    if (G.node element).isArray then return { type := some c.baseType }
    let element ← G.skipStaticMembers element (c.elements.drop (index + 1))
    match (G.node element).asDerived with
    | none   => iterateGepIndex fuel c indices
    | some d =>
      let memberType ← G.findNonDerivedTypeUnlessPtr fuel d.baseType
      let memberType ← deref memberType
      let here : GepIndexToType ι := { type := some (some memberType), member := some element }
      match G.node memberType with
      | .compositeType c' =>
        if indices.isEmpty then return here
        else if (G.node memberType).isStructOrClass then iterateGepIndex fuel c' indices
        else if (G.node memberType).isArray then
          return { type := some c'.baseType, member := some element }
        else return here
      | _ => return here

def resolveGepIndexToType [DecidableEq ι] (fuel : ℕ) (n : ι) (c : DICompositeType ι)
    (gepIndices : GepIndices) : Except Fault (GepIndexToType ι) :=
  match gepIndices.indices with
  | [] =>
    if gepIndices.dynamicAccess && (G.node n).isArray then .ok { type := some c.baseType }
    else .ok { type := some (some n) }
  | index :: _ =>
    if gepIndices.byteAccess then do
      match ← G.memberAt fuel n c index with
      | some result => return { type := some (some result.typeOfMember), member := some result.member }
      | none        => return { type := some (some n) }
    else if gepIndices.skippedFirst && index != 0 then do
      -- a single 0 leads through to the first record with more than one member
      let (_, c) ← G.skipFirstGepAccess fuel n c
      G.iterateGepIndex fuel c gepIndices.indices
    else G.iterateGepIndex fuel c gepIndices.indices

end DIGraph

/-! ### GEPs of a module -/

section OfModule

variable (G : DIGraph ι) (M : IRModule ι ν)

/-- The location of a GEP that was inlined: its own, or that of the instruction it is applied to. -/
def tryResolveInlinedDebugLoc (v : ν) (gep : GEPOperator ν) : Option (DebugLoc ι) :=
  let location :=
    if (M.value v).isInstruction then M.debugLoc v
    else if (M.value gep.pointerOperand).isInstruction then M.debugLoc gep.pointerOperand
    else none
  location.filter (·.inlinedAt)

/-- The declared result of the inlined function, if it has one. -/
def inlinedReturnType (v : ν) (gep : GEPOperator ν) : Except Fault (Option ι) :=
  match tryResolveInlinedDebugLoc M v gep with
  | none => .ok none
  | some location =>
    match location.scope with
    | .lexicalBlock     => .error .scope
    | .subprogram subprogram =>
      match subprogram.typeArray with
      | some result :: _ => .ok (some result)
      | _                => .ok none

/-- Pointers and pointers to members; references are looked through. -/
def isPlainPointer : DINode ι → Bool
  | .derivedType d => d.tag == .pointerType || d.tag == .ptrToMemberType
  | _              => false

def tryResolveInlinedOperator (fuel : ℕ) (v : ν) (gep : GEPOperator ν) :
    Except Fault (Option (GepIndexToType ι)) := do
  match ← inlinedReturnType M v gep with
  | none        => return none
  | some result =>
    let type ← G.findNonDerivedTypeUnless isPlainPointer fuel (some result)
    return some { type := some type }

/-- The part of `extract_gep_dereferenced_type` that needs a composite below the root. -/
def extractGepOfComposite [DecidableEq ι] (fuel : ℕ) (root n : ι) (c : DICompositeType ι)
    (gep : GEPOperator ν) : Except Fault (GepIndexToType ι) := do
  let firstNonZero ← gep.isFirstNonZeroIndexing
  let byteIndexing := gep.isByteIndexing
  let singleIndex := gep.indices.length == 1
  let skipFirst :=
    !firstNonZero && !(singleIndex && !isFortranDescriptor gep.sourceElementType) && !byteIndexing
  match (G.node root).asDerived with
  | some d =>
    if !byteIndexing && !skipFirst && singleIndex && d.tag == .pointerType then
      -- array-like access to what the pointer refers to
      return { type := some d.baseType }
    else G.resolveGepIndexToType fuel n c (.create gep skipFirst)
  | none => G.resolveGepIndexToType fuel n c (.create gep skipFirst)

/-- What a root that is a derived type refers to is a pointer. -/
def DIGraph.baseIsPointer (root : ι) : Except Fault Bool :=
  match (G.node root).asDerived with
  | none   => .ok false
  | some d => do
    let base ← deref d.baseType
    return (G.node base).tag == .pointerType

def extractGepDereferencedType [DecidableEq ι] (fuel : ℕ) (root : Option ι) (v : ν)
    (gep : GEPOperator ν) : Except Fault (GepIndexToType ι) := do
  let base ← G.findNonDerivedType fuel root
  let composite := base.bind G.composite
  let mayBeInlinedOperator := composite.any (·.2.isForwardDecl)
  match ← tryResolveInlinedOperator G M fuel v gep with
  | some result => return result
  | none =>
    if gep.sourceElementType.isPointerTy && !mayBeInlinedOperator then
      return { type := some root }
    else if gep.sourceElementType.isArrayTy then return { type := some root }
    else
      let root ← deref root
      let baseIsPointer ← G.baseIsPointer root
      if gep.isByteIndexing && (composite.isNone || baseIsPointer) then
        return { type := some (some root) }
      else
        let (n, c) ← deref composite
        if c.isForwardDecl then return { type := some (some root) }
        else extractGepOfComposite G fuel root n c gep

end OfModule

end Dimeta
