import Dimeta.DI.Visitor

/-!
# Debug-info utilities

Predicates on debug-info nodes, and the search for the member at a byte offset of a composite:
`DestructureComposite` visits the whole type graph below the composite, with one offset base, and
keeps the last member whose range contains the offset.
-/

set_option autoImplicit false

namespace Dimeta

variable {ι : Type}

/-! ### Predicates -/

namespace DINode

/-- References count as pointers. -/
def isPointer : DINode ι → Bool
  | .derivedType d => d.tag == .referenceType || d.tag == .pointerType
  | _              => false

def isPointerLike : DINode ι → Bool
  | .derivedType d =>
    d.tag == .arrayType || d.tag == .referenceType || d.tag == .pointerType ||
      d.tag == .ptrToMemberType
  | _ => false

def isArray : DINode ι → Bool
  | .compositeType c => c.tag == .arrayType
  | _                => false

/-- The flags are compared as a whole: a static member with any other flag counts as non-static. -/
def isNonStaticMember (x : DINode ι) : Bool :=
  x.tag == .member && x.flags != DIFlags.staticMember

def isMember (x : DINode ι) : Bool :=
  x.tag == .member || x.isType && x.flags == DIFlags.staticMember

def isInheritance (x : DINode ι) : Bool := x.tag == .inheritance

def isStructOrClass (x : DINode ι) : Bool := x.tag == .structureType || x.tag == .classType

end DINode

/-! ### Members at a byte offset -/

structure StructMember (ι : Type*) where
  member : ι
  typeOfMember : ι
  deriving DecidableEq

/-- The state of `DestructureComposite`; `undefined` is set where it dereferences the null type of
a member. -/
structure DestructureComposite (ι : Type*) where
  offsetBase : UInt64 := 0
  outermostCandidate : Option (StructMember ι) := none
  terminate : Bool := false
  undefined : Bool := false

/-- The range of the member, for the given base, contains the byte. -/
def DIDerivedType.covers (d : DIDerivedType ι) (offsetBase byteIndex : UInt64) : Bool :=
  let offset := offsetBase + d.offsetInBits / 8
  decide (offset ≤ byteIndex) && decide (byteIndex < offset + d.sizeInBits / 8)

namespace DestructureComposite

def visitDerivedType (G : DIGraph ι) (byteIndex : UInt64) (n : ι) (d : DIDerivedType ι)
    (s : DestructureComposite ι) : Bool × DestructureComposite ι :=
  if !(DINode.derivedType d).isNonStaticMember then (true, s)
  else if d.covers s.offsetBase byteIndex then
    match d.baseType with
    | none      => (true, { s with undefined := true })
    | some type =>
      let s := { s with outermostCandidate := some ⟨n, type⟩ }
      if (G.node type).isPointerLike || (G.node type).isArray then
        (false, { s with terminate := true })
      else if (G.node type).asComposite.isSome then
        -- only one composite should contain the offset, so its own offset becomes the base
        (true, { s with offsetBase := s.offsetBase + d.offsetInBits / 8 })
      else (true, s)
  else (true, s)

def visitor (G : DIGraph ι) (byteIndex : UInt64) : DINodeVisitor ι (DestructureComposite ι) where
  visitCompositeType _ _ s := (!s.terminate, s)
  visitDerivedType := visitDerivedType G byteIndex

end DestructureComposite

/-- The visitor after it has traversed the composite; `none` stands for a traversal that `fuel` does
not suffice for. -/
def DestructureComposite.traverse [DecidableEq ι] (G : DIGraph ι) (fuel : ℕ) (n : ι)
    (composite : DICompositeType ι) (offset : UInt64) : Option (DestructureComposite ι) :=
  let visitor := DestructureComposite.visitor G offset
  (visitor.traverseCompositeType (visitor.invokeIfAny G fuel) n composite ⟨∅, {}⟩).map
    fun r => r.2.callback

/-- `resolve_byte_offset_to_member_of`, with a bound on how deep the traversal goes. -/
def resolveByteOffsetToMemberOf [DecidableEq ι] (G : DIGraph ι) (fuel : ℕ) (n : ι)
    (composite : DICompositeType ι) (offset : UInt64) : Option (Option (StructMember ι)) :=
  (DestructureComposite.traverse G fuel n composite offset).map (·.outermostCandidate)

end Dimeta
