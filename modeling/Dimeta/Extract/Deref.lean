import Dimeta.DI.Util

/-!
# Dereferencing types

The type walk dereferences, casts and inspects types that may be missing. A function that does so
returns `Except Fault`, and every access to a missing type is a fault. Chains of derived types are
followed until a type of another kind, or until none is left.
-/

set_option autoImplicit false

namespace Dimeta

variable {ι : Type}

/-- Why a step does not return: a missing type is used, an element beyond the end of a list, the
scope of an inlined call is no subprogram, or the bound on the depth is reached. -/
inductive Fault where
  | nullType
  | outOfBounds
  | scope
  | outOfFuel
  deriving DecidableEq

@[simp] lemma ok_bind {α β : Type} (x : α) (f : α → Except Fault β) :
    (Except.ok x >>= f) = f x := rfl

@[simp] lemma error_bind {α β : Type} (e : Fault) (f : α → Except Fault β) :
    (Except.error e >>= f) = .error e := rfl

lemma bind_eq_ok {α β : Type} {x : Except Fault α} {f : α → Except Fault β} {b : β} :
    x >>= f = .ok b ↔ ∃ a, x = .ok a ∧ f a = .ok b := by
  cases x with
  | ok a => simp
  | error e => simp

/-- Use a type that must not be missing. -/
def deref {α : Type*} : Option α → Except Fault α
  | none   => .error .nullType
  | some x => .ok x

namespace DIGraph

variable (G : DIGraph ι)

def isArrayMember (t : ι) : Except Fault Bool := do
  if (G.node t).isMember then
    let d ← deref (G.node t).asDerived
    let base ← deref d.baseType
    return (G.node base).tag == .arrayType
  else return false

/-- `find_non_derived_type_unless` -/
def findNonDerivedTypeUnless (stop : DINode ι → Bool) : ℕ → Option ι → Except Fault (Option ι)
  | 0, _ => .error .outOfFuel
  | _ + 1, none => .ok none
  | fuel + 1, some t =>
    match G.node t with
    | .derivedType d =>
      if stop (.derivedType d) then .ok (some t)
      else findNonDerivedTypeUnless stop fuel d.baseType
    | _ => .ok (some t)

def findNonDerivedTypeUnlessPtr : ℕ → Option ι → Except Fault (Option ι) :=
  G.findNonDerivedTypeUnless DINode.isPointerLike

def findNonDerivedType : ℕ → Option ι → Except Fault (Option ι) :=
  G.findNonDerivedTypeUnless fun _ => false

/-- The loop of `desugar`: it passes pointers as long as the reached level allows. -/
def desugarLoop (pointerLevel : ℕ) : ℕ → ℕ → Option ι → Except Fault (Option ι)
  | 0, _, _ => .error .outOfFuel
  | _ + 1, _, none => .ok none
  | fuel + 1, reachedLevel, some t =>
    match G.node t with
    | .derivedType d =>
      if reachedLevel > pointerLevel then .ok (some t)
      else
        let reachedLevel :=
          if (DINode.derivedType d).isPointer then reachedLevel + 1 else reachedLevel
        desugarLoop pointerLevel fuel reachedLevel d.baseType
    | _ => .ok (some t)

/-- The node and the composite that it is. -/
def composite (t : ι) : Option (ι × DICompositeType ι) :=
  (G.node t).asComposite.map fun c => (t, c)

def desugar (fuel : ℕ) (t : ι) : Except Fault (Option (ι × DICompositeType ι)) := do
  let type ← G.desugarLoop 1 fuel 0 (some t)
  return type.bind G.composite

/-- `resolve_byte_offset_to_member_of`, where the type of a member may be missing. -/
def memberAt [DecidableEq ι] (fuel : ℕ) (n : ι) (c : DICompositeType ι) (offset : UInt64) :
    Except Fault (Option (StructMember ι)) :=
  match DestructureComposite.traverse G fuel n c offset with
  | none   => .error .outOfFuel
  | some s => if s.undefined then .error .nullType else .ok s.outermostCandidate

end DIGraph

end Dimeta
