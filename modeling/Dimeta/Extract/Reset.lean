import Dimeta.Dataflow.DefUse
import Dimeta.Extract.GEP

/-!
# The type walk

A dataflow path is walked from its root to its start, and the type is reset at every value: at a
GEP to what it computes the address of, at a load and at a store to what is loaded or stored.
-/

set_option autoImplicit false

namespace Dimeta

variable {ι ν : Type}

namespace LLValue

def isSlot (value : LLValue ι ν) : Bool := value.isGlobalVariable || value.isAlloca

/-- A GEP instruction. -/
def asGetElementPtr : LLValue ι ν → Option (GEPOperator ν)
  | .getElementPtr gep => some gep
  | _                  => none

end LLValue

def GEPOperator.hasNonConstIndices (gep : GEPOperator ν) : Bool := gep.indices.any (·.isNone)

def GEPOperator.isArrayGep (gep : GEPOperator ν) : Bool :=
  gep.hasNonConstIndices || gep.sourceElementType.isArrayTy

section

variable (G : DIGraph ι) (M : IRModule ι ν)

/-- `get_operand_to`: the pointer operand, or what it is a bitcast of, if that is of the kind. -/
def getOperandTo {α : Type} (kind : LLValue ι ν → Option α) (pointer : ν) : Option α :=
  match kind (M.value pointer) with
  | some x => some x
  | none   =>
    match M.value pointer with
    | .bitCast operand => kind (M.value operand)
    | _                => none

/-- The access is to the value itself, or to a bitcast of it, and the value is of that kind. -/
def accessTo (kind : LLValue ι ν → Bool) (pointer : ν) : Bool :=
  (getOperandTo M (fun value => if kind value then some () else none) pointer).isSome

def loadOfArrayGep (pointer : ν) : Bool :=
  (M.value pointer).asGetElementPtr.any (·.isArrayGep)

def storeToArrayGep (pointer : ν) : Bool :=
  (getOperandTo M LLValue.asGetElementPtr pointer).any (·.hasNonConstIndices)

/-- The load is through a GEP into a Fortran descriptor. -/
def loadOfDescriptor (pointer : ν) : Bool :=
  (getOperandTo M LLValue.asGetElementPtr pointer).any fun gep =>
    isFortranDescriptor gep.sourceElementType

variable [DecidableEq ι]

/-- The type of the first member of a composite behind a type. -/
def tryResolveToFirstMember (fuel : ℕ) (t : ι) : Except Fault (Option ι) := do
  match ← G.desugar fuel t with
  | none        => return none
  | some (n, c) => return (← G.memberAt fuel n c 0).map (·.typeOfMember)

/-- What the elements of a member that is an array are. -/
def arrayMemberElement (t : ι) : Except Fault (Option ι) := do
  if ← G.isArrayMember t then
    let d ← deref (G.node t).asDerived
    let base ← deref d.baseType
    let c ← deref (G.node base).asComposite
    return c.baseType
  else return none

variable [DecidableEq ν]

/-- The composite behind the type is taken for its first member. -/
def loadsFirstMember (path : ValuePath ν) (t : ι) (load pointer : ν) : Bool :=
  (!(G.node t).isMember || path.startValue == some load) && !loadOfArrayGep M pointer

def resetLoadRelatedBasic (fuel : ℕ) (path : ValuePath ν) (type : Option ι) (load pointer : ν) :
    Except Fault (Option ι) := do
  if accessTo M LLValue.isSlot pointer then return type
  else if loadOfDescriptor M pointer then return type
  else
    let t ← deref type
    match ← arrayMemberElement G t with
    | some underlyingType => return some underlyingType
    | none =>
      let first ← if loadsFirstMember G M path t load pointer then tryResolveToFirstMember G fuel t
        else .ok none
      match first with
      | some resolved => return some resolved
      | none =>
        match (G.node t).asDerived with
        | some d => return d.baseType
        | none   => return some t

omit [DecidableEq ι] [DecidableEq ν] in
/-- A member whose type is not pointer-like. -/
def isNonPointerMember (t : ι) : Except Fault Bool := do
  if (G.node t).isNonStaticMember then
    let d ← deref (G.node t).asDerived
    let base ← deref d.baseType
    return !(G.node base).isPointerLike
  else return false

omit [DecidableEq ν] in
def storeToFirstMember (fuel : ℕ) (t : ι) (pointer : ν) : Except Fault (Option ι) := do
  match ← G.desugar fuel t with
  | none        =>
    let _ ← isNonPointerMember G t
    return none
  | some (n, c) =>
    if (← isNonPointerMember G t) || storeToArrayGep M pointer ||
        accessTo M LLValue.isArgument pointer || accessTo M LLValue.isLoad pointer then
      return (← G.memberAt fuel n c 0).map (·.typeOfMember)
    else return none

omit [DecidableEq ι] [DecidableEq ν] in
/-- A member that is an array: the pointer that its elements are, or the array. -/
def storeToArrayMember (d : DIDerivedType ι) : Except Fault (Option ι) := do
  let base ← deref d.baseType
  match G.node base with
  | .compositeType c =>
    if (G.node base).isArray then
      let element ← deref c.baseType
      return some (if (G.node element).isPointer then element else base)
    else return none
  | _ => return none

omit [DecidableEq ι] [DecidableEq ν] in
/-- A pointer to a pointer loses one level. -/
def storeToPointer (t : ι) (d : DIDerivedType ι) : Except Fault (Option ι) := do
  if (DINode.derivedType d).isPointer then
    let base ← deref d.baseType
    return some (if (G.node base).isPointer then base else t)
  else return some t

omit [DecidableEq ν] in
def resetStoreRelatedBasic (fuel : ℕ) (type : Option ι) (pointer : ν) :
    Except Fault (Option ι) := do
  if accessTo M LLValue.isSlot pointer then return type
  else
    let t ← deref type
    if (G.node t).isArray then return (G.node t).typeRef
    else
      let arrayMember ← G.isArrayMember t
      match ← (if arrayMember then .ok none else storeToFirstMember G M fuel t pointer) with
      | some resolved => return some resolved
      | none =>
        match (G.node t).asDerived with
        | none   => return some t
        | some d =>
          match ← (if arrayMember then storeToArrayMember G d else .ok none) with
          | some resolved => return some resolved
          | none =>
            if (G.node t).isNonStaticMember then return d.baseType
            else storeToPointer G t d

def resetDitype (fuel : ℕ) (path : ValuePath ν) (type : Option ι) (v : ν) :
    Except Fault (Option ι) :=
  match M.value v with
  | .getElementPtr gep | .constantGEP gep =>
    if isFortranDescriptor gep.sourceElementType then .ok type
    else do
      let result ← extractGepDereferencedType G M fuel type v gep
      match result.member, result.useType, result.type with
      | some member, false, _  => return some member
      | _, _, some type        => return type
      | _, _, none             => return type
  | .load pointer    => resetLoadRelatedBasic G M fuel path type v pointer
  | .store _ pointer => resetStoreRelatedBasic G M fuel type pointer
  | _                => .ok type

/-- The type after a GEP: its member, or else its type, or else the type before. -/
def GepIndexToType.resets (result : GepIndexToType ι) (type : Option ι) : Option ι :=
  match result.member, result.useType, result.type with
  | some member, false, _ => some member
  | _, _, some type       => type
  | _, _, none            => type

lemma resetDitype_gep {v : ν} {gep : GEPOperator ν}
    (hv : M.value v = .getElementPtr gep ∨ M.value v = .constantGEP gep)
    (hdescriptor : isFortranDescriptor gep.sourceElementType = false) {fuel : ℕ} {type : Option ι}
    {result : GepIndexToType ι}
    (hresult : extractGepDereferencedType G M fuel type v gep = .ok result) (path : ValuePath ν) :
    resetDitype G M fuel path type v = .ok (result.resets type) := by
  rw [resetDitype]
  rcases hv with hv | hv
  all_goals
    rw [hv]
    simp only [hdescriptor, Bool.false_eq_true, if_false, hresult, ok_bind]
    obtain ⟨_ | t, _ | m, _ | _⟩ := result <;> rfl

lemma resetDitype_gep_error {v : ν} {gep : GEPOperator ν}
    (hv : M.value v = .getElementPtr gep ∨ M.value v = .constantGEP gep)
    (hdescriptor : isFortranDescriptor gep.sourceElementType = false) {fuel : ℕ} {type : Option ι}
    {fault : Fault}
    (hresult : extractGepDereferencedType G M fuel type v gep = .error fault)
    (path : ValuePath ν) : resetDitype G M fuel path type v = .error fault := by
  rw [resetDitype]
  rcases hv with hv | hv
  all_goals
    rw [hv]
    simp only [hdescriptor, Bool.false_eq_true, if_false, hresult]
    rfl

/-- The loop of `find_type`, for values in the order in which they are walked. -/
def resetAlong (fuel : ℕ) (path : ValuePath ν) (type : Option ι) (vs : List ν) :
    Except Fault (Option ι) :=
  vs.foldlM (resetDitype G M fuel path) type

lemma resetAlong_snoc (fuel : ℕ) (path : ValuePath ν) (type : Option ι) (vs : List ν) (v : ν) :
    resetAlong G M fuel path type (vs ++ [v]) =
      resetAlong G M fuel path type vs >>= fun type => resetDitype G M fuel path type v := by
  rw [resetAlong, List.foldlM_append, resetAlong]
  congr
  funext type
  exact bind_pure _

/-- The type of a path whose root has the given type. -/
def typeOfPath (fuel : ℕ) (path : ValuePath ν) (root : ι) : Except Fault (Option ι) :=
  resetAlong G M fuel path (some root) path.pathToValue.reverse

end

end Dimeta
