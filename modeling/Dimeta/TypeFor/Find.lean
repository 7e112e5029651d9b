import Dimeta.TypeFor.Root

/-!
# The type of a path

`find_type` looks up the root of a path and walks back to its start. The paths of Fortran
allocations are walked by simpler rules.
-/

set_option autoImplicit false

namespace Dimeta

open Recursion

variable {ι ν : Type} [DecidableEq ι] [DecidableEq ν] [Fintype ν] (G : DIGraph ι)
  (M : IRModule ι ν)

/-! ### Fortran -/

namespace Fortran

/-- `fortran::reset_ditype`: only GEPs change the type, and they may leave none. -/
def resetDitype (fuel : ℕ) (type : Option ι) (v : ν) : Except Fault (Option (Option ι)) :=
  match (M.value v).gepOperator with
  | none     => .ok (some type)
  | some gep =>
    if isFortranDescriptor gep.sourceElementType then .ok (some type)
    else do
      let result ← extractGepDereferencedType G M fuel type v gep
      match result.member, result.useType with
      | some member, false => return some (some member)
      | _, _               => return result.type

/-- The type after the walk, and the last type that was recorded on it. -/
def walk (fuel : ℕ) (root : Option ι) (vs : List ν) : Except Fault (Option ι × Option ι) :=
  vs.foldlM (fun st v => do
    let type ← resetDitype G M fuel st.1 v
    return (type.getD st.1, type.join)) (root, none)

omit [DecidableEq ι] [DecidableEq ν] [Fintype ν] in
/-- `stripPointerCasts`, along at most so many casts. -/
def stripPointerCasts : ℕ → ν → ν
  | 0, v     => v
  | n + 1, v =>
    match M.value v with
    | .getElementPtr gep | .constantGEP gep =>
      if gep.indices.all (· == some 0) then stripPointerCasts n gep.pointerOperand else v
    | .bitCast operand | .constantBitCast operand => stripPointerCasts n operand
    | _ => v

omit [DecidableEq ι] in
/-- The root is a global that is the whole path; memcpys among its users decide otherwise. -/
def onlyGlobal (path : ValuePath ν) (root : ν) : Bool :=
  (M.users root).foldl (fun isGlobal user =>
    match (M.value user).isMemCpy, (M.value user).operands[1]? with
    | true, some source =>
      (M.value (stripPointerCasts M (Fintype.card ν) source)).isGlobalVariable
    | _, _ => isGlobal) ((M.value root).isGlobalVariable && path.size == 1)

def extract (fuel : ℕ) (path : ValuePath ν) (root : Option ι) : Except Fault (Option ι) := do
  let (type, mapped) ← walk G M fuel root path.pathToValue.reverse
  let value ← deref path.value
  if onlyGlobal M path value then
    let t ← deref type
    match G.node t with
    | .compositeType c =>
      match ← G.memberAt fuel t c 0 with
      | some member => return some member.typeOfMember
      | none        => return mapped
    | _ => return mapped
  else return mapped

end Fortran

/-! ### `find_type` -/

def calledFunction (call : ν) : Option (LLFunction ι) :=
  match M.value call with
  | .call _ callee _ _ => callee.calledFunction
  | _                  => none

/-- The call is a Fortran allocation. -/
def fortranHandle (call : Option ν) : Bool :=
  (call.bind (calledFunction M)).any fun f =>
    startsWithAnyOf f.name ["_FortranAAllocatableAllocate", "_FortranAPointerAllocate"]

/-- The walk from a root of known type to the start of the path. -/
def walkFromRoot (fuel : ℕ) (cp : CallValuePath ν) (root : Option ι) : Except Fault (Option ι) :=
  if fortranHandle M cp.call then Fortran.extract G M fuel cp.path root
  else resetAlong G M fuel cp.path root cp.path.pathToValue.reverse

def findType (fuel : ℕ) (cp : CallValuePath ν) : TypeSearch ι ν (Option ι) := do
  match ← askFindTypeRoot cp with
  | none      => pure none
  | some root => .ofExcept (walkFromRoot G M fuel cp root)

end Dimeta
