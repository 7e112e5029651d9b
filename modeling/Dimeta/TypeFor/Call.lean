import Dimeta.TypeFor.Find

/-!
# The type of an allocation

`type_for`: the configuration of a call says where its type comes from, the type that is found
becomes the entry type of the result, and the base type is what the chain of derived types below
it ends in.
-/

set_option autoImplicit false

namespace Dimeta

open Recursion

variable {ι ν : Type}

/-! ### Configurations -/

inductive CallBaseTypeConfig.Dataflow where
  | kAuto
  | kReturnValueForwardThenBackward
  | kArgumentBackward
  deriving DecidableEq

structure CallBaseTypeConfig where
  dataflow : CallBaseTypeConfig.Dataflow := .kAuto
  argumentIndex : ℕ := 0
  pointerLevelOffset : ℤ := 0

inductive CallBaseTypeSource where
  | kReturnValueForwardThenBackward
  | kArgumentBackward
  | kFortranDescriptor
  | kHeapAllocSite
  deriving DecidableEq

structure ResolvedCallBaseTypeConfig where
  source : CallBaseTypeSource
  argumentIndex : ℕ := 0
  pointerLevelOffset : ℤ := 0
  deriving DecidableEq

/-- The parts of a call base. -/
structure CallBase (ι ν : Type) where
  callee : Callee ι ν
  args : List ν
  heapallocsite : Option ι

/-- `dyn_cast<CallBase>` -/
def LLValue.asCallBase : LLValue ι ν → Option (CallBase ι ν)
  | .call _ callee args heapallocsite => some ⟨callee, args, heapallocsite⟩
  | _ => none

def resolveAutoCallbaseConfig (call : CallBase ι ν) : Option ResolvedCallBaseTypeConfig :=
  match call.callee.calledFunction with
  | none   => none
  | some f =>
    if !MemOps.isAlloc f.name then none
    else if MemOps.isFortranLike f.name then some { source := .kFortranDescriptor }
    else if MemOps.isCudaLike f.name then some { source := .kArgumentBackward }
    else if MemOps.isMpiLike f.name then some { source := .kArgumentBackward, argumentIndex := 2 }
    else if MemOps.isNewLike f.name && call.heapallocsite.isSome then
      some { source := .kHeapAllocSite, pointerLevelOffset := 1 }
    else some { source := .kReturnValueForwardThenBackward }

def resolveCallbaseConfig (call : CallBase ι ν) (config : CallBaseTypeConfig) :
    Option ResolvedCallBaseTypeConfig :=
  match config.dataflow with
  | .kAuto => resolveAutoCallbaseConfig call
  | .kArgumentBackward =>
    if call.args.length ≤ config.argumentIndex then none
    else some ⟨.kArgumentBackward, config.argumentIndex, config.pointerLevelOffset⟩
  | .kReturnValueForwardThenBackward =>
    some ⟨.kReturnValueForwardThenBackward, 0, config.pointerLevelOffset⟩

/-! ### The final type -/

section Final

variable (G : DIGraph ι)

/-- The end of a chain of derived types, and the number of pointers on it. -/
def finalDitypeLoop : ℕ → ι → ℤ → Except Fault (ι × ℤ)
  | 0, _, _ => .error .outOfFuel
  | fuel + 1, t, level =>
    match G.node t with
    | .derivedType d =>
      let level := if d.tag = .pointerType then level + 1 else level
      match d.baseType with
      | none      => .ok (t, level)
      | some base => finalDitypeLoop fuel base level
    | _ => .ok (t, level)

def finalDitype (fuel : ℕ) : Option (Option ι) → Except Fault (Option (Option ι) × ℤ)
  | none      => .ok (none, 0)
  | some root => do
    let (type, level) ← finalDitypeLoop G fuel (← deref root) 0
    return (some (some type), level)

end Final

/-! ### Sources of types -/

section Sources

variable [DecidableEq ν] [Fintype ν] (G : DIGraph ι) (M : IRModule ι ν)

omit [DecidableEq ν] [Fintype ν] in
/-- The types found along the paths, in order. -/
def collectTypes (call : Option ν) : List (ValuePath ν) → TypeSearch ι ν (List ι)
  | []      => pure []
  | p :: ps => do
    let type ← askFindType ⟨call, p⟩
    let types ← collectTypes call ps
    return type.toList ++ types

/-- `experimental::di_type_for` -/
def diTypeFor (value : ν) : TypeSearch ι ν (Option (Option ι)) := do
  return (← collectTypes none (M.pathFromValue value)).head?.map some

/-- `fortran::di_type_for`: the type and the shape. -/
def fortranDiTypeFor (value call : ν) : TypeSearch ι ν (Option (ι × Option ShapeData)) := do
  let shapes ← .ofExcept (match M.shapesFromValue value with
    | none        => .error .outOfBounds
    | some shapes => .ok shapes)
  let types ← collectTypes (some call) (M.pathFromValue value)
  return types.head?.map fun type => (type, if shapes = [] then none else some shapes)

omit [Fintype ν] in
/-- The type of the variable that the call is assigned to; of an array only the element. -/
def assignedType (diVar : DILocalVariable ι) (arrayAccess : Bool) :
    Except Fault (Option (Option ι)) :=
  if arrayAccess then do
    match (G.node (← deref diVar.type)).asComposite with
    | some c => return some c.baseType
    | none   => return some diVar.type
  else .ok (some diVar.type)

def typeForMalloclike (call : ν) : TypeSearch ι ν (Option (Option ι)) :=
  match M.getArrayAccessAssignment call with
  | some (diVar, arrayAccess) => .ofExcept (assignedType G diVar arrayAccess)
  | none => do return (← collectTypes (some call) (M.typeForHeapCall call)).head?.map some

omit [DecidableEq ν] [Fintype ν] in
def typeForNewlike (heapallocsite : Option ι) : Except Fault (Option (Option ι)) := do
  let type ← deref heapallocsite
  return if (G.node type).isType then some (some type) else none

/-- The type from the resolved source and, for Fortran, the shape; an outer `none` for a Fortran
call without arguments. -/
def extractType (call : ν) (base : CallBase ι ν) (config : ResolvedCallBaseTypeConfig) :
    TypeSearch ι ν (Option (Option (Option ι) × Option ShapeData)) :=
  match config.source with
  | .kArgumentBackward =>
    match base.args[config.argumentIndex]? with
    | none       => .fail .outOfBounds
    | some value => do return some (← diTypeFor M value, none)
  | .kReturnValueForwardThenBackward => do return some (← typeForMalloclike G M call, none)
  | .kFortranDescriptor =>
    match base.args.head? with
    | none       => pure none
    | some value => do
      match ← fortranDiTypeFor M value call with
      | none               => return some (none, none)
      | some (type, shape) => return some (some (some type), shape)
  | .kHeapAllocSite => do
    return some (← .ofExcept (typeForNewlike G base.heapallocsite), none)

def typeForResolvedCallbase (fuel : ℕ) (call : ν) (base : CallBase ι ν)
    (config : ResolvedCallBaseTypeConfig) : TypeSearch ι ν (Option (DimetaData ι)) := do
  match ← extractType G M call base config with
  | none => return none
  | some (extractedType, shape) =>
    let (finalType, pointerLevel) ← .ofExcept (finalDitype G fuel extractedType)
    return some ⟨.kHeap, extractedType, finalType, shape, pointerLevel + config.pointerLevelOffset⟩

/-- `type_for`; a value that is no call base stands for a null call. -/
def typeFor (fuel : ℕ) (call : ν) (config : CallBaseTypeConfig) :
    TypeSearch ι ν (Option (DimetaData ι)) :=
  match (M.value call).asCallBase with
  | none      => pure none
  | some base =>
    match resolveCallbaseConfig base config with
    | none          => pure none
    | some resolved => do
      match ← typeForResolvedCallbase G M fuel call base resolved with
      | none      => return none
      | some data =>
        if config.dataflow ≠ .kAuto ∧ data.entryType.isNone then return none
        else return some data

end Sources

/-! ### The recursion -/

section System

variable [DecidableEq ι] [DecidableEq ν] [Fintype ν] (G : DIGraph ι) (M : IRModule ι ν)

/-- The bodies of the mutually recursive functions. -/
def typeQuery (fuel : ℕ) : (q : TypeQuery ν) → TypeSearch ι ν (TypeQuery.Result ι q)
  | .findTypeRoot path => findTypeRoot M path
  | .findType path     => findType G M fuel path
  | .typeFor call      => typeFor G M fuel call {}

/-- `type_for` evaluated, with mutual recursion to the given depth. -/
def runTypeFor (fuel depth : ℕ) (call : ν) (config : CallBaseTypeConfig) :
    Option (Except Fault (Option (DimetaData ι))) :=
  (typeFor G M fuel call config).run (solve (typeQuery G M fuel) depth)

end System

end Dimeta
