import Dimeta.Core.Recursion
import Dimeta.Dataflow.Shapes
import Dimeta.Dataflow.Targets
import Dimeta.Extract.Reset
import Dimeta.TypeFor.MemoryOps

/-!
# The type of a root

A dataflow path ends in a root: a return, an alloca, a call, a global or an argument. Its type is
declared, or it is found along further paths: those from an alloca, those to a copied address, and
those of another allocation. These three ask for each other; `typeQuery` ties them together.

An engaged result that holds a null type is `some none`.
-/

set_option autoImplicit false

namespace Dimeta

open Recursion

variable {ι ν : Type}

/-! ### Queries -/

/-- A path, and the call that it starts from, if there is one. -/
structure CallValuePath (ν : Type*) where
  call : Option ν
  path : ValuePath ν

inductive MemLoc where
  | kStack
  | kHeap
  | kGlobal
  deriving DecidableEq

structure DimetaData (ι : Type*) where
  memoryLocation : MemLoc
  entryType : Option (Option ι)
  baseType : Option (Option ι)
  shape : Option ShapeData
  pointerLevel : ℤ
  deriving DecidableEq

/-- The mutually recursive functions, with their arguments. -/
inductive TypeQuery (ν : Type) where
  | findTypeRoot (path : CallValuePath ν)
  | findType (path : CallValuePath ν)
  | typeFor (call : ν)

abbrev TypeQuery.Result (ι : Type) : TypeQuery ν → Type
  | .findTypeRoot _ => Option (Option ι)
  | .findType _     => Option ι
  | .typeFor _      => Option (DimetaData ι)

abbrev TypeSearch (ι ν α : Type) := Asking Fault (@TypeQuery.Result ν ι) α

/-- The call of `find_type_root` in another function. -/
def askFindTypeRoot (path : CallValuePath ν) : TypeSearch ι ν (Option (Option ι)) :=
  Asking.query (TypeQuery.findTypeRoot path)

def askFindType (path : CallValuePath ν) : TypeSearch ι ν (Option ι) :=
  Asking.query (TypeQuery.findType path)

def askTypeFor (call : ν) : TypeSearch ι ν (Option (DimetaData ι)) :=
  Asking.query (TypeQuery.typeFor call)

/-! ### Helpers -/

/-- An element of a type array. -/
def typeAt (types : List (Option ι)) (n : ℕ) : Except Fault (Option (Option ι)) :=
  match types[n]? with
  | none   => .error .outOfBounds
  | some t => .ok (some t)

def typeOfArgument (parent : LLFunction ι) (argNo : ℕ) (structRet : Bool) :
    Except Fault (Option (Option ι)) :=
  match parent.subprogram with
  | none   => .ok none
  | some s => typeAt s.typeArray (if structRet then argNo else argNo + 1)

/-- The declared type of a global: what the metadata is attached to. -/
def typeOfGlobal (dbg : Option (Option ι)) : Option (Option ι) := dbg

section Helpers

variable [DecidableEq ν] (M : IRModule ι ν)

def getReturnTypeOf (f : LLFunction ι) (call : ν) : Except Fault (Option (Option ι)) :=
  match f.subprogram with
  | some s => typeAt s.typeArray 0
  | none   => .ok <|
    match M.findLocalVariable call with
    | none   => none
    | some v => if v.name = "this" then none else some v.type

/-- A store at the start of the path: its value is what the call returns. -/
def typeOfStoreToCall (path : ValuePath ν) (f : LLFunction ι) (call : ν) :
    Except Fault (Option (Option ι)) :=
  match path.startValue.map M.value with
  | some (.store _ _) => getReturnTypeOf M f call
  | _                 => .ok none

/-- The declared type of the parameter that the previous value is passed for. -/
def typeOfCallArgument (path : ValuePath ν) (f : LLFunction ι) (args : List ν) :
    Except Fault (Option (Option ι)) :=
  match path.previousValue.bind fun v => args.findIdx? (· = v) with
  | none        => .ok none
  | some argNum =>
    match f.subprogram with
    | none   => .ok none
    | some s => typeAt s.typeArray (argNum + 1)

/-- The argument that is stored first of those that are, in the order of the users. -/
def storedArgument (alloca : ν) : Option (Except Fault (Option (Option ι))) :=
  (M.users alloca).findSome? fun user =>
    match M.value user with
    | .store value _ =>
      match M.value value with
      | .argument parent argNo structRet => some (typeOfArgument parent argNo structRet)
      | _ => none
    | _ => none

/-- The type of the variable of an alloca, or of the argument that is stored to it. -/
def declaredAlloca (alloca : ν) : Option (Except Fault (Option (Option ι))) :=
  match M.findLocalVariable alloca with
  | some v => some (.ok (some v.type))
  | none   => storedArgument M alloca

end Helpers

/-! ### `find_type_root` -/

/-- The first result of the paths that is not empty. -/
def firstTypeOf (find : ValuePath ν → TypeSearch ι ν (Option (Option ι))) :
    List (ValuePath ν) → TypeSearch ι ν (Option (Option ι))
  | []      => pure none
  | p :: ps => do
    match ← find p with
    | some t => pure (some t)
    | none   => firstTypeOf find ps

section Root

variable [DecidableEq ν] [Fintype ν] (M : IRModule ι ν)

/-- The root type along the paths from an alloca. -/
def typeFromAlloca (alloca : ν) : TypeSearch ι ν (Option (Option ι)) :=
  firstTypeOf (fun p => askFindTypeRoot ⟨none, p⟩) (M.pathFromAlloca alloca)

/-- What the source of a memcpy tells: an outer `none` if the search goes on with the call itself. -/
def typeOfCopySource (path : ValuePath ν) (source : ν) :
    TypeSearch ι ν (Option (Option (Option ι))) :=
  match M.value source with
  | .alloca =>
    match declaredAlloca M source with
    | some declared => do return some (← .ofExcept declared)
    | none          =>
      if path.contains source then pure (some none)
      else do return (← typeFromAlloca M source).map some
  | .globalVariable dbg _ => pure (some (typeOfGlobal dbg))
  | .getElementPtr _      => do
    let type ← firstTypeOf (fun p => do
      return (← askFindType ⟨none, p⟩).map some) (M.pathFromValue source)
    return type.map some
  | _ => pure none

/-- A root that is a call and no memcpy whose source has a type. -/
def typeOfCall (cp : CallValuePath ν) (call : ν) (f : LLFunction ι) (args : List ν) :
    TypeSearch ι ν (Option (Option ι)) :=
  if MemOps.isAlloc f.name then
    if cp.call = some call then pure none
    else do
      match ← askTypeFor call with
      | none      => return none
      | some data => return data.entryType
  else .ofExcept do
    match ← typeOfStoreToCall M cp.path f call with
    | some type => return some type
    | none      =>
      if cp.path.previousValue.isSome then typeOfCallArgument cp.path f args
      else getReturnTypeOf M f call

def findTypeRoot (cp : CallValuePath ν) : TypeSearch ι ν (Option (Option ι)) :=
  match cp.path.value with
  | none      => pure none
  | some root =>
    match (M.value root).rootKind with
    | .returnInst parent =>
      match parent.subprogram with
      | none   => pure none
      | some s => pure s.typeArray.head?
    | .alloca =>
      match declaredAlloca M root with
      | some declared => .ofExcept declared
      | none          => typeFromAlloca M root
    | .callBase _ callee args _ =>
      match callee.calledFunction with
      | none   => pure none
      | some f => do
        let copied ← if (M.value root).isMemCpy then
            match args[1]? with
            | none        => .fail .outOfBounds
            | some source => typeOfCopySource M cp.path source
          else pure none
        match copied with
        | some type => return type
        | none      => typeOfCall M cp root f args
    | .globalVariable dbg                => pure (typeOfGlobal dbg)
    | .argument parent argNo structRet   => .ofExcept (typeOfArgument parent argNo structRet)
    | .noMatchingValue                   => pure none

end Root

end Dimeta
