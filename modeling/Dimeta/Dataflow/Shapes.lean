import Dimeta.Dataflow.Matchers

/-!
# Shapes of Fortran allocations

The bounds of an allocation are set by calls that its descriptor reaches, one for each dimension.
-/

set_option autoImplicit false

namespace Dimeta

variable {ι ν : Type*}

/-- One dimension of a shape: its index and its extent. -/
structure IndexDim where
  index : ℤ
  dim : ℤ
  deriving DecidableEq

abbrev ShapeData := List IndexDim

/-- `starts_with_any_of` -/
def startsWithAnyOf (name : String) (starts : List String) : Bool :=
  !name.isEmpty && starts.any fun start => start.toList.isPrefixOf name.toList

namespace IRModule

variable [DecidableEq ν] [Fintype ν] (M : IRModule ι ν)

def asConstantInt (v : ν) : Option ℤ :=
  match M.value v with
  | .constantInt n => some n
  | _              => none

/-- A constant, or the initializer of the global that the backward search meets; -1 if there is
none. It fails on a global without an initializer. -/
def getAsInt (shape : ν) : Option ℤ :=
  match M.asConstantInt shape with
  | some n => some n
  | none   =>
    let value : Option (Option ℤ) := DefUseChain.traverseCustom shape
      (fun path global =>
        match path.value.map M.value with
        | some (.globalVariable _ none)               => (.kCancel, none)
        | some (.globalVariable _ (some initializer)) =>
          (.kCancel, global.map fun n => M.asConstantInt initializer <|> n)
        | _ => (.kContinue, global))
      (fun _ st => (true, st)) (fun path st => (M.mallocBacktrackSearch path, st)) (some none)
    value.map fun n => n.getD (-1)

/-- The dimension that a call sets, if it sets one; an inner `none` if an operand is missing or has
no value. -/
def boundsOfCall (v : ν) : Option (Option IndexDim) :=
  match M.value v with
  | .call _ callee _ _ =>
    match callee.calledFunction with
    | none   => none
    | some f =>
      if startsWithAnyOf f.name ["_FortranAAllocatableSetBounds", "_FortranAPointerSetBounds"] then
        match (M.value v).operands with
        | _ :: index :: lower :: upper :: _ => some do
          let dim2 ← M.getAsInt upper
          let dim1 ← M.getAsInt lower
          let dimSize := if 0 ≤ dim1 then dim2 - dim1 + 1 else dim2
          return ⟨← M.getAsInt index, dimSize⟩
        | _ => some none
      else none
  | _ => none

/-- The dimensions in the order in which their calls are met; an outer `none` if one of them
fails. -/
def shapesFromValue (start : ν) : Option ShapeData :=
  DefUseChain.traverse M.users start
    (fun path shapes =>
      match path.value.bind M.boundsOfCall with
      | none           => (.kContinue, shapes)
      | some none      => (.kContinue, none)
      | some (some di) => (.kContinue, shapes.map (· ++ [di])))
    (fun _ st => (true, st)) (some [])

end IRModule

end Dimeta
