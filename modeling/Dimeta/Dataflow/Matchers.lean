import Dimeta.Dataflow.DefUse
import Dimeta.IR.Value

/-!
# Dataflow paths of an allocation

Forward, an allocation is followed along its users to anchors: stores, calls, memory intrinsics
and returns. Backward, a store or memory intrinsic is followed along its operands to targets:
allocas, arguments, globals and calls.
-/

set_option autoImplicit false

namespace Dimeta

variable {ι ν : Type*} [DecidableEq ν]

namespace IRModule

variable (M : IRModule ι ν)

/-- `MallocAnchorMatcher::operator()`, with `anchors` as its state. -/
def mallocAnchorMatcher (path : ValuePath ν) (anchors : List (ValuePath ν)) :
    MatchResult × List (ValuePath ν) :=
  match path.value with
  | none   => (.kSkip, anchors)
  | some v =>
    if !(M.value v).isInstruction then (.kSkip, anchors)
    else if (M.value v).isIntrinsicInst then
      if (M.value v).isMemIntrinsic then (.kSkip, anchors ++ [path]) else (.kSkip, anchors)
    else match M.value v with
      | .ret _ _ => (.kCancel, anchors ++ [path])
      | .store _ pointerOperand =>
        if some pointerOperand ≠ path.startValue then
          -- the stored value reaches its target through a copy of the slot
          if (M.users pointerOperand).any fun user => (M.value user).isMemIntrinsic then
            (.kContinue, anchors)
          else (.kSkip, anchors ++ [path])
        else (.kSkip, anchors)
      | .getElementPtr _ => (.kSkip, anchors)
      | .call _ _ _ _ =>
        if path.onlyStart then (.kContinue, anchors) else (.kContinue, anchors ++ [path])
      | _ => (.kContinue, anchors)

/-- `MallocTargetMatcher::operator()`, with `types_path` as its state. -/
def mallocTargetMatcher (path : ValuePath ν) (typesPath : List (ValuePath ν)) :
    MatchResult × List (ValuePath ν) :=
  match path.value with
  | none   => (.kSkip, typesPath)
  | some v =>
    if (M.value v).isIntrinsicInst then
      if (M.value v).isMemCpy then (.kContinue, typesPath) else (.kSkip, typesPath)
    else match M.value v with
      | .alloca | .argument _ _ _ | .globalVariable _ _ | .call _ _ _ _ =>
        (.kSkip, typesPath ++ [path])
      | _ => (.kContinue, typesPath)

/-- `MallocBacktrackSearch::operator()` -/
def mallocBacktrackSearch (path : ValuePath ν) : Option (List ν) :=
  match path.value with
  | none   => none
  | some v =>
    match M.value v with
    | .constantGEP gep       => some [gep.pointerOperand]
    | .constantBitCast value => some [value]
    | .store _ pointer       => some [pointer]
    | .load pointer          => some [pointer]
    | .getElementPtr gep     => some [gep.pointerOperand]
    | .bitCast value         => some [value]
    | .phi incoming          => some incoming
    | .call .call _ args _   =>
      if (M.value v).isMemCpy then some (args.head?.toList) else some []
    | .sext value            => some [value]
    | _                      => none

/-- The search direction of `type_for_heap_call`: from a store to the users of its target. -/
def heapCallSearch (path : ValuePath ν) : Option (List ν) :=
  path.value.map fun v =>
    match M.value v with
    | .store _ pointerOperand => M.users pointerOperand
    | _                       => M.users v

variable [Fintype ν]

/-- One backward traversal, with the paths that `malloc_anchor_backtrack` holds so far. -/
def backtrack (start : ν) (typesPath : List (ValuePath ν)) : List (ValuePath ν) :=
  DefUseChain.traverseCustom start M.mallocTargetMatcher (fun _ st => (true, st))
    (fun path st => (M.mallocBacktrackSearch path, st)) typesPath

/-- The forward traversal of `type_for_heap_call`. -/
def forwardAnchors (call : ν) : List (ValuePath ν) :=
  DefUseChain.traverseCustom call M.mallocAnchorMatcher (fun _ st => (true, st))
    (fun path st => (M.heapCallSearch path, st)) []

/-- The body of the loop over the anchors: the types path of the shared backward matcher, and
the resulting paths. -/
def typeForAnchor (call : ν) (acc : List (ValuePath ν) × List (ValuePath ν))
    (anchorPath : ValuePath ν) : List (ValuePath ν) × List (ValuePath ν) :=
  match anchorPath.value with
  | none   => (acc.1, acc.2 ++ [anchorPath])
  | some v =>
    match M.value v with
    | .store _ pointerOperand =>
      if pointerOperand = call then acc
      else (M.backtrack v acc.1, acc.2 ++ M.backtrack v acc.1)
    | value =>
      if value.isMemIntrinsic then (M.backtrack v acc.1, acc.2 ++ M.backtrack v acc.1)
      else (acc.1, acc.2 ++ [anchorPath])

def typeForHeapCall (call : ν) : List (ValuePath ν) :=
  ((M.forwardAnchors call).foldl (M.typeForAnchor call) ([], [])).2

def pathFromAlloca (alloca : ν) : List (ValuePath ν) :=
  DefUseChain.traverse M.users alloca M.mallocAnchorMatcher (fun _ st => (true, st)) []

/-- `experimental::path_from_value` -/
def pathFromValue (start : ν) : List (ValuePath ν) := M.backtrack start []

end IRModule

end Dimeta
