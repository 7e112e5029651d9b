import Dimeta.Core.Rules
import Dimeta.TypeFor.Call
import Mathlib.Data.List.ReduceOption

/-!
# What is asked for a type

The mutually recursive functions answer their queries by rules: a root that declares no type itself
takes the first type along the paths below it, a path has the type that the walk from its root ends
in, and an allocation the first type along its paths. The rules only say which queries are asked and
what is made of their answers.
-/

set_option autoImplicit false

namespace Dimeta

open Recursion

variable {ι ν : Type}

/-- The type that the answer to a query stands for. -/
def TypeQuery.entry : (q : TypeQuery ν) → q.Result ι → Option (Option ι)
  | .findTypeRoot _, type => type
  | .findType _, type     => type.map some
  | .typeFor _, data      => data.bind DimetaData.entryType

/-- Nothing that is asked has a type. -/
def noTypes : (q : TypeQuery ν) → Option (Except Fault (q.Result ι))
  | .findTypeRoot _ => some (.ok none)
  | .findType _     => some (.ok none)
  | .typeFor _      => some (.ok none)

/-! ### Roots -/

section Root

variable [DecidableEq ν] [Fintype ν] (M : IRModule ι ν)

omit [Fintype ν] in
/-- The paths from the source of a copy are searched: it is an alloca without a variable, to which
no argument is stored and which the path does not contain. -/
def isSearched (path : ValuePath ν) (source : ν) : Bool :=
  (M.value source).isAlloca && (declaredAlloca M source).isNone && !path.contains source

omit [Fintype ν] in
/-- The alloca whose paths the search for a path goes on with: its root or what this copies. -/
def searchedAlloca (cp : CallValuePath ν) : Option ν :=
  cp.path.value.bind fun root =>
    match M.value root with
    | .alloca => if (declaredAlloca M root).isNone then some root else none
    | .call _ _ args _ =>
      if (M.value root).isMemCpy then args[1]?.filter (isSearched M cp.path) else none
    | _ => none

def pathsBelow (cp : CallValuePath ν) : List (CallValuePath ν) :=
  match searchedAlloca M cp with
  | none        => []
  | some alloca => (M.pathFromAlloca alloca).map fun p => ⟨none, p⟩

/-- The paths from the source of a copy, if that is a member. -/
def sourceMemberPaths (source : ν) : List (CallValuePath ν) :=
  match M.value source with
  | .getElementPtr _ => (M.pathFromValue source).map fun p => ⟨none, p⟩
  | _                => []

/-- The paths from a member that the root of a path copies. -/
def memberPaths (cp : CallValuePath ν) : List (CallValuePath ν) :=
  match cp.path.value.map M.value with
  | some (.call opcode callee args h) =>
    match (LLValue.call opcode callee args h).isMemCpy, args[1]? with
    | true, some source => sourceMemberPaths M source
    | _, _              => []
  | _ => []

omit [Fintype ν] in
/-- The allocation that a path ends in, if it is not the one that the path starts from. -/
def rootAllocation (cp : CallValuePath ν) : Option ν :=
  cp.path.value.filter fun root =>
    match M.value root with
    | .call _ callee _ _ =>
      (callee.calledFunction.any fun f => MemOps.isAlloc f.name) && decide (cp.call ≠ some root)
    | _ => false

/-- What a root is asked for: the paths from an alloca, those from a member that is copied, or the
allocation that it is. -/
def queriesBelow (cp : CallValuePath ν) : List (TypeQuery ν) :=
  (pathsBelow M cp).map .findTypeRoot ++
    ((memberPaths M cp).map .findType ++ ((rootAllocation M cp).map .typeFor).toList)

/-- The type of a root without the queries below it: what it declares, or what is left of a copy. -/
def ownType (cp : CallValuePath ν) : Except Fault (Option (Option ι)) :=
  ((findTypeRoot M cp).run noTypes).getD (.ok none)

/-! ### Roots take the first type below -/

variable {M}

omit [DecidableEq ν] [Fintype ν] in
lemma run_askFirst_noTypes (x : Except Fault (Option (Option ι))) (qs : List (TypeQuery ν)) :
    (Asking.askFirst TypeQuery.entry x qs).run noTypes = some x := by
  induction qs with
  | nil => exact Asking.run_ofExcept _ x
  | cons q qs ih =>
    rw [Asking.askFirst, Asking.run_bind, Asking.run_query]
    cases q with
    | findTypeRoot cp => exact ih
    | findType cp => exact ih
    | typeFor call => exact ih

omit [DecidableEq ν] [Fintype ν] in
/-- A search that goes on with what is left if no path has a type. -/
lemma firstTypeOf_bind {find : ValuePath ν → TypeSearch ι ν (Option (Option ι))}
    {q : ValuePath ν → TypeQuery ν}
    (hfind : ∀ p, find p = do return (q p).entry (← Asking.query (q p)))
    {f : Option (Option ι) → TypeSearch ι ν (Option (Option ι))}
    {x : Except Fault (Option (Option ι))} (hnone : f none = Asking.ofExcept x)
    (hsome : ∀ t, f (some t) = pure (some t)) (ps : List (ValuePath ν)) :
    (firstTypeOf find ps >>= f) = Asking.askFirst TypeQuery.entry x (ps.map q) := by
  induction ps with
  | nil => exact hnone
  | cons p ps ih =>
    rw [firstTypeOf, hfind, List.map_cons, Asking.askFirst]
    simp only [bind_assoc, pure_bind]
    refine bind_congr fun a => ?_
    cases (q p).entry a with
    | none => exact ih
    | some t => exact hsome t

lemma typeFromAlloca_bind {f : Option (Option ι) → TypeSearch ι ν (Option (Option ι))}
    {x : Except Fault (Option (Option ι))} (hnone : f none = Asking.ofExcept x)
    (hsome : ∀ t, f (some t) = pure (some t)) (alloca : ν) :
    (typeFromAlloca M alloca >>= f) = Asking.askFirst TypeQuery.entry x
      (((M.pathFromAlloca alloca).map fun p => ⟨none, p⟩).map .findTypeRoot) := by
  rw [List.map_map]
  exact firstTypeOf_bind (fun p => rfl) hnone hsome _

omit [Fintype ν] in
lemma rootAllocation_of_call {cp : CallValuePath ν} {root : ν} {opcode : CallOpcode}
    {callee : Callee ι ν} {args : List ν} {heapallocsite : Option ι} {f : LLFunction ι}
    (hroot : cp.path.value = some root)
    (hvalue : M.value root = .call opcode callee args heapallocsite)
    (hcallee : callee.calledFunction = some f) :
    rootAllocation M cp =
      if MemOps.isAlloc f.name = true ∧ cp.call ≠ some root then some root else none := by
  simp [rootAllocation, hroot, Option.filter, hvalue, hcallee]

omit [Fintype ν] in
/-- A call asks for the allocation that it is. -/
lemma exists_typeOfCall_eq {cp : CallValuePath ν} {root : ν} {opcode : CallOpcode}
    {callee : Callee ι ν} {args : List ν} {heapallocsite : Option ι} {f : LLFunction ι}
    (hroot : cp.path.value = some root)
    (hvalue : M.value root = .call opcode callee args heapallocsite)
    (hcallee : callee.calledFunction = some f) :
    ∃ x, typeOfCall M cp root f args = Asking.askFirst TypeQuery.entry x
      ((rootAllocation M cp).map .typeFor).toList := by
  rw [typeOfCall, rootAllocation_of_call hroot hvalue hcallee]
  by_cases halloc : MemOps.isAlloc f.name = true
  · by_cases hcall : cp.call = some root
    · refine ⟨.ok none, ?_⟩
      rw [if_pos halloc, if_pos hcall, if_neg fun h => h.2 hcall]
      rfl
    · refine ⟨.ok none, ?_⟩
      rw [if_pos halloc, if_neg hcall, if_pos ⟨halloc, hcall⟩]
      refine congrArg (Asking.ask (TypeQuery.typeFor root)) (funext fun data => ?_)
      rcases data with _ | ⟨loc, _ | type, base, shape, level⟩
      · rfl
      · rfl
      · rfl
  · rw [if_neg halloc, if_neg (fun h => halloc h.1 : ¬ (_ ∧ cp.call ≠ some root))]
    exact ⟨_, rfl⟩

/-- A memcpy goes on with its source. -/
lemma exists_typeOfCopySource_eq (path : ValuePath ν) {source : ν}
    {f : Option (Option (Option ι)) → TypeSearch ι ν (Option (Option ι))}
    {x : Except Fault (Option (Option ι))} (hnone : f none = Asking.ofExcept x)
    (hsome : ∀ t, f (some t) = pure t) :
    ∃ x, (typeOfCopySource M path source >>= f) = Asking.askFirst TypeQuery.entry x
      ((if isSearched M path source then (M.pathFromAlloca source).map fun p => ⟨none, p⟩
        else []).map .findTypeRoot ++ (sourceMemberPaths M source).map .findType) := by
  cases hvalue : M.value source with
  | alloca =>
    simp only [typeOfCopySource, hvalue, isSearched, LLValue.isAlloca, sourceMemberPaths,
      List.map_nil, List.append_nil]
    cases hdeclared : declaredAlloca M source with
    | some declared =>
      refine ⟨declared, ?_⟩
      cases declared with
      | error e => rfl
      | ok type => exact hsome type
    | none =>
      cases hcontains : path.contains source with
      | true => exact ⟨.ok none, hsome none⟩
      | false =>
        refine ⟨x, ?_⟩
        simp only [Bool.false_eq_true, if_false, bind_assoc, pure_bind]
        exact typeFromAlloca_bind hnone (fun t => hsome (some t)) source
  | globalVariable dbg initializer =>
    simp only [typeOfCopySource, hvalue, isSearched, LLValue.isAlloca, sourceMemberPaths]
    exact ⟨.ok (typeOfGlobal dbg), hsome _⟩
  | getElementPtr gep =>
    refine ⟨x, ?_⟩
    simp only [typeOfCopySource, hvalue, isSearched, LLValue.isAlloca, sourceMemberPaths,
      bind_assoc, pure_bind, List.map_map]
    exact firstTypeOf_bind (fun p => rfl) hnone (fun t => hsome (some t)) _
  | argument | constantInt | constantGEP | constantBitCast | constantExpr | constant | store | load
  | bitCast | sext | phi | call | ret | instruction =>
    simp only [typeOfCopySource, hvalue, isSearched, LLValue.isAlloca, sourceMemberPaths]
    exact ⟨x, hnone⟩

omit [DecidableEq ν] [Fintype ν] in
/-- A memcpy is a call of an intrinsic function. -/
lemma not_isMemCpy_of_indirect {opcode : CallOpcode} {callee : Callee ι ν} {args : List ν}
    {heapallocsite : Option ι} (hcallee : callee.calledFunction = none) :
    (LLValue.call opcode callee args heapallocsite).isMemCpy = false := by
  cases callee with
  | indirect operand => cases opcode <;> rfl
  | intrinsic id => cases hcallee
  | function f => cases hcallee

omit [DecidableEq ν] [Fintype ν] in
/-- It allocates nothing. -/
lemma not_isAlloc_of_isMemCpy {opcode : CallOpcode} {callee : Callee ι ν} {args : List ν}
    {heapallocsite : Option ι} {f : LLFunction ι}
    (h : (LLValue.call opcode callee args heapallocsite).isMemCpy = true)
    (hcallee : callee.calledFunction = some f) : MemOps.isAlloc f.name = false := by
  cases callee with
  | indirect operand => cases hcallee
  | function f => cases opcode <;> cases h
  | intrinsic id =>
    cases hcallee
    cases id with
    | memcpy => exact (by decide : MemOps.isAlloc Intrinsic.memcpy.name = false)
    | memcpyInline => exact (by decide : MemOps.isAlloc Intrinsic.memcpyInline.name = false)
    | memmove | memset | other => cases opcode <;> cases h

/-- Below a memcpy are the paths from its source. -/
lemma pathsBelow_of_memcpy {cp : CallValuePath ν} {root source : ν} {opcode : CallOpcode}
    {callee : Callee ι ν} {args : List ν} {heapallocsite : Option ι}
    (hroot : cp.path.value = some root)
    (hvalue : M.value root = .call opcode callee args heapallocsite)
    (hmemcpy : (LLValue.call opcode callee args heapallocsite).isMemCpy = true)
    (hsource : args[1]? = some source) :
    pathsBelow M cp =
      if isSearched M cp.path source then (M.pathFromAlloca source).map fun p => ⟨none, p⟩
      else [] := by
  have hsearched : searchedAlloca M cp = (some source).filter (isSearched M cp.path) := by
    simp [searchedAlloca, hroot, hvalue, hmemcpy, hsource]
  rw [pathsBelow, hsearched, Option.filter]
  cases isSearched M cp.path source with
  | true => rfl
  | false => rfl

/-- A root that leads to no other query says itself what its type is. -/
lemma exists_root_eq_of_silent {cp : CallValuePath ν} {x : Except Fault (Option (Option ι))}
    (h : findTypeRoot M cp = Asking.ofExcept x) (hbelow : searchedAlloca M cp = none)
    (hmember : memberPaths M cp = []) (halloc : rootAllocation M cp = none) :
    ∃ x, findTypeRoot M cp = Asking.askFirst TypeQuery.entry x (queriesBelow M cp) := by
  have hqueries : queriesBelow M cp = [] := by
    simp only [queriesBelow, pathsBelow, hbelow, hmember, halloc]
    rfl
  rw [hqueries]
  exact ⟨x, h⟩

lemma exists_callRoot_eq {cp : CallValuePath ν} {root : ν} {opcode : CallOpcode}
    {callee : Callee ι ν} {args : List ν} {heapallocsite : Option ι}
    (hroot : cp.path.value = some root)
    (hvalue : M.value root = .call opcode callee args heapallocsite) :
    ∃ x, findTypeRoot M cp = Asking.askFirst TypeQuery.entry x (queriesBelow M cp) := by
  cases hcallee : callee.calledFunction with
  | none =>
    have hmemcpy : (LLValue.call opcode callee args heapallocsite).isMemCpy = false :=
      not_isMemCpy_of_indirect hcallee
    refine exists_root_eq_of_silent (x := .ok none) ?_ ?_ ?_ ?_
    · simp only [findTypeRoot, hroot, hvalue, LLValue.rootKind, hcallee]
      rfl
    · simp [searchedAlloca, hroot, hvalue, hmemcpy]
    · simp [memberPaths, hroot, hvalue, hmemcpy]
    · simp [rootAllocation, hroot, hvalue, hcallee, Option.filter]
  | some f =>
    obtain ⟨x, hx⟩ := exists_typeOfCall_eq hroot hvalue hcallee
    cases hmemcpy : (LLValue.call opcode callee args heapallocsite).isMemCpy with
    | false =>
      have hbelow : pathsBelow M cp = [] := by
        simp [pathsBelow, searchedAlloca, hroot, hvalue, hmemcpy]
      have hmember : memberPaths M cp = [] := by
        simp [memberPaths, hroot, hvalue, hmemcpy]
      refine ⟨x, ?_⟩
      simp only [findTypeRoot, queriesBelow, hbelow, hmember, hroot, hvalue, LLValue.rootKind,
        hcallee, hmemcpy]
      exact hx
    | true =>
      have halloc : rootAllocation M cp = none := by
        simp [rootAllocation_of_call hroot hvalue hcallee, not_isAlloc_of_isMemCpy hmemcpy hcallee]
      cases hsource : args[1]? with
      | none =>
        refine exists_root_eq_of_silent (x := .error .outOfBounds) ?_ ?_ ?_ halloc
        · simp only [findTypeRoot, hroot, hvalue, LLValue.rootKind, hcallee, hmemcpy, hsource]
          rfl
        · simp [searchedAlloca, hroot, hvalue, hmemcpy, hsource]
        · simp [memberPaths, hroot, hvalue, hmemcpy, hsource]
      | some source =>
        have hmember : memberPaths M cp = sourceMemberPaths M source := by
          simp [memberPaths, hroot, hvalue, hmemcpy, hsource]
        rw [halloc] at hx
        simp only [findTypeRoot, queriesBelow, hroot, hvalue, LLValue.rootKind, hcallee, hmemcpy,
          hsource, if_true, halloc, hmember, pathsBelow_of_memcpy hroot hvalue hmemcpy hsource]
        -- without a type from the source the name of the call is looked up, it allocates nothing
        simpa using exists_typeOfCopySource_eq cp.path hx fun t => rfl

/-- What a root asks. -/
lemma exists_findTypeRoot_eq (cp : CallValuePath ν) :
    ∃ x, findTypeRoot M cp = Asking.askFirst TypeQuery.entry x (queriesBelow M cp) := by
  cases hroot : cp.path.value with
  | none =>
    refine exists_root_eq_of_silent (x := .ok none) ?_ ?_ ?_ ?_
    · simp only [findTypeRoot, hroot]
      rfl
    · simp [searchedAlloca, hroot]
    · simp [memberPaths, hroot]
    · simp [rootAllocation, hroot]
  | some root =>
    cases hvalue : M.value root with
    | alloca =>
      cases hdeclared : declaredAlloca M root with
      | some declared =>
        refine exists_root_eq_of_silent (x := declared) ?_ ?_ ?_ ?_
        · simp only [findTypeRoot, hroot, hvalue, LLValue.rootKind, hdeclared]
        · simp [searchedAlloca, hroot, hvalue, hdeclared]
        · simp [memberPaths, hroot, hvalue]
        · simp [rootAllocation, hroot, hvalue, Option.filter]
      | none =>
        have hmember : memberPaths M cp = [] := by simp [memberPaths, hroot, hvalue]
        have halloc : rootAllocation M cp = none := by
          simp [rootAllocation, hroot, hvalue, Option.filter]
        refine ⟨.ok none, ?_⟩
        simp only [findTypeRoot, queriesBelow, pathsBelow, searchedAlloca, hmember, halloc, hroot,
          hvalue, LLValue.rootKind, hdeclared, Option.bind_some, Option.isNone_none, if_true]
        have hfrom :=
          typeFromAlloca_bind (M := M) (f := pure) (x := .ok none) rfl (fun t => rfl) root
        simpa using hfrom
    | call opcode callee args heapallocsite => exact exists_callRoot_eq hroot hvalue
    | ret parent returnValue =>
      refine exists_root_eq_of_silent (x := .ok (parent.subprogram.bind (·.typeArray.head?)))
        ?_ ?_ ?_ ?_
      · simp only [findTypeRoot, hroot, hvalue, LLValue.rootKind]
        cases parent.subprogram with
        | none => rfl
        | some s => rfl
      · simp [searchedAlloca, hroot, hvalue]
      · simp [memberPaths, hroot, hvalue]
      · simp [rootAllocation, hroot, hvalue, Option.filter]
    | argument parent argNo structRet =>
      refine exists_root_eq_of_silent (x := typeOfArgument parent argNo structRet) ?_ ?_ ?_ ?_
      · simp only [findTypeRoot, hroot, hvalue, LLValue.rootKind]
      · simp [searchedAlloca, hroot, hvalue]
      · simp [memberPaths, hroot, hvalue]
      · simp [rootAllocation, hroot, hvalue, Option.filter]
    | globalVariable dbg initializer =>
      refine exists_root_eq_of_silent (x := .ok (typeOfGlobal dbg)) ?_ ?_ ?_ ?_
      · simp only [findTypeRoot, hroot, hvalue, LLValue.rootKind]
        rfl
      · simp [searchedAlloca, hroot, hvalue]
      · simp [memberPaths, hroot, hvalue]
      · simp [rootAllocation, hroot, hvalue, Option.filter]
    | constantInt | constantGEP | constantBitCast | constantExpr | constant
    | store | load | getElementPtr | bitCast | sext | phi | instruction =>
      refine exists_root_eq_of_silent (x := .ok none) ?_ ?_ ?_ ?_
      · simp only [findTypeRoot, hroot, hvalue, LLValue.rootKind]
        rfl
      · simp [searchedAlloca, hroot, hvalue]
      · simp [memberPaths, hroot, hvalue]
      · simp [rootAllocation, hroot, hvalue, Option.filter]

/-- A root takes the first type below it, or its own. -/
lemma findTypeRoot_eq (cp : CallValuePath ν) :
    findTypeRoot M cp =
      Asking.askFirst TypeQuery.entry (ownType M cp) (queriesBelow M cp) := by
  obtain ⟨x, hx⟩ := exists_findTypeRoot_eq (M := M) cp
  have hown : ownType M cp = x := by
    rw [ownType, hx, run_askFirst_noTypes]
    rfl
  rw [hown, hx]

end Root

/-! ### Paths and allocations -/

section Allocation

variable [DecidableEq ν] [Fintype ν] (G : DIGraph ι) (M : IRModule ι ν)

/-- The paths along which the type of an allocation is looked up; none for a call with a variable
of its own. -/
def pathsOfCall (call : ν) : List (CallValuePath ν) :=
  match (M.value call).asCallBase with
  | none      => []
  | some base =>
    match resolveAutoCallbaseConfig base with
    | none          => []
    | some resolved =>
      match resolved.source with
      | .kArgumentBackward =>
        match base.args[resolved.argumentIndex]? with
        | none       => []
        | some value => (M.pathFromValue value).map fun p => ⟨none, p⟩
      | .kReturnValueForwardThenBackward =>
        if (M.getArrayAccessAssignment call).isSome then []
        else (M.typeForHeapCall call).map fun p => ⟨some call, p⟩
      | .kFortranDescriptor =>
        match base.args.head? with
        | none       => []
        | some value =>
          if (M.shapesFromValue value).isNone then []
          else (M.pathFromValue value).map fun p => ⟨some call, p⟩
      | .kHeapAllocSite => []

/-- The type that the source of a configuration has for a call, given the first one along the
paths. -/
def typeOfSource (call : ν) (base : CallBase ι ν) (config : ResolvedCallBaseTypeConfig)
    (along : Option (Option ι)) : Except Fault (Option (Option ι)) :=
  match config.source with
  | .kArgumentBackward =>
    match base.args[config.argumentIndex]? with
    | none   => .error .outOfBounds
    | some _ => .ok along
  | .kReturnValueForwardThenBackward =>
    match M.getArrayAccessAssignment call with
    | some (diVar, arrayAccess) => assignedType G diVar arrayAccess
    | none                      => .ok along
  | .kFortranDescriptor =>
    match base.args.head? with
    | none       => .ok none
    | some value => if (M.shapesFromValue value).isNone then .error .outOfBounds else .ok along
  | .kHeapAllocSite => typeForNewlike G base.heapallocsite

/-- The type of an allocation, given the first one along its paths. -/
def typeOfAllocation (fuel : ℕ) (call : ν) (along : Option (Option ι)) :
    Except Fault (Option (Option ι)) :=
  match (M.value call).asCallBase with
  | none      => .ok none
  | some base =>
    match resolveAutoCallbaseConfig base with
    | none          => .ok none
    | some resolved => do
      let type ← typeOfSource G M call base resolved along
      let _ ← finalDitype G fuel type
      return type

variable {G M}

omit [DecidableEq ν] [Fintype ν] in
/-- What goes on with the first type along some paths asks for the types along all of them. -/
lemma collectTypes_bind {f : List ι → TypeSearch ι ν (Option (Option ι))} (call : Option ν)
    (ps : List (ValuePath ν)) {x : Option (Option ι) → Except Fault (Option (Option ι))}
    (hf : ∀ types, f types = .ofExcept (x (types.head?.map some))) :
    (collectTypes call ps >>= f) =
      Asking.askAll TypeQuery.entry (fun types => x types.reduceOption.head?)
        (ps.map fun p => .findType ⟨call, p⟩) := by
  induction ps generalizing f x with
  | nil => exact hf []
  | cons p ps ih =>
    simp only [collectTypes, bind_assoc, pure_bind, List.map_cons, Asking.askAll]
    refine bind_congr fun type => ?_
    cases type with
    | none => exact ih hf
    | some t => exact ih (x := fun _ => x (some (some t))) fun types => hf (t :: types)

omit [DecidableEq ν] [Fintype ν] in
lemma ofExcept_bind {α : Type} {shape : α}
    {f : Option (Option (Option ι) × α) → TypeSearch ι ν (Option (Option ι))}
    {x : Option (Option ι) → Except Fault (Option (Option ι))}
    (hsome : ∀ t shape, f (some (t, shape)) = .ofExcept (x t))
    (y : Except Fault (Option (Option ι))) :
    ((Asking.ofExcept y : TypeSearch ι ν _) >>= fun t => f (some (t, shape))) =
      .ofExcept (y >>= x) := by
  cases y with
  | error e => rfl
  | ok t => exact hsome t shape

/-- An allocation goes on with the first type along its paths. -/
lemma extractType_bind {call : ν} {base : CallBase ι ν} {resolved : ResolvedCallBaseTypeConfig}
    (hbase : (M.value call).asCallBase = some base)
    (hresolved : resolveAutoCallbaseConfig base = some resolved)
    {f : Option (Option (Option ι) × Option ShapeData) → TypeSearch ι ν (Option (Option ι))}
    {x : Option (Option ι) → Except Fault (Option (Option ι))}
    (hnone : f none = .ofExcept (x none))
    (hsome : ∀ t shape, f (some (t, shape)) = .ofExcept (x t)) :
    (extractType G M call base resolved >>= f) =
      Asking.askAll TypeQuery.entry
        (fun types => typeOfSource G M call base resolved types.reduceOption.head? >>= x)
        ((pathsOfCall M call).map .findType) := by
  rcases resolved with ⟨source, n, offset⟩
  simp only [pathsOfCall, hbase, hresolved]
  cases source with
  | kArgumentBackward =>
    cases hvalue : base.args[n]? with
    | none =>
      simp only [extractType, typeOfSource, hvalue]
      rfl
    | some value =>
      simp only [extractType, typeOfSource, hvalue, diTypeFor, bind_assoc, pure_bind, List.map_map]
      exact collectTypes_bind none _ fun types => hsome _ _
  | kReturnValueForwardThenBackward =>
    -- the variable of the call comes before any path
    cases hvar : M.getArrayAccessAssignment call with
    | some diVar =>
      simp only [extractType, typeOfSource, hvar, typeForMalloclike, Option.isSome_some, if_true,
        bind_assoc, pure_bind]
      exact ofExcept_bind hsome _
    | none =>
      simp only [extractType, typeOfSource, hvar, typeForMalloclike, Option.isSome_none,
        Bool.false_eq_true, if_false, bind_assoc, pure_bind, List.map_map]
      exact collectTypes_bind (some call) _ fun types => hsome _ _
  | kFortranDescriptor =>
    -- the shapes are read before the paths are searched
    cases hvalue : base.args.head? with
    | none =>
      simp only [extractType, typeOfSource, hvalue]
      exact hnone
    | some value =>
      cases hshapes : M.shapesFromValue value with
      | none =>
        simp only [extractType, typeOfSource, hvalue, fortranDiTypeFor, hshapes]
        rfl
      | some shapes =>
        simp only [extractType, typeOfSource, hvalue, fortranDiTypeFor, hshapes, bind_assoc,
          pure_bind, Option.isNone_some, Bool.false_eq_true, if_false, List.map_map]
        refine collectTypes_bind (some call) _ fun types => ?_
        cases types with
        | nil => exact hsome none none
        | cons t types => exact hsome (some (some t)) _
  | kHeapAllocSite =>
    simp only [extractType, typeOfSource, bind_assoc, pure_bind]
    exact ofExcept_bind hsome _

lemma typeFor_bind {fuel : ℕ} (call : ν) :
    (do return TypeQuery.entry (.typeFor call) (← typeFor G M fuel call {})) =
      Asking.askAll TypeQuery.entry
        (fun types => typeOfAllocation G M fuel call types.reduceOption.head?)
        ((pathsOfCall M call).map .findType) := by
  cases hbase : (M.value call).asCallBase with
  | none =>
    simp only [typeFor, pathsOfCall, typeOfAllocation, hbase]
    rfl
  | some base =>
    cases hresolved : resolveAutoCallbaseConfig base with
    | none =>
      have hconfig : resolveCallbaseConfig base {} = none := hresolved
      simp only [typeFor, pathsOfCall, typeOfAllocation, hbase, hconfig, hresolved]
      rfl
    | some resolved =>
      have hconfig : resolveCallbaseConfig base {} = some resolved := hresolved
      simp only [typeFor, typeForResolvedCallbase, typeOfAllocation, hbase, hconfig, hresolved,
        bind_assoc]
      refine extractType_bind hbase hresolved rfl fun t shape => ?_
      cases hfinal : finalDitype G fuel t with
      | error e => simp only [hfinal]; rfl
      | ok final => simp only [hfinal]; rfl

end Allocation

/-! ### The rules -/

section Rules

variable [DecidableEq ι] [DecidableEq ν] [Fintype ν] (G : DIGraph ι) (M : IRModule ι ν) (fuel : ℕ)

/-- The rules for types: a root has the first type below it or its own, a path what the walk from
its root ends in, and an allocation the first type along its paths. -/
def typeRules : TypeQuery ν → Rule Fault (TypeQuery ν) (Option ι)
  | .findTypeRoot cp => .first (queriesBelow M cp) (ownType M cp)
  | .findType cp     => .all [.findTypeRoot cp] fun roots =>
    match roots.reduceOption.head? with
    | none      => .ok none
    | some root => do return (← walkFromRoot G M fuel cp root).map some
  | .typeFor call    => .all ((pathsOfCall M call).map .findType) fun types =>
    typeOfAllocation G M fuel call types.reduceOption.head?

/-- The functions go by the rules. -/
lemma obeys_typeRules : Obeys (typeQuery G M fuel) TypeQuery.entry (typeRules G M fuel) := by
  intro q
  cases q with
  | findTypeRoot cp =>
    refine (bind_pure (findTypeRoot M cp)).trans ?_
    exact findTypeRoot_eq cp
  | findType cp =>
    simp only [typeQuery, findType, typeRules, Asking.byRule, Asking.askAll, bind_assoc]
    refine bind_congr fun root => ?_
    cases root with
    | none => rfl
    | some root =>
      simp only [TypeQuery.entry, List.reduceOption_cons_of_some, List.head?_cons]
      cases walkFromRoot G M fuel cp root with
      | error e => rfl
      | ok type => rfl
  | typeFor call => exact typeFor_bind call

end Rules

end Dimeta
