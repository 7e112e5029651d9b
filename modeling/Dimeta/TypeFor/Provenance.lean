import Dimeta.Extract.Within
import Dimeta.TypeFor.Engaged

/-!
# Where types come from

The types that are found for allocations are not made up: each is one that the debug information
declares for a value of the module, or it is referred to, over any number of references, by such a
type. The search asks itself for types, so what holds of all its answers is a contract.
-/

set_option autoImplicit false

namespace Dimeta

open Recursion Relation

variable {ι ν : Type}

/-! ### Declared types -/

namespace IRModule

/-- The subprograms that values lead to: those of the functions they belong to or call, and the
scopes of their locations. -/
inductive HasSubprogram (M : IRModule ι ν) : DISubprogram ι → Prop
  | argument {v : ν} {f : LLFunction ι} {argNo : ℕ} {structRet : Bool} {s : DISubprogram ι}
      (hv : M.value v = .argument f argNo structRet) (hs : f.subprogram = some s) :
      HasSubprogram M s
  | ret {v : ν} {f : LLFunction ι} {returnValue : Option ν} {s : DISubprogram ι}
      (hv : M.value v = .ret f returnValue) (hs : f.subprogram = some s) : HasSubprogram M s
  | callee {v : ν} {opcode : CallOpcode} {callee : Callee ι ν} {args : List ν}
      {heapallocsite : Option ι} {f : LLFunction ι} {s : DISubprogram ι}
      (hv : M.value v = .call opcode callee args heapallocsite)
      (hf : callee.calledFunction = some f) (hs : f.subprogram = some s) : HasSubprogram M s
  | scope {v : ν} {location : DebugLoc ι} {s : DISubprogram ι}
      (hlocation : M.debugLoc v = some location) (hs : location.scope = .subprogram s) :
      HasSubprogram M s

/-- The types that are declared: of variables, of globals, in the types of subprograms, and of
annotated allocations. -/
inductive Declares (M : IRModule ι ν) : ι → Prop
  | variable {r : DbgRecord ι ν} {t : ι} (hr : r ∈ M.dbgRecords) (ht : r.diVariable.type = some t) :
      Declares M t
  | globalVariable {v : ν} {initializer : Option ν} {t : ι}
      (hv : M.value v = .globalVariable (some (some t)) initializer) : Declares M t
  | subprogram {s : DISubprogram ι} {t : ι} (hs : M.HasSubprogram s) (ht : some t ∈ s.typeArray) :
      Declares M t
  | heapallocsite {v : ν} {opcode : CallOpcode} {callee : Callee ι ν} {args : List ν} {t : ι}
      (hv : M.value v = .call opcode callee args (some t)) : Declares M t

end IRModule

/-- A set that contains the declared types and what they refer to. -/
structure DeclaredIn (G : DIGraph ι) (M : IRModule ι ν) (S : Set ι) : Prop where
  closed : G.Closed S
  declared : ∀ t, M.Declares t → t ∈ S

lemma declaredIn_reachable (G : DIGraph ι) (M : IRModule ι ν) :
    DeclaredIn G M (G.reachable {t | M.Declares t}) where
  closed := DIGraph.closed_reachable _
  declared _ ht := DIGraph.subset_reachable _ ht

variable {G : DIGraph ι} {M : IRModule ι ν} {S : Set ι}

namespace DeclaredIn

lemma typeArray (hS : DeclaredIn G M S) {s : DISubprogram ι} (hs : M.HasSubprogram s) :
    ∀ type ∈ s.typeArray, Within S type := by
  rintro _ htype t rfl
  exact hS.declared t (.subprogram hs htype)

lemma resultsIn (hS : DeclaredIn G M S) : ResultsIn M S := by
  intro v location s result types hlocation hs htypes
  have hmem : some result ∈ s.typeArray := by simp [htypes]
  exact hS.typeArray (.scope hlocation hs) _ hmem result rfl

lemma global (hS : DeclaredIn G M S) {v : ν} {dbg : Option (Option ι)} {initializer : Option ν}
    (hv : M.value v = .globalVariable dbg initializer) : Within S dbg.join := by
  intro t ht
  obtain rfl := Option.join_eq_some_iff.mp ht
  exact hS.declared t (.globalVariable hv)

lemma diVariable (hS : DeclaredIn G M S) {r : DbgRecord ι ν} (hr : r ∈ M.dbgRecords) :
    Within S r.diVariable.type :=
  fun t ht => hS.declared t (.variable hr ht)

variable [DecidableEq ν]

lemma findIntrinsic (hS : DeclaredIn G M S) {inst : ν} {r : DbgRecord ι ν}
    (hr : M.findIntrinsic inst = some r) : Within S r.diVariable.type :=
  hS.diVariable (List.mem_of_find?_eq_some hr)

lemma findLocalVariable (hS : DeclaredIn G M S) {inst : ν} {v : DILocalVariable ι}
    (hv : M.findLocalVariable inst = some v) : Within S v.type := by
  have hrecord (inst : ν) (hv : (M.findIntrinsic inst).map (·.diVariable) = some v) :
      Within S v.type := by
    obtain ⟨r, hr, rfl⟩ := Option.map_eq_some_iff.mp hv
    exact hS.findIntrinsic hr
  simp only [IRModule.findLocalVariable] at hv
  split at hv
  · next hinst =>
    obtain rfl := Option.some.inj hv
    exact hrecord inst hinst
  · obtain ⟨user, -, huser⟩ := List.exists_of_findSome?_eq_some hv
    split at huser
    · exact hrecord user huser
    · exact hrecord user huser
    · cases huser

end DeclaredIn

/-! ### Types of roots -/

lemma ensures_typeAt {types : List (Option ι)} (h : ∀ type ∈ types, Within S type) (n : ℕ) :
    Ensures (typeAt types n) fun t => Within S t.join := by
  rw [typeAt]
  split
  · exact .error _
  · next type htype => exact .ok (h type (List.mem_of_getElem? htype))

lemma DeclaredIn.ensures_typeOfArgument (hS : DeclaredIn G M S) {parent : LLFunction ι} {v : ν}
    {argNo : ℕ} {structRet : Bool} (hv : M.value v = .argument parent argNo structRet) (n : ℕ)
    (b : Bool) :
    Ensures (typeOfArgument parent n b) fun t => Within S t.join := by
  rw [typeOfArgument]
  split
  · exact .ok within_none
  · next s hs => exact ensures_typeAt (hS.typeArray (.argument hv hs)) _

section Roots

variable [DecidableEq ν]

/-- The types in the signature of a function are in the set. -/
def SignatureIn (S : Set ι) (f : LLFunction ι) : Prop :=
  ∀ s, f.subprogram = some s → ∀ type ∈ s.typeArray, Within S type

lemma DeclaredIn.ensures_getReturnTypeOf (hS : DeclaredIn G M S) {f : LLFunction ι}
    (hf : SignatureIn S f) (call : ν) :
    Ensures (getReturnTypeOf M f call) fun t => Within S t.join := by
  rw [getReturnTypeOf]
  split
  · next s hs => exact ensures_typeAt (hf s hs) 0
  · refine .ok ?_
    split
    · exact within_none
    · next v hv =>
      split
      · exact within_none
      · exact hS.findLocalVariable hv

lemma DeclaredIn.ensures_typeOfStoreToCall (hS : DeclaredIn G M S) {f : LLFunction ι}
    (hf : SignatureIn S f) (path : ValuePath ν) (call : ν) :
    Ensures (typeOfStoreToCall M path f call) fun t => Within S t.join := by
  rw [typeOfStoreToCall]
  split
  · exact hS.ensures_getReturnTypeOf hf call
  · exact .ok within_none

lemma SignatureIn.ensures_typeOfCallArgument {f : LLFunction ι} (hf : SignatureIn S f)
    (path : ValuePath ν) (args : List ν) :
    Ensures (typeOfCallArgument path f args) fun t => Within S t.join := by
  rw [typeOfCallArgument]
  split
  · exact .ok within_none
  · split
    · exact .ok within_none
    · next s hs => exact ensures_typeAt (hf s hs) _

lemma DeclaredIn.ensures_declaredAlloca (hS : DeclaredIn G M S) {alloca : ν}
    {declared : Except Fault (Option (Option ι))} (h : declaredAlloca M alloca = some declared) :
    Ensures declared fun t => Within S t.join := by
  rw [declaredAlloca] at h
  split at h
  · next v hv =>
    obtain rfl := Option.some.inj h
    exact .ok (hS.findLocalVariable hv)
  · obtain ⟨user, -, huser⟩ := List.exists_of_findSome?_eq_some h
    split at huser
    · next value _ _ =>
      split at huser
      · next parent argNo structRet hvalue =>
        obtain rfl := Option.some.inj huser
        exact hS.ensures_typeOfArgument hvalue argNo structRet
      · cases huser
    · cases huser

end Roots

/-! ### The contract -/

/-- The types of a result are in the set. -/
structure DimetaData.Within (S : Set ι) (data : DimetaData ι) : Prop where
  entryType : Dimeta.Within S data.entryType.join
  baseType : Dimeta.Within S data.baseType.join

/-- What every answer satisfies: its types are in the set. -/
def AnswerIn (S : Set ι) : (q : TypeQuery ν) → TypeQuery.Result ι q → Prop
  | .findTypeRoot _, type => Within S (Option.join type)
  | .findType _, type     => Within S type
  | .typeFor _, data      => ∀ x, data = some x → DimetaData.Within S x

/-- The computation returns only values that satisfy `P`, as far as its answers are in the set. -/
abbrev Keeps (S : Set ι) {α : Type} (P : α → Prop) (p : TypeSearch ι ν α) : Prop :=
  p.Ensures (AnswerIn S) P

section Searches

variable {α : Type}

lemma keeps_askFindTypeRoot (cp : CallValuePath ν) :
    Keeps S (fun type => Within S (Option.join type)) (askFindTypeRoot cp) :=
  Asking.ensures_query (TypeQuery.findTypeRoot cp)

lemma keeps_askFindType (cp : CallValuePath ν) : Keeps S (Within S) (askFindType cp) :=
  Asking.ensures_query (TypeQuery.findType cp)

lemma keeps_askTypeFor (call : ν) :
    Keeps S (fun data => ∀ x, data = some x → DimetaData.Within S x) (askTypeFor call) :=
  Asking.ensures_query (TypeQuery.typeFor call)

lemma keeps_firstTypeOf {find : ValuePath ν → TypeSearch ι ν (Option (Option ι))}
    (hfind : ∀ p, Keeps S (fun type => Within S (Option.join type)) (find p))
    (ps : List (ValuePath ν)) :
    Keeps S (fun type => Within S (Option.join type)) (firstTypeOf find ps) := by
  induction ps with
  | nil => exact Asking.ensures_pure within_none
  | cons p ps ih =>
    refine (hfind p).bind fun type htype => ?_
    split
    · exact Asking.ensures_pure htype
    · exact ih

variable [DecidableEq ν] [Fintype ν]

lemma keeps_typeFromAlloca (alloca : ν) :
    Keeps S (fun type => Within S (Option.join type)) (typeFromAlloca M alloca) :=
  keeps_firstTypeOf (fun _ => keeps_askFindTypeRoot _) _

/-- The source of a memcpy: its variable, its paths, its global or what its address is in. -/
lemma DeclaredIn.keeps_typeOfCopySource (hS : DeclaredIn G M S) (path : ValuePath ν) (source : ν) :
    Keeps S (fun type => Within S type.join.join) (typeOfCopySource M path source) := by
  cases hsource : M.value source with
  | alloca =>
    cases hdeclared : declaredAlloca M source with
    | some declared =>
      simp only [typeOfCopySource, hsource, hdeclared]
      have h := hS.ensures_declaredAlloca hdeclared
      exact (Asking.ensures_ofExcept h).bind fun type htype => Asking.ensures_pure htype
    | none =>
      simp only [typeOfCopySource, hsource, hdeclared]
      split
      · exact Asking.ensures_pure within_none
      · refine (keeps_typeFromAlloca source).bind fun type htype => Asking.ensures_pure ?_
        rwa [join_map_some]
  | globalVariable dbg initializer =>
    simp only [typeOfCopySource, hsource]
    exact Asking.ensures_pure (hS.global hsource)
  | getElementPtr gep =>
    simp only [typeOfCopySource, hsource]
    have hfind (p : ValuePath ν) : Keeps S (fun type => Within S (Option.join type)) (do
        return (← askFindType (ι := ι) ⟨none, p⟩).map some) := by
      refine (keeps_askFindType _).bind fun type htype => Asking.ensures_pure ?_
      rwa [join_map_some]
    refine (keeps_firstTypeOf hfind _).bind fun type htype => Asking.ensures_pure ?_
    rwa [join_map_some]
  | argument | constantInt | constantGEP | constantBitCast | constantExpr | constant | store | load
  | bitCast | sext | phi | call | ret | instruction =>
    simp only [typeOfCopySource, hsource]
    exact Asking.ensures_pure within_none

omit [Fintype ν] in
lemma DeclaredIn.keeps_typeOfCall (hS : DeclaredIn G M S) (cp : CallValuePath ν) (call : ν)
    {f : LLFunction ι} (hf : SignatureIn S f) (args : List ν) :
    Keeps S (fun type => Within S (Option.join type)) (typeOfCall M cp call f args) := by
  rw [typeOfCall]
  split
  · split
    · exact Asking.ensures_pure within_none
    · refine (keeps_askTypeFor call).bind fun data hdata => ?_
      split
      · exact Asking.ensures_pure within_none
      · next data => exact Asking.ensures_pure (hdata data rfl).entryType
  · apply Asking.ensures_ofExcept
    refine (hS.ensures_typeOfStoreToCall hf cp.path call).bind fun type htype => ?_
    split
    · exact .ok htype
    · split
      · exact hf.ensures_typeOfCallArgument cp.path args
      · exact hS.ensures_getReturnTypeOf hf call

lemma DeclaredIn.keeps_callRoot (hS : DeclaredIn G M S) (cp : CallValuePath ν) {root : ν}
    {opcode : CallOpcode} {callee : Callee ι ν} {args : List ν} {heapallocsite : Option ι}
    (hroot : cp.path.value = some root)
    (hvalue : M.value root = .call opcode callee args heapallocsite) :
    Keeps S (fun type => Within S (Option.join type)) (findTypeRoot M cp) := by
  cases hcallee : callee.calledFunction with
  | none =>
    simp only [findTypeRoot, hroot, hvalue, LLValue.rootKind, hcallee]
    exact Asking.ensures_pure within_none
  | some f =>
    have hf : SignatureIn S f := fun s hs => hS.typeArray (.callee hvalue hcallee hs)
    have hcall := hS.keeps_typeOfCall cp root hf args
    cases hmemcpy : (LLValue.call opcode callee args heapallocsite).isMemCpy with
    | false =>
      simp only [findTypeRoot, hroot, hvalue, LLValue.rootKind, hcallee, hmemcpy]
      exact hcall
    | true =>
      cases hsource : args[1]? with
      | none =>
        simp only [findTypeRoot, hroot, hvalue, LLValue.rootKind, hcallee, hmemcpy, hsource]
        exact Asking.ensures_fail _
      | some source =>
        simp only [findTypeRoot, hroot, hvalue, LLValue.rootKind, hcallee, hmemcpy, hsource,
          if_true]
        refine (hS.keeps_typeOfCopySource cp.path source).bind fun copied hcopied => ?_
        cases copied with
        | none => exact hcall
        | some type => exact Asking.ensures_pure hcopied

lemma DeclaredIn.keeps_findTypeRoot (hS : DeclaredIn G M S) (cp : CallValuePath ν) :
    Keeps S (fun type => Within S (Option.join type)) (findTypeRoot M cp) := by
  cases hroot : cp.path.value with
  | none =>
    simp only [findTypeRoot, hroot]
    exact Asking.ensures_pure within_none
  | some root =>
    cases hvalue : M.value root with
    | call opcode callee args heapallocsite => exact hS.keeps_callRoot cp hroot hvalue
    | ret parent returnValue =>
      simp only [findTypeRoot, hroot, hvalue, LLValue.rootKind]
      split
      · exact Asking.ensures_pure within_none
      · next s hs =>
        apply Asking.ensures_pure
        intro t ht
        have hmem := List.mem_of_mem_head? (Option.join_eq_some_iff.mp ht)
        exact hS.typeArray (.ret hvalue hs) _ hmem t rfl
    | alloca =>
      simp only [findTypeRoot, hroot, hvalue, LLValue.rootKind]
      split
      · next declared hdeclared =>
        exact Asking.ensures_ofExcept (hS.ensures_declaredAlloca hdeclared)
      · exact keeps_typeFromAlloca root
    | globalVariable dbg initializer =>
      simp only [findTypeRoot, hroot, hvalue, LLValue.rootKind]
      exact Asking.ensures_pure (hS.global hvalue)
    | argument parent argNo structRet =>
      simp only [findTypeRoot, hroot, hvalue, LLValue.rootKind]
      exact Asking.ensures_ofExcept (hS.ensures_typeOfArgument hvalue argNo structRet)
    | constantInt | constantGEP | constantBitCast | constantExpr | constant | store | load
    | getElementPtr | bitCast | sext | phi | instruction =>
      simp only [findTypeRoot, hroot, hvalue, LLValue.rootKind]
      exact Asking.ensures_pure within_none

end Searches

/-! ### Types of paths -/

section Paths

variable [DecidableEq ι] {type : Option ι}

/-- The Fortran walk: only GEPs change the type. -/
lemma DeclaredIn.ensures_fortranResetDitype (hS : DeclaredIn G M S) (fuel : ℕ)
    (htype : Within S type) (v : ν) :
    Ensures (Fortran.resetDitype G M fuel type v) fun t => ∀ x, t = some x → Within S x := by
  rw [Fortran.resetDitype]
  split
  · refine .ok ?_
    rintro _ ⟨⟩
    exact htype
  · next gep _ =>
    split
    · refine .ok ?_
      rintro _ ⟨⟩
      exact htype
    · refine (ensures_extractGepDereferencedType hS.closed hS.resultsIn fuel htype v gep).bind
        fun result hresult => ?_
      split
      · next member hmember _ =>
        refine .ok ?_
        rintro _ ⟨⟩
        exact within_some_iff.mpr (hresult.member member hmember)
      · exact .ok hresult.type

lemma DeclaredIn.ensures_fortranWalk (hS : DeclaredIn G M S) (fuel : ℕ) (htype : Within S type)
    (vs : List ν) :
    Ensures (Fortran.walk G M fuel type vs) fun r => Within S r.1 ∧ Within S r.2 := by
  refine Ensures.foldlM (P := fun r : Option ι × Option ι => Within S r.1 ∧ Within S r.2) ?_
    ⟨htype, within_none⟩ vs
  rintro ⟨type, mapped⟩ v ⟨htype, -⟩
  refine (hS.ensures_fortranResetDitype fuel htype v).bind fun t ht => .ok ?_
  cases t with
  | none => exact ⟨htype, within_none⟩
  | some t => exact ⟨ht t rfl, ht t rfl⟩

variable [DecidableEq ν] [Fintype ν]

omit [DecidableEq ν] in
lemma DeclaredIn.ensures_fortranExtract (hS : DeclaredIn G M S) (fuel : ℕ) (path : ValuePath ν)
    (htype : Within S type) : Ensures (Fortran.extract G M fuel path type) (Within S) := by
  refine (hS.ensures_fortranWalk fuel htype path.pathToValue.reverse).bind
    fun walked hwalked => ?_
  obtain ⟨htype, hmapped⟩ := hwalked
  refine (Ensures.of_true _).bind fun value _ => ?_
  split
  · refine (ensures_deref htype).bind fun t ht => ?_
    split
    · next c hc =>
      refine (DIGraph.ensures_memberAt hS.closed fuel ht hc 0).bind fun r hr => ?_
      split
      · next m => exact .ok (within_some_iff.mpr (hr m rfl).2)
      · exact .ok hmapped
    · exact .ok hmapped
  · exact .ok hmapped

lemma DeclaredIn.keeps_findType (hS : DeclaredIn G M S) (fuel : ℕ) (cp : CallValuePath ν) :
    Keeps S (Within S) (findType G M fuel cp) := by
  refine (keeps_askFindTypeRoot cp).bind fun root hroot => ?_
  split
  · exact Asking.ensures_pure within_none
  · next root =>
    apply Asking.ensures_ofExcept
    rw [walkFromRoot]
    split
    · exact hS.ensures_fortranExtract fuel cp.path hroot
    · exact ensures_resetAlong hS.closed hS.resultsIn fuel cp.path hroot _

end Paths

/-! ### Types of allocations -/

section Allocations

lemma ensures_finalDitypeLoop (hS : G.Closed S) (fuel : ℕ) {t : ι} (ht : t ∈ S) (level : ℤ) :
    Ensures (finalDitypeLoop G fuel t level) fun r => r.1 ∈ S := by
  induction fuel generalizing t level with
  | zero => exact .error _
  | succ fuel ih =>
    rw [finalDitypeLoop]
    split
    · next d hd =>
      dsimp only
      split
      · exact .ok ht
      · next base hbase => exact ih (hS.derived ht hd base hbase) _
    · exact .ok ht

lemma ensures_finalDitype (hS : G.Closed S) (fuel : ℕ) {root : Option (Option ι)}
    (hroot : Within S root.join) :
    Ensures (finalDitype G fuel root) fun r => Within S r.1.join := by
  cases root with
  | none => exact .ok within_none
  | some root =>
    refine (ensures_deref hroot).bind fun t ht => ?_
    refine (ensures_finalDitypeLoop hS fuel ht 0).bind fun final hfinal => ?_
    exact .ok (within_some_iff.mpr hfinal)

lemma keeps_collectTypes (call : Option ν) (ps : List (ValuePath ν)) :
    Keeps S (fun types => ∀ t ∈ types, t ∈ S) (collectTypes call ps) := by
  induction ps with
  | nil => exact Asking.ensures_pure (by simp)
  | cons p ps ih =>
    refine (keeps_askFindType _).bind fun type htype => ih.bind fun types htypes => ?_
    apply Asking.ensures_pure
    intro t ht
    rcases List.mem_append.mp ht with ht | ht
    · exact htype t (Option.mem_toList.mp ht)
    · exact htypes t ht

variable [DecidableEq ν]

lemma DeclaredIn.ensures_assignedType (hS : DeclaredIn G M S) {call : ν}
    {diVar : DILocalVariable ι} {arrayAccess : Bool}
    (hvar : M.getArrayAccessAssignment call = some (diVar, arrayAccess)) :
    Ensures (assignedType G diVar arrayAccess) fun t => Within S t.join := by
  obtain ⟨r, hr, heq⟩ := Option.map_eq_some_iff.mp hvar
  obtain ⟨rfl, rfl⟩ := Prod.mk.inj heq
  have htype := hS.findIntrinsic hr
  rw [assignedType]
  split
  · refine (ensures_deref htype).bind fun t ht => ?_
    split
    · next c hc => exact .ok (hS.closed.composite ht (DIGraph.asComposite_eq hc))
    · exact .ok htype
  · exact .ok htype

variable [Fintype ν]

omit [DecidableEq ν] [Fintype ν] in
lemma within_head {types : List ι} (h : ∀ t ∈ types, t ∈ S) :
    Within S (types.head?.map some).join := by
  rw [join_map_some]
  exact fun t ht => h t (List.mem_of_mem_head? ht)

omit [DecidableEq ν] [Fintype ν] in
lemma DeclaredIn.ensures_typeForNewlike (hS : DeclaredIn G M S) {call : ν} {base : CallBase ι ν}
    (hbase : (M.value call).asCallBase = some base) :
    Ensures (typeForNewlike G base.heapallocsite) fun t => Within S t.join := by
  refine (ensures_deref_eq _).bind fun t ht => .ok ?_
  have hcall : ∃ opcode callee args, M.value call = .call opcode callee args (some t) := by
    cases hv : M.value call <;> rw [hv] at hbase <;> cases hbase
    exact ⟨_, _, _, by rw [← ht]⟩
  obtain ⟨opcode, callee, args, hv⟩ := hcall
  split_ifs
  · exact within_some_iff.mpr (hS.declared t (.heapallocsite hv))
  · exact within_none

lemma DeclaredIn.keeps_typeForMalloclike (hS : DeclaredIn G M S) (call : ν) :
    Keeps S (fun t => Within S (Option.join t)) (typeForMalloclike G M call) := by
  rw [typeForMalloclike]
  split
  · next diVar arrayAccess hvar => exact Asking.ensures_ofExcept (hS.ensures_assignedType hvar)
  · refine (keeps_collectTypes _ _).bind fun types htypes => ?_
    exact Asking.ensures_pure (within_head htypes)

lemma keeps_diTypeFor (value : ν) :
    Keeps S (fun t => Within S (Option.join t)) (diTypeFor (ι := ι) M value) :=
  (keeps_collectTypes _ _).bind fun _ htypes => Asking.ensures_pure (within_head htypes)

lemma keeps_fortranDiTypeFor (value call : ν) :
    Keeps S (fun r => ∀ x, r = some x → x.1 ∈ S)
      (fortranDiTypeFor (ι := ι) M value call) := by
  refine (Asking.ensures_ofExcept (Ensures.of_true _)).bind fun shapes _ => ?_
  refine (keeps_collectTypes _ _).bind fun types htypes => Asking.ensures_pure ?_
  intro x hx
  obtain ⟨t, ht, rfl⟩ := Option.map_eq_some_iff.mp hx
  exact htypes t (List.mem_of_mem_head? ht)

lemma DeclaredIn.keeps_extractType (hS : DeclaredIn G M S) {call : ν} {base : CallBase ι ν}
    (hbase : (M.value call).asCallBase = some base) (config : ResolvedCallBaseTypeConfig) :
    Keeps S (fun r => ∀ x, r = some x → Within S (Option.join x.1))
      (extractType G M call base config) := by
  rw [extractType]
  split
  · split
    · exact Asking.ensures_fail _
    · refine (keeps_diTypeFor _).bind fun type htype => Asking.ensures_pure ?_
      rintro _ ⟨⟩
      exact htype
  · refine (hS.keeps_typeForMalloclike call).bind fun type htype => Asking.ensures_pure ?_
    rintro _ ⟨⟩
    exact htype
  · split
    · exact Asking.ensures_pure (by simp)
    · refine (keeps_fortranDiTypeFor _ call).bind fun r hr => ?_
      split
      · apply Asking.ensures_pure
        rintro _ ⟨⟩
        exact within_none
      · next type shape =>
        apply Asking.ensures_pure
        rintro _ ⟨⟩
        exact within_some_iff.mpr (hr (type, shape) rfl)
  · refine (Asking.ensures_ofExcept (hS.ensures_typeForNewlike hbase)).bind fun type htype =>
      Asking.ensures_pure ?_
    rintro _ ⟨⟩
    exact htype

lemma DeclaredIn.keeps_typeFor (hS : DeclaredIn G M S) (fuel : ℕ) (call : ν)
    (config : CallBaseTypeConfig) :
    Keeps S (fun data => ∀ x, data = some x → DimetaData.Within S x)
      (typeFor G M fuel call config) := by
  rw [typeFor]
  split
  · exact Asking.ensures_pure (by simp)
  · next base hbase =>
    split
    · exact Asking.ensures_pure (by simp)
    · next resolved _ =>
      have hresolved : Keeps S (fun data => ∀ x, data = some x → DimetaData.Within S x)
          (typeForResolvedCallbase G M fuel call base resolved) := by
        refine (hS.keeps_extractType hbase resolved).bind fun extracted hextracted => ?_
        split
        · exact Asking.ensures_pure (by simp)
        · next type shape =>
          have htype := hextracted (type, shape) rfl
          refine (Asking.ensures_ofExcept (ensures_finalDitype hS.closed fuel htype)).bind
            fun final hfinal => Asking.ensures_pure ?_
          rintro _ ⟨⟩
          exact ⟨htype, hfinal⟩
      refine hresolved.bind fun data hdata => ?_
      split
      · exact Asking.ensures_pure (by simp)
      · split
        · exact Asking.ensures_pure (by simp)
        · exact Asking.ensures_pure hdata

variable [DecidableEq ι]

/-- The bodies of the mutually recursive functions keep the contract. -/
lemma DeclaredIn.keeps_typeQuery (hS : DeclaredIn G M S) (fuel : ℕ) (q : TypeQuery ν) :
    Keeps S (AnswerIn S q) (typeQuery G M fuel q) := by
  cases q with
  | findTypeRoot cp => exact hS.keeps_findTypeRoot cp
  | findType cp => exact hS.keeps_findType fuel cp
  | typeFor call => exact hS.keeps_typeFor fuel call {}

variable {fuel depth : ℕ} {call : ν} {config : CallBaseTypeConfig} {data : DimetaData ι}

lemma DeclaredIn.within_of_runTypeFor (hS : DeclaredIn G M S)
    (h : runTypeFor G M fuel depth call config = some (.ok (some data))) :
    DimetaData.Within S data :=
  (hS.keeps_typeFor fuel call config).run
    (fun _ _ => contract_of_bodies (hS.keeps_typeQuery fuel)) h data rfl

/-- Without debug information no type is found. -/
theorem types_eq_none (hM : ∀ t, ¬ M.Declares t)
    (h : runTypeFor G M fuel depth call config = some (.ok (some data))) :
    data.entryType.join = none ∧ data.baseType.join = none := by
  have hS : DeclaredIn G M ∅ :=
    ⟨fun _ _ ha _ => absurd ha (Set.notMem_empty _), fun t ht => absurd ht (hM t)⟩
  obtain ⟨hentry, hbase⟩ := hS.within_of_runTypeFor h
  exact ⟨Option.eq_none_iff_forall_ne_some.mpr hentry, Option.eq_none_iff_forall_ne_some.mpr hbase⟩

/-- The types that are found for a call are declared for a value of the module, or a declared type
refers to them. -/
theorem types_declared (h : runTypeFor G M fuel depth call config = some (.ok (some data))) {t : ι}
    (ht : data.entryType = some (some t) ∨ data.baseType = some (some t)) :
    ∃ declared, M.Declares declared ∧ ReflTransGen G.Leads declared t := by
  obtain ⟨hentry, hbase⟩ := (declaredIn_reachable G M).within_of_runTypeFor h
  rcases ht with ht | ht
  · exact hentry t (Option.join_eq_some_iff.mpr ht)
  · exact hbase t (Option.join_eq_some_iff.mpr ht)

end Allocations

theorem types_declared_assigned :
    ∃ declared, allocatesTwice.Declares declared ∧ ReflTransGen intPointer.Leads declared 1 :=
  types_declared (show runTypeFor intPointer allocatesTwice 2 0 1 {} =
    some (.ok (some ⟨.kHeap, some (some 0), some (some 1), none, 1⟩)) from rfl) (.inr rfl)

end Dimeta
