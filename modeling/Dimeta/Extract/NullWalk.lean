import Dimeta.Extract.NullAccesses
import Dimeta.Extract.NullElements
import Dimeta.Extract.Reset

/-!
# Walks that meet missing types

The type walk uses no missing type and passes none on exactly if every step finds what it looks at:
for each load, store and GEP a condition on the type before the step.
-/

set_option autoImplicit false

namespace Dimeta

variable {ι ν : Type}

/-! ### GEPs -/

/-- The first index is dropped. -/
def GEPOperator.skipsFirst (gep : GEPOperator ν) (firstNonZero : Bool) : Bool :=
  !firstNonZero && !(gep.indices.length == 1 && !isFortranDescriptor gep.sourceElementType) &&
    !gep.isByteIndexing

/-- A single index to what a pointer refers to. -/
def isArrayLike (G : DIGraph ι) (root : ι) (gep : GEPOperator ν) (skipFirst : Bool) : Bool :=
  (G.node root).asDerived.any fun d =>
    !gep.isByteIndexing && !skipFirst && gep.indices.length == 1 && d.tag == .pointerType

/-- A GEP on the composite below the root leads to a missing type. -/
def CompositeMeetsNull (G : DIGraph ι) (root n : ι) (c : DICompositeType ι) (gep : GEPOperator ν) :
    Prop :=
  ∃ firstNonZero, gep.isFirstNonZeroIndexing = .ok firstNonZero ∧
    isArrayLike G root gep (gep.skipsFirst firstNonZero) = false ∧
    G.IndicesMeetNull n c (.create gep (gep.skipsFirst firstNonZero))

section

variable (G : DIGraph ι) (M : IRModule ι ν)

/-- The GEP is not taken for an inlined operator, nor left alone as one on pointers or arrays. -/
structure LooksBelow (t : ι) (v : ν) (gep : GEPOperator ν) : Prop where
  notInlined : inlinedReturnType M v gep = .ok none
  notArray : gep.sourceElementType.isArrayTy = false
  notPointer : gep.sourceElementType.isPointerTy = true →
    ∃ n c, G.LeadsTo (fun _ => false) (some t) (some n) ∧ G.node n = .compositeType c ∧
      c.isForwardDecl = true

/-- What a GEP looks at is missing: the type that the declared result of an inlined operator is a
reference to, the base type of the root, the composite below it, or an element. -/
inductive GepMeetsNull (t : ι) (v : ν) (gep : GEPOperator ν) : Prop
  | inlined {result : ι} (h : inlinedReturnType M v gep = .ok (some result))
      (hnone : G.LeadsTo isPlainPointer (some result) none)
  | base {d : DIDerivedType ι} (h : LooksBelow G M t v gep) (hd : G.node t = .derivedType d)
      (hbase : d.baseType = none)
  | root {r : Option ι} (h : LooksBelow G M t v gep)
      (hr : G.LeadsTo (fun _ => false) (some t) r) (hnone : r.bind G.composite = none)
      (hbyte : gep.isByteIndexing = false)
  | composite {n : ι} {c : DICompositeType ι} (h : LooksBelow G M t v gep)
      (hn : G.LeadsTo (fun _ => false) (some t) (some n)) (hc : G.node n = .compositeType c)
      (hcomplete : c.isForwardDecl = false)
      (hbyte : gep.isByteIndexing = true → G.baseIsPointer t = .ok false)
      (hnull : CompositeMeetsNull G t n c gep)

/-- What the walk looks at for a value is missing: at a GEP into no Fortran descriptor, at a load
from or a store to no variable. -/
def StepMeetsNull (t : ι) (v : ν) : Prop :=
  match M.value v with
  | .getElementPtr gep | .constantGEP gep =>
    isFortranDescriptor gep.sourceElementType = false ∧ GepMeetsNull G M t v gep
  | .load pointer =>
    accessTo M LLValue.isSlot pointer = false ∧ loadOfDescriptor M pointer = false ∧
      G.LoadMeetsNull t
  | .store _ pointer => accessTo M LLValue.isSlot pointer = false ∧ G.StoreMeetsNull t
  | _ => False

end

section

variable {G : DIGraph ι} {M : IRModule ι ν} {t : ι} {v : ν} {gep : GEPOperator ν} {fuel : ℕ}

lemma noNull_inlinedReturnType_iff {P : Option ι → Prop} :
    NoNull (inlinedReturnType M v gep) P ↔ ∀ r, inlinedReturnType M v gep = .ok r → P r := by
  rw [NoNull.iff_forall, and_iff_right]
  rw [inlinedReturnType]
  cases tryResolveInlinedDebugLoc M v gep with
  | none =>
    intro h
    cases h
  | some location =>
    simp only
    cases location.scope with
    | lexicalBlock =>
      intro h
      cases h
    | subprogram subprogram =>
      simp only
      split
      · intro h
        cases h
      · intro h
        cases h

variable [DecidableEq ι]

lemma DIGraph.Suffices.noNull_tryResolveInlinedOperator_iff (h : G.Suffices fuel)
    {P : Option (GepIndexToType ι) → Prop} :
    NoNull (tryResolveInlinedOperator G M fuel v gep) P ↔
      (inlinedReturnType M v gep = .ok none → P none) ∧
      ∀ result, inlinedReturnType M v gep = .ok (some result) →
        ∀ r, G.LeadsTo isPlainPointer (some result) r → P (some { type := some r }) := by
  rw [tryResolveInlinedOperator, NoNull.bind_iff, noNull_inlinedReturnType_iff]
  constructor
  · intro hall
    refine ⟨fun hnone => hall none hnone, fun result hresult => ?_⟩
    have hfind := hall (some result) hresult
    simp only [NoNull.bind_iff, NoNull.pure_iff] at hfind
    exact h.noNull_find_iff.mp hfind
  · rintro ⟨hnone, hsome⟩ r hr
    cases r with
    | none => exact hnone hr
    | some result =>
      simp only [NoNull.bind_iff, NoNull.pure_iff]
      exact h.noNull_find_iff.mpr (hsome result hr)

lemma extractGepOfComposite_of_first {n : ι} {c : DICompositeType ι} {firstNonZero : Bool}
    (hfirst : gep.isFirstNonZeroIndexing = .ok firstNonZero) :
    extractGepOfComposite G fuel t n c gep =
      if isArrayLike G t gep (gep.skipsFirst firstNonZero) then
        .ok { type := some ((G.node t).asDerived.bind (·.baseType)) }
      else G.resolveGepIndexToType fuel n c (.create gep (gep.skipsFirst firstNonZero)) := by
  rw [extractGepOfComposite, hfirst, isArrayLike]
  cases (G.node t).asDerived with
  | none => rfl
  | some d => rfl

lemma DIGraph.Suffices.noNull_extractGepOfComposite_iff (h : G.Suffices fuel)
    (hskip : G.SufficesToSkip fuel) {n : ι} {c : DICompositeType ι}
    (hbase : ∀ d, G.node t = .derivedType d → d.baseType ≠ none)
    (hn : G.node n = .compositeType c) (gep : GEPOperator ν) :
    NoNull (extractGepOfComposite G fuel t n c gep) (·.type ≠ some none) ↔
      ¬ CompositeMeetsNull G t n c gep := by
  cases hfirst : gep.isFirstNonZeroIndexing with
  | error e =>
    have he : e ≠ .nullType := by
      rw [GEPOperator.isFirstNonZeroIndexing] at hfirst
      split at hfirst
      · cases hfirst
        decide
      · cases hfirst
      · cases hfirst
    rw [extractGepOfComposite, hfirst]
    refine iff_of_true he ?_
    rintro ⟨firstNonZero, hok, -⟩
    rw [hfirst] at hok
    cases hok
  | ok firstNonZero =>
    have hresolve := h.noNull_resolve_iff hskip hn (.create gep (gep.skipsFirst firstNonZero))
    have hmeets : CompositeMeetsNull G t n c gep ↔
        isArrayLike G t gep (gep.skipsFirst firstNonZero) = false ∧
          G.IndicesMeetNull n c (.create gep (gep.skipsFirst firstNonZero)) := by
      constructor
      · rintro ⟨firstNonZero', hok, hnull⟩
        rw [hfirst] at hok
        cases hok
        exact hnull
      · exact fun hnull => ⟨firstNonZero, hfirst, hnull⟩
    rw [hmeets, extractGepOfComposite_of_first hfirst]
    cases hlike : isArrayLike G t gep (gep.skipsFirst firstNonZero) with
    | true =>
      refine iff_of_true ?_ fun h => Bool.noConfusion h.1
      rw [if_pos rfl, NoNull.ok_iff]
      rw [isArrayLike] at hlike
      intro hnone
      cases hnode : G.node t with
      | derivedType d =>
        rw [hnode] at hnone
        exact hbase d hnode (Option.some.inj hnone)
      | _ =>
        rw [hnode] at hlike
        cases hlike
    | false =>
      rw [if_neg Bool.false_ne_true, hresolve]
      simp

omit [DecidableEq ι] in
/-- Where the chain below the root ends in a composite. -/
lemma eq_some_of_bind_composite {r : Option ι} {n : ι} {c : DICompositeType ι}
    (h : r.bind G.composite = some (n, c)) : r = some n ∧ G.node n = .compositeType c := by
  obtain ⟨n', rfl, hn⟩ := Option.bind_eq_some_iff.mp h
  have hnode := DIGraph.eq_of_composite hn
  rw [DIGraph.composite, Option.map_eq_some_iff] at hn
  obtain ⟨_, -, heq⟩ := hn
  cases heq
  exact ⟨rfl, hnode⟩

/-- The part of the extraction behind the inlined operators. -/
def extractGepBelow (G : DIGraph ι) (fuel : ℕ) (composite : Option (ι × DICompositeType ι))
    (root : ι) (gep : GEPOperator ν) : Except Fault (GepIndexToType ι) :=
  if gep.sourceElementType.isPointerTy && !composite.any (·.2.isForwardDecl) then
    .ok { type := some (some root) }
  else if gep.sourceElementType.isArrayTy then .ok { type := some (some root) }
  else do
    let baseIsPointer ← G.baseIsPointer root
    if gep.isByteIndexing && (composite.isNone || baseIsPointer) then
      return { type := some (some root) }
    else
      let (n, c) ← deref composite
      if c.isForwardDecl then return { type := some (some root) }
      else extractGepOfComposite G fuel root n c gep

omit [DecidableEq ι] in
lemma exists_baseIsPointer (h : ∀ d, G.node t = .derivedType d → d.baseType ≠ none) :
    ∃ x, G.baseIsPointer t = .ok x := by
  rw [DIGraph.baseIsPointer]
  cases hnode : G.node t with
  | derivedType d =>
    cases hbase : d.baseType with
    | none => exact absurd hbase (h d hnode)
    | some b => simp [DINode.asDerived, hbase, deref]
  | _ => simp [DINode.asDerived]

omit [DecidableEq ι] in
lemma noNull_baseIsPointer_iff {P : Bool → Prop} : NoNull (G.baseIsPointer t) P ↔
    (∀ d, G.node t = .derivedType d → d.baseType ≠ none) ∧
      ∀ x, G.baseIsPointer t = .ok x → P x := by
  rw [NoNull.iff_forall]
  refine and_congr_left fun _ => ?_
  rw [DIGraph.baseIsPointer]
  cases hnode : G.node t with
  | derivedType d =>
    cases hbase : d.baseType with
    | none => simp [DINode.asDerived, hbase, deref]
    | some b => simp [DINode.asDerived, hbase, deref]
  | _ => simp [DINode.asDerived]

omit [DecidableEq ι] in
/-- The cases that are left behind inlined operators, pointers and arrays. -/
lemma LooksBelow.gepMeetsNull_iff (h : LooksBelow G M t v gep) {r : Option ι}
    (hr : G.LeadsTo (fun _ => false) (some t) r) : GepMeetsNull G M t v gep ↔
      (∃ d, G.node t = .derivedType d ∧ d.baseType = none) ∨
      (r.bind G.composite = none ∧ gep.isByteIndexing = false) ∨
      ∃ n c, r.bind G.composite = some (n, c) ∧ c.isForwardDecl = false ∧
        (gep.isByteIndexing = true → G.baseIsPointer t = .ok false) ∧
        CompositeMeetsNull G t n c gep := by
  constructor
  · intro hnull
    cases hnull with
    | inlined hinlined =>
      rw [h.notInlined] at hinlined
      cases hinlined
    | base _ hd hbase => exact .inl ⟨_, hd, hbase⟩
    | root _ hr' hnone hbyte =>
      obtain rfl := hr.unique hr'
      exact .inr (.inl ⟨hnone, hbyte⟩)
    | composite _ hn hc hcomplete hbyte hnull =>
      obtain rfl := hr.unique hn
      refine .inr (.inr ⟨_, _, ?_, hcomplete, hbyte, hnull⟩)
      rw [Option.bind_some, DIGraph.composite, hc]
      rfl
  · rintro (⟨d, hd, hbase⟩ | ⟨hnone, hbyte⟩ | ⟨n, c, hcomposite, hcomplete, hbyte, hnull⟩)
    · exact .base h hd hbase
    · exact .root h hr hnone hbyte
    · obtain ⟨rfl, hc⟩ := eq_some_of_bind_composite hcomposite
      exact .composite h hr hc hcomplete hbyte hnull

lemma DIGraph.Suffices.noNull_extractGepBelow_iff (h : G.Suffices fuel)
    (hskip : G.SufficesToSkip fuel) {r : Option ι} (hr : G.LeadsTo (fun _ => false) (some t) r)
    (hinlined : inlinedReturnType M v gep = .ok none) :
    NoNull (extractGepBelow G fuel (r.bind G.composite) t gep) (·.type ≠ some none) ↔
      ¬ GepMeetsNull G M t v gep := by
  have hroot : NoNull (.ok ({ type := some (some t) } : GepIndexToType ι)) (·.type ≠ some none) :=
    by simp
  -- either the root is looked into, or the GEP is left alone
  by_cases hlooks : LooksBelow G M t v gep
  · have hpointer : (gep.sourceElementType.isPointerTy &&
        !(r.bind G.composite).any (·.2.isForwardDecl)) = false := by
      rw [Bool.and_eq_false_iff, or_iff_not_imp_left, Bool.not_eq_false]
      intro hpointer
      obtain ⟨n, c, hn, hc, hforward⟩ := hlooks.notPointer hpointer
      obtain rfl := hr.unique hn
      simp [DIGraph.composite, hc, DINode.asComposite, hforward]
    rw [hlooks.gepMeetsNull_iff hr, extractGepBelow, hpointer, hlooks.notArray]
    simp only [Bool.false_eq_true, if_false]
    rw [NoNull.bind_iff, noNull_baseIsPointer_iff, not_or, not_or]
    have hbase : (∀ d, G.node t = .derivedType d → d.baseType ≠ none) ↔
        ¬ ∃ d, G.node t = .derivedType d ∧ d.baseType = none := by
      simp only [ne_eq, not_exists, not_and]
    rw [← hbase]
    refine and_congr_right fun hbase => ?_
    obtain ⟨x, hx⟩ := exists_baseIsPointer hbase
    rw [hx]
    simp only [Except.ok.injEq, forall_eq']
    -- the base type of the root is there; then the composite decides
    cases hcomposite : r.bind G.composite with
    | none =>
      cases hbyte : gep.isByteIndexing with
      | true => simp
      | false => simp [deref]
    | some nc =>
      obtain ⟨n, c⟩ := nc
      obtain ⟨rfl, hc⟩ := eq_some_of_bind_composite hcomposite
      have hiff := h.noNull_extractGepOfComposite_iff hskip hbase hc gep
      cases hforward : c.isForwardDecl with
      | true =>
        simp only [deref, ok_bind, hforward, if_true]
        refine iff_of_true ?_ (by simp [hforward])
        split
        · exact hroot
        · exact hroot
      | false =>
        cases hbyte : gep.isByteIndexing with
        | true =>
          cases x with
          | true => simp
          | false => simpa [deref, hforward] using hiff
        | false => simpa [deref, hforward] using hiff
  · have hnot : ¬ GepMeetsNull G M t v gep := by
      intro hnull
      cases hnull with
      | inlined h =>
        rw [hinlined] at h
        cases h
      | base h | root h | composite h => exact hlooks h
    refine iff_of_true ?_ hnot
    rw [extractGepBelow]
    by_cases hpointer : (gep.sourceElementType.isPointerTy &&
        !(r.bind G.composite).any (·.2.isForwardDecl)) = true
    · rw [if_pos hpointer]
      exact hroot
    · rw [if_neg hpointer]
      by_cases harray : gep.sourceElementType.isArrayTy = true
      · rw [if_pos harray]
        exact hroot
      · refine absurd ⟨hinlined, Bool.eq_false_iff.mpr harray, fun hp => ?_⟩ hlooks
        rw [hp, Bool.true_and, Bool.not_eq_true, Bool.not_eq_false', Option.any_eq_true] at hpointer
        obtain ⟨⟨n, c⟩, hcomposite, hforward⟩ := hpointer
        obtain ⟨rfl, hc⟩ := eq_some_of_bind_composite hcomposite
        exact ⟨n, c, hr, hc, hforward⟩

/-- A GEP meets nothing missing exactly if what it looks at is there. -/
lemma DIGraph.Suffices.noNull_extractGep_iff (h : G.Suffices fuel) (hskip : G.SufficesToSkip fuel) :
    NoNull (extractGepDereferencedType G M fuel (some t) v gep) (·.type ≠ some none) ↔
      ¬ GepMeetsNull G M t v gep := by
  obtain ⟨r, hr⟩ := h.chains (fun _ => false) (some t)
  have hleads := DIGraph.leadsTo_of_find hr
  rw [extractGepDereferencedType, DIGraph.findNonDerivedType, hr]
  simp only [ok_bind]
  rw [NoNull.bind_iff, h.noNull_tryResolveInlinedOperator_iff]
  constructor
  · rintro ⟨hbelow, hinlined⟩ hnull
    have hnot := fun h' => (h.noNull_extractGepBelow_iff hskip hleads h').mp (hbelow h') hnull
    cases hnull with
    | inlined hresult hnone => exact hinlined _ hresult _ hnone rfl
    | base h | root h | composite h => exact hnot h.notInlined
  · intro hnull
    refine ⟨fun h' => (h.noNull_extractGepBelow_iff hskip hleads h').mpr hnull, ?_⟩
    rintro result hresult r hr hnone
    obtain rfl := Option.some.inj hnone
    exact hnull (.inlined hresult hr)

end

/-! ### The walk -/

section Walk

variable [DecidableEq ι] [DecidableEq ν]

/-- A step from a type that is there uses no missing type, and what it results in is there: the
type that it resets to, and that of a GEP if it is engaged. -/
structure NullFreeStep (G : DIGraph ι) (M : IRModule ι ν) (fuel : ℕ) (path : ValuePath ν) (t : ι)
    (v : ν) : Prop where
  resets : NoNull (resetDitype G M fuel path (some t) v) (· ≠ none)
  extracts : ∀ gep, (M.value v).gepOperator = some gep →
    isFortranDescriptor gep.sourceElementType = false →
    NoNull (extractGepDereferencedType G M fuel (some t) v gep) (·.type ≠ some none)

/-- The loop of `find_type` is at no step applied to a missing type, uses none and results in
none. -/
def NullFree (G : DIGraph ι) (M : IRModule ι ν) (fuel : ℕ) (path : ValuePath ν) (root : ι) : Prop :=
  ∀ walked v rest type, path.pathToValue.reverse = walked ++ v :: rest →
    resetAlong G M fuel path (some root) walked = .ok type →
    ∃ t, type = some t ∧ NullFreeStep G M fuel path t v

variable {G : DIGraph ι} {M : IRModule ι ν} {fuel : ℕ}

/-- A GEP resets to the member or type that is extracted. -/
lemma noNull_resetDitype_gep {path : ValuePath ν} {t : ι} {v : ν} {gep : GEPOperator ν}
    (hv : M.value v = .getElementPtr gep ∨ M.value v = .constantGEP gep)
    (hextract : isFortranDescriptor gep.sourceElementType = false →
      NoNull (extractGepDereferencedType G M fuel (some t) v gep) (·.type ≠ some none)) :
    NoNull (resetDitype G M fuel path (some t) v) (· ≠ none) := by
  cases hdescriptor : isFortranDescriptor gep.sourceElementType with
  | true =>
    rw [resetDitype]
    rcases hv with hv | hv
    all_goals
      rw [hv]
      simp [hdescriptor]
  | false =>
    have hextract := hextract hdescriptor
    cases hresult : extractGepDereferencedType G M fuel (some t) v gep with
    | error e =>
      rw [hresult] at hextract
      rw [resetDitype_gep_error G M hv hdescriptor hresult]
      exact hextract
    | ok result =>
      rw [hresult, NoNull.ok_iff] at hextract
      rw [resetDitype_gep G M hv hdescriptor hresult, NoNull.ok_iff]
      obtain ⟨_ | type, _ | member, useType⟩ := result
      · simp [GepIndexToType.resets]
      · cases useType <;> simp [GepIndexToType.resets]
      · cases useType <;> simpa [GepIndexToType.resets] using hextract
      · cases useType with
        | false => simp [GepIndexToType.resets]
        | true => simpa [GepIndexToType.resets] using hextract

/-- A step is free of missing types exactly if what it looks at is there. -/
lemma DIGraph.Suffices.nullFreeStep_iff (h : G.Suffices fuel) (hskip : G.SufficesToSkip fuel)
    (path : ValuePath ν) (t : ι) (v : ν) :
    NullFreeStep G M fuel path t v ↔ ¬ StepMeetsNull G M t v := by
  have hgep : ∀ gep, M.value v = .getElementPtr gep ∨ M.value v = .constantGEP gep →
      (NullFreeStep G M fuel path t v ↔
        ¬ (isFortranDescriptor gep.sourceElementType = false ∧ GepMeetsNull G M t v gep)) := by
    intro gep hv
    have hoperator : (M.value v).gepOperator = some gep := by
      rcases hv with hv | hv <;> rw [hv] <;> rfl
    constructor
    · rintro hstep ⟨hdescriptor, hnull⟩
      exact (h.noNull_extractGep_iff hskip).mp (hstep.extracts gep hoperator hdescriptor) hnull
    · intro hnull
      have hextract : isFortranDescriptor gep.sourceElementType = false →
          NoNull (extractGepDereferencedType G M fuel (some t) v gep) (·.type ≠ some none) :=
        fun hdescriptor => (h.noNull_extractGep_iff hskip).mpr fun h' => hnull ⟨hdescriptor, h'⟩
      refine ⟨noNull_resetDitype_gep hv hextract, fun gep' hgep' => ?_⟩
      rw [hoperator] at hgep'
      cases hgep'
      exact hextract
  have hother : (M.value v).gepOperator = none → (NullFreeStep G M fuel path t v ↔
      NoNull (resetDitype G M fuel path (some t) v) (· ≠ none)) := by
    intro hoperator
    refine ⟨fun hstep => hstep.resets, fun hresets => ⟨hresets, fun gep hgep => ?_⟩⟩
    rw [hoperator] at hgep
    cases hgep
  cases hv : M.value v with
  | getElementPtr gep =>
    simp only [StepMeetsNull, hv]
    exact hgep gep (.inl hv)
  | constantGEP gep =>
    simp only [StepMeetsNull, hv]
    exact hgep gep (.inr hv)
  | load pointer =>
    simp only [StepMeetsNull, hv]
    rw [hother (by rw [hv]; rfl), resetDitype, hv]
    exact h.noNull_resetLoad_iff path v pointer
  | store value pointer =>
    simp only [StepMeetsNull, hv]
    rw [hother (by rw [hv]; rfl), resetDitype, hv]
    exact h.noNull_resetStore_iff pointer
  | alloca | argument | globalVariable | constantInt | constantBitCast | constantExpr | constant
  | bitCast | sext | phi | call | ret | instruction =>
    simp only [StepMeetsNull, hv, not_false_eq_true, iff_true]
    rw [hother (by rw [hv]; rfl), resetDitype, hv]
    exact Option.some_ne_none t

/-- A walk is free of missing types exactly if every step that is reached finds what it looks at. -/
theorem SoundGraph.null_free_iff [Fintype ι] (G : SoundGraph ι) :
    ∃ fuel, ∀ fuel', fuel ≤ fuel' → ∀ (M : IRModule ι ν) (path : ValuePath ν) (root : ι),
      (NullFree G.toDIGraph M fuel' path root ↔
        ∀ walked v rest t, path.pathToValue.reverse = walked ++ v :: rest →
          resetAlong G.toDIGraph M fuel' path (some root) walked = .ok (some t) →
          ¬ StepMeetsNull G.toDIGraph M t v) := by
  obtain ⟨fuel, hfuel⟩ := G.exists_suffices
  obtain ⟨fuel₁, hfuel₁⟩ := DIGraph.exists_sufficesToSkip G.toDIGraph
  refine ⟨max fuel fuel₁, fun fuel' hle M path root => ?_⟩
  have hstep := (hfuel fuel' (le_of_max_le_left hle)).nullFreeStep_iff (M := M)
    (hfuel₁ fuel' (le_of_max_le_right hle)) path
  constructor
  · intro hfree walked v rest t hsplit hreached
    obtain ⟨t', ht', hfree⟩ := hfree walked v rest _ hsplit hreached
    cases ht'
    exact (hstep t v).mp hfree
  · intro hmeets walked
    -- the type before a step is there, as the step before has left it
    induction walked using List.reverseRecOn with
    | nil =>
      intro v rest type hsplit hreached
      obtain rfl := Except.ok.inj hreached
      exact ⟨root, rfl, (hstep root v).mpr (hmeets [] v rest root hsplit rfl)⟩
    | append_singleton walked w ih =>
      intro v rest type hsplit hreached
      have hreached' := hreached
      rw [resetAlong_snoc, bind_eq_ok] at hreached'
      obtain ⟨type', hbefore, hreset⟩ := hreached'
      rw [List.append_assoc, List.singleton_append] at hsplit
      obtain ⟨t', rfl, hfree⟩ := ih w (v :: rest) type' hsplit hbefore
      have hsome := hfree.resets
      rw [hreset, NoNull.ok_iff] at hsome
      obtain ⟨t, rfl⟩ := Option.ne_none_iff_exists'.mp hsome
      refine ⟨t, rfl, (hstep t v).mpr (hmeets (walked ++ [w]) v rest t ?_ hreached)⟩
      rw [hsplit, List.append_assoc, List.singleton_append]

end Walk

/-! ### A store through a pointer to void -/

/-- The type `void *`. -/
def voidPointer : SoundGraph (Fin 1) where
  node _ := .derivedType { tag := .pointerType, sizeInBits := 64, baseType := none }
  well_typed :=
    { refers_to_types := fun _ _ h => nomatch h
      members_have_types := fun _ h => nomatch h }
  cycles_pass_records := DIGraph.cyclesPassRecords_of_lt fun _ _ h => nomatch h

/-- `void f(void *p) { *(void **)p = malloc(4); }`, where `p` is 0, the call is 1 and the store
is 2. -/
def storeThroughVoid : IRModule (Fin 1) (Fin 3) where
  value
    | 0 => .argument { name := "f", subprogram := some ⟨[none, some 0]⟩ } 0 false
    | 1 => .call .call (.function { name := "malloc", subprogram := none }) [] none
    | 2 => .store 1 0
  users
    | 0 => [2]
    | 1 => [2]
    | 2 => []
  mem_users := by decide
  debugLoc _ := none
  dbgRecords := []

/-- The store looks at what the pointer refers to. -/
theorem not_null_free :
    ¬ NullFree voidPointer.toDIGraph storeThroughVoid 3 ⟨[2, 0]⟩ 0 := by
  intro hfree
  obtain ⟨t, ht, hstep⟩ := hfree [0] 2 [] (some 0) rfl rfl
  cases ht
  exact hstep.resets rfl

end Dimeta
