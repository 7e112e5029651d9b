import Dimeta.Core.Contracts
import Dimeta.DI.Closed
import Dimeta.Extract.NullAccesses
import Dimeta.Extract.Reset

/-!
# The type walk inside a closed set

The type walk follows the references of the debug-info graph: from a type in a closed set it never
leaves the set, whatever the values of the path are. The declared results of inlined functions are
the only types that it takes from elsewhere.
-/

set_option autoImplicit false

namespace Dimeta

open Recursion

variable {ι ν : Type} {G : DIGraph ι} {S : Set ι} {t : ι} {type : Option ι}

lemma ensures_deref (h : Within S type) : Ensures (deref type) (· ∈ S) := by
  cases type with
  | none => exact .error _
  | some t => exact .ok (h t rfl)

lemma ensures_deref_eq {α : Type} (x : Option α) : Ensures (deref x) fun a => x = some a := by
  cases x with
  | none => exact .error _
  | some a => exact .ok rfl

namespace DIGraph

/-- The node of a composite in the set. -/
structure CompositeIn (G : DIGraph ι) (S : Set ι) (x : ι × DICompositeType ι) : Prop where
  mem : x.1 ∈ S
  node : G.node x.1 = .compositeType x.2

lemma asDerived_eq {d : DIDerivedType ι} (h : (G.node t).asDerived = some d) :
    G.node t = .derivedType d := by
  cases ht : G.node t <;> rw [ht] at h <;> cases h
  rfl

lemma asComposite_eq {c : DICompositeType ι} (h : (G.node t).asComposite = some c) :
    G.node t = .compositeType c := by
  cases ht : G.node t <;> rw [ht] at h <;> cases h
  rfl

/-! ### Chains -/

lemma LeadsTo.within {stop : DINode ι → Bool} {r : Option ι} (hS : G.Closed S)
    (h : G.LeadsTo stop type r) (ht : Within S type) : Within S r := by
  induction h with
  | null => exact ht
  | stop _ _ => exact ht
  | other _ => exact ht
  | step hd _ _ ih => exact ih (hS.derived (within_some_iff.mp ht) hd)

lemma ensures_find (hS : G.Closed S) (stop : DINode ι → Bool) (fuel : ℕ) (ht : Within S type) :
    Ensures (G.findNonDerivedTypeUnless stop fuel type) (Within S) :=
  fun _ h => (leadsTo_of_find h).within hS ht

lemma ensures_desugarLoop (hS : G.Closed S) (pointerLevel fuel reachedLevel : ℕ)
    (ht : Within S type) :
    Ensures (G.desugarLoop pointerLevel fuel reachedLevel type) (Within S) := by
  induction fuel generalizing reachedLevel type with
  | zero => exact .error _
  | succ fuel ih =>
    cases type with
    | none => exact .ok ht
    | some t =>
      simp only [desugarLoop]
      split
      · next d hd =>
        split
        · exact .ok ht
        · exact ih _ (hS.derived (within_some_iff.mp ht) hd)
      · exact .ok ht

lemma compositeIn_of_composite (ht : t ∈ S) {x : ι × DICompositeType ι}
    (h : G.composite t = some x) : G.CompositeIn S x := by
  obtain ⟨n, c⟩ := x
  have hn := eq_of_composite h
  rw [composite, Option.map_eq_some_iff] at h
  obtain ⟨_, _, heq⟩ := h
  cases heq
  exact ⟨ht, hn⟩

lemma ensures_desugar (hS : G.Closed S) (fuel : ℕ) (ht : t ∈ S) :
    Ensures (G.desugar fuel t) fun r => ∀ x, r = some x → G.CompositeIn S x := by
  refine (ensures_desugarLoop hS 1 fuel 0 (within_some_iff.mpr ht)).bind fun type htype => .ok ?_
  intro x hx
  obtain ⟨n, hn, hx⟩ := Option.bind_eq_some_iff.mp hx
  exact compositeIn_of_composite (htype n hn) hx

/-! ### Members -/

/-- The candidate of a search, and its type, are in the set. -/
def CandidateIn (S : Set ι) (s : DestructureComposite ι) : Prop :=
  ∀ m, s.outermostCandidate = some m → m.member ∈ S ∧ m.typeOfMember ∈ S

lemma CandidateIn.visitDerivedType (hS : G.Closed S) {b : UInt64} (ht : t ∈ S)
    {d : DIDerivedType ι} (hd : G.node t = .derivedType d) {s : DestructureComposite ι}
    (hs : CandidateIn S s) :
    CandidateIn S (DestructureComposite.visitDerivedType G b t d s).2 := by
  rw [DestructureComposite.visitDerivedType]
  have hbase := hS.derived ht hd
  have hcandidate (type : ι) (htype : d.baseType = some type) : ∀ m,
      some (⟨t, type⟩ : StructMember ι) = some m → m.member ∈ S ∧ m.typeOfMember ∈ S := by
    rintro _ ⟨⟩
    exact ⟨ht, hbase type htype⟩
  split_ifs
  · exact hs
  · cases htype : d.baseType with
    | none => exact hs
    | some type =>
      dsimp only
      split_ifs <;> exact hcandidate type htype
  · exact hs

lemma keepsAt_candidateIn (hS : G.Closed S) (b : UInt64) :
    (DestructureComposite.visitor G b).KeepsAt G S (CandidateIn S) where
  visitDerivedType _ hn _ hd _ h := h.visitDerivedType hS hn hd

variable [DecidableEq ι]

lemma ensures_memberAt (hS : G.Closed S) (fuel : ℕ) {n : ι} {c : DICompositeType ι} (hn : n ∈ S)
    (hc : G.node n = .compositeType c) (offset : UInt64) :
    Ensures (G.memberAt fuel n c offset) fun r =>
      ∀ m, r = some m → m.member ∈ S ∧ m.typeOfMember ∈ S := by
  rw [memberAt, DestructureComposite.traverse]
  have hkeeps := keepsAt_candidateIn hS offset
  cases ht : (DestructureComposite.visitor G offset).traverseCompositeType
      ((DestructureComposite.visitor G offset).invokeIfAny G fuel) n c ⟨∅, {}⟩ with
  | none => exact .error _
  | some r =>
    have hnone : CandidateIn S ({} : DestructureComposite ι) := fun _ h => by cases h
    have hr : CandidateIn S r.2.callback :=
      hkeeps.traverseCompositeType hS (hkeeps.invokeIfAny hS fuel) hn hc hnone ht
    simp only [Option.map_some]
    split_ifs
    · exact .error _
    · exact .ok hr

lemma ensures_typeOfMemberAt (hS : G.Closed S) (fuel : ℕ) {n : ι} {c : DICompositeType ι}
    (hn : n ∈ S) (hc : G.node n = .compositeType c) (offset : UInt64) :
    Ensures (do return (← G.memberAt fuel n c offset).map (·.typeOfMember)) (Within S) := by
  refine (ensures_memberAt hS fuel hn hc offset).bind fun r hr => .ok ?_
  intro t ht
  obtain ⟨m, hm, rfl⟩ := Option.map_eq_some_iff.mp ht
  exact (hr m hm).2

end DIGraph

/-! ### GEPs -/

/-- What a GEP leads to is in the set. -/
structure GepIndexToType.Within (S : Set ι) (result : GepIndexToType ι) : Prop where
  type : ∀ t, result.type = some t → Dimeta.Within S t
  member : Dimeta.Within S result.member

lemma GepIndexToType.Within.ofType (h : Dimeta.Within S type) :
    GepIndexToType.Within S { type := some type } where
  type := by
    rintro _ ⟨⟩
    exact h
  member := within_none

lemma GepIndexToType.Within.ofMember {e : ι} (h : Dimeta.Within S type) (he : e ∈ S) :
    GepIndexToType.Within S { type := some type, member := some e } where
  type := by
    rintro _ ⟨⟩
    exact h
  member := within_some_iff.mpr he

namespace DIGraph

lemma ensures_getElem (elements : List ι) (index : ℕ) :
    Ensures ((elements[index]?).elim (.error .outOfBounds) .ok : Except Fault ι)
      (· ∈ elements) := by
  cases h : elements[index]? with
  | none => exact .error _
  | some e => exact .ok (List.mem_of_getElem? h)

lemma ensures_selectFirstElement (elements : List ι) :
    Ensures (G.selectFirstElement elements) (· ∈ elements) := by
  match elements with
  | [] => exact .error _
  | [e] => exact .ok List.mem_cons_self
  | e :: next :: es =>
    refine .ok ?_
    rw [selectNonZeroElement]
    split
    · split_ifs <;> simp
    · simp

lemma ensures_gepElement (elements : List ι) (index : ℕ) :
    Ensures (G.gepElement elements index) fun x => x.2 ∈ elements := by
  refine (ensures_getElem elements index).bind fun e he => ?_
  refine Ensures.ite_bind (fun _ => ensures_selectFirstElement elements) (fun _ => .ok he) ?_
  intro element helement
  refine (Ensures.of_true _).bind fun offset _ => ?_
  split_ifs
  · exact (ensures_getElem elements _).bind fun e he => .ok he
  · exact .ok helement

lemma ensures_skipStaticMembers {element : ι} {elements : List ι} (helement : element ∈ S)
    (helements : ∀ e ∈ elements, e ∈ S) :
    Ensures (G.skipStaticMembers element elements) (· ∈ S) := by
  induction elements generalizing element with
  | nil =>
    rw [skipStaticMembers]
    split_ifs
    · exact .error _
    · exact .ok helement
  | cons next elements ih =>
    rw [skipStaticMembers]
    split_ifs
    · exact ih (helements next List.mem_cons_self) fun e he =>
        helements e (List.mem_cons_of_mem _ he)
    · exact .ok helement

lemma ensures_iterateGepIndex (hS : G.Closed S) (fuel : ℕ) {n : ι} {c : DICompositeType ι}
    (hn : n ∈ S) (hc : G.node n = .compositeType c) (indices : List UInt64) :
    Ensures (G.iterateGepIndex fuel c indices) (GepIndexToType.Within S) := by
  induction indices generalizing n c with
  | nil => exact .ok ⟨by simp, within_none⟩
  | cons index indices ih =>
    have helements : ∀ e ∈ c.elements, e ∈ S := fun e he => hS.element hn hc he
    rw [iterateGepIndex]
    refine (ensures_gepElement c.elements _).bind fun indexed helement => ?_
    dsimp only
    split
    · exact .ok (.ofType (hS.composite hn hc))
    · refine (ensures_skipStaticMembers (helements _ helement) fun e he =>
        helements e (List.mem_of_mem_drop he)).bind fun element helement => ?_
      split
      · exact ih hn hc
      · next d hd =>
        have hbase := hS.derived helement (asDerived_eq hd)
        refine (ensures_find hS _ fuel hbase).bind fun type htype => ?_
        refine (ensures_deref htype).bind fun memberType hmemberType => ?_
        have hhere := GepIndexToType.Within.ofMember (within_some_iff.mpr hmemberType) helement
        split
        · next c' hc' =>
          split_ifs
          · exact .ok hhere
          · exact ih hmemberType hc'
          · exact .ok (.ofMember (hS.composite hmemberType hc') helement)
          · exact .ok hhere
        · exact .ok hhere

lemma ensures_skipFirstGepAccess (hS : G.Closed S) (fuel : ℕ) {n : ι} {c : DICompositeType ι}
    (hn : n ∈ S) (hc : G.node n = .compositeType c) :
    Ensures (G.skipFirstGepAccess fuel n c) (G.CompositeIn S) := by
  induction fuel generalizing n c with
  | zero => exact .error _
  | succ fuel ih =>
    rw [skipFirstGepAccess]
    split
    · refine (ensures_selectFirstElement c.elements).bind fun e he => ?_
      have helement : Within S (if (G.node e).isType then some e else none) := by
        split_ifs
        · exact within_some_iff.mpr (hS.element hn hc he)
        · exact within_none
      refine (ensures_find hS _ fuel helement).bind fun type htype => ?_
      refine (ensures_deref htype).bind fun next hnext => ?_
      split
      · next c' hc' => exact ih hnext hc'
      · exact .ok ⟨hn, hc⟩
    · exact .ok ⟨hn, hc⟩

lemma ensures_resolveGepIndexToType [DecidableEq ι] (hS : G.Closed S) (fuel : ℕ) {n : ι}
    {c : DICompositeType ι} (hn : n ∈ S) (hc : G.node n = .compositeType c)
    (gepIndices : GepIndices) :
    Ensures (G.resolveGepIndexToType fuel n c gepIndices) (GepIndexToType.Within S) := by
  have hself : GepIndexToType.Within S { type := some (some n) } := .ofType (within_some_iff.mpr hn)
  rw [resolveGepIndexToType]
  split
  · split
    · exact .ok (.ofType (hS.composite hn hc))
    · exact .ok hself
  · next index _ _ =>
    split
    · refine (ensures_memberAt hS fuel hn hc index).bind fun r hr => ?_
      cases r with
      | none => exact .ok hself
      | some m =>
        obtain ⟨hmember, htype⟩ := hr m rfl
        exact .ok (.ofMember (within_some_iff.mpr htype) hmember)
    · split
      · refine (ensures_skipFirstGepAccess hS fuel hn hc).bind fun x hx => ?_
        exact ensures_iterateGepIndex hS fuel hx.mem hx.node _
      · exact ensures_iterateGepIndex hS fuel hn hc _

end DIGraph

section OfModule

variable {M : IRModule ι ν}

/-- The declared results of inlined functions are in the set. -/
def ResultsIn (M : IRModule ι ν) (S : Set ι) : Prop :=
  ∀ v location s result types, M.debugLoc v = some location → location.scope = .subprogram s →
    s.typeArray = some result :: types → result ∈ S

lemma tryResolveInlinedDebugLoc_eq {v : ν} {gep : GEPOperator ν} {location : DebugLoc ι}
    (h : tryResolveInlinedDebugLoc M v gep = some location) :
    ∃ v, M.debugLoc v = some location := by
  rw [tryResolveInlinedDebugLoc, Option.filter_eq_some_iff] at h
  obtain ⟨h, -⟩ := h
  split_ifs at h
  · exact ⟨v, h⟩
  · exact ⟨_, h⟩

lemma ensures_tryResolveInlinedOperator (hS : G.Closed S) (hresults : ResultsIn M S) (fuel : ℕ)
    (v : ν) (gep : GEPOperator ν) :
    Ensures (tryResolveInlinedOperator G M fuel v gep) fun r =>
      ∀ result, r = some result → GepIndexToType.Within S result := by
  have hresult : Ensures (inlinedReturnType M v gep) (Within S) := by
    rw [inlinedReturnType]
    split
    · exact .ok within_none
    · next location hlocation =>
      obtain ⟨v, hv⟩ := tryResolveInlinedDebugLoc_eq hlocation
      split
      · exact .error _
      · next s hs =>
        split
        · next result types htypes =>
          exact .ok (within_some_iff.mpr (hresults v location s result types hv hs htypes))
        · exact .ok within_none
  refine hresult.bind fun r hr => ?_
  split
  · exact .ok (by simp)
  · refine (DIGraph.ensures_find hS _ fuel hr).bind fun type htype => .ok ?_
    rintro _ ⟨⟩
    exact .ofType htype

variable [DecidableEq ι]

lemma ensures_extractGepOfComposite (hS : G.Closed S) (fuel : ℕ) {root : ι} (hroot : root ∈ S)
    {x : ι × DICompositeType ι} (hx : G.CompositeIn S x) (gep : GEPOperator ν) :
    Ensures (extractGepOfComposite G fuel root x.1 x.2 gep) (GepIndexToType.Within S) := by
  refine (Ensures.of_true _).bind fun firstNonZero _ => ?_
  dsimp only
  split
  · next d hd =>
    split
    · exact .ok (.ofType (hS.derived hroot (DIGraph.asDerived_eq hd)))
    · exact DIGraph.ensures_resolveGepIndexToType hS fuel hx.mem hx.node _
  · exact DIGraph.ensures_resolveGepIndexToType hS fuel hx.mem hx.node _

lemma ensures_extractGepDereferencedType (hS : G.Closed S) (hresults : ResultsIn M S) (fuel : ℕ)
    (htype : Within S type) (v : ν) (gep : GEPOperator ν) :
    Ensures (extractGepDereferencedType G M fuel type v gep) (GepIndexToType.Within S) := by
  refine (DIGraph.ensures_find hS _ fuel htype).bind fun base hbase => ?_
  refine (ensures_tryResolveInlinedOperator hS hresults fuel v gep).bind fun r hr => ?_
  split
  · next result => exact .ok (hr result rfl)
  · split
    · exact .ok (.ofType htype)
    · split
      · exact .ok (.ofType htype)
      · refine (ensures_deref htype).bind fun root hroot => ?_
        refine (Ensures.of_true _).bind fun baseIsPointer _ => ?_
        split
        · exact .ok (.ofType (within_some_iff.mpr hroot))
        · refine (ensures_deref_eq _).bind fun x hx => ?_
          obtain ⟨n, hn, hx⟩ := Option.bind_eq_some_iff.mp hx
          have hx := DIGraph.compositeIn_of_composite (hbase n hn) hx
          dsimp only
          split
          · exact .ok (.ofType (within_some_iff.mpr hroot))
          · exact ensures_extractGepOfComposite hS fuel hroot hx gep

/-! ### The walk -/

lemma ensures_tryResolveToFirstMember (hS : G.Closed S) (fuel : ℕ) (ht : t ∈ S) :
    Ensures (tryResolveToFirstMember G fuel t) (Within S) := by
  refine (DIGraph.ensures_desugar hS fuel ht).bind fun r hr => ?_
  rcases r with _ | ⟨n, c⟩
  · exact .ok within_none
  · obtain ⟨hn, hc⟩ := hr (n, c) rfl
    exact DIGraph.ensures_typeOfMemberAt hS fuel hn hc 0

omit [DecidableEq ι] in
lemma ensures_arrayMemberElement (hS : G.Closed S) (ht : t ∈ S) :
    Ensures (arrayMemberElement G t) (Within S) := by
  refine (Ensures.of_true _).bind fun isArrayMember _ => ?_
  split
  · refine (ensures_deref_eq _).bind fun d hd => ?_
    refine (ensures_deref (hS.derived ht (DIGraph.asDerived_eq hd))).bind fun base hbase => ?_
    refine (ensures_deref_eq _).bind fun c hc => ?_
    exact .ok (hS.composite hbase (DIGraph.asComposite_eq hc))
  · exact .ok within_none

lemma ensures_storeToFirstMember (hS : G.Closed S) (fuel : ℕ) (ht : t ∈ S) (pointer : ν) :
    Ensures (storeToFirstMember G M fuel t pointer) (Within S) := by
  refine (DIGraph.ensures_desugar hS fuel ht).bind fun r hr => ?_
  rcases r with _ | ⟨n, c⟩
  · exact (Ensures.of_true _).bind fun _ _ => .ok within_none
  · obtain ⟨hn, hc⟩ := hr (n, c) rfl
    refine (Ensures.of_true _).bind fun isNonPointerMember _ => ?_
    split
    · exact DIGraph.ensures_typeOfMemberAt hS fuel hn hc 0
    · exact .ok within_none

omit [DecidableEq ι] in
lemma ensures_storeToArrayMember (hS : G.Closed S) {d : DIDerivedType ι}
    (hd : Within S d.baseType) : Ensures (storeToArrayMember G d) (Within S) := by
  refine (ensures_deref hd).bind fun base hbase => ?_
  split
  · next c hc =>
    split
    · refine (ensures_deref (hS.composite hbase hc)).bind fun element helement => .ok ?_
      apply within_some_iff.mpr
      split_ifs
      · exact helement
      · exact hbase
    · exact .ok within_none
  · exact .ok within_none

omit [DecidableEq ι] in
lemma ensures_storeToPointer (ht : t ∈ S) {d : DIDerivedType ι} (hd : Within S d.baseType) :
    Ensures (storeToPointer G t d) (Within S) := by
  rw [storeToPointer]
  split
  · refine (ensures_deref hd).bind fun base hbase => .ok ?_
    apply within_some_iff.mpr
    split_ifs
    · exact hbase
    · exact ht
  · exact .ok (within_some_iff.mpr ht)

lemma ensures_resetStoreRelatedBasic (hS : G.Closed S) (fuel : ℕ) (htype : Within S type)
    (pointer : ν) : Ensures (resetStoreRelatedBasic G M fuel type pointer) (Within S) := by
  rw [resetStoreRelatedBasic]
  split
  · exact .ok htype
  · refine (ensures_deref htype).bind fun t ht => ?_
    split
    · exact .ok (hS.typeRef ht)
    · refine (Ensures.of_true _).bind fun arrayMember _ => ?_
      have hfirst : Ensures (if arrayMember then .ok none
          else storeToFirstMember G M fuel t pointer) (Within S) := by
        split
        · exact .ok within_none
        · exact ensures_storeToFirstMember hS fuel ht pointer
      refine hfirst.bind fun resolved hresolved => ?_
      split
      · exact .ok hresolved
      · split
        · exact .ok (within_some_iff.mpr ht)
        · next d hd =>
          have hbase := hS.derived ht (DIGraph.asDerived_eq hd)
          have harray : Ensures (if arrayMember then storeToArrayMember G d else .ok none)
              (Within S) := by
            split
            · exact ensures_storeToArrayMember hS hbase
            · exact .ok within_none
          refine harray.bind fun resolved hresolved => ?_
          split
          · exact .ok hresolved
          · split
            · exact .ok hbase
            · exact ensures_storeToPointer ht hbase

variable [DecidableEq ν]

lemma ensures_resetLoadRelatedBasic (hS : G.Closed S) (fuel : ℕ) (path : ValuePath ν)
    (htype : Within S type) (load pointer : ν) :
    Ensures (resetLoadRelatedBasic G M fuel path type load pointer) (Within S) := by
  rw [resetLoadRelatedBasic]
  split
  · exact .ok htype
  · split
    · exact .ok htype
    · refine (ensures_deref htype).bind fun t ht => ?_
      refine (ensures_arrayMemberElement hS ht).bind fun element helement => ?_
      split
      · exact .ok helement
      · refine Ensures.ite_bind (fun _ => ensures_tryResolveToFirstMember hS fuel ht)
          (fun _ => .ok within_none) fun first hfirst => ?_
        cases first with
        | some resolved => exact .ok hfirst
        | none =>
          dsimp only
          split
          · next d hd => exact .ok (hS.derived ht (DIGraph.asDerived_eq hd))
          · exact .ok (within_some_iff.mpr ht)

omit [DecidableEq ι] [DecidableEq ν] in
lemma GepIndexToType.Within.resets {result : GepIndexToType ι} (h : GepIndexToType.Within S result)
    (htype : Dimeta.Within S type) : Dimeta.Within S (result.resets type) := by
  obtain ⟨t, m, useType⟩ := result
  cases m with
  | none =>
    cases t with
    | none => exact htype
    | some t => exact h.type t rfl
  | some m =>
    cases useType with
    | false => exact h.member
    | true =>
      cases t with
      | none => exact htype
      | some t => exact h.type t rfl

/-- One value of the path. -/
lemma ensures_resetDitype (hS : G.Closed S) (hresults : ResultsIn M S) (fuel : ℕ)
    (path : ValuePath ν) (htype : Within S type) (v : ν) :
    Ensures (resetDitype G M fuel path type v) (Within S) := by
  have hgep (gep : GEPOperator ν)
      (hv : M.value v = .getElementPtr gep ∨ M.value v = .constantGEP gep) :
      Ensures (resetDitype G M fuel path type v) (Within S) := by
    cases hdescriptor : isFortranDescriptor gep.sourceElementType with
    | true =>
      rw [resetDitype]
      rcases hv with hv | hv
      all_goals
        rw [hv]
        simp only [hdescriptor, if_true]
        exact .ok htype
    | false =>
      have hextract := ensures_extractGepDereferencedType hS hresults fuel htype v gep
      cases hresult : extractGepDereferencedType G M fuel type v gep with
      | error e =>
        rw [resetDitype_gep_error G M hv hdescriptor hresult]
        exact .error e
      | ok result =>
        rw [resetDitype_gep G M hv hdescriptor hresult]
        exact .ok ((hextract result hresult).resets htype)
  cases hv : M.value v with
  | getElementPtr gep => exact hgep gep (.inl hv)
  | constantGEP gep => exact hgep gep (.inr hv)
  | load pointer =>
    rw [resetDitype, hv]
    exact ensures_resetLoadRelatedBasic hS fuel path htype v pointer
  | store value pointer =>
    rw [resetDitype, hv]
    exact ensures_resetStoreRelatedBasic hS fuel htype pointer
  | argument | globalVariable | constantInt | constantBitCast | constantExpr | constant | alloca
  | bitCast | sext | phi | call | ret | instruction =>
    rw [resetDitype, hv]
    exact .ok htype

/-- The type walk does not leave the set. -/
theorem ensures_resetAlong (hS : G.Closed S) (hresults : ResultsIn M S) (fuel : ℕ)
    (path : ValuePath ν) (htype : Within S type) (vs : List ν) :
    Ensures (resetAlong G M fuel path type vs) (Within S) :=
  Ensures.foldlM (fun _ v h => ensures_resetDitype hS hresults fuel path h v) htype vs

end OfModule

end Dimeta
