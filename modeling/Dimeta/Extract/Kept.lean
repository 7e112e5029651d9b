import Dimeta.Extract.Nowhere

/-!
# Types that the walk keeps

A walk that does not fail ends in a type, unless the type is missing somewhere and no inlined
operator behind declares another one. It is missing where the root has none, and behind a load or a
store that finds none and a GEP that leads nowhere.
-/

set_option autoImplicit false

namespace Dimeta

variable {ι ν : Type} [DecidableEq ι] [DecidableEq ν]

section

variable (G : DIGraph ι) (M : IRModule ι ν)

/-- The GEP was inlined from an operator with a declared result, which leads to a type. -/
def Redeclares (v : ν) : Prop :=
  ∃ gep result type, (M.value v).gepOperator = some gep ∧
    isFortranDescriptor gep.sourceElementType = false ∧
    inlinedReturnType M v gep = .ok (some result) ∧
    G.LeadsTo isPlainPointer (some result) (some type)

/-- The type is lost at the value: a GEP into no descriptor leads nowhere, a load, from no variable,
is of a type that refers to none, and a store, to no variable, to an array without a type of its
elements. -/
def LosesType (t : ι) (v : ν) : Prop :=
  match M.value v with
  | .getElementPtr gep | .constantGEP gep =>
    isFortranDescriptor gep.sourceElementType = false ∧ GepLeadsNowhere G M False t v gep
  | .load pointer =>
    accessTo M LLValue.isSlot pointer = false ∧ loadOfDescriptor M pointer = false ∧
      ∃ d, G.node t = .derivedType d ∧ d.baseType = none
  | .store _ pointer =>
    accessTo M LLValue.isSlot pointer = false ∧ (G.node t).isArray = true ∧
      (G.node t).typeRef = none
  | _ => False

/-- The type is missing behind the values that were walked: none led to one yet, or the last one
loses it. -/
def MissingAfter (fuel : ℕ) (path : ValuePath ν) (root : Option ι) (walked : List ν) : Prop :=
  walked = [] ∧ root = none ∨
    ∃ before v t, walked = before ++ [v] ∧
      resetAlong G M fuel path root before = .ok (some t) ∧ LosesType G M t v

end

variable {G : DIGraph ι} {M : IRModule ι ν} {fuel : ℕ} {path : ValuePath ν} {v pointer : ν}
  {t : ι} {r : Option ι}

/-! ### One value -/

omit [DecidableEq ν] in
/-- Where the type is missing, only an inlined operator leads to one. -/
lemma isSome_of_extractGep_iff {gep : GEPOperator ν} {result : GepIndexToType ι}
    (h : extractGepDereferencedType G M fuel none v gep = .ok result) :
    (result.resets none).isSome ↔ ∃ s type, inlinedReturnType M v gep = .ok (some s) ∧
      G.LeadsTo isPlainPointer (some s) (some type) := by
  simp only [extractGepDereferencedType, bind_eq_ok] at h
  obtain ⟨base, -, inlined, hinlined, h⟩ := h
  simp only [tryResolveInlinedOperator, bind_eq_ok] at hinlined
  obtain ⟨declared, hdeclared, hinlined⟩ := hinlined
  rw [hdeclared]
  cases declared with
  | none =>
    cases hinlined
    refine iff_of_false ?_ (by simp)
    simp only at h
    split_ifs at h
    · cases h
      simp [GepIndexToType.resets]
    · cases h
      simp [GepIndexToType.resets]
    · cases h
  | some s =>
    simp only [bind_eq_ok] at hinlined
    obtain ⟨type, htype, hinlined⟩ := hinlined
    cases hinlined
    cases h
    have hleads := DIGraph.leadsTo_of_find htype
    cases type with
    | none =>
      refine iff_of_false (by simp [GepIndexToType.resets]) ?_
      rintro ⟨s', type, hs, hleads'⟩
      cases hs
      cases hleads.unique hleads'
    | some type =>
      exact iff_of_true (by simp [GepIndexToType.resets]) ⟨s, type, rfl, hleads⟩

lemma isSome_of_resetDitype_none_iff (h : resetDitype G M fuel path none v = .ok r) :
    r.isSome ↔ Redeclares G M v := by
  have hgep : ∀ gep, M.value v = .getElementPtr gep ∨ M.value v = .constantGEP gep →
      (r.isSome ↔ Redeclares G M v) := by
    intro gep hv
    have hoperator : (M.value v).gepOperator = some gep := by
      rcases hv with hv | hv <;> rw [hv] <;> rfl
    cases hdescriptor : isFortranDescriptor gep.sourceElementType with
    | true =>
      rw [resetDitype] at h
      rcases hv with hv | hv <;>
      · rw [hv] at h
        simp only [hdescriptor, if_true] at h
        cases h
        refine iff_of_false (by simp) ?_
        rintro ⟨gep', -, -, hgep', hnot, -⟩
        rw [hoperator] at hgep'
        cases hgep'
        rw [hdescriptor] at hnot
        cases hnot
    | false =>
      cases hextract : extractGepDereferencedType G M fuel none v gep with
      | error e =>
        rw [resetDitype_gep_error G M hv hdescriptor hextract] at h
        cases h
      | ok result =>
        rw [resetDitype_gep G M hv hdescriptor hextract] at h
        cases h
        rw [isSome_of_extractGep_iff hextract]
        constructor
        · rintro ⟨s, type, hs, hleads⟩
          exact ⟨gep, s, type, hoperator, hdescriptor, hs, hleads⟩
        · rintro ⟨gep', s, type, hgep', -, hs, hleads⟩
          rw [hoperator] at hgep'
          cases hgep'
          exact ⟨s, type, hs, hleads⟩
  have hother : (M.value v).gepOperator = none → r = none → (r.isSome ↔ Redeclares G M v) := by
    rintro hoperator rfl
    refine iff_of_false (by simp) ?_
    rintro ⟨gep, -, -, hgep', -⟩
    rw [hoperator] at hgep'
    cases hgep'
  cases hv : M.value v with
  | getElementPtr gep => exact hgep gep (.inl hv)
  | constantGEP gep => exact hgep gep (.inr hv)
  | load pointer =>
    refine hother (by rw [hv]; rfl) ?_
    simp only [resetDitype, hv, resetLoadRelatedBasic] at h
    split_ifs at h
    · exact (Except.ok.inj h).symm
    · exact (Except.ok.inj h).symm
    · cases h
  | store value pointer =>
    refine hother (by rw [hv]; rfl) ?_
    simp only [resetDitype, hv, resetStoreRelatedBasic] at h
    split_ifs at h
    · exact (Except.ok.inj h).symm
    · cases h
  | alloca | argument | globalVariable | constantInt | constantBitCast | constantExpr | constant
  | bitCast | sext | phi | call | ret | instruction =>
    refine hother (by rw [hv]; rfl) ?_
    simp only [resetDitype, hv] at h
    exact (Except.ok.inj h).symm

omit [DecidableEq ι] [DecidableEq ν] in
/-- The base type of a member is looked at. -/
lemma baseType_ne_none_of_isArrayMember {b : Bool} {d : DIDerivedType ι}
    (h : G.isArrayMember t = .ok b) (hmember : (G.node t).isMember = true)
    (ht : G.node t = .derivedType d) : d.baseType ≠ none := by
  intro hbase
  have hderived : (G.node t).asDerived = some d := by rw [ht]; rfl
  rw [DIGraph.isArrayMember, if_pos hmember, hderived] at h
  simp only [deref, ok_bind, hbase] at h
  cases h

omit [DecidableEq ι] [DecidableEq ν] in
lemma baseType_ne_none_of_arrayMemberElement {u : ι} {d : DIDerivedType ι}
    (h : arrayMemberElement G t = .ok (some u)) (ht : G.node t = .derivedType d) :
    d.baseType ≠ none := by
  simp only [arrayMemberElement, bind_eq_ok] at h
  obtain ⟨b, hb, h⟩ := h
  cases b with
  | false => cases h
  | true =>
    apply baseType_ne_none_of_isArrayMember hb ?_ ht
    rw [DIGraph.isArrayMember] at hb
    split_ifs at hb with hmember
    · exact hmember
    · cases hb

/-- There is no member behind a type that refers to none. -/
lemma baseType_ne_none_of_tryResolve {u : ι} {d : DIDerivedType ι}
    (h : tryResolveToFirstMember G fuel t = .ok (some u)) (ht : G.node t = .derivedType d) :
    d.baseType ≠ none := by
  intro hbase
  simp only [tryResolveToFirstMember, bind_eq_ok] at h
  obtain ⟨found, hfound, h⟩ := h
  rw [DIGraph.desugar_of_null ht hbase ⟨found, hfound⟩] at hfound
  cases hfound
  cases h

/-- A load that does not fail loses the type exactly if that refers to none. -/
lemma resetLoad_eq_none_iff {load : ν}
    (h : resetLoadRelatedBasic G M fuel path (some t) load pointer = .ok r) :
    r = none ↔ accessTo M LLValue.isSlot pointer = false ∧ loadOfDescriptor M pointer = false ∧
      ∃ d, G.node t = .derivedType d ∧ d.baseType = none := by
  rw [resetLoadRelatedBasic] at h
  cases hslot : accessTo M LLValue.isSlot pointer with
  | true =>
    rw [hslot, if_pos rfl] at h
    cases h
    simp
  | false =>
    cases hdescriptor : loadOfDescriptor M pointer with
    | true =>
      rw [hslot, hdescriptor, if_neg Bool.false_ne_true, if_pos rfl] at h
      cases h
      simp
    | false =>
      simp only [hslot, hdescriptor, Bool.false_eq_true, if_false, deref, ok_bind, bind_eq_ok] at h
      obtain ⟨element, helement, h⟩ := h
      simp only [true_and]
      cases element with
      | some u =>
        cases h
        refine iff_of_false (Option.some_ne_none u) ?_
        rintro ⟨d, ht, hbase⟩
        exact baseType_ne_none_of_arrayMemberElement helement ht hbase
      | none =>
        cases ht : G.node t with
        | derivedType d =>
          simp only [ht, DINode.asDerived] at h
          suffices hr : r = d.baseType ∨ r ≠ none ∧ d.baseType ≠ none by
            rcases hr with rfl | ⟨hr, hbase⟩
            · simp
            · simpa [hr] using hbase
          split_ifs at h with hfirst
          · obtain ⟨first, hfirst, h⟩ := bind_eq_ok.mp h
            cases first with
            | some u =>
              cases h
              exact .inr ⟨Option.some_ne_none u, baseType_ne_none_of_tryResolve hfirst ht⟩
            | none => exact .inl (Except.ok.inj h).symm
          · exact .inl (Except.ok.inj h).symm
        | _ =>
          refine iff_of_false ?_ (by simp)
          simp only [ht, DINode.asDerived] at h
          split_ifs at h with hfirst
          · obtain ⟨first, -, h⟩ := bind_eq_ok.mp h
            cases first with
            | some u =>
              cases h
              exact Option.some_ne_none u
            | none =>
              cases h
              exact Option.some_ne_none t
          · cases h
            exact Option.some_ne_none t

omit [DecidableEq ν] in
/-- A store that does not fail loses the type exactly if that is an array without a type of its
elements. -/
lemma resetStore_eq_none_iff
    (h : resetStoreRelatedBasic G M fuel (some t) pointer = .ok r) :
    r = none ↔ accessTo M LLValue.isSlot pointer = false ∧ (G.node t).isArray = true ∧
      (G.node t).typeRef = none := by
  rw [resetStoreRelatedBasic] at h
  cases hslot : accessTo M LLValue.isSlot pointer with
  | true =>
    rw [hslot, if_pos rfl] at h
    cases h
    simp
  | false =>
    simp only [hslot, Bool.false_eq_true, if_false, deref, ok_bind] at h
    by_cases harray : (G.node t).isArray = true
    · rw [if_pos harray] at h
      cases h
      simp [harray]
    · rw [if_neg harray] at h
      simp only [bind_eq_ok] at h
      obtain ⟨arrayMember, hmember, first, -, h⟩ := h
      refine iff_of_false ?_ fun hnone => harray hnone.2.1
      cases first with
      | some u =>
        cases h
        exact Option.some_ne_none u
      | none =>
        cases ht : G.node t with
        | derivedType d =>
          rw [ht] at h
          simp only [DINode.asDerived, bind_eq_ok] at h
          obtain ⟨element, -, h⟩ := h
          cases element with
          | some u =>
            cases h
            exact Option.some_ne_none u
          | none =>
            simp only at h
            split_ifs at h with hnonstatic
            · cases h
              exact baseType_ne_none_of_isArrayMember hmember
                (isMember_of_isNonStaticMember (ht ▸ hnonstatic)) ht
            · rw [storeToPointer] at h
              split_ifs at h
              · simp only [bind_eq_ok] at h
                obtain ⟨base, -, h⟩ := h
                cases h
                exact Option.some_ne_none _
              · cases h
                exact Option.some_ne_none t
        | _ =>
          rw [ht] at h
          cases h
          exact Option.some_ne_none t

lemma resetDitype_eq_none_iff (h : resetDitype G M fuel path (some t) v = .ok r) :
    r = none ↔ LosesType G M t v := by
  have hgep : ∀ gep, M.value v = .getElementPtr gep ∨ M.value v = .constantGEP gep →
      (r = none ↔ isFortranDescriptor gep.sourceElementType = false ∧
        GepLeadsNowhere G M False t v gep) := by
    intro gep hv
    cases hdescriptor : isFortranDescriptor gep.sourceElementType with
    | true =>
      rw [resetDitype] at h
      rcases hv with hv | hv <;>
      · rw [hv] at h
        simp only [hdescriptor, if_true] at h
        cases h
        simp
    | false =>
      cases hextract : extractGepDereferencedType G M fuel (some t) v gep with
      | error e =>
        rw [resetDitype_gep_error G M hv hdescriptor hextract] at h
        cases h
      | ok result =>
        rw [resetDitype_gep G M hv hdescriptor hextract] at h
        cases h
        rw [GepIndexToType.resets_eq_none_iff, extractGep_leadsNowhere_iff hextract,
          and_iff_right rfl]
  rw [LosesType]
  cases hv : M.value v with
  | getElementPtr gep => exact hgep gep (.inl hv)
  | constantGEP gep => exact hgep gep (.inr hv)
  | load pointer =>
    simp only [resetDitype, hv] at h
    exact resetLoad_eq_none_iff h
  | store value pointer =>
    simp only [resetDitype, hv] at h
    exact resetStore_eq_none_iff h
  | alloca | argument | globalVariable | constantInt | constantBitCast | constantExpr | constant
  | bitCast | sext | phi | call | ret | instruction =>
    simp only [resetDitype, hv] at h
    cases h
    simp

/-! ### Walks -/

lemma missingAfter_nil_iff {root : Option ι} :
    MissingAfter G M fuel path root [] ↔ root = none := by
  constructor
  · rintro (⟨-, hroot⟩ | ⟨before, v, -, hnil, -⟩)
    · exact hroot
    · exact absurd hnil.symm (List.append_ne_nil_of_right_ne_nil _ (List.cons_ne_nil v []))
  · exact fun hroot => .inl ⟨rfl, hroot⟩

lemma missingAfter_concat_iff {root type : Option ι} {walked : List ν}
    (h : resetAlong G M fuel path root walked = .ok type) :
    MissingAfter G M fuel path root (walked ++ [v]) ↔
      ∃ t, type = some t ∧ LosesType G M t v := by
  constructor
  · rintro (⟨hnil, -⟩ | ⟨before, w, t, hsplit, hbefore, hlost⟩)
    · exact absurd hnil (List.append_ne_nil_of_right_ne_nil _ (List.cons_ne_nil v []))
    · obtain ⟨rfl, hvw⟩ := List.append_inj' hsplit rfl
      cases hvw
      rw [h] at hbefore
      exact ⟨t, Except.ok.inj hbefore, hlost⟩
  · rintro ⟨t, rfl, hlost⟩
    exact .inr ⟨walked, v, t, rfl, h, hlost⟩

/-- A walk that does not fail has a type at its end exactly if each time that the type is missing,
an inlined operator behind declares another one. -/
theorem isSome_of_resetAlong_iff {root : Option ι} {vs : List ν}
    (h : resetAlong G M fuel path root vs = .ok r) :
    r.isSome ↔ ∀ walked rest, vs = walked ++ rest → MissingAfter G M fuel path root walked →
      ∃ v ∈ rest, Redeclares G M v := by
  induction vs using List.reverseRecOn generalizing r with
  | nil =>
    cases h
    constructor
    · intro hroot walked rest hsplit hmissing
      obtain ⟨rfl, rfl⟩ := List.append_eq_nil_iff.mp hsplit.symm
      rw [missingAfter_nil_iff.mp hmissing] at hroot
      cases hroot
    · intro hregained
      rw [Option.isSome_iff_ne_none]
      intro hroot
      obtain ⟨v, hv, -⟩ := hregained [] [] rfl (missingAfter_nil_iff.mpr hroot)
      cases hv
  | append_singleton vs v ih =>
    rw [resetAlong_snoc, bind_eq_ok] at h
    obtain ⟨type, htype, h⟩ := h
    have hconcat := missingAfter_concat_iff (v := v) htype
    have hbefore := ih htype
    cases type with
    | none =>
      -- only the last value may lead to a type
      rw [isSome_of_resetDitype_none_iff h]
      constructor
      · intro hv walked rest hsplit hmissing
        rcases List.eq_nil_or_concat' rest with rfl | ⟨rest, w, rfl⟩
        · rw [List.append_nil] at hsplit
          rw [← hsplit, hconcat] at hmissing
          obtain ⟨t, ht, -⟩ := hmissing
          cases ht
        · rw [← List.append_assoc] at hsplit
          obtain ⟨-, hvw⟩ := List.append_inj' hsplit rfl
          cases hvw
          exact ⟨v, by simp, hv⟩
      · intro hregained
        by_contra hv
        refine absurd (hbefore.mpr fun walked rest hsplit hmissing => ?_) (by simp)
        obtain ⟨w, hw, hredeclares⟩ := hregained walked (rest ++ [v])
          (by rw [hsplit, List.append_assoc]) hmissing
        rcases List.mem_append.mp hw with hw | hw
        · exact ⟨w, hw, hredeclares⟩
        · obtain rfl := List.mem_singleton.mp hw
          exact absurd hredeclares hv
    | some t =>
      -- it is missing at the end if the last value loses it
      rw [Option.isSome_iff_ne_none, ne_eq, resetDitype_eq_none_iff h]
      constructor
      · intro hv walked rest hsplit hmissing
        rcases List.eq_nil_or_concat' rest with rfl | ⟨rest, w, rfl⟩
        · rw [List.append_nil] at hsplit
          rw [← hsplit, hconcat] at hmissing
          obtain ⟨t', ht, hlost⟩ := hmissing
          cases ht
          exact absurd hlost hv
        · rw [← List.append_assoc] at hsplit
          obtain ⟨hvs, -⟩ := List.append_inj' hsplit rfl
          obtain ⟨w', hw', hredeclares⟩ := hbefore.mp rfl walked rest hvs hmissing
          exact ⟨w', List.mem_append_left _ hw', hredeclares⟩
      · intro hregained hlost
        obtain ⟨w, hw, -⟩ := hregained (vs ++ [v]) [] (by simp) (hconcat.mpr ⟨t, rfl, hlost⟩)
        cases hw

end Dimeta
