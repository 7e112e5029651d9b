import Dimeta.Extract.Nulls

/-!
# Loads and stores of missing types

A load and a store reset the type without looking at a missing type, and to a type that is not
missing, exactly if what they look at is there: mostly the base type of a derived type.
-/

set_option autoImplicit false

namespace Dimeta

variable {ι ν : Type}

namespace DIGraph

variable (G : DIGraph ι)

/-- A load looks at something missing: at the base type of a derived type, at the elements of a
member whose type has the tag of an array, or at the base type of a member that has none. -/
def LoadMeetsNull (t : ι) : Prop :=
  match G.node t with
  | .derivedType d =>
    match d.baseType with
    | none   => True
    | some b => (G.node t).isMember = true ∧ (G.node b).tag = .arrayType ∧
      (G.node b).asComposite = none
  | x => x.isMember = true

/-- A store looks at something missing: at the base type of a pointer or member, or at the type of
the elements of an array or of a member that is an array. -/
def StoreMeetsNull (t : ι) : Prop :=
  match G.node t with
  | .derivedType d =>
    match d.baseType with
    | none   => (G.node t).isMember = true ∨ (G.node t).isPointer = true
    | some b => (G.node t).isMember = true ∧
      ∃ c, G.node b = .compositeType c ∧ c.tag = .arrayType ∧ c.baseType = none
  | .compositeType c =>
    if c.tag = .arrayType then c.baseType = none else (G.node t).isMember = true
  | x => x.isMember = true

variable {G} {t : ι}

/-! ### Composites behind a type -/

lemma eq_of_composite {n : ι} {c : DICompositeType ι} (h : G.composite t = some (n, c)) :
    G.node n = .compositeType c := by
  rw [composite, Option.map_eq_some_iff] at h
  obtain ⟨c', hc, heq⟩ := h
  cases heq
  cases hn : G.node t <;> rw [hn] at hc <;> cases hc
  rfl

lemma node_of_desugar {fuel : ℕ} {n : ι} {c : DICompositeType ι}
    (h : G.desugar fuel t = .ok (some (n, c))) : G.node n = .compositeType c := by
  rw [desugar, bind_eq_ok] at h
  obtain ⟨type, -, h⟩ := h
  cases type with
  | none => cases h
  | some t => exact eq_of_composite (Except.ok.inj h)

/-- Without a base type there is no composite. -/
lemma desugar_of_null {fuel : ℕ} {d : DIDerivedType ι} (ht : G.node t = .derivedType d)
    (hbase : d.baseType = none) (h : ∃ r, G.desugar fuel t = .ok r) :
    G.desugar fuel t = .ok none := by
  match fuel, h with
  | 0, ⟨_, h⟩ => cases h
  | 1, ⟨_, h⟩ =>
    rw [desugar] at h
    simp only [desugarLoop, ht] at h
    cases h
  | fuel + 2, _ =>
    rw [desugar]
    simp only [desugarLoop, ht, hbase]
    rfl

end DIGraph

section

variable {G : DIGraph ι} {M : IRModule ι ν} {t : ι} {fuel : ℕ} [DecidableEq ι]

lemma DIGraph.Suffices.exists_memberAt_desugar (h : G.Suffices fuel) {n : ι} {c : DICompositeType ι}
    (hdesugar : G.desugar fuel t = .ok (some (n, c))) :
    ∃ r, G.memberAt fuel n c 0 = .ok r :=
  h.members n c 0 (DIGraph.node_of_desugar hdesugar)

/-- The first member can always be looked up, and there is none without a base type. -/
lemma DIGraph.Suffices.exists_tryResolve (h : G.Suffices fuel) (t : ι) :
    ∃ r, tryResolveToFirstMember G fuel t = .ok r ∧
      ∀ d, G.node t = .derivedType d → d.baseType = none → r = none := by
  have hdesugar := h.desugars t
  cases hr : hdesugar.choose with
  | none =>
    have hnone := hdesugar.choose_spec
    rw [hr] at hnone
    refine ⟨none, ?_, fun _ _ _ => rfl⟩
    rw [tryResolveToFirstMember, hnone]
    rfl
  | some nc =>
    obtain ⟨n, c⟩ := nc
    have hsome := hdesugar.choose_spec
    rw [hr] at hsome
    obtain ⟨first, hfirst⟩ := h.exists_memberAt_desugar hsome
    refine ⟨first.map (·.typeOfMember), ?_, fun d ht hbase => ?_⟩
    · rw [tryResolveToFirstMember, hsome]
      show (G.memberAt fuel n c 0 >>= _) = _
      rw [hfirst]
      rfl
    · have hnull := DIGraph.desugar_of_null ht hbase hdesugar
      rw [hsome] at hnull
      cases hnull

/-! ### Loads -/

omit [DecidableEq ι] in
lemma noNull_arrayMemberElement_iff {P : Option ι → Prop} :
    NoNull (arrayMemberElement G t) P ↔
      if (G.node t).isMember then ∃ d b, (G.node t).asDerived = some d ∧ d.baseType = some b ∧
        if (G.node b).tag = .arrayType then ∃ c, (G.node b).asComposite = some c ∧ P c.baseType
        else P none
      else P none := by
  rw [arrayMemberElement, NoNull.bind_iff, DIGraph.noNull_isArrayMember_iff]
  cases hmember : (G.node t).isMember with
  | false => exact Iff.rfl
  | true =>
    simp only [if_true]
    refine exists_congr fun d => exists_congr fun b => and_congr_right fun hd =>
      and_congr_right fun hb => ?_
    by_cases htag : (G.node b).tag = .arrayType
    · simp only [htag, beq_self_eq_true, if_true, NoNull.bind_iff, NoNull.deref_iff, hd, hb,
        NoNull.pure_iff, Option.some.injEq, exists_eq_left']
    · simp [htag]

variable [DecidableEq ν]

/-- Without an element that is loaded, a load leads to the first member or to the base type. -/
lemma DIGraph.Suffices.noNull_loaded_iff (h : G.Suffices fuel) (first : Bool) :
    NoNull (do
      let first ← if first then tryResolveToFirstMember G fuel t else .ok none
      match first with
      | some resolved => return some resolved
      | none =>
        match (G.node t).asDerived with
        | some d => return d.baseType
        | none   => return some t) (· ≠ none) ↔
      ∀ d, G.node t = .derivedType d → d.baseType ≠ none := by
  obtain ⟨r, hr, hnull⟩ := h.exists_tryResolve t
  have hbase : NoNull (match (G.node t).asDerived with
      | some d => return d.baseType
      | none   => return some t) (· ≠ none) ↔
      ∀ d, G.node t = .derivedType d → d.baseType ≠ none := by
    cases ht : G.node t with
    | derivedType d => simp [DINode.asDerived]
    | _ => simp [DINode.asDerived]
  cases first with
  | false => exact hbase
  | true =>
    rw [if_pos rfl, hr]
    cases r with
    | none => exact hbase
    | some r =>
      refine iff_of_true (Option.some_ne_none r) fun d ht hbase => ?_
      exact Option.some_ne_none r (hnull d ht hbase)

/-- A load meets nothing missing exactly if it leaves the type as it is or what it looks at is
there. -/
lemma DIGraph.Suffices.noNull_resetLoad_iff (h : G.Suffices fuel) (path : ValuePath ν)
    (load pointer : ν) :
    NoNull (resetLoadRelatedBasic G M fuel path (some t) load pointer) (· ≠ none) ↔
      ¬ (accessTo M LLValue.isSlot pointer = false ∧ loadOfDescriptor M pointer = false ∧
        G.LoadMeetsNull t) := by
  rw [resetLoadRelatedBasic]
  cases hslot : accessTo M LLValue.isSlot pointer with
  | true => simp
  | false =>
    cases hdescriptor : loadOfDescriptor M pointer with
    | true => simp
    | false =>
      simp only [Bool.false_eq_true, if_false, deref, ok_bind, true_and]
      rw [NoNull.bind_iff, noNull_arrayMemberElement_iff]
      have hloaded := h.noNull_loaded_iff (t := t) (loadsFirstMember G M path t load pointer)
      have hsome : ∀ u : ι, NoNull (.ok (some u)) (· ≠ none) := fun u => Option.some_ne_none u
      cases ht : G.node t with
      | derivedType d =>
        -- a derived type: its base type is inspected, and that of an array below a member
        simp only [ht, DINode.derivedType.injEq, forall_eq'] at hloaded
        simp only [DIGraph.LoadMeetsNull, ht]
        cases hbase : d.baseType with
        | none =>
          rw [hbase] at hloaded
          refine iff_of_false ?_ (by simp)
          by_cases hmember : (DINode.derivedType d).isMember = true
          · rw [if_pos hmember]
            rintro ⟨d', b, hd, hb, -⟩
            cases hd
            rw [hbase] at hb
            cases hb
          · rw [if_neg hmember]
            exact fun hnull => hloaded.mp hnull rfl
        | some b =>
          rw [hbase] at hloaded
          have hrest := hloaded.mpr (Option.some_ne_none b)
          by_cases hmember : (DINode.derivedType d).isMember = true
          · rw [if_pos hmember]
            constructor
            · rintro ⟨d', b', hd, hb, hP⟩ ⟨-, htag, hcomposite⟩
              cases hd
              cases hbase.symm.trans hb
              rw [if_pos htag] at hP
              obtain ⟨c, hc, -⟩ := hP
              rw [hcomposite] at hc
              cases hc
            · intro hnull
              refine ⟨d, b, rfl, hbase, ?_⟩
              by_cases htag : (G.node b).tag = .arrayType
              · rw [if_pos htag]
                cases hc : (G.node b).asComposite with
                | none => exact absurd ⟨hmember, htag, hc⟩ hnull
                | some c =>
                  refine ⟨c, rfl, ?_⟩
                  cases c.baseType with
                  | none => exact hrest
                  | some u => exact hsome u
              · rw [if_neg htag]
                exact hrest
          · rw [if_neg hmember]
            exact iff_of_true hrest fun hnull => hmember hnull.1
      | _ =>
        simp only [ht, reduceCtorEq, false_implies, implies_true, iff_true] at hloaded
        simp only [DIGraph.LoadMeetsNull, ht]
        by_cases hmember : (G.node t).isMember = true
        · rw [ht] at hmember
          rw [if_pos hmember]
          refine iff_of_false ?_ fun hnull => hnull hmember
          rintro ⟨_, _, hd, -⟩
          cases hd
        · rw [ht] at hmember
          rw [if_neg hmember]
          exact iff_of_true hloaded hmember

/-! ### Stores -/

omit [DecidableEq ι] [DecidableEq ν] in
lemma isMember_of_isNonStaticMember (h : (G.node t).isNonStaticMember = true) :
    (G.node t).isMember = true := by
  rw [DINode.isNonStaticMember, Bool.and_eq_true] at h
  rw [DINode.isMember, h.1, Bool.true_or]

omit [DecidableEq ν] in
/-- The first member that a store may be to can be looked up, if a member has a base type. -/
lemma DIGraph.Suffices.exists_storeToFirstMember (h : G.Suffices fuel)
    (hmember : (G.node t).isMember = true →
      ∃ d b, (G.node t).asDerived = some d ∧ d.baseType = some b) (pointer : ν) :
    ∃ r, storeToFirstMember G M fuel t pointer = .ok r ∧
      ∀ d, G.node t = .derivedType d → d.baseType = none → r = none := by
  have hnonpointer : ∃ x, isNonPointerMember G t = .ok x := by
    rw [isNonPointerMember]
    by_cases hnonstatic : (G.node t).isNonStaticMember = true
    · obtain ⟨d, b, hd, hb⟩ := hmember (isMember_of_isNonStaticMember hnonstatic)
      rw [if_pos hnonstatic, hd]
      simp only [deref, ok_bind, hb]
      exact ⟨_, rfl⟩
    · rw [if_neg hnonstatic]
      exact ⟨false, rfl⟩
  obtain ⟨x, hx⟩ := hnonpointer
  obtain ⟨r, hr⟩ := h.desugars t
  rw [storeToFirstMember, hr]
  cases r with
  | none =>
    refine ⟨none, ?_, fun _ _ _ => rfl⟩
    show (isNonPointerMember G t >>= _) = _
    rw [hx]
    rfl
  | some nc =>
    obtain ⟨first, hfirst⟩ := h.exists_memberAt_desugar hr
    have hbase : ∀ d, G.node t = .derivedType d → d.baseType ≠ none := by
      intro d ht hbase
      rw [DIGraph.desugar_of_null ht hbase (h.desugars t)] at hr
      cases hr
    show ∃ r, (isNonPointerMember G t >>= _) = .ok r ∧ _
    rw [hx, ok_bind]
    by_cases hstore : (x || storeToArrayGep M pointer || accessTo M LLValue.isArgument pointer ||
        accessTo M LLValue.isLoad pointer) = true
    · rw [if_pos hstore, hfirst]
      exact ⟨_, rfl, fun d ht hnone => absurd hnone (hbase d ht)⟩
    · rw [if_neg hstore]
      exact ⟨none, rfl, fun _ _ _ => rfl⟩

omit [DecidableEq ι] in
lemma noNull_storeToArrayMember_iff {d : DIDerivedType ι} {b : ι} (hb : d.baseType = some b)
    {P : Option ι → Prop} (hP : ∀ r, P r) :
    NoNull (storeToArrayMember G d) P ↔
      ¬ ∃ c, G.node b = .compositeType c ∧ c.tag = .arrayType ∧ c.baseType = none := by
  rw [storeToArrayMember, hb]
  simp only [deref, ok_bind]
  cases hn : G.node b with
  | compositeType c =>
    by_cases harray : c.tag = .arrayType
    · cases hbase : c.baseType with
      | none => simp [DINode.isArray, harray, hbase]
      | some u => simp [DINode.isArray, harray, hbase, hP]
    · simp [DINode.isArray, harray, hP]
  | _ => simp [hP]

omit [DecidableEq ι] in
lemma noNull_storeToPointer_iff {d : DIDerivedType ι} :
    NoNull (storeToPointer G t d) (· ≠ none) ↔
      ¬ ((DINode.derivedType d).isPointer = true ∧ d.baseType = none) := by
  rw [storeToPointer]
  by_cases hpointer : (DINode.derivedType d).isPointer = true
  · rw [if_pos hpointer]
    cases hbase : d.baseType with
    | none => simp [deref, hpointer]
    | some b => simp [deref]
  · rw [if_neg hpointer]
    simp [hpointer]

omit [DecidableEq ι] in
lemma exists_base_iff {d : DIDerivedType ι} {b : ι} (hb : d.baseType = some b) {P : ι → Prop} :
    (∃ d' b', some d = some d' ∧ d'.baseType = some b' ∧ P b') ↔ P b := by
  simp [hb]

omit [DecidableEq ν] in
/-- No derived type: nothing is looked at, but for a member. -/
lemma DIGraph.Suffices.noNull_resetStore_of_underived (h : G.Suffices fuel) {pointer : ν}
    (hslot : accessTo M LLValue.isSlot pointer = false) (harray : (G.node t).isArray = false)
    (hderived : (G.node t).asDerived = none) :
    NoNull (resetStoreRelatedBasic G M fuel (some t) pointer) (· ≠ none) ↔
      ¬ (G.node t).isMember = true := by
  rw [resetStoreRelatedBasic, hslot, if_neg (by decide)]
  simp only [deref, ok_bind, harray, Bool.false_eq_true, if_false, hderived]
  rw [NoNull.bind_iff, DIGraph.noNull_isArrayMember_iff, hderived]
  by_cases hmember : (G.node t).isMember = true
  · rw [if_pos hmember]
    refine iff_of_false ?_ fun hnull => hnull hmember
    rintro ⟨_, _, hd, -⟩
    cases hd
  · rw [if_neg hmember]
    obtain ⟨r, hr, -⟩ := h.exists_storeToFirstMember (M := M) (t := t)
      (fun h => absurd h hmember) pointer
    simp only [Bool.false_eq_true, if_false, hr, ok_bind]
    refine iff_of_true ?_ hmember
    cases r with
    | none => exact Option.some_ne_none t
    | some r => exact Option.some_ne_none r

omit [DecidableEq ν] in
/-- A derived type without a base type: a pointer or a member is missing it. -/
lemma DIGraph.Suffices.noNull_resetStore_of_null (h : G.Suffices fuel) {pointer : ν}
    (hslot : accessTo M LLValue.isSlot pointer = false) {d : DIDerivedType ι}
    (ht : G.node t = .derivedType d) (hbase : d.baseType = none) :
    NoNull (resetStoreRelatedBasic G M fuel (some t) pointer) (· ≠ none) ↔
      ¬ ((DINode.derivedType d).isMember = true ∨ (DINode.derivedType d).isPointer = true) := by
  have harray : (DINode.derivedType d).isArray = false := rfl
  rw [resetStoreRelatedBasic, hslot, if_neg (by decide)]
  simp only [deref, ok_bind, ht, harray, Bool.false_eq_true, if_false, DINode.asDerived]
  rw [NoNull.bind_iff, DIGraph.noNull_isArrayMember_iff, ht]
  by_cases hmember : (DINode.derivedType d).isMember = true
  · rw [if_pos hmember]
    refine iff_of_false ?_ fun hnull => hnull (.inl hmember)
    rintro ⟨d', b, hd, hb, -⟩
    cases hd
    rw [hbase] at hb
    cases hb
  · rw [if_neg hmember]
    obtain ⟨r, hr, hnull⟩ := h.exists_storeToFirstMember (M := M) (t := t)
      (fun h => absurd (ht ▸ h) hmember) pointer
    obtain rfl := hnull d ht hbase
    have hnonstatic : (DINode.derivedType d).isNonStaticMember = false := by
      rw [← ht, Bool.eq_false_iff]
      intro hnonstatic
      exact hmember (ht ▸ isMember_of_isNonStaticMember hnonstatic)
    simp only [Bool.false_eq_true, if_false, hr, ok_bind, hnonstatic]
    rw [noNull_storeToPointer_iff]
    simp [hbase, hmember]

omit [DecidableEq ν] in
/-- A derived type of another type: only the type of the elements of a member can be missing. -/
lemma DIGraph.Suffices.noNull_resetStore_of_base (h : G.Suffices fuel) {pointer : ν}
    (hslot : accessTo M LLValue.isSlot pointer = false) {d : DIDerivedType ι} {b : ι}
    (ht : G.node t = .derivedType d) (hbase : d.baseType = some b) :
    NoNull (resetStoreRelatedBasic G M fuel (some t) pointer) (· ≠ none) ↔
      ¬ ((DINode.derivedType d).isMember = true ∧
        ∃ c, G.node b = .compositeType c ∧ c.tag = .arrayType ∧ c.baseType = none) := by
  have hrest : NoNull (if (DINode.derivedType d).isNonStaticMember = true then
      return some b else storeToPointer G t d) (· ≠ none) := by
    by_cases hnonstatic : (DINode.derivedType d).isNonStaticMember = true
    · rw [if_pos hnonstatic]
      exact Option.some_ne_none b
    · rw [if_neg hnonstatic, noNull_storeToPointer_iff, hbase]
      simp
  obtain ⟨r, hr, -⟩ := h.exists_storeToFirstMember (M := M) (t := t)
    (fun _ => ⟨d, b, by rw [ht]; rfl, hbase⟩) pointer
  have harray : (DINode.derivedType d).isArray = false := rfl
  rw [resetStoreRelatedBasic, hslot, if_neg (by decide)]
  simp only [deref, ok_bind, ht, harray, Bool.false_eq_true, if_false, DINode.asDerived]
  rw [NoNull.bind_iff, DIGraph.noNull_isArrayMember_iff, ht]
  by_cases hmember : (DINode.derivedType d).isMember = true
  · rw [if_pos hmember]
    refine (exists_base_iff hbase).trans ?_
    by_cases htag : (G.node b).tag = .arrayType
    · simp only [htag, beq_self_eq_true, if_true, ok_bind, hbase]
      rw [NoNull.bind_iff, noNull_storeToArrayMember_iff hbase]
      · simp [hmember]
      · intro r
        cases r with
        | none => exact hrest
        | some r => exact Option.some_ne_none r
    · have hnot : ((G.node b).tag == DwTag.arrayType) = false := beq_eq_false_iff_ne.mpr htag
      have hnull : ¬ ((DINode.derivedType d).isMember = true ∧
          ∃ c, G.node b = .compositeType c ∧ c.tag = .arrayType ∧ c.baseType = none) := by
        rintro ⟨-, c, hc, hctag, -⟩
        rw [hc] at htag
        exact htag hctag
      simp only [hnot, Bool.false_eq_true, if_false, hr, ok_bind, hbase]
      refine iff_of_true ?_ hnull
      cases r with
      | none => exact hrest
      | some r => exact Option.some_ne_none r
  · rw [if_neg hmember]
    simp only [Bool.false_eq_true, if_false, hr, ok_bind, hbase]
    refine iff_of_true ?_ fun h => hmember h.1
    cases r with
    | none => exact hrest
    | some r => exact Option.some_ne_none r

omit [DecidableEq ν] in
/-- A store meets nothing missing exactly if it is to a variable or what it looks at is there. -/
lemma DIGraph.Suffices.noNull_resetStore_iff (h : G.Suffices fuel) (pointer : ν) :
    NoNull (resetStoreRelatedBasic G M fuel (some t) pointer) (· ≠ none) ↔
      ¬ (accessTo M LLValue.isSlot pointer = false ∧ G.StoreMeetsNull t) := by
  cases hslot : accessTo M LLValue.isSlot pointer with
  | true =>
    rw [resetStoreRelatedBasic, hslot]
    simp
  | false =>
    simp only [true_and, DIGraph.StoreMeetsNull]
    cases ht : G.node t with
    | derivedType d =>
      cases hbase : d.baseType with
      | none => simpa only [hbase] using h.noNull_resetStore_of_null hslot ht hbase
      | some b => simpa only [hbase] using h.noNull_resetStore_of_base hslot ht hbase
    | compositeType c =>
      by_cases harray : c.tag = .arrayType
      · rw [resetStoreRelatedBasic, hslot]
        simp [deref, ht, harray, DINode.isArray, DINode.typeRef]
      · have hunderived := h.noNull_resetStore_of_underived hslot
          (by rw [ht]; simpa [DINode.isArray] using harray) (by rw [ht]; rfl)
        simpa only [ht, harray, if_false] using hunderived
    | _ =>
      have hunderived := h.noNull_resetStore_of_underived hslot (by rw [ht]; rfl) (by rw [ht]; rfl)
      simpa only [ht] using hunderived

end

end Dimeta
