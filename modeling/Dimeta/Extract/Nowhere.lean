import Dimeta.Extract.NullWalk

/-!
# Address computations that lead nowhere

A GEP leads nowhere if there is neither a member nor a type where its indices end. If they end past
all elements, `find_type` keeps the type before, but a Fortran path records none.
-/

set_option autoImplicit false

namespace Dimeta

variable {ι ν : Type}

/-- Neither a member nor a type is set, or nothing at all is if that counts. -/
def GepIndexToType.LeadsNowhere (ends : Prop) (result : GepIndexToType ι) : Prop :=
  (result.member = none ∨ result.useType = true) ∧
    (result.type = some none ∨ result.type = none ∧ ends)

lemma GepIndexToType.resets_eq_none_iff {result : GepIndexToType ι} {t : ι} :
    result.resets (some t) = none ↔ result.LeadsNowhere False := by
  obtain ⟨_ | type, _ | member, _ | _⟩ := result <;> simp [resets, LeadsNowhere]

lemma GepIndexToType.not_leadsNowhere_of_member {ends : Prop} {type : Option (Option ι)} {e : ι} :
    ¬ LeadsNowhere ends { type := type, member := some e } := by
  simp [LeadsNowhere]

lemma GepIndexToType.not_leadsNowhere_of_type {ends : Prop} {n : ι} :
    ¬ LeadsNowhere ends { type := some (some n) } := by
  simp [LeadsNowhere]

namespace DIGraph

/-! ### Elements -/

/-- The indices lead to an array among the elements of a composite without a base type, or to the
end of the elements if that counts. -/
inductive ElementsLeadNowhere (G : DIGraph ι) (ends : Prop) :
    DICompositeType ι → List UInt64 → Prop
  | nil {c : DICompositeType ι} (hends : ends) : ElementsLeadNowhere G ends c []
  | array {c : DICompositeType ι} {k : UInt64} {ks : List UInt64} {i : ℕ} {e : ι}
      (he : G.gepElement c.elements k.toNat = .ok (i, e)) (harray : (G.node e).isArray = true)
      (hbase : c.baseType = none) : ElementsLeadNowhere G ends c (k :: ks)
  | field {c c' : DICompositeType ι} {k : UInt64} {ks : List UInt64} {e n : ι}
      {d : DIDerivedType ι} (he : G.IndexedElement c k e) (hd : (G.node e).asDerived = some d)
      (hn : G.LeadsTo DINode.isPointerLike d.baseType (some n)) (hc : G.node n = .compositeType c')
      (hrecord : (G.node n).isStructOrClass = true) (hks : ks ≠ [])
      (h : ElementsLeadNowhere G ends c' ks) : ElementsLeadNowhere G ends c (k :: ks)
  | next {c : DICompositeType ι} {k : UInt64} {ks : List UInt64} {e : ι}
      (he : G.IndexedElement c k e) (hd : (G.node e).asDerived = none)
      (h : ElementsLeadNowhere G ends c ks) : ElementsLeadNowhere G ends c (k :: ks)

variable {G : DIGraph ι} {ends : Prop} {c : DICompositeType ι} {k : UInt64} {ks : List UInt64}
  {e : ι}

lemma IndexedElement.unique (he : G.IndexedElement c k e) {e' : ι} (he' : G.IndexedElement c k e') :
    e = e' := by
  obtain ⟨i, element, hgep, -, hskip⟩ := he
  obtain ⟨i', element', hgep', -, hskip'⟩ := he'
  rw [hgep] at hgep'
  cases hgep'
  rw [hskip] at hskip'
  exact Except.ok.inj hskip'

lemma IndexedElement.not_array (he : G.IndexedElement c k e) {i : ℕ} {element : ι}
    (hgep : G.gepElement c.elements k.toNat = .ok (i, element)) :
    (G.node element).isArray = false := by
  obtain ⟨i', element', hgep', harray, -⟩ := he
  rw [hgep] at hgep'
  cases hgep'
  exact harray

lemma IndexedElement.leadNowhere_next_iff (he : G.IndexedElement c k e)
    (hd : (G.node e).asDerived = none) :
    G.ElementsLeadNowhere ends c (k :: ks) ↔ G.ElementsLeadNowhere ends c ks := by
  constructor
  · intro h
    cases h with
    | array hgep harray =>
      rw [he.not_array hgep] at harray
      cases harray
    | field he' hd' =>
      obtain rfl := he.unique he'
      rw [hd] at hd'
      cases hd'
    | next _ _ h => exact h
  · exact fun h => .next he hd h

lemma IndexedElement.leadNowhere_field_iff (he : G.IndexedElement c k e) {d : DIDerivedType ι}
    (hd : (G.node e).asDerived = some d) {n : ι}
    (hn : G.LeadsTo DINode.isPointerLike d.baseType (some n)) :
    G.ElementsLeadNowhere ends c (k :: ks) ↔ ∃ c', G.node n = .compositeType c' ∧
      (G.node n).isStructOrClass = true ∧ ks ≠ [] ∧ G.ElementsLeadNowhere ends c' ks := by
  constructor
  · intro h
    cases h with
    | array hgep harray =>
      rw [he.not_array hgep] at harray
      cases harray
    | field he' hd' hn' hc hrecord hks h =>
      obtain rfl := he.unique he'
      rw [hd] at hd'
      cases hd'
      cases hn.unique hn'
      exact ⟨_, hc, hrecord, hks, h⟩
    | next he' hd' =>
      obtain rfl := he.unique he'
      rw [hd] at hd'
      cases hd'
  · rintro ⟨c', hc, hrecord, hks, h⟩
    exact .field he hd hn hc hrecord hks h

variable {fuel : ℕ} {result : GepIndexToType ι}

/-- Where the search along the indices does not fail, it ends nowhere exactly if they lead
nowhere. -/
lemma iterate_leadsNowhere_iff (h : G.iterateGepIndex fuel c ks = .ok result) :
    result.LeadsNowhere ends ↔ G.ElementsLeadNowhere ends c ks := by
  induction ks generalizing c with
  | nil =>
    cases h
    constructor
    · rintro ⟨-, htype | ⟨-, hends⟩⟩
      · cases htype
      · exact .nil hends
    · intro h
      cases h with
      | nil hends => exact ⟨.inl rfl, .inr ⟨rfl, hends⟩⟩
  | cons k ks ih =>
    rw [iterateGepIndex, bind_eq_ok] at h
    obtain ⟨⟨i, element⟩, hgep, h⟩ := h
    simp only at h
    cases harray : (G.node element).isArray with
    | true =>
      rw [harray, if_pos rfl] at h
      cases h
      constructor
      · rintro ⟨-, htype | ⟨htype, -⟩⟩
        · exact .array hgep harray (Option.some.inj htype)
        · cases htype
      · intro h
        cases h with
        | array _ _ hbase => exact ⟨.inl rfl, .inl (congrArg some hbase)⟩
        | field he | next he =>
          rw [he.not_array hgep] at harray
          cases harray
    | false =>
      rw [harray, if_neg Bool.false_ne_true, bind_eq_ok] at h
      obtain ⟨e, hskip, h⟩ := h
      have he : G.IndexedElement c k e := ⟨i, element, hgep, harray, hskip⟩
      cases hd : (G.node e).asDerived with
      | none =>
        rw [hd] at h
        rw [he.leadNowhere_next_iff hd]
        exact ih h
      | some d =>
        simp only [hd, bind_eq_ok] at h
        obtain ⟨type, htype, n, hn, h⟩ := h
        cases type with
        | none => cases hn
        | some type =>
          cases hn
          rw [he.leadNowhere_field_iff hd (leadsTo_of_find htype)]
          -- the member is found, unless the search goes on in a record
          have hmember : ∀ type, result = { type := type, member := some e } →
              (∀ c', G.node n = .compositeType c' → (G.node n).isStructOrClass = true → ks = []) →
              (result.LeadsNowhere ends ↔ ∃ c', G.node n = .compositeType c' ∧
                (G.node n).isStructOrClass = true ∧ ks ≠ [] ∧
                G.ElementsLeadNowhere ends c' ks) := by
            rintro type rfl hnone
            refine iff_of_false GepIndexToType.not_leadsNowhere_of_member ?_
            rintro ⟨c', hc, hrecord, hks, -⟩
            exact hks (hnone c' hc hrecord)
          cases hc : G.node n with
          | compositeType c' =>
            simp only [hc] at h hmember
            split_ifs at h with hks hrecord harray
            · exact hmember _ (Except.ok.inj h).symm fun _ _ _ => List.isEmpty_iff.mp hks
            · rw [ih h]
              constructor
              · exact fun h => ⟨c', rfl, hrecord, fun hnil => hks (List.isEmpty_iff.mpr hnil), h⟩
              · rintro ⟨c'', hc'', -, -, h⟩
                cases hc''
                exact h
            · exact hmember _ (Except.ok.inj h).symm fun _ _ h => absurd h hrecord
            · exact hmember _ (Except.ok.inj h).symm fun _ _ h => absurd h hrecord
          | _ =>
            simp only [hc] at h hmember
            exact hmember _ (Except.ok.inj h).symm (by simp)

/-! ### Indices -/

variable (G) in
/-- The indices of a GEP on a composite lead nowhere: to the elements of an array without a type,
or nowhere from the composite or the record that is passed to. -/
def IndicesLeadNowhere (ends : Prop) (n : ι) (c : DICompositeType ι) (gepIndices : GepIndices) :
    Prop :=
  match gepIndices.indices with
  | [] => gepIndices.dynamicAccess = true ∧ (G.node n).isArray = true ∧ c.baseType = none
  | k :: ks => gepIndices.byteAccess = false ∧
    if gepIndices.skippedFirst = true ∧ k ≠ 0 then
      ∃ c', G.Skips c (some c') ∧ G.ElementsLeadNowhere ends c' (k :: ks)
    else G.ElementsLeadNowhere ends c (k :: ks)

lemma resolve_leadsNowhere_iff [DecidableEq ι] {n : ι} {gepIndices : GepIndices}
    (h : G.resolveGepIndexToType fuel n c gepIndices = .ok result) :
    result.LeadsNowhere ends ↔ G.IndicesLeadNowhere ends n c gepIndices := by
  rw [resolveGepIndexToType] at h
  rw [IndicesLeadNowhere]
  cases hindices : gepIndices.indices with
  | nil =>
    simp only [hindices] at h ⊢
    cases hdynamic : gepIndices.dynamicAccess && (G.node n).isArray with
    | true =>
      rw [hdynamic, if_pos rfl] at h
      cases h
      rw [Bool.and_eq_true] at hdynamic
      simp [GepIndexToType.LeadsNowhere, hdynamic]
    | false =>
      rw [hdynamic, if_neg Bool.false_ne_true] at h
      cases h
      refine iff_of_false GepIndexToType.not_leadsNowhere_of_type ?_
      rintro ⟨haccess, harray, -⟩
      rw [haccess, harray] at hdynamic
      cases hdynamic
  | cons k ks =>
    simp only [hindices] at h ⊢
    cases hbyte : gepIndices.byteAccess with
    | true =>
      simp only [hbyte, if_true, bind_eq_ok] at h
      obtain ⟨found, -, h⟩ := h
      refine iff_of_false ?_ (by simp)
      cases found with
      | none =>
        cases h
        exact GepIndexToType.not_leadsNowhere_of_type
      | some found =>
        cases h
        exact GepIndexToType.not_leadsNowhere_of_member
    | false =>
      simp only [hbyte, Bool.false_eq_true, if_false, Bool.and_eq_true, bne_iff_ne] at h
      rw [and_iff_right rfl]
      by_cases hskipped : gepIndices.skippedFirst = true ∧ k ≠ 0
      · rw [if_pos hskipped, bind_eq_ok] at h
        obtain ⟨⟨n', c'⟩, hskip, h⟩ := h
        have hskips : G.Skips c (some c') := by
          apply skips_of_skipFirst
          rw [hskip]
          rfl
        rw [if_pos hskipped, iterate_leadsNowhere_iff h]
        constructor
        · exact fun h => ⟨c', hskips, h⟩
        · rintro ⟨c'', hskips', h⟩
          cases hskips.unique hskips' n
          exact h
      · rw [if_neg hskipped] at h ⊢
        exact iterate_leadsNowhere_iff h

end DIGraph

/-! ### GEPs -/

section

variable (G : DIGraph ι) (M : IRModule ι ν)

/-- A GEP on a type leads nowhere: the declared result of an inlined operator refers to no type, or
its indices lead nowhere from the composite below the type. -/
inductive GepLeadsNowhere (ends : Prop) (t : ι) (v : ν) (gep : GEPOperator ν) : Prop
  | inlined {result : ι} (h : inlinedReturnType M v gep = .ok (some result))
      (hnone : G.LeadsTo isPlainPointer (some result) none)
  | composite {n : ι} {c : DICompositeType ι} {firstNonZero : Bool} (h : LooksBelow G M t v gep)
      (hn : G.LeadsTo (fun _ => false) (some t) (some n)) (hc : G.node n = .compositeType c)
      (hcomplete : c.isForwardDecl = false)
      (hbyte : gep.isByteIndexing = true → G.baseIsPointer t = .ok false)
      (hfirst : gep.isFirstNonZeroIndexing = .ok firstNonZero)
      (harray : isArrayLike G t gep (gep.skipsFirst firstNonZero) = false)
      (hindices : G.IndicesLeadNowhere ends n c (.create gep (gep.skipsFirst firstNonZero)))

end

variable {G : DIGraph ι} {M : IRModule ι ν} {ends : Prop} {t : ι} {v : ν} {gep : GEPOperator ν}
  {fuel : ℕ} {result : GepIndexToType ι} [DecidableEq ι]

/-- A single index to what a pointer refers to leads there. -/
lemma extractGepOfComposite_leadsNowhere_iff {n : ι} {c : DICompositeType ι}
    (hbase : ∀ d, G.node t = .derivedType d → d.baseType ≠ none)
    (h : extractGepOfComposite G fuel t n c gep = .ok result) :
    result.LeadsNowhere ends ↔ ∃ firstNonZero, gep.isFirstNonZeroIndexing = .ok firstNonZero ∧
      isArrayLike G t gep (gep.skipsFirst firstNonZero) = false ∧
      G.IndicesLeadNowhere ends n c (.create gep (gep.skipsFirst firstNonZero)) := by
  cases hfirst : gep.isFirstNonZeroIndexing with
  | error e =>
    rw [extractGepOfComposite, hfirst] at h
    cases h
  | ok firstNonZero =>
    rw [extractGepOfComposite_of_first hfirst] at h
    simp only [Except.ok.injEq, exists_eq_left']
    cases hlike : isArrayLike G t gep (gep.skipsFirst firstNonZero) with
    | true =>
      rw [hlike, if_pos rfl] at h
      cases h
      refine iff_of_false ?_ (by simp)
      rw [isArrayLike] at hlike
      cases ht : G.node t with
      | derivedType d =>
        have hd := hbase d ht
        simpa [GepIndexToType.LeadsNowhere, DINode.asDerived] using hd
      | _ =>
        rw [ht] at hlike
        cases hlike
    | false =>
      rw [hlike, if_neg Bool.false_ne_true] at h
      rw [DIGraph.resolve_leadsNowhere_iff h, and_iff_right rfl]

omit [DecidableEq ι] in
lemma baseType_ne_none_of_baseIsPointer {x : Bool} (h : G.baseIsPointer t = .ok x)
    {d : DIDerivedType ι} (ht : G.node t = .derivedType d) : d.baseType ≠ none := by
  intro hbase
  rw [DIGraph.baseIsPointer, ht] at h
  simp only [DINode.asDerived, hbase, deref] at h
  cases h

omit [DecidableEq ι] in
/-- Behind the inlined operators only a composite below the type leads nowhere. -/
lemma leadsNowhere_iff_of_notInlined {r : Option ι} (hr : G.LeadsTo (fun _ => false) (some t) r)
    (hinlined : inlinedReturnType M v gep = .ok none) :
    GepLeadsNowhere G M ends t v gep ↔ ∃ n c firstNonZero, r.bind G.composite = some (n, c) ∧
      LooksBelow G M t v gep ∧ c.isForwardDecl = false ∧
      (gep.isByteIndexing = true → G.baseIsPointer t = .ok false) ∧
      gep.isFirstNonZeroIndexing = .ok firstNonZero ∧
      isArrayLike G t gep (gep.skipsFirst firstNonZero) = false ∧
      G.IndicesLeadNowhere ends n c (.create gep (gep.skipsFirst firstNonZero)) := by
  constructor
  · intro hnowhere
    cases hnowhere with
    | inlined h =>
      rw [hinlined] at h
      cases h
    | composite h hn hc hcomplete hbyte hfirst harray hindices =>
      obtain rfl := hr.unique hn
      refine ⟨_, _, _, ?_, h, hcomplete, hbyte, hfirst, harray, hindices⟩
      rw [Option.bind_some, DIGraph.composite, hc]
      rfl
  · rintro ⟨n, c, firstNonZero, hcomposite, h, hcomplete, hbyte, hfirst, harray, hindices⟩
    obtain ⟨rfl, hc⟩ := eq_some_of_bind_composite hcomposite
    exact .composite h hr hc hcomplete hbyte hfirst harray hindices

lemma extractGepBelow_leadsNowhere_iff {r : Option ι} (hr : G.LeadsTo (fun _ => false) (some t) r)
    (hinlined : inlinedReturnType M v gep = .ok none)
    (h : extractGepBelow G fuel (r.bind G.composite) t gep = .ok result) :
    result.LeadsNowhere ends ↔ GepLeadsNowhere G M ends t v gep := by
  rw [leadsNowhere_iff_of_notInlined hr hinlined]
  rw [extractGepBelow] at h
  split_ifs at h with hpointer harray
  · -- a GEP on pointers
    cases h
    refine iff_of_false GepIndexToType.not_leadsNowhere_of_type ?_
    rintro ⟨n, c, -, hcomposite, hlooks, hcomplete, -⟩
    rw [Bool.and_eq_true] at hpointer
    obtain ⟨n', c', hn', hc', hforward⟩ := hlooks.notPointer hpointer.1
    obtain ⟨rfl, hc⟩ := eq_some_of_bind_composite hcomposite
    cases hr.unique hn'
    rw [hc] at hc'
    cases hc'
    rw [hcomplete] at hforward
    cases hforward
  · -- a GEP on arrays
    cases h
    refine iff_of_false GepIndexToType.not_leadsNowhere_of_type ?_
    rintro ⟨-, -, -, -, hlooks, -⟩
    rw [hlooks.notArray] at harray
    cases harray
  · obtain ⟨x, hx, h⟩ := bind_eq_ok.mp h
    split_ifs at h with hbytes
    · -- bytes behind a pointer, or of no composite
      cases h
      refine iff_of_false GepIndexToType.not_leadsNowhere_of_type ?_
      rintro ⟨n, c, -, hcomposite, -, -, hbyte, -⟩
      rw [Bool.and_eq_true] at hbytes
      have hfalse := hbyte hbytes.1
      rw [hx] at hfalse
      cases hfalse
      rw [hcomposite] at hbytes
      cases hbytes.2
    · obtain ⟨⟨n, c⟩, hcomposite, h⟩ := bind_eq_ok.mp h
      replace hcomposite : r.bind G.composite = some (n, c) := by
        cases hc : r.bind G.composite with
        | none =>
          rw [hc] at hcomposite
          cases hcomposite
        | some nc =>
          rw [hc] at hcomposite
          exact congrArg some (Except.ok.inj hcomposite)
      simp only at h
      split_ifs at h with hforward
      · cases h
        refine iff_of_false GepIndexToType.not_leadsNowhere_of_type ?_
        rintro ⟨n', c', -, hcomposite', -, hcomplete, -⟩
        rw [hcomposite] at hcomposite'
        cases hcomposite'
        rw [hcomplete] at hforward
        cases hforward
      · rw [Bool.not_eq_true] at hforward harray
        have hlooks : LooksBelow G M t v gep := by
          refine ⟨hinlined, harray, fun hp => absurd ?_ hpointer⟩
          simp [hp, hcomposite, hforward]
        have hbyte : gep.isByteIndexing = true → G.baseIsPointer t = .ok false := by
          intro hbyte
          rw [hx]
          simpa [hbyte, hcomposite] using hbytes
        rw [extractGepOfComposite_leadsNowhere_iff
          (fun d => baseType_ne_none_of_baseIsPointer hx) h]
        constructor
        · rintro ⟨firstNonZero, hfirst, harray, hindices⟩
          exact ⟨n, c, firstNonZero, hcomposite, hlooks, hforward, hbyte, hfirst, harray, hindices⟩
        · rintro ⟨n', c', firstNonZero, hcomposite', -, -, -, hfirst, harray, hindices⟩
          rw [hcomposite] at hcomposite'
          cases hcomposite'
          exact ⟨firstNonZero, hfirst, harray, hindices⟩

/-- Where the extraction does not fail, it leads nowhere exactly if the GEP does. -/
theorem extractGep_leadsNowhere_iff
    (h : extractGepDereferencedType G M fuel (some t) v gep = .ok result) :
    result.LeadsNowhere ends ↔ GepLeadsNowhere G M ends t v gep := by
  rw [extractGepDereferencedType, bind_eq_ok] at h
  obtain ⟨r, hr, h⟩ := h
  have hleads := DIGraph.leadsTo_of_find hr
  simp only [tryResolveInlinedOperator, bind_eq_ok] at h
  obtain ⟨inlined, ⟨declared, hdeclared, hinlined⟩, h⟩ := h
  cases declared with
  | none =>
    cases hinlined
    exact extractGepBelow_leadsNowhere_iff hleads hdeclared h
  | some s =>
    simp only [bind_eq_ok] at hinlined
    obtain ⟨type, htype, hinlined⟩ := hinlined
    cases hinlined
    cases h
    have hs := DIGraph.leadsTo_of_find htype
    constructor
    · rintro ⟨-, hnone | ⟨hnone, -⟩⟩
      · cases hnone
        exact .inlined hdeclared hs
      · cases hnone
    · intro hnowhere
      cases hnowhere with
      | inlined hdeclared' hnone =>
        rw [hdeclared] at hdeclared'
        cases hdeclared'
        obtain rfl := hs.unique hnone
        exact ⟨.inl rfl, .inl rfl⟩
      | composite hlooks =>
        rw [hlooks.notInlined] at hdeclared
        cases hdeclared

end Dimeta
