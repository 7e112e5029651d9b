import Dimeta.Extract.Nulls
import Dimeta.Extract.Wrappers

/-!
# Address computations that meet missing types

A GEP meets a missing type where the declared result of an inlined operator, the base type of the
root, the composite below it or the type of an element that its indices lead to is missing.
-/

set_option autoImplicit false

namespace Dimeta

variable {ι ν : Type}

namespace DIGraph

variable (G : DIGraph ι)

/-! ### Elements -/

/-- Some base class among the elements is missing. -/
def BaseMissing (elements : List ι) : Prop :=
  ∃ e ∈ elements, ∃ d, G.node e = .derivedType d ∧ d.tag = .inheritance ∧ d.baseType = none

/-- The element that an index leads to, behind static members; it is no array. -/
def IndexedElement (c : DICompositeType ι) (k : UInt64) (e : ι) : Prop :=
  ∃ i element, G.gepElement c.elements k.toNat = .ok (i, element) ∧
    (G.node element).isArray = false ∧
    G.skipStaticMembers element (c.elements.drop (i + 1)) = .ok e

/-- The indices lead to an element, or past one, whose type is missing. -/
inductive ElementsMeetNull : DICompositeType ι → List UInt64 → Prop
  | base {c : DICompositeType ι} {k : UInt64} {ks : List UInt64}
      (hk : k.toNat < c.elements.length) (hbase : G.BaseMissing c.elements) :
      ElementsMeetNull c (k :: ks)
  | array {c : DICompositeType ι} {k : UInt64} {ks : List UInt64} {i : ℕ} {e : ι}
      (he : G.gepElement c.elements k.toNat = .ok (i, e)) (harray : (G.node e).isArray = true)
      (hbase : c.baseType = none) : ElementsMeetNull c (k :: ks)
  | member {c : DICompositeType ι} {k : UInt64} {ks : List UInt64} {e : ι} {d : DIDerivedType ι}
      (he : G.IndexedElement c k e) (hd : G.node e = .derivedType d)
      (hnone : G.LeadsTo DINode.isPointerLike d.baseType none) : ElementsMeetNull c (k :: ks)
  | memberArray {c c' : DICompositeType ι} {k : UInt64} {ks : List UInt64} {e n : ι}
      {d : DIDerivedType ι} (he : G.IndexedElement c k e) (hd : G.node e = .derivedType d)
      (hn : G.LeadsTo DINode.isPointerLike d.baseType (some n)) (hc : G.node n = .compositeType c')
      (harray : (G.node n).isArray = true) (hks : ks ≠ []) (hbase : c'.baseType = none) :
      ElementsMeetNull c (k :: ks)
  | field {c c' : DICompositeType ι} {k : UInt64} {ks : List UInt64} {e n : ι}
      {d : DIDerivedType ι} (he : G.IndexedElement c k e) (hd : G.node e = .derivedType d)
      (hn : G.LeadsTo DINode.isPointerLike d.baseType (some n)) (hc : G.node n = .compositeType c')
      (hrecord : (G.node n).isStructOrClass = true) (hks : ks ≠ [])
      (h : ElementsMeetNull c' ks) : ElementsMeetNull c (k :: ks)
  | next {c : DICompositeType ι} {k : UInt64} {ks : List UInt64} {e : ι}
      (he : G.IndexedElement c k e) (hd : (G.node e).asDerived = none)
      (h : ElementsMeetNull c ks) : ElementsMeetNull c (k :: ks)

variable {G}

lemma noNull_isEboInheritedComposite_iff {n : ι} {R : Prop} :
    NoNull (G.isEboInheritedComposite n) (fun _ => R) ↔
      (¬ ∃ d, G.node n = .derivedType d ∧ d.tag = .inheritance ∧ d.baseType = none) ∧ R := by
  rw [isEboInheritedComposite]
  cases hn : G.node n with
  | derivedType d =>
    by_cases htag : d.tag = .inheritance
    · cases hbase : d.baseType with
      | none => simp [DINode.isInheritance, DINode.tag, htag, hbase, deref]
      | some b =>
        have hnot : ¬ ∃ d', DINode.derivedType d = .derivedType d' ∧ d'.tag = .inheritance ∧
            d'.baseType = none := by
          rintro ⟨d', hd, -, hnone⟩
          cases hd
          rw [hbase] at hnone
          cases hnone
        simp only [DINode.isInheritance, DINode.tag, htag, beq_self_eq_true, Bool.not_true,
          Bool.false_eq_true, if_false, hbase, deref, ok_bind]
        rw [and_iff_right hnot]
        cases G.node b <;> exact Iff.rfl
    · simp [DINode.isInheritance, DINode.tag, htag]
  | _ => simp

lemma noNull_eboInheritanceOffset_iff {elements : List ι} {R : Prop} :
    NoNull (G.eboInheritanceOffset elements) (fun _ => R) ↔ ¬ G.BaseMissing elements ∧ R := by
  induction elements with
  | nil => simp [eboInheritanceOffset, BaseMissing]
  | cons e es ih =>
    simp only [eboInheritanceOffset, NoNull.bind_iff, NoNull.pure_iff]
    rw [ih, noNull_isEboInheritedComposite_iff]
    have hcons : G.BaseMissing (e :: es) ↔
        (∃ d, G.node e = .derivedType d ∧ d.tag = .inheritance ∧ d.baseType = none) ∨
          G.BaseMissing es := by
      simp only [BaseMissing, List.exists_mem_cons_iff]
    rw [hcons, not_or, and_assoc]

lemma exists_selectFirstElement {elements : List ι} (h : elements ≠ []) :
    ∃ e, G.selectFirstElement elements = .ok e := by
  match elements, h with
  | [e], _ => exact ⟨e, rfl⟩
  | e :: next :: _, _ => exact ⟨G.selectNonZeroElement e next, rfl⟩

/-- Counting the base classes fails only if one is missing. -/
lemma bind_eboInheritanceOffset_eq_null_iff {elements : List ι} {α : Type} {f : ℕ → Except Fault α}
    (hf : ∀ offset, f offset ≠ .error .nullType) :
    G.eboInheritanceOffset elements >>= f = .error .nullType ↔ G.BaseMissing elements := by
  have hoffset : NoNull (G.eboInheritanceOffset elements) (fun _ => True) ↔
      ¬ G.BaseMissing elements := by
    rw [noNull_eboInheritanceOffset_iff, and_true]
  cases hebo : G.eboInheritanceOffset elements with
  | error e =>
    rw [hebo, NoNull.error_iff] at hoffset
    rw [error_bind, Except.error.injEq, ← not_iff_not]
    exact hoffset
  | ok offset =>
    rw [hebo] at hoffset
    exact iff_of_false (hf offset) (hoffset.mp trivial)

/-- Within the bounds all elements are looked at. -/
lemma noNull_gepElement_iff {elements : List ι} {k : ℕ} {P : ℕ × ι → Prop} :
    NoNull (G.gepElement elements k) P ↔ ¬ (k < elements.length ∧ G.BaseMissing elements) ∧
      ∀ i e, G.gepElement elements k = .ok (i, e) → P (i, e) := by
  have hnull : G.gepElement elements k = .error .nullType ↔
      k < elements.length ∧ G.BaseMissing elements := by
    rw [gepElement]
    cases he : elements[k]? with
    | none =>
      have hle := List.getElem?_eq_none_iff.mp he
      exact iff_of_false (by simp) fun h => absurd h.1 (Nat.not_lt.mpr hle)
    | some e =>
      obtain ⟨hlt, -⟩ := List.getElem?_eq_some_iff.mp he
      have hne : elements ≠ [] := List.ne_nil_of_length_pos (Nat.zero_lt_of_lt hlt)
      obtain ⟨first, hfirst⟩ := G.exists_selectFirstElement hne
      rw [and_iff_right hlt]
      by_cases hk : k = 0
      · simp only [Option.elim, ok_bind, hk, if_true, hfirst]
        apply bind_eboInheritanceOffset_eq_null_iff
        intro offset h
        cases h
      · simp only [Option.elim, ok_bind, hk, if_false]
        apply bind_eboInheritanceOffset_eq_null_iff
        intro offset
        by_cases hoffset : 0 < k ∧ 0 < offset
        · rw [if_pos hoffset]
          cases elements[k + offset]? with
          | none =>
            intro h
            cases h
          | some e =>
            intro h
            cases h
        · rw [if_neg hoffset]
          intro h
          cases h
  rw [NoNull.iff_forall, ne_eq, hnull]
  simp only [Prod.forall]

lemma noNull_skipStaticMembers_iff {e : ι} {elements : List ι} {P : ι → Prop} :
    NoNull (G.skipStaticMembers e elements) P ↔
      ∀ e', G.skipStaticMembers e elements = .ok e' → P e' := by
  rw [NoNull.iff_forall, and_iff_right]
  rw [skipStaticMembers_eq]
  cases (e :: elements).find? fun e => !G.isStaticMember e with
  | none =>
    intro h
    cases h
  | some e' =>
    intro h
    cases h

variable [DecidableEq ι] {fuel : ℕ}

/-- The search along the indices ends at a member, or goes on in the record that is its type. -/
lemma Suffices.noNull_member_iff (h : G.Suffices fuel) {e : ι} {d : DIDerivedType ι}
    {ks : List UInt64} :
    NoNull (do
      let memberType ← G.findNonDerivedTypeUnlessPtr fuel d.baseType
      let memberType ← deref memberType
      let here : GepIndexToType ι := { type := some (some memberType), member := some e }
      match G.node memberType with
      | .compositeType c' =>
        if ks.isEmpty then return here
        else if (G.node memberType).isStructOrClass then G.iterateGepIndex fuel c' ks
        else if (G.node memberType).isArray then
          return { type := some c'.baseType, member := some e }
        else return here
      | _ => return here) (·.type ≠ some none) ↔
      ¬ G.LeadsTo DINode.isPointerLike d.baseType none ∧
        ∀ n c', G.LeadsTo DINode.isPointerLike d.baseType (some n) → G.node n = .compositeType c' →
          ks ≠ [] → ((G.node n).isStructOrClass = true →
            NoNull (G.iterateGepIndex fuel c' ks) (·.type ≠ some none)) ∧
            ((G.node n).isArray = true → c'.baseType ≠ none) := by
  have hsome : ∀ (n : ι) (member : Option ι), NoNull (.ok ({ type := some (some n), member := member } :
      GepIndexToType ι)) (·.type ≠ some none) := by
    intro n member hnone
    cases hnone
  rw [NoNull.bind_iff, findNonDerivedTypeUnlessPtr, h.noNull_find_iff]
  constructor
  · intro hall
    refine ⟨fun hnone => hall none hnone rfl, fun n c' hn hc hks => ?_⟩
    have hmember := hall (some n) hn
    simp only [deref, ok_bind, hc] at hmember
    rw [if_neg (by simpa using hks)] at hmember
    constructor
    · intro hrecord
      rw [hc] at hrecord
      rw [if_pos hrecord] at hmember
      exact hmember
    · intro harray hbase
      rw [hc] at harray
      have htag : c'.tag = .arrayType := by simpa [DINode.isArray] using harray
      have hrecord : (DINode.compositeType c').isStructOrClass = false := by
        simp [DINode.isStructOrClass, DINode.tag, htag]
      rw [hrecord, if_neg Bool.false_ne_true, if_pos harray, hbase] at hmember
      exact hmember rfl
  · rintro ⟨hnone, hall⟩ r hr
    cases r with
    | none => exact absurd hr hnone
    | some n =>
      simp only [deref, ok_bind]
      cases hc : G.node n with
      | compositeType c' =>
        by_cases hks : ks = []
        · simp only [hks, List.isEmpty_nil, if_true]
          exact hsome n e
        · obtain ⟨hrecord, harray⟩ := hall n c' hr hc hks
          rw [hc] at hrecord harray
          simp only [List.isEmpty_eq_false_iff.mpr hks, Bool.false_eq_true, if_false]
          by_cases hr : (DINode.compositeType c').isStructOrClass = true
          · rw [if_pos hr]
            exact hrecord hr
          · rw [if_neg hr]
            by_cases ha : (DINode.compositeType c').isArray = true
            · rw [if_pos ha]
              intro hbase
              exact harray ha (Option.some.inj hbase)
            · rw [if_neg ha]
              exact hsome n e
      | _ => exact hsome n e

/-- One index. -/
lemma Suffices.noNull_iterate_cons_iff (h : G.Suffices fuel) {c : DICompositeType ι} {k : UInt64}
    {ks : List UInt64} :
    NoNull (G.iterateGepIndex fuel c (k :: ks)) (·.type ≠ some none) ↔
      ¬ (k.toNat < c.elements.length ∧ G.BaseMissing c.elements) ∧
      (∀ i e, G.gepElement c.elements k.toNat = .ok (i, e) → (G.node e).isArray = true →
        c.baseType ≠ none) ∧
      ∀ e, G.IndexedElement c k e →
        ((G.node e).asDerived = none → NoNull (G.iterateGepIndex fuel c ks) (·.type ≠ some none)) ∧
        ∀ d, G.node e = .derivedType d → ¬ G.LeadsTo DINode.isPointerLike d.baseType none ∧
          ∀ n c', G.LeadsTo DINode.isPointerLike d.baseType (some n) →
            G.node n = .compositeType c' → ks ≠ [] → ((G.node n).isStructOrClass = true →
              NoNull (G.iterateGepIndex fuel c' ks) (·.type ≠ some none)) ∧
              ((G.node n).isArray = true → c'.baseType ≠ none) := by
  rw [iterateGepIndex, NoNull.bind_iff, noNull_gepElement_iff]
  refine and_congr_right fun _ => ?_
  constructor
  · intro hall
    constructor
    · intro i e he harray hbase
      have helement := hall i e he
      simp only [harray, if_true, hbase] at helement
      exact helement rfl
    · rintro e ⟨i, element, he, harray, hskip⟩
      have helement := hall i element he
      simp only [harray, Bool.false_eq_true, if_false] at helement
      rw [NoNull.bind_iff, noNull_skipStaticMembers_iff] at helement
      have helement := helement e hskip
      constructor
      · intro hd
        simp only [hd] at helement
        exact helement
      · intro d hd
        simp only [hd, DINode.asDerived] at helement
        exact h.noNull_member_iff.mp helement
  · rintro ⟨harrays, hindexed⟩ i element he
    cases harray : (G.node element).isArray with
    | true =>
      simp only [harray, if_true]
      exact fun hbase => harrays i element he harray (Option.some.inj hbase)
    | false =>
      simp only [harray, Bool.false_eq_true, if_false]
      rw [NoNull.bind_iff, noNull_skipStaticMembers_iff]
      intro e hskip
      obtain ⟨hother, hderived⟩ := hindexed e ⟨i, element, he, harray, hskip⟩
      cases hd : G.node e with
      | derivedType d =>
        simp only [DINode.asDerived]
        exact h.noNull_member_iff.mpr (hderived d hd)
      | _ =>
        simp only [DINode.asDerived]
        exact hother (by rw [hd]; rfl)

/-- The search along the indices meets nothing missing exactly if they lead to no such element. -/
lemma Suffices.noNull_iterate_iff (h : G.Suffices fuel) {c : DICompositeType ι} {ks : List UInt64} :
    NoNull (G.iterateGepIndex fuel c ks) (·.type ≠ some none) ↔ ¬ G.ElementsMeetNull c ks := by
  induction ks generalizing c with
  | nil =>
    refine iff_of_true ?_ ?_
    · intro hnone
      cases hnone
    · intro hnull
      cases hnull
  | cons k ks ih =>
    rw [h.noNull_iterate_cons_iff]
    simp only [ih]
    constructor
    · rintro ⟨hbases, harrays, hindexed⟩ hnull
      cases hnull with
      | base hk hbase => exact hbases ⟨hk, hbase⟩
      | array he harray hbase => exact harrays _ _ he harray hbase
      | member he hd hnone => exact ((hindexed _ he).2 _ hd).1 hnone
      | memberArray he hd hn hc harray hks hbase =>
        exact (((hindexed _ he).2 _ hd).2 _ _ hn hc hks).2 harray hbase
      | field he hd hn hc hrecord hks hnull =>
        exact (((hindexed _ he).2 _ hd).2 _ _ hn hc hks).1 hrecord hnull
      | next he hd hnull => exact (hindexed _ he).1 hd hnull
    · intro hnull
      refine ⟨fun hmissing => hnull (.base hmissing.1 hmissing.2),
        fun i e he harray hbase => hnull (.array he harray hbase), fun e he =>
        ⟨fun hd hnext => hnull (.next he hd hnext), fun d hd =>
        ⟨fun hnone => hnull (.member he hd hnone), fun n c' hn hc hks => ⟨?_, ?_⟩⟩⟩⟩
      · exact fun hrecord hfield => hnull (.field he hd hn hc hrecord hks hfield)
      · exact fun harray hbase => hnull (.memberArray he hd hn hc harray hks hbase)

/-! ### Records that are passed -/

variable (G) in
/-- The look-through from a record ends at another, or at an element whose type is missing. -/
inductive Skips : DICompositeType ι → Option (DICompositeType ι) → Prop
  | several {c : DICompositeType ι}
      (hcount : c.elements.countP (fun e => (G.node e).isNonStaticMember) ≠ 1) : Skips c (some c)
  | null {c : DICompositeType ι} {e : ι}
      (hcount : c.elements.countP (fun e => (G.node e).isNonStaticMember) = 1)
      (he : G.selectFirstElement c.elements = .ok e)
      (hr : G.LeadsTo DINode.isPointerLike (if (G.node e).isType then some e else none) none) :
      Skips c none
  | other {c : DICompositeType ι} {e r : ι}
      (hcount : c.elements.countP (fun e => (G.node e).isNonStaticMember) = 1)
      (he : G.selectFirstElement c.elements = .ok e)
      (hr : G.LeadsTo DINode.isPointerLike (if (G.node e).isType then some e else none) (some r))
      (hnode : (G.node r).asComposite = none) : Skips c (some c)
  | step {c c' : DICompositeType ι} {x : Option (DICompositeType ι)} {e r : ι}
      (hcount : c.elements.countP (fun e => (G.node e).isNonStaticMember) = 1)
      (he : G.selectFirstElement c.elements = .ok e)
      (hr : G.LeadsTo DINode.isPointerLike (if (G.node e).isType then some e else none) (some r))
      (hnode : G.node r = .compositeType c') (h : Skips c' x) : Skips c x

omit [DecidableEq ι] in
/-- One record that is passed, or at which the look-through ends. -/
lemma skipFirst_succ {c : DICompositeType ι} {e : ι} {r : Option ι}
    (hcount : c.elements.countP (fun e => (G.node e).isNonStaticMember) = 1)
    (he : G.selectFirstElement c.elements = .ok e)
    (hr : G.findNonDerivedTypeUnlessPtr fuel (if (G.node e).isType then some e else none) = .ok r)
    (n : ι) : G.skipFirstGepAccess (fuel + 1) n c = deref r >>= fun next =>
      match G.node next with
      | .compositeType c' => G.skipFirstGepAccess fuel next c'
      | _                 => return (n, c) := by
  rw [skipFirstGepAccess, if_pos hcount, he, ok_bind]
  exact congrArg (· >>= _) hr

omit [DecidableEq ι] in
/-- With enough fuel the look-through ends where it leads. -/
lemma Skips.find {c : DICompositeType ι} {x : Option (DICompositeType ι)} (h : G.Skips c x) :
    ∃ fuel, ∀ fuel', fuel ≤ fuel' → ∀ n,
      Prod.snd <$> G.skipFirstGepAccess fuel' n c = deref x := by
  induction h with
  | several hcount =>
    refine ⟨1, fun fuel' hle n => ?_⟩
    obtain ⟨fuel', rfl⟩ := Nat.exists_eq_add_of_le' hle
    rw [skipFirst_of_countP hcount fuel']
    rfl
  | null hcount he hr =>
    obtain ⟨fuel, hfuel⟩ := hr.find
    refine ⟨fuel + 1, fun fuel' hle n => ?_⟩
    obtain ⟨fuel', rfl⟩ := Nat.exists_eq_add_of_le' (Nat.le_of_add_left_le hle)
    rw [skipFirst_succ hcount he (hfuel fuel' (Nat.le_of_succ_le_succ hle))]
    rfl
  | other hcount he hr hnode =>
    obtain ⟨fuel, hfuel⟩ := hr.find
    refine ⟨fuel + 1, fun fuel' hle n => ?_⟩
    obtain ⟨fuel', rfl⟩ := Nat.exists_eq_add_of_le' (Nat.le_of_add_left_le hle)
    rw [skipFirst_succ hcount he (hfuel fuel' (Nat.le_of_succ_le_succ hle))]
    simp only [deref, ok_bind]
    split
    · next hc =>
      rw [hc] at hnode
      cases hnode
    · rfl
  | step hcount he hr hnode _ ih =>
    obtain ⟨fuel, hfuel⟩ := hr.find
    obtain ⟨fuel₁, hfuel₁⟩ := ih
    refine ⟨max fuel fuel₁ + 1, fun fuel' hle n => ?_⟩
    obtain ⟨fuel', rfl⟩ := Nat.exists_eq_add_of_le' (Nat.le_of_add_left_le hle)
    have hle := Nat.le_of_succ_le_succ hle
    rw [skipFirst_succ hcount he (hfuel fuel' (le_of_max_le_left hle))]
    simp only [deref, ok_bind, hnode]
    exact hfuel₁ fuel' (le_of_max_le_right hle) _

omit [DecidableEq ι] in
lemma Skips.unique {c : DICompositeType ι} {x y : Option (DICompositeType ι)} (hx : G.Skips c x)
    (hy : G.Skips c y) (n : ι) : x = y := by
  obtain ⟨fuel, hfuel⟩ := hx.find
  obtain ⟨fuel', hfuel'⟩ := hy.find
  have heq := hfuel _ (le_max_left fuel fuel') n
  rw [hfuel' _ (le_max_right fuel fuel') n] at heq
  cases x <;> cases y <;> cases heq <;> rfl

omit [DecidableEq ι] in
/-- Where the look-through ends, it leads. -/
lemma skips_of_skipFirst {n : ι} {c : DICompositeType ι} {x : Option (DICompositeType ι)}
    (h : Prod.snd <$> G.skipFirstGepAccess fuel n c = deref x) : G.Skips c x := by
  induction fuel generalizing n c with
  | zero => cases x <;> cases h
  | succ fuel ih =>
    by_cases hcount : c.elements.countP (fun e => (G.node e).isNonStaticMember) = 1
    · have hne : c.elements ≠ [] := by
        intro hnil
        rw [hnil] at hcount
        cases hcount
      obtain ⟨e, he⟩ := G.exists_selectFirstElement hne
      have hfind : (∃ r, G.findNonDerivedTypeUnlessPtr fuel
          (if (G.node e).isType then some e else none) = .ok r) ∨
          G.findNonDerivedTypeUnlessPtr fuel (if (G.node e).isType then some e else none) =
            .error .outOfFuel := find_eq_or fuel _
      rcases hfind with ⟨r, hr⟩ | hr
      · rw [skipFirst_succ hcount he hr] at h
        cases r with
        | none =>
          cases x with
          | none => exact .null hcount he (leadsTo_of_find hr)
          | some c' => cases h
        | some r =>
          simp only [deref, ok_bind] at h
          cases hnode : G.node r with
          | compositeType c' =>
            rw [hnode] at h
            exact .step hcount he (leadsTo_of_find hr) hnode (ih h)
          | _ =>
            rw [hnode] at h
            cases x with
            | none => cases h
            | some c' =>
              cases h
              exact .other hcount he (leadsTo_of_find hr) (by rw [hnode]; rfl)
      · rw [skipFirstGepAccess, if_pos hcount, he, ok_bind, hr] at h
        cases x <;> cases h
    · rw [skipFirst_of_countP hcount] at h
      cases x with
      | none => cases h
      | some c' =>
        cases h
        exact .several hcount

variable (G) in
/-- The fuel suffices for every look-through that comes to an end. -/
def SufficesToSkip (fuel : ℕ) : Prop :=
  ∀ n c x, G.node n = .compositeType c → G.Skips c x →
    Prod.snd <$> G.skipFirstGepAccess fuel n c = deref x

omit [DecidableEq ι] in
lemma exists_sufficesToSkip [Finite ι] (G : DIGraph ι) :
    ∃ fuel, ∀ fuel', fuel ≤ fuel' → G.SufficesToSkip fuel' := by
  apply exists_fuel_of_finite
  intro n
  by_cases hn : ∃ c x, G.node n = .compositeType c ∧ G.Skips c x
  · obtain ⟨c, x, hc, hx⟩ := hn
    obtain ⟨fuel, hfuel⟩ := hx.find
    refine ⟨fuel, fun fuel' hle c' x' hc' hx' => ?_⟩
    rw [hc] at hc'
    cases hc'
    -- both look-throughs end at the same place
    rw [hx'.unique hx n]
    exact hfuel fuel' hle n
  · exact ⟨0, fun fuel' _ c x hc hx => absurd ⟨c, x, hc, hx⟩ hn⟩

omit [DecidableEq ι] in
lemma SufficesToSkip.noNull_skip_iff (h : G.SufficesToSkip fuel) {n : ι} {c : DICompositeType ι}
    (hn : G.node n = .compositeType c) {P : DICompositeType ι → Prop} :
    NoNull (G.skipFirstGepAccess fuel n c) (fun r => P r.2) ↔
      ¬ G.Skips c none ∧ ∀ c', G.Skips c (some c') → P c' := by
  have hends := h n c
  cases hskip : G.skipFirstGepAccess fuel n c with
  | ok r =>
    simp only [hskip] at hends
    constructor
    · intro hP
      constructor
      · intro hnone
        cases hends none hn hnone
      · intro c' hc'
        obtain rfl := Except.ok.inj (hends (some c') hn hc')
        exact hP
    · rintro ⟨-, hall⟩
      apply hall r.2
      apply skips_of_skipFirst
      rw [hskip]
      rfl
  | error e =>
    simp only [hskip] at hends
    constructor
    · intro he
      constructor
      · exact fun hnone => he (Except.error.inj (hends none hn hnone))
      · intro c' hc'
        cases hends (some c') hn hc'
    · rintro ⟨hnone, -⟩ rfl
      apply hnone
      apply skips_of_skipFirst
      rw [hskip]
      rfl

/-! ### Indices -/

variable (G) in
/-- The indices of a GEP on a composite lead to a missing type: the elements of an array without a
constant index, or an element of the composite or of the record that is passed to. -/
def IndicesMeetNull (n : ι) (c : DICompositeType ι) (gepIndices : GepIndices) : Prop :=
  match gepIndices.indices with
  | [] => gepIndices.dynamicAccess = true ∧ (G.node n).isArray = true ∧ c.baseType = none
  | k :: ks => gepIndices.byteAccess = false ∧
    if gepIndices.skippedFirst = true ∧ k ≠ 0 then
      G.Skips c none ∨ ∃ c', G.Skips c (some c') ∧ G.ElementsMeetNull c' (k :: ks)
    else G.ElementsMeetNull c (k :: ks)

lemma Suffices.noNull_resolve_iff (h : G.Suffices fuel) (hskip : G.SufficesToSkip fuel) {n : ι}
    {c : DICompositeType ι} (hn : G.node n = .compositeType c) (gepIndices : GepIndices) :
    NoNull (G.resolveGepIndexToType fuel n c gepIndices) (·.type ≠ some none) ↔
      ¬ G.IndicesMeetNull n c gepIndices := by
  rw [resolveGepIndexToType, IndicesMeetNull]
  cases hindices : gepIndices.indices with
  | nil =>
    simp only
    cases hdynamic : gepIndices.dynamicAccess && (G.node n).isArray with
    | true =>
      rw [Bool.and_eq_true] at hdynamic
      simp [hdynamic.1, hdynamic.2]
    | false =>
      rw [Bool.and_eq_false_iff] at hdynamic
      rcases hdynamic with hdynamic | hdynamic
      · simp [hdynamic]
      · simp [hdynamic]
  | cons k ks =>
    cases hbyte : gepIndices.byteAccess with
    | true =>
      obtain ⟨r, hr⟩ := h.members n c k hn
      simp only [if_true, hr, ok_bind, Bool.true_eq_false, false_and, not_false_eq_true, iff_true]
      cases r with
      | none =>
        intro hnone
        cases hnone
      | some r =>
        intro hnone
        cases hnone
    | false =>
      simp only [Bool.false_eq_true, if_false, true_and, Bool.and_eq_true, bne_iff_ne, ne_eq]
      by_cases hskipped : gepIndices.skippedFirst = true ∧ ¬ k = 0
      · simp only [if_pos hskipped]
        rw [NoNull.bind_iff]
        refine (hskip.noNull_skip_iff hn (P := fun c' => NoNull (G.iterateGepIndex fuel c' (k :: ks))
          (·.type ≠ some none))).trans ?_
        simp only [h.noNull_iterate_iff, not_or, not_exists, not_and]
      · simp only [if_neg hskipped]
        exact h.noNull_iterate_iff

end DIGraph

end Dimeta
