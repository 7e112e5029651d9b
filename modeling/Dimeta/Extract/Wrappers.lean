import Dimeta.Extract.Bases

/-!
# Wrappers

A record with a single member is taken for a wrapper of the record that the member is, and is passed.
Base classes are not counted, but they are what is stepped into.
-/

set_option autoImplicit false

namespace Dimeta

variable {ι : Type} {G : DIGraph ι}

namespace DIGraph

/-- Base classes and members, static ones among them, and subprograms behind. -/
structure ClassElements (G : DIGraph ι) (members subprograms : List ι) : Prop where
  typed : ∀ e ∈ members, (∃ r, G.Refers e r) ∧ (G.node e).isPointerLike = false
  subprogram : ∀ e ∈ subprograms, G.node e = .subprogram

/-- The composite has one member, and what it is stepped into leads to a composite. -/
def Wraps (G : DIGraph ι) (c : DICompositeType ι) : Prop :=
  c.elements.countP (fun e => (G.node e).isNonStaticMember) = 1 ∧
    ∃ e r c', G.selectFirstElement c.elements = .ok e ∧ (G.node e).isType = true ∧
      G.LeadsTo DINode.isPointerLike (some e) (some r) ∧ G.node r = .compositeType c'

lemma Refers.leadsTo {e r : ι} (h : G.Refers e r) (hpointer : (G.node e).isPointerLike = false) :
    (G.node e).isType = true ∧ G.LeadsTo DINode.isPointerLike (some e) (some r) := by
  obtain ⟨d, hd, hr⟩ := h
  rw [hd] at hpointer
  rw [hd]
  exact ⟨rfl, .step hd hpointer hr⟩

/-- Where the loop stops there is no wrapper. -/
lemma not_wraps_of_skipFirst {fuel : ℕ} {n n' : ι} {c c' : DICompositeType ι}
    (h : G.skipFirstGepAccess fuel n c = .ok (n', c')) : ¬ G.Wraps c' := by
  induction fuel generalizing n c with
  | zero => cases h
  | succ fuel ih =>
    rw [skipFirstGepAccess] at h
    split at h
    · rintro ⟨hcount', e', r', c'', hsel', htype', hr', hc''⟩
      cases hsel : G.selectFirstElement c.elements with
      | error _ =>
        rw [hsel] at h
        cases h
      | ok e =>
        rw [hsel, ok_bind] at h
        cases hfind : G.findNonDerivedTypeUnlessPtr fuel
            (if (G.node e).isType then some e else none) with
        | error _ =>
          rw [hfind] at h
          cases h
        | ok next =>
          rw [hfind, ok_bind] at h
          cases next with
          | none => cases h
          | some next =>
            simp only [deref, ok_bind] at h
            split at h
            · exact ih h ⟨hcount', e', r', c'', hsel', htype', hr', hc''⟩
            · next hother =>
              obtain ⟨rfl, rfl⟩ := Prod.mk.inj (Except.ok.inj h)
              -- the element that the loop stopped at leads to no composite
              rw [hsel] at hsel'
              obtain rfl := Except.ok.inj hsel'
              rw [if_pos htype'] at hfind
              obtain rfl := Option.some.inj ((leadsTo_of_find hfind).unique hr')
              exact hother c'' hc''
    · next hcount =>
      obtain ⟨rfl, rfl⟩ := Prod.mk.inj (Except.ok.inj h)
      exact fun hwraps => hcount hwraps.1

/-- A class that is no wrapper is where the loop stops. -/
lemma ClassElements.skipFirst_of_not_wraps {members subprograms : List ι}
    (h : G.ClassElements members subprograms) {c : DICompositeType ι}
    (hc : c.elements = members ++ subprograms) (hfirst : members ≠ [])
    (hwraps : ¬ G.Wraps c) (n : ι) :
    ∃ fuel, ∀ fuel', fuel ≤ fuel' → G.skipFirstGepAccess fuel' n c = .ok (n, c) := by
  by_cases hcount : c.elements.countP (fun e => (G.node e).isNonStaticMember) = 1
  · obtain ⟨e, hsel, he⟩ : ∃ e, G.selectFirstElement c.elements = .ok e ∧ e ∈ members := by
      rw [hc]
      match members, subprograms, h with
      | [], _, _ => exact absurd rfl hfirst
      | [e], [], _ => exact ⟨e, rfl, by simp⟩
      | [e], s :: _, h =>
        have hs : (G.node s).asDerived = none := by rw [h.subprogram s (by simp)]; rfl
        refine ⟨e, ?_, by simp⟩
        show Except.ok (G.selectNonZeroElement e s) = _
        rw [selectNonZeroElement, hs]
        cases (G.node e).asDerived <;> rfl
      | e :: e' :: _, _, _ =>
        refine ⟨G.selectNonZeroElement e e', rfl, ?_⟩
        rcases BasesAndMembers.selectNonZeroElement_eq (G := G) e e' with hsel | hsel <;>
          rw [hsel] <;> simp
    obtain ⟨⟨r, hr⟩, hpointer⟩ := h.typed e he
    obtain ⟨htype, hleads⟩ := hr.leadsTo hpointer
    obtain ⟨fuel, hfuel⟩ := hleads.find
    refine ⟨fuel + 1, fun fuel' hle => ?_⟩
    obtain ⟨fuel', rfl⟩ := Nat.exists_eq_succ_of_ne_zero (by omega : fuel' ≠ 0)
    have hfind : G.findNonDerivedTypeUnlessPtr fuel' (some e) = .ok (some r) :=
      hfuel fuel' (by omega)
    rw [skipFirstGepAccess, if_pos hcount, hsel, ok_bind, if_pos htype, hfind]
    simp only [ok_bind, deref]
    split
    · next c' hc' => exact absurd ⟨hcount, e, r, c', hsel, htype, hleads, hc'⟩ hwraps
    · rfl
  · refine ⟨1, fun fuel' hle => ?_⟩
    obtain ⟨fuel', rfl⟩ := Nat.exists_eq_succ_of_ne_zero (by omega : fuel' ≠ 0)
    exact skipFirst_of_countP hcount fuel'

/-- The look-through returns the class itself exactly if that is no wrapper, and then field indices
are resolved against the elements of the class. -/
theorem ClassElements.skipFirst_self_iff [DecidableEq ι] {members subprograms : List ι}
    (h : G.ClassElements members subprograms) {c : DICompositeType ι}
    (hc : c.elements = members ++ subprograms) (hfirst : members ≠ []) (n : ι) :
    ∃ fuel, ∀ fuel', fuel ≤ fuel' →
      ((G.skipFirstGepAccess fuel' n c = .ok (n, c) ∧ ∀ k,
          G.resolveGepIndexToType fuel' n c (fieldIndex k) = G.iterateGepIndex fuel' c [k]) ↔
        ¬ G.Wraps c) := by
  by_cases hwraps : G.Wraps c
  · exact ⟨0, fun fuel' _ => iff_of_false
      (fun hself => not_wraps_of_skipFirst hself.1 hwraps) fun hnot => hnot hwraps⟩
  · obtain ⟨fuel, hfuel⟩ := h.skipFirst_of_not_wraps hc hfirst hwraps n
    refine ⟨fuel, fun fuel' hle => iff_of_true ⟨hfuel fuel' hle, fun k => ?_⟩ hwraps⟩
    exact resolve_of_not_skipped rfl rfl (.inr (hfuel fuel' hle))

end DIGraph

/-! ### A derived class with one member -/

/-- `struct B { int b0; int b1; }; struct D : B { int x; };` -/
def derivedWithMember : DIGraph (Fin 7) where
  node
    | 0 => .compositeType { tag := .structureType, name := "D", sizeInBits := 96,
                            elements := [1, 2] }
    | 1 => .derivedType { tag := .inheritance, baseType := some 3 }
    | 2 => .derivedType { tag := .member, name := "x", sizeInBits := 32, offsetInBits := 64,
                          baseType := some 6 }
    | 3 => .compositeType { tag := .structureType, name := "B", sizeInBits := 64,
                            elements := [4, 5] }
    | 4 => .derivedType { tag := .member, name := "b0", sizeInBits := 32, baseType := some 6 }
    | 5 => .derivedType { tag := .member, name := "b1", sizeInBits := 32, offsetInBits := 32,
                          baseType := some 6 }
    | 6 => .basicType { name := "int", sizeInBits := 32, encoding := .signed }

lemma classElements_derivedWithMember : derivedWithMember.ClassElements [1, 2] [] where
  typed e he := by
    fin_cases he
    · exact ⟨⟨3, _, rfl, .other rfl⟩, rfl⟩
    · exact ⟨⟨6, _, rfl, .other rfl⟩, rfl⟩
  subprogram e he := by cases he

theorem DIGraph.ClassElements.skipFirst_self_iff_derivedWithMember :
    ∃ fuel, ∀ fuel', fuel ≤ fuel' →
      ((derivedWithMember.skipFirstGepAccess fuel' 0 { tag := .structureType, elements := [1, 2] } =
          .ok (0, { tag := .structureType, elements := [1, 2] }) ∧ ∀ k,
        derivedWithMember.resolveGepIndexToType fuel' 0
            { tag := .structureType, elements := [1, 2] } (DIGraph.fieldIndex k) =
          derivedWithMember.iterateGepIndex fuel' { tag := .structureType, elements := [1, 2] } [k]) ↔
        ¬ derivedWithMember.Wraps { tag := .structureType, elements := [1, 2] }) :=
  classElements_derivedWithMember.skipFirst_self_iff rfl (List.cons_ne_nil _ _) 0

open Classical in
/-- `D` has the two fields `B` and `x`, but is passed to `B`: it has one member of its own. -/
theorem not_skipFirst_self : ¬ ∀ (G : DIGraph (Fin 7)) (members subprograms : List (Fin 7))
    (n : Fin 7) (c : DICompositeType (Fin 7)), G.ClassElements members subprograms →
    c.elements = members ++ subprograms →
    2 ≤ (members.countP fun e => decide (G.Occupies e ∧ G.isStaticMember e = false)) →
    ∃ fuel, ∀ fuel', fuel ≤ fuel' → G.skipFirstGepAccess fuel' n c = .ok (n, c) := by
  intro h
  have hbase : derivedWithMember.Occupies 1 ∧ derivedWithMember.isStaticMember 1 = false := by
    refine ⟨⟨_, rfl, fun b _ hb hempty => ?_⟩, rfl⟩
    obtain rfl := Option.some.inj (hb.unique (.other rfl))
    cases hempty with
    | mk hn hmembers _ =>
      obtain rfl := DINode.compositeType.inj hn
      exact absurd (hmembers 4 (by decide)) (by decide)
  have hmember : derivedWithMember.Occupies 2 ∧ derivedWithMember.isStaticMember 2 = false :=
    ⟨⟨_, rfl, fun b htag => by cases htag⟩, rfl⟩
  obtain ⟨fuel, hfuel⟩ := h derivedWithMember [1, 2] [] 0
    { tag := .structureType, elements := [1, 2] } classElements_derivedWithMember rfl
    (by simp [hbase, hmember])
  have hpassed : derivedWithMember.skipFirstGepAccess (fuel + 3) 0
      { tag := .structureType, elements := [1, 2] } =
        .ok (3, { tag := .structureType, name := "B", sizeInBits := 64, elements := [4, 5] }) := rfl
  rw [hfuel (fuel + 3) (Nat.le_add_right _ _)] at hpassed
  exact absurd (congrArg Prod.fst (Except.ok.inj hpassed)) (by decide)

end Dimeta
