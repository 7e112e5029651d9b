import Dimeta.Extract.GEP

/-!
# Chains of derived types

Where a chain of derived types leads, as a relation that says nothing about how deep the chain is,
and what the search along the chain computes from it.
-/

set_option autoImplicit false

namespace Dimeta

variable {ι : Type}

namespace DIGraph

variable (G : DIGraph ι) (stop : DINode ι → Bool)

/-- The chain from `t` leads to `r`: to a derived type that it stops at, to a node of another kind,
or to nothing. -/
inductive LeadsTo : Option ι → Option ι → Prop
  | null : LeadsTo none none
  | stop {t : ι} {d : DIDerivedType ι} (ht : G.node t = .derivedType d)
      (hd : stop (.derivedType d) = true) : LeadsTo (some t) (some t)
  | other {t : ι} (ht : (G.node t).asDerived = none) : LeadsTo (some t) (some t)
  | step {t : ι} {d : DIDerivedType ι} {r : Option ι} (ht : G.node t = .derivedType d)
      (hd : stop (.derivedType d) = false) (hbase : LeadsTo d.baseType r) : LeadsTo (some t) r

variable {G stop}

lemma find_succ_of_asDerived {t : ι} (ht : (G.node t).asDerived = none) (fuel : ℕ) :
    G.findNonDerivedTypeUnless stop (fuel + 1) (some t) = .ok (some t) := by
  rw [findNonDerivedTypeUnless]
  split
  · next d hd =>
    rw [hd] at ht
    cases ht
  · rfl

lemma LeadsTo.find {t r : Option ι} (h : G.LeadsTo stop t r) :
    ∃ fuel, ∀ fuel', fuel ≤ fuel' → G.findNonDerivedTypeUnless stop fuel' t = .ok r := by
  induction h with
  | null =>
    refine ⟨1, fun fuel' hle => ?_⟩
    obtain ⟨fuel', rfl⟩ := Nat.exists_eq_succ_of_ne_zero (by omega : fuel' ≠ 0)
    rfl
  | stop ht hd =>
    refine ⟨1, fun fuel' hle => ?_⟩
    obtain ⟨fuel', rfl⟩ := Nat.exists_eq_succ_of_ne_zero (by omega : fuel' ≠ 0)
    simp only [findNonDerivedTypeUnless, ht, hd, if_true]
  | other ht =>
    refine ⟨1, fun fuel' hle => ?_⟩
    obtain ⟨fuel', rfl⟩ := Nat.exists_eq_succ_of_ne_zero (by omega : fuel' ≠ 0)
    exact find_succ_of_asDerived ht fuel'
  | step ht hd _ ih =>
    obtain ⟨fuel, hfuel⟩ := ih
    refine ⟨fuel + 1, fun fuel' hle => ?_⟩
    obtain ⟨fuel', rfl⟩ := Nat.exists_eq_succ_of_ne_zero (by omega : fuel' ≠ 0)
    simp only [findNonDerivedTypeUnless, ht, hd, Bool.false_eq_true, if_false]
    exact hfuel fuel' (by omega)

lemma leadsTo_of_find {fuel : ℕ} {t r : Option ι}
    (h : G.findNonDerivedTypeUnless stop fuel t = .ok r) : G.LeadsTo stop t r := by
  induction fuel generalizing t with
  | zero => cases h
  | succ fuel ih =>
    cases t with
    | none =>
      obtain rfl := Except.ok.inj h
      exact .null
    | some t =>
      cases hd : (G.node t).asDerived with
      | none =>
        rw [find_succ_of_asDerived hd] at h
        obtain rfl := Except.ok.inj h
        exact .other hd
      | some d =>
        have ht : G.node t = .derivedType d := by
          cases hnode : G.node t <;> rw [hnode] at hd <;> cases hd
          rfl
        simp only [findNonDerivedTypeUnless, ht] at h
        cases hstop : stop (.derivedType d) with
        | true =>
          rw [if_pos hstop] at h
          obtain rfl := Except.ok.inj h
          exact .stop ht hstop
        | false =>
          rw [if_neg (by simp [hstop])] at h
          exact .step ht hstop (ih h)

lemma LeadsTo.ne_none {t : Option ι} {r : ι} (h : G.LeadsTo stop t (some r)) : t ≠ none := by
  rintro rfl
  cases h

/-- A chain leads to one place only. -/
lemma LeadsTo.unique {t r r' : Option ι} (h : G.LeadsTo stop t r) (h' : G.LeadsTo stop t r') :
    r = r' := by
  obtain ⟨fuel, hfuel⟩ := h.find
  obtain ⟨fuel', hfuel'⟩ := h'.find
  have heq := hfuel _ (le_max_left fuel fuel')
  rw [hfuel' _ (le_max_right fuel fuel')] at heq
  exact (Except.ok.inj heq).symm

/-- The only way to fail is to run out of fuel. -/
lemma find_eq_or (fuel : ℕ) (t : Option ι) :
    (∃ r, G.findNonDerivedTypeUnless stop fuel t = .ok r) ∨
      G.findNonDerivedTypeUnless stop fuel t = .error .outOfFuel := by
  induction fuel generalizing t with
  | zero => exact .inr rfl
  | succ fuel ih =>
    cases t with
    | none => exact .inl ⟨_, rfl⟩
    | some t =>
      rw [findNonDerivedTypeUnless]
      split
      · split
        · exact .inl ⟨_, rfl⟩
        · exact ih _
      · exact .inl ⟨_, rfl⟩

end DIGraph

end Dimeta
