import Dimeta.Extract.Chains
import Dimeta.Extract.FirstMember
import Mathlib.Order.Filter.AtTopBot.Basic
import Mathlib.Order.Filter.Finite

/-!
# Computations that meet no missing type

What it takes that a computation uses no missing type and comes to a value with some property, for
the steps that computations are made of. Chains and members are looked up with enough fuel.
-/

set_option autoImplicit false

namespace Dimeta

variable {α β ι ν : Type}

/-- The computation uses no missing type, and its value satisfies `P` if it has one. -/
def NoNull (x : Except Fault α) (P : α → Prop) : Prop :=
  match x with
  | .ok a    => P a
  | .error e => e ≠ .nullType

namespace NoNull

variable {P Q : α → Prop}

@[simp] lemma ok_iff {a : α} : NoNull (.ok a) P ↔ P a := Iff.rfl

@[simp] lemma error_iff {e : Fault} : NoNull (.error e : Except Fault α) P ↔ e ≠ .nullType :=
  Iff.rfl

@[simp] lemma pure_iff {a : α} : NoNull (pure a) P ↔ P a := Iff.rfl

lemma bind_iff {x : Except Fault α} {f : α → Except Fault β} {Q : β → Prop} :
    NoNull (x >>= f) Q ↔ NoNull x fun a => NoNull (f a) Q := by
  cases x with
  | ok a => exact Iff.rfl
  | error e => exact Iff.rfl

lemma congr {x : Except Fault α} (h : ∀ a, x = .ok a → (P a ↔ Q a)) :
    NoNull x P ↔ NoNull x Q := by
  cases x with
  | ok a => exact h a rfl
  | error e => exact Iff.rfl

lemma deref_iff {x : Option α} : NoNull (deref x) P ↔ ∃ a, x = some a ∧ P a := by
  cases x with
  | none =>
    refine iff_of_false (fun h => h rfl) ?_
    rintro ⟨_, h, -⟩
    cases h
  | some a => simp [deref]

lemma iff_forall {x : Except Fault α} :
    NoNull x P ↔ x ≠ .error .nullType ∧ ∀ a, x = .ok a → P a := by
  cases x with
  | ok a => simp
  | error e => simp

end NoNull

namespace DIGraph

variable {G : DIGraph ι} {t : ι}

/-! ### Members and arrays -/

/-- A member needs a base type to be recognized as an array. -/
lemma noNull_isArrayMember_iff {P : Bool → Prop} : NoNull (G.isArrayMember t) P ↔
    if (G.node t).isMember then ∃ d b, (G.node t).asDerived = some d ∧ d.baseType = some b ∧
      P ((G.node b).tag == .arrayType) else P false := by
  rw [isArrayMember]
  cases (G.node t).isMember with
  | true =>
    simp only [if_true, NoNull.bind_iff, NoNull.deref_iff, NoNull.pure_iff]
    constructor
    · rintro ⟨d, hd, b, hb, h⟩
      exact ⟨d, b, hd, hb, h⟩
    · rintro ⟨d, b, hd, hb, h⟩
      exact ⟨d, hd, b, hb, h⟩
  | false => simp

/-! ### Enough fuel -/

variable (G) in
/-- The fuel suffices for all chains of derived types and for all searches for a member. -/
structure Suffices [DecidableEq ι] (fuel : ℕ) : Prop where
  chains : ∀ (stop : DINode ι → Bool) (t : Option ι), ∃ r,
    G.findNonDerivedTypeUnless stop fuel t = .ok r
  desugars : ∀ t, ∃ r, G.desugar fuel t = .ok r
  members : ∀ n c offset, G.node n = .compositeType c → ∃ r, G.memberAt fuel n c offset = .ok r

/-- The end of a chain has the property. -/
lemma Suffices.noNull_find_iff [DecidableEq ι] {fuel : ℕ} (h : G.Suffices fuel)
    {stop : DINode ι → Bool} {t : Option ι} {P : Option ι → Prop} :
    NoNull (G.findNonDerivedTypeUnless stop fuel t) P ↔ ∀ r, G.LeadsTo stop t r → P r := by
  obtain ⟨r, hr⟩ := h.chains stop t
  rw [hr, NoNull.ok_iff]
  constructor
  · intro hP r' hr'
    rw [hr'.unique (leadsTo_of_find hr)]
    exact hP
  · intro hP
    exact hP r (leadsTo_of_find hr)

/-- Where cycles pass through records, every chain comes to an end. -/
lemma exists_find [Finite ι] (hG : G.CyclesPassRecords) (t : ι) : ∃ fuel, ∀ fuel', fuel ≤ fuel' →
    (∀ stop, ∃ r, G.findNonDerivedTypeUnless stop fuel' (some t) = .ok r) ∧
      ∀ level reached, ∃ r, G.desugarLoop level fuel' reached (some t) = .ok r := by
  have hwf := hG.wellFounded
  induction t using hwf.induction with
  | _ t ih =>
    -- the base type, if there is one, is looked up with one unit of fuel less
    have hbase : ∀ b, (G.node t).asDerived.bind (·.baseType) = b → ∃ fuel, ∀ fuel', fuel ≤ fuel' →
        (∀ stop, ∃ r, G.findNonDerivedTypeUnless stop fuel' b = .ok r) ∧
          ∀ level reached, ∃ r, G.desugarLoop level fuel' reached b = .ok r := by
      intro b hb
      cases b with
      | none =>
        refine ⟨1, fun fuel' hle => ?_⟩
        obtain ⟨fuel', rfl⟩ := Nat.exists_eq_add_of_le' hle
        exact ⟨fun _ => ⟨none, rfl⟩, fun _ _ => ⟨none, rfl⟩⟩
      | some b =>
        apply ih b
        apply Relation.TransGen.single
        cases ht : G.node t with
        | derivedType d =>
          rw [ht] at hb
          rw [PlainStep, ht]
          exact hb
        | _ =>
          rw [ht] at hb
          cases hb
    obtain ⟨fuel, hfuel⟩ := hbase _ rfl
    refine ⟨fuel + 1, fun fuel' hle => ?_⟩
    obtain ⟨fuel', rfl⟩ := Nat.exists_eq_add_of_le' (Nat.le_of_add_left_le hle)
    obtain ⟨hfind, hdesugar⟩ := hfuel fuel' (Nat.le_of_succ_le_succ hle)
    cases ht : G.node t with
    | derivedType d =>
      rw [ht] at hfind hdesugar
      constructor
      · intro stop
        simp only [findNonDerivedTypeUnless, ht]
        by_cases hstop : stop (.derivedType d) = true
        · rw [if_pos hstop]
          exact ⟨_, rfl⟩
        · rw [if_neg hstop]
          exact hfind stop
      · intro level reached
        simp only [DIGraph.desugarLoop, ht]
        by_cases hreached : reached > level
        · rw [if_pos hreached]
          exact ⟨_, rfl⟩
        · rw [if_neg hreached]
          exact hdesugar level _
    | _ =>
      constructor
      · intro stop
        exact ⟨_, find_succ_of_asDerived (by rw [ht]; rfl) fuel'⟩
      · intro level reached
        simp only [DIGraph.desugarLoop, ht]
        exact ⟨_, rfl⟩

/-- What holds for each of finitely many with enough fuel, holds for all of them with enough. -/
lemma exists_fuel_of_finite {γ : Type} [Finite γ] {P : γ → ℕ → Prop}
    (h : ∀ x, ∃ fuel, ∀ fuel', fuel ≤ fuel' → P x fuel') :
    ∃ fuel, ∀ fuel', fuel ≤ fuel' → ∀ x, P x fuel' := by
  have hall : ∀ᶠ fuel in Filter.atTop, ∀ x, P x fuel :=
    Filter.eventually_all.mpr fun x => Filter.eventually_atTop.mpr (h x)
  exact Filter.eventually_atTop.mp hall

end DIGraph

/-- For a sound graph there is enough fuel. -/
lemma SoundGraph.exists_suffices [DecidableEq ι] [Fintype ι] (G : SoundGraph ι) :
    ∃ fuel, ∀ fuel', fuel ≤ fuel' → G.Suffices fuel' := by
  obtain ⟨fuel, hfuel⟩ := DIGraph.exists_fuel_of_finite fun t => DIGraph.exists_find
    G.cycles_pass_records t
  have hmembers : ∀ n, ∃ fuel, ∀ fuel', fuel ≤ fuel' → ∀ c offset, G.node n = .compositeType c →
      ∃ r, G.memberAt fuel' n c offset = .ok r := by
    intro n
    obtain ⟨w, fuel, hfuel⟩ := G.exists_memberAt n
    exact ⟨fuel, fun fuel' hle c offset hn => ⟨_, (hfuel fuel' hle).2 c offset hn⟩⟩
  obtain ⟨fuel₁, hfuel₁⟩ := DIGraph.exists_fuel_of_finite hmembers
  refine ⟨max fuel fuel₁ + 1, fun fuel' hle => ?_⟩
  have hchains := hfuel fuel' (le_of_max_le_left (Nat.le_of_succ_le hle))
  refine ⟨fun stop t => ?_, fun t => ?_, hfuel₁ fuel' (le_of_max_le_right (Nat.le_of_succ_le hle))⟩
  · cases t with
    | none =>
      obtain ⟨fuel', rfl⟩ := Nat.exists_eq_add_of_le' (Nat.le_of_add_left_le hle)
      exact ⟨none, rfl⟩
    | some t => exact (hchains t).1 stop
  · obtain ⟨r, hr⟩ := (hchains t).2 1 0
    rw [DIGraph.desugar, hr]
    exact ⟨_, rfl⟩

end Dimeta
