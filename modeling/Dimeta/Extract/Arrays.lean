import Dimeta.Extract.Splits

/-!
# Arrays of records

An access to a field of a record that stands in an array: the member that is the array, an element,
and the field of the element. The type stays at the member, and the index of the field is applied
to the dimensions of the array.
-/

set_option autoImplicit false

namespace Dimeta

variable {ι ν : Type} {G : DIGraph ι} {M : IRModule ι ν}

namespace DIGraph

/-- The GEP `[0, k]` on the composite `n` computes the address of the member `e` with the type
`r`. -/
def Selects [DecidableEq ι] (G : DIGraph ι) (n : ι) (c : DICompositeType ι) (k : ℤ) (e r : ι) :
    Prop :=
  ∃ fuel, ∀ fuel', fuel ≤ fuel' → G.resolveGepIndexToType fuel' n c (steppedIndices [some k]) =
    .ok { type := some (some r), member := some e }

/-- The field numbers of a plain record find the fields. -/
lemma PlainRecord.selects [DecidableEq ι] {c : DICompositeType ι} {members : List ι}
    (h : G.PlainRecord c members) {k : ℤ} {e r : ι}
    (he : members[(UInt64.ofInt k).toNat]? = some e) (hr : G.Refers e r) (n : ι) :
    G.Selects n c k e r := by
  have hks : constIndices [some k] = [UInt64.ofInt k] := rfl
  exact MemberPath.resolve (.member h he hr) n hks

/-! ### The array as a member -/

variable [DecidableEq ι]

end DIGraph

/-! ### Accesses to fields of elements -/

section

variable [DecidableEq ι] [DecidableEq ν]

end

/-! ### An array of two records -/

end Dimeta
