import Dimeta.Extract.Reset
import Dimeta.Extract.Wrappers

/-!
# GEPs into records

What a GEP with several indices does at a root that is a record, a pointer to one, or a member that
is one. The first index steps over whole objects and is dropped, unless it is a positive constant:
then it is kept and selects a field.
-/

set_option autoImplicit false

namespace Dimeta

variable {ι ν : Type} {G : DIGraph ι} {M : IRModule ι ν}

/-- The root is the composite `n`, up to pointers, names, qualifiers and the member it is. -/
structure DIGraph.CompositeRoot (G : DIGraph ι) (t n : ι) (c : DICompositeType ι) : Prop where
  leads : G.LeadsTo (fun _ => false) (some t) (some n)
  node : G.node n = .compositeType c
  complete : c.isForwardDecl = false

/-- The composite is a record. -/
structure DIGraph.RecordRoot (G : DIGraph ι) (t n : ι) (c : DICompositeType ι) : Prop
    extends G.CompositeRoot t n c where
  record : c.isRecord = true

/-- A GEP with at least two indices over a struct type, without an inlined location. -/
structure StructGep (M : IRModule ι ν) (v : ν) (gep : GEPOperator ν) (i₀ : Option ℤ)
    (indices : List (Option ℤ)) : Prop where
  index_eq : gep.indices = i₀ :: indices
  several : indices ≠ []
  struct : ∃ elements, gep.sourceElementType = .struct elements
  inlined : tryResolveInlinedDebugLoc M v gep = none

/-- The constants among the indices. -/
def constIndices (indices : List (Option ℤ)) : List UInt64 :=
  indices.filterMap fun index => index.map UInt64.ofInt

/-- The GEP indices if the first one is dropped. -/
def steppedIndices (indices : List (Option ℤ)) : GepIndices where
  indices := constIndices indices
  skippedFirst := true
  byteAccess := false
  dynamicAccess := (constIndices indices).isEmpty

/-- A constant index above 0. -/
def isPositive (index : Option ℤ) : Bool := index.any fun k => decide (0 < k)

/-- The same GEP with another first index. -/
def GEPOperator.withFirst (gep : GEPOperator ν) (index : Option ℤ) : GEPOperator ν :=
  { gep with indices := index :: gep.indices.tail }

namespace StructGep

variable {v : ν} {gep : GEPOperator ν} {i₀ : Option ℤ} {indices : List (Option ℤ)}

lemma withFirst (h : StructGep M v gep i₀ indices) (index : Option ℤ) :
    StructGep M v (gep.withFirst index) index indices where
  index_eq := by
    rw [GEPOperator.withFirst, h.index_eq]
    rfl
  several := h.several
  struct := h.struct
  inlined := h.inlined

lemma isByteIndexing (h : StructGep M v gep i₀ indices) : gep.isByteIndexing = false := by
  obtain ⟨elements, hstruct⟩ := h.struct
  rw [GEPOperator.isByteIndexing, hstruct]
  rfl

lemma length_ne_one (h : StructGep M v gep i₀ indices) : (gep.indices.length == 1) = false := by
  rw [h.index_eq, List.length_cons, beq_eq_false_iff_ne]
  exact fun heq => h.several (List.eq_nil_of_length_eq_zero (Nat.succ.inj heq))

lemma isFirstNonZeroIndexing (h : StructGep M v gep i₀ indices) :
    gep.isFirstNonZeroIndexing = .ok (isPositive i₀) := by
  rw [GEPOperator.isFirstNonZeroIndexing, h.index_eq]
  cases i₀ <;> rfl

/-- Only the constants of the indices are kept, all of them if the first one is positive. -/
lemma create (h : StructGep M v gep i₀ indices) (skipFirst : Bool) :
    GepIndices.create gep skipFirst =
      { indices := constIndices (if skipFirst then indices else i₀ :: indices)
        skippedFirst := skipFirst
        byteAccess := false
        dynamicAccess := (constIndices (if skipFirst then indices else i₀ :: indices)).isEmpty } := by
  rw [GepIndices.create, h.isByteIndexing, h.index_eq]
  cases skipFirst <;> simp [constIndices]

end StructGep

section

variable [DecidableEq ι]

omit [DecidableEq ι] in
lemma baseIsPointer_of_leads {t n : ι} (h : G.LeadsTo (fun _ => false) (some t) (some n)) :
    ∃ x, G.baseIsPointer t = .ok x := by
  rw [DIGraph.baseIsPointer]
  cases h with
  | stop _ hstop => cases hstop
  | other ht =>
    rw [ht]
    exact ⟨false, rfl⟩
  | @step _ d _ ht _ hbase =>
    rw [ht]
    cases hb : d.baseType with
    | none =>
      rw [hb] at hbase
      cases hbase
    | some b =>
      refine ⟨(G.node b).tag == .pointerType, ?_⟩
      show (deref d.baseType >>= _) = _
      rw [hb]
      rfl

/-- If the first index is kept, no composite is skipped. -/
lemma DIGraph.resolve_of_kept {fuel : ℕ} {n : ι} {c : DICompositeType ι} {gepIndices : GepIndices}
    {index : UInt64} {indices : List UInt64} (hindices : gepIndices.indices = index :: indices)
    (hbyte : gepIndices.byteAccess = false) (hskipped : gepIndices.skippedFirst = false) :
    G.resolveGepIndexToType fuel n c gepIndices = G.iterateGepIndex fuel c (index :: indices) := by
  simp only [resolveGepIndexToType, hindices, hbyte, hskipped, Bool.false_and, Bool.false_eq_true,
    if_false]

/-- What remains once the composite below the root is found. -/
lemma extractGepOfComposite_eq {v : ν} {gep : GEPOperator ν} {i₀ : Option ℤ}
    {indices : List (Option ℤ)} (hgep : StructGep M v gep i₀ indices) (fuel : ℕ) (t n : ι)
    (c : DICompositeType ι) :
    extractGepOfComposite G fuel t n c gep =
      if isPositive i₀ then G.iterateGepIndex fuel c (constIndices (i₀ :: indices))
      else G.resolveGepIndexToType fuel n c (steppedIndices indices) := by
  have hsame : extractGepOfComposite G fuel t n c gep =
      G.resolveGepIndexToType fuel n c (.create gep !isPositive i₀) := by
    rw [extractGepOfComposite, hgep.isFirstNonZeroIndexing, ok_bind, hgep.isByteIndexing,
      hgep.length_ne_one]
    simp only [Bool.false_and, Bool.not_false, Bool.and_true, Bool.and_false, Bool.false_eq_true,
      if_false]
    cases (G.node t).asDerived <;> rfl
  rw [hsame, hgep.create]
  cases hpos : isPositive i₀ with
  | false => rfl
  | true =>
    cases i₀ with
    | none => cases hpos
    | some k => exact DIGraph.resolve_of_kept rfl rfl rfl

/-- What a GEP does at a composite. -/
lemma extract_of_compositeRoot {t n : ι} {c : DICompositeType ι} (hroot : G.CompositeRoot t n c) :
    ∃ fuel, ∀ fuel', fuel ≤ fuel' → ∀ {v : ν} {gep : GEPOperator ν} {i₀ : Option ℤ}
      {indices : List (Option ℤ)}, StructGep M v gep i₀ indices →
      extractGepDereferencedType G M fuel' (some t) v gep =
        if isPositive i₀ then G.iterateGepIndex fuel' c (constIndices (i₀ :: indices))
        else G.resolveGepIndexToType fuel' n c (steppedIndices indices) := by
  obtain ⟨fuel, hfuel⟩ := hroot.leads.find
  refine ⟨fuel, fun fuel' hle v gep i₀ indices hgep => ?_⟩
  obtain ⟨elements, hstruct⟩ := hgep.struct
  obtain ⟨x, hx⟩ := baseIsPointer_of_leads hroot.leads
  have hfind : G.findNonDerivedType fuel' (some t) = .ok (some n) := hfuel fuel' hle
  have hcomposite : G.composite n = some (n, c) := by rw [DIGraph.composite, hroot.node]; rfl
  have hinlined : tryResolveInlinedOperator G M fuel' v gep = .ok none := by
    rw [tryResolveInlinedOperator, inlinedReturnType, hgep.inlined]
    rfl
  rw [extractGepDereferencedType, hfind, ok_bind, hinlined, ok_bind, hstruct]
  simp only [LLType.isPointerTy, LLType.isArrayTy, Bool.false_and, Bool.false_eq_true, if_false,
    deref, ok_bind, hx, hgep.isByteIndexing, Option.bind_some, hcomposite, hroot.complete]
  exact extractGepOfComposite_eq hgep fuel' t n c

/-- The first index selects no field unless it is a positive constant. If it is one, it selects the
field with this number, and no field at all if there are not as many elements. -/
theorem extract_firstIndex {t n : ι} {c : DICompositeType ι} (hroot : G.RecordRoot t n c) {v : ν}
    {gep : GEPOperator ν} {i₀ : Option ℤ} {indices : List (Option ℤ)}
    (hgep : StructGep M v gep i₀ indices) :
    ∃ fuel, ∀ fuel', fuel ≤ fuel' →
      (isPositive i₀ = false → extractGepDereferencedType G M fuel' (some t) v gep =
        extractGepDereferencedType G M fuel' (some t) v (gep.withFirst (some 0))) ∧
      ∀ k, i₀ = some k → 0 < k →
        extractGepDereferencedType G M fuel' (some t) v gep =
            G.iterateGepIndex fuel' c (UInt64.ofInt k :: constIndices indices) ∧
          (c.elements.length ≤ (UInt64.ofInt k).toNat →
            extractGepDereferencedType G M fuel' (some t) v gep = .error .outOfBounds) := by
  obtain ⟨fuel, hfuel⟩ := extract_of_compositeRoot (M := M) hroot.toCompositeRoot
  refine ⟨fuel, fun fuel' hle => ⟨fun hpos => ?_, ?_⟩⟩
  · rw [hfuel fuel' hle hgep, hfuel fuel' hle (hgep.withFirst (some 0)), hpos]
    rfl
  · rintro k rfl hk
    have hiterate : extractGepDereferencedType G M fuel' (some t) v gep =
        G.iterateGepIndex fuel' c (UInt64.ofInt k :: constIndices indices) := by
      rw [hfuel fuel' hle hgep]
      exact if_pos (decide_eq_true hk)
    refine ⟨hiterate, fun hlength => ?_⟩
    rw [hiterate, DIGraph.iterateGepIndex, DIGraph.gepElement, List.getElem?_eq_none hlength]
    rfl

end

/-! ### The second object of an array -/

/-- `struct S { int a; int b; };` and a pointer to it. -/
def twoFields : DIGraph (Fin 5) where
  node
    | 0 => .derivedType { tag := .pointerType, sizeInBits := 64, baseType := some 1 }
    | 1 => .compositeType { tag := .structureType, name := "S", sizeInBits := 64,
                            elements := [2, 3] }
    | 2 => .derivedType { tag := .member, name := "a", sizeInBits := 32, baseType := some 4 }
    | 3 => .derivedType { tag := .member, name := "b", sizeInBits := 32, offsetInBits := 32,
                          baseType := some 4 }
    | 4 => .basicType { name := "int", sizeInBits := 32, encoding := .signed }

/-- The address of `p[1].a`. -/
def secondObject : GEPOperator (Fin 2) where
  sourceElementType := .struct [.integer 32, .integer 32]
  pointerOperand := 0
  indices := [some 1, some 0]
  dynamicOperands := []

/-- A function with the parameter `p`, where the address of `p[1].a` is computed. -/
def stepsOverObject : IRModule (Fin 5) (Fin 2) where
  value
    | 0 => .argument { name := "f", subprogram := none } 0 false
    | 1 => .getElementPtr secondObject
  users
    | 0 => [1]
    | 1 => []
  mem_users := by decide
  debugLoc _ := none
  dbgRecords := []

lemma recordRoot_twoFields : twoFields.RecordRoot 0 1
    { tag := .structureType, name := "S", sizeInBits := 64, elements := [2, 3] } where
  leads := .step rfl rfl (.other rfl)
  node := rfl
  record := rfl
  complete := by decide

lemma structGep_secondObject : StructGep stepsOverObject 1 secondObject (some 1) [some 0] where
  index_eq := rfl
  several := by simp
  struct := ⟨_, rfl⟩
  inlined := rfl

theorem extract_firstIndex_twoFields :
    ∃ fuel, ∀ fuel', fuel ≤ fuel' →
      (isPositive (some 1) = false →
        extractGepDereferencedType twoFields stepsOverObject fuel' (some 0) 1 secondObject =
          extractGepDereferencedType twoFields stepsOverObject fuel' (some 0) 1
            (secondObject.withFirst (some 0))) ∧
      ∀ k, some (1 : ℤ) = some k → 0 < k →
        extractGepDereferencedType twoFields stepsOverObject fuel' (some 0) 1 secondObject =
            twoFields.iterateGepIndex fuel' { tag := .structureType, name := "S",
                                              sizeInBits := 64, elements := [2, 3] }
              (UInt64.ofInt k :: constIndices [some 0]) ∧
          ([2, 3].length ≤ (UInt64.ofInt k).toNat →
            extractGepDereferencedType twoFields stepsOverObject fuel' (some 0) 1 secondObject =
              .error .outOfBounds) :=
  extract_firstIndex recordRoot_twoFields structGep_secondObject

/-- `p[1].a` is taken for the member `b`. -/
theorem not_extract_firstIndex : ¬ ∀ (G : DIGraph (Fin 5)) (M : IRModule (Fin 5) (Fin 2))
    (t n : Fin 5) (c : DICompositeType (Fin 5)) (v : Fin 2) (gep : GEPOperator (Fin 2))
    (i₀ : Option ℤ) (indices : List (Option ℤ)),
    G.RecordRoot t n c → StructGep M v gep i₀ indices →
    ∃ fuel, ∀ fuel', fuel ≤ fuel' →
      extractGepDereferencedType G M fuel' (some t) v gep =
        extractGepDereferencedType G M fuel' (some t) v (gep.withFirst (some 0)) := by
  intro h
  obtain ⟨fuel, hfuel⟩ := h twoFields stepsOverObject 0 1 _ 1 secondObject (some 1) [some 0]
    recordRoot_twoFields structGep_secondObject
  have hb : extractGepDereferencedType twoFields stepsOverObject (fuel + 3) (some 0) 1
      secondObject = .ok { type := some (some 4), member := some 3 } := rfl
  have ha : extractGepDereferencedType twoFields stepsOverObject (fuel + 3) (some 0) 1
      (secondObject.withFirst (some 0)) = .ok { type := some (some 4), member := some 2 } := rfl
  have hsame := hfuel (fuel + 3) (Nat.le_add_right _ _)
  rw [hb, ha] at hsame
  have hmember := congrArg GepIndexToType.member (Except.ok.inj hsame)
  exact absurd (Option.some.inj hmember) (by decide)

end Dimeta
