import Dimeta.Dataflow.Once
import Dimeta.TypeFor.Located

/-!
# Extents of Fortran allocations

The dimensions of a shape are sorted by their index, unknown indices last; the order in which the
search meets them does not matter. The extent that is computed for a dimension is the declared one
exactly if the lower bound is not negative and the upper bound is not below it by more than one.
-/

set_option autoImplicit false

namespace Dimeta

open Recursion Recursion.Asking Relation StableSort

variable {ι ν : Type}

/-! ### The order of dimensions -/

abbrev Before (lhs rhs : IndexDim) : Prop := lhs.before rhs = true

lemma before_iff {a b : IndexDim} :
    Before a b ↔ 0 ≤ a.index ∧ (b.index < 0 ∨ a.index < b.index) := by
  simp only [Before, IndexDim.before]
  split_ifs with hboth ha hb
  · simp only [false_iff]
    omega
  · simp only [false_iff]
    omega
  · simp only [true_iff]
    omega
  · simp only [decide_eq_true_eq]
    omega

instance : IsStrictWeakOrder IndexDim Before where
  irrefl a := by
    rw [before_iff]
    omega
  trans a b c hab hbc := by
    rw [before_iff] at hab hbc ⊢
    omega
  incomp_trans a b c hab hbc := by
    simp only [before_iff] at hab hbc ⊢
    omega

/-- Known indices in ascending order, then the unknown ones as they were. -/
lemma stableSort_shape (shape : ShapeData) :
    stableSort Before shape =
      stableSort Before (shape.filter (0 ≤ ·.index)) ++ shape.filter (·.index < 0) := by
  have hlt : ∀ a b : IndexDim, 0 ≤ a.index → ¬ 0 ≤ b.index → Before a b := by
    intro a b ha hb
    rw [before_iff]
    exact ⟨ha, .inl (not_le.mp hb)⟩
  have hnot : ∀ a b : IndexDim, 0 ≤ a.index → ¬ 0 ≤ b.index → ¬ Before b a := by
    intro a b _ hb hba
    exact hb (before_iff.mp hba).1
  have hunknown : stableSort Before (shape.filter (·.index < 0)) = shape.filter (·.index < 0) := by
    apply stableSort_of_incomparable
    intro a ha b _ hab
    have hneg : a.index < 0 := by simpa using (List.mem_filter.mp ha).2
    exact absurd (before_iff.mp hab).1 (not_le.mpr hneg)
  rw [stableSort_eq_append hlt hnot shape]
  simp only [not_le]
  rw [hunknown]

/-- The dimensions are told apart by their indices, so their order is that of the indices. -/
lemma stableSort_ofFn {r : ℕ} {shapes : ShapeData} {extent : Fin r → ℤ}
    (hperm : shapes.Perm (List.ofFn fun d => ⟨d, extent d⟩)) :
    stableSort Before shapes = List.ofFn fun d => ⟨d, extent d⟩ := by
  have hbefore : ∀ d e : Fin r, d < e → Before ⟨d, extent d⟩ ⟨e, extent e⟩ := by
    intro d e hde
    rw [before_iff]
    exact ⟨Int.natCast_nonneg d, .inr (Int.ofNat_lt.mpr hde)⟩
  rw [stableSort_eq_of_perm hperm]
  · apply stableSort_of_pairwise
    rw [List.pairwise_ofFn]
    intro d e hde hed
    exact asymm (hbefore d e hde) hed
  · intro a ha b hb hne
    obtain ⟨d, rfl⟩ := List.mem_ofFn.mp (hperm.mem_iff.mp ha)
    obtain ⟨e, rfl⟩ := List.mem_ofFn.mp (hperm.mem_iff.mp hb)
    rcases lt_trichotomy d e with hlt | rfl | hgt
    · exact .inl (hbefore d e hlt)
    · exact absurd rfl hne
    · exact .inr (hbefore e d hgt)

/-- `reset_shape_qualifier` sorts by a strict weak order: all dimensions with a known index in
ascending order, then the others in their own. So the result depends neither on the order in which
dimensions with distinct indices were found nor on the dimensions that the type had. -/
theorem reset_shape_ordered :
    IsStrictWeakOrder IndexDim (fun lhs rhs => lhs.before rhs = true) ∧
      (∀ (type : QualifiedType) (shape : ShapeData),
        (resetShapeQualifier type shape).arraySize.Perm (shape.map IndexDim.size) ∧
          ∃ known : List IndexDim, known.Perm (shape.filter (0 ≤ ·.index)) ∧
            known.Pairwise (·.index ≤ ·.index) ∧
            (resetShapeQualifier type shape).arraySize =
              (known ++ shape.filter (·.index < 0)).map IndexDim.size) ∧
      ∀ (type type' : QualifiedType) (shape shape' : ShapeData), shape.Perm shape' →
        (∀ d ∈ shape, 0 ≤ d.index) → (shape.map IndexDim.index).Nodup →
        (resetShapeQualifier type shape).arraySize =
          (resetShapeQualifier type' shape').arraySize := by
  refine ⟨inferInstance, fun type shape => ⟨?_, ?_⟩, ?_⟩
  · rw [arraySize_resetShapeQualifier]
    exact (stableSort_perm Before shape).map _
  · refine ⟨stableSort Before (shape.filter (0 ≤ ·.index)), stableSort_perm Before _, ?_, ?_⟩
    · have hsorted : (stableSort Before (shape.filter (0 ≤ ·.index))).Pairwise
          fun d e => ¬ Before e d := pairwise_stableSort _
      refine hsorted.imp_of_mem ?_
      intro a b _ hb hab
      rw [(stableSort_perm Before _).mem_iff, List.mem_filter] at hb
      have hknown : 0 ≤ b.index := by simpa using hb.2
      rw [before_iff, not_and, not_or] at hab
      exact not_lt.mp (hab hknown).2
    · rw [arraySize_resetShapeQualifier, stableSort_shape]
  · intro type type' shape shape' hperm hknown hnodup
    rw [arraySize_resetShapeQualifier, arraySize_resetShapeQualifier]
    congr 1
    apply stableSort_eq_of_perm hperm
    intro a ha b hb hne
    have hindex : a.index ≠ b.index := fun h => hne (List.inj_on_of_nodup_map hnodup ha hb h)
    rcases lt_or_gt_of_ne hindex with hlt | hgt
    · exact .inl (before_iff.mpr ⟨hknown a ha, .inr hlt⟩)
    · exact .inr (before_iff.mpr ⟨hknown b hb, .inr hgt⟩)

/-- Two dimensions, found in either order. -/
theorem reset_shape_ordered_swapped :
    (resetShapeQualifier default [⟨1, 5⟩, ⟨0, 7⟩]).arraySize =
      (resetShapeQualifier (.fundamental default) [⟨0, 7⟩, ⟨1, 5⟩]).arraySize :=
  reset_shape_ordered.2.2 default (.fundamental default) _ _ (List.Perm.swap _ _ _) (by decide)
    (by decide)

/-! ### The dimensions that are found -/

section Found

variable [DecidableEq ν] [Fintype ν] (M : IRModule ι ν)

/-- What the callback of `shape_from_value` does to the dimensions found so far. -/
def collectShape (path : ValuePath ν) (shapes : Option ShapeData) : Option ShapeData :=
  match path.value.bind M.boundsOfCall with
  | none           => shapes
  | some none      => none
  | some (some di) => shapes.map (· ++ [di])

/-- The dimension that a path adds. -/
def foundBy (path : ValuePath ν) : Option IndexDim := (path.value.bind M.boundsOfCall).join

/-- The paths on which `shape_from_value` looks for dimensions. -/
def shapeCalls (start : ν) : List (ValuePath ν) :=
  DefUseChain.matchCalls (.ofValues (fun _ _ => .kContinue) (collectShape M)
    fun v => some (M.users v)) start (some [])

variable {M}

lemma shapesFromValue_eq (start : ν) : M.shapesFromValue start =
    (shapeCalls M start).foldl (fun shapes p => collectShape M p shapes) (some []) := by
  have hmatch : M.shapesFromValue start = DefUseChain.traverse M.users start
      (fun path shapes => (.kContinue, collectShape M path shapes)) (fun _ st => (true, st))
      (some []) := by
    rw [IRModule.shapesFromValue]
    congr 1
    funext path shapes
    rw [collectShape]
    rcases path.value.bind M.boundsOfCall with _ | _ | di
    · rfl
    · rfl
    · rfl
  rw [hmatch, DefUseChain.traverse_eq_ofValues, DefUseChain.ofValues_eq_foldl]
  rfl

lemma foldl_collectShape {ps : List (ValuePath ν)}
    (hps : ∀ p ∈ ps, p.value.bind M.boundsOfCall ≠ some none) (shapes : ShapeData) :
    ps.foldl (fun shapes p => collectShape M p shapes) (some shapes) =
      some (shapes ++ ps.filterMap (foundBy M)) := by
  induction ps generalizing shapes with
  | nil => simp
  | cons p ps ih =>
    have hp := hps p List.mem_cons_self
    have hrest := ih fun q hq => hps q (List.mem_cons_of_mem p hq)
    rw [List.foldl_cons]
    cases hb : p.value.bind M.boundsOfCall with
    | none =>
      have hcollect : collectShape M p (some shapes) = some shapes := by
        simp only [collectShape, hb]
      rw [hcollect, hrest, List.filterMap_cons_none (by simp [foundBy, hb])]
    | some bounds =>
      cases bounds with
      | none => exact absurd hb hp
      | some di =>
        have hcollect : collectShape M p (some shapes) = some (shapes ++ [di]) := by
          simp only [collectShape, hb, Option.map_some]
        rw [hcollect, hrest, List.filterMap_cons_some (b := di) (by simp [foundBy, hb]),
          List.append_assoc]
        rfl

lemma exists_reached_of_mem {start : ν} {p : ValuePath ν} (hp : p ∈ shapeCalls M start) :
    ∃ v, p.value = some v ∧ ReflTransGen (fun v user => user ∈ M.users v) start v := by
  obtain ⟨v, hgen⟩ := (DefUseChain.matchCalls_ofValues (fun _ _ => .kContinue) (collectShape M)
    (fun v => some (M.users v)) start (some []) fun _ hcancel => by cases hcancel).2 p hp
  refine ⟨v, hgen.value, ReflTransGen.mono ?_ _ _ hgen.reachable⟩
  rintro a b ⟨-, vals, hvals, hb⟩
  cases hvals
  exact hb

end Found

/-! ### Descriptors -/

/-- The extent that is computed from the bounds of a dimension. -/
def extentOf (lower upper : ℤ) : ℤ := if 0 ≤ lower then upper - lower + 1 else upper

section Bounds

variable (M : IRModule ι ν)

/-- The call sets the bounds of the dimension, all three constants. -/
def SetsBounds (call : ν) (dimension lower upper : ℤ) : Prop :=
  ∃ op callee site f target v₁ v₂ v₃,
    M.value call = .call op callee [target, v₁, v₂, v₃] site ∧ callee.calledFunction = some f ∧
      startsWithAnyOf f.name ["_FortranAAllocatableSetBounds", "_FortranAPointerSetBounds"] ∧
      M.value v₁ = .constantInt dimension ∧ M.value v₂ = .constantInt lower ∧
      M.value v₃ = .constantInt upper

variable [DecidableEq ν] [Fintype ν]

/-- The descriptor is the start of exactly one call for each dimension that sets its bounds. It is
itself no such call, which returns nothing, and no integer; a call is listed among the users of a
value as often as the value is an operand. -/
structure Describes (descriptor : ν) {r : ℕ} (calls : Fin r → ν) (lower upper : Fin r → ℤ) :
    Prop where
  no_integer : M.asConstantInt descriptor = none
  no_call : M.boundsOfCall descriptor = none
  sets : ∀ d, SetsBounds M (calls d) d (lower d) (upper d)
  reached : ∀ d, ReflTransGen (fun v user => user ∈ M.users v) descriptor (calls d)
  only : ∀ v, ReflTransGen (fun v user => user ∈ M.users v) descriptor v →
    M.boundsOfCall v ≠ none → ∃ d, v = calls d
  uses : ∀ d v, (M.users v).count (calls d) = (M.value (calls d)).operands.count v

variable {M} {descriptor : ν} {r : ℕ} {calls : Fin r → ν} {lower upper : Fin r → ℤ}

omit [DecidableEq ν] [Fintype ν] in
lemma SetsBounds.operands {call : ν} {dimension lower upper : ℤ}
    (h : SetsBounds M call dimension lower upper) : ∃ target v₁ v₂ v₃,
      (M.value call).operands = [target, v₁, v₂, v₃] ∧ M.value v₁ = .constantInt dimension ∧
        M.value v₂ = .constantInt lower ∧ M.value v₃ = .constantInt upper := by
  obtain ⟨op, callee, site, f, target, v₁, v₂, v₃, hcall, hf, -, h₁, h₂, h₃⟩ := h
  refine ⟨target, v₁, v₂, v₃, ?_, h₁, h₂, h₃⟩
  cases callee with
  | indirect operand => cases hf
  | intrinsic id => rw [hcall]; rfl
  | function f => rw [hcall]; rfl

lemma getAsInt_of_constant {v : ν} {n : ℤ} (h : M.value v = .constantInt n) :
    M.getAsInt v = some n := by
  have hconstant : M.asConstantInt v = some n := by
    simp only [IRModule.asConstantInt, h]
  simp only [IRModule.getAsInt, hconstant]

lemma SetsBounds.boundsOfCall {call : ν} {dimension lower upper : ℤ}
    (h : SetsBounds M call dimension lower upper) :
    M.boundsOfCall call = some (some ⟨dimension, extentOf lower upper⟩) := by
  obtain ⟨target, v₁, v₂, v₃, hoperands, h₁, h₂, h₃⟩ := h.operands
  obtain ⟨op, callee, site, f, _, _, _, _, hcall, hf, hname, -⟩ := h
  rw [hcall] at hoperands
  simp only [IRModule.boundsOfCall, hcall, hf, hname, if_true, hoperands, getAsInt_of_constant h₁,
    getAsInt_of_constant h₂, getAsInt_of_constant h₃]
  rfl

namespace Describes

variable (h : Describes M descriptor calls lower upper)

include h

/-- Integers are nobody's users. -/
lemma not_integer {v : ν} (hv : ReflTransGen (fun v user => user ∈ M.users v) descriptor v) :
    M.asConstantInt v = none := by
  rcases hv.cases_tail with rfl | ⟨w, -, hw⟩
  · exact h.no_integer
  · rw [M.mem_users] at hw
    cases hvalue : M.value v with
    | constantInt n =>
      rw [hvalue] at hw
      cases hw
    | _ => simp only [IRModule.asConstantInt, hvalue]

/-- Each of the calls is met once. -/
lemma countP_calls (d : Fin r) (st : Option ShapeData)
    (effect : ValuePath ν → Option ShapeData → Option ShapeData) :
    (DefUseChain.matchCalls (.ofValues (fun _ _ => .kContinue) effect fun v => some (M.users v))
      descriptor st).countP (DefUseChain.endsIn (calls d)) = 1 := by
  obtain ⟨target, v₁, v₂, v₃, hoperands, h₁, h₂, h₃⟩ := (h.sets d).operands
  have hedge : ∀ v, ReflTransGen (SearchEdge (fun _ => MatchResult.kContinue)
      fun v => some (M.users v)) descriptor v ↔
      ReflTransGen (fun v user => user ∈ M.users v) descriptor v := by
    intro v
    have heq : SearchEdge (fun _ => MatchResult.kContinue) (fun v => some (M.users v)) =
        fun v user => user ∈ M.users v := by
      funext a b
      simp [SearchEdge]
    rw [heq]
  -- the integers among the operands are not reached from the descriptor
  have hne : ∀ v n, M.value v = .constantInt n →
      ¬ ReflTransGen (fun v user => user ∈ M.users v) descriptor v := by
    intro v n hv hreach
    have hnone := h.not_integer hreach
    simp only [IRModule.asConstantInt, hv] at hnone
    cases hnone
  have hparent : ∀ a, ReflTransGen (fun v user => user ∈ M.users v) descriptor a →
      calls d ∈ M.users a → a = target := by
    intro a ha hmem
    rw [M.mem_users, hoperands] at hmem
    simp only [List.mem_cons, List.not_mem_nil, or_false] at hmem
    rcases hmem with rfl | rfl | rfl | rfl
    · rfl
    · exact absurd ha (hne _ _ h₁)
    · exact absurd ha (hne _ _ h₂)
    · exact absurd ha (hne _ _ h₃)
  have hself : calls d ≠ descriptor := by
    intro heq
    have hnone := h.no_call
    rw [← heq, (h.sets d).boundsOfCall] at hnone
    cases hnone
  refine DefUseChain.countP_matchCalls_eq_one (u := target) (fun _ hcancel => by cases hcancel)
    hself ((hedge _).mpr (h.reached d)) ?_ ?_ st
  · intro a vals ha hvals hmem
    cases hvals
    exact hparent a ((hedge a).mp ha) hmem
  · intro vals hvals
    cases hvals
    have htarget : ReflTransGen (fun v user => user ∈ M.users v) descriptor target := by
      rcases (h.reached d).cases_tail with heq | ⟨a, ha, hmem⟩
      · exact absurd heq hself
      · rwa [← hparent a ha hmem]
    have hnot : ∀ v n, M.value v = .constantInt n → v ≠ target := by
      rintro v n hv rfl
      exact hne v n hv htarget
    rw [h.uses d target, hoperands]
    simp [hnot v₁ _ h₁, hnot v₂ _ h₂, hnot v₃ _ h₃]

/-- A path adds a dimension exactly if it ends in the call for the dimension. -/
lemma foundBy_eq_some_iff {p : ValuePath ν} (hp : p ∈ shapeCalls M descriptor) {x : IndexDim} :
    foundBy M p = some x ↔
      ∃ d, DefUseChain.endsIn (calls d) p = true ∧ x = ⟨d, extentOf (lower d) (upper d)⟩ := by
  obtain ⟨v, hv, hreach⟩ := exists_reached_of_mem hp
  constructor
  · intro hx
    have hbounds : M.boundsOfCall v ≠ none := by
      intro hnone
      simp [foundBy, hv, hnone] at hx
    obtain ⟨d, rfl⟩ := h.only v hreach hbounds
    refine ⟨d, by simp [DefUseChain.endsIn, hv], ?_⟩
    simpa [foundBy, hv, (h.sets d).boundsOfCall, eq_comm] using hx
  · rintro ⟨d, hd, rfl⟩
    have hvalue : p.value = some (calls d) := by simpa [DefUseChain.endsIn] using hd
    simp [foundBy, hvalue, (h.sets d).boundsOfCall]

/-- The dimensions found are those of the calls, in some order. -/
lemma shapesFromValue_perm : ∃ shapes, M.shapesFromValue descriptor = some shapes ∧
    shapes.Perm (List.ofFn fun d => ⟨d, extentOf (lower d) (upper d)⟩) := by
  have hdefined : ∀ p ∈ shapeCalls M descriptor, p.value.bind M.boundsOfCall ≠ some none := by
    intro p hp hnone
    obtain ⟨v, hv, hreach⟩ := exists_reached_of_mem hp
    simp only [hv, Option.bind_some] at hnone
    obtain ⟨d, rfl⟩ := h.only v hreach (by simp [hnone])
    simp [(h.sets d).boundsOfCall] at hnone
  refine ⟨(shapeCalls M descriptor).filterMap (foundBy M), ?_, ?_⟩
  · rw [shapesFromValue_eq, foldl_collectShape hdefined, List.nil_append]
  · have hinj : Function.Injective fun d : Fin r =>
        (⟨d, extentOf (lower d) (upper d)⟩ : IndexDim) := by
      intro d e hde
      have hindex := congrArg IndexDim.index hde
      exact Fin.ext (by simpa using hindex)
    rw [List.perm_iff_count]
    intro x
    rw [List.count_filterMap]
    by_cases hx : ∃ d : Fin r, x = ⟨d, extentOf (lower d) (upper d)⟩
    · obtain ⟨d, rfl⟩ := hx
      rw [List.count_eq_one_of_mem (List.nodup_ofFn.mpr hinj) (List.mem_ofFn.mpr ⟨d, rfl⟩),
        ← h.countP_calls d (some []) (collectShape M)]
      apply List.countP_congr
      intro p hp
      rw [beq_iff_eq, h.foundBy_eq_some_iff hp]
      constructor
      · rintro ⟨e, he, heq⟩
        rwa [hinj heq]
      · intro hd
        exact ⟨d, hd, rfl⟩
    · have hnone : x ∉ List.ofFn fun d : Fin r =>
          (⟨d, extentOf (lower d) (upper d)⟩ : IndexDim) := by
        intro hmem
        obtain ⟨d, rfl⟩ := List.mem_ofFn.mp hmem
        exact hx ⟨d, rfl⟩
      rw [List.count_eq_zero_of_not_mem hnone, List.countP_eq_zero]
      intro p hp hp'
      rw [beq_iff_eq, h.foundBy_eq_some_iff hp] at hp'
      obtain ⟨d, -, rfl⟩ := hp'
      exact hx ⟨d, rfl⟩

end Describes

end Bounds

/-! ### The array sizes of an allocation -/

/-- The bounds and the extent fit into 64 bits. -/
structure NoOverflow (lower upper : ℤ) : Prop where
  lower_ge : -2 ^ 63 ≤ lower
  upper_ge : -2 ^ 63 ≤ upper
  upper_lt : upper < 2 ^ 63
  extent_ge : -2 ^ 63 ≤ upper - lower + 1
  extent_lt : upper - lower + 1 < 2 ^ 63

lemma IndexDim.toNat_size (d : IndexDim) : d.size.toNat = (d.dim % 2 ^ 64).toNat := by
  rw [IndexDim.size, UInt64.ofInt, UInt64.toNat_ofNat']
  apply Nat.mod_eq_of_lt
  omega

/-- Negative extents wrap around, and of a negative lower bound the computation makes nothing. -/
lemma toNat_size_extentOf_iff {lower upper : ℤ} (h : NoOverflow lower upper) (index : ℤ) :
    (IndexDim.size ⟨index, extentOf lower upper⟩).toNat = (max 0 (upper - lower + 1)).toNat ↔
      0 ≤ lower ∧ lower ≤ upper + 1 := by
  obtain ⟨-, hge, hlt, hge', hlt'⟩ := h
  rw [IndexDim.toNat_size, extentOf]
  dsimp only
  by_cases hlower : 0 ≤ lower
  · rw [if_pos hlower]
    by_cases hupper : lower ≤ upper + 1
    · rw [max_eq_right (by linarith), Int.emod_eq_of_lt (by linarith) (by linarith)]
      simp [hlower, hupper]
    · have hneg : upper - lower + 1 < 0 := by linarith
      rw [max_eq_left hneg.le]
      omega
  · rw [if_neg hlower]
    rcases le_total 0 (upper - lower + 1) with hextent | hextent
    · rw [max_eq_right hextent]
      omega
    · rw [max_eq_left hextent]
      omega

section Allocation

variable [DecidableEq ι] [DecidableEq ν] [Fintype ν] {G : DIGraph ι} {M : IRModule ι ν}
  {fuel depth : ℕ} {call descriptor : ν} {base : CallBase ι ν}

/-- The shape of a Fortran allocation is what is found from the descriptor. -/
lemma shape_of_runTypeFor {data : DimetaData ι} {shapes : ShapeData}
    (hbase : (M.value call).asCallBase = some base)
    (hsource : resolveAutoCallbaseConfig base = some { source := .kFortranDescriptor })
    (hhead : base.args.head? = some descriptor)
    (hshapes : M.shapesFromValue descriptor = some shapes) (hne : shapes ≠ [])
    (h : runTypeFor G M fuel depth call {} = some (.ok (some data)))
    (hentry : data.entryType.isSome) : data.shape = some shapes := by
  have hresolved : resolveCallbaseConfig base {} = some { source := .kFortranDescriptor } := hsource
  simp only [runTypeFor, typeFor, hbase, hresolved, run_bind, andThen_eq_ok] at h
  obtain ⟨result, hresult, h⟩ := h
  cases result with
  | none => cases h
  | some result =>
    cases h
    simp only [typeForResolvedCallbase, extractType, hhead, run_bind, andThen_eq_ok] at hresult
    obtain ⟨extracted, ⟨found, hfound, hextracted⟩, hresult⟩ := hresult
    cases found with
    | none =>
      cases hextracted
      cases hresult
      cases hentry
    | some found =>
      obtain ⟨type, shape⟩ := found
      cases hextracted
      simp only [run_bind, run_ofExcept, andThen_eq_ok] at hresult
      obtain ⟨⟨final, level⟩, -, hresult⟩ := hresult
      cases hresult
      simp only [fortranDiTypeFor, hshapes, run_bind, run_ofExcept, andThen_eq_ok] at hfound
      obtain ⟨shapes', hshapes', types, -, hfound⟩ := hfound
      cases hshapes'
      cases types with
      | nil => cases hfound
      | cons t ts =>
        rw [List.head?_cons, Option.map_some, if_neg hne] at hfound
        cases hfound
        rfl

/-- The array sizes of a Fortran allocation are the declared extents exactly if no lower bound is
negative and no upper bound is below its lower bound by more than one. -/
theorem fortran_extents_iff {fuel' r : ℕ} {calls : Fin r → ν} {lower upper : Fin r → ℤ}
    {data : DimetaData ι} {location : Option SourceLocation} {located : LocatedType}
    (hbase : (M.value call).asCallBase = some base)
    (hsource : resolveAutoCallbaseConfig base = some { source := .kFortranDescriptor })
    (hhead : base.args.head? = some descriptor) (hr : 0 < r)
    (h : Describes M descriptor calls lower upper)
    (hbounds : ∀ d, NoOverflow (lower d) (upper d))
    (hdata : runTypeFor G M fuel depth call {} = some (.ok (some data)))
    (hlocated : locatedTypeFor G fuel' data location = .ok (some located)) :
    located.type.arraySize.map UInt64.toNat =
        List.ofFn (fun d => (max 0 (upper d - lower d + 1)).toNat) ↔
      ∀ d, 0 ≤ lower d ∧ lower d ≤ upper d + 1 := by
  obtain ⟨shapes, hshapes, hperm⟩ := h.shapesFromValue_perm
  have hlength : shapes.length = r := by
    rw [hperm.length_eq, List.length_ofFn]
  have hne : shapes ≠ [] := by
    rintro rfl
    exact hr.ne hlength
  rw [locatedTypeFor_eq_some] at hlocated
  obtain ⟨t, type, hentry, -, -, htype⟩ := hlocated
  have hshape := shape_of_runTypeFor hbase hsource hhead hshapes hne hdata (by rw [hentry]; rfl)
  have hsorted : stableSort Before shapes =
      List.ofFn fun d : Fin r => ⟨d, extentOf (lower d) (upper d)⟩ :=
    stableSort_ofFn hperm
  rw [htype, hshape, Option.elim_some, arraySize_resetShapeQualifier, hsorted, List.map_map,
    List.map_ofFn, List.ofFn_inj, funext_iff]
  apply forall_congr'
  intro d
  exact toNat_size_extentOf_iff (hbounds d) d

end Allocation

/-! ### An allocation of one dimension -/

/-- `integer :: buf(:)`, as its entry type `integer`. -/
def integerOnly : DIGraph (Fin 1) where
  node _ := .basicType { name := "integer", sizeInBits := 32, encoding := .signed }

/-- `ALLOCATE (buf(lower:upper))`: the descriptor is 0, the bounds are set by the call 1. -/
def allocatesBounds (lower upper : ℤ) : IRModule (Fin 1) (Fin 6) where
  value
    | 0 => .alloca
    | 1 => .call .call (.function ⟨"_FortranAPointerSetBounds", none⟩) [0, 2, 3, 4] none
    | 2 => .constantInt 0
    | 3 => .constantInt lower
    | 4 => .constantInt upper
    | 5 => .call .call (.function ⟨"_FortranAPointerAllocate", none⟩) [0] none
  users
    | 0 => [5, 1]
    | 1 => []
    | 2 => [1]
    | 3 => [1]
    | 4 => [1]
    | 5 => []
  mem_users v u := by fin_cases v <;> fin_cases u <;> simp [LLValue.operands]
  debugLoc _ := none
  dbgRecords := [⟨some 0, ⟨"buf", some 0⟩, false⟩]

lemma describes_allocatesBounds (lower upper : ℤ) :
    Describes (allocatesBounds lower upper) 0 (fun _ : Fin 1 => 1) (fun _ => lower)
      (fun _ => upper) where
  no_integer := rfl
  no_call := rfl
  sets d := by
    rw [Fin.fin_one_eq_zero d]
    exact ⟨_, _, _, _, _, _, _, _, rfl, rfl, by decide, rfl, rfl, rfl⟩
  reached _ := .single (by simp [allocatesBounds])
  only v _ hv := by
    refine ⟨0, ?_⟩
    fin_cases v
    · exact absurd rfl hv
    · rfl
    · exact absurd rfl hv
    · exact absurd rfl hv
    · exact absurd rfl hv
    · exact absurd rfl hv
  uses _ v := by fin_cases v <;> rfl

lemma shapesFromValue_allocatesBounds (lower upper : ℤ) :
    (allocatesBounds lower upper).shapesFromValue 0 = some [⟨0, extentOf lower upper⟩] := by
  obtain ⟨shapes, hshapes, hperm⟩ := (describes_allocatesBounds lower upper).shapesFromValue_perm
  rw [hshapes, List.perm_singleton.mp hperm]
  rfl

lemma runTypeFor_allocatesBounds (lower upper : ℤ) :
    runTypeFor integerOnly (allocatesBounds lower upper) 1 2 5 {} =
      some (.ok (some ⟨.kHeap, some (some 0), some (some 0), some [⟨0, extentOf lower upper⟩],
        0⟩)) := by
  have hpaths : (allocatesBounds lower upper).pathFromValue 0 = [⟨[0]⟩] :=
    DefUseChain.loop_eq_of_run 4 rfl
  have hbase : ((allocatesBounds lower upper).value 5).asCallBase =
      some ⟨.function ⟨"_FortranAPointerAllocate", none⟩, [0], none⟩ := rfl
  have hresolved : resolveCallbaseConfig
      (⟨.function ⟨"_FortranAPointerAllocate", none⟩, [0], none⟩ : CallBase (Fin 1) (Fin 6)) {} =
        some { source := .kFortranDescriptor } := rfl
  simp only [runTypeFor, typeFor, hbase, hresolved, typeForResolvedCallbase, extractType,
    List.head?_cons, fortranDiTypeFor, shapesFromValue_allocatesBounds, hpaths]
  rfl

theorem fortran_extents_iff_positive :
    [3] = List.ofFn (fun _ : Fin 1 => (max 0 ((4 : ℤ) - 2 + 1)).toNat) ↔
      ∀ _ : Fin 1, (0 : ℤ) ≤ 2 ∧ (2 : ℤ) ≤ 4 + 1 := by
  have hlocated : locatedTypeFor integerOnly 3
      ⟨.kHeap, some (some 0), some (some 0), some [⟨0, extentOf 2 4⟩], 0⟩ (some default) =
        .ok (some ⟨.fundamental { type := ⟨"integer", 4, .kSignedInt⟩, arraySize := [3] },
          default⟩) := rfl
  exact fortran_extents_iff rfl rfl rfl Nat.one_pos (describes_allocatesBounds 2 4)
    (fun _ => by constructor <;> norm_num) (runTypeFor_allocatesBounds 2 4) hlocated

/-- For the bounds -2 and 3 the extent is 3. -/
theorem exists_wrong_extent :
    Describes (allocatesBounds (-2) 3) 0 (fun _ : Fin 1 => 1) (fun _ => -2) (fun _ => 3) ∧
      ∃ data located, runTypeFor integerOnly (allocatesBounds (-2) 3) 1 2 5 {} =
          some (.ok (some data)) ∧
        locatedTypeFor integerOnly 3 data (some default) = .ok (some located) ∧
          located.type.arraySize.map UInt64.toNat ≠
            List.ofFn (fun _ : Fin 1 => (max 0 ((3 : ℤ) - -2 + 1)).toNat) := by
  have hlocated : locatedTypeFor integerOnly 3
      ⟨.kHeap, some (some 0), some (some 0), some [⟨0, extentOf (-2) 3⟩], 0⟩ (some default) =
        .ok (some ⟨.fundamental { type := ⟨"integer", 4, .kSignedInt⟩, arraySize := [3] },
          default⟩) := rfl
  refine ⟨describes_allocatesBounds (-2) 3, _, _, runTypeFor_allocatesBounds (-2) 3, hlocated, ?_⟩
  decide

end Dimeta
