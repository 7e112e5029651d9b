import Dimeta.Dataflow.Matchers

/-!
# Where dataflow paths end

The forward matcher collects stores, memory intrinsics, calls and returns. Stores and memory
intrinsics are then replaced by what the backward matcher collects, so that a path handed on
ends in a value whose type can be looked up.
-/

set_option autoImplicit false

namespace Dimeta

variable {ι ν : Type*}

/-- The case that `find_type_root` takes for a root value. -/
inductive RootKind (ι ν : Type*) where
  | returnInst (parent : LLFunction ι)
  | alloca
  | callBase (opcode : CallOpcode) (callee : Callee ι ν) (args : List ν)
      (heapallocsite : Option ι)
  | globalVariable (dbg : Option (Option ι))
  | argument (parent : LLFunction ι) (argNo : ℕ) (structRet : Bool)
  | noMatchingValue

def LLValue.rootKind : LLValue ι ν → RootKind ι ν
  | .ret parent _          => .returnInst parent
  | .alloca                => .alloca
  | .call op callee args h => .callBase op callee args h
  | .globalVariable dbg _  => .globalVariable dbg
  | .argument parent n s   => .argument parent n s
  | _                      => .noMatchingValue

lemma LLValue.isIntrinsicInst_of_isMemIntrinsic {value : LLValue ι ν}
    (h : value.isMemIntrinsic) : value.isIntrinsicInst := by
  simp only [isMemIntrinsic] at h
  split at h
  · cases h
  · rfl
  · cases h

namespace IRModule

/-- The path is not empty and its last value is one that the type lookup has a case for, other
than a memory intrinsic. -/
def EndsInRoot (M : IRModule ι ν) (p : ValuePath ν) : Prop :=
  ∃ v, p.value = some v ∧ (M.value v).rootKind ≠ .noMatchingValue ∧
    (M.value v).isMemIntrinsic = false

/-- What the forward matcher collects: roots, and the two kinds that are backtracked from. -/
def EndsInAnchor (M : IRModule ι ν) (p : ValuePath ν) : Prop :=
  ∃ v, p.value = some v ∧ ((∃ value pointer, M.value v = .store value pointer) ∨
    (M.value v).isMemIntrinsic ∨ ((M.value v).rootKind ≠ .noMatchingValue))

variable [DecidableEq ν] (M : IRModule ι ν)

lemma mallocAnchorMatcher_cases (path : ValuePath ν) (anchors : List (ValuePath ν)) :
    (M.mallocAnchorMatcher path anchors).2 = anchors ∨
      ((M.mallocAnchorMatcher path anchors).2 = anchors ++ [path] ∧ M.EndsInAnchor path) := by
  simp only [mallocAnchorMatcher]
  split
  · exact .inl rfl
  · next v hv =>
    split
    · exact .inl rfl
    split
    · split
      · next hmem => exact .inr ⟨rfl, v, hv, .inr (.inl hmem)⟩
      · exact .inl rfl
    split
    · next parent value h =>
      exact .inr ⟨rfl, v, hv, .inr (.inr (by simp [h, LLValue.rootKind]))⟩
    · next value pointer h =>
      split_ifs
      · exact .inl rfl
      · exact .inr ⟨rfl, v, hv, .inl ⟨value, pointer, h⟩⟩
      · exact .inl rfl
    · exact .inl rfl
    · next h =>
      split_ifs
      · exact .inl rfl
      · exact .inr ⟨rfl, v, hv, .inr (.inr (by simp [h, LLValue.rootKind]))⟩
    · exact .inl rfl

omit [DecidableEq ν] in
lemma mallocTargetMatcher_cases (path : ValuePath ν) (typesPath : List (ValuePath ν)) :
    (M.mallocTargetMatcher path typesPath).2 = typesPath ∨
      ((M.mallocTargetMatcher path typesPath).2 = typesPath ++ [path] ∧ M.EndsInRoot path) := by
  simp only [mallocTargetMatcher]
  split
  · exact .inl rfl
  · next v hv =>
    split
    · split <;> exact .inl rfl
    next hintr =>
    have hmem : (M.value v).isMemIntrinsic = false := by
      by_contra h
      exact hintr (LLValue.isIntrinsicInst_of_isMemIntrinsic (by simpa using h))
    split
    · next h => exact .inr ⟨rfl, v, hv, by simp [h, LLValue.rootKind], hmem⟩
    · next h => exact .inr ⟨rfl, v, hv, by simp [h, LLValue.rootKind], hmem⟩
    · next h => exact .inr ⟨rfl, v, hv, by simp [h, LLValue.rootKind], hmem⟩
    · next h => exact .inr ⟨rfl, v, hv, by simp [h, LLValue.rootKind], hmem⟩
    · exact .inl rfl

variable [Fintype ν]

/-- A backward traversal adds paths that end in roots. -/
lemma backtrack_endsInRoot (start : ν) {typesPath : List (ValuePath ν)}
    (h : ∀ p ∈ typesPath, M.EndsInRoot p) : ∀ p ∈ M.backtrack start typesPath, M.EndsInRoot p := by
  refine DefUseChain.doTraverse_invariant (P := fun paths => ∀ p ∈ paths, M.EndsInRoot p)
    (fun path paths hpaths => ?_) (fun _ _ h => h) (fun _ _ h => h) h start
  rcases M.mallocTargetMatcher_cases path paths with heq | ⟨heq, hroot⟩
  · rwa [heq]
  · rw [heq]
    intro p hp
    rcases List.mem_append.mp hp with hp | hp
    · exact hpaths p hp
    · exact (List.mem_singleton.mp hp) ▸ hroot

lemma forwardAnchors_endInAnchor (call : ν) : ∀ p ∈ M.forwardAnchors call, M.EndsInAnchor p := by
  refine DefUseChain.doTraverse_invariant (P := fun paths => ∀ p ∈ paths, M.EndsInAnchor p)
    (fun path paths hpaths => ?_) (fun _ _ h => h) (fun _ _ h => h) (by simp) call
  rcases M.mallocAnchorMatcher_cases path paths with heq | ⟨heq, hanchor⟩
  · rwa [heq]
  · rw [heq]
    intro p hp
    rcases List.mem_append.mp hp with hp | hp
    · exact hpaths p hp
    · exact (List.mem_singleton.mp hp) ▸ hanchor

/-- The two lists of `type_for_heap_call` hold paths that end in roots. -/
def AnchorInv (acc : List (ValuePath ν) × List (ValuePath ν)) : Prop :=
  (∀ p ∈ acc.1, M.EndsInRoot p) ∧ ∀ p ∈ acc.2, M.EndsInRoot p

lemma AnchorInv.typeForAnchor {acc : List (ValuePath ν) × List (ValuePath ν)} {call : ν}
    {anchorPath : ValuePath ν} (hacc : M.AnchorInv acc) (hanchor : M.EndsInAnchor anchorPath) :
    M.AnchorInv (M.typeForAnchor call acc anchorPath) := by
  obtain ⟨v, hv, hkind⟩ := hanchor
  have hback : M.AnchorInv (M.backtrack v acc.1, acc.2 ++ M.backtrack v acc.1) := by
    have hnew := M.backtrack_endsInRoot v hacc.1
    exact ⟨hnew, fun p hp => (List.mem_append.mp hp).elim (hacc.2 p) (hnew p)⟩
  simp only [IRModule.typeForAnchor, hv]
  split
  · split_ifs
    · exact hacc
    · exact hback
  · next hstore =>
    split_ifs with hmem
    · exact hback
    · -- neither a store nor a memory intrinsic: the anchor itself ends in a root
      have hroot : (M.value v).rootKind ≠ .noMatchingValue := by
        rcases hkind with ⟨value, pointer, h⟩ | h | h
        · exact absurd h (hstore value pointer)
        · exact absurd h hmem
        · exact h
      refine ⟨hacc.1, fun p hp => ?_⟩
      rcases List.mem_append.mp hp with hp | hp
      · exact hacc.2 p hp
      · rw [List.mem_singleton.mp hp]
        exact ⟨v, hv, hroot, by simpa using hmem⟩

lemma endsInRoot_of_mem_typeForHeapCall {call : ν} {p : ValuePath ν}
    (hp : p ∈ M.typeForHeapCall call) : M.EndsInRoot p := by
  have hfold : ∀ (anchors : List (ValuePath ν)) (acc : List (ValuePath ν) × List (ValuePath ν)),
      M.AnchorInv acc → (∀ q ∈ anchors, M.EndsInAnchor q) →
      M.AnchorInv (anchors.foldl (M.typeForAnchor call) acc) := by
    intro anchors
    induction anchors with
    | nil => exact fun acc hacc _ => hacc
    | cons q anchors ih =>
      intro acc hacc hall
      exact ih _ (hacc.typeForAnchor M (hall q (by simp))) fun r hr => hall r (by simp [hr])
  exact (hfold _ ([], []) ⟨by simp, by simp⟩ (M.forwardAnchors_endInAnchor call)).2 p hp

lemma endsInRoot_of_mem_pathFromValue {start : ν} {p : ValuePath ν}
    (hp : p ∈ M.pathFromValue start) : M.EndsInRoot p :=
  M.backtrack_endsInRoot start (by simp) p hp

/-- Every path handed to the type lookup is non-empty and ends in a return, an alloca, a call, a
global or an argument, and the call is no memory intrinsic. -/
theorem paths_end_in_root (call start : ν) :
    (∀ p ∈ M.typeForHeapCall call, p.empty = false ∧ M.EndsInRoot p) ∧
      ∀ p ∈ M.pathFromValue start, p.empty = false ∧ M.EndsInRoot p := by
  have hempty : ∀ p : ValuePath ν, M.EndsInRoot p → p.empty = false := by
    rintro p ⟨v, hv, -⟩
    simpa [ValuePath.empty] using ValuePath.pathToValue_ne_nil hv
  refine ⟨fun p hp => ?_, fun p hp => ?_⟩
  · have hroot := M.endsInRoot_of_mem_typeForHeapCall hp
    exact ⟨hempty p hroot, hroot⟩
  · have hroot := M.endsInRoot_of_mem_pathFromValue hp
    exact ⟨hempty p hroot, hroot⟩

end IRModule

end Dimeta
