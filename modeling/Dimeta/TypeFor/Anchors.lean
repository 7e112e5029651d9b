import Dimeta.Dataflow.Matchers
import Dimeta.TypeFor.Call

/-!
# Anchors and the shared backward matcher

`type_for_heap_call` backtracks every anchor with one matcher, which keeps the paths that it found
before and adds all of them again. Duplicates of earlier paths never come first, so the type that
is selected is the one that fresh matchers select.
-/

set_option autoImplicit false

namespace Dimeta

open Recursion Recursion.Asking

variable {ι ν : Type}

/-! ### Duplicates in a search for the first result -/

/-- What occurred before changes neither the first result nor the members. -/
lemma findSome?_append_of_subset {α β : Type} {l l' : List α} (h : l' ⊆ l) (m : List α)
    (find : α → Option β) : (l ++ (l' ++ m)).findSome? find = (l ++ m).findSome? find := by
  rw [List.findSome?_append, List.findSome?_append, List.findSome?_append]
  cases hl : l.findSome? find with
  | some b => rfl
  | none =>
    have hl' : l'.findSome? find = none := by
      rw [List.findSome?_eq_none_iff] at hl ⊢
      intro a ha
      exact hl a (h ha)
    rw [hl', Option.none_or, Option.none_or]

/-! ### Backtracking with a fresh matcher -/

namespace IRModule

variable [DecidableEq ν] (M : IRModule ι ν)

omit [DecidableEq ν] in
/-- The matcher adds to the paths that it holds, and does not look at them. -/
lemma mallocTargetMatcher_append (path : ValuePath ν) (before paths : List (ValuePath ν)) :
    M.mallocTargetMatcher path (before ++ paths) =
      ((M.mallocTargetMatcher path paths).1, before ++ (M.mallocTargetMatcher path paths).2) := by
  simp only [mallocTargetMatcher]
  split
  · rfl
  · split_ifs
    · rfl
    · rfl
    · split
      · rw [List.append_assoc]
      · rw [List.append_assoc]
      · rw [List.append_assoc]
      · rw [List.append_assoc]
      · rfl

variable [Fintype ν]

/-- A traversal adds what it adds with a fresh matcher. -/
lemma backtrack_append (start : ν) (before : List (ValuePath ν)) :
    M.backtrack start before = before ++ M.backtrack start [] := by
  have hmaps : DefUseChain.MapsState (before ++ ·)
      (⟨M.mallocTargetMatcher, fun _ st => (true, st),
        fun path st => (M.mallocBacktrackSearch path, st)⟩ : Search ν (List (ValuePath ν)))
      ⟨M.mallocTargetMatcher, fun _ st => (true, st),
        fun path st => (M.mallocBacktrackSearch path, st)⟩ :=
    ⟨fun path paths => M.mallocTargetMatcher_append path before paths, fun _ _ => rfl,
      fun _ _ => rfl⟩
  have hmap := DefUseChain.doTraverse_map hmaps start []
  rw [List.append_nil] at hmap
  exact hmap

/-- The loop of `type_for_heap_call` over the anchors. -/
def pathsOfAnchors (call : ν) (anchors : List (ValuePath ν)) : List (ValuePath ν) :=
  (anchors.foldl (M.typeForAnchor call) ([], [])).2

/-- The paths of one anchor alone: those of a fresh matcher from a store or a memory intrinsic, and
the anchor itself otherwise. -/
def freshPaths (call : ν) (anchorPath : ValuePath ν) : List (ValuePath ν) :=
  match anchorPath.value with
  | none   => [anchorPath]
  | some v =>
    match M.value v with
    | .store _ pointerOperand => if pointerOperand = call then [] else M.backtrack v []
    | value => if value.isMemIntrinsic then M.backtrack v [] else [anchorPath]

/-- An anchor repeats the paths of the shared matcher, or it leaves them alone. -/
lemma typeForAnchor_cases (call : ν) (acc : List (ValuePath ν) × List (ValuePath ν))
    (anchorPath : ValuePath ν) :
    M.typeForAnchor call acc anchorPath =
        (acc.1 ++ M.freshPaths call anchorPath,
          acc.2 ++ (acc.1 ++ M.freshPaths call anchorPath)) ∨
      M.typeForAnchor call acc anchorPath = (acc.1, acc.2 ++ M.freshPaths call anchorPath) := by
  have hback : ∀ v, (M.backtrack v acc.1, acc.2 ++ M.backtrack v acc.1) =
      (acc.1 ++ M.backtrack v [], acc.2 ++ (acc.1 ++ M.backtrack v [])) := by
    intro v
    rw [M.backtrack_append v acc.1]
  cases hv : anchorPath.value with
  | none =>
    right
    simp only [typeForAnchor, freshPaths, hv]
  | some v =>
    cases hvalue : M.value v with
    | store value pointerOperand =>
      simp only [typeForAnchor, freshPaths, hv, hvalue]
      by_cases hcall : pointerOperand = call
      · rw [if_pos hcall, if_pos hcall]
        exact .inr (by rw [List.append_nil])
      · rw [if_neg hcall, if_neg hcall]
        exact .inl (hback v)
    | _ =>
      simp only [typeForAnchor, freshPaths, hv, hvalue]
      split_ifs
      · exact .inl (hback v)
      · exact .inr rfl

/-- The paths with the shared matcher and those with fresh ones: the same first results and the
same members, and what the matcher holds was found before. -/
structure SharedInv (acc : List (ValuePath ν) × List (ValuePath ν)) (fresh : List (ValuePath ν)) :
    Prop where
  held : acc.1 ⊆ acc.2
  first : ∀ {β : Type} (find : ValuePath ν → Option β),
    acc.2.findSome? find = fresh.findSome? find
  mem : ∀ p, p ∈ acc.2 ↔ p ∈ fresh

variable {M}

omit [Fintype ν] [DecidableEq ν] in
/-- Further paths on both sides. -/
lemma SharedInv.append {acc : List (ValuePath ν) × List (ValuePath ν)}
    {fresh : List (ValuePath ν)} (h : SharedInv acc fresh) {l : List (ValuePath ν)}
    (paths : List (ValuePath ν)) (hheld : l ⊆ acc.2 ++ paths) :
    SharedInv (l, acc.2 ++ paths) (fresh ++ paths) where
  held := hheld
  first find := by
    rw [List.findSome?_append, List.findSome?_append, h.first find]
  mem p := by rw [List.mem_append, List.mem_append, h.mem p]

lemma SharedInv.typeForAnchor {acc : List (ValuePath ν) × List (ValuePath ν)}
    {fresh : List (ValuePath ν)} (h : SharedInv acc fresh) (call : ν) (anchorPath : ValuePath ν) :
    SharedInv (M.typeForAnchor call acc anchorPath) (fresh ++ M.freshPaths call anchorPath) := by
  have happend := h.append (l := acc.1 ++ M.freshPaths call anchorPath)
    (M.freshPaths call anchorPath) (List.append_subset.mpr
      ⟨List.subset_append_of_subset_left _ h.held, List.subset_append_right _ _⟩)
  rcases M.typeForAnchor_cases call acc anchorPath with heq | heq
  · -- the held paths come once more, behind their first occurrences
    rw [heq]
    refine ⟨List.subset_append_right _ _, fun find => ?_, fun p => ?_⟩
    · rw [findSome?_append_of_subset h.held, happend.first find]
    · rw [← happend.mem p]
      simp only [List.mem_append]
      constructor
      · rintro (hp | hp | hp)
        · exact .inl hp
        · exact .inl (h.held hp)
        · exact .inr hp
      · rintro (hp | hp)
        · exact .inl hp
        · exact .inr (.inr hp)
  · rw [heq]
    exact h.append _ (List.subset_append_of_subset_left _ h.held)

/-- Over all anchors. -/
lemma sharedInv_pathsOfAnchors (call : ν) (anchors : List (ValuePath ν)) :
    SharedInv (anchors.foldl (M.typeForAnchor call) ([], []))
      (anchors.flatMap (M.freshPaths call)) := by
  have hfold : ∀ (anchors : List (ValuePath ν)) (acc : List (ValuePath ν) × List (ValuePath ν))
      (fresh : List (ValuePath ν)), SharedInv acc fresh →
      SharedInv (anchors.foldl (M.typeForAnchor call) acc)
        (fresh ++ anchors.flatMap (M.freshPaths call)) := by
    intro anchors
    induction anchors with
    | nil =>
      intro acc fresh h
      rw [List.flatMap_nil, List.append_nil]
      exact h
    | cons anchorPath anchors ih =>
      intro acc fresh h
      rw [List.foldl_cons, List.flatMap_cons, ← List.append_assoc]
      exact ih _ _ (h.typeForAnchor call anchorPath)
  have hstart : SharedInv (([], []) : List (ValuePath ν) × List (ValuePath ν)) [] :=
    ⟨List.Subset.refl _, fun _ => rfl, fun _ => Iff.rfl⟩
  have hanchors := hfold anchors _ _ hstart
  rwa [List.nil_append] at hanchors

end IRModule

/-! ### The type that is selected -/

section Select

variable {answers : (q : TypeQuery ν) → Option (Except Fault (q.Result ι))} {call : Option ν}

/-- How the search for a type along a path fails, if it does. -/
def failureOf (answers : (q : TypeQuery ν) → Option (Except Fault (q.Result ι)))
    (call : Option ν) (path : ValuePath ν) : Option (Option (Except Fault (Option ι))) :=
  match answers (.findType ⟨call, path⟩) with
  | none            => some none
  | some (.error e) => some (some (.error e))
  | some (.ok _)    => none

/-- The type that is found along a path. -/
def typeAlong (answers : (q : TypeQuery ν) → Option (Except Fault (q.Result ι)))
    (call : Option ν) (path : ValuePath ν) : Option ι :=
  match answers (.findType ⟨call, path⟩) with
  | some (.ok type) => type
  | _               => none

lemma failureOf_ne_ok (path : ValuePath ν) (type : Option ι) :
    failureOf answers call path ≠ some (some (.ok type)) := by
  simp only [failureOf]
  cases answers (.findType ⟨call, path⟩) with
  | none => simp
  | some answer => cases answer <;> simp

/-- One more type in front of the collected ones. -/
lemma head_cons_type {rest : Option (Except Fault (List ι))}
    {failure : Option (Option (Except Fault (Option ι)))} {first : Option ι}
    (hrest : rest.map (·.map List.head?) = failure.getD (some (.ok first)))
    (hfailure : ∀ type, failure ≠ some (some (.ok type))) (type : Option ι) :
    (andThen rest fun types => some (.ok (type.toList ++ types))).map (·.map List.head?) =
      failure.getD (some (.ok (type.or first))) := by
  cases failure with
  | none =>
    cases rest with
    | none => cases hrest
    | some answer =>
      cases answer with
      | error e => cases hrest
      | ok types =>
        cases hrest
        cases type <;> rfl
  | some failure =>
    cases rest with
    | none => exact hrest
    | some answer =>
      cases answer with
      | error e => exact hrest
      | ok types => exact absurd hrest.symm (hfailure _ ∘ congrArg some)

/-- The first of the collected types is the first that is found, unless a search fails. -/
lemma head_run_collectTypes (ps : List (ValuePath ν)) :
    ((collectTypes call ps).run answers).map (·.map List.head?) =
      (ps.findSome? (failureOf answers call)).getD
        (some (.ok (ps.findSome? (typeAlong answers call)))) := by
  induction ps with
  | nil => rfl
  | cons p ps ih =>
    have hfailure : ∀ type, ps.findSome? (failureOf answers call) ≠ some (some (.ok type)) := by
      intro type htype
      obtain ⟨path, -, hpath⟩ := List.exists_of_findSome?_eq_some htype
      exact failureOf_ne_ok path type hpath
    simp only [collectTypes, run_bind, askFindType, run_query, List.findSome?_cons, failureOf,
      typeAlong]
    cases h : answers (.findType ⟨call, p⟩) with
    | none => rfl
    | some answer =>
      cases answer with
      | error e => rfl
      | ok type =>
        have hcons := head_cons_type ih hfailure type
        cases type with
        | none => exact hcons
        | some t => exact hcons

/-- Paths with the same first results select the same type. -/
lemma run_head_collectTypes_congr {ps qs : List (ValuePath ν)}
    (h : ∀ (β : Type) (find : ValuePath ν → Option β), ps.findSome? find = qs.findSome? find) :
    ((collectTypes call ps).run answers).map (·.map List.head?) =
      ((collectTypes call qs).run answers).map (·.map List.head?) := by
  rw [head_run_collectTypes, head_run_collectTypes, h, h]

end Select

section Malloclike

variable [DecidableEq ν] [Fintype ν] (G : DIGraph ι) (M : IRModule ι ν)

/-- `type_for_malloclike` with a fresh matcher for each anchor. -/
def typeForMalloclikeFresh (call : ν) : TypeSearch ι ν (Option (Option ι)) :=
  match M.getArrayAccessAssignment call with
  | some (diVar, arrayAccess) => .ofExcept (assignedType G diVar arrayAccess)
  | none => do
    return (← collectTypes (some call)
      ((M.forwardAnchors call).flatMap (M.freshPaths call))).head?.map some

/-- For any anchors the paths with the shared matcher have the same first results as those with
fresh matchers, and they are the same set; so the type of an allocation is the same. -/
theorem shared_matcher_selects (call : ν) :
    (∀ anchors : List (ValuePath ν),
      (∀ (β : Type) (find : ValuePath ν → Option β),
        (M.pathsOfAnchors call anchors).findSome? find =
          (anchors.flatMap (M.freshPaths call)).findSome? find) ∧
        ∀ p, p ∈ M.pathsOfAnchors call anchors ↔ p ∈ anchors.flatMap (M.freshPaths call)) ∧
      M.typeForHeapCall call = M.pathsOfAnchors call (M.forwardAnchors call) ∧
        ∀ answers, (typeForMalloclike G M call).run answers =
          (typeForMalloclikeFresh G M call).run answers := by
  refine ⟨fun anchors => ?_, rfl, fun answers => ?_⟩
  · have hinv := IRModule.sharedInv_pathsOfAnchors (M := M) call anchors
    exact ⟨fun _ find => hinv.first find, hinv.mem⟩
  · simp only [typeForMalloclike, typeForMalloclikeFresh]
    cases M.getArrayAccessAssignment call with
    | some assigned => rfl
    | none =>
      have hinv := IRModule.sharedInv_pathsOfAnchors (M := M) call (M.forwardAnchors call)
      have hhead : ((collectTypes (some call) (M.typeForHeapCall call)).run answers).map
          (·.map List.head?) = ((collectTypes (some call)
            ((M.forwardAnchors call).flatMap (M.freshPaths call))).run answers).map
              (·.map List.head?) := run_head_collectTypes_congr fun _ find => hinv.first find
      have hselect : ∀ ps : List (ValuePath ν), Asking.run answers (do
            return (← collectTypes (some call) ps).head?.map some) =
          (((collectTypes (some call) ps).run answers).map (·.map List.head?)).map
            (·.map (Option.map some)) := by
        intro ps
        rw [run_bind]
        rcases (collectTypes (some call) ps).run answers with _ | _ | types
        · rfl
        · rfl
        · rfl
      rw [hselect, hselect, hhead]

end Malloclike

end Dimeta
