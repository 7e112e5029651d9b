import Dimeta.TypeFor.Queries

/-!
# Allocations that are stored into each other

The type of an allocation is looked up along its paths, and where a path ends in another
allocation, in the type of that one. The recursion comes to an end exactly if no query that it
reaches needs itself again.
-/

set_option autoImplicit false

namespace Dimeta

open Recursion

variable {ι ν : Type} [DecidableEq ι] [DecidableEq ν] [Fintype ν] {G : DIGraph ι}
  {M : IRModule ι ν} {fuel : ℕ}

/-! ### The queries that are reached -/

/-- All paths that types are looked up along. -/
def allPaths (M : IRModule ι ν) : Set (CallValuePath ν) :=
  {cp | (∃ call, cp ∈ pathsOfCall M call) ∨
    (∃ alloca, ∃ p ∈ M.pathFromAlloca alloca, cp = ⟨none, p⟩) ∨
    ∃ source, cp ∈ sourceMemberPaths M source}

omit [DecidableEq ι] in
lemma finite_allPaths : (allPaths M).Finite := by
  have hcalls := Set.finite_iUnion fun call => List.finite_toSet (pathsOfCall M call)
  have hallocas := Set.finite_iUnion fun alloca =>
    List.finite_toSet ((M.pathFromAlloca alloca).map fun p => (⟨none, p⟩ : CallValuePath ν))
  have hmembers := Set.finite_iUnion fun source => List.finite_toSet (sourceMemberPaths M source)
  refine (hcalls.union (hallocas.union hmembers)).subset ?_
  rintro cp (⟨call, h⟩ | ⟨alloca, p, hp, rfl⟩ | ⟨source, h⟩)
  · exact .inl (Set.mem_iUnion.mpr ⟨call, h⟩)
  · exact .inr (.inl (Set.mem_iUnion.mpr ⟨alloca, List.mem_map.mpr ⟨p, hp, rfl⟩⟩))
  · exact .inr (.inr (Set.mem_iUnion.mpr ⟨source, h⟩))

/-- An allocation, or a query about one of these paths. -/
def AboutPaths (M : IRModule ι ν) : TypeQuery ν → Prop
  | .findTypeRoot cp => cp ∈ allPaths M
  | .findType cp     => cp ∈ allPaths M
  | .typeFor _       => True

omit [DecidableEq ι] in
lemma finite_aboutPaths : {q | AboutPaths M q}.Finite := by
  have hpaths := finite_allPaths (M := M)
  have hcalls : (Set.range (TypeQuery.typeFor (ν := ν))).Finite := Set.finite_range _
  refine (hcalls.union ((hpaths.image .findTypeRoot).union (hpaths.image .findType))).subset ?_
  intro q hq
  cases q with
  | findTypeRoot cp => exact .inr (.inl ⟨cp, hq, rfl⟩)
  | findType cp => exact .inr (.inr ⟨cp, hq, rfl⟩)
  | typeFor call => exact .inl ⟨call, rfl⟩

omit [DecidableEq ι] in
lemma mem_allPaths_of_mem_pathsBelow {cp cp' : CallValuePath ν} (h : cp' ∈ pathsBelow M cp) :
    cp' ∈ allPaths M := by
  rw [pathsBelow] at h
  cases hsearched : searchedAlloca M cp with
  | none =>
    rw [hsearched] at h
    cases h
  | some alloca =>
    rw [hsearched] at h
    obtain ⟨p, hp, rfl⟩ := List.mem_map.mp h
    exact .inr (.inl ⟨alloca, p, hp, rfl⟩)

omit [DecidableEq ι] in
lemma mem_allPaths_of_mem_memberPaths {cp cp' : CallValuePath ν} (h : cp' ∈ memberPaths M cp) :
    cp' ∈ allPaths M := by
  rw [memberPaths] at h
  split at h
  · split at h
    · exact .inr (.inr ⟨_, h⟩)
    · cases h
  · cases h

omit [DecidableEq ι] in
lemma aboutPaths_of_mem_queriesBelow {cp : CallValuePath ν} {q : TypeQuery ν}
    (h : q ∈ queriesBelow M cp) : AboutPaths M q := by
  rcases List.mem_append.mp h with h | h
  · obtain ⟨cp', hcp', rfl⟩ := List.mem_map.mp h
    exact mem_allPaths_of_mem_pathsBelow hcp'
  rcases List.mem_append.mp h with h | h
  · obtain ⟨cp', hcp', rfl⟩ := List.mem_map.mp h
    exact mem_allPaths_of_mem_memberPaths hcp'
  · obtain ⟨call, -, rfl⟩ := Option.map_eq_some_iff.mp (Option.mem_toList.mp h)
    exact trivial

/-- The rules name allocations, and queries about these paths. -/
lemma AboutPaths.names {q q' : TypeQuery ν} (hq : AboutPaths M q)
    (h : Names (typeRules G M fuel) q q') : AboutPaths M q' := by
  cases q with
  | findTypeRoot cp => exact aboutPaths_of_mem_queriesBelow h
  | findType cp =>
    obtain rfl := List.mem_singleton.mp h
    exact hq
  | typeFor call =>
    obtain ⟨cp, hcp, rfl⟩ := List.mem_map.mp h
    exact .inl ⟨call, hcp⟩

/-- From an allocation finitely many queries are reached. -/
lemma finite_reached (call : ν) :
    {q | Relation.ReflTransGen (Needs (typeRules G M fuel)) (.typeFor call) q}.Finite := by
  apply (finite_aboutPaths (M := M)).subset
  intro q hq
  induction hq with
  | refl => exact trivial
  | tail _ hstep ih => exact AboutPaths.names ih hstep.names

lemma ends_iff_exists_runTypeFor {call : ν} :
    Ends (typeQuery G M fuel) (.typeFor call) ↔
      ∃ depth r, runTypeFor G M fuel depth call {} = some r := by
  constructor
  · rintro ⟨depth, r, h⟩
    cases depth with
    | zero => cases h
    | succ depth => exact ⟨depth, r, h⟩
  · rintro ⟨depth, r, h⟩
    exact ⟨depth + 1, r, h⟩

/-- The recursion from an allocation comes to an end exactly if no query that it reaches by the
rules needs itself again; it does so where none is named again by those below it. -/
theorem type_for_ends_iff {ι ν : Type} [DecidableEq ι] [DecidableEq ν] [Fintype ν] (G : DIGraph ι)
    (M : IRModule ι ν) (fuel : ℕ) (call : ν) :
    ((∃ depth r, runTypeFor G M fuel depth call {} = some r) ↔
      ∀ q, Relation.ReflTransGen (Needs (typeRules G M fuel)) (.typeFor call) q →
        ¬ Relation.TransGen (Needs (typeRules G M fuel)) q q) ∧
    ((∀ q, Relation.ReflTransGen (Names (typeRules G M fuel)) (.typeFor call) q →
        ¬ Relation.TransGen (Names (typeRules G M fuel)) q q) →
      ∃ depth r, runTypeFor G M fuel depth call {} = some r) := by
  have hobeys := obeys_typeRules G M fuel
  rw [← ends_iff_exists_runTypeFor]
  exact ⟨hobeys.ends_iff_no_cycle (finite_reached call),
    hobeys.ends_of_no_cycle (finite_reached call)⟩

/-! ### Two allocations that point to each other -/

/-- `a = malloc; b = malloc; *b = a; *a = b;`, where the calls are 0 and 1 and the stores 2
and 3. -/
def pointToEachOther : IRModule (Fin 1) (Fin 4) where
  value
    | 0 => .call .call (.function { name := "malloc", subprogram := none }) [] none
    | 1 => .call .call (.function { name := "malloc", subprogram := none }) [] none
    | 2 => .store 0 1
    | 3 => .store 1 0
  users
    | 0 => [2, 3]
    | 1 => [2, 3]
    | 2 => []
    | 3 => []
  mem_users := by decide
  debugLoc _ := none
  dbgRecords := []

lemma typeForHeapCall_pointToEachOther :
    pointToEachOther.typeForHeapCall 0 = [⟨[2, 1]⟩] ∧
      pointToEachOther.typeForHeapCall 1 = [⟨[3, 0]⟩] := by
  have hzero : pointToEachOther.forwardAnchors 0 = [⟨[0, 2]⟩] :=
    DefUseChain.loop_eq_of_run 4 rfl
  have hone : pointToEachOther.forwardAnchors 1 = [⟨[1, 3]⟩] :=
    DefUseChain.loop_eq_of_run 4 rfl
  have hback : pointToEachOther.backtrack 2 [] = [⟨[2, 1]⟩] :=
    DefUseChain.loop_eq_of_run 4 rfl
  have hback' : pointToEachOther.backtrack 3 [] = [⟨[3, 0]⟩] :=
    DefUseChain.loop_eq_of_run 4 rfl
  constructor
  · have hanchor : pointToEachOther.typeForAnchor 0 ([], []) ⟨[0, 2]⟩ =
        (pointToEachOther.backtrack 2 [], [] ++ pointToEachOther.backtrack 2 []) := rfl
    rw [IRModule.typeForHeapCall, hzero, List.foldl_cons, hanchor, hback]
    rfl
  · have hanchor : pointToEachOther.typeForAnchor 1 ([], []) ⟨[1, 3]⟩ =
        (pointToEachOther.backtrack 3 [], [] ++ pointToEachOther.backtrack 3 []) := rfl
    rw [IRModule.typeForHeapCall, hone, List.foldl_cons, hanchor, hback']
    rfl

/-- The one needs the other. -/
lemma needs_pointToEachOther {G : DIGraph (Fin 1)} {fuel : ℕ} {call other : Fin 4}
    {path : ValuePath (Fin 4)}
    (hpaths : pathsOfCall pointToEachOther call = [⟨some call, path⟩])
    (hbelow : queriesBelow pointToEachOther ⟨some call, path⟩ = [.typeFor other]) :
    Relation.TransGen (Needs (typeRules G pointToEachOther fuel)) (.typeFor call)
      (.typeFor other) := by
  have hpath : Needs (typeRules G pointToEachOther fuel) (.typeFor call)
      (.findType ⟨some call, path⟩) := by
    simp only [Needs, typeRules, hpaths]
    exact reachedIn_cons_iff.mpr (.inl rfl)
  have hroot : Needs (typeRules G pointToEachOther fuel) (.findType ⟨some call, path⟩)
      (.findTypeRoot ⟨some call, path⟩) := reachedIn_cons_iff.mpr (.inl rfl)
  have hother : Needs (typeRules G pointToEachOther fuel) (.findTypeRoot ⟨some call, path⟩)
      (.typeFor other) := by
    simp only [Needs, typeRules, hbelow]
    exact reachedIn_cons_iff.mpr (.inl rfl)
  exact ((Relation.TransGen.single hpath).tail hroot).tail hother

/-- The type `int`. -/
def intOnly : DIGraph (Fin 1) where
  node _ := .basicType { name := "int", sizeInBits := 32, encoding := .signed }

theorem not_type_for_ends :
    ¬ ∃ depth r, runTypeFor intOnly pointToEachOther 1 depth 0 {} = some r := by
  obtain ⟨hzero, hone⟩ := typeForHeapCall_pointToEachOther
  have hpaths : pathsOfCall pointToEachOther 0 = [⟨some 0, ⟨[2, 1]⟩⟩] := by
    have hmap : pathsOfCall pointToEachOther 0 =
        (pointToEachOther.typeForHeapCall 0).map fun p => ⟨some 0, p⟩ := rfl
    rw [hmap, hzero]
    rfl
  have hpaths' : pathsOfCall pointToEachOther 1 = [⟨some 1, ⟨[3, 0]⟩⟩] := by
    have hmap : pathsOfCall pointToEachOther 1 =
        (pointToEachOther.typeForHeapCall 1).map fun p => ⟨some 1, p⟩ := rfl
    rw [hmap, hone]
    rfl
  have hcycle : Relation.TransGen (Needs (typeRules intOnly pointToEachOther 1)) (.typeFor 0)
      (.typeFor 0) :=
    (needs_pointToEachOther hpaths rfl).trans (needs_pointToEachOther hpaths' rfl)
  have hobeys := obeys_typeRules intOnly pointToEachOther 1
  rw [← ends_iff_exists_runTypeFor, hobeys.ends_iff_no_cycle (finite_reached 0)]
  intro h
  exact h _ .refl hcycle

end Dimeta
