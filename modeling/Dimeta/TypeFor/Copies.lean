import Dimeta.Core.Backtracking
import Dimeta.TypeFor.Queries

/-!
# Stacks that are copied

The search for the type of a path that ends in an alloca without a variable, or in a copy of one,
goes on with the paths from that alloca. Allocas that are copied into each other can lead it back:
it comes to an end exactly if no path is tried for itself again.
-/

set_option autoImplicit false

namespace Dimeta

open Recursion Recursion.Asking

variable {ι ν : Type}

/-- What `find_type` and `type_for` answer where the search for a root type asks them. -/
structure OtherAnswers (ι ν : Type) where
  findType : CallValuePath ν → Except Fault (Option ι)
  typeFor : ν → Except Fault (Option (DimetaData ι))

/-- The outcomes of all queries, given those of `find_type_root`. -/
def OtherAnswers.outcome (others : OtherAnswers ι ν)
    (search : CallValuePath ν → Option (Except Fault (Option (Option ι)))) :
    (q : TypeQuery ν) → Option (Except Fault (q.Result ι))
  | .findTypeRoot path => search path
  | .findType path     => some (others.findType path)
  | .typeFor call      => some (others.typeFor call)

section Search

variable [DecidableEq ν] [Fintype ν] (M : IRModule ι ν) (others : OtherAnswers ι ν)

/-- `find_type_root`, with recursion to the given depth. -/
def findTypeRootTo : ℕ → CallValuePath ν → Option (Except Fault (Option (Option ι)))
  | 0, _          => none
  | depth + 1, cp => (findTypeRoot M cp).run (others.outcome (findTypeRootTo depth))

/-- What is found for a path if there is no type along the paths below it. -/
def ownAnswer (cp : CallValuePath ν) : Except Fault (Option (Option ι)) :=
  ((findTypeRoot M cp).run (others.outcome fun _ => some (.ok none))).getD (.ok none)

end Search

/-! ### One level -/

section Level

variable {others : OtherAnswers ι ν} {α : Type}

/-- The outcome of other queries does not depend on other root types. -/
lemma exists_run_askFirst (x : Except Fault (Option (Option ι))) {qs : List (TypeQuery ν)}
    (hqs : ∀ cp, .findTypeRoot cp ∉ qs) : ∃ rest, ∀ search,
      (askFirst TypeQuery.entry x qs).run (others.outcome search) = some rest := by
  induction qs with
  | nil => exact ⟨x, fun search => run_ofExcept _ x⟩
  | cons q qs ih =>
    obtain ⟨rest, hrest⟩ := ih fun cp hmem => hqs cp (List.mem_cons_of_mem q hmem)
    obtain ⟨r, hr⟩ : ∃ r, ∀ search, others.outcome search q = some r := by
      cases q with
      | findTypeRoot cp => exact absurd List.mem_cons_self (hqs cp)
      | findType cp => exact ⟨others.findType cp, fun search => rfl⟩
      | typeFor call => exact ⟨others.typeFor call, fun search => rfl⟩
    simp only [askFirst, run_bind, run_query, hr]
    cases r with
    | error e => exact ⟨.error e, fun search => rfl⟩
    | ok a =>
      simp only [andThen]
      cases q.entry a with
      | none => exact ⟨rest, hrest⟩
      | some t => exact ⟨.ok (some t), fun search => rfl⟩

/-- The paths below, in order, then what is left. -/
lemma run_askFirst_append {search : CallValuePath ν → Option (Except Fault (Option (Option ι)))}
    {x rest : Except Fault (Option (Option ι))} {qs : List (TypeQuery ν)}
    (hrest : (askFirst TypeQuery.entry x qs).run (others.outcome search) = some rest)
    (cps : List (CallValuePath ν)) :
    (askFirst TypeQuery.entry x (cps.map .findTypeRoot ++ qs)).run (others.outcome search) =
      Backtracking.firstAnswer search rest cps := by
  induction cps with
  | nil => exact hrest
  | cons cp cps ih =>
    rw [List.map_cons, List.cons_append, askFirst, run_bind, run_query, Backtracking.firstAnswer,
      OtherAnswers.outcome]
    rcases search cp with _ | e | _ | t
    · rfl
    · rfl
    · exact ih
    · rfl

lemma firstAnswer_none {Q : Type} (rest : Except Fault (Option α)) (qs : List Q) :
    Backtracking.firstAnswer (fun _ => some (.ok none)) rest qs = some rest := by
  induction qs with
  | nil => rfl
  | cons q qs ih => exact ih

end Level

section Search

variable [DecidableEq ν] [Fintype ν] {M : IRModule ι ν} {others : OtherAnswers ι ν}

variable (M others) in
/-- One level of the search tries the paths below. -/
lemma exists_run_findTypeRoot (cp : CallValuePath ν) : ∃ rest, ∀ search,
    (findTypeRoot M cp).run (others.outcome search) =
      Backtracking.firstAnswer search rest (pathsBelow M cp) := by
  have hothers : ∀ cp', TypeQuery.findTypeRoot cp' ∉
      (memberPaths M cp).map .findType ++ ((rootAllocation M cp).map .typeFor).toList := by simp
  obtain ⟨rest, hrest⟩ := exists_run_askFirst (ownType M cp) hothers
  refine ⟨rest, fun search => ?_⟩
  rw [findTypeRoot_eq, queriesBelow]
  exact run_askFirst_append (hrest search) (pathsBelow M cp)

/-- The search for a root type is one that backtracks. -/
lemma findTypeRootTo_eq_searchTo (depth : ℕ) :
    findTypeRootTo M others depth =
      Backtracking.searchTo (pathsBelow M) (ownAnswer M others) depth := by
  induction depth with
  | zero => rfl
  | succ depth ih =>
    funext cp
    obtain ⟨rest, hrest⟩ := exists_run_findTypeRoot M others cp
    have hown : ownAnswer M others cp = rest := by
      rw [ownAnswer, hrest, firstAnswer_none]
      rfl
    rw [findTypeRootTo, Backtracking.searchTo, hown, hrest, ih]

lemma finite_pathsBelow (M : IRModule ι ν) :
    {cp' | ∃ cp, cp' ∈ pathsBelow M cp}.Finite := by
  have hpaths : ∀ alloca : ν, {cp : CallValuePath ν |
      cp ∈ (M.pathFromAlloca alloca).map fun p => ⟨none, p⟩}.Finite :=
    fun alloca => List.finite_toSet _
  refine (Set.finite_iUnion hpaths).subset ?_
  rintro cp' ⟨cp, hcp'⟩
  rw [pathsBelow] at hcp'
  cases hsearched : searchedAlloca M cp with
  | none =>
    rw [hsearched] at hcp'
    cases hcp'
  | some alloca =>
    rw [hsearched] at hcp'
    exact Set.mem_iUnion.mpr ⟨alloca, hcp'⟩

end Search

section

variable [DecidableEq ν] [Fintype ν]

/-- Whatever `find_type` and `type_for` answer, the search for the root type of a path comes to an
end exactly if no path that it reaches is tried for itself again. -/
theorem root_search_ends_iff (M : IRModule ι ν) (others : OtherAnswers ι ν)
    (cp : CallValuePath ν) : (∃ depth r, findTypeRootTo M others depth cp = some r) ↔
      ∀ cp', Relation.ReflTransGen
          (Backtracking.Tries (pathsBelow M) (ownAnswer M others)) cp cp' →
        ¬ Relation.TransGen (Backtracking.Tries (pathsBelow M) (ownAnswer M others)) cp' cp' := by
  simp only [findTypeRootTo_eq_searchTo]
  exact Backtracking.ends_iff_no_cycle (finite_pathsBelow M)

/-- Whatever `find_type` and `type_for` answer, a search that ends has no type exactly if none of
the paths that copies lead to has one of its own; what it finds is said by the first path that
has. -/
theorem root_search_finds (M : IRModule ι ν) (others : OtherAnswers ι ν) (cp : CallValuePath ν)
    {depth : ℕ} {r : Except Fault (Option (Option ι))}
    (h : findTypeRootTo M others depth cp = some r) :
    (r = .ok none ↔ ∀ cp', Relation.ReflTransGen (fun cp cp' => cp' ∈ pathsBelow M cp) cp cp' →
      ownAnswer M others cp' = .ok none) ∧
    ∃ cp', Relation.ReflTransGen (Backtracking.Tries (pathsBelow M) (ownAnswer M others)) cp cp' ∧
      ownAnswer M others cp' = r ∧
        ∀ cp₁ ∈ pathsBelow M cp', ∀ cp₂,
          Relation.ReflTransGen (fun cp cp' => cp' ∈ pathsBelow M cp) cp₁ cp₂ →
            ownAnswer M others cp₂ = .ok none := by
  rw [findTypeRootTo_eq_searchTo] at h
  have hsettles : ∀ r : Except Fault (Option (Option ι)),
      Backtracking.Settles r ↔ r ≠ .ok none := by
    rintro (e | _ | t) <;> simp [Backtracking.Settles]
  have hanswered : ∀ cp, ¬ Backtracking.Answered (pathsBelow M) (ownAnswer M others) cp ↔
      ∀ cp', Relation.ReflTransGen (fun cp cp' => cp' ∈ pathsBelow M cp) cp cp' →
        ownAnswer M others cp' = .ok none := by
    intro cp
    simp [Backtracking.answered_iff_exists, hsettles]
  constructor
  · rw [← hanswered, ← Backtracking.settles_iff_answered h, hsettles, not_not]
  · obtain ⟨cp', hreach, hown, hbelow⟩ := Backtracking.exists_tried h
    exact ⟨cp', hreach, hown, fun cp₁ hcp₁ => (hanswered cp₁).mp (hbelow cp₁ hcp₁)⟩

end

/-- The alloca 0 without a variable, to which an `llvm.memcpy` 2 copies the variable in alloca 1. -/
def copied : IRModule (Fin 1) (Fin 5) where
  value
    | 0 => .alloca
    | 1 => .alloca
    | 2 => .call .call (.intrinsic .memcpy) [0, 1, 3, 4] none
    | 3 => .constantInt 8
    | 4 => .constantInt 0
  users
    | 0 => [2]
    | 1 => [2]
    | 2 => []
    | 3 => [2]
    | 4 => [2]
  mem_users := by decide
  debugLoc _ := none
  dbgRecords := [⟨some 1, ⟨"v", some 0⟩, false⟩]

def copiedAnswers : OtherAnswers (Fin 1) (Fin 5) where
  findType _ := .ok none
  typeFor _ := .ok none

lemma findTypeRootTo_copied : findTypeRootTo copied copiedAnswers 2 ⟨none, ⟨[0]⟩⟩ =
    some (.ok (some (some 0))) := by
  have hpath : copied.pathFromAlloca 0 = [⟨[0, 2]⟩] := DefUseChain.loop_eq_of_run 3 rfl
  have hsearched : searchedAlloca copied ⟨none, ⟨[0]⟩⟩ = some 0 := rfl
  have hbelow : pathsBelow copied ⟨none, ⟨[0]⟩⟩ = [⟨none, ⟨[0, 2]⟩⟩] := by
    simp only [pathsBelow, hsearched, hpath]
    rfl
  rw [findTypeRootTo_eq_searchTo, Backtracking.searchTo, hbelow]
  rfl

theorem root_search_finds_copied : ∃ cp', Relation.ReflTransGen
    (Backtracking.Tries (pathsBelow copied) (ownAnswer copied copiedAnswers)) ⟨none, ⟨[0]⟩⟩ cp' ∧
      ownAnswer copied copiedAnswers cp' = .ok (some (some 0)) := by
  obtain ⟨cp', hreach, hown, -⟩ :=
    (root_search_finds copied copiedAnswers ⟨none, ⟨[0]⟩⟩ findTypeRootTo_copied).2
  exact ⟨cp', hreach, hown⟩

/-! ### Two stacks that are swapped -/

/-- Allocas 0 and 1 without variables, and `llvm.memcpy`s 2 from 1 to 0 and 3 from 0 to 1. -/
def swapped : IRModule (Fin 1) (Fin 6) where
  value
    | 0 => .alloca
    | 1 => .alloca
    | 2 => .call .call (.intrinsic .memcpy) [0, 1, 4, 5] none
    | 3 => .call .call (.intrinsic .memcpy) [1, 0, 4, 5] none
    | 4 => .constantInt 8
    | 5 => .constantInt 0
  users
    | 0 => [2, 3]
    | 1 => [2, 3]
    | 2 => []
    | 3 => []
    | 4 => [2, 3]
    | 5 => [2, 3]
  mem_users := by decide
  debugLoc _ := none
  dbgRecords := []

def noAnswers : OtherAnswers (Fin 1) (Fin 6) where
  findType _ := .ok none
  typeFor _ := .ok none

lemma pathFromAlloca_swapped : swapped.pathFromAlloca 0 = [⟨[0, 3]⟩, ⟨[0, 2]⟩] ∧
    swapped.pathFromAlloca 1 = [⟨[1, 3]⟩, ⟨[1, 2]⟩] := by
  constructor
  · exact DefUseChain.loop_eq_of_run 4 rfl
  · exact DefUseChain.loop_eq_of_run 4 rfl

lemma pathsBelow_swapped : pathsBelow swapped ⟨none, ⟨[0]⟩⟩ = [⟨none, ⟨[0, 3]⟩⟩, ⟨none, ⟨[0, 2]⟩⟩] ∧
    pathsBelow swapped ⟨none, ⟨[0, 2]⟩⟩ = [⟨none, ⟨[1, 3]⟩⟩, ⟨none, ⟨[1, 2]⟩⟩] ∧
    pathsBelow swapped ⟨none, ⟨[1, 3]⟩⟩ = [⟨none, ⟨[0, 3]⟩⟩, ⟨none, ⟨[0, 2]⟩⟩] := by
  obtain ⟨hzero, hone⟩ := pathFromAlloca_swapped
  refine ⟨?_, ?_, ?_⟩
  · have hsearched : searchedAlloca swapped ⟨none, ⟨[0]⟩⟩ = some 0 := rfl
    simp only [pathsBelow, hsearched, hzero]
    rfl
  · have hsearched : searchedAlloca swapped ⟨none, ⟨[0, 2]⟩⟩ = some 1 := rfl
    simp only [pathsBelow, hsearched, hone]
    rfl
  · have hsearched : searchedAlloca swapped ⟨none, ⟨[1, 3]⟩⟩ = some 0 := rfl
    simp only [pathsBelow, hsearched, hzero]
    rfl

/-- A copy of the alloca itself has no answer. -/
lemma not_answered_swapped : ¬ Backtracking.Answered (pathsBelow swapped)
    (ownAnswer swapped noAnswers) ⟨none, ⟨[0, 3]⟩⟩ := by
  intro h
  cases h with
  | own h =>
    have hown : ownAnswer swapped noAnswers ⟨none, ⟨[0, 3]⟩⟩ = .ok none := rfl
    rw [hown] at h
    exact h
  | inner hq' =>
    have hbelow : pathsBelow swapped ⟨none, ⟨[0, 3]⟩⟩ = [] := rfl
    rw [hbelow] at hq'
    cases hq'

theorem not_root_search_ends :
    ¬ ∃ depth r, findTypeRootTo swapped noAnswers depth ⟨none, ⟨[0]⟩⟩ = some r := by
  obtain ⟨hstart, hzero, hone⟩ := pathsBelow_swapped
  have hfirst : ∀ x ∈ [(⟨none, ⟨[0, 3]⟩⟩ : CallValuePath (Fin 6))],
      ¬ Backtracking.Answered (pathsBelow swapped) (ownAnswer swapped noAnswers) x := by
    intro x hx
    rw [List.mem_singleton.mp hx]
    exact not_answered_swapped
  have hin : Backtracking.Tries (pathsBelow swapped) (ownAnswer swapped noAnswers)
      ⟨none, ⟨[0]⟩⟩ ⟨none, ⟨[0, 2]⟩⟩ := ⟨_, [], hstart, hfirst⟩
  have hback : Backtracking.Tries (pathsBelow swapped) (ownAnswer swapped noAnswers)
      ⟨none, ⟨[1, 3]⟩⟩ ⟨none, ⟨[0, 2]⟩⟩ := ⟨_, [], hone, hfirst⟩
  have hon : Backtracking.Tries (pathsBelow swapped) (ownAnswer swapped noAnswers)
      ⟨none, ⟨[0, 2]⟩⟩ ⟨none, ⟨[1, 3]⟩⟩ := ⟨[], _, hzero, by simp⟩
  simp only [findTypeRootTo_eq_searchTo]
  intro hends
  have hacyclic := (Backtracking.ends_iff_no_cycle (finite_pathsBelow swapped)).mp hends
  exact hacyclic _ (.single hin) (.tail (.single hon) hback)

end Dimeta
