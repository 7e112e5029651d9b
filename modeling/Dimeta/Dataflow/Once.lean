import Dimeta.Dataflow.Explore
import Mathlib.Data.List.TakeWhile

/-!
# Values that are matched once

A value may wait in the work list several times and be matched each time it is popped. The paths
are popped in last-in first-out order, so a value that only one value leads to, by one entry of its
search direction, is matched at most once.
-/

set_option autoImplicit false

namespace Dimeta

open Relation

variable {ν σ : Type*}

/-! ### What the callbacks collect -/

namespace DefUseChain

variable [DecidableEq ν]

/-- Two searches that take the same steps as long as `P` holds have the same result. -/
lemma loop_congr [Fintype ν] {f g : Search ν σ} {P : DefUseChain ν σ → Prop}
    (hstep : ∀ c, P c → iterate f c = iterate g c)
    (hkeep : ∀ c c', P c → iterate g c = .next c' → P c') (c : DefUseChain ν σ) (hc : P c) :
    loop f c = loop g c := by
  have hsame := hstep c hc
  match h : iterate g c with
  | .next c' =>
    rw [h] at hsame
    rw [loop_next h, loop_next hsame]
    exact loop_congr hstep hkeep c' (hkeep c c' hc h)
  | .done st =>
    rw [h] at hsame
    rw [loop_done h, loop_done hsame]
termination_by c.measure
decreasing_by exact measure_lt_of_iterate h

lemma addToWork_workingSet (vals : List ν) (p : ValuePath ν) (c : DefUseChain ν σ) :
    (c.addToWork vals p).workingSet =
      ((vals.filter (· ∉ c.seenSet)).map p.add).reverse ++ c.workingSet := by
  induction vals generalizing c with
  | nil => rfl
  | cons v vals ih =>
    have hstep : c.addToWork (v :: vals) p = (c.addToWorkS (p.add v)).addToWork vals p := rfl
    rw [hstep, ih, addToWorkS_seenSet]
    by_cases hv : v ∈ c.seenSet
    · rw [List.filter_cons_of_neg (by simpa using hv)]
      simp [addToWorkS, hv]
    · rw [List.filter_cons_of_pos (by simpa using hv)]
      simp [addToWorkS, hv]

/-- What `addToWork` makes of the search object. -/
lemma addToWork_eq (vals : List ν) (p : ValuePath ν) (c : DefUseChain ν σ) :
    c.addToWork vals p =
      ⟨((vals.filter (· ∉ c.seenSet)).map p.add).reverse ++ c.workingSet, c.seenSet,
        c.callback⟩ := by
  rw [← addToWork_workingSet]
  exact congr (congrArg₂ DefUseChain.mk rfl (addToWork_seenSet _ _ _)) (addToWork_callback _ _ _)

/-- The paths of a search begin with its start. -/
def FromStart (start : ν) (c : DefUseChain ν σ) : Prop :=
  ∀ p ∈ c.workingSet, p.startValue = some start ∧ p.value ≠ none

lemma fromStart_init (start : ν) (st : σ) : FromStart start (init start st) := by
  rw [init_eq]
  intro p hp
  obtain rfl : p = .ofStart start := by simpa using hp
  exact ⟨rfl, by simp⟩

lemma FromStart.iterate {start : ν} {f : Search ν σ} {c c' : DefUseChain ν σ}
    (hc : FromStart start c) (h : iterate f c = .next c') : FromStart start c' := by
  obtain ⟨user, rest, hw, hcase⟩ := iterate_next_cases h
  have huser := hc user (by simp [hw])
  have hrest : ∀ p ∈ rest, p.startValue = some start ∧ p.value ≠ none :=
    fun p hp => hc p (by simp [hw, hp])
  rcases hcase with ⟨-, rfl⟩ | ⟨v, -, ⟨st, -, rfl⟩ | ⟨st, st', -, ⟨-, rfl⟩ | ⟨-, rfl⟩⟩⟩
  · exact hrest
  · exact hrest
  · exact hrest
  · rw [applySearchDirection]
    split
    · exact hrest
    · intro p hp
      rcases mem_addToWork.mp hp with hp | ⟨w, -, -, rfl⟩
      · exact hrest p hp
      · exact ⟨ValuePath.startValue_add w huser.1, by simp⟩

/-- A traversal along the users whose callback goes on everywhere is determined by values. -/
lemma traverse_eq_ofValues [Fintype ν] (users : ν → List ν) (start : ν)
    (effect : ValuePath ν → σ → σ) (st : σ) :
    traverse users start (fun p st => (.kContinue, effect p st)) (fun _ st => (true, st)) st =
      doTraverse (.ofValues (fun _ _ => .kContinue) effect fun v => some (users v)) start st := by
  refine loop_congr (P := FromStart start) ?_ (fun c c' hc h => hc.iterate h) _
    (fromStart_init start st)
  intro c hc
  rw [DefUseChain.iterate, DefUseChain.iterate]
  cases hw : c.workingSet with
  | nil => rfl
  | cons user rest =>
    obtain ⟨hstart, hvalue⟩ := hc user (by simp [hw])
    obtain ⟨v, hv⟩ := Option.ne_none_iff_exists'.mp hvalue
    simp [Search.ofValues, applySearchDirection, hstart, hv]

/-- The callbacks collect what the calls of the match callback add, one after the other. -/
lemma ofValues_eq_foldl [Fintype ν] (answer : ν → ν → MatchResult) (effect : ValuePath ν → σ → σ)
    (dir : ν → Option (List ν)) (start : ν) (st : σ) :
    doTraverse (.ofValues answer effect dir) start st =
      (matchCalls (.ofValues answer effect dir) start st).foldl (fun st p => effect p st) st := by
  rw [← doTraverse_logged]
  refine doTraverse_invariant
    (P := fun r : List (ValuePath ν) × σ => r.2 = r.1.foldl (fun st p => effect p st) st)
    (fun p r hr => ?_) (fun _ _ h => h) (fun _ _ h => h) rfl start
  have heffect : ((Search.ofValues answer effect dir).matchFn p r.2).2 = effect p r.2 := by
    simp only [Search.ofValues]
    split <;> rfl
  simp only [Search.logged, heffect, List.foldl_append, List.foldl_cons, List.foldl_nil, ← hr]

/-! ### One call for a value -/

/-- The path ends in the value. -/
def endsIn (v : ν) (p : ValuePath ν) : Bool := decide (p.value = some v)

/-- What holds between two iterations, if only `u` leads to `v`: `v` was matched or is pending, and
not both or twice. While it is pending, `u` was popped and does not wait above it. -/
structure OnceInv (u v : ν) (c : DefUseChain ν (List (ValuePath ν) × σ)) : Prop where
  total : c.callback.1.countP (endsIn v) + c.workingSet.countP (endsIn v) ≤ 1
  above : (∃ p ∈ c.workingSet, endsIn v p) →
    u ∈ c.seenSet ∧ ∀ p ∈ c.workingSet.takeWhile (!endsIn v ·), endsIn u p = false

variable {u v : ν}

lemma countP_pushed (vals : List ν) (p : ValuePath ν) (seen : Finset ν) :
    (((vals.filter (· ∉ seen)).map p.add).reverse).countP (endsIn v) =
      (vals.filter (· ∉ seen)).count v := by
  rw [List.countP_reverse, List.countP_map, List.count]
  congr 1
  funext w
  simp [endsIn, beq_eq_decide]

lemma endsIn_pushed {vals : List ν} {p q : ValuePath ν} {seen : Finset ν}
    (hq : q ∈ ((vals.filter (· ∉ seen)).map p.add).reverse) (hu : u ∈ seen) :
    endsIn u q = false := by
  simp only [List.mem_reverse, List.mem_map, List.mem_filter, decide_eq_true_eq] at hq
  obtain ⟨w, ⟨-, hw⟩, rfl⟩ := hq
  rw [endsIn, ValuePath.value_add, decide_eq_false_iff_not, Option.some.injEq]
  rintro rfl
  exact hw hu

/-- A value is popped that is not the one that counts; nothing new leads to that one. -/
lemma OnceInv.pop {c : DefUseChain ν (List (ValuePath ν) × σ)} (h : OnceInv u v c)
    {user : ValuePath ν} {rest pushed : List (ValuePath ν)} {seen : Finset ν} {st : σ}
    (hw : c.workingSet = user :: rest) (huser : endsIn v user = false) (hseen : c.seenSet ⊆ seen)
    (hnone : ∀ p ∈ pushed, endsIn v p = false)
    (hpushed : u ∈ seen → ∀ p ∈ pushed, endsIn u p = false) :
    OnceInv u v ⟨pushed ++ rest, seen, (c.callback.1 ++ [user], st)⟩ where
  total := by
    have htotal := h.total
    rw [hw, List.countP_cons_of_neg (by simp [huser])] at htotal
    have hzero : pushed.countP (endsIn v) = 0 := by
      rw [List.countP_eq_zero]
      intro p hp
      simp [hnone p hp]
    simpa [List.countP_append, hzero, huser] using htotal
  above := by
    rintro ⟨p, hp, hv⟩
    have hrest : p ∈ rest := by
      rcases List.mem_append.mp hp with hp | hp
      · rw [hnone p hp] at hv
        cases hv
      · exact hp
    obtain ⟨hu, habove⟩ := h.above ⟨p, by simp [hw, hrest], hv⟩
    refine ⟨hseen hu, fun q hq => ?_⟩
    rw [List.takeWhile_append_of_pos (by simpa using hnone), List.mem_append] at hq
    rcases hq with hq | hq
    · exact hpushed (hseen hu) q hq
    · apply habove
      rw [hw, List.takeWhile_cons_of_pos (by simp [huser])]
      exact List.mem_cons_of_mem user hq

/-- The value that counts is popped: from then on it is seen. -/
lemma OnceInv.popSelf {c : DefUseChain ν (List (ValuePath ν) × σ)} (h : OnceInv u v c)
    {user : ValuePath ν} {rest pushed : List (ValuePath ν)} {seen : Finset ν} {st : σ}
    (hw : c.workingSet = user :: rest) (huser : endsIn v user = true)
    (hnone : ∀ p ∈ pushed, endsIn v p = false) :
    OnceInv u v ⟨pushed ++ rest, seen, (c.callback.1 ++ [user], st)⟩ := by
  have htotal := h.total
  rw [hw, List.countP_cons_of_pos huser] at htotal
  have hrest : rest.countP (endsIn v) = 0 := by omega
  have hzero : pushed.countP (endsIn v) = 0 := by
    rw [List.countP_eq_zero]
    intro p hp
    simp [hnone p hp]
  refine ⟨?_, ?_⟩
  · simp only [List.countP_append, List.countP_singleton, huser, if_true, hzero, hrest]
    omega
  · rintro ⟨p, hp, hv⟩
    rw [List.countP_eq_zero] at hrest
    rcases List.mem_append.mp hp with hp | hp
    · rw [hnone p hp] at hv
      cases hv
    · exact absurd hv (hrest p hp)

/-- The value that leads to it is popped, and pushes it once at most. -/
lemma OnceInv.popParent {c : DefUseChain ν (List (ValuePath ν) × σ)} (h : OnceInv u v c)
    {user : ValuePath ν} {rest : List (ValuePath ν)} {vals : List ν} {st : σ}
    (hw : c.workingSet = user :: rest) (hne : endsIn v user = false) (huser : endsIn u user = true)
    (hunmatched : v ∉ c.seenSet → c.callback.1.countP (endsIn v) = 0) (hcount : vals.count v ≤ 1) :
    OnceInv u v ⟨((vals.filter (· ∉ insert u c.seenSet)).map user.add).reverse ++ rest,
      insert u c.seenSet, (c.callback.1 ++ [user], st)⟩ := by
  -- `v` is not pending, as `u` does not wait above it
  have hpending : ∀ p ∈ rest, endsIn v p = false := by
    intro p hp
    by_contra hv
    obtain ⟨-, habove⟩ := h.above ⟨p, by simp [hw, hp], by simpa using hv⟩
    have hmem : user ∈ c.workingSet.takeWhile (!endsIn v ·) := by
      rw [hw, List.takeWhile_cons_of_pos (by simp [hne])]
      exact List.mem_cons_self
    rw [habove user hmem] at huser
    cases huser
  have hrest : rest.countP (endsIn v) = 0 := by
    rw [List.countP_eq_zero]
    intro p hp
    simp [hpending p hp]
  have htotal := h.total
  refine ⟨?_, ?_⟩
  · simp only [List.countP_append, List.countP_singleton, hne, hrest, countP_pushed]
    by_cases hv : v ∈ insert u c.seenSet
    · have hfiltered : v ∉ vals.filter (· ∉ insert u c.seenSet) := by
        intro hmem
        exact of_decide_eq_true (List.mem_filter.mp hmem).2 hv
      rw [List.count_eq_zero_of_not_mem hfiltered]
      simp only [Bool.false_eq_true, if_false]
      omega
    · rw [hunmatched fun hmem => hv (Finset.mem_insert_of_mem hmem)]
      have hle := (List.filter_sublist (p := fun w => decide (w ∉ insert u c.seenSet))
        (l := vals)).count_le v
      simp only [Bool.false_eq_true, if_false]
      omega
  · rintro ⟨p, hp, hv⟩
    refine ⟨Finset.mem_insert_self u _, fun q hq => ?_⟩
    suffices hmem : q ∈ ((vals.filter (· ∉ insert u c.seenSet)).map user.add).reverse from
      endsIn_pushed hmem (Finset.mem_insert_self u _)
    have hpushed : p ∈ ((vals.filter (· ∉ insert u c.seenSet)).map user.add).reverse := by
      rcases List.mem_append.mp hp with hp | hp
      · exact hp
      · rw [hpending p hp] at hv
        cases hv
    rw [List.takeWhile_append, if_neg] at hq
    · exact List.takeWhile_subset _ hq
    · intro hlen
      have hself := (List.takeWhile_prefix (!endsIn v ·)).eq_of_length hlen
      rw [← hself] at hpushed
      have hnot := List.mem_takeWhile_imp hpushed
      rw [hv] at hnot
      cases hnot

variable {answer : ν → ν → MatchResult} {effect : ValuePath ν → σ → σ}
  {dir : ν → Option (List ν)} {start : ν}

/-- One iteration keeps the invariant. -/
lemma OnceInv.iterate {c c' : DefUseChain ν (List (ValuePath ν) × σ)} (h : OnceInv u v c)
    (hinv : ExploreInv (SearchEdge (answer start) dir) start c)
    (hparent : ∀ a vals, ReflTransGen (SearchEdge (answer start) dir) start a →
      dir a = some vals → v ∈ vals → a = u)
    (hcount : ∀ vals, dir u = some vals → vals.count v ≤ 1)
    (hstep : iterate (Search.ofValues answer effect dir).logged c = .next c') :
    OnceInv u v c' := by
  obtain ⟨user, rest, hw, hcase⟩ := iterate_next_cases hstep
  obtain ⟨w, hgen⟩ := hinv.pending user (by simp [hw])
  have hmatch : ((Search.ofValues answer effect dir).logged.matchFn user c.callback) =
      (answer start w, c.callback.1 ++ [user], effect user c.callback.2) := by
    simp [Search.logged, Search.ofValues, hgen.startValue, hgen.value]
  have hends : ∀ x, endsIn x user = decide (w = x) := by
    intro x
    simp [endsIn, hgen.value]
  have hunmatched : v ∉ c.seenSet → c.callback.1.countP (endsIn v) = 0 := by
    intro hv
    rw [List.countP_eq_zero]
    intro p hp hpv
    exact hv ((hinv.seen_iff v).mpr ⟨p, hp, by simpa [endsIn] using hpv⟩)
  -- an iteration that pushes nothing
  have hstop : ∀ st : σ,
      OnceInv u v ⟨[] ++ rest, insert w c.seenSet, (c.callback.1 ++ [user], st)⟩ := by
    intro st
    by_cases hwv : w = v
    · exact h.popSelf hw (by simp [hends, hwv]) (by simp)
    · exact h.pop hw (by simp [hends, hwv]) (Finset.subset_insert w _) (by simp)
        (by simp)
  rcases hcase with ⟨hnone, -⟩ | ⟨x, hx, hcase⟩
  · rw [hgen.value] at hnone
    cases hnone
  obtain rfl : w = x := Option.some.inj (hgen.value.symm.trans hx)
  rw [hmatch] at hcase
  rcases hcase with ⟨st, hst, rfl⟩ | ⟨st, st', hst, ⟨hs, -⟩ | ⟨hs, rfl⟩⟩
  · obtain ⟨-, rfl⟩ := Prod.mk.inj hst
    exact hstop _
  · simp [Search.logged, Search.ofValues] at hs
  · obtain ⟨-, rfl⟩ := Prod.mk.inj hst
    obtain rfl : (c.callback.1 ++ [user], effect user c.callback.2) = st' := congrArg Prod.snd hs
    rw [applySearchDirection]
    cases hd : dir w with
    | none =>
      simp only [Search.logged, Search.ofValues, hx, Option.bind_some, hd]
      exact hstop _
    | some vals =>
      simp only [Search.logged, Search.ofValues, hx, Option.bind_some, hd]
      rw [addToWork_eq]
      have hnone : w ≠ u ∨ w = v →
          ∀ p ∈ ((vals.filter (· ∉ insert w c.seenSet)).map user.add).reverse,
            endsIn v p = false := by
        intro hor p hp
        by_cases hwv : w = v
        · exact endsIn_pushed hp (by simp [hwv])
        · simp only [List.mem_reverse, List.mem_map, List.mem_filter] at hp
          obtain ⟨y, ⟨hy, -⟩, rfl⟩ := hp
          rw [endsIn, ValuePath.value_add, decide_eq_false_iff_not, Option.some.injEq]
          rintro rfl
          exact hor.resolve_right hwv (hparent w vals hgen.reachable hd hy)
      -- the value itself is popped, the one that pushes it, or any other
      by_cases hwv : w = v
      · exact h.popSelf hw (by simp [hends, hwv]) (hnone (.inr hwv))
      · by_cases hwu : w = u
        · subst hwu
          exact h.popParent hw (by simp [hends, hwv]) (by simp [hends]) hunmatched (hcount vals hd)
        · exact h.pop hw (by simp [hends, hwv]) (Finset.subset_insert w _) (hnone (.inl hwu))
            fun hu p hp => endsIn_pushed hp hu

/-- A reachable value other than the start that only one value leads to, by one entry of its search
direction, is matched once. -/
theorem countP_matchCalls_eq_one [Fintype ν] (hcancel : ∀ w, answer start w ≠ .kCancel)
    (hne : v ≠ start) (hreach : ReflTransGen (SearchEdge (answer start) dir) start v)
    (hparent : ∀ a vals, ReflTransGen (SearchEdge (answer start) dir) start a →
      dir a = some vals → v ∈ vals → a = u)
    (hcount : ∀ vals, dir u = some vals → vals.count v ≤ 1) (st : σ) :
    (matchCalls (.ofValues answer effect dir) start st).countP (endsIn v) = 1 := by
  obtain ⟨p, hp, hpv⟩ := ((matchCalls_ofValues answer effect dir start st hcancel).1 v).mpr hreach
  have hpos : 0 < (matchCalls (.ofValues answer effect dir) start st).countP (endsIn v) :=
    List.countP_pos_iff.mpr ⟨p, hp, by simp [endsIn, hpv]⟩
  refine le_antisymm ?_ hpos
  refine loop_induction
    (P := fun c => ExploreInv (SearchEdge (answer start) dir) start c ∧ OnceInv u v c)
    (Q := fun log => log.1.countP (endsIn v) ≤ 1) ?_ ?_ _ ⟨exploreInv_init _ start st, ?_⟩
  · rintro c c' ⟨hinv, honce⟩ hstep
    exact ⟨hinv.iterate hstep, honce.iterate hinv hparent hcount hstep⟩
  · rintro c log ⟨hinv, honce⟩ hdone
    have hnever : ∀ p ∈ c.workingSet,
        ((Search.ofValues answer effect dir).logged.matchFn p c.callback).1 ≠ .kCancel := by
      intro p hp
      obtain ⟨w, hgen⟩ := hinv.pending p hp
      simpa [Search.logged, Search.ofValues, hgen.startValue, hgen.value] using hcancel w
    obtain ⟨-, rfl⟩ := iterate_done_of_forall_ne_kCancel hnever hdone
    exact (Nat.le_add_right _ _).trans honce.total
  · rw [init_eq]
    have hstart : endsIn v (.ofStart start) = false := by simp [endsIn, hne.symm]
    refine ⟨by simp [hstart], ?_⟩
    rintro ⟨q, hq, hqv⟩
    obtain rfl : q = .ofStart start := by simpa using hq
    rw [hstart] at hqv
    cases hqv

end DefUseChain

end Dimeta
