import Dimeta.Dataflow.Once
import Mathlib.Algebra.BigOperators.Group.Finset.Basic
import Mathlib.Algebra.Order.BigOperators.Group.Finset

/-!
# The paths and the work of a search

Whatever the callbacks answer, a path grows by one unseen value at a time from a path that was
matched, so no value is repeated on it. A search whose answers depend on the values only expands
each value once: when a value is popped again, everything that it leads to was popped in between,
since the work list is a stack.
-/

set_option autoImplicit false

namespace Dimeta

open Relation

variable {ν σ : Type*}

/-! ### Paths without repetition -/

/-- The search direction may lead from `v` to `w`, in some state of the callbacks. -/
def Search.Edge (f : Search ν σ) (v w : ν) : Prop :=
  ∃ p st vals, p.value = some v ∧ (f.search p st).1 = some vals ∧ w ∈ vals

/-- A path that a search makes, where `log` was matched before: it is the start, or extends a path
of `log` by a value that is new to it. -/
structure Grows (edge : ν → ν → Prop) (start : ν) (log : List (ValuePath ν)) (p : ValuePath ν) :
    Prop where
  genuine : ∃ v, GenuinePath edge start v p
  nodup : p.pathToValue.Nodup
  parent : p = .ofStart start ∨ ∃ q ∈ log, ∃ w, p = q.add w

/-- Every path was made by the search from the paths before it. -/
def Grown (edge : ν → ν → Prop) (start : ν) (log : List (ValuePath ν)) : Prop :=
  ∀ before p after, log = before ++ p :: after → Grows edge start before p

section Grown

variable {edge : ν → ν → Prop} {start : ν} {log : List (ValuePath ν)} {p : ValuePath ν}

lemma Grows.mono {log' : List (ValuePath ν)} (h : Grows edge start log p) (hlog : log ⊆ log') :
    Grows edge start log' p := by
  refine ⟨h.genuine, h.nodup, ?_⟩
  rcases h.parent with hstart | ⟨q, hq, w, hw⟩
  · exact .inl hstart
  · exact .inr ⟨q, hlog hq, w, hw⟩

lemma Grown.append (h : Grown edge start log) (hp : Grows edge start log p) :
    Grown edge start (log ++ [p]) := by
  intro before q after hsplit
  rcases List.eq_nil_or_concat after with rfl | ⟨after, r, rfl⟩
  · obtain ⟨rfl, hq⟩ := List.append_inj' hsplit rfl
    obtain rfl : p = q := by simpa using hq
    exact hp
  · rw [List.concat_eq_append, ← List.cons_append, ← List.append_assoc] at hsplit
    obtain ⟨hlog, -⟩ := List.append_inj' hsplit rfl
    exact h before q after hlog

/-- A path that a search made is at most as long as there are values. -/
lemma Grows.size_le [Fintype ν] (h : Grows edge start log p) : p.size ≤ Fintype.card ν :=
  h.nodup.length_le_card

end Grown

namespace DefUseChain

variable [DecidableEq ν]

/-- What holds between two iterations: the matched and the pending paths were made by the search,
and all values of a pending path but the last are seen. -/
structure PathsInv (edge : ν → ν → Prop) (start : ν)
    (c : DefUseChain ν (List (ValuePath ν) × σ)) : Prop where
  matched : Grown edge start c.callback.1
  pending : ∀ p ∈ c.workingSet, Grows edge start c.callback.1 p
  seen : ∀ p ∈ c.workingSet, ∀ w ∈ p.pathToValue.dropLast, w ∈ c.seenSet

lemma pathsInv_init (edge : ν → ν → Prop) (start : ν) (st : σ) :
    PathsInv edge start (init start ([], st)) := by
  rw [init_eq]
  refine ⟨fun before p after h => by simp at h, ?_, ?_⟩
  · intro p hp
    obtain rfl : p = .ofStart start := by simpa using hp
    exact ⟨⟨start, .ofStart edge start⟩, List.nodup_singleton start, .inl rfl⟩
  · intro p hp w hw
    obtain rfl : p = .ofStart start := by simpa using hp
    simp [ValuePath.ofStart] at hw

/-- The values of a pending path are seen once it is popped. -/
lemma PathsInv.mem_seen {edge : ν → ν → Prop} {start : ν}
    {c : DefUseChain ν (List (ValuePath ν) × σ)} (h : PathsInv edge start c) {p : ValuePath ν}
    (hp : p ∈ c.workingSet) {v w : ν} (hv : p.value = some v) (hw : w ∈ p.pathToValue) :
    w ∈ insert v c.seenSet := by
  rw [← List.dropLast_append_getLast? v hv, List.mem_append, List.mem_singleton] at hw
  rcases hw with hw | rfl
  · exact Finset.mem_insert_of_mem (h.seen p hp w hw)
  · exact Finset.mem_insert_self w _

/-- A popped path is matched; the paths pushed in its place extend it by unseen values. -/
lemma PathsInv.pop {edge : ν → ν → Prop} {start : ν} {c : DefUseChain ν (List (ValuePath ν) × σ)}
    (h : PathsInv edge start c) {user : ValuePath ν} {rest : List (ValuePath ν)} {v : ν} {st : σ}
    (pushed : List (ValuePath ν)) (hw : c.workingSet = user :: rest) (hv : user.value = some v)
    (hpushed : ∀ p ∈ pushed, ∃ w, edge v w ∧ w ∉ insert v c.seenSet ∧ p = user.add w) :
    PathsInv edge start ⟨pushed ++ rest, insert v c.seenSet, (c.callback.1 ++ [user], st)⟩ := by
  have huser : user ∈ c.workingSet := by simp [hw]
  have hrest : ∀ p ∈ rest, p ∈ c.workingSet := fun p hp => by simp [hw, hp]
  have hgrows := h.pending user huser
  obtain ⟨x, hgen⟩ := hgrows.genuine
  obtain rfl : v = x := Option.some.inj (hv.symm.trans hgen.value)
  refine ⟨h.matched.append hgrows, ?_, ?_⟩
  · intro p hp
    rcases List.mem_append.mp hp with hp | hp
    · obtain ⟨w, hedge, hunseen, rfl⟩ := hpushed p hp
      refine ⟨⟨w, hgen.add hedge⟩, ?_, .inr ⟨user, by simp, w, rfl⟩⟩
      refine hgrows.nodup.append (List.nodup_singleton w) (List.disjoint_singleton.mpr ?_)
      exact fun hmem => hunseen (h.mem_seen huser hv hmem)
    · exact (h.pending p (hrest p hp)).mono (List.subset_append_left _ _)
  · intro p hp w hmem
    rcases List.mem_append.mp hp with hp | hp
    · obtain ⟨x, -, -, rfl⟩ := hpushed p hp
      rw [ValuePath.add, List.dropLast_concat] at hmem
      exact h.mem_seen huser hv hmem
    · exact Finset.mem_insert_of_mem (h.seen p (hrest p hp) w hmem)

lemma PathsInv.iterate {f : Search ν σ} {start : ν} {c c' : DefUseChain ν (List (ValuePath ν) × σ)}
    (h : PathsInv f.Edge start c) (hstep : iterate f.logged c = .next c') :
    PathsInv f.Edge start c' := by
  obtain ⟨user, rest, hw, hcase⟩ := iterate_next_cases hstep
  obtain ⟨x, hgen⟩ := (h.pending user (by simp [hw])).genuine
  rcases hcase with ⟨hnone, -⟩ | ⟨v, hv, hcase⟩
  · rw [hgen.value] at hnone
    cases hnone
  have hstop : ∀ st : σ,
      PathsInv f.Edge start ⟨rest, insert v c.seenSet, (c.callback.1 ++ [user], st)⟩ :=
    fun st => h.pop [] hw hv fun p hp => absurd hp List.not_mem_nil
  rcases hcase with ⟨st, hst, rfl⟩ | ⟨st, st', hst, ⟨hs, rfl⟩ | ⟨hs, rfl⟩⟩
  · obtain ⟨-, rfl⟩ := Prod.mk.inj hst
    exact hstop _
  · obtain ⟨-, rfl⟩ := Prod.mk.inj hst
    obtain ⟨-, rfl⟩ := Prod.mk.inj hs
    exact hstop _
  · obtain ⟨-, rfl⟩ := Prod.mk.inj hst
    obtain ⟨-, rfl⟩ := Prod.mk.inj hs
    simp only [applySearchDirection, Search.logged]
    split
    · next st hsearch =>
      obtain ⟨-, rfl⟩ := Prod.mk.inj hsearch
      exact hstop _
    · next vals st hsearch =>
      obtain ⟨hvals, rfl⟩ := Prod.mk.inj hsearch
      rw [addToWork_eq]
      refine h.pop _ hw hv fun p hp => ?_
      simp only [List.mem_reverse, List.mem_map, List.mem_filter, decide_eq_true_eq] at hp
      obtain ⟨w, ⟨hwv, hunseen⟩, rfl⟩ := hp
      exact ⟨w, ⟨user, _, vals, hv, hvals, hwv⟩, hunseen, rfl⟩

/-- A logged iteration that ends the loop matches at most one more path, the popped one. -/
lemma iterate_logged_done {f : Search ν σ} {c : DefUseChain ν (List (ValuePath ν) × σ)}
    {log : List (ValuePath ν) × σ} (h : iterate f.logged c = .done log) :
    (c.workingSet = [] ∧ log = c.callback) ∨
      ∃ user rest, c.workingSet = user :: rest ∧ log.1 = c.callback.1 ++ [user] ∧
        (f.matchFn user c.callback.2).1 = .kCancel := by
  unfold DefUseChain.iterate at h
  split at h
  · next hw => exact .inl ⟨hw, by cases h; rfl⟩
  · next user rest hw =>
    split at h
    · cases h
    · split at h
      · cases h
      · next st hm =>
        cases h
        obtain ⟨hcancel, rfl⟩ := Prod.mk.inj hm
        exact .inr ⟨user, rest, hw, rfl, hcancel⟩
      · split at h <;> cases h

lemma grown_matchCalls [Fintype ν] (f : Search ν σ) (start : ν) (st : σ) :
    Grown f.Edge start (matchCalls f start st) := by
  refine loop_induction (P := PathsInv f.Edge start) (Q := fun log => Grown f.Edge start log.1)
    (fun c c' h hstep => h.iterate hstep) ?_ _ (pathsInv_init _ start st)
  intro c log h hdone
  rcases iterate_logged_done hdone with ⟨-, rfl⟩ | ⟨user, rest, hw, hlog, -⟩
  · exact h.matched
  · rw [hlog]
    exact h.matched.append (h.pending user (by simp [hw]))

/-- For any callbacks: the paths handed to the match callback lead from the start along the search
direction and repeat no value, and each but the first extends one that was matched before it. -/
theorem matched_paths_grown [Fintype ν] (f : Search ν σ) (start : ν) (st : σ) :
    Grown f.Edge start (matchCalls f start st) ∧
      ∀ p ∈ matchCalls f start st, p.size ≤ Fintype.card ν := by
  refine ⟨grown_matchCalls f start st, fun p hp => ?_⟩
  obtain ⟨before, after, hsplit⟩ := List.append_of_mem hp
  exact (grown_matchCalls f start st before p after hsplit).size_le

/-! ### The work of a search -/

omit [DecidableEq ν] in
/-- An entry of a list put on top of another is in the one or splits the other. -/
lemma mem_or_split_of_append_eq {pushed rest above below : List (ValuePath ν)} {p : ValuePath ν}
    (h : pushed ++ rest = above ++ p :: below) :
    p ∈ pushed ∨ ∃ above', above = pushed ++ above' ∧ rest = above' ++ p :: below := by
  rcases List.append_eq_append_iff.mp h with ⟨above', habove, hrest⟩ | ⟨pushed', hpushed, hbelow⟩
  · exact .inr ⟨above', habove, hrest⟩
  · cases pushed' with
    | nil => exact .inr ⟨[], by simpa using hpushed.symm, hbelow.symm⟩
    | cons q pushed' =>
      obtain rfl : p = q := (List.cons.inj hbelow).1
      exact .inl (by simp [hpushed])

/-- All that a seen value leads to is seen, or waits above every entry of the value. -/
def Covered (edge : ν → ν → Prop) (c : DefUseChain ν σ) : Prop :=
  ∀ above p below v, c.workingSet = above ++ p :: below → p.value = some v → v ∈ c.seenSet →
    ∀ w, edge v w → w ∈ c.seenSet ∨ ∃ q ∈ above, q.value = some w

/-- A popped value is seen, and all that it leads to is seen or pushed in its place. -/
lemma Covered.pop {edge : ν → ν → Prop} {c : DefUseChain ν σ} (h : Covered edge c)
    {user : ValuePath ν} {rest : List (ValuePath ν)} {v : ν} (pushed : List (ValuePath ν))
    (hw : c.workingSet = user :: rest) (hv : user.value = some v)
    (hunseen : ∀ p ∈ pushed, ∀ w, p.value = some w → w ∉ insert v c.seenSet)
    (hedge : ∀ w, edge v w → w ∈ insert v c.seenSet ∨ ∃ q ∈ pushed, q.value = some w) (st : σ) :
    Covered edge ⟨pushed ++ rest, insert v c.seenSet, st⟩ := by
  intro above p below u hsplit hu hseen w huw
  rcases mem_or_split_of_append_eq hsplit with hmem | ⟨above', rfl, hrest⟩
  · exact absurd hseen (hunseen p hmem u hu)
  by_cases huv : u = v
  · subst huv
    refine (hedge w huw).imp_right ?_
    rintro ⟨q, hq, hqw⟩
    exact ⟨q, List.mem_append_left above' hq, hqw⟩
  · have hold : c.workingSet = (user :: above') ++ p :: below := by rw [hw, hrest]; rfl
    rcases h _ p below u hold hu (Finset.mem_of_mem_insert_of_ne hseen huv) w huw with
      hmem | ⟨q, hq, hqw⟩
    · exact .inl (Finset.mem_insert_of_mem hmem)
    · rcases List.mem_cons.mp hq with rfl | hq
      · obtain rfl : v = w := Option.some.inj (hv.symm.trans hqw)
        exact .inl (Finset.mem_insert_self v _)
      · exact .inr ⟨q, List.mem_append_right pushed hq, hqw⟩

/-- The number of entries of a search direction. -/
def outDegree (dir : ν → Option (List ν)) (v : ν) : ℕ := ((dir v).getD []).length

/-- What holds between two iterations of a value-determined search: the matched and the pending
paths are paid for by the values seen, each once. -/
structure WorkInv (answer : ν → MatchResult) (dir : ν → Option (List ν)) (start : ν)
    (c : DefUseChain ν (List (ValuePath ν) × σ)) : Prop where
  fromStart : FromStart start c
  covered : Covered (SearchEdge answer dir) c
  paid : c.callback.1.length + c.workingSet.length ≤ 1 + ∑ v ∈ c.seenSet, outDegree dir v

lemma workInv_init (answer : ν → MatchResult) (dir : ν → Option (List ν)) (start : ν) (st : σ) :
    WorkInv answer dir start (init start ([], st)) := by
  refine ⟨fromStart_init start _, ?_, ?_⟩
  · intro above p below v _ _ hseen
    simp at hseen
  · simp

/-- The popped path is matched; what is pushed are new values that the popped one leads to. -/
lemma WorkInv.paid_pop {answer : ν → MatchResult} {dir : ν → Option (List ν)} {start : ν}
    {c : DefUseChain ν (List (ValuePath ν) × σ)} (h : WorkInv answer dir start c)
    {user : ValuePath ν} {rest : List (ValuePath ν)} {v : ν} (pushed : List (ValuePath ν))
    (hw : c.workingSet = user :: rest) (hv : user.value = some v)
    (hunseen : ∀ p ∈ pushed, ∃ w, SearchEdge answer dir v w ∧ w ∉ insert v c.seenSet)
    (hlength : pushed.length ≤ outDegree dir v) :
    (c.callback.1 ++ [user]).length + (pushed ++ rest).length ≤
      1 + ∑ v ∈ insert v c.seenSet, outDegree dir v := by
  have hpaid := h.paid
  rw [hw] at hpaid
  simp only [List.length_append, List.length_cons, List.length_nil] at hpaid ⊢
  by_cases hseen : v ∈ c.seenSet
  · -- popped again: all that it leads to is seen, so nothing is pushed
    have hnone : pushed = [] := by
      refine List.eq_nil_iff_forall_not_mem.mpr fun p hp => ?_
      obtain ⟨w, hvw, hnot⟩ := hunseen p hp
      rcases h.covered [] user rest v (by simp [hw]) hv hseen w hvw with hmem | ⟨q, hq, -⟩
      · exact hnot (Finset.mem_insert_of_mem hmem)
      · exact absurd hq List.not_mem_nil
    rw [Finset.insert_eq_of_mem hseen, hnone, List.length_nil]
    omega
  · rw [Finset.sum_insert hseen]
    omega

variable {answer : ν → ν → MatchResult} {effect : ValuePath ν → σ → σ} {dir : ν → Option (List ν)}
  {start : ν}

lemma WorkInv.iterate {c c' : DefUseChain ν (List (ValuePath ν) × σ)}
    (h : WorkInv (answer start) dir start c)
    (hstep : iterate (Search.ofValues answer effect dir).logged c = .next c') :
    WorkInv (answer start) dir start c' := by
  have hfrom := h.fromStart.iterate hstep
  obtain ⟨user, rest, hw, hcase⟩ := iterate_next_cases hstep
  obtain ⟨hstart, hvalue⟩ := h.fromStart user (by simp [hw])
  rcases hcase with ⟨hnone, -⟩ | ⟨v, hv, hcase⟩
  · exact absurd hnone hvalue
  have hmatch : (Search.ofValues answer effect dir).logged.matchFn user c.callback =
      (answer start v, c.callback.1 ++ [user], effect user c.callback.2) := by
    simp [Search.logged, Search.ofValues, hstart, hv]
  rw [hmatch] at hcase
  -- nothing is pushed where no edge leaves the popped value
  have hstop : (∀ w, ¬ SearchEdge (answer start) dir v w) → ∀ st : σ,
      Covered (SearchEdge (answer start) dir)
          ⟨rest, insert v c.seenSet, (c.callback.1 ++ [user], st)⟩ ∧
        (c.callback.1 ++ [user]).length + rest.length ≤
          1 + ∑ v ∈ insert v c.seenSet, outDegree dir v := by
    intro hnone st
    exact ⟨h.covered.pop [] hw hv (by simp) (fun w hvw => absurd hvw (hnone w)) _,
      h.paid_pop [] hw hv (by simp) (Nat.zero_le _)⟩
  rcases hcase with ⟨st, hst, rfl⟩ | ⟨st, st', hst, ⟨hs, -⟩ | ⟨hs, rfl⟩⟩
  · obtain ⟨hskip, rfl⟩ := Prod.mk.inj hst
    have hnone : ∀ w, ¬ SearchEdge (answer start) dir v w := by
      rintro w ⟨hcont, -⟩
      rw [hskip] at hcont
      cases hcont
    exact ⟨hfrom, (hstop hnone _).1, (hstop hnone (effect user c.callback.2)).2⟩
  · simp [Search.logged, Search.ofValues] at hs
  · obtain ⟨hcont, rfl⟩ := Prod.mk.inj hst
    obtain rfl : (c.callback.1 ++ [user], effect user c.callback.2) = st' := congrArg Prod.snd hs
    revert hfrom
    simp only [applySearchDirection, Search.logged, Search.ofValues, hv, Option.bind_some]
    cases hd : dir v with
    | none =>
      have hnone : ∀ w, ¬ SearchEdge (answer start) dir v w := by
        rintro w ⟨-, vals, hvals, -⟩
        rw [hd] at hvals
        cases hvals
      exact fun hfrom => ⟨hfrom, (hstop hnone _).1, (hstop hnone (effect user c.callback.2)).2⟩
    | some vals =>
      have hmem : ∀ p ∈ ((vals.filter (· ∉ insert v c.seenSet)).map user.add).reverse,
          ∃ w, p = user.add w ∧ w ∈ vals ∧ w ∉ insert v c.seenSet := by
        intro p hp
        simp only [List.mem_reverse, List.mem_map, List.mem_filter, decide_eq_true_eq] at hp
        obtain ⟨w, ⟨hwv, hunseen⟩, rfl⟩ := hp
        exact ⟨w, rfl, hwv, hunseen⟩
      simp only [addToWork_eq]
      intro hfrom
      refine ⟨hfrom, h.covered.pop _ hw hv ?_ ?_ _, h.paid_pop _ hw hv ?_ ?_⟩
      · intro p hp w hpw
        obtain ⟨x, rfl, -, hunseen⟩ := hmem p hp
        obtain rfl : x = w := by simpa using hpw
        exact hunseen
      · rintro w ⟨-, vals', hvals', hwv⟩
        obtain rfl : vals = vals' := Option.some.inj (hd.symm.trans hvals')
        by_cases hseen : w ∈ insert v c.seenSet
        · exact .inl hseen
        · refine .inr ⟨user.add w, ?_, ValuePath.value_add user w⟩
          rw [List.mem_reverse, List.mem_map]
          exact ⟨w, List.mem_filter.mpr ⟨hwv, by simpa using hseen⟩, rfl⟩
      · intro p hp
        obtain ⟨w, -, hwv, hunseen⟩ := hmem p hp
        exact ⟨w, ⟨hcont, vals, hd, hwv⟩, hunseen⟩
      · rw [List.length_reverse, List.length_map, outDegree, hd]
        exact List.length_filter_le _ vals

/-- A value-determined search expands each value once: it matches at most one path for the start
and one for every entry of the search direction. -/
theorem length_matchCalls_le [Fintype ν] (answer : ν → ν → MatchResult)
    (effect : ValuePath ν → σ → σ) (dir : ν → Option (List ν)) (start : ν) (st : σ) :
    (matchCalls (.ofValues answer effect dir) start st).length ≤ 1 + ∑ v, outDegree dir v := by
  refine loop_induction (P := WorkInv (answer start) dir start)
    (Q := fun log => log.1.length ≤ 1 + ∑ v, outDegree dir v)
    (fun c c' h hstep => h.iterate hstep) ?_ _ (workInv_init _ dir start st)
  intro c log h hdone
  have hsum : ∑ v ∈ c.seenSet, outDegree dir v ≤ ∑ v, outDegree dir v :=
    Finset.sum_le_sum_of_subset (Finset.subset_univ _)
  have hpaid := h.paid
  rcases iterate_logged_done hdone with ⟨-, rfl⟩ | ⟨user, rest, hw, hlog, -⟩
  · omega
  · rw [hw, List.length_cons] at hpaid
    rw [hlog, List.length_append, List.length_singleton]
    omega

end DefUseChain

/-! ### Searches with one way -/

/-- From the head of the list there is one way only, along the list, and it stops at the last
value. -/
inductive OnlyWay (edge : ν → ν → Prop) (stop : ν → Prop) : List ν → Prop
  | last {v : ν} (hstop : stop v) (hedge : ∀ w, ¬ edge v w) : OnlyWay edge stop [v]
  | cons {v w : ν} {vs : List ν} (hgo : ¬ stop v) (hedge : ∀ x, edge v x ↔ x = w)
      (hvs : OnlyWay edge stop (w :: vs)) : OnlyWay edge stop (v :: w :: vs)

namespace OnlyWay

variable {edge : ν → ν → Prop} {stop : ν → Prop} {v : ν} {vs : List ν}

lemma reaches (h : OnlyWay edge stop (v :: vs)) : ∃ w, stop w ∧ ReflTransGen edge v w := by
  induction vs generalizing v with
  | nil =>
    cases h with
    | last hstop => exact ⟨v, hstop, .refl⟩
  | cons w vs ih =>
    cases h with
    | cons _ hedge hvs =>
      obtain ⟨x, hx, hreach⟩ := ih hvs
      exact ⟨x, hx, hreach.head ((hedge w).mpr rfl)⟩

/-- A path that ends where it stops is the whole list. -/
lemma eq_of_chain (h : OnlyWay edge stop (v :: vs)) {ws : List ν} (hchain : (v :: ws).IsChain edge)
    {w : ν} (hlast : (v :: ws).getLast? = some w) (hstop : stop w) : ws = vs := by
  induction vs generalizing v ws with
  | nil =>
    cases h with
    | last _ hedge =>
      cases hchain with
      | singleton => rfl
      | cons_cons hstep _ => exact absurd hstep (hedge _)
  | cons x vs ih =>
    cases h with
    | cons hgo hedge hvs =>
      cases hchain with
      | singleton =>
        obtain rfl : v = w := by simpa using hlast
        exact absurd hstop hgo
      | cons_cons hstep hrest =>
        obtain rfl := (hedge _).mp hstep
        rw [ih hvs hrest (by simpa using hlast)]

/-- The list is the only genuine path to where it stops. -/
lemma eq_of_genuinePath (h : OnlyWay edge stop (v :: vs)) {p : ValuePath ν} {w : ν}
    (hp : GenuinePath edge v w p) (hstop : stop w) : p = ⟨v :: vs⟩ := by
  obtain ⟨hstart, hvalue, hchain⟩ := hp
  obtain ⟨l⟩ := p
  simp only [ValuePath.startValue, ValuePath.value] at hstart hvalue hchain
  cases l with
  | nil => cases hstart
  | cons a l =>
    obtain rfl : a = v := by simpa using hstart
    rw [h.eq_of_chain hchain hvalue hstop]

end OnlyWay

end Dimeta
