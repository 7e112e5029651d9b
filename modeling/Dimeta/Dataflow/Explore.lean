import Dimeta.Dataflow.DefUse
import Mathlib.Logic.Relation
import Mathlib.Data.List.Chain

/-!
# What a def-use search explores

When the answer of the match callback depends on the start and the current value only, the search
is a graph search: it matches exactly the values reachable through values answered `kContinue`,
and every path it hands to the callback is a path of that graph.
-/

set_option autoImplicit false

namespace Dimeta

open Relation

variable {ν σ : Type*}

/-! ### Logging the calls of the match callback -/

/-- The same search, with every path handed to the match callback recorded in order. -/
def Search.logged (f : Search ν σ) : Search ν (List (ValuePath ν) × σ) where
  matchFn p st := ((f.matchFn p st.2).1, st.1 ++ [p], (f.matchFn p st.2).2)
  shouldSearch p st := ((f.shouldSearch p st.2).1, st.1, (f.shouldSearch p st.2).2)
  search p st := ((f.search p st.2).1, st.1, (f.search p st.2).2)

namespace DefUseChain

variable [DecidableEq ν]

/-- The paths handed to the match callback, in order. -/
def matchCalls [Fintype ν] (f : Search ν σ) (start : ν) (st : σ) : List (ValuePath ν) :=
  (doTraverse f.logged start ([], st)).1

omit [DecidableEq ν] in
/-- Without the log the callbacks do what they do without logging. -/
lemma mapsState_logged (f : Search ν σ) : MapsState Prod.snd f.logged f where
  matchFn _ _ := rfl
  shouldSearch _ _ := rfl
  search _ _ := rfl

/-- The logged search returns what the search returns. -/
theorem doTraverse_logged [Fintype ν] (f : Search ν σ) (start : ν) (st : σ) :
    (doTraverse f.logged start ([], st)).2 = doTraverse f start st :=
  (doTraverse_map (mapsState_logged f) start ([], st)).symm

end DefUseChain

/-! ### Value-determined searches -/

/-- A search whose match callback answers by the start and the current value, which searches
everywhere (as all callers do), and whose direction depends on the current value. The effect
of the match callback on its own state is arbitrary. -/
def Search.ofValues (answer : ν → ν → MatchResult) (effect : ValuePath ν → σ → σ)
    (dir : ν → Option (List ν)) : Search ν σ where
  matchFn p st :=
    match p.startValue, p.value with
    | some s, some v => (answer s v, effect p st)
    | _, _           => (.kSkip, effect p st)
  shouldSearch _ st := (true, st)
  search p st := (p.value.bind dir, st)

/-- A search edge that the search may follow: its source was answered `kContinue`. -/
def SearchEdge (answer : ν → MatchResult) (dir : ν → Option (List ν)) (a b : ν) : Prop :=
  answer a = .kContinue ∧ ∃ vals, dir a = some vals ∧ b ∈ vals

/-- A path of search edges from `start` to `v`. -/
structure GenuinePath (edge : ν → ν → Prop) (start v : ν) (p : ValuePath ν) : Prop where
  startValue : p.startValue = some start
  value : p.value = some v
  chain : p.pathToValue.IsChain edge

lemma GenuinePath.ofStart (edge : ν → ν → Prop) (start : ν) :
    GenuinePath edge start start (.ofStart start) :=
  ⟨rfl, rfl, List.isChain_singleton start⟩

lemma GenuinePath.add {edge : ν → ν → Prop} {start v w : ν} {p : ValuePath ν}
    (h : GenuinePath edge start v p) (he : edge v w) : GenuinePath edge start w (p.add w) := by
  refine ⟨ValuePath.startValue_add w h.startValue, ValuePath.value_add p w, ?_⟩
  refine List.IsChain.append h.chain (List.isChain_singleton w) ?_
  intro x hx y hy
  obtain rfl : v = x := Option.some.inj (h.value.symm.trans hx)
  obtain rfl : w = y := by simpa using hy
  exact he

/-- The end of a genuine path is reachable. -/
lemma GenuinePath.reachable {edge : ν → ν → Prop} {start v : ν} {p : ValuePath ν}
    (h : GenuinePath edge start v p) : ReflTransGen edge start v := by
  obtain ⟨hs, hv, hc⟩ := h
  obtain ⟨l⟩ := p
  simp only [ValuePath.startValue, ValuePath.value] at hs hv hc
  cases l with
  | nil => cases hs
  | cons a l =>
    obtain rfl : a = start := by simpa using hs
    have hne : a :: l ≠ [] := List.cons_ne_nil a l
    rw [List.getLast?_eq_some_getLast hne, Option.some.injEq] at hv
    exact hv ▸ List.relationReflTransGen_of_exists_isChain_cons l hc rfl

namespace DefUseChain

variable [DecidableEq ν]

lemma mem_addToWork {vals : List ν} {p q : ValuePath ν} {c : DefUseChain ν σ} :
    q ∈ (c.addToWork vals p).workingSet ↔
      q ∈ c.workingSet ∨ ∃ v ∈ vals, v ∉ c.seenSet ∧ q = p.add v := by
  induction vals generalizing c with
  | nil => simp [addToWork]
  | cons v vals ih =>
    have hstep : c.addToWork (v :: vals) p = (c.addToWorkS (p.add v)).addToWork vals p := rfl
    rw [hstep, ih, addToWorkS_seenSet]
    by_cases hv : v ∈ c.seenSet
    · simp [addToWorkS, hv]
    · simp only [addToWorkS, ValuePath.value_add, if_neg hv, List.mem_cons]
      constructor
      · rintro ((rfl | h) | ⟨w, hw, hns, rfl⟩)
        · exact .inr ⟨v, .inl rfl, hv, rfl⟩
        · exact .inl h
        · exact .inr ⟨w, .inr hw, hns, rfl⟩
      · rintro (h | ⟨w, rfl | hw, hns, rfl⟩)
        · exact .inl (.inr h)
        · exact .inl (.inl rfl)
        · exact .inr ⟨w, hw, hns, rfl⟩

/-- What holds between two iterations of a value-determined search: the pending and the matched
paths are genuine, exactly the matched values are seen, the start is seen or pending, and every
value that an edge leads to from a seen one is seen or pending. -/
structure ExploreInv (edge : ν → ν → Prop) (start : ν)
    (c : DefUseChain ν (List (ValuePath ν) × σ)) : Prop where
  pending : ∀ p ∈ c.workingSet, ∃ v, GenuinePath edge start v p
  matched : ∀ p ∈ c.callback.1, ∃ v, GenuinePath edge start v p
  seen_iff : ∀ v, v ∈ c.seenSet ↔ ∃ p ∈ c.callback.1, p.value = some v
  start_mem : start ∈ c.seenSet ∨ ∃ p ∈ c.workingSet, p.value = some start
  closed : ∀ a ∈ c.seenSet, ∀ b, edge a b → b ∈ c.seenSet ∨ ∃ p ∈ c.workingSet, p.value = some b

variable {answer : ν → ν → MatchResult} {effect : ValuePath ν → σ → σ}
  {dir : ν → Option (List ν)} {start : ν}

lemma exploreInv_init (edge : ν → ν → Prop) (start : ν) (st : σ) :
    ExploreInv edge start (init start ([], st)) := by
  simp only [init_eq]
  refine ⟨?_, by simp, by simp, .inr ⟨.ofStart start, by simp⟩, by simp⟩
  intro p hp
  obtain rfl : p = .ofStart start := by simpa using hp
  exact ⟨start, .ofStart edge start⟩

/-- The popped value becomes seen; what it leads to must be in the new work list. -/
lemma ExploreInv.pop {edge : ν → ν → Prop} {c c' : DefUseChain ν (List (ValuePath ν) × σ)}
    {user : ValuePath ν} {rest : List (ValuePath ν)} {v : ν}
    (hinv : ExploreInv edge start c) (hw : c.workingSet = user :: rest)
    (hv : user.value = some v) (hseen : c'.seenSet = insert v c.seenSet)
    (hlog : c'.callback.1 = c.callback.1 ++ [user]) (hkeep : ∀ p ∈ rest, p ∈ c'.workingSet)
    (hnew : ∀ p ∈ c'.workingSet, p ∉ rest → ∃ w, GenuinePath edge start w p)
    (hedge : ∀ b, edge v b → b ∈ insert v c.seenSet ∨ ∃ p ∈ c'.workingSet, p.value = some b) :
    ExploreInv edge start c' := by
  have huser : user ∈ c.workingSet := by simp [hw]
  -- an entry of the old work list is seen now or still pending
  have hmove : ∀ b, (b ∈ c.seenSet ∨ ∃ p ∈ c.workingSet, p.value = some b) →
      b ∈ c'.seenSet ∨ ∃ p ∈ c'.workingSet, p.value = some b := by
    rintro b (hb | ⟨p, hp, hpb⟩)
    · exact .inl (hseen ▸ Finset.mem_insert_of_mem hb)
    · rw [hw, List.mem_cons] at hp
      rcases hp with rfl | hp
      · obtain rfl : v = b := Option.some.inj (hv.symm.trans hpb)
        exact .inl (hseen ▸ Finset.mem_insert_self v _)
      · exact .inr ⟨p, hkeep p hp, hpb⟩
  refine ⟨?_, ?_, ?_, hmove start hinv.start_mem, ?_⟩
  · intro p hp
    by_cases hr : p ∈ rest
    · exact hinv.pending p (by simp [hw, hr])
    · exact hnew p hp hr
  · intro p hp
    rw [hlog, List.mem_append, List.mem_singleton] at hp
    rcases hp with hp | rfl
    · exact hinv.matched p hp
    · exact hinv.pending p huser
  · intro w
    rw [hseen, hlog, Finset.mem_insert, hinv.seen_iff]
    simp only [List.mem_append, List.mem_singleton]
    constructor
    · rintro (rfl | ⟨p, hp, hpw⟩)
      · exact ⟨user, .inr rfl, hv⟩
      · exact ⟨p, .inl hp, hpw⟩
    · rintro ⟨p, hp | rfl, hpw⟩
      · exact .inr ⟨p, hp, hpw⟩
      · exact .inl (Option.some.inj (hpw.symm.trans hv))
  · intro a ha b hab
    rw [hseen, Finset.mem_insert] at ha
    rcases ha with rfl | ha
    · rcases hedge b hab with hb | hb
      · exact .inl (hseen ▸ hb)
      · exact .inr hb
    · exact hmove b (hinv.closed a ha b hab)

/-- One iteration keeps the invariant. -/
lemma ExploreInv.iterate {c c' : DefUseChain ν (List (ValuePath ν) × σ)}
    (hinv : ExploreInv (SearchEdge (answer start) dir) start c)
    (h : iterate (Search.ofValues answer effect dir).logged c = .next c') :
    ExploreInv (SearchEdge (answer start) dir) start c' := by
  obtain ⟨user, rest, hw, hcase⟩ := iterate_next_cases h
  obtain ⟨v, hgen⟩ := hinv.pending user (by simp [hw])
  have hmatch : ((Search.ofValues answer effect dir).logged.matchFn user c.callback) =
      (answer start v, c.callback.1 ++ [user], effect user c.callback.2) := by
    simp [Search.logged, Search.ofValues, hgen.startValue, hgen.value]
  rcases hcase with ⟨hnone, -⟩ | ⟨w, hv, hcase⟩
  · rw [hgen.value] at hnone
    cases hnone
  obtain rfl : v = w := Option.some.inj (hgen.value.symm.trans hv)
  rw [hmatch] at hcase
  rcases hcase with ⟨st, hst, rfl⟩ | ⟨st, st', hst, ⟨hs, -⟩ | ⟨hs, rfl⟩⟩
  · -- answered `kSkip`: no edge leaves the popped value
    obtain ⟨hskip, rfl⟩ := Prod.mk.inj hst
    refine hinv.pop hw hv rfl rfl (fun p hp => hp) (fun p hp hn => absurd hp hn) ?_
    rintro b ⟨hcont, -⟩
    rw [hskip] at hcont
    cases hcont
  · simp [Search.logged, Search.ofValues] at hs
  · -- answered `kContinue`: its successors are pushed unless they are seen
    obtain ⟨hcont, rfl⟩ := Prod.mk.inj hst
    obtain rfl : (c.callback.1 ++ [user], effect user c.callback.2) = st' :=
      congrArg Prod.snd hs
    unfold applySearchDirection
    cases hd : dir v with
    | none =>
      simp only [Search.logged, Search.ofValues, hv, Option.bind_some, hd]
      refine hinv.pop hw hv rfl rfl (fun p hp => hp) (fun p hp hn => absurd hp hn) ?_
      rintro b ⟨-, vals, hvals, -⟩
      rw [hd] at hvals
      cases hvals
    | some vals =>
      simp only [Search.logged, Search.ofValues, hv, Option.bind_some, hd]
      refine hinv.pop hw hv (addToWork_seenSet _ _ _) ?_ ?_ ?_ ?_
      · exact congrArg Prod.fst (addToWork_callback _ _ _)
      · exact fun p hp => mem_addToWork.mpr (.inl hp)
      · intro p hp hn
        rcases mem_addToWork.mp hp with hp | ⟨w, hwv, -, rfl⟩
        · exact absurd hp hn
        · exact ⟨w, hgen.add ⟨hcont, vals, hd, hwv⟩⟩
      · rintro b ⟨-, vals', hvals', hb⟩
        obtain rfl : vals = vals' := Option.some.inj (hd.symm.trans hvals')
        by_cases hseen : b ∈ insert v c.seenSet
        · exact .inl hseen
        · exact .inr ⟨user.add b, mem_addToWork.mpr (.inr ⟨b, hb, hseen, rfl⟩), by simp⟩

/-- A search that is never cancelled ends with an empty work list. -/
lemma iterate_done_of_forall_ne_kCancel {f : Search ν σ} {c : DefUseChain ν σ} {st : σ}
    (hcancel : ∀ p ∈ c.workingSet, (f.matchFn p c.callback).1 ≠ .kCancel)
    (h : DefUseChain.iterate f c = .done st) : c.workingSet = [] ∧ c.callback = st := by
  unfold DefUseChain.iterate at h
  split at h
  · next hw => exact ⟨hw, by cases h; rfl⟩
  · next user rest hw =>
    split at h
    · cases h
    · split at h
      · cases h
      · next hm => exact absurd (congrArg Prod.fst hm) (hcancel user (by simp [hw]))
      · split at h <;> cases h

/-- The calls of the match callback in a value-determined search: exactly the reachable values,
along genuine paths. -/
theorem matchCalls_ofValues [Fintype ν] (answer : ν → ν → MatchResult)
    (effect : ValuePath ν → σ → σ) (dir : ν → Option (List ν)) (start : ν) (st : σ)
    (hcancel : ∀ v, answer start v ≠ .kCancel) :
    (∀ v, (∃ p ∈ matchCalls (.ofValues answer effect dir) start st, p.value = some v) ↔
        ReflTransGen (SearchEdge (answer start) dir) start v) ∧
      ∀ p ∈ matchCalls (.ofValues answer effect dir) start st,
        ∃ v, GenuinePath (SearchEdge (answer start) dir) start v p := by
  refine loop_induction (P := ExploreInv (SearchEdge (answer start) dir) start)
    (Q := fun log => (∀ v, (∃ p ∈ log.1, p.value = some v) ↔
        ReflTransGen (SearchEdge (answer start) dir) start v) ∧
      ∀ p ∈ log.1, ∃ v, GenuinePath (SearchEdge (answer start) dir) start v p)
    (fun c c' hinv h => hinv.iterate h) ?_ _ (exploreInv_init _ start st)
  intro c log hinv hdone
  have hnever : ∀ p ∈ c.workingSet,
      ((Search.ofValues answer effect dir).logged.matchFn p c.callback).1 ≠ .kCancel := by
    intro p hp
    obtain ⟨v, hgen⟩ := hinv.pending p hp
    simpa [Search.logged, Search.ofValues, hgen.startValue, hgen.value] using hcancel v
  obtain ⟨hempty, rfl⟩ := iterate_done_of_forall_ne_kCancel hnever hdone
  have hstart : start ∈ c.seenSet := by simpa [hempty] using hinv.start_mem
  have hclosed : ∀ a ∈ c.seenSet, ∀ b, SearchEdge (answer start) dir a b → b ∈ c.seenSet := by
    intro a ha b hab
    simpa [hempty] using hinv.closed a ha b hab
  refine ⟨fun v => ⟨?_, fun hreach => ?_⟩, hinv.matched⟩
  · rintro ⟨p, hp, hpv⟩
    obtain ⟨w, hgen⟩ := hinv.matched p hp
    obtain rfl : w = v := Option.some.inj (hgen.value.symm.trans hpv)
    exact hgen.reachable
  · rw [← hinv.seen_iff]
    induction hreach with
    | refl => exact hstart
    | tail _ hab ih => exact hclosed _ ih _ hab

/-- `traverse_custom` with a value-determined match callback: the matched values are exactly the
reachable ones, along genuine paths, and recording the calls does not change what it returns. -/
theorem traverseCustom_matches_reachable [Fintype ν] (answer : ν → ν → MatchResult)
    (effect : ValuePath ν → σ → σ) (dir : ν → Option (List ν)) (start : ν) (st : σ)
    (hcancel : ∀ v, answer start v ≠ .kCancel) :
    let f := Search.ofValues answer effect dir
    let g := f.logged
    let result := traverseCustom start g.matchFn g.shouldSearch g.search ([], st)
    (∀ v, (∃ p ∈ result.1, p.value = some v) ↔
        ReflTransGen (SearchEdge (answer start) dir) start v) ∧
      (∀ p ∈ result.1, ∃ v, GenuinePath (SearchEdge (answer start) dir) start v p) ∧
      result.2 = traverseCustom start f.matchFn f.shouldSearch f.search st := by
  intro f g result
  have hcalls := matchCalls_ofValues answer effect dir start st hcancel
  exact ⟨hcalls.1, hcalls.2, doTraverse_logged f start st⟩

/-- Three values with the cycle `none → some false → none`; the search stops at `some true`. -/
theorem traverseCustom_matches_reachable_cycle :
    let f : Search (Option Bool) Unit :=
      .ofValues (fun _ v => if v = some true then .kSkip else .kContinue) (fun _ st => st)
        (fun v => some (if v = none then [some false] else [none, some true]))
    let g := f.logged
    let result := traverseCustom none g.matchFn g.shouldSearch g.search ([], ())
    ∀ v, (∃ p ∈ result.1, p.value = some v) ↔
      ReflTransGen (SearchEdge (fun v => if v = some true then .kSkip else .kContinue)
        (fun v => some (if v = none then [some false] else [none, some true]))) none v :=
  (traverseCustom_matches_reachable
    (fun _ v => if v = some true then .kSkip else .kContinue) (fun _ st => st)
    (fun v => some (if v = none then [some false] else [none, some true])) none ()
    (by decide)).1

end DefUseChain

end Dimeta
