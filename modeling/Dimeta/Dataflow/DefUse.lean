import Mathlib.Data.Fintype.Card
import Mathlib.Data.Finset.Card
import Mathlib.Data.Prod.Lex
import Mathlib.Tactic

/-!
# Def-use search

`DefUseChain` is the work-list search behind every dataflow query: paths of values are popped
from a stack, handed to a match callback and extended along a search direction. A value enters
the seen set when a path ending in it is popped, and the seen set is consulted when a path is
pushed, so one value may wait in the work list several times.

The callbacks carry a state of their own: in the source they are closures and function objects
that collect paths or set flags.
-/

set_option autoImplicit false

namespace Dimeta

variable {ν σ : Type*}

/-! ### Value paths -/

/-- A path of values, in the order in which the search followed them. -/
structure ValuePath (ν : Type*) where
  pathToValue : List ν
  deriving DecidableEq

namespace ValuePath

/-- The path that consists of its start only. -/
def ofStart (start : ν) : ValuePath ν := ⟨[start]⟩

def contains [DecidableEq ν] (p : ValuePath ν) (v : ν) : Bool := decide (v ∈ p.pathToValue)

def empty (p : ValuePath ν) : Bool := p.pathToValue.isEmpty

def onlyStart (p : ValuePath ν) : Bool := p.pathToValue.length == 1

/-- The current value: the last one of the path. -/
def value (p : ValuePath ν) : Option ν := p.pathToValue.getLast?

/-- The value before the current one. -/
def previousValue (p : ValuePath ν) : Option ν := p.pathToValue.dropLast.getLast?

def startValue (p : ValuePath ν) : Option ν := p.pathToValue.head?

def size (p : ValuePath ν) : ℕ := p.pathToValue.length

/-- `operator+` of the source: the path extended by one value. -/
def add (p : ValuePath ν) (v : ν) : ValuePath ν := ⟨p.pathToValue ++ [v]⟩

@[simp] lemma value_ofStart (v : ν) : (ofStart v).value = some v := rfl

@[simp] lemma startValue_ofStart (v : ν) : (ofStart v).startValue = some v := rfl

@[simp] lemma value_add (p : ValuePath ν) (v : ν) : (p.add v).value = some v := by
  simp [value, add]

lemma startValue_add {p : ValuePath ν} {s : ν} (v : ν) (h : p.startValue = some s) :
    (p.add v).startValue = some s := by
  simp_all [startValue, add]

lemma pathToValue_ne_nil {p : ValuePath ν} {v : ν} (h : p.value = some v) :
    p.pathToValue ≠ [] := by
  intro hnil
  simp [value, hnil] at h

end ValuePath

/-! ### The search loop -/

/-- The answer of a match callback. -/
inductive MatchResult where
  | kContinue
  | kCancel
  | kSkip
  deriving DecidableEq

/-- The three callbacks of a traversal, over the state `σ` they share. -/
structure Search (ν σ : Type*) where
  matchFn : ValuePath ν → σ → MatchResult × σ
  shouldSearch : ValuePath ν → σ → Bool × σ
  search : ValuePath ν → σ → Option (List ν) × σ

/-- The search object between two iterations, with the state of its callbacks. The top of the
work list is its head. -/
structure DefUseChain (ν σ : Type*) where
  workingSet : List (ValuePath ν)
  seenSet : Finset ν
  callback : σ

/-- What one iteration of the loop leads to. -/
inductive Iteration (ν σ : Type*) where
  | next (c : DefUseChain ν σ)
  | done (st : σ)

namespace DefUseChain

variable [DecidableEq ν]

def addToWorkS (c : DefUseChain ν σ) (p : ValuePath ν) : DefUseChain ν σ :=
  match p.value with
  | none   => c
  | some v => if v ∈ c.seenSet then c else { c with workingSet := p :: c.workingSet }

def addToWork (c : DefUseChain ν σ) (vals : List ν) (current : ValuePath ν) : DefUseChain ν σ :=
  vals.foldl (fun c v => c.addToWorkS (current.add v)) c

/-- Extend the popped path along the search direction, if there is one. -/
def applySearchDirection (f : Search ν σ) (c : DefUseChain ν σ) (user : ValuePath ν) :
    DefUseChain ν σ :=
  match f.search user c.callback with
  | (none, st)      => { c with callback := st }
  | (some vals, st) => { c with callback := st }.addToWork vals user

/-- The body of the `while` loop of `do_traverse`. -/
def iterate (f : Search ν σ) (c : DefUseChain ν σ) : Iteration ν σ :=
  match c.workingSet with
  | []           => .done c.callback
  | user :: rest =>
    match user.value with
    | none   => .next { c with workingSet := rest }
    | some v =>
      match f.matchFn user c.callback with
      | (.kSkip, st)     => .next ⟨rest, insert v c.seenSet, st⟩
      | (.kCancel, st)   => .done st
      | (.kContinue, st) =>
        match f.shouldSearch user st with
        | (true, st)  => .next (applySearchDirection f ⟨rest, insert v c.seenSet, st⟩ user)
        | (false, st) => .next ⟨rest, insert v c.seenSet, st⟩

/-- Work-list entries whose value was popped before: they can still be matched again, but
what they push is unseen. -/
def staleEntries (c : DefUseChain ν σ) : List (ValuePath ν) :=
  c.workingSet.filter fun p => p.value.all (· ∈ c.seenSet)

lemma addToWorkS_seenSet (c : DefUseChain ν σ) (p : ValuePath ν) :
    (c.addToWorkS p).seenSet = c.seenSet := by
  unfold addToWorkS
  split
  · rfl
  · split_ifs <;> rfl

lemma staleEntries_addToWorkS (c : DefUseChain ν σ) (p : ValuePath ν) :
    (c.addToWorkS p).staleEntries = c.staleEntries := by
  unfold addToWorkS
  split
  · rfl
  · next v hv =>
    split_ifs with hseen
    · rfl
    · simp [staleEntries, hv, hseen]

lemma addToWork_seenSet (vals : List ν) (p : ValuePath ν) (c : DefUseChain ν σ) :
    (c.addToWork vals p).seenSet = c.seenSet := by
  induction vals generalizing c with
  | nil => rfl
  | cons v vals ih => exact (ih _).trans (addToWorkS_seenSet c _)

lemma addToWorkS_callback (c : DefUseChain ν σ) (p : ValuePath ν) :
    (c.addToWorkS p).callback = c.callback := by
  unfold addToWorkS
  split
  · rfl
  · split_ifs <;> rfl

lemma addToWork_callback (vals : List ν) (p : ValuePath ν) (c : DefUseChain ν σ) :
    (c.addToWork vals p).callback = c.callback := by
  induction vals generalizing c with
  | nil => rfl
  | cons v vals ih => exact (ih _).trans (addToWorkS_callback c _)

lemma staleEntries_addToWork (vals : List ν) (p : ValuePath ν) (c : DefUseChain ν σ) :
    (c.addToWork vals p).staleEntries = c.staleEntries := by
  induction vals generalizing c with
  | nil => rfl
  | cons v vals ih => exact (ih _).trans (staleEntries_addToWorkS c _)

lemma applySearchDirection_seenSet (f : Search ν σ) (c : DefUseChain ν σ) (p : ValuePath ν) :
    (applySearchDirection f c p).seenSet = c.seenSet := by
  unfold applySearchDirection
  split
  · rfl
  · exact addToWork_seenSet _ _ _

lemma staleEntries_applySearchDirection (f : Search ν σ) (c : DefUseChain ν σ)
    (p : ValuePath ν) : (applySearchDirection f c p).staleEntries = c.staleEntries := by
  unfold applySearchDirection
  split
  · rfl
  · exact staleEntries_addToWork _ _ _

/-- Everything an iteration that goes on can do: drop an empty path, or mark the popped value,
match its path and possibly extend it. -/
lemma iterate_next_cases {f : Search ν σ} {c c' : DefUseChain ν σ}
    (h : iterate f c = .next c') :
    ∃ user rest, c.workingSet = user :: rest ∧
      ((user.value = none ∧ c' = { c with workingSet := rest }) ∨
        ∃ v, user.value = some v ∧
          ((∃ st, f.matchFn user c.callback = (.kSkip, st) ∧
              c' = ⟨rest, insert v c.seenSet, st⟩) ∨
            ∃ st st', f.matchFn user c.callback = (.kContinue, st) ∧
              ((f.shouldSearch user st = (false, st') ∧ c' = ⟨rest, insert v c.seenSet, st'⟩) ∨
                f.shouldSearch user st = (true, st') ∧
                  c' = applySearchDirection f ⟨rest, insert v c.seenSet, st'⟩ user))) := by
  unfold iterate at h
  split at h
  · cases h
  · next user rest hw =>
    refine ⟨user, rest, hw, ?_⟩
    split at h
    · next hv => exact .inl ⟨hv, by cases h; rfl⟩
    · next v hv =>
      refine .inr ⟨v, hv, ?_⟩
      split at h
      · next st hm => exact .inl ⟨st, hm, by cases h; rfl⟩
      · cases h
      · next st hm =>
        split at h
        · next st' hs => exact .inr ⟨st, st', hm, .inr ⟨hs, by cases h; rfl⟩⟩
        · next st' hs => exact .inr ⟨st, st', hm, .inl ⟨hs, by cases h; rfl⟩⟩

/-- Number of values not seen yet, then number of stale entries. -/
def measure [Fintype ν] (c : DefUseChain ν σ) : ℕ ×ₗ ℕ :=
  toLex (c.seenSetᶜ.card, c.staleEntries.length)

/-- Each iteration sees a new value or uses up a stale entry. -/
lemma measure_lt_of_iterate [Fintype ν] {f : Search ν σ} {c c' : DefUseChain ν σ}
    (h : iterate f c = .next c') : c'.measure < c.measure := by
  obtain ⟨user, rest, hw, hcase⟩ := iterate_next_cases h
  have hpop : ∀ c₁ : DefUseChain ν σ, ∀ v, user.value = some v →
      c₁.seenSet = insert v c.seenSet →
      c₁.staleEntries = (⟨rest, insert v c.seenSet, c₁.callback⟩ : DefUseChain ν σ).staleEntries →
      c₁.measure < c.measure := by
    intro c₁ v hv hseen hstale
    by_cases hmem : v ∈ c.seenSet
    · -- the popped entry was stale, and the seen set stays as it is
      rw [Finset.insert_eq_of_mem hmem] at hseen hstale
      refine Prod.Lex.toLex_lt_toLex.mpr (.inr ⟨by simp [hseen], ?_⟩)
      rw [hstale]
      simp [staleEntries, hw, hv, hmem]
    · refine Prod.Lex.toLex_lt_toLex.mpr (.inl ?_)
      rw [hseen]
      exact Finset.card_lt_card (Finset.compl_ssubset_compl.mpr (Finset.ssubset_insert hmem))
  rcases hcase with ⟨hnone, rfl⟩ | ⟨v, hv, ⟨st, -, rfl⟩ | ⟨st, st', -, ⟨-, rfl⟩ | ⟨-, rfl⟩⟩⟩
  · refine Prod.Lex.toLex_lt_toLex.mpr (.inr ⟨rfl, ?_⟩)
    simp [staleEntries, hw, hnone]
  · exact hpop _ v hv rfl rfl
  · exact hpop _ v hv rfl rfl
  · exact hpop _ v hv (applySearchDirection_seenSet _ _ _)
      (staleEntries_applySearchDirection _ _ _)

/-- The `while` loop of `do_traverse`, as far as `fuel` iterations go. -/
def run (f : Search ν σ) : ℕ → DefUseChain ν σ → Option σ
  | 0, _ => none
  | fuel + 1, c =>
    match iterate f c with
    | .next c' => run f fuel c'
    | .done st => some st

/-- The `while` loop of `do_traverse`: the state of the callbacks when it ends. -/
def loop [Fintype ν] (f : Search ν σ) (c : DefUseChain ν σ) : σ :=
  match _h : iterate f c with
  | .next c' => loop f c'
  | .done st => st
termination_by c.measure
decreasing_by exact measure_lt_of_iterate _h

lemma loop_next [Fintype ν] {f : Search ν σ} {c c' : DefUseChain ν σ}
    (h : iterate f c = .next c') : loop f c = loop f c' := by
  rw [loop]
  split
  · next c₁ h₁ => cases h.symm.trans h₁; rfl
  · next st h₁ => cases h.symm.trans h₁

lemma loop_done [Fintype ν] {f : Search ν σ} {c : DefUseChain ν σ} {st : σ}
    (h : iterate f c = .done st) : loop f c = st := by
  rw [loop]
  split
  · next c₁ h₁ => cases h.symm.trans h₁
  · next st h₁ => cases h.symm.trans h₁; rfl

/-- An invariant of the iterations, and what it means when the loop ends. -/
lemma loop_induction [Fintype ν] {f : Search ν σ} {P : DefUseChain ν σ → Prop} {Q : σ → Prop}
    (hnext : ∀ c c', P c → iterate f c = .next c' → P c')
    (hdone : ∀ c st, P c → iterate f c = .done st → Q st)
    (c : DefUseChain ν σ) (hc : P c) : Q (loop f c) := by
  match h : iterate f c with
  | .next c' =>
    rw [loop_next h]
    exact loop_induction hnext hdone c' (hnext c c' hc h)
  | .done st =>
    rw [loop_done h]
    exact hdone c st hc h
termination_by c.measure
decreasing_by exact measure_lt_of_iterate h

/-- Enough fuel computes the loop. -/
lemma loop_eq_of_run [Fintype ν] {f : Search ν σ} (fuel : ℕ) {c : DefUseChain ν σ} {st : σ}
    (h : run f fuel c = some st) : loop f c = st := by
  induction fuel generalizing c with
  | zero => cases h
  | succ fuel ih =>
    rw [run] at h
    split at h
    · next c' hc => rw [loop_next hc, ih h]
    · next st' hc => rw [loop_done hc, Option.some.inj h]

/-- The loop ends, whatever its callbacks answer. -/
lemma exists_run_eq_loop [Fintype ν] (f : Search ν σ) (c : DefUseChain ν σ) :
    ∃ fuel, run f fuel c = some (loop f c) := by
  match h : iterate f c with
  | .next c' =>
    obtain ⟨fuel, hfuel⟩ := exists_run_eq_loop f c'
    exact ⟨fuel + 1, by rw [run, h, loop_next h]; exact hfuel⟩
  | .done st => exact ⟨1, by rw [run, h, loop_done h]⟩
termination_by c.measure
decreasing_by exact measure_lt_of_iterate h

/-- The search object at the start of `do_traverse`. -/
def init (start : ν) (st : σ) : DefUseChain ν σ :=
  (⟨[], ∅, st⟩ : DefUseChain ν σ).addToWorkS (.ofStart start)

@[simp] lemma init_eq (start : ν) (st : σ) : init start st = ⟨[.ofStart start], ∅, st⟩ := by
  simp [init, addToWorkS]

def doTraverse [Fintype ν] (f : Search ν σ) (start : ν) (st : σ) : σ := loop f (init start st)

/-- An iteration with some callbacks leads from `c` to `c'`. -/
def Iterates (c c' : DefUseChain ν σ) : Prop := ∃ f : Search ν σ, iterate f c = .next c'

lemma wellFounded_iterates [Fintype ν] :
    WellFounded fun c' c : DefUseChain ν σ => Iterates c c' := by
  apply Subrelation.wf (r := InvImage (· < ·) measure)
  · rintro c' c ⟨f, h⟩
    exact measure_lt_of_iterate h
  · exact InvImage.wf measure wellFounded_lt

/-- The work list empties: the loop ends whatever its callbacks answer, and there are no endless
iterations even if the callbacks are others each time. -/
theorem doTraverse_ends [Fintype ν] (start : ν) (st : σ) :
    (∀ f : Search ν σ, ∃ fuel, run f fuel (init start st) = some (doTraverse f start st)) ∧
      ∀ (f : ℕ → Search ν σ) (c : ℕ → DefUseChain ν σ),
        ¬ ∀ n, iterate (f n) (c n) = .next (c (n + 1)) := by
  refine ⟨fun f => exists_run_eq_loop f (init start st), fun f c h => ?_⟩
  have hiterates : ∀ n, Iterates (c n) (c (n + 1)) := fun n => ⟨f n, h n⟩
  exact (wellFounded_iff_isEmpty_descending_chain.mp wellFounded_iterates).elim ⟨c, hiterates⟩

lemma applySearchDirection_callback (f : Search ν σ) (c : DefUseChain ν σ) (p : ValuePath ν) :
    (applySearchDirection f c p).callback = (f.search p c.callback).2 := by
  rw [applySearchDirection]
  split
  · next h => rw [h]
  · next h => rw [h, addToWork_callback]

/-- A property of the callback state that every callback keeps holds when the search ends. -/
lemma doTraverse_invariant [Fintype ν] {f : Search ν σ} {P : σ → Prop}
    (hmatch : ∀ p st, P st → P (f.matchFn p st).2)
    (hshould : ∀ p st, P st → P (f.shouldSearch p st).2)
    (hsearch : ∀ p st, P st → P (f.search p st).2) {st : σ} (hst : P st) (start : ν) :
    P (doTraverse f start st) := by
  refine loop_induction (P := fun c => P c.callback) ?_ ?_ _ (by simpa using hst)
  · intro c c' hc h
    obtain ⟨user, rest, -, hcase⟩ := iterate_next_cases h
    have hm := hmatch user _ hc
    rcases hcase with ⟨-, rfl⟩ | ⟨v, -, ⟨st₁, hst₁, rfl⟩ | ⟨st₁, st₂, hst₁, hgo⟩⟩
    · exact hc
    · rwa [hst₁] at hm
    · rw [hst₁] at hm
      have hs := hshould user _ hm
      rcases hgo with ⟨hst₂, rfl⟩ | ⟨hst₂, rfl⟩
      · rwa [hst₂] at hs
      · rw [hst₂] at hs
        rw [applySearchDirection_callback]
        exact hsearch user _ hs
  · intro c st' hc h
    simp only [iterate] at h
    split at h
    · cases h; exact hc
    · next user rest _ =>
      have hm := hmatch user _ hc
      split at h
      · cases h
      · split at h
        · cases h
        · next st₁ hst₁ => cases h; rwa [hst₁] at hm
        · split at h <;> cases h

/-! ### Searches over mapped states -/

section MapState

variable {τ : Type*}

/-- The chain with another state of the callbacks. -/
def mapState (g : σ → τ) (c : DefUseChain ν σ) : DefUseChain ν τ :=
  ⟨c.workingSet, c.seenSet, g c.callback⟩

/-- The callbacks of `f'` do to mapped states what those of `f` do to the states. -/
structure MapsState (g : σ → τ) (f : Search ν σ) (f' : Search ν τ) : Prop where
  matchFn : ∀ p st, f'.matchFn p (g st) = ((f.matchFn p st).1, g (f.matchFn p st).2)
  shouldSearch : ∀ p st,
    f'.shouldSearch p (g st) = ((f.shouldSearch p st).1, g (f.shouldSearch p st).2)
  search : ∀ p st, f'.search p (g st) = ((f.search p st).1, g (f.search p st).2)

lemma mapState_addToWorkS (g : σ → τ) (c : DefUseChain ν σ) (p : ValuePath ν) :
    (c.mapState g).addToWorkS p = (c.addToWorkS p).mapState g := by
  simp only [addToWorkS]
  cases p.value with
  | none => rfl
  | some v => by_cases hv : v ∈ c.seenSet <;> simp [mapState, hv]

lemma mapState_addToWork (g : σ → τ) (vals : List ν) (p : ValuePath ν) (c : DefUseChain ν σ) :
    (c.mapState g).addToWork vals p = (c.addToWork vals p).mapState g := by
  induction vals generalizing c with
  | nil => rfl
  | cons v vals ih =>
    simp only [addToWork, List.foldl_cons] at ih ⊢
    rw [mapState_addToWorkS, ih]

variable {g : σ → τ} {f : Search ν σ} {f' : Search ν τ} (h : MapsState g f f')

include h

lemma mapState_applySearchDirection (c : DefUseChain ν σ) (p : ValuePath ν) :
    applySearchDirection f' (c.mapState g) p = (applySearchDirection f c p).mapState g := by
  have hsearch := h.search p c.callback
  simp only [applySearchDirection]
  cases hs : f.search p c.callback with
  | mk vals st =>
    rw [hs] at hsearch
    simp only [mapState] at hsearch ⊢
    rw [hsearch]
    cases vals with
    | none => rfl
    | some vals => exact mapState_addToWork g vals p ⟨c.workingSet, c.seenSet, st⟩

/-- An iteration on mapped states. -/
lemma iterate_mapState (c : DefUseChain ν σ) :
    (∀ c', iterate f c = .next c' → iterate f' (c.mapState g) = .next (c'.mapState g)) ∧
      ∀ st, iterate f c = .done st → iterate f' (c.mapState g) = .done (g st) := by
  obtain ⟨working, seen, state⟩ := c
  cases working with
  | nil =>
    constructor
    · rintro c' ⟨⟩
    · rintro st ⟨⟩
      rfl
  | cons user rest =>
    have hmatch := h.matchFn user state
    simp only [iterate, mapState]
    cases user.value with
    | none =>
      constructor
      · rintro c' ⟨⟩
        rfl
      · rintro st ⟨⟩
    | some v =>
      cases hm : f.matchFn user state with
      | mk answer st₁ =>
        rw [hm] at hmatch
        cases answer with
        | kSkip =>
          simp only [hmatch]
          constructor
          · rintro c' ⟨⟩
            rfl
          · rintro st ⟨⟩
        | kCancel =>
          simp only [hmatch]
          constructor
          · rintro c' ⟨⟩
          · rintro st ⟨⟩
            rfl
        | kContinue =>
          have hshould := h.shouldSearch user st₁
          cases hs : f.shouldSearch user st₁ with
          | mk go st₂ =>
            rw [hs] at hshould
            simp only [hmatch, hshould, hs]
            cases go with
            | false =>
              constructor
              · rintro c' ⟨⟩
                rfl
              · rintro st ⟨⟩
            | true =>
              constructor
              · rintro c' ⟨⟩
                exact congrArg Iteration.next
                  (mapState_applySearchDirection h ⟨rest, insert v seen, st₂⟩ user)
              · rintro st ⟨⟩

lemma loop_mapState [Fintype ν] (c : DefUseChain ν σ) :
    loop f' (c.mapState g) = g (loop f c) := by
  obtain ⟨hnext, hdone⟩ := iterate_mapState h c
  match hstep : iterate f c with
  | .next c' => rw [loop_next hstep, loop_next (hnext c' hstep), loop_mapState c']
  | .done st => rw [loop_done hstep, loop_done (hdone st hstep)]
termination_by c.measure
decreasing_by exact measure_lt_of_iterate hstep

/-- A search from a mapped state ends in the mapped state of the search. -/
lemma doTraverse_map [Fintype ν] (start : ν) (st : σ) :
    doTraverse f' start (g st) = g (doTraverse f start st) := by
  rw [doTraverse, doTraverse, ← loop_mapState h, init_eq, init_eq]
  rfl

end MapState

/-- Search along the users of a value. -/
def traverse [Fintype ν] (users : ν → List ν) (start : ν)
    (matchFn : ValuePath ν → σ → MatchResult × σ)
    (shouldSearch : ValuePath ν → σ → Bool × σ) (st : σ) : σ :=
  doTraverse ⟨matchFn, shouldSearch, fun p st => (p.value.map users, st)⟩ start st

def traverseCustom [Fintype ν] (start : ν)
    (matchFn : ValuePath ν → σ → MatchResult × σ)
    (shouldSearch : ValuePath ν → σ → Bool × σ)
    (searchDir : ValuePath ν → σ → Option (List ν) × σ) (st : σ) : σ :=
  doTraverse ⟨matchFn, shouldSearch, searchDir⟩ start st

end DefUseChain

end Dimeta
