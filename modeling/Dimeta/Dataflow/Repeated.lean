import Dimeta.DI.Node
import Dimeta.Dataflow.Once
import Dimeta.Dataflow.Shapes

/-!
# Values that are matched again

A value is pushed whenever it is not seen, so one that already waits is pushed a second time and is
matched twice. For given answers of the callbacks, what is seen by the time a value is popped is
read off the use lists along a chain of users that the search follows.
-/

set_option autoImplicit false

namespace Dimeta

open Relation

universe u

variable {ν σ : Type*}

namespace DefUseChain

/-- The search that `traverse` makes. -/
def userSearch (users : ν → List ν) (matchFn : ValuePath ν → σ → MatchResult × σ)
    (shouldSearch : ValuePath ν → σ → Bool × σ) : Search ν σ :=
  ⟨matchFn, shouldSearch, fun p st => (p.value.map users, st)⟩

/-- What the callbacks decide about a popped path: the search goes on to users, skips them, or is
cancelled. -/
def decides (matchFn : ValuePath ν → σ → MatchResult × σ)
    (shouldSearch : ValuePath ν → σ → Bool × σ) (p : ValuePath ν) (st : σ) : MatchResult :=
  match matchFn p st with
  | (.kContinue, st) => if (shouldSearch p st).1 then .kContinue else .kSkip
  | (r, _)           => r

/-! ### Chains of users -/

section Chains

variable (users : ν → List ν) (answer : ν → MatchResult)

/-- The search goes on from `a` to its user `b`, which has not passed. -/
def GoesOnTo (passed : Set ν) (a b : ν) : Prop :=
  answer a = .kContinue ∧ b ∈ users a ∧ b ∉ passed

/-- What is reached from the values that have not passed, themselves included. -/
def Reached (passed : Set ν) (vals : List ν) : Set ν :=
  {b | ∃ a ∈ vals, a ∉ passed ∧ ReflTransGen (GoesOnTo users answer passed) a b}

/-- The search is not cancelled at what is reached from the values. -/
def NoCancel (passed : Set ν) (vals : List ν) : Prop :=
  ∀ x ∈ Reached users answer passed vals, answer x ≠ .kCancel

/-- A chain of users from the start to a value. The last entry of a use list is popped first: all
that is reached from the users listed behind the one that the chain follows has passed before it. -/
inductive UserChain (start : ν) : ν → Set ν → Prop
  | start : UserChain start start ∅
  | next {v w : ν} {passed : Set ν} {before after : List ν} (hchain : UserChain start v passed)
      (hcont : answer v = .kContinue) (hsplit : users v = before ++ w :: after)
      (hw : w ∉ insert v passed) (hcancel : NoCancel users answer (insert v passed) after)
      (hafter : w ∉ Reached users answer (insert v passed) after) :
      UserChain start w (insert v passed ∪ Reached users answer (insert v passed) after)

/-- No user of a value on a chain is reached from those listed behind it, if it has not passed. -/
def ArrivesOnce (start : ν) : Prop :=
  ∀ v passed, UserChain users answer start v passed → answer v = .kContinue →
    ∀ before w after, users v = before ++ w :: after → w ∉ insert v passed →
      NoCancel users answer (insert v passed) after →
      w ∉ Reached users answer (insert v passed) after

end Chains

section Reached

variable {users : ν → List ν} {answer : ν → MatchResult} {passed : Set ν} {v w : ν}
  {vals vals' : List ν}

@[simp] lemma reached_nil : Reached users answer passed [] = ∅ := by
  simp [Reached]

/-- Only the values that have not passed matter. -/
lemma reached_congr (h : ∀ a ∉ passed, a ∈ vals ↔ a ∈ vals') :
    Reached users answer passed vals = Reached users answer passed vals' := by
  ext b
  constructor
  · rintro ⟨a, ha, hpassed, hreach⟩
    exact ⟨a, (h a hpassed).mp ha, hpassed, hreach⟩
  · rintro ⟨a, ha, hpassed, hreach⟩
    exact ⟨a, (h a hpassed).mpr ha, hpassed, hreach⟩

lemma mem_reached_of_step {a b : ν} (ha : a ∈ Reached users answer passed vals)
    (h : GoesOnTo users answer passed a b) : b ∈ Reached users answer passed vals := by
  obtain ⟨x, hx, hpassed, hreach⟩ := ha
  exact ⟨x, hx, hpassed, hreach.tail h⟩

lemma reached_mono {passed' : Set ν} (hpassed : passed ⊆ passed')
    (hvals : ∀ a ∈ vals, a ∉ passed' → a ∈ Reached users answer passed vals') :
    Reached users answer passed' vals ⊆ Reached users answer passed vals' := by
  rintro b ⟨a, ha, hnot, hreach⟩
  induction hreach with
  | refl => exact hvals a ha hnot
  | tail _ hstep ih =>
    exact mem_reached_of_step ih ⟨hstep.1, hstep.2.1, fun hmem => hstep.2.2 (hpassed hmem)⟩

variable (users answer vals) in
/-- A value is popped: it is reached, and so is what is reached from its users, if the search goes
on, and from the other values. -/
lemma reached_pop (hv : v ∉ passed) :
    Reached users answer passed (v :: vals) =
      insert v (Reached users answer (insert v passed)
        ((if answer v = .kContinue then users v else []) ++ vals)) := by
  ext b
  constructor
  · rintro ⟨a, ha, hnot, hreach⟩
    induction hreach with
    | refl =>
      by_cases hav : a = v
      · exact .inl hav
      · have hmem : a ∈ vals := (List.mem_cons.mp ha).resolve_left hav
        exact .inr ⟨a, List.mem_append_right _ hmem, by simp [hav, hnot], .refl⟩
    | @tail x y _ hstep ih =>
      by_cases hyv : y = v
      · exact .inl hyv
      have hy : y ∉ insert v passed := by simp [hyv, hstep.2.2]
      right
      rcases ih with rfl | hx
      · rw [if_pos hstep.1]
        exact ⟨y, List.mem_append_left _ hstep.2.1, hy, .refl⟩
      · exact mem_reached_of_step hx ⟨hstep.1, hstep.2.1, hy⟩
  · rintro (rfl | hb)
    · exact ⟨b, List.mem_cons_self, hv, .refl⟩
    · refine reached_mono (Set.subset_insert v passed) (fun a ha hnot => ?_) hb
      have hpassed : a ∉ passed := fun hmem => hnot (.inr hmem)
      rcases List.mem_append.mp ha with ha | ha
      · split at ha
        · next hcont => exact ⟨v, List.mem_cons_self, hv, .single ⟨hcont, ha, hpassed⟩⟩
        · cases ha
      · exact ⟨a, List.mem_cons_of_mem v ha, hpassed, .refl⟩

/-- What is reached from a value after all that is reached from others has passed. -/
lemma reached_cons (w : ν) (vals : List ν) :
    Reached users answer passed (w :: vals) =
      Reached users answer passed vals ∪
        Reached users answer (passed ∪ Reached users answer passed vals) [w] := by
  ext b
  constructor
  · rintro ⟨a, ha, hnot, hreach⟩
    induction hreach with
    | refl =>
      rcases List.mem_cons.mp ha with rfl | ha
      · by_cases hmem : a ∈ Reached users answer passed vals
        · exact .inl hmem
        · exact .inr ⟨a, List.mem_singleton_self a, by simp [hnot, hmem], .refl⟩
      · exact .inl ⟨a, ha, hnot, .refl⟩
    | @tail x y _ hstep ih =>
      rcases ih with hx | hx
      · exact .inl (mem_reached_of_step hx hstep)
      · by_cases hmem : y ∈ Reached users answer passed vals
        · exact .inl hmem
        · exact .inr (mem_reached_of_step hx ⟨hstep.1, hstep.2.1, by simp [hstep.2.2, hmem]⟩)
  · rintro (hb | hb)
    · exact reached_mono subset_rfl (fun a ha hnot =>
        ⟨a, List.mem_cons_of_mem w ha, hnot, .refl⟩) hb
    · refine reached_mono Set.subset_union_left (fun a ha hnot => ?_) hb
      obtain rfl := List.mem_singleton.mp ha
      exact ⟨a, List.mem_cons_self, fun hmem => hnot (.inl hmem), .refl⟩

end Reached

/-! ### Runs of the search -/

section Runs

variable [DecidableEq ν] (users : ν → List ν) (matchFn : ValuePath ν → σ → MatchResult × σ)
  (shouldSearch : ValuePath ν → σ → Bool × σ) (start : ν) (st : σ)

/-- What the search gets to between two iterations, its calls logged. -/
def Runs (c : DefUseChain ν (List (ValuePath ν) × σ)) : Prop :=
  ReflTransGen (fun c c' => iterate (userSearch users matchFn shouldSearch).logged c = .next c')
    (init start ([], st)) c

/-- Where a value is matched for the first time, the callbacks decide as `answer` says. -/
def Follows (answer : ν → MatchResult) : Prop :=
  ∀ c, Runs users matchFn shouldSearch start st c → ∀ p rest v, c.workingSet = p :: rest →
    p.value = some v → v ∉ c.seenSet → decides matchFn shouldSearch p c.callback.2 = answer v

variable {users matchFn shouldSearch start st}

/-- Callbacks that decide by the current value follow what they decide. -/
lemma follows_of_values {answer : ν → MatchResult}
    (h : ∀ p st v, p.value = some v → decides matchFn shouldSearch p st = answer v) :
    Follows users matchFn shouldSearch start st answer :=
  fun c _ p _ v _ hv _ => h p c.callback.2 v hv

variable (users matchFn shouldSearch) in
/-- What an iteration does with the path that it pops. -/
lemma exists_iterate {c : DefUseChain ν (List (ValuePath ν) × σ)} {p : ValuePath ν}
    {rest : List (ValuePath ν)} {v : ν} (hw : c.workingSet = p :: rest) (hv : p.value = some v) :
    ∃ st', (decides matchFn shouldSearch p c.callback.2 = .kCancel ∧
        iterate (userSearch users matchFn shouldSearch).logged c =
          .done (c.callback.1 ++ [p], st')) ∨
      (decides matchFn shouldSearch p c.callback.2 ≠ .kCancel ∧
        iterate (userSearch users matchFn shouldSearch).logged c =
          .next ⟨(((if decides matchFn shouldSearch p c.callback.2 = .kContinue then users v
            else []).filter (· ∉ insert v c.seenSet)).map p.add).reverse ++ rest,
            insert v c.seenSet, (c.callback.1 ++ [p], st')⟩) := by
  rcases hm : matchFn p c.callback.2 with ⟨r, st₁⟩
  cases r with
  | kCancel =>
    refine ⟨st₁, .inl ⟨by simp [decides, hm], ?_⟩⟩
    simp only [iterate, hw, hv, Search.logged, userSearch, hm]
  | kSkip =>
    refine ⟨st₁, .inr ⟨by simp [decides, hm], ?_⟩⟩
    simp [iterate, hw, hv, Search.logged, userSearch, hm, decides]
  | kContinue =>
    rcases hs : shouldSearch p st₁ with ⟨_ | _, st₂⟩
    · refine ⟨st₂, .inr ⟨by simp [decides, hm, hs], ?_⟩⟩
      simp [iterate, hw, hv, Search.logged, userSearch, hm, hs, decides]
    · have hdecides : decides matchFn shouldSearch p c.callback.2 = .kContinue := by
        simp [decides, hm, hs]
      refine ⟨st₂, .inr ⟨by simp [hdecides], ?_⟩⟩
      rw [hdecides, if_pos rfl]
      simp only [iterate, hw, hv, Search.logged, userSearch, hm, hs, applySearchDirection,
        Option.map_some, addToWork_eq]

/-- All paths of the work list have a value. -/
lemma Runs.value_ne_none {c : DefUseChain ν (List (ValuePath ν) × σ)}
    (h : Runs users matchFn shouldSearch start st c) : ∀ p ∈ c.workingSet, p.value ≠ none := by
  have hfrom : FromStart start c := by
    induction h with
    | refl => exact fromStart_init start _
    | tail _ hstep ih => exact ih.iterate hstep
  exact fun p hp => (hfrom p hp).2

end Runs

section Once

variable [DecidableEq ν] (users : ν → List ν) (answer : ν → MatchResult) (start : ν)

/-- The work list of a search: its top entry ends a chain of users whose passed values are seen, and
so does the next one once all that is reached from the top has passed. -/
def Stacked : Set ν → List (ValuePath ν) → Prop
  | _, [] => True
  | seen, p :: below =>
    ∃ v, p.value = some v ∧ v ∉ seen ∧ UserChain users answer start v seen ∧
      (NoCancel users answer seen [v] → Stacked (seen ∪ Reached users answer seen [v]) below)

variable {users answer start} {matchFn : ValuePath ν → σ → MatchResult × σ}
  {shouldSearch : ValuePath ν → σ → Bool × σ} {st : σ}

/-- What the users of a popped value push on top of what waits, when no value arrives twice. The
induction goes along the use list; the users behind the split are on top and popped first. -/
lemma Stacked.push (honce : ArrivesOnce users answer start) {v : ν} {passed : Set ν}
    (hchain : UserChain users answer start v passed) (hcont : answer v = .kContinue)
    {seen : Finset ν} (hseen : (seen : Set ν) = insert v passed) (rest : List (ValuePath ν))
    (hrest : NoCancel users answer seen (users v) →
      Stacked users answer start (seen ∪ Reached users answer seen (users v)) rest)
    (p : ValuePath ν) (before after : List ν) (hsplit : users v = before ++ after)
    (hcancel : NoCancel users answer seen after) :
    Stacked users answer start (seen ∪ Reached users answer seen after)
      (((before.filter (· ∉ seen)).map p.add).reverse ++ rest) := by
  induction before using List.reverseRecOn generalizing after with
  | nil =>
    obtain rfl : users v = after := hsplit
    exact hrest hcancel
  | append_singleton before w ih =>
    have hsplit' : users v = before ++ w :: after := by
      rw [hsplit, List.append_assoc, List.singleton_append]
    by_cases hw : w ∈ seen
    · -- a seen user is not pushed
      have hfilter : (before ++ [w]).filter (· ∉ seen) = before.filter (· ∉ seen) := by
        simp [List.filter_append, hw]
      have hsame : Reached users answer seen (w :: after) = Reached users answer seen after := by
        refine reached_congr fun a ha => ?_
        rw [List.mem_cons]
        exact or_iff_right fun heq => ha (heq ▸ hw)
      rw [hfilter, ← hsame]
      refine ih (w :: after) hsplit' fun x hx => hcancel x ?_
      rwa [hsame] at hx
    · have hfilter : (before ++ [w]).filter (· ∉ seen) = before.filter (· ∉ seen) ++ [w] := by
        simp [List.filter_append, hw]
      have hw' : w ∉ insert v passed := by
        rw [← hseen]
        exact hw
      have hafter : w ∉ Reached users answer seen after := by
        rw [hseen] at hcancel ⊢
        exact honce v passed hchain hcont before w after hsplit' hw' hcancel
      rw [hfilter, List.map_append, List.map_singleton, List.reverse_append,
        List.reverse_singleton, List.singleton_append, List.cons_append]
      refine ⟨w, ValuePath.value_add p w, by simp [hw, hafter], ?_, fun hnone => ?_⟩
      · rw [hseen] at hcancel hafter ⊢
        exact hchain.next hcont hsplit' hw' hcancel hafter
      · rw [Set.union_assoc, ← reached_cons]
        refine ih (w :: after) hsplit' fun x hx => ?_
        rw [reached_cons] at hx
        exact hx.elim (hcancel x) (hnone x)

/-- What holds between two iterations when no value arrives twice: the seen values were matched
once, and no other. -/
structure MatchedOnce (users : ν → List ν) (answer : ν → MatchResult) (start : ν)
    (c : DefUseChain ν (List (ValuePath ν) × σ)) : Prop where
  stacked : Stacked users answer start c.seenSet c.workingSet
  matched : ∀ v, c.callback.1.countP (endsIn v) ≤ if v ∈ c.seenSet then 1 else 0

lemma matchedOnce_init (users : ν → List ν) (answer : ν → MatchResult) (start : ν) (st : σ) :
    MatchedOnce users answer start (init start ([], st)) := by
  rw [init_eq]
  refine ⟨⟨start, rfl, by simp, ?_, fun _ => trivial⟩, fun v => by simp⟩
  rw [Finset.coe_empty]
  exact .start

/-- The popped value joins the matched ones. -/
lemma MatchedOnce.countP_append {c : DefUseChain ν (List (ValuePath ν) × σ)}
    (h : MatchedOnce users answer start c) {user : ValuePath ν} {v : ν} (hv : user.value = some v)
    (hseen : v ∉ c.seenSet) (w : ν) :
    (c.callback.1 ++ [user]).countP (endsIn w) ≤ if w ∈ insert v c.seenSet then 1 else 0 := by
  have hmatched := h.matched w
  rw [List.countP_append, List.countP_singleton]
  by_cases hwv : w = v
  · subst hwv
    rw [if_neg hseen] at hmatched
    rw [if_pos (Finset.mem_insert_self w _)]
    split_ifs <;> omega
  · have hends : endsIn w user = false := by
      rw [endsIn, hv, decide_eq_false_iff_not, Option.some.injEq]
      exact fun heq => hwv heq.symm
    rw [hends]
    simpa [Finset.mem_insert, hwv] using hmatched

/-- An iteration that goes on keeps the invariant. -/
lemma MatchedOnce.iterate (honce : ArrivesOnce users answer start)
    (hfollows : Follows users matchFn shouldSearch start st answer)
    {c c' : DefUseChain ν (List (ValuePath ν) × σ)} (h : MatchedOnce users answer start c)
    (hruns : Runs users matchFn shouldSearch start st c)
    (hstep : iterate (userSearch users matchFn shouldSearch).logged c = .next c') :
    MatchedOnce users answer start c' := by
  cases hw : c.workingSet with
  | nil => simp [DefUseChain.iterate, hw] at hstep
  | cons user rest =>
    have hstacked := h.stacked
    rw [hw] at hstacked
    obtain ⟨v, hv, hseen, hchain, hrest⟩ := hstacked
    have hcount := h.countP_append hv hseen
    have hdecides := hfollows c hruns user rest v hw hv hseen
    obtain ⟨st', ⟨-, hdone⟩ | ⟨hcancel, hnext⟩⟩ :=
      exists_iterate users matchFn shouldSearch hw hv
    · rw [hdone] at hstep
      cases hstep
    rw [hnext] at hstep
    cases hstep
    rw [hdecides] at hcancel ⊢
    refine ⟨?_, hcount⟩
    have hpop := reached_pop users answer [] hseen
    rw [List.append_nil] at hpop
    have hinsert : ((insert v c.seenSet : Finset ν) : Set ν) = insert v (c.seenSet : Set ν) :=
      Finset.coe_insert v c.seenSet
    cases hanswer : answer v with
    | kCancel => exact absurd hanswer hcancel
    | kSkip =>
      rw [hanswer, if_neg (by decide), reached_nil, insert_empty_eq] at hpop
      rw [if_neg (by decide), List.filter_nil, List.map_nil, List.reverse_nil, List.nil_append,
        hinsert, Set.insert_eq, Set.union_comm, ← hpop]
      apply hrest
      intro x hx
      rw [hpop, Set.mem_singleton_iff] at hx
      rw [hx, hanswer]
      decide
    | kContinue =>
      -- the users that are not seen are pushed in front of the rest
      rw [hanswer, if_pos rfl, ← hinsert] at hpop
      rw [if_pos rfl]
      have hpush := Stacked.push honce hchain hanswer hinsert rest (fun hnone => ?_) user
        (users v) [] (List.append_nil _).symm (by simp [NoCancel])
      · rwa [reached_nil, Set.union_empty] at hpush
      · have hrest := hrest fun x hx => ?_
        · rwa [hpop, Set.union_insert, ← Set.insert_union, ← hinsert] at hrest
        · rw [hpop] at hx
          rcases hx with rfl | hx
          · rw [hanswer]
            decide
          · exact hnone x hx

/-- When no value arrives twice, each is matched at most once. -/
lemma countP_matchCalls_le_one [Fintype ν] (honce : ArrivesOnce users answer start)
    (hfollows : Follows users matchFn shouldSearch start st answer) (v : ν) :
    (matchCalls (userSearch users matchFn shouldSearch) start st).countP (endsIn v) ≤ 1 := by
  have hle : ∀ (w : ν) (s : Finset ν), (if w ∈ s then 1 else 0) ≤ 1 := by
    intro w s
    split_ifs <;> omega
  refine loop_induction (P := fun c => Runs users matchFn shouldSearch start st c ∧
      MatchedOnce users answer start c)
    (Q := fun log => log.1.countP (endsIn v) ≤ 1) ?_ ?_ _ ⟨.refl, matchedOnce_init _ _ _ _⟩
  · rintro c c' ⟨hruns, h⟩ hstep
    exact ⟨hruns.tail hstep, h.iterate honce hfollows hruns hstep⟩
  · rintro c log ⟨hruns, h⟩ hdone
    cases hw : c.workingSet with
    | nil =>
      simp only [DefUseChain.iterate, hw] at hdone
      cases hdone
      exact (h.matched v).trans (hle v _)
    | cons user rest =>
      have hstacked := h.stacked
      rw [hw] at hstacked
      obtain ⟨w, hv, hseen, -⟩ := hstacked
      obtain ⟨st', ⟨-, hdone'⟩ | ⟨-, hnext⟩⟩ :=
        exists_iterate users matchFn shouldSearch hw hv
      · rw [hdone'] at hdone
        cases hdone
        exact (h.countP_append hv hseen v).trans (hle v _)
      · rw [hnext] at hdone
        cases hdone

end Once

section Twice

variable [DecidableEq ν] {users : ν → List ν} {answer : ν → MatchResult} {start : ν}
  {matchFn : ValuePath ν → σ → MatchResult × σ} {shouldSearch : ValuePath ν → σ → Bool × σ} {st : σ}
  {c : DefUseChain ν (List (ValuePath ν) × σ)} {p : ValuePath ν} {rest : List (ValuePath ν)} {v : ν}

/-- An iteration keeps what is logged, and logs the path that it pops. -/
lemma callback_of_iterate {c' : DefUseChain ν (List (ValuePath ν) × σ)}
    (h : iterate (userSearch users matchFn shouldSearch).logged c = .next c') :
    (c'.callback.1 = c.callback.1 ∧ c'.seenSet = c.seenSet) ∨
      ∃ p v, p.value = some v ∧ c'.callback.1 = c.callback.1 ++ [p] ∧
        c'.seenSet = insert v c.seenSet := by
  cases hw : c.workingSet with
  | nil => simp [iterate, hw] at h
  | cons p rest =>
    cases hv : p.value with
    | none =>
      simp only [iterate, hw, hv] at h
      cases h
      exact .inl ⟨rfl, rfl⟩
    | some v =>
      obtain ⟨st', ⟨-, hdone⟩ | ⟨-, hnext⟩⟩ :=
        exists_iterate users matchFn shouldSearch hw hv
      · rw [hdone] at h
        cases h
      · rw [hnext] at h
        cases h
        exact .inr ⟨p, v, hv, rfl, rfl⟩

/-- What was logged stays in the log. -/
lemma countP_le_loop [Fintype ν] (v : ν) (c : DefUseChain ν (List (ValuePath ν) × σ)) :
    c.callback.1.countP (endsIn v) ≤
      (loop (userSearch users matchFn shouldSearch).logged c).1.countP (endsIn v) := by
  refine loop_induction (P := fun c' => c.callback.1.countP (endsIn v) ≤
      c'.callback.1.countP (endsIn v))
    (Q := fun log => c.callback.1.countP (endsIn v) ≤ log.1.countP (endsIn v)) ?_ ?_ c le_rfl
  · intro c₁ c₂ hle hstep
    rcases callback_of_iterate hstep with ⟨hlog, -⟩ | ⟨p, w, -, hlog, -⟩
    · rwa [hlog]
    · rw [hlog, List.countP_append]
      exact hle.trans (Nat.le_add_right _ _)
  · intro c₁ log hle hdone
    cases hw : c₁.workingSet with
    | nil =>
      simp only [iterate, hw] at hdone
      cases hdone
      exact hle
    | cons p rest =>
      cases hv : p.value with
      | none => simp [iterate, hw, hv] at hdone
      | some w =>
        obtain ⟨st', ⟨-, hdone'⟩ | ⟨-, hnext⟩⟩ :=
          exists_iterate users matchFn shouldSearch hw hv
        · rw [hdone'] at hdone
          cases hdone
          rw [List.countP_append]
          exact hle.trans (Nat.le_add_right _ _)
        · rw [hnext] at hdone
          cases hdone

lemma Runs.loop_eq [Fintype ν] (h : Runs users matchFn shouldSearch start st c) :
    loop (userSearch users matchFn shouldSearch).logged (init start ([], st)) =
      loop (userSearch users matchFn shouldSearch).logged c := by
  induction h with
  | refl => rfl
  | tail _ hstep ih => rw [ih, loop_next hstep]

/-- A value that is popped is matched once more than it was. -/
lemma Runs.countP_lt [Fintype ν] (h : Runs users matchFn shouldSearch start st c)
    (hw : c.workingSet = p :: rest) (hv : p.value = some v) :
    c.callback.1.countP (endsIn v) <
      (matchCalls (userSearch users matchFn shouldSearch) start st).countP (endsIn v) := by
  have hends : endsIn v p = true := by simp [endsIn, hv]
  rw [matchCalls, doTraverse, h.loop_eq]
  obtain ⟨st', ⟨-, hdone⟩ | ⟨-, hnext⟩⟩ :=
    exists_iterate users matchFn shouldSearch hw hv
  · rw [loop_done hdone, List.countP_append, List.countP_singleton, if_pos hends]
    exact Nat.lt_succ_self _
  · rw [loop_next hnext]
    refine lt_of_lt_of_le ?_ (countP_le_loop v _)
    rw [List.countP_append, List.countP_singleton, if_pos hends]
    exact Nat.lt_succ_self _

/-- What is seen was matched. -/
lemma Runs.matched (h : Runs users matchFn shouldSearch start st c) :
    ∀ v ∈ c.seenSet, 0 < c.callback.1.countP (endsIn v) := by
  induction h with
  | refl => simp
  | tail _ hstep ih =>
    intro v hv
    rcases callback_of_iterate hstep with ⟨hlog, hseen⟩ | ⟨p, w, hw, hlog, hseen⟩
    · rw [hlog]
      exact ih v (hseen ▸ hv)
    · rw [hlog, List.countP_append]
      rw [hseen, Finset.mem_insert] at hv
      rcases hv with rfl | hv
      · have hends : endsIn v p = true := by simp [endsIn, hw]
        simp [hends]
      · exact Nat.add_pos_left (ih v hv) _

section Matched

variable [Fintype ν] (honce : ∀ v,
    (matchCalls (userSearch users matchFn shouldSearch) start st).countP (endsIn v) ≤ 1)
  (hfollows : Follows users matchFn shouldSearch start st answer)

include honce

/-- If each value is matched once, no value is popped that is seen. -/
lemma Runs.notMem_seenSet (h : Runs users matchFn shouldSearch start st c)
    (hw : c.workingSet = p :: rest) (hv : p.value = some v) : v ∉ c.seenSet := by
  intro hseen
  have hmatched := h.matched v hseen
  have hlt := h.countP_lt hw hv
  have hle := honce v
  omega

include hfollows

/-- The entries on top are popped with all that is reached from them. -/
lemma Runs.exists_drained (c : DefUseChain ν (List (ValuePath ν) × σ))
    (h : Runs users matchFn shouldSearch start st c) (top : List (ValuePath ν))
    (hw : c.workingSet = top ++ rest)
    (hcancel : NoCancel users answer c.seenSet (top.filterMap ValuePath.value)) :
    ∃ c', Runs users matchFn shouldSearch start st c' ∧ c'.workingSet = rest ∧
      (c'.seenSet : Set ν) = (c.seenSet : Set ν) ∪
        Reached users answer c.seenSet (top.filterMap ValuePath.value) := by
  match top with
  | [] => exact ⟨c, h, hw, by simp⟩
  | p :: top =>
    obtain ⟨v, hv⟩ := Option.ne_none_iff_exists'.mp (h.value_ne_none p (by simp [hw]))
    have hseen := h.notMem_seenSet honce hw hv
    have hdecides := hfollows c h p (top ++ rest) v hw hv hseen
    rw [List.filterMap_cons_some hv] at hcancel ⊢
    have hpop := reached_pop users answer (top.filterMap ValuePath.value) hseen
    have hanswer : answer v ≠ .kCancel := hcancel v (by rw [hpop]; exact .inl rfl)
    obtain ⟨st', ⟨hkCancel, -⟩ | ⟨-, hnext⟩⟩ :=
      exists_iterate users matchFn shouldSearch hw hv
    · exact absurd (hdecides ▸ hkCancel) hanswer
    rw [hdecides] at hnext
    generalize hpushed : (((if answer v = .kContinue then users v
      else []).filter (· ∉ insert v c.seenSet)).map p.add).reverse = pushed at hnext
    have hsame : Reached users answer (insert v c.seenSet : Finset ν)
        ((pushed ++ top).filterMap ValuePath.value) = Reached users answer (insert v c.seenSet)
          ((if answer v = .kContinue then users v else []) ++ top.filterMap ValuePath.value) := by
      rw [Finset.coe_insert]
      refine reached_congr fun a ha => ?_
      have hmem : a ∈ pushed.filterMap ValuePath.value ↔
          a ∈ if answer v = .kContinue then users v else [] := by
        rw [← hpushed, List.filterMap_reverse, List.mem_reverse, List.filterMap_map]
        have hid : ValuePath.value ∘ p.add = some := funext (ValuePath.value_add p)
        rw [hid, List.filterMap_some, List.mem_filter, decide_eq_true_eq]
        exact and_iff_left fun hin => ha (by simpa using hin)
      rw [List.filterMap_append, List.mem_append, List.mem_append, hmem]
    obtain ⟨c', hc', hrest, hseen'⟩ := Runs.exists_drained _ (h.tail hnext) (pushed ++ top)
      (List.append_assoc _ _ _).symm (by
        intro x hx
        rw [hsame] at hx
        exact hcancel x (by rw [hpop]; exact .inr hx))
    refine ⟨c', hc', hrest, ?_⟩
    rw [hseen', hsame, hpop, Finset.coe_insert, Set.insert_union, Set.union_insert]
termination_by c.measure
decreasing_by
  rw [hdecides] at hnext
  exact measure_lt_of_iterate hnext

/-- A user of a popped value is popped, once all that is reached from those behind it has been. -/
lemma Runs.exists_arrival (h : Runs users matchFn shouldSearch start st c)
    (hw : c.workingSet = p :: rest) (hv : p.value = some v) (hcont : answer v = .kContinue)
    {before after : List ν} {w : ν} (hsplit : users v = before ++ w :: after)
    (hpassed : w ∉ insert v (c.seenSet : Set ν))
    (hcancel : NoCancel users answer (insert v (c.seenSet : Set ν)) after) :
    ∃ c' p' rest', Runs users matchFn shouldSearch start st c' ∧ c'.workingSet = p' :: rest' ∧
      p'.value = some w ∧ (c'.seenSet : Set ν) = insert v (c.seenSet : Set ν) ∪
        Reached users answer (insert v (c.seenSet : Set ν)) after := by
  have hdecides := hfollows c h p rest v hw hv (h.notMem_seenSet honce hw hv)
  obtain ⟨st', ⟨hkCancel, -⟩ | ⟨-, hnext⟩⟩ :=
    exists_iterate users matchFn shouldSearch hw hv
  · rw [hdecides, hcont] at hkCancel
    cases hkCancel
  rw [hdecides, hcont, if_pos rfl] at hnext
  have hpassed' : w ∉ insert v c.seenSet := by simpa using hpassed
  have hwork : (((users v).filter (· ∉ insert v c.seenSet)).map p.add).reverse ++ rest =
      ((after.filter (· ∉ insert v c.seenSet)).map p.add).reverse ++ (p.add w ::
        (((before.filter (· ∉ insert v c.seenSet)).map p.add).reverse ++ rest)) := by
    rw [hsplit, List.filter_append, List.filter_cons_of_pos (by simpa using hpassed')]
    simp
  have hsame : Reached users answer (insert v c.seenSet : Finset ν)
      ((((after.filter (· ∉ insert v c.seenSet)).map p.add).reverse).filterMap ValuePath.value) =
        Reached users answer (insert v c.seenSet) after := by
    rw [Finset.coe_insert]
    refine reached_congr fun a ha => ?_
    rw [List.filterMap_reverse, List.mem_reverse, List.filterMap_map]
    have hid : ValuePath.value ∘ p.add = some := funext (ValuePath.value_add p)
    rw [hid, List.filterMap_some, List.mem_filter, decide_eq_true_eq]
    exact and_iff_left fun hin => ha (by simpa using hin)
  obtain ⟨c', hc', hrest, hseen⟩ := Runs.exists_drained honce hfollows _ (h.tail hnext) _ hwork (by
    intro x hx
    rw [hsame] at hx
    exact hcancel x hx)
  refine ⟨c', _, _, hc', hrest, ValuePath.value_add p w, ?_⟩
  rw [hseen, hsame, Finset.coe_insert]

/-- A chain of users is followed: its end is popped when what passed on it is seen. -/
lemma UserChain.exists_runs {passed : Set ν} (h : UserChain users answer start v passed) :
    ∃ c p rest, Runs users matchFn shouldSearch start st c ∧ c.workingSet = p :: rest ∧
      p.value = some v ∧ (c.seenSet : Set ν) = passed := by
  induction h with
  | start =>
    refine ⟨init start ([], st), .ofStart start, [], .refl, ?_, rfl, ?_⟩ <;> simp
  | next _ hcont hsplit hw hcancel _ ih =>
    obtain ⟨c, p, rest, hruns, hwork, hv, rfl⟩ := ih
    exact hruns.exists_arrival honce hfollows hwork hv hcont hsplit hw hcancel

/-- If each value is matched once, none arrives twice. -/
lemma arrivesOnce_of_matched : ArrivesOnce users answer start := by
  intro v passed hchain hcont before w after hsplit hw hcancel
  obtain ⟨c, p, rest, hruns, hwork, hv, rfl⟩ := hchain.exists_runs honce hfollows
  obtain ⟨c', p', rest', hruns', hwork', hw', hseen⟩ :=
    hruns.exists_arrival honce hfollows hwork hv hcont hsplit hw hcancel
  have hnot := hruns'.notMem_seenSet honce hwork' hw'
  rw [← Finset.mem_coe, hseen] at hnot
  exact fun hmem => hnot (.inr hmem)

end Matched

/-- What is popped later finds the value seen. -/
lemma mem_seenSet_of_iterates {c' : DefUseChain ν (List (ValuePath ν) × σ)}
    (h : ReflTransGen
      (fun c c' => iterate (userSearch users matchFn shouldSearch).logged c = .next c') c c')
    (hw : c.workingSet = p :: rest) (hv : p.value = some v) : c = c' ∨ v ∈ c'.seenSet := by
  induction h with
  | refl => exact .inl rfl
  | tail _ hstep ih =>
    right
    rcases ih with rfl | hseen
    · obtain ⟨st', ⟨-, hdone⟩ | ⟨-, hnext⟩⟩ :=
        exists_iterate users matchFn shouldSearch hw hv
      · rw [hdone] at hstep
        cases hstep
      · rw [hnext] at hstep
        cases hstep
        exact Finset.mem_insert_self v _
    · rcases callback_of_iterate hstep with ⟨-, hsame⟩ | ⟨_, _, -, -, hinsert⟩
      · rwa [hsame]
      · rw [hinsert]
        exact Finset.mem_insert_of_mem hseen

open Classical in
/-- All callbacks follow some answers, those that they give when a value is matched first. -/
lemma exists_follows (users : ν → List ν) (matchFn : ValuePath ν → σ → MatchResult × σ)
    (shouldSearch : ValuePath ν → σ → Bool × σ) (start : ν) (st : σ) :
    ∃ answer, Follows users matchFn shouldSearch start st answer := by
  let First (v : ν) (r : MatchResult) : Prop := ∃ c p rest,
    Runs users matchFn shouldSearch start st c ∧ c.workingSet = p :: rest ∧ p.value = some v ∧
      v ∉ c.seenSet ∧ decides matchFn shouldSearch p c.callback.2 = r
  -- of two states in which a value is matched first, neither comes before the other
  have hunique : ∀ v r r', First v r → First v r' → r = r' := by
    rintro v r r' ⟨c, p, rest, hruns, hw, hv, hseen, rfl⟩
      ⟨c', p', rest', hruns', hw', hv', hseen', rfl⟩
    have hdeterministic : Relator.RightUnique fun c c' : DefUseChain ν (List (ValuePath ν) × σ) =>
        iterate (userSearch users matchFn shouldSearch).logged c = .next c' :=
      fun _ _ _ h h' => Iteration.next.inj (h.symm.trans h')
    have hsame : c = c' := by
      rcases ReflTransGen.total_of_right_unique hdeterministic hruns hruns' with h | h
      · exact (mem_seenSet_of_iterates h hw hv).resolve_right hseen'
      · exact ((mem_seenSet_of_iterates h hw' hv').resolve_right hseen).symm
    subst hsame
    rw [hw] at hw'
    cases hw'
    rfl
  refine ⟨fun v => if h : ∃ r, First v r then h.choose else .kSkip, ?_⟩
  intro c hruns p rest v hw hv hseen
  have hfirst : First v _ := ⟨c, p, rest, hruns, hw, hv, hseen, rfl⟩
  have hex : ∃ r, First v r := ⟨_, hfirst⟩
  simp only [dif_pos hex]
  exact hunique v _ _ hfirst hex.choose_spec

end Twice

end DefUseChain

/-! ### The dimensions of a shape -/

namespace IRModule

variable {ι : Type*} [DecidableEq ν] [Fintype ν] (M : IRModule ι ν)

/-- The match callback of the shape search, by what the matched value is. -/
lemma shapesFromValue_eq (start : ν) :
    ∃ matchFn : ValuePath ν → Option ShapeData → MatchResult × Option ShapeData,
      M.shapesFromValue start = DefUseChain.doTraverse (DefUseChain.userSearch M.users matchFn
          fun _ st => (true, st)) start (some []) ∧
        ∀ p shapes, (matchFn p shapes).1 = .kContinue ∧
          (p.value.bind M.boundsOfCall = none → (matchFn p shapes).2 = shapes) ∧
          (p.value.bind M.boundsOfCall = some none → (matchFn p shapes).2 = none) ∧
          ∀ di, p.value.bind M.boundsOfCall = some (some di) →
            (matchFn p shapes).2 = shapes.map (· ++ [di]) := by
  refine ⟨_, rfl, fun p shapes => ⟨?_, fun h => ?_, fun h => ?_, fun di h => ?_⟩⟩
  · split <;> rfl
  all_goals simp only [h]

/-- The dimensions are those of calls that the traversal meets, in order. -/
lemma exists_calls_of_shapesFromValue (start : ν) :
    ∃ matchFn : ValuePath ν → Option ShapeData → MatchResult × Option ShapeData,
      (∀ p shapes, (matchFn p shapes).1 = .kContinue) ∧
      ∀ dims, M.shapesFromValue start = some dims →
        ∃ calls : List ν, calls.Sublist ((DefUseChain.matchCalls (DefUseChain.userSearch M.users
            matchFn fun _ st => (true, st)) start (some [])).filterMap ValuePath.value) ∧
          calls.map M.boundsOfCall = dims.map fun di => some (some di) := by
  obtain ⟨matchFn, hshapes, hmatch⟩ := M.shapesFromValue_eq start
  refine ⟨matchFn, fun p shapes => (hmatch p shapes).1, ?_⟩
  rw [hshapes, ← DefUseChain.doTraverse_logged]
  refine DefUseChain.doTraverse_invariant
    (P := fun r : List (ValuePath ν) × Option ShapeData => ∀ dims, r.2 = some dims →
      ∃ calls : List ν, calls.Sublist (r.1.filterMap ValuePath.value) ∧
        calls.map M.boundsOfCall = dims.map fun di => some (some di)) ?_ (fun _ _ h => h)
    (fun _ _ h => h) ?_ start
  · rintro p ⟨log, shapes⟩ h dims hdims
    obtain ⟨-, hnone, hmissing, hbounds⟩ := hmatch p shapes
    simp only [Search.logged, DefUseChain.userSearch] at h hdims ⊢
    rw [List.filterMap_append]
    cases hcall : p.value.bind M.boundsOfCall with
    | none =>
      rw [hnone hcall] at hdims
      obtain ⟨calls, hsub, hmap⟩ := h dims hdims
      exact ⟨calls, hsub.trans (List.sublist_append_left _ _), hmap⟩
    | some bounds =>
      cases bounds with
      | none =>
        rw [hmissing hcall] at hdims
        cases hdims
      | some di =>
        rw [hbounds di hcall] at hdims
        obtain ⟨dims', hdims', rfl⟩ := Option.map_eq_some_iff.mp hdims
        obtain ⟨calls, hsub, hmap⟩ := h dims' hdims'
        obtain ⟨v, hv, hvbounds⟩ := Option.bind_eq_some_iff.mp hcall
        refine ⟨calls ++ [v], ?_, ?_⟩
        · apply hsub.append
          simp [hv]
        · simp [hmap, hvbounds]
  · rintro dims ⟨⟩
    exact ⟨[], List.Sublist.refl [], rfl⟩

end IRModule

namespace DefUseChain

variable [DecidableEq ν]

/-- For any callbacks, each value is matched at most once exactly if none arrives twice on a chain
of users, by what the callbacks answer. The callback of a shape always goes on; then no call is
counted twice among the dimensions. -/
theorem matched_once_iff [Fintype ν] (users : ν → List ν) (start : ν) :
    (∀ (σ : Type u) (matchFn : ValuePath ν → σ → MatchResult × σ)
        (shouldSearch : ValuePath ν → σ → Bool × σ) (st : σ),
      (∃ answer, Follows users matchFn shouldSearch start st answer) ∧
        ∀ answer, Follows users matchFn shouldSearch start st answer →
          ((∀ v, (matchCalls (userSearch users matchFn shouldSearch) start st).countP
              (endsIn v) ≤ 1) ↔ ArrivesOnce users answer start)) ∧
      ∀ (ι : Type u) (M : IRModule ι ν), M.users = users →
        ArrivesOnce users (fun _ => .kContinue) start →
        ∀ dims, M.shapesFromValue start = some dims →
          ∃ calls : List ν, calls.Nodup ∧
            calls.map M.boundsOfCall = dims.map fun di => some (some di) := by
  refine ⟨fun σ matchFn shouldSearch st => ⟨exists_follows users matchFn shouldSearch start st, ?_⟩,
    ?_⟩
  · intro answer hfollows
    exact ⟨fun honce => arrivesOnce_of_matched honce hfollows,
      fun honce => countP_matchCalls_le_one honce hfollows⟩
  · rintro ι M rfl honce dims hdims
    obtain ⟨matchFn, hcontinues, hcalls⟩ := M.exists_calls_of_shapesFromValue start
    obtain ⟨calls, hsub, hmap⟩ := hcalls dims hdims
    refine ⟨calls, hsub.nodup ?_, hmap⟩
    rw [List.nodup_iff_count_le_one]
    intro v
    rw [List.count_filterMap]
    have hfollows : Follows M.users matchFn (fun _ st => (true, st)) start (some [])
        fun _ => .kContinue := by
      refine follows_of_values fun p st v hv => ?_
      have hcontinue := hcontinues p st
      rcases hm : matchFn p st with ⟨r, st'⟩
      rw [hm] at hcontinue
      obtain rfl : r = .kContinue := hcontinue
      simp [decides, hm]
    have hle := countP_matchCalls_le_one honce hfollows v
    exact (List.countP_congr (by simp [endsIn])).le.trans hle

/-- The lower bound of a dimension is read from the descriptor whose bounds are set: the value 0
is the descriptor, 1 the address of its field, 2 the bound read there, 3 the call, which uses the
descriptor and the bound. -/
def boundsFromDescriptor : IRModule (Fin 1) (Fin 6) where
  value
    | 0 => .alloca
    | 1 => .getElementPtr ⟨.struct [], 0, [some 0, some 7], []⟩
    | 2 => .load 1
    | 3 => .call .call (.function ⟨"_FortranAAllocatableSetBounds", none⟩) [0, 4, 2, 5] none
    | 4 => .constantInt 0
    | 5 => .constantInt 10
  users
    | 0 => [3, 1]
    | 1 => [2]
    | 2 => [3]
    | 3 => []
    | 4 => [3]
    | 5 => [3]
  mem_users := by decide
  debugLoc _ := none
  dbgRecords := []

/-- The call waits as a user of the descriptor and arrives again as one of the bound. -/
theorem boundsFromDescriptor_matched_twice :
    (matchCalls (userSearch boundsFromDescriptor.users (fun _ st => (.kContinue, st))
        fun _ st => (true, st)) 0 ()).countP (endsIn 3) = 2 ∧
      boundsFromDescriptor.shapesFromValue 0 = some [⟨0, 10⟩, ⟨0, 10⟩] := by
  have hlower : boundsFromDescriptor.getAsInt 2 = some (-1) := by
    have hconstant : boundsFromDescriptor.asConstantInt 2 = none := rfl
    simp only [IRModule.getAsInt, hconstant]
    refine congrArg (Option.map fun n => n.getD (-1)) (?_ : _ = some (none : Option ℤ))
    exact loop_eq_of_run 4 rfl
  have hcall : boundsFromDescriptor.boundsOfCall 3 = some (some ⟨0, 10⟩) := by
    have hvalue : boundsFromDescriptor.value 3 = .call .call
      (.function ⟨"_FortranAAllocatableSetBounds", none⟩) [0, 4, 2, 5] none := rfl
    have hstarts : startsWithAnyOf "_FortranAAllocatableSetBounds"
      ["_FortranAAllocatableSetBounds", "_FortranAPointerSetBounds"] = true := by decide
    simp only [IRModule.boundsOfCall, hvalue, Callee.calledFunction, hstarts, if_true,
      LLValue.operands, hlower]
    rfl
  have hbounds : boundsFromDescriptor.boundsOfCall =
      fun v => if v = 3 then some (some ⟨0, 10⟩) else none := by
    funext v
    fin_cases v <;> first | exact hcall | rfl
  have hcalls : doTraverse (userSearch boundsFromDescriptor.users (fun _ st => (.kContinue, st))
      fun _ st => (true, st)).logged 0 ([], ()) =
      ([⟨[0]⟩, ⟨[0, 1]⟩, ⟨[0, 1, 2]⟩, ⟨[0, 1, 2, 3]⟩, ⟨[0, 3]⟩], ()) := loop_eq_of_run 6 rfl
  refine ⟨?_, ?_⟩
  · rw [matchCalls, hcalls]
    rfl
  · rw [IRModule.shapesFromValue, hbounds]
    exact loop_eq_of_run 6 rfl

end DefUseChain

end Dimeta
