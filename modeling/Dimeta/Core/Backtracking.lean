import Dimeta.Core.Recursion

/-!
# Searches that backtrack

A search for a query tries the queries below it, in order, and takes the first answer; without one
it falls back on what the query itself says. A failure counts as an answer, it ends the search. The
recursion ends exactly if the queries that are tried are well founded: those with no answered query
before them.
-/

set_option autoImplicit false

namespace Backtracking

variable {Q ε α : Type}

/-- The outcome that has an answer or is a failure. -/
def Settles : Except ε (Option α) → Prop
  | .ok none => False
  | _        => True

/-- The first outcome that settles a search, if all before it come to an end. -/
def firstAnswer (search : Q → Option (Except ε (Option α))) (otherwise : Except ε (Option α)) :
    List Q → Option (Except ε (Option α))
  | []      => some otherwise
  | q :: qs =>
    match search q with
    | none            => none
    | some (.ok none) => firstAnswer search otherwise qs
    | some answer     => some answer

variable (below : Q → List Q) (otherwise : Q → Except ε (Option α))

/-- The search, with recursion to the given depth. -/
def searchTo : ℕ → Q → Option (Except ε (Option α))
  | 0, _         => none
  | depth + 1, q => firstAnswer (searchTo depth) (otherwise q) (below q)

/-- The search for the query ends. -/
def Ends (q : Q) : Prop := ∃ depth r, searchTo below otherwise depth q = some r

/-- The query has an answer: of its own, or that of a query below. -/
inductive Answered : Q → Prop
  | own {q : Q} (h : Settles (otherwise q)) : Answered q
  | inner {q q' : Q} (hq' : q' ∈ below q) (h : Answered q') : Answered q

/-- The query `q'` is tried for `q`: none of those before it has an answer. -/
def Tries (q q' : Q) : Prop :=
  ∃ before after, below q = before ++ q' :: after ∧ ∀ x ∈ before, ¬ Answered below otherwise x

variable {below otherwise}

lemma firstAnswer_mono {search search' : Q → Option (Except ε (Option α))}
    (hle : ∀ q r, search q = some r → search' q = some r) {rest r : Except ε (Option α)}
    {qs : List Q} (h : firstAnswer search rest qs = some r) :
    firstAnswer search' rest qs = some r := by
  induction qs with
  | nil => exact h
  | cons q qs ih =>
    simp only [firstAnswer] at h ⊢
    cases hq : search q with
    | none =>
      rw [hq] at h
      cases h
    | some answer =>
      rw [hle q answer hq]
      rw [hq] at h
      rcases answer with e | _ | a
      · exact h
      · exact ih h
      · exact h

lemma searchTo_mono {depth depth' : ℕ} (hle : depth ≤ depth') {q : Q} {r : Except ε (Option α)}
    (h : searchTo below otherwise depth q = some r) :
    searchTo below otherwise depth' q = some r := by
  induction depth generalizing depth' q r with
  | zero => cases h
  | succ depth ih =>
    obtain ⟨depth', rfl⟩ := Nat.exists_eq_succ_of_ne_zero (Nat.ne_zero_of_lt hle)
    exact firstAnswer_mono (fun _ _ hq => ih (Nat.le_of_succ_le_succ hle) hq) h

/-- Where the queries of a list come to their answers, so does the first answer. -/
lemma firstAnswer_settles_iff {search : Q → Option (Except ε (Option α))} {P : Q → Prop}
    {rest r : Except ε (Option α)} {qs : List Q} (h : firstAnswer search rest qs = some r)
    (hsearch : ∀ q ∈ qs, ∀ r, search q = some r → (Settles r ↔ P q)) :
    Settles r ↔ (∃ q ∈ qs, P q) ∨ Settles rest := by
  induction qs with
  | nil =>
    cases h
    simp
  | cons q qs ih =>
    simp only [firstAnswer] at h
    cases hq : search q with
    | none =>
      rw [hq] at h
      cases h
    | some answer =>
      have hP := hsearch q (by simp) answer hq
      rw [hq] at h
      rcases answer with e | _ | a
      · cases h
        have hq : P q := hP.mp trivial
        exact iff_of_true trivial (.inl ⟨q, by simp, hq⟩)
      · have hq : ¬ P q := fun hq => hP.mpr hq
        rw [ih h fun q hq => hsearch q (by simp [hq])]
        simp [hq]
      · cases h
        have hq : P q := hP.mp trivial
        exact iff_of_true trivial (.inl ⟨q, by simp, hq⟩)

lemma answered_iff {q : Q} : Answered below otherwise q ↔
    (∃ q' ∈ below q, Answered below otherwise q') ∨ Settles (otherwise q) := by
  constructor
  · rintro (h | ⟨hq', h⟩)
    · exact .inr h
    · exact .inl ⟨_, hq', h⟩
  · rintro (⟨q', hq', h⟩ | h)
    · exact .inner hq' h
    · exact .own h

/-- A search that ends has found an answer exactly if there is one. -/
theorem settles_iff_answered {depth : ℕ} {q : Q} {r : Except ε (Option α)}
    (h : searchTo below otherwise depth q = some r) :
    Settles r ↔ Answered below otherwise q := by
  induction depth generalizing q r with
  | zero => cases h
  | succ depth ih =>
    rw [firstAnswer_settles_iff h fun q _ r hr => ih hr, answered_iff]

lemma answered_iff_exists {q : Q} : Answered below otherwise q ↔
    ∃ q', Relation.ReflTransGen (fun q q' => q' ∈ below q) q q' ∧ Settles (otherwise q') := by
  constructor
  · intro h
    induction h with
    | own h => exact ⟨_, .refl, h⟩
    | inner hq' _ ih =>
      obtain ⟨x, hx, hsettles⟩ := ih
      exact ⟨x, .head hq' hx, hsettles⟩
  · rintro ⟨q', hq', hsettles⟩
    induction hq' using Relation.ReflTransGen.head_induction_on with
    | refl => exact .own hsettles
    | head hq' _ ih => exact .inner hq' ih

/-- The first answer is that of a query with none before it, or else what is said otherwise. -/
lemma exists_of_firstAnswer {search : Q → Option (Except ε (Option α))}
    {rest r : Except ε (Option α)} {qs : List Q} (h : firstAnswer search rest qs = some r) :
    (∃ before q after, qs = before ++ q :: after ∧ (∀ x ∈ before, search x = some (.ok none)) ∧
      search q = some r) ∨ (rest = r ∧ ∀ x ∈ qs, search x = some (.ok none)) := by
  induction qs with
  | nil => exact .inr ⟨Option.some.inj h, by simp⟩
  | cons q qs ih =>
    simp only [firstAnswer] at h
    cases hq : search q with
    | none =>
      rw [hq] at h
      cases h
    | some answer =>
      rw [hq] at h
      rcases answer with e | _ | a
      · exact .inl ⟨[], q, qs, rfl, by simp, hq.trans h⟩
      · rcases ih h with ⟨before, q', after, rfl, hbefore, hq'⟩ | ⟨hrest, hqs⟩
        · exact .inl ⟨q :: before, q', after, rfl, by simpa using ⟨hq, hbefore⟩, hq'⟩
        · exact .inr ⟨hrest, by simpa using ⟨hq, hqs⟩⟩
      · exact .inl ⟨[], q, qs, rfl, by simp, hq.trans h⟩

/-- The outcome of a search is what some query says itself, which the search comes to by trying and
below which there is no answer. -/
theorem exists_tried {depth : ℕ} {q : Q} {r : Except ε (Option α)}
    (h : searchTo below otherwise depth q = some r) :
    ∃ q', Relation.ReflTransGen (Tries below otherwise) q q' ∧ otherwise q' = r ∧
      ∀ x ∈ below q', ¬ Answered below otherwise x := by
  induction depth generalizing q with
  | zero => cases h
  | succ depth ih =>
    have hnone : ∀ x, searchTo below otherwise depth x = some (.ok none) →
        ¬ Answered below otherwise x := fun x hx hanswered =>
      (settles_iff_answered hx).mpr hanswered
    rcases exists_of_firstAnswer h with ⟨before, q', after, hbelow, hbefore, hq'⟩ | ⟨hown, hqs⟩
    · obtain ⟨x, hreach, hx⟩ := ih hq'
      have htries : Tries below otherwise q q' :=
        ⟨before, after, hbelow, fun y hy => hnone y (hbefore y hy)⟩
      exact ⟨x, .head htries hreach, hx⟩
    · exact ⟨q, .refl, hown, fun x hx => hnone x (hqs x hx)⟩

/-- What is tried has come to its end one level below. -/
lemma exists_searchTo_of_tries {depth : ℕ} {q q' : Q} {r : Except ε (Option α)}
    (h : searchTo below otherwise (depth + 1) q = some r) (hq' : Tries below otherwise q q') :
    ∃ r', searchTo below otherwise depth q' = some r' := by
  obtain ⟨before, after, hbelow, hbefore⟩ := hq'
  rw [searchTo, hbelow] at h
  clear hbelow
  induction before with
  | nil =>
    simp only [List.nil_append, firstAnswer] at h
    cases hr : searchTo below otherwise depth q' with
    | none =>
      rw [hr] at h
      cases h
    | some r' => exact ⟨r', rfl⟩
  | cons x before ih =>
    simp only [List.cons_append, firstAnswer] at h
    have hx := hbefore x (by simp)
    cases hr : searchTo below otherwise depth x with
    | none =>
      rw [hr] at h
      cases h
    | some answer =>
      have hsettles := settles_iff_answered hr
      rw [hr] at h
      rcases answer with e | _ | a
      · exact absurd (hsettles.mp trivial) hx
      · exact ih h fun x hx => hbefore x (by simp [hx])
      · exact absurd (hsettles.mp trivial) hx

/-- Conversely, if all that is tried comes to an end, so does the list. -/
lemma exists_firstAnswer (rest : Except ε (Option α)) {qs : List Q}
    (h : ∀ before q after, qs = before ++ q :: after →
      (∀ x ∈ before, ¬ Answered below otherwise x) → Ends below otherwise q) :
    ∃ depth r, firstAnswer (searchTo below otherwise depth) rest qs = some r := by
  induction qs with
  | nil => exact ⟨0, rest, rfl⟩
  | cons q qs ih =>
    obtain ⟨depth, answer, hanswer⟩ := h [] q qs rfl (by simp)
    have hsettles := settles_iff_answered hanswer
    rcases answer with e | _ | a
    · exact ⟨depth, .error e, by simp [firstAnswer, hanswer]⟩
    · have hq : ¬ Answered below otherwise q := fun hq => hsettles.mpr hq
      obtain ⟨depth', r, hr⟩ := ih fun before q' after hqs hbefore =>
        h (q :: before) q' after (by rw [hqs]; rfl) (by simpa using ⟨hq, hbefore⟩)
      refine ⟨max depth depth', r, ?_⟩
      rw [firstAnswer, searchTo_mono (Nat.le_max_left depth depth') hanswer]
      exact firstAnswer_mono (fun _ _ => searchTo_mono (Nat.le_max_right depth depth')) hr
    · exact ⟨depth, .ok (some a), by simp [firstAnswer, hanswer]⟩

/-- The search ends exactly if trying is well founded below the query. -/
theorem ends_iff_acc {q : Q} :
    Ends below otherwise q ↔ Acc (fun q' q => Tries below otherwise q q') q := by
  constructor
  · rintro ⟨depth, r, h⟩
    induction depth generalizing q r with
    | zero => cases h
    | succ depth ih =>
      refine ⟨q, fun q' hq' => ?_⟩
      obtain ⟨r', hr'⟩ := exists_searchTo_of_tries h hq'
      exact ih _ hr'
  · intro h
    induction h with
    | intro q _ ih =>
      obtain ⟨depth, r, hr⟩ := exists_firstAnswer (otherwise q) fun before q' after hq h =>
        ih q' ⟨before, after, hq, h⟩
      exact ⟨depth + 1, r, hr⟩

/-- Where only finitely many queries are below others, the search ends exactly if no query that it
reaches is tried for itself again. -/
theorem ends_iff_no_cycle {q : Q} (hfinite : {q' | ∃ q, q' ∈ below q}.Finite) :
    Ends below otherwise q ↔ ∀ q', Relation.ReflTransGen (Tries below otherwise) q q' →
      ¬ Relation.TransGen (Tries below otherwise) q' q' := by
  rw [ends_iff_acc, Recursion.acc_iff_no_cycle]
  refine (hfinite.insert q).subset fun q' hq' => ?_
  rcases Relation.ReflTransGen.cases_tail hq' with rfl | ⟨q'', _, before, after, hbelow, -⟩
  · exact Set.mem_insert _ _
  · exact Set.mem_insert_of_mem _ ⟨q'', by simp [hbelow]⟩

end Backtracking
