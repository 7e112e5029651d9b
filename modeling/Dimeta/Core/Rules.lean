import Dimeta.Core.Recursion

/-!
# Recursion by rules

A rule says how a query is answered: by the first answer among those of other queries, or by what
is made of all of their answers. What can be derived by the rules decides which queries a recursion
gets to, and it comes to an end exactly if no query that it reaches needs itself again.
-/

set_option autoImplicit false

namespace Recursion

variable {ε Q : Type} {A : Q → Type} {α : Type}

/-! ### Rules -/

/-- The element is in the list, and all before it satisfy `P`. -/
def ReachedIn (P : Q → Prop) (qs : List Q) (q : Q) : Prop :=
  ∃ before after, qs = before ++ q :: after ∧ ∀ x ∈ before, P x

/-- How a query is answered: by the first answer that one of the queries has, or from the answers of
all of them. -/
inductive Rule (ε Q α : Type) where
  | first (qs : List Q) (otherwise : Except ε (Option α))
  | all (qs : List Q) (finish : List (Option α) → Except ε (Option α))

/-- The queries that a rule names. -/
def Rule.queries : Rule ε Q α → List Q
  | .first qs _ => qs
  | .all qs _   => qs

section Derives

variable (rules : Q → Rule ε Q α)

/-- The rule for `q` names `q'`, whatever is derived. -/
def Names (q q' : Q) : Prop := q' ∈ (rules q).queries

/-- By the rules the query has the answer, or has none. -/
inductive Derives : Q → Option α → Prop
  | first {q q' : Q} {before after : List Q} {otherwise : Except ε (Option α)} {a : α}
      (hrule : rules q = .first (before ++ q' :: after) otherwise)
      (hbefore : ∀ x ∈ before, Derives x none) (h : Derives q' (some a)) : Derives q (some a)
  | otherwise {q : Q} {qs : List Q} {r : Option α} (hrule : rules q = .first qs (.ok r))
      (hqs : ∀ x ∈ qs, Derives x none) : Derives q r
  | all {q : Q} {qs : List Q} {finish : List (Option α) → Except ε (Option α)}
      {answers : Q → Option α} {r : Option α} (hrule : rules q = .all qs finish)
      (hqs : ∀ x ∈ qs, Derives x (answers x)) (h : finish (qs.map answers) = .ok r) : Derives q r

/-- The rule for `q` comes to `q'`: what it names before has no answer, or has not failed. -/
def Needs (q q' : Q) : Prop :=
  match rules q with
  | .first qs _ => ReachedIn (fun x => Derives rules x none) qs q'
  | .all qs _   => ReachedIn (fun x => ∃ r, Derives rules x r) qs q'

end Derives

section ReachedIn

variable {P P' : Q → Prop} {q x : Q} {qs : List Q}

lemma not_reachedIn_nil : ¬ ReachedIn P [] q := by
  rintro ⟨before, after, h, -⟩
  cases before with
  | nil => cases h
  | cons => cases h

lemma reachedIn_cons_iff : ReachedIn P (x :: qs) q ↔ q = x ∨ P x ∧ ReachedIn P qs q := by
  constructor
  · rintro ⟨before, after, h, hbefore⟩
    cases before with
    | nil =>
      cases h
      exact .inl rfl
    | cons y before =>
      cases h
      exact .inr ⟨hbefore x List.mem_cons_self, before, after, rfl,
        fun y hy => hbefore y (List.mem_cons_of_mem x hy)⟩
  · rintro (rfl | ⟨hx, before, after, rfl, hbefore⟩)
    · exact ⟨[], qs, rfl, by simp⟩
    · refine ⟨x :: before, after, rfl, fun y hy => ?_⟩
      rcases List.mem_cons.mp hy with rfl | hy
      · exact hx
      · exact hbefore y hy

lemma ReachedIn.mem (h : ReachedIn P qs q) : q ∈ qs := by
  obtain ⟨before, after, rfl, -⟩ := h
  simp

end ReachedIn

/-- A rule comes only to queries that it names. -/
lemma Needs.names {rules : Q → Rule ε Q α} {q q' : Q} (h : Needs rules q q') :
    Names rules q q' := by
  rw [Needs] at h
  rw [Names]
  cases hrule : rules q with
  | first qs otherwise =>
    rw [hrule] at h
    exact ReachedIn.mem h
  | all qs finish =>
    rw [hrule] at h
    exact ReachedIn.mem h

/-! ### Computations by rules -/

namespace Asking

section Search

variable (entry : (q : Q) → A q → Option α)

/-- Ask the queries in order, up to the first with an answer. -/
def askFirst (otherwise : Except ε (Option α)) : List Q → Asking ε A (Option α)
  | []      => ofExcept otherwise
  | q :: qs => do
    match entry q (← query q) with
    | some a => pure (some a)
    | none   => askFirst otherwise qs

/-- Ask all queries, for a value that is made of the answers. -/
def askAll (finish : List (Option α) → Except ε (Option α)) : List Q → Asking ε A (Option α)
  | []      => ofExcept (finish [])
  | q :: qs => do
    let a ← query q
    askAll (fun answers => finish (entry q a :: answers)) qs

/-- What the rule asks for. -/
def byRule : Rule ε Q α → Asking ε A (Option α)
  | .first qs otherwise => askFirst entry otherwise qs
  | .all qs finish      => askAll entry finish qs

end Search

end Asking

/-- Each body goes by the rule for its query, as far as the entries of the answers tell. -/
def Obeys (body : (q : Q) → Asking ε A (A q)) (entry : (q : Q) → A q → Option α)
    (rules : Q → Rule ε Q α) : Prop :=
  ∀ q, (do return entry q (← body q)) = Asking.byRule entry (rules q)

/-! ### Outcomes -/

namespace Asking

section Outcomes

variable {entry : (q : Q) → A q → Option α} {h : (q : Q) → Option (Except ε (A q))} {r : Option α}

/-- The outcome of the query is an answer with this entry. -/
def Enters (entry : (q : Q) → A q → Option α) (h : (q : Q) → Option (Except ε (A q))) (q : Q)
    (r : Option α) : Prop := ∃ a, h q = some (.ok a) ∧ entry q a = r

lemma run_askFirst_eq_ok {otherwise : Except ε (Option α)} {qs : List Q} :
    (askFirst entry otherwise qs).run h = some (.ok r) ↔
      (∃ before q after a, qs = before ++ q :: after ∧ (∀ x ∈ before, Enters entry h x none) ∧
        Enters entry h q (some a) ∧ r = some a) ∨
      (∀ x ∈ qs, Enters entry h x none) ∧ otherwise = .ok r := by
  induction qs with
  | nil => simp [askFirst]
  | cons q qs ih =>
    simp only [askFirst, run_bind, run_query, andThen_eq_ok]
    constructor
    · rintro ⟨a, ha, hr⟩
      cases hentry : entry q a with
      | some b =>
        rw [hentry] at hr
        cases hr
        exact .inl ⟨[], q, qs, b, rfl, by simp, ⟨a, ha, hentry⟩, rfl⟩
      | none =>
        rw [hentry] at hr
        have hq : Enters entry h q none := ⟨a, ha, hentry⟩
        rcases ih.mp hr with ⟨before, q', after, b, rfl, hbefore, hq', hb⟩ | ⟨hqs, hr⟩
        · exact .inl ⟨q :: before, q', after, b, rfl, List.forall_mem_cons.mpr ⟨hq, hbefore⟩, hq',
            hb⟩
        · exact .inr ⟨List.forall_mem_cons.mpr ⟨hq, hqs⟩, hr⟩
    · rintro (⟨before, q', after, b, hsplit, hbefore, hq', rfl⟩ | ⟨hqs, hr⟩)
      · cases before with
        | nil =>
          cases hsplit
          obtain ⟨a, ha, hentry⟩ := hq'
          exact ⟨a, ha, by rw [hentry]; rfl⟩
        | cons x before =>
          cases hsplit
          obtain ⟨⟨a, ha, hentry⟩, hbefore⟩ := List.forall_mem_cons.mp hbefore
          refine ⟨a, ha, ?_⟩
          rw [hentry]
          exact ih.mpr (.inl ⟨before, q', after, b, rfl, hbefore, hq', rfl⟩)
      · obtain ⟨⟨a, ha, hentry⟩, hqs⟩ := List.forall_mem_cons.mp hqs
        refine ⟨a, ha, ?_⟩
        rw [hentry]
        exact ih.mpr (.inr ⟨hqs, hr⟩)

/-- The entry of the answer to a query, if it is answered. -/
def entryOf (entry : (q : Q) → A q → Option α) (h : (q : Q) → Option (Except ε (A q))) (q : Q) :
    Option α :=
  match h q with
  | some (.ok a) => entry q a
  | _            => none

lemma entryOf_eq {q : Q} (hq : Enters entry h q r) : entryOf entry h q = r := by
  obtain ⟨a, ha, rfl⟩ := hq
  rw [entryOf, ha]

lemma run_askAll_eq_ok {finish : List (Option α) → Except ε (Option α)} {qs : List Q} :
    (askAll entry finish qs).run h = some (.ok r) ↔
      (∀ x ∈ qs, Enters entry h x (entryOf entry h x)) ∧
        finish (qs.map (entryOf entry h)) = .ok r := by
  induction qs generalizing finish with
  | nil => simp [askAll]
  | cons q qs ih =>
    simp only [askAll, run_bind, run_query, andThen_eq_ok, ih, List.forall_mem_cons, List.map_cons]
    constructor
    · rintro ⟨a, ha, hqs, hr⟩
      have hentry : entryOf entry h q = entry q a := entryOf_eq ⟨a, ha, rfl⟩
      exact ⟨⟨⟨a, ha, hentry.symm⟩, hqs⟩, by rw [hentry, hr]⟩
    · rintro ⟨⟨⟨a, ha, hentry⟩, hqs⟩, hr⟩
      exact ⟨a, ha, hqs, by rw [hentry, hr]⟩

end Outcomes

end Asking

/-! ### The answers are what the rules derive -/

section Obeys

variable {body : (q : Q) → Asking ε A (A q)} {entry : (q : Q) → A q → Option α}
  {rules : Q → Rule ε Q α} {q q' : Q} {r : Option α}

lemma Obeys.enters_succ_iff (hobeys : Obeys body entry rules) {depth : ℕ} :
    Asking.Enters entry (solve body (depth + 1)) q r ↔
      (Asking.byRule entry (rules q)).run (solve body depth) = some (.ok r) := by
  rw [← hobeys q, Asking.run_bind, Asking.andThen_eq_ok]
  simp [Asking.Enters, solve]

/-- Soundness, by induction on the depth. -/
lemma Obeys.derives_of_enters (hobeys : Obeys body entry rules) {depth : ℕ}
    (h : Asking.Enters entry (solve body depth) q r) : Derives rules q r := by
  induction depth generalizing q r with
  | zero =>
    obtain ⟨a, ha, -⟩ := h
    cases ha
  | succ depth ih =>
    rw [hobeys.enters_succ_iff] at h
    cases hrule : rules q with
    | first qs otherwise =>
      rw [hrule, Asking.byRule, Asking.run_askFirst_eq_ok] at h
      rcases h with ⟨before, q', after, a, rfl, hbefore, hq', rfl⟩ | ⟨hqs, rfl⟩
      · exact .first hrule (fun x hx => ih (hbefore x hx)) (ih hq')
      · exact .otherwise hrule fun x hx => ih (hqs x hx)
    | all qs finish =>
      rw [hrule, Asking.byRule, Asking.run_askAll_eq_ok] at h
      exact .all hrule (fun x hx => ih (h.1 x hx)) h.2

lemma Asking.Enters.mono {depth depth' : ℕ} (hle : depth ≤ depth')
    (h : Asking.Enters entry (solve body depth) q r) :
    Asking.Enters entry (solve body depth') q r := by
  obtain ⟨a, ha, hentry⟩ := h
  exact ⟨a, solve_mono hle ha, hentry⟩

/-- Finitely many answers are there at one depth. -/
lemma exists_depth {qs : List Q} {answers : Q → Option α}
    (h : ∀ x ∈ qs, ∃ depth, Asking.Enters entry (solve body depth) x (answers x)) :
    ∃ depth, ∀ x ∈ qs, Asking.Enters entry (solve body depth) x (answers x) := by
  induction qs with
  | nil => exact ⟨0, by simp⟩
  | cons q qs ih =>
    obtain ⟨⟨depth, hq⟩, hqs⟩ := List.forall_mem_cons.mp h
    obtain ⟨depth', hqs⟩ := ih hqs
    refine ⟨max depth depth', List.forall_mem_cons.mpr ⟨?_, fun x hx => ?_⟩⟩
    · exact hq.mono (Nat.le_max_left depth depth')
    · exact (hqs x hx).mono (Nat.le_max_right depth depth')

/-- Completeness, by induction on the derivation. -/
lemma Obeys.exists_enters (hobeys : Obeys body entry rules) (h : Derives rules q r) :
    ∃ depth, Asking.Enters entry (solve body depth) q r := by
  induction h with
  | @first q q' before after otherwise a hrule _ _ ihbefore ih =>
    obtain ⟨depth, hbefore⟩ := exists_depth ihbefore
    obtain ⟨depth', hq'⟩ := ih
    refine ⟨max depth depth' + 1, hobeys.enters_succ_iff.mpr ?_⟩
    rw [hrule, Asking.byRule, Asking.run_askFirst_eq_ok]
    exact .inl ⟨before, q', after, a, rfl,
      fun x hx => (hbefore x hx).mono (Nat.le_max_left depth depth'),
      hq'.mono (Nat.le_max_right depth depth'), rfl⟩
  | otherwise hrule _ ih =>
    obtain ⟨depth, hqs⟩ := exists_depth ih
    refine ⟨depth + 1, hobeys.enters_succ_iff.mpr ?_⟩
    rw [hrule, Asking.byRule, Asking.run_askFirst_eq_ok]
    exact .inr ⟨hqs, rfl⟩
  | @all q qs finish answers r hrule _ h ih =>
    obtain ⟨depth, hqs⟩ := exists_depth ih
    refine ⟨depth + 1, hobeys.enters_succ_iff.mpr ?_⟩
    have hanswers : ∀ x ∈ qs, answers x = Asking.entryOf entry (solve body depth) x :=
      fun x hx => (Asking.entryOf_eq (hqs x hx)).symm
    rw [hrule, Asking.byRule, Asking.run_askAll_eq_ok, ← List.map_congr_left hanswers]
    exact ⟨fun x hx => hanswers x hx ▸ hqs x hx, h⟩

/-- The answers are what the rules derive. -/
theorem Obeys.derives_iff (hobeys : Obeys body entry rules) :
    Derives rules q r ↔ ∃ a, Answers body q a ∧ entry q a = r := by
  constructor
  · intro h
    obtain ⟨depth, a, ha, hentry⟩ := hobeys.exists_enters h
    exact ⟨a, ⟨depth, ha⟩, hentry⟩
  · rintro ⟨a, ⟨depth, ha⟩, hentry⟩
    exact hobeys.derives_of_enters ⟨a, ha, hentry⟩

/-! ### Where the recursion ends -/

lemma Asking.asks_askFirst_iff (hobeys : Obeys body entry rules) {otherwise : Except ε (Option α)}
    {qs : List Q} : (askFirst entry otherwise qs).Asks body q' ↔
      ReachedIn (fun x => Derives rules x none) qs q' := by
  induction qs with
  | nil => exact iff_of_false not_asks_ofExcept not_reachedIn_nil
  | cons q qs ih =>
    rw [reachedIn_cons_iff, askFirst, asks_bind_iff, asks_query_iff, hobeys.derives_iff, ← ih]
    refine or_congr_right ⟨?_, ?_⟩
    · rintro ⟨a, ha, h⟩
      cases hentry : entry q a with
      | some b =>
        rw [hentry] at h
        exact absurd h not_asks_pure
      | none =>
        rw [hentry] at h
        exact ⟨⟨a, yields_query_iff.mp ha, hentry⟩, h⟩
    · rintro ⟨⟨a, ha, hentry⟩, h⟩
      refine ⟨a, yields_query_iff.mpr ha, ?_⟩
      rw [hentry]
      exact h

lemma Asking.asks_askAll_iff (hobeys : Obeys body entry rules)
    {finish : List (Option α) → Except ε (Option α)} {qs : List Q} :
    (askAll entry finish qs).Asks body q' ↔
      ReachedIn (fun x => ∃ r, Derives rules x r) qs q' := by
  induction qs generalizing finish with
  | nil => exact iff_of_false not_asks_ofExcept not_reachedIn_nil
  | cons q qs ih =>
    simp only [reachedIn_cons_iff, askAll, asks_bind_iff, asks_query_iff, hobeys.derives_iff, ih]
    refine or_congr_right ⟨?_, ?_⟩
    · rintro ⟨a, ha, h⟩
      exact ⟨⟨_, a, yields_query_iff.mp ha, rfl⟩, by simpa [hobeys.derives_iff] using h⟩
    · rintro ⟨⟨_, a, ha, -⟩, h⟩
      exact ⟨a, yields_query_iff.mpr ha, by simpa [hobeys.derives_iff] using h⟩

/-- The bodies ask for what the rules come to. -/
lemma Obeys.calls_iff_needs (hobeys : Obeys body entry rules) :
    Calls body q q' ↔ Needs rules q q' := by
  have hbody : (body q).Asks body q' ↔ (Asking.byRule entry (rules q)).Asks body q' := by
    rw [← hobeys q]
    exact (Asking.asks_bind_of_silent fun _ => Asking.not_asks_pure).symm
  rw [Calls, hbody, Needs]
  cases rules q with
  | first qs otherwise => exact Asking.asks_askFirst_iff hobeys
  | all qs finish => exact Asking.asks_askAll_iff hobeys

/-- A recursion that can only reach finitely many queries comes to an end exactly if none that it
reaches needs itself again. -/
theorem Obeys.ends_iff_no_cycle (hobeys : Obeys body entry rules)
    (hfinite : {q' | Relation.ReflTransGen (Needs rules) q q'}.Finite) :
    Ends body q ↔ ∀ q', Relation.ReflTransGen (Needs rules) q q' →
      ¬ Relation.TransGen (Needs rules) q' q' := by
  have hcalls : Calls body = Needs rules := by
    funext q q'
    exact propext hobeys.calls_iff_needs
  rw [ends_iff_acc, hcalls]
  exact acc_iff_no_cycle hfinite

/-- It is enough that none is named again. -/
theorem Obeys.ends_of_no_cycle (hobeys : Obeys body entry rules)
    (hfinite : {q' | Relation.ReflTransGen (Needs rules) q q'}.Finite)
    (h : ∀ q', Relation.ReflTransGen (Names rules) q q' →
      ¬ Relation.TransGen (Names rules) q' q') : Ends body q := by
  rw [hobeys.ends_iff_no_cycle hfinite]
  intro q' hreach hcycle
  have hnames : ∀ q q', Needs rules q q' → Names rules q q' := fun _ _ => Needs.names
  exact h q' (Relation.ReflTransGen.mono hnames _ _ hreach)
    (Relation.TransGen.mono hnames _ _ hcycle)

end Obeys

end Recursion
