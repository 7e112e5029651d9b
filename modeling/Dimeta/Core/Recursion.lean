import Mathlib.Logic.Relation
import Mathlib.Order.WellFounded
import Mathlib.Data.Set.Finite.Basic
import Mathlib.Data.Fintype.Order
import Mathlib.Tactic

/-!
# Mutual recursion

Mutually recursive functions are given by a body for each query, which asks other queries and may
fail. Bodies are evaluated to a depth. An evaluation ends exactly if the query is accessible under
the relation "is asked for by", and over finitely many queries exactly if no query that is reached
asks for itself.
-/

set_option autoImplicit false

namespace Recursion

variable {ε Q : Type} {A : Q → Type} {α β : Type}

/-! ### Computations that ask -/

/-- A computation that may ask queries, each with a type of answers, and may fail. -/
inductive Asking (ε : Type) {Q : Type} (A : Q → Type) (α : Type) where
  | pure (a : α)
  | fail (e : ε)
  | ask (q : Q) (k : A q → Asking ε A α)

namespace Asking

def bind : Asking ε A α → (α → Asking ε A β) → Asking ε A β
  | .pure a, f  => f a
  | .fail e, _  => .fail e
  | .ask q k, f => .ask q fun a => (k a).bind f

instance : Monad (Asking ε A) where
  pure := .pure
  bind := bind

instance : LawfulMonad (Asking ε A) := by
  refine LawfulMonad.mk' _ ?_ (fun _ _ => rfl) ?_
  · intro α p
    show p.bind .pure = p
    induction p with
    | pure a => rfl
    | fail e => rfl
    | ask q k ih => exact congrArg (Asking.ask q) (funext ih)
  · intro α β γ p f g
    show (p.bind f).bind g = p.bind fun a => (f a).bind g
    induction p with
    | pure a => rfl
    | fail e => rfl
    | ask q k ih => exact congrArg (Asking.ask q) (funext ih)

/-- Ask a query for its answer. -/
def query (q : Q) : Asking ε A (A q) := .ask q .pure

def ofExcept : Except ε α → Asking ε A α
  | .ok a    => .pure a
  | .error e => .fail e

/-- The outcome of a computation: none if a query has no outcome. -/
def run (h : (q : Q) → Option (Except ε (A q))) : Asking ε A α → Option (Except ε α)
  | .pure a  => some (.ok a)
  | .fail e  => some (.error e)
  | .ask q k =>
    match h q with
    | none            => none
    | some (.error e) => some (.error e)
    | some (.ok a)    => (k a).run h

/-- Go on with the value of an outcome. -/
def andThen (r : Option (Except ε α)) (f : α → Option (Except ε β)) : Option (Except ε β) :=
  match r with
  | none            => none
  | some (.error e) => some (.error e)
  | some (.ok a)    => f a

section Run

variable (h : (q : Q) → Option (Except ε (A q)))

@[simp] lemma run_pure (a : α) : (Pure.pure a : Asking ε A α).run h = some (.ok a) := rfl

@[simp] lemma run_fail (e : ε) : (fail e : Asking ε A α).run h = some (.error e) := rfl

lemma run_bind (p : Asking ε A α) (f : α → Asking ε A β) :
    (p >>= f).run h = andThen (p.run h) fun a => (f a).run h := by
  induction p with
  | pure a => rfl
  | fail e => rfl
  | ask q k ih =>
    show (Asking.ask q fun a => (k a).bind f).run h = _
    simp only [run]
    cases h q with
    | none => rfl
    | some r =>
      cases r with
      | error e => rfl
      | ok a => exact ih a

@[simp] lemma run_query (q : Q) : (query q : Asking ε A (A q)).run h = h q := by
  simp only [query, run]
  cases h q with
  | none => rfl
  | some r => cases r <;> rfl

@[simp] lemma run_ofExcept (x : Except ε α) : (ofExcept x : Asking ε A α).run h = some x := by
  cases x <;> rfl

lemma andThen_eq_ok {r : Option (Except ε α)} {f : α → Option (Except ε β)} {b : β} :
    andThen r f = some (.ok b) ↔ ∃ a, r = some (.ok a) ∧ f a = some (.ok b) := by
  cases r with
  | none => simp [andThen]
  | some r => cases r <;> simp [andThen]

end Run

/-- Computations go on as they did where more queries have an outcome. -/
lemma run_mono {h h' : (q : Q) → Option (Except ε (A q))} (hle : ∀ q r, h q = some r → h' q = some r)
    {p : Asking ε A α} {r : Except ε α} (hr : p.run h = some r) : p.run h' = some r := by
  induction p with
  | pure a => exact hr
  | fail e => exact hr
  | ask q k ih =>
    simp only [run] at hr ⊢
    cases hq : h q with
    | none => simp [hq] at hr
    | some x =>
      rw [hle q x hq]
      rw [hq] at hr
      cases x with
      | error e => exact hr
      | ok a => exact ih a hr

end Asking

/-! ### Evaluation to a depth -/

section Solve

variable (body : (q : Q) → Asking ε A (A q))

def solve : ℕ → (q : Q) → Option (Except ε (A q))
  | 0, _         => none
  | depth + 1, q => (body q).run (solve depth)

/-- The evaluation of a query ends, with an answer or with a failure. -/
def Ends (q : Q) : Prop := ∃ depth r, solve body depth q = some r

def Answers (q : Q) (a : A q) : Prop := ∃ depth, solve body depth q = some (.ok a)

/-- The queries that a computation asks: the first one, and those after its answer. -/
inductive Asking.Asks {α : Type} : Asking ε A α → Q → Prop
  | here (q : Q) (k : A q → Asking ε A α) : Asks (.ask q k) q
  | later {q q' : Q} {k : A q → Asking ε A α} {a : A q} (ha : Answers body q a)
      (h : Asks (k a) q') : Asks (.ask q k) q'

/-- The body of `q` asks for `q'`. -/
def Calls (q q' : Q) : Prop := (body q).Asks body q'

variable {body}

lemma solve_mono {depth depth' : ℕ} (hle : depth ≤ depth') {q : Q} {r : Except ε (A q)}
    (h : solve body depth q = some r) : solve body depth' q = some r := by
  induction depth generalizing depth' q with
  | zero => cases h
  | succ depth ih =>
    obtain ⟨depth', rfl⟩ : ∃ k, depth' = k + 1 := ⟨depth' - 1, by omega⟩
    exact Asking.run_mono (fun q r hq => ih (by omega) hq) h

/-- Where a query that has an answer has an outcome, the outcome is this answer. -/
lemma Answers.eq_of_solve {q : Q} {a : A q} (ha : Answers body q a) {depth : ℕ}
    {r : Except ε (A q)} (h : solve body depth q = some r) : r = .ok a := by
  obtain ⟨depth', hd'⟩ := ha
  have hr := solve_mono (Nat.le_max_left depth depth') h
  have ha := solve_mono (Nat.le_max_right depth depth') hd'
  exact Option.some.inj (hr.symm.trans ha)

/-- All queries that an evaluation asks have an outcome one level below. -/
lemma Asking.exists_of_asks {p : Asking ε A α} {q : Q} (hq : p.Asks body q) {depth : ℕ}
    {r : Except ε α} (h : p.run (solve body depth) = some r) :
    ∃ x, solve body depth q = some x := by
  induction hq with
  | here q k =>
    simp only [Asking.run] at h
    cases hs : solve body depth q with
    | none => simp [hs] at h
    | some x => exact ⟨x, rfl⟩
  | @later q₁ q₂ k a ha _ ih =>
    simp only [Asking.run] at h
    cases hs : solve body depth q₁ with
    | none => simp [hs] at h
    | some x =>
      obtain rfl := ha.eq_of_solve hs
      rw [hs] at h
      exact ih h

/-- Conversely the outcomes of the queries that are asked make up an outcome. -/
lemma Asking.exists_run {p : Asking ε A α} (h : ∀ q, p.Asks body q → Ends body q) :
    ∃ depth r, p.run (solve body depth) = some r := by
  induction p with
  | pure a => exact ⟨0, .ok a, rfl⟩
  | fail e => exact ⟨0, .error e, rfl⟩
  | ask q k ih =>
    obtain ⟨depth, x, hx⟩ := h q (.here q k)
    cases x with
    | error e => exact ⟨depth, .error e, by simp [Asking.run, hx]⟩
    | ok a =>
      obtain ⟨depth', r, hr⟩ := ih a fun q' hq' => h q' (.later ⟨depth, hx⟩ hq')
      refine ⟨max depth depth', r, ?_⟩
      have hx := solve_mono (Nat.le_max_left depth depth') hx
      simp only [Asking.run, hx]
      exact Asking.run_mono (fun _ _ => solve_mono (Nat.le_max_right depth depth')) hr

variable (body) in
/-- The computation comes to the value `a`. -/
def Asking.Yields {α : Type} (p : Asking ε A α) (a : α) : Prop :=
  ∃ depth, p.run (solve body depth) = some (.ok a)

lemma Asking.yields_query_iff {q : Q} {a : A q} : (query q).Yields body a ↔ Answers body q a := by
  simp only [Yields, run_query, Answers]

lemma Asking.not_asks_pure {a : α} {q : Q} : ¬ (Pure.pure a : Asking ε A α).Asks body q := nofun

lemma Asking.not_asks_fail {e : ε} {q : Q} : ¬ (fail e : Asking ε A α).Asks body q := nofun

lemma Asking.not_asks_ofExcept {x : Except ε α} {q : Q} :
    ¬ (ofExcept x : Asking ε A α).Asks body q := by
  cases x with
  | error e => exact not_asks_fail
  | ok a => exact not_asks_pure

lemma Asking.asks_query_iff {q q' : Q} : (query q : Asking ε A (A q)).Asks body q' ↔ q' = q := by
  constructor
  · intro h
    cases h with
    | here => rfl
    | later _ h => cases h
  · rintro rfl
    exact .here _ _

/-- What a computation asks that goes on with the value of another. -/
lemma Asking.asks_bind_iff {p : Asking ε A α} {f : α → Asking ε A β} {q : Q} :
    (p >>= f).Asks body q ↔ p.Asks body q ∨ ∃ a, p.Yields body a ∧ (f a).Asks body q := by
  induction p with
  | pure a =>
    constructor
    · intro h
      exact .inr ⟨a, ⟨0, rfl⟩, h⟩
    · rintro (h | ⟨a', ⟨depth, ha⟩, h⟩)
      · cases h
      · cases ha
        exact h
  | fail e =>
    constructor
    · nofun
    · rintro (h | ⟨a, ⟨depth, ha⟩, -⟩)
      · cases h
      · cases ha
  | ask q₀ k ih =>
    constructor
    · intro h
      cases (show Asks body (.ask q₀ fun a => (k a).bind f) q from h) with
      | here => exact .inl (.here _ _)
      | @later _ _ _ a ha h =>
        rcases (ih a).mp h with h | ⟨b, ⟨depth, hb⟩, h⟩
        · exact .inl (.later ha h)
        · obtain ⟨depth', ha⟩ := ha
          refine .inr ⟨b, ⟨max depth depth', ?_⟩, h⟩
          simp only [run, solve_mono (Nat.le_max_right depth depth') ha]
          exact run_mono (fun _ _ => solve_mono (Nat.le_max_left depth depth')) hb
    · show _ → Asks body (.ask q₀ fun a => (k a).bind f) q
      rintro (h | ⟨b, ⟨depth, hb⟩, h⟩)
      · cases h with
        | here => exact .here _ _
        | later ha h => exact .later ha ((ih _).mpr (.inl h))
      · simp only [run] at hb
        cases hq : solve body depth q₀ with
        | none =>
          rw [hq] at hb
          cases hb
        | some x =>
          rw [hq] at hb
          cases x with
          | error e => cases hb
          | ok a => exact .later ⟨depth, hq⟩ ((ih a).mpr (.inr ⟨b, ⟨depth, hb⟩, h⟩))

/-- What goes on without asking adds nothing. -/
lemma Asking.asks_bind_of_silent {p : Asking ε A α} {f : α → Asking ε A β} {q : Q}
    (hf : ∀ a, ¬ (f a).Asks body q) : (p >>= f).Asks body q ↔ p.Asks body q := by
  rw [asks_bind_iff]
  constructor
  · rintro (h | ⟨a, -, h⟩)
    · exact h
    · exact absurd h (hf a)
  · exact .inl

/-- An evaluation ends exactly if no chain of queries, each asked for by the one before, goes on
without end. -/
theorem ends_iff_acc {q : Q} : Ends body q ↔ Acc (fun q' q => Calls body q q') q := by
  constructor
  · rintro ⟨depth, r, h⟩
    induction depth generalizing q with
    | zero => cases h
    | succ depth ih =>
      refine ⟨q, fun q' hq' => ?_⟩
      obtain ⟨x, hx⟩ := Asking.exists_of_asks hq' h
      exact ih x hx
  · intro h
    induction h with
    | intro q _ ih =>
      obtain ⟨depth, r, hr⟩ := Asking.exists_run ih
      exact ⟨depth + 1, r, hr⟩

end Solve

/-! ### Finitely many queries -/

section Finite

variable {γ : Type*} {r : γ → γ → Prop}

lemma not_transGen_self_of_acc {x : γ} (h : Acc (fun b a => r a b) x) :
    ¬ Relation.TransGen r x x := by
  have htrans := h.transGen
  clear h
  intro hcycle
  have hswap : Relation.TransGen (fun b a => r a b) x x := Relation.transGen_swap.mpr hcycle
  induction htrans with
  | intro y _ ih => exact ih y hswap hcycle hswap

/-- Where finitely many points are reached, descent ends exactly if it never comes back. -/
theorem acc_iff_no_cycle {x : γ} (hfinite : {y | Relation.ReflTransGen r x y}.Finite) :
    Acc (fun b a => r a b) x ↔
      ∀ y, Relation.ReflTransGen r x y → ¬ Relation.TransGen r y y := by
  constructor
  · intro hacc y hy
    apply not_transGen_self_of_acc
    induction hy with
    | refl => exact hacc
    | tail _ hstep ih => exact ih.inv hstep
  · intro hcycle
    let S := {y // Relation.ReflTransGen r x y}
    have : Finite S := hfinite
    let R : S → S → Prop := fun b a => Relation.TransGen r a.1 b.1
    have hirrefl : Std.Irrefl R := ⟨fun y => hcycle y.1 y.2⟩
    have htrans : IsTrans S R := ⟨fun _ _ _ h h' => h'.trans h⟩
    have hwf : WellFounded R := Finite.wellFounded_of_trans_of_irrefl R
    have hacc : ∀ y : S, Acc (fun b a => r a b) y.1 := by
      intro y
      induction y using hwf.induction with
      | _ y ih =>
        exact ⟨y.1, fun z hz => ih ⟨z, y.2.tail hz⟩ (.single hz)⟩
    exact hacc ⟨x, .refl⟩

end Finite

end Recursion
