import Dimeta.Core.Recursion

/-!
# Contracts of mutually recursive functions

A contract says what the answers to each query satisfy. If every body keeps it, under the assumption
that the answers it gets do, then so does the recursion, to whatever depth it is evaluated.
-/

set_option autoImplicit false

namespace Recursion

variable {ε Q : Type} {A : Q → Type} {α β γ : Type} {P : α → Prop} {P' : β → Prop}

/-! ### Computations that may fail -/

/-- If the computation returns, its value satisfies `P`. -/
def Ensures (x : Except ε α) (P : α → Prop) : Prop := ∀ a, x = .ok a → P a

namespace Ensures

lemma ok {a : α} (h : P a) : Ensures (.ok a : Except ε α) P := by
  intro a' ha
  cases ha
  exact h

lemma error (e : ε) : Ensures (.error e : Except ε α) P := by
  intro a ha
  cases ha

lemma bind {x : Except ε α} {f : α → Except ε β} (h : Ensures x P)
    (hf : ∀ a, P a → Ensures (f a) P') : Ensures (x >>= f) P' := by
  cases x with
  | error e => exact error e
  | ok a => exact hf a (h a rfl)

lemma of_true (x : Except ε α) : Ensures x fun _ => True := fun _ _ => trivial

/-- A choice, after both branches of which the computation goes on in the same way. -/
lemma ite_bind {p : Prop} [Decidable p] {x y : Except ε α} {f : α → Except ε β}
    (hx : p → Ensures x P) (hy : ¬ p → Ensures y P) (hf : ∀ a, P a → Ensures (f a) P') :
    Ensures (if p then x >>= f else y >>= f) P' := by
  split_ifs with h
  · exact (hx h).bind hf
  · exact (hy h).bind hf

/-- What a step of a loop keeps, the loop keeps. -/
lemma foldlM {f : α → γ → Except ε α} (hf : ∀ a c, P a → Ensures (f a c) P) {a : α} (ha : P a)
    (cs : List γ) : Ensures (cs.foldlM f a) P := by
  induction cs generalizing a with
  | nil => exact ok ha
  | cons c cs ih => exact (hf a c ha).bind fun a ha => ih ha

end Ensures

/-! ### Computations that ask -/

namespace Asking

variable (C : (q : Q) → A q → Prop)

/-- The computation returns only values that satisfy `P`, if all answers it gets satisfy `C`. -/
def Ensures (P : α → Prop) : Asking ε A α → Prop
  | .pure a  => P a
  | .fail _  => True
  | .ask q k => ∀ a, C q a → (k a).Ensures P

variable {C}

lemma ensures_pure {a : α} (h : P a) : (Pure.pure a : Asking ε A α).Ensures C P := h

lemma ensures_fail (e : ε) : (fail e : Asking ε A α).Ensures C P := trivial

lemma ensures_query (q : Q) : (query q : Asking ε A (A q)).Ensures C (C q) := fun _ h => h

lemma ensures_ofExcept {x : Except ε α} (h : Recursion.Ensures x P) :
    (ofExcept x : Asking ε A α).Ensures C P := by
  cases x with
  | error e => exact ensures_fail e
  | ok a => exact h a rfl

lemma Ensures.bind {p : Asking ε A α} {f : α → Asking ε A β} (h : p.Ensures C P)
    (hf : ∀ a, P a → (f a).Ensures C P') : (p >>= f).Ensures C P' := by
  induction p with
  | pure a => exact hf a h
  | fail e => exact trivial
  | ask q k ih => exact fun a ha => ih a (h a ha)

/-- A run whose answers satisfy the contract. -/
lemma Ensures.run {p : Asking ε A α} (h : p.Ensures C P)
    {answers : (q : Q) → Option (Except ε (A q))}
    (hanswers : ∀ q a, answers q = some (.ok a) → C q a) {a : α}
    (hr : p.run answers = some (.ok a)) : P a := by
  induction p with
  | pure a' =>
    cases hr
    exact h
  | fail e => cases hr
  | ask q k ih =>
    simp only [Asking.run] at hr
    cases hq : answers q with
    | none =>
      rw [hq] at hr
      cases hr
    | some r =>
      rw [hq] at hr
      cases r with
      | error e => cases hr
      | ok b => exact ih b (h b (hanswers q b hq)) hr

end Asking

/-- The rule for recursion: a contract that each body keeps, if the answers it gets keep it, holds
of every answer. -/
theorem contract_of_bodies {C : (q : Q) → A q → Prop} {body : (q : Q) → Asking ε A (A q)}
    (hbody : ∀ q, (body q).Ensures C (C q)) {depth : ℕ} {q : Q} {a : A q}
    (h : solve body depth q = some (.ok a)) : C q a := by
  induction depth generalizing q with
  | zero => cases h
  | succ depth ih => exact (hbody q).run (fun q a => ih) h

end Recursion
