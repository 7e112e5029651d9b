import Mathlib.Data.List.Chain

/-!
# Brackets

Sequences of entries and exits that are nested like the calls of a recursion: everything that is
entered is left again, before what is around it is left. At each point the open entries are a stack
whose elements lie in one another.
-/

set_option autoImplicit false

namespace Dimeta

inductive Paren (α : Type*) where
  | enter (a : α)
  | leave (a : α)
  deriving DecidableEq

namespace Paren

variable {α : Type*} {R : α → α → Prop} {P Q : α → Prop} {l l' : List (Paren α)} {a : α}

/-- A sequence of nested entries: those on top satisfy `P`, and `R a b` holds of each `b` that is
entered directly below `a`. -/
inductive Nested (R : α → α → Prop) : (α → Prop) → List (Paren α) → Prop
  | nil (P : α → Prop) : Nested R P []
  | cons {P : α → Prop} {a : α} {l l' : List (Paren α)} (ha : P a) (h : Nested R (R a) l)
      (h' : Nested R P l') : Nested R P (.enter a :: (l ++ .leave a :: l'))

lemma Nested.single (ha : P a) (h : Nested R (R a) l) :
    Nested R P (.enter a :: (l ++ [.leave a])) := .cons ha h (.nil P)

lemma Nested.append (h : Nested R P l) (h' : Nested R P l') : Nested R P (l ++ l') := by
  induction h with
  | nil => exact h'
  | cons ha h _ _ ih => simpa using Nested.cons ha h (ih h')

lemma Nested.mono (h : Nested R P l) (hPQ : ∀ a, P a → Q a) : Nested R Q l := by
  induction h with
  | nil => exact .nil Q
  | cons ha h _ _ ih => exact .cons (hPQ _ ha) h (ih hPQ)

/-! ### The stack of open entries -/

variable [DecidableEq α]

/-- The stack after a sequence, innermost entry first, if every exit is that of the top. -/
def opened : List α → List (Paren α) → Option (List α)
  | stack, []                   => some stack
  | stack, .enter a :: l        => opened (a :: stack) l
  | [], .leave _ :: _           => none
  | a :: stack, .leave b :: l   => if a = b then opened stack l else none

lemma opened_append (stack : List α) (l l' : List (Paren α)) :
    opened stack (l ++ l') = (opened stack l).bind fun stack => opened stack l' := by
  induction l generalizing stack with
  | nil => rfl
  | cons x l ih =>
    cases x with
    | enter a => exact ih _
    | leave b =>
      cases stack with
      | nil => rfl
      | cons a stack =>
        simp only [List.cons_append, opened]
        split
        · exact ih _
        · rfl

/-- A nested sequence leaves all that it enters. -/
lemma Nested.opened (h : Nested R P l) (stack : List α) : Paren.opened stack l = some stack := by
  induction h generalizing stack with
  | nil => rfl
  | cons _ _ _ ih ih' =>
    rw [Paren.opened, opened_append, ih, Option.bind_some, Paren.opened, if_pos rfl, ih']

/-- Entries that lie in one another, the outermost among those that satisfy `P`. -/
structure Stacked (R : α → α → Prop) (P : α → Prop) (stack : List α) : Prop where
  isChain : stack.IsChain fun b a => R a b
  outermost : ∀ a ∈ stack.getLast?, P a

omit [DecidableEq α] in
lemma Stacked.concat {stack : List α} (h : Stacked R (R a) stack) (ha : P a) :
    Stacked R P (stack ++ [a]) where
  isChain := by
    refine List.isChain_append.mpr ⟨h.isChain, List.isChain_singleton a, fun b hb c hc => ?_⟩
    obtain rfl : a = c := by simpa using hc
    exact h.outermost b hb
  outermost b hb := by
    obtain rfl : a = b := by simpa using hb
    exact ha

/-- At each point of a nested sequence the open entries lie in one another. -/
theorem Nested.stacked (h : Nested R P l) {before after : List (Paren α)}
    (hl : l = before ++ after) (stack : List α) :
    ∃ inner, Paren.opened stack before = some (inner ++ stack) ∧ Stacked R P inner := by
  have hnil : ∀ P : α → Prop, Stacked R P [] := fun P => ⟨.nil, fun a ha => by cases ha⟩
  induction h generalizing before after stack with
  | nil P =>
    obtain rfl : before = [] := (List.nil_eq_append_iff.mp hl).1
    exact ⟨[], rfl, hnil P⟩
  | @cons P a l l' ha h h' ih ih' =>
    cases before with
    | nil => exact ⟨[], rfl, hnil P⟩
    | cons x before =>
      obtain ⟨rfl, hsplit⟩ := List.cons_eq_cons.mp hl
      rcases List.append_eq_append_iff.mp hsplit with ⟨rest, rfl, hrest⟩ | ⟨rest, hinner, -⟩
      · -- the point is at the exit of `a` or after it
        rw [Paren.opened, opened_append, h.opened, Option.bind_some]
        cases rest with
        | nil => exact ⟨[a], rfl, (hnil (R a)).concat ha⟩
        | cons y rest =>
          obtain ⟨rfl, htail⟩ := List.cons_eq_cons.mp hrest
          rw [Paren.opened, if_pos rfl]
          exact ih' htail stack
      · obtain ⟨inner, hopened, hstacked⟩ := ih hinner (a :: stack)
        refine ⟨inner ++ [a], ?_, hstacked.concat ha⟩
        rw [Paren.opened, hopened, List.append_assoc]
        rfl

end Paren

end Dimeta
