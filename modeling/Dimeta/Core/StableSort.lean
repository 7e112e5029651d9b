import Mathlib.Data.List.Sort
import Mathlib.Tactic

/-!
# Stable sorting

Sorting by a comparator, where elements that the comparator does not tell apart stay in their order.
The result is determined by that if the comparator is a strict weak order.
-/

set_option autoImplicit false

namespace StableSort

variable {α : Type*} (lt : α → α → Prop) [DecidableRel lt]

/-- `std::stable_sort` -/
def stableSort (l : List α) : List α := l.insertionSort fun a b => ¬ lt b a

lemma stableSort_perm (l : List α) : (stableSort lt l).Perm l := List.perm_insertionSort _ l

variable {lt}

lemma stableSort_of_pairwise {l : List α} (h : l.Pairwise fun a b => ¬ lt b a) :
    stableSort lt l = l := h.insertionSort_eq

/-- Elements of which no two are told apart stay in their order. -/
lemma stableSort_of_incomparable {l : List α} (h : ∀ a ∈ l, ∀ b ∈ l, ¬ lt a b) :
    stableSort lt l = l := by
  apply stableSort_of_pairwise
  exact List.pairwise_of_forall_mem_list fun a ha b hb => h b hb a ha

/-! ### Elements that come first -/

section Parts

variable {p : α → Prop}

lemma orderedInsert_first {a : α} (hp : p a)
    (hnot : ∀ a b, p a → ¬ p b → ¬ lt b a) {l l' : List α} (hl' : ∀ b ∈ l', ¬ p b) :
    (l ++ l').orderedInsert (fun a b => ¬ lt b a) a =
      l.orderedInsert (fun a b => ¬ lt b a) a ++ l' := by
  induction l with
  | nil =>
    cases l' with
    | nil => rfl
    | cons b l' => exact List.orderedInsert_cons_of_le _ _ (hnot a b hp (hl' b List.mem_cons_self))
  | cons b l ih =>
    by_cases hb : lt b a
    · rw [List.cons_append, List.orderedInsert_of_not_le _ _ (not_not.mpr hb),
        List.orderedInsert_of_not_le _ _ (not_not.mpr hb), ih]
      rfl
    · rw [List.cons_append, List.orderedInsert_cons_of_le _ _ hb,
        List.orderedInsert_cons_of_le _ _ hb]
      rfl

lemma orderedInsert_second {a : α} (hp : ¬ p a) (hlt : ∀ a b, p a → ¬ p b → lt a b)
    {l l' : List α} (hl : ∀ b ∈ l, p b) :
    (l ++ l').orderedInsert (fun a b => ¬ lt b a) a =
      l ++ l'.orderedInsert (fun a b => ¬ lt b a) a := by
  induction l with
  | nil => rfl
  | cons b l ih =>
    have hb : lt b a := hlt b a (hl b List.mem_cons_self) hp
    rw [List.cons_append, List.orderedInsert_of_not_le _ _ (not_not.mpr hb),
      ih fun c hc => hl c (List.mem_cons_of_mem b hc)]
    rfl

/-- If all elements of one kind come before all others, the two kinds are sorted apart. -/
lemma stableSort_eq_append [DecidablePred p] (hlt : ∀ a b, p a → ¬ p b → lt a b)
    (hnot : ∀ a b, p a → ¬ p b → ¬ lt b a) (l : List α) :
    stableSort lt l = stableSort lt (l.filter (p ·)) ++ stableSort lt (l.filter (¬ p ·)) := by
  induction l with
  | nil => rfl
  | cons a l ih =>
    have hcons : ∀ l : List α, stableSort lt (a :: l) =
        (stableSort lt l).orderedInsert (fun a b => ¬ lt b a) a := fun _ => rfl
    have hfirst : ∀ b ∈ stableSort lt (l.filter (p ·)), p b := by
      intro b hb
      rw [(stableSort_perm lt _).mem_iff, List.mem_filter] at hb
      simpa using hb.2
    have hsecond : ∀ b ∈ stableSort lt (l.filter (¬ p ·)), ¬ p b := by
      intro b hb
      rw [(stableSort_perm lt _).mem_iff, List.mem_filter] at hb
      simpa using hb.2
    rw [hcons, ih]
    by_cases hp : p a
    · rw [orderedInsert_first hp hnot hsecond, List.filter_cons_of_pos (by simpa using hp),
        List.filter_cons_of_neg (by simpa using hp), hcons]
    · rw [orderedInsert_second hp hlt hfirst, List.filter_cons_of_neg (by simpa using hp),
        List.filter_cons_of_pos (by simpa using hp), hcons]

end Parts

/-! ### Strict weak orders -/

section StrictWeak

variable [IsStrictWeakOrder α lt]

lemma not_lt_trans {a b c : α} (hab : ¬ lt b a) (hbc : ¬ lt c b) : ¬ lt c a := by
  intro hca
  by_cases hba : lt a b
  · exact hbc (trans_of lt hca hba)
  · by_cases hcb : lt b c
    · exact hab (trans_of lt hcb hca)
    · exact (IsStrictWeakOrder.incomp_trans a b c ⟨hba, hab⟩ ⟨hcb, hbc⟩).2 hca

/-- No element comes before one that is to come first. -/
lemma pairwise_stableSort (l : List α) : (stableSort lt l).Pairwise fun a b => ¬ lt b a := by
  have htrans : IsTrans α fun a b => ¬ lt b a := ⟨fun _ _ _ hab hbc => not_lt_trans hab hbc⟩
  have htotal : Std.Total fun a b : α => ¬ lt b a := by
    refine ⟨fun a b => ?_⟩
    by_cases hab : lt b a
    · exact .inr (asymm hab)
    · exact .inl hab
  exact List.pairwise_insertionSort _ l

/-- The order of the input does not matter if any two elements are told apart. -/
lemma stableSort_eq_of_perm {l l' : List α} (hperm : l.Perm l')
    (hne : ∀ a ∈ l, ∀ b ∈ l, a ≠ b → lt a b ∨ lt b a) : stableSort lt l = stableSort lt l' := by
  have hsorted : (stableSort lt l).Perm (stableSort lt l') :=
    (stableSort_perm lt l).trans (hperm.trans (stableSort_perm lt l').symm)
  refine hsorted.eq_of_pairwise ?_ (pairwise_stableSort l) (pairwise_stableSort l')
  intro a b ha hb hab hba
  by_contra hab'
  have hmem : a ∈ l := (stableSort_perm lt l).mem_iff.mp ha
  have hmem' : b ∈ l := hperm.mem_iff.mpr ((stableSort_perm lt l').mem_iff.mp hb)
  rcases hne a hmem b hmem' hab' with h | h
  · exact hba h
  · exact hab h

end StrictWeak

end StableSort
