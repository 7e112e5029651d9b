import Dimeta.DI.Candidates
import Dimeta.Extract.Levels

/-!
# First members

A load from a pointer to a record, and a store to one, is taken for an access to the first member of
the record. What a pointer to a pointer refers to is still a pointer, but the record is looked up
behind two pointers as well.
-/

set_option autoImplicit false

namespace Dimeta

variable {ι ν : Type}

namespace DIGraph

/-- The type `t` is, up to names and qualifiers, `n` pointers to the record `a`, a composite of any
kind; `direct` tells whether nothing stands between the last pointer and the record. -/
inductive PointsTo (G : DIGraph ι) (a : ι) : ℕ → Bool → ι → Prop
  | record {c : DICompositeType ι} (ha : G.node a = .compositeType c) : PointsTo G a 0 true a
  | qualifier {n : ℕ} {direct : Bool} {t s : ι} {d : DIDerivedType ι}
      (ht : G.node t = .derivedType d) (hd : isQualifier d = true)
      (hflags : d.flags ≠ DIFlags.staticMember) (hbase : d.baseType = some s)
      (hs : PointsTo G a n direct s) : PointsTo G a n (direct && n != 0) t
  | pointer {n : ℕ} {direct : Bool} {t s : ι} {d : DIDerivedType ι}
      (ht : G.node t = .derivedType d) (hd : d.tag = .pointerType)
      (hflags : d.flags ≠ DIFlags.staticMember) (hbase : d.baseType = some s)
      (hs : PointsTo G a n direct s) : PointsTo G a (n + 1) direct t

variable {G : DIGraph ι} {a t : ι} {n : ℕ} {direct : Bool}

namespace PointsTo

/-- The number of pointers is determined. -/
lemma unique (h : G.PointsTo a n direct t) {m : ℕ} {direct' : Bool}
    (h' : G.PointsTo a m direct' t) : n = m := by
  induction h generalizing m direct' with
  | record ha =>
    cases h' with
    | record => rfl
    | qualifier ht | pointer ht => rw [ha] at ht; cases ht
  | qualifier ht hd _ hbase _ ih =>
    cases h' with
    | record ha => rw [ha] at ht; cases ht
    | qualifier ht' _ _ hbase' hs' =>
      obtain rfl := DINode.derivedType.inj (ht.symm.trans ht')
      obtain rfl := Option.some.inj (hbase.symm.trans hbase')
      exact ih hs'
    | pointer ht' hd' =>
      obtain rfl := DINode.derivedType.inj (ht.symm.trans ht')
      rw [isQualifier, hd'] at hd
      cases hd
  | pointer ht hd _ hbase _ ih =>
    cases h' with
    | record ha => rw [ha] at ht; cases ht
    | qualifier ht' hd' =>
      obtain rfl := DINode.derivedType.inj (ht.symm.trans ht')
      rw [isQualifier, hd] at hd'
      cases hd'
    | pointer ht' _ _ hbase' hs' =>
      obtain rfl := DINode.derivedType.inj (ht.symm.trans ht')
      obtain rfl := Option.some.inj (hbase.symm.trans hbase')
      rw [ih hs']

/-- Above the record there are names, qualifiers and pointers. -/
lemma not_member (h : G.PointsTo a n direct t) (hn : n ≠ 0) :
    (G.node t).isMember = false ∧ (G.node t).isArray = false ∧
      (G.node t).isNonStaticMember = false := by
  cases h with
  | record => exact absurd rfl hn
  | @qualifier _ _ _ _ d ht hd hflags _ _ =>
    have htag : d.tag ≠ .member := by
      intro htag
      rw [isQualifier, htag] at hd
      cases hd
    rw [ht]
    refine ⟨?_, rfl, ?_⟩
    · simp [DINode.isMember, DINode.tag, DINode.flags, htag, hflags]
    · simp [DINode.isNonStaticMember, DINode.tag, htag]
  | pointer ht hd hflags _ _ =>
    rw [ht]
    refine ⟨?_, rfl, ?_⟩
    · simp [DINode.isMember, DINode.tag, DINode.flags, hd, hflags]
    · simp [DINode.isNonStaticMember, DINode.tag, hd]

lemma isPointer_iff (h : G.PointsTo a n direct t) :
    (G.node t).isPointer = true ↔ G.Pointers 1 t := by
  constructor
  · intro hpointer
    cases h with
    | record ha => rw [ha] at hpointer; cases hpointer
    | qualifier ht hd _ _ _ =>
      rw [ht] at hpointer
      simp only [isQualifier, DINode.isPointer, Bool.or_eq_true, beq_iff_eq] at hd hpointer
      rcases hd with (hd | hd) | hd <;> rw [hd] at hpointer <;>
        rcases hpointer with hpointer | hpointer <;> cases hpointer
    | pointer ht hd _ hbase _ => exact .succ ht hd hbase .zero
  · intro hpointers
    cases hpointers with
    | succ ht hd _ _ =>
      rw [ht]
      simp [DINode.isPointer, hd]

/-- A node further down there is one pointer less, if the node is a pointer, or as many. -/
lemma next (h : G.PointsTo a n direct t) (hn : n ≠ 0) :
    (G.Pointers 1 t → ∃ direct, G.PointsTo a (n - 1) direct (G.next t)) ∧
      (¬ G.Pointers 1 t → ∃ direct, G.PointsTo a n direct (G.next t)) := by
  cases h with
  | record => exact absurd rfl hn
  | qualifier ht hd _ hbase hs =>
    rw [next_of_derived ht hbase]
    refine ⟨fun hpointers => ?_, fun _ => ⟨_, hs⟩⟩
    cases hpointers with
    | succ ht' hd' =>
      obtain rfl := DINode.derivedType.inj (ht.symm.trans ht')
      rw [isQualifier, hd'] at hd
      cases hd
  | pointer ht hd _ hbase hs =>
    rw [next_of_derived ht hbase]
    exact ⟨fun _ => ⟨_, hs⟩, fun hnot => absurd (.succ ht hd hbase .zero) hnot⟩

end PointsTo

/-- One step of the loop: the node is passed unless two pointers have been. -/
lemma desugarLoop_derived {s : ι} {d : DIDerivedType ι} (ht : G.node t = .derivedType d)
    (hbase : d.baseType = some s) (fuel : ℕ) {reached : ℕ} :
    G.desugarLoop 1 (fuel + 1) reached (some t) =
      if reached > 1 then .ok (some t)
      else G.desugarLoop 1 fuel
        (if (DINode.derivedType d).isPointer then reached + 1 else reached) (some s) := by
  simp only [desugarLoop, ht, hbase]

/-- The loop of `desugar` passes at most two pointers, and stops behind the second at any other node
than the record. -/
lemma PointsTo.desugarLoop {c : DICompositeType ι} (h : G.PointsTo a n direct t)
    (ha : G.node a = .compositeType c) {reached : ℕ} (hreached : reached ≤ 2) :
    ∃ fuel, ∀ fuel', fuel ≤ fuel' → ∃ u,
      G.desugarLoop 1 fuel' reached (some t) = .ok (some u) ∧
        G.composite u =
          if n + reached ≤ 1 ∨ n + reached = 2 ∧ direct = true then some (a, c) else none := by
  induction h generalizing reached with
  | record ha' =>
    refine ⟨1, fun fuel' hle => ⟨a, ?_, ?_⟩⟩
    · obtain ⟨fuel', rfl⟩ := Nat.exists_eq_succ_of_ne_zero (by omega : fuel' ≠ 0)
      simp only [DIGraph.desugarLoop, ha]
    · have hcondition : 0 + reached ≤ 1 ∨ 0 + reached = 2 ∧ true = true := by
        simp only [and_true]
        omega
      rw [composite, ha, if_pos hcondition]
      rfl
  | @qualifier n direct t s d ht hd hflags hbase hs ih =>
    -- a name or qualifier is passed unless two pointers have been
    have hnot : (DINode.derivedType d).isPointer = false := by
      simp only [isQualifier, Bool.or_eq_true, beq_iff_eq] at hd
      rcases hd with (hd | hd) | hd <;> simp [DINode.isPointer, hd]
    obtain ⟨fuel, hfuel⟩ := ih hreached
    refine ⟨fuel + 1, fun fuel' hle => ?_⟩
    obtain ⟨fuel', rfl⟩ := Nat.exists_eq_succ_of_ne_zero (by omega : fuel' ≠ 0)
    rw [desugarLoop_derived ht hbase, hnot]
    by_cases hstop : reached > 1
    · refine ⟨t, if_pos hstop, ?_⟩
      have hcondition : ¬ (n + reached ≤ 1 ∨ n + reached = 2 ∧ (direct && n != 0) = true) := by
        rintro (hle | ⟨heq, hdirect⟩)
        · omega
        · obtain rfl : n = 0 := by omega
          simp at hdirect
      rw [composite, ht, if_neg hcondition]
      rfl
    · obtain ⟨u, hu, hcomposite⟩ := hfuel fuel' (by omega)
      refine ⟨u, by rw [if_neg hstop]; exact hu, hcomposite.trans (if_congr ?_ rfl rfl)⟩
      by_cases hn : n = 0
      · exact iff_of_true (.inl (by omega)) (.inl (by omega))
      · simp [hn]
  | @pointer n direct t s d ht hd hflags hbase hs ih =>
    -- a pointer is counted behind the test, so a second one is passed as well
    have hpointer : (DINode.derivedType d).isPointer = true := by simp [DINode.isPointer, hd]
    by_cases hstop : reached > 1
    · refine ⟨1, fun fuel' hle => ⟨t, ?_, ?_⟩⟩
      · obtain ⟨fuel', rfl⟩ := Nat.exists_eq_succ_of_ne_zero (by omega : fuel' ≠ 0)
        rw [desugarLoop_derived ht hbase, if_pos hstop]
      · rw [composite, ht, if_neg (by omega)]
        rfl
    · obtain ⟨fuel, hfuel⟩ := ih (show reached + 1 ≤ 2 by omega)
      refine ⟨fuel + 1, fun fuel' hle => ?_⟩
      obtain ⟨fuel', rfl⟩ := Nat.exists_eq_succ_of_ne_zero (by omega : fuel' ≠ 0)
      rw [desugarLoop_derived ht hbase, if_neg hstop, hpointer]
      obtain ⟨u, hu, hcomposite⟩ := hfuel fuel' (by omega)
      refine ⟨u, hu, hcomposite.trans (if_congr ?_ rfl rfl)⟩
      rw [Nat.add_right_comm, Nat.add_assoc]

/-- The record is looked up behind at most two pointers, behind two only if nothing stands between
them and the record. -/
lemma PointsTo.desugar {c : DICompositeType ι} (h : G.PointsTo a n direct t)
    (ha : G.node a = .compositeType c) :
    ∃ fuel, ∀ fuel', fuel ≤ fuel' → G.desugar fuel' t =
      .ok (if n ≤ 1 ∨ n = 2 ∧ direct = true then some (a, c) else none) := by
  obtain ⟨fuel, hfuel⟩ := h.desugarLoop ha (Nat.zero_le 2)
  refine ⟨fuel, fun fuel' hle => ?_⟩
  obtain ⟨u, hu, hcomposite⟩ := hfuel fuel' hle
  rw [DIGraph.desugar, hu, ok_bind]
  exact congrArg Except.ok hcomposite

end DIGraph

/-! ### Accesses through pointers to pointers -/

section Steps

variable [DecidableEq ι] {G : DIGraph ι} {M : IRModule ι ν} {a t : ι} {n : ℕ} {direct : Bool}
  {c : DICompositeType ι} {first : Option (StructMember ι)}

/-- What the member at an offset is looked up among, as every member has a type. -/
lemma SoundGraph.exists_memberAt [Fintype ι] (G : SoundGraph ι) (a : ι) :
    ∃ w fuel, ∀ fuel', fuel ≤ fuel' → G.walk (fuel' + 1) ∅ a = some w ∧ ∀ c offset,
      G.node a = .compositeType c → G.memberAt fuel' a c offset =
        .ok (Comparison.last offset (w.compared offset {}).members) := by
  obtain ⟨fuel, w, hw⟩ := DIGraph.hasWalk_of_cyclesPassRecords G.cycles_pass_records ∅ a
  have hreads := reads_of_walk G.well_typed hw
  refine ⟨w, fuel, fun fuel' hle => ?_⟩
  have hw' := DIGraph.walk_mono (hle.trans (Nat.le_succ fuel')) hw
  refine ⟨hw', fun c offset ha => ?_⟩
  rw [DIGraph.memberAt, DestructureComposite.traverse_of_compared ha hw' hreads]
  exact congrArg Except.ok Option.or_none

/-- The member that is taken for what a pointer to the record refers to. -/
def firstBehind (n : ℕ) (direct : Bool) (first : Option (StructMember ι)) : Option ι :=
  if n = 2 ∧ direct = true then first.map (·.typeOfMember) else none

variable (h : G.PointsTo a n direct t) (ha : G.node a = .compositeType c) (hn : 2 ≤ n)
  (hfirst : ∃ fuel, ∀ fuel', fuel ≤ fuel' → G.memberAt fuel' a c 0 = .ok first)

include h ha hn hfirst

/-- Behind two pointers the first member is looked up. -/
lemma DIGraph.PointsTo.lookup :
    ∃ fuel, ∀ fuel', fuel ≤ fuel' →
      (G.desugar fuel' t = .ok none ∧ firstBehind n direct first = none) ∨
        (G.desugar fuel' t = .ok (some (a, c)) ∧ G.memberAt fuel' a c 0 = .ok first ∧
          firstBehind n direct first = first.map (·.typeOfMember)) := by
  obtain ⟨fuel, hfuel⟩ := h.desugar ha
  obtain ⟨fuel₁, hfuel₁⟩ := hfirst
  refine ⟨max fuel fuel₁, fun fuel' hle => ?_⟩
  rw [hfuel fuel' (le_of_max_le_left hle)]
  by_cases htwo : n = 2 ∧ direct = true
  · right
    rw [if_pos (.inr htwo), firstBehind, if_pos htwo]
    exact ⟨rfl, hfuel₁ fuel' (le_of_max_le_right hle), rfl⟩
  · left
    rw [if_neg, firstBehind, if_neg htwo]
    · exact ⟨rfl, rfl⟩
    · rintro (hle | htwo')
      · omega
      · exact htwo htwo'

/-- What a load through a plain pointer makes of the type. -/
lemma DIGraph.PointsTo.resetLoad [DecidableEq ν] {pointer : ν} (hpointer : IsPlain M pointer) :
    ∃ fuel, ∀ fuel', fuel ≤ fuel' → ∀ path load,
      resetLoadRelatedBasic G M fuel' path (some t) load pointer =
        .ok (some ((firstBehind n direct first).getD (G.next t))) := by
  obtain ⟨fuel, hfuel⟩ := h.lookup ha hn hfirst
  refine ⟨fuel, fun fuel' hle path load => ?_⟩
  have hresolve : tryResolveToFirstMember G fuel' t = .ok (firstBehind n direct first) := by
    rw [tryResolveToFirstMember]
    rcases hfuel fuel' hle with ⟨hdesugar, hbehind⟩ | ⟨hdesugar, hmember, hbehind⟩
    · rw [hdesugar, hbehind]
      rfl
    · rw [hdesugar, hbehind]
      show (G.memberAt fuel' a c 0 >>= _) = _
      rw [hmember]
      rfl
  rw [resetLoad_of_plain (h.not_member (by omega)).1 hresolve hpointer]
  cases firstBehind n direct first with
  | some r => rfl
  | none =>
    cases h with
    | record => omega
    | qualifier ht _ _ hbase _ | pointer ht _ _ hbase _ =>
      rw [DIGraph.next_of_derived ht hbase, ht]
      exact congrArg Except.ok hbase

/-- What a store through a plain pointer makes of the type. -/
lemma DIGraph.PointsTo.resetStore {pointer : ν} (hpointer : IsPlain M pointer) :
    ∃ fuel, ∀ fuel', fuel ≤ fuel' →
      (∀ r, firstBehind n direct first = some r →
        resetStoreRelatedBasic G M fuel' (some t) pointer = .ok (some r)) ∧
      (firstBehind n direct first = none →
        (G.Pointers 2 t → resetStoreRelatedBasic G M fuel' (some t) pointer =
          .ok (some (G.next t))) ∧
        (¬ G.Pointers 2 t → resetStoreRelatedBasic G M fuel' (some t) pointer =
          .ok (some t))) := by
  obtain ⟨fuel, hfuel⟩ := h.lookup ha hn hfirst
  refine ⟨fuel, fun fuel' hle => ?_⟩
  obtain ⟨hmember, harray, hnonstatic⟩ := h.not_member (by omega)
  have hnonpointer : isNonPointerMember G t = .ok false := by
    rw [isNonPointerMember, hnonstatic]
    rfl
  have hresolve : storeToFirstMember G M fuel' t pointer = .ok (firstBehind n direct first) := by
    rw [storeToFirstMember]
    rcases hfuel fuel' hle with ⟨hdesugar, hbehind⟩ | ⟨hdesugar, hmember, hbehind⟩
    · rw [hdesugar, hbehind]
      show (isNonPointerMember G t >>= _) = _
      rw [hnonpointer]
      rfl
    · rw [hdesugar, hbehind]
      show (isNonPointerMember G t >>= _) = _
      rw [hnonpointer, ok_bind, Bool.or_assoc, hpointer.accessTo_isArgument_or_isLoad, Bool.or_true,
        if_pos rfl, hmember]
      rfl
  rw [resetStore_of_plain hmember harray hresolve hpointer]
  constructor
  · intro r hr
    rw [hr]
    rfl
  · intro hnone
    rw [hnone]
    have hpointers := DIGraph.pointers_succ_iff (G := G) (t := t) (n := 1)
    rw [← h.isPointer_iff] at hpointers
    cases h with
    | record => omega
    | qualifier ht _ _ hbase hs | pointer ht _ _ hbase hs =>
      rw [DIGraph.next_of_derived ht hbase] at hpointers ⊢
      rw [← hs.isPointer_iff] at hpointers
      have hstore := storeToPointer_of_base ht hbase hpointers
      rw [ht]
      exact hstore

end Steps

/-! ### What the record begins with -/

section Begins

variable {G : DIGraph ι} {a : ι} {n : ℕ} {direct : Bool} {w : Walk ι}

end Begins

section

variable [DecidableEq ι] [Fintype ι] [DecidableEq ν] {M : IRModule ι ν}

end

/-! ### A parameter for a record to be returned in -/

end Dimeta
