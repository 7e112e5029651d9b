import Dimeta.Extract.Reset

/-!
# Pointer levels

How many pointer levels the type walk removes between the declared type of a root and the place
that is stored to. Every access through a pointer should remove one. A load removes one node of
the chain, pointer or not, and a store removes a pointer only if a pointer follows.
-/

set_option autoImplicit false

namespace Dimeta

variable {ι ν : Type}

namespace DIGraph

variable (G : DIGraph ι)

/-- Names and qualifiers in a chain of pointers. -/
def isQualifier (d : DIDerivedType ι) : Bool :=
  d.tag == .typedef || d.tag == .constType || d.tag == .volatileType

/-- The type `t` is, up to names and qualifiers, `n` pointers to the basic type `b`. -/
inductive Levels (b : ι) : ℕ → ι → Prop
  | basic {x : DIBasicType} (hb : G.node b = .basicType x) : Levels b 0 b
  | qualifier {n : ℕ} {t s : ι} {d : DIDerivedType ι} (ht : G.node t = .derivedType d)
      (hd : isQualifier d = true) (hflags : d.flags ≠ DIFlags.staticMember)
      (hbase : d.baseType = some s) (hs : Levels b n s) : Levels b n t
  | pointer {n : ℕ} {t s : ι} {d : DIDerivedType ι} (ht : G.node t = .derivedType d)
      (hd : d.tag = .pointerType) (hflags : d.flags ≠ DIFlags.staticMember)
      (hbase : d.baseType = some s) (hs : Levels b n s) : Levels b (n + 1) t

/-- The chain of `t` starts with `n` pointers. -/
inductive Pointers : ℕ → ι → Prop
  | zero {t : ι} : Pointers 0 t
  | succ {n : ℕ} {t s : ι} {d : DIDerivedType ι} (ht : G.node t = .derivedType d)
      (hd : d.tag = .pointerType) (hbase : d.baseType = some s) (hs : Pointers n s) :
      Pointers (n + 1) t

/-- One node further down the chain. -/
def next (t : ι) : ι :=
  match G.node t with
  | .derivedType d => d.baseType.getD t
  | _              => t

end DIGraph

variable {G : DIGraph ι}

namespace DIGraph

lemma next_of_derived {t s : ι} {d : DIDerivedType ι} (ht : G.node t = .derivedType d)
    (hbase : d.baseType = some s) : G.next t = s := by
  rw [next, ht]
  show d.baseType.getD t = s
  rw [hbase, Option.getD_some]

/-- The number of levels is determined. -/
lemma Levels.unique {b t : ι} {n m : ℕ} (h : G.Levels b n t) (h' : G.Levels b m t) : n = m := by
  induction h generalizing m with
  | basic hb =>
    cases h' with
    | basic _ => rfl
    | qualifier ht | pointer ht => rw [hb] at ht; cases ht
  | qualifier ht hd _ hbase _ ih =>
    cases h' with
    | basic hb => rw [hb] at ht; cases ht
    | qualifier ht' _ _ hbase' hs' =>
      obtain rfl := DINode.derivedType.inj (ht.symm.trans ht')
      obtain rfl := Option.some.inj (hbase.symm.trans hbase')
      exact ih hs'
    | pointer ht' hd' =>
      obtain rfl := DINode.derivedType.inj (ht.symm.trans ht')
      rw [isQualifier, hd'] at hd
      cases hd
  | pointer ht hd _ hbase _ ih =>
    cases h' with
    | basic hb => rw [hb] at ht; cases ht
    | qualifier ht' hd' =>
      obtain rfl := DINode.derivedType.inj (ht.symm.trans ht')
      rw [isQualifier, hd] at hd'
      cases hd'
    | pointer ht' _ _ hbase' hs' =>
      obtain rfl := DINode.derivedType.inj (ht.symm.trans ht')
      obtain rfl := Option.some.inj (hbase.symm.trans hbase')
      rw [ih hs']

/-- A node further down there are as many levels, or one less if a pointer is passed. -/
lemma Levels.next {b t : ι} {n : ℕ} (h : G.Levels b n t) :
    (G.Pointers 1 t ∧ ∃ m, n = m + 1 ∧ G.Levels b m (G.next t)) ∨
      (¬ G.Pointers 1 t ∧ G.Levels b n (G.next t)) := by
  cases h with
  | basic hb =>
    right
    constructor
    · intro hpointer
      cases hpointer with
      | succ ht => rw [hb] at ht; cases ht
    · have hnext : G.next b = b := by rw [DIGraph.next, hb]
      rw [hnext]
      exact .basic hb
  | qualifier ht hd hflags hbase hs =>
    right
    constructor
    · intro hpointer
      cases hpointer with
      | succ ht' hd' =>
        obtain rfl := DINode.derivedType.inj (ht.symm.trans ht')
        rw [isQualifier, hd'] at hd
        cases hd
    · rw [next_of_derived ht hbase]
      exact hs
  | pointer ht hd hflags hbase hs =>
    left
    refine ⟨.succ ht hd hbase .zero, _, rfl, ?_⟩
    rw [next_of_derived ht hbase]
    exact hs

/-- Pointers at the start, and the chain behind the first of them. -/
lemma pointers_succ_iff {t : ι} {n : ℕ} :
    G.Pointers (n + 1) t ↔ G.Pointers 1 t ∧ G.Pointers n (G.next t) := by
  constructor
  · intro h
    cases h with
    | succ ht hd hbase hs =>
      rw [next_of_derived ht hbase]
      exact ⟨.succ ht hd hbase .zero, hs⟩
  · rintro ⟨h, hn⟩
    cases h with
    | succ ht hd hbase _ =>
      rw [next_of_derived ht hbase] at hn
      exact .succ ht hd hbase hn

lemma Levels.not_member {b t : ι} {n : ℕ} (h : G.Levels b n t) :
    (G.node t).isMember = false ∧ (G.node t).isArray = false ∧
      (G.node t).isNonStaticMember = false ∧ G.composite t = none := by
  cases h with
  | basic hb =>
    rw [composite, hb]
    exact ⟨rfl, rfl, rfl, rfl⟩
  | qualifier ht hd hflags _ _ =>
    next d _ _ =>
    have htag : d.tag ≠ .member := by
      intro htag
      rw [isQualifier, htag] at hd
      cases hd
    rw [composite, ht]
    refine ⟨?_, rfl, ?_, rfl⟩
    · simp [DINode.isMember, DINode.tag, DINode.flags, htag, hflags]
    · simp [DINode.isNonStaticMember, DINode.tag, htag]
  | pointer ht hd hflags _ _ =>
    rw [composite, ht]
    refine ⟨?_, rfl, ?_, rfl⟩
    · simp [DINode.isMember, DINode.tag, DINode.flags, hd, hflags]
    · simp [DINode.isNonStaticMember, DINode.tag, hd]

lemma Levels.isPointer_iff {b t : ι} {n : ℕ} (h : G.Levels b n t) :
    (G.node t).isPointer = true ↔ G.Pointers 1 t := by
  constructor
  · intro hpointer
    cases h with
    | basic hb => rw [hb] at hpointer; cases hpointer
    | qualifier ht hd _ _ _ =>
      rw [ht] at hpointer
      simp only [isQualifier, DINode.isPointer, Bool.or_eq_true, beq_iff_eq] at hd hpointer
      rcases hd with (hd | hd) | hd <;> rw [hd] at hpointer <;>
        rcases hpointer with hpointer | hpointer <;> cases hpointer
    | pointer ht hd _ hbase _ => exact .succ ht hd hbase .zero
  · intro hpointers
    cases hpointers with
    | succ ht hd _ _ =>
      rw [ht]
      simp [DINode.isPointer, hd]

/-- From no node of a chain does the loop of `desugar` get to a composite. -/
lemma Levels.desugarLoop {b t : ι} {n : ℕ} (h : G.Levels b n t) (l : ℕ) :
    ∃ fuel, ∀ fuel', fuel ≤ fuel' → ∀ j reached, ∃ u,
      G.desugarLoop l fuel' reached (some (G.next^[j] t)) = .ok (some u) ∧
        G.composite u = none := by
  have hstep : ∀ {t s : ι} {d : DIDerivedType ι}, G.node t = .derivedType d →
      d.baseType = some s → G.composite t = none → (∃ fuel, ∀ fuel', fuel ≤ fuel' →
        ∀ j reached, ∃ u, G.desugarLoop l fuel' reached (some (G.next^[j] s)) = .ok (some u) ∧
          G.composite u = none) →
      ∃ fuel, ∀ fuel', fuel ≤ fuel' → ∀ j reached, ∃ u,
        G.desugarLoop l fuel' reached (some (G.next^[j] t)) = .ok (some u) ∧
          G.composite u = none := by
    rintro t s d ht hbase hcomposite ⟨fuel, hs⟩
    refine ⟨fuel + 1, fun fuel' hle j reached => ?_⟩
    cases j with
    | zero =>
      obtain ⟨fuel', rfl⟩ := Nat.exists_eq_succ_of_ne_zero (by omega : fuel' ≠ 0)
      simp only [Function.iterate_zero, id, DIGraph.desugarLoop, ht, hbase]
      split
      · exact ⟨t, rfl, hcomposite⟩
      · exact hs fuel' (by omega) 0 _
    | succ j =>
      rw [Function.iterate_succ_apply, next_of_derived ht hbase]
      exact hs fuel' (by omega) j reached
  induction h with
  | basic hb =>
    refine ⟨1, fun fuel' hle j reached => ⟨b, ?_, by rw [composite, hb]; rfl⟩⟩
    obtain ⟨fuel', rfl⟩ := Nat.exists_eq_succ_of_ne_zero (by omega : fuel' ≠ 0)
    have hnext : G.next b = b := by rw [DIGraph.next, hb]
    rw [Function.iterate_fixed hnext]
    simp only [DIGraph.desugarLoop, hb]
  | qualifier ht hd hflags hbase hs ih =>
    exact hstep ht hbase (Levels.qualifier ht hd hflags hbase hs).not_member.2.2.2 ih
  | pointer ht hd hflags hbase hs ih =>
    exact hstep ht hbase (Levels.pointer ht hd hflags hbase hs).not_member.2.2.2 ih

lemma Levels.desugar {b t : ι} {n : ℕ} (h : G.Levels b n t) :
    ∃ fuel, ∀ fuel', fuel ≤ fuel' → ∀ j, G.desugar fuel' (G.next^[j] t) = .ok none := by
  obtain ⟨fuel, hfuel⟩ := h.desugarLoop 1
  refine ⟨fuel, fun fuel' hle j => ?_⟩
  obtain ⟨u, hu, hcomposite⟩ := hfuel fuel' hle j 0
  rw [DIGraph.desugar, hu]
  show Except.ok (G.composite u) = .ok none
  rw [hcomposite]

end DIGraph

/-! ### Steps of the walk -/

section Steps

variable {M : IRModule ι ν}

/-- A pointer that is an argument or itself loaded, so that nothing but the type counts. -/
def IsPlain (M : IRModule ι ν) (pointer : ν) : Prop :=
  (∃ parent argNo structRet, M.value pointer = .argument parent argNo structRet) ∨
    ∃ p, M.value pointer = .load p

lemma IsPlain.getOperandTo {pointer : ν} (h : IsPlain M pointer) {α : Type}
    {kind : LLValue ι ν → Option α} (hkind : kind (M.value pointer) = none) :
    getOperandTo M kind pointer = none := by
  rw [Dimeta.getOperandTo, hkind]
  rcases h with ⟨_, _, _, hv⟩ | ⟨_, hv⟩ <;> rw [hv]

lemma IsPlain.asGetElementPtr {pointer : ν} (h : IsPlain M pointer) :
    (M.value pointer).asGetElementPtr = none := by
  rcases h with ⟨_, _, _, hv⟩ | ⟨_, hv⟩ <;> rw [hv] <;> rfl

lemma IsPlain.accessTo_isSlot {pointer : ν} (h : IsPlain M pointer) :
    accessTo M LLValue.isSlot pointer = false := by
  have hslot : (M.value pointer).isSlot = false := by
    rcases h with ⟨_, _, _, hv⟩ | ⟨_, hv⟩ <;> rw [hv] <;> rfl
  rw [accessTo, h.getOperandTo (by rw [hslot]; rfl)]
  rfl

lemma IsPlain.accessTo_isArgument_or_isLoad {pointer : ν} (h : IsPlain M pointer) :
    (accessTo M LLValue.isArgument pointer || accessTo M LLValue.isLoad pointer) = true := by
  rw [Bool.or_eq_true]
  rcases h with ⟨_, _, _, hv⟩ | ⟨_, hv⟩
  · left
    rw [accessTo, Dimeta.getOperandTo, hv]
    rfl
  · right
    rw [accessTo, Dimeta.getOperandTo, hv]
    rfl

lemma accessTo_isSlot_of_isSlot {pointer : ν} (h : (M.value pointer).isSlot = true) :
    accessTo M LLValue.isSlot pointer = true := by
  rw [accessTo, getOperandTo, if_pos h]
  rfl

variable [DecidableEq ι] [DecidableEq ν] {b t : ι} {n fuel : ℕ}

omit [DecidableEq ι] [DecidableEq ν] in
lemma isArrayMember_of_not_member (hmember : (G.node t).isMember = false) :
    G.isArrayMember t = .ok false := by
  rw [DIGraph.isArrayMember, hmember]
  rfl

/-- A load through a plain pointer, of a type that is no member. -/
lemma resetLoad_of_plain (hmember : (G.node t).isMember = false) {first : Option ι}
    (hfirst : tryResolveToFirstMember G fuel t = .ok first) {pointer : ν}
    (hpointer : IsPlain M pointer) (path : ValuePath ν) (load : ν) :
    resetLoadRelatedBasic G M fuel path (some t) load pointer =
      .ok (first.elim ((G.node t).asDerived.elim (some t) (·.baseType)) some) := by
  have hdescriptor : loadOfDescriptor M pointer = false := by
    rw [loadOfDescriptor, hpointer.getOperandTo hpointer.asGetElementPtr]
    rfl
  have helement : arrayMemberElement G t = .ok none := by
    rw [arrayMemberElement, isArrayMember_of_not_member hmember]
    rfl
  have hloads : loadsFirstMember G M path t load pointer = true := by
    rw [loadsFirstMember, hmember, loadOfArrayGep, hpointer.asGetElementPtr]
    rfl
  rw [resetLoadRelatedBasic, hpointer.accessTo_isSlot, hdescriptor]
  show (arrayMemberElement G t >>= _) = _
  rw [helement, ok_bind, hloads, if_pos rfl, hfirst]
  cases first with
  | some r => rfl
  | none => cases (G.node t).asDerived <;> rfl

omit [DecidableEq ν] in
/-- A store through a plain pointer, to a type that is neither an array nor a member. -/
lemma resetStore_of_plain (hmember : (G.node t).isMember = false)
    (harray : (G.node t).isArray = false) {pointer : ν} {first : Option ι}
    (hfirst : storeToFirstMember G M fuel t pointer = .ok first) (hpointer : IsPlain M pointer) :
    resetStoreRelatedBasic G M fuel (some t) pointer =
      first.elim ((G.node t).asDerived.elim (.ok (some t)) (storeToPointer G t))
        fun r => .ok (some r) := by
  have hnonstatic : (G.node t).isNonStaticMember = false := by
    simp only [DINode.isMember, Bool.or_eq_false_iff] at hmember
    simp [DINode.isNonStaticMember, hmember.1]
  rw [resetStoreRelatedBasic, hpointer.accessTo_isSlot]
  show (if (G.node t).isArray = true then _ else _) = _
  rw [harray, isArrayMember_of_not_member hmember]
  show ((if false = true then .ok none else storeToFirstMember G M fuel t pointer) >>= _) = _
  rw [if_neg (by decide), hfirst]
  cases first with
  | some r => rfl
  | none =>
    cases hd : (G.node t).asDerived with
    | none =>
      simp only
      rfl
    | some d =>
      simp only
      show (if (G.node t).isNonStaticMember = true then _ else _) = _
      rw [hnonstatic]
      rfl

omit [DecidableEq ι] [DecidableEq ν] in
/-- A pointer is removed if a pointer follows. -/
lemma storeToPointer_of_base {s : ι} {d : DIDerivedType ι} (ht : G.node t = .derivedType d)
    (hbase : d.baseType = some s) {p : Prop}
    (hp : p ↔ (G.node t).isPointer = true ∧ (G.node s).isPointer = true) :
    (p → storeToPointer G t d = .ok (some s)) ∧ (¬ p → storeToPointer G t d = .ok (some t)) := by
  rw [ht] at hp
  rw [storeToPointer, hbase]
  constructor
  · intro h
    obtain ⟨ht, hs⟩ := hp.mp h
    rw [if_pos ht]
    show Except.ok (some (if _ then _ else _)) = _
    rw [if_pos hs]
  · intro h
    split
    · next ht =>
      show Except.ok (some (if _ then _ else _)) = _
      rw [if_neg fun hs => h (hp.mpr ⟨ht, hs⟩)]
    · rfl

variable {root : ν}

/-- Loads from a root: each one is through the pointer that the one before it loads. The values are
listed from the last load to the root. -/
inductive Loads (M : IRModule ι ν) (root : ν) : ℕ → List ν → Prop
  | root : Loads M root 0 [root]
  | load {k : ℕ} {v p : ν} {vs : List ν} (hv : M.value v = .load p)
      (hvs : Loads M root k (p :: vs)) : Loads M root (k + 1) (v :: p :: vs)

variable {k : ℕ}

omit [DecidableEq ι] [DecidableEq ν] in
/-- The pointer that is accessed after some loads: the root itself, or a loaded one. -/
lemma Loads.head {v : ν} {vs : List ν} (h : Loads M root k (v :: vs)) :
    (k = 0 ∧ v = root ∧ vs = []) ∨ (k ≠ 0 ∧ ∃ p, M.value v = .load p) := by
  cases h with
  | root => exact .inl ⟨rfl, rfl, rfl⟩
  | load hv => exact .inr ⟨Nat.succ_ne_zero _, _, hv⟩

end Steps

/-! ### A named pointer -/

end Dimeta
