import Dimeta.Core.Recursion
import Dimeta.Extract.NullElements

/-!
# Where the look-through ends

The look-through counts the non-static members of a record, but steps into whichever element is
selected. An element that is no part of the record, such as a static member, may have the type of a
record that was passed before, and then the same records are passed again.
-/

set_option autoImplicit false

namespace Dimeta

open Relation

variable {ι : Type} {G : DIGraph ι}

namespace DIGraph

variable (G) in
/-- The look-through passes the record `r`: its element `e` is selected and leads to the composite
`r'`. -/
def PassesBy (e r r' : ι) : Prop :=
  ∃ c c', G.node r = .compositeType c ∧
    c.elements.countP (fun e => (G.node e).isNonStaticMember) = 1 ∧
    G.selectFirstElement c.elements = .ok e ∧
    G.LeadsTo DINode.isPointerLike (if (G.node e).isType then some e else none) (some r') ∧
    G.node r' = .compositeType c'

variable (G) in
/-- The composite that comes next in the look-through. -/
def LooksThrough (r r' : ι) : Prop := ∃ e, G.PassesBy e r r'

variable (G) in
/-- A part of a record: a member that is not static, or a base. -/
def IsPart (e : ι) : Prop :=
  ∃ d, G.node e = .derivedType d ∧
    (d.tag = .member ∧ d.isStaticMember = false ∨ d.tag = .inheritance)

variable (G) in
/-- A part of `r` is of the composite type `r'`. -/
def HasByValue (r r' : ι) : Prop :=
  ∃ c c' e, G.node r = .compositeType c ∧ e ∈ c.elements ∧ G.IsPart e ∧ G.Refers e r' ∧
    G.node r' = .compositeType c'

variable (G) in
/-- Names and qualifiers in front of a type come to an end, and no record is a part of itself. -/
structure SizedRecords : Prop where
  named : ∀ r c, G.node r = .compositeType c → ∀ e ∈ c.elements, ∀ d,
    G.node e = .derivedType d → ∃ x, G.LeadsTo DINode.isPointerLike d.baseType x
  sized : ∀ r, ¬ TransGen G.HasByValue r r

variable (G) in
/-- If the record has a single member, all its elements have a type, as members, static members and
bases do. -/
def TypedElements (r : ι) : Prop :=
  ∀ c, G.node r = .compositeType c →
    c.elements.countP (fun e => (G.node e).isNonStaticMember) = 1 →
      ∀ e ∈ c.elements, ∃ t, G.Refers e t

variable (G) in
/-- The look-through comes back with a record, or ends at an element without a type. -/
def SkipEnds (n : ι) (c : DICompositeType ι) : Prop :=
  ∃ fuel, (∃ r, ∀ fuel', fuel ≤ fuel' → G.skipFirstGepAccess fuel' n c = .ok r) ∨
    ∀ fuel', fuel ≤ fuel' → G.skipFirstGepAccess fuel' n c = .error .nullType

lemma LooksThrough.countP_eq_one {r r' : ι} {c : DICompositeType ι} (h : G.LooksThrough r r')
    (hr : G.node r = .compositeType c) :
    c.elements.countP (fun e => (G.node e).isNonStaticMember) = 1 := by
  obtain ⟨e, c₁, c', hc₁, hcount, -⟩ := h
  obtain rfl := DINode.compositeType.inj (hr.symm.trans hc₁)
  exact hcount

/-- What is selected leads to one place only. -/
lemma LooksThrough.leadsTo {r r' e : ι} {c : DICompositeType ι} {x : Option ι}
    (h : G.LooksThrough r r') (hr : G.node r = .compositeType c)
    (he : G.selectFirstElement c.elements = .ok e)
    (hx : G.LeadsTo DINode.isPointerLike (if (G.node e).isType then some e else none) x) :
    x = some r' := by
  obtain ⟨e₁, c₁, c', hc₁, -, he₁, hleads, -⟩ := h
  obtain rfl := DINode.compositeType.inj (hr.symm.trans hc₁)
  obtain rfl := Except.ok.inj (he.symm.trans he₁)
  exact hx.unique hleads

/-- A look-through that comes to an end has passed finitely many records. -/
lemma Skips.acc {n : ι} {c : DICompositeType ι} {x : Option (DICompositeType ι)} (h : G.Skips c x)
    (hn : G.node n = .compositeType c) : Acc (fun r' r => G.LooksThrough r r') n := by
  induction h generalizing n with
  | several hcount => exact ⟨n, fun r hr => absurd (hr.countP_eq_one hn) hcount⟩
  | null hcount he hnull =>
    refine ⟨n, fun r hr => ?_⟩
    cases hr.leadsTo hn he hnull
  | other hcount he hother hnode =>
    refine ⟨n, fun r hr => ?_⟩
    cases hr.leadsTo hn he hother
    obtain ⟨-, -, c', -, -, -, -, hc'⟩ := hr
    rw [hc'] at hnode
    cases hnode
  | step hcount he hnext hnode _ ih =>
    refine ⟨n, fun r hr => ?_⟩
    cases hr.leadsTo hn he hnext
    exact ih hnode

lemma mem_of_selectFirstElement {elements : List ι} {e : ι}
    (he : G.selectFirstElement elements = .ok e) : e ∈ elements := by
  match elements, he with
  | [_], he =>
    obtain rfl := Except.ok.inj he
    exact List.mem_cons_self
  | e₁ :: e₂ :: _, he =>
    obtain rfl := Except.ok.inj he
    rcases BasesAndMembers.selectNonZeroElement_eq (G := G) e₁ e₂ with hsel | hsel
    · rw [hsel]
      exact List.mem_cons_self
    · rw [hsel]
      exact List.mem_cons_of_mem e₁ List.mem_cons_self

/-- The chain from what is selected comes to an end. -/
lemma SizedRecords.exists_leadsTo (h : G.SizedRecords) {n e : ι} {c : DICompositeType ι}
    (hn : G.node n = .compositeType c) (he : G.selectFirstElement c.elements = .ok e) :
    ∃ x, G.LeadsTo DINode.isPointerLike (if (G.node e).isType then some e else none) x := by
  split_ifs with htype
  · cases hd : G.node e with
    | derivedType d =>
      cases hpointer : (DINode.derivedType d).isPointerLike with
      | true => exact ⟨some e, .stop hd hpointer⟩
      | false =>
        obtain ⟨x, hx⟩ := h.named n c hn e (mem_of_selectFirstElement he) d hd
        exact ⟨x, .step hd hpointer hx⟩
    | _ => exact ⟨some e, .other (by rw [hd]; rfl)⟩
  · exact ⟨none, .null⟩

section SkipEnds

variable {n e t : ι} {c c' : DICompositeType ι}

/-- Where what is selected is no composite, the record is the result. -/
lemma skipEnds_of_other (hcount : c.elements.countP (fun e => (G.node e).isNonStaticMember) = 1)
    (he : G.selectFirstElement c.elements = .ok e)
    (hleads : G.LeadsTo DINode.isPointerLike (if (G.node e).isType then some e else none) (some t))
    (ht : ∀ c', G.node t ≠ .compositeType c') : G.SkipEnds n c := by
  obtain ⟨fuel, hfuel⟩ := hleads.find
  refine ⟨fuel + 1, .inl ⟨(n, c), fun fuel' hle => ?_⟩⟩
  obtain ⟨fuel', rfl⟩ := Nat.exists_eq_add_of_le' (Nat.le_of_add_left_le hle)
  rw [skipFirst_succ hcount he (hfuel fuel' (Nat.le_of_succ_le_succ hle))]
  simp only [deref, ok_bind]
  rfl

lemma skipEnds_of_null (hcount : c.elements.countP (fun e => (G.node e).isNonStaticMember) = 1)
    (he : G.selectFirstElement c.elements = .ok e)
    (hleads : G.LeadsTo DINode.isPointerLike (if (G.node e).isType then some e else none) none) :
    G.SkipEnds n c := by
  obtain ⟨fuel, hfuel⟩ := hleads.find
  refine ⟨fuel + 1, .inr fun fuel' hle => ?_⟩
  obtain ⟨fuel', rfl⟩ := Nat.exists_eq_add_of_le' (Nat.le_of_add_left_le hle)
  rw [skipFirst_succ hcount he (hfuel fuel' (Nat.le_of_succ_le_succ hle))]
  rfl

/-- A record that is passed ends as the next one does. -/
lemma SkipEnds.of_next (hcount : c.elements.countP (fun e => (G.node e).isNonStaticMember) = 1)
    (he : G.selectFirstElement c.elements = .ok e)
    (hleads : G.LeadsTo DINode.isPointerLike (if (G.node e).isType then some e else none) (some t))
    (ht : G.node t = .compositeType c') (h : G.SkipEnds t c') : G.SkipEnds n c := by
  obtain ⟨fuel, hfuel⟩ := hleads.find
  obtain ⟨fuel₁, hends⟩ := h
  have hnext : ∀ fuel', max fuel fuel₁ + 1 ≤ fuel' → ∃ fuel'', fuel₁ ≤ fuel'' ∧
      G.skipFirstGepAccess fuel' n c = G.skipFirstGepAccess fuel'' t c' := by
    intro fuel' hle
    obtain ⟨fuel', rfl⟩ := Nat.exists_eq_add_of_le' (Nat.le_of_add_left_le hle)
    have hle := Nat.le_of_succ_le_succ hle
    refine ⟨fuel', le_of_max_le_right hle, ?_⟩
    rw [skipFirst_succ hcount he (hfuel fuel' (le_of_max_le_left hle))]
    simp only [deref, ok_bind, ht]
  refine ⟨max fuel fuel₁ + 1, ?_⟩
  rcases hends with ⟨r, hr⟩ | hnull
  · refine .inl ⟨r, fun fuel' hle => ?_⟩
    obtain ⟨fuel'', hle', heq⟩ := hnext fuel' hle
    rw [heq, hr fuel'' hle']
  · refine .inr fun fuel' hle => ?_
    obtain ⟨fuel'', hle', heq⟩ := hnext fuel' hle
    rw [heq, hnull fuel'' hle']

/-- It ends somewhere. -/
lemma SkipEnds.exists_skips (h : G.SkipEnds n c) : ∃ x, G.Skips c x := by
  obtain ⟨fuel, ⟨⟨n', c'⟩, hr⟩ | hnull⟩ := h
  · have hfound : Prod.snd <$> G.skipFirstGepAccess fuel n c = deref (some c') := by
      rw [hr fuel (Nat.le_refl fuel)]
      rfl
    exact ⟨some c', skips_of_skipFirst hfound⟩
  · have hnone : Prod.snd <$> G.skipFirstGepAccess fuel n c = deref none := by
      rw [hnull fuel (Nat.le_refl fuel)]
      rfl
    exact ⟨none, skips_of_skipFirst hnone⟩

end SkipEnds

/-- Where only finitely many records are passed, the look-through ends. -/
lemma SizedRecords.skipEnds (h : G.SizedRecords) {n : ι} {c : DICompositeType ι}
    (hn : G.node n = .compositeType c) (hacc : Acc (fun r' r => G.LooksThrough r r') n) :
    G.SkipEnds n c := by
  induction hacc generalizing c with
  | intro n _ ih =>
    by_cases hcount : c.elements.countP (fun e => (G.node e).isNonStaticMember) = 1
    · have hne : c.elements ≠ [] := by
        intro hnil
        rw [hnil] at hcount
        cases hcount
      obtain ⟨e, he⟩ := G.exists_selectFirstElement hne
      obtain ⟨x, hleads⟩ := h.exists_leadsTo hn he
      cases x with
      | none => exact skipEnds_of_null hcount he hleads
      | some t =>
        by_cases ht : ∃ c', G.node t = .compositeType c'
        · obtain ⟨c', hc'⟩ := ht
          exact .of_next hcount he hleads hc' (ih t ⟨e, c, c', hn, hcount, he, hleads, hc'⟩ hc')
        · exact skipEnds_of_other hcount he hleads (not_exists.mp ht)
    · refine ⟨1, .inl ⟨(n, c), fun fuel' hle => ?_⟩⟩
      obtain ⟨fuel', rfl⟩ := Nat.exists_eq_add_of_le' hle
      exact skipFirst_of_countP hcount fuel'

/-- Elements with a type do not lead to a missing one. -/
lemma Skips.ne_none {n : ι} {c : DICompositeType ι} {x : Option (DICompositeType ι)}
    (h : G.Skips c x) (hn : G.node n = .compositeType c)
    (htyped : ∀ r, ReflTransGen G.LooksThrough n r → G.TypedElements r) : x ≠ none := by
  induction h generalizing n with
  | several | other => exact Option.some_ne_none _
  | @null c e hcount he hnull =>
    obtain ⟨t, d, hd, ht⟩ := htyped n .refl c hn hcount e (mem_of_selectFirstElement he)
    have htype : (G.node e).isType = true := by
      rw [hd]
      rfl
    rw [if_pos htype] at hnull
    cases hnull with
    | step hd' _ hbase =>
      obtain rfl := DINode.derivedType.inj (hd.symm.trans hd')
      cases ht.unique hbase
  | step hcount he hnext hnode _ ih =>
    have hpass : G.LooksThrough n _ := ⟨_, _, _, hn, hcount, he, hnext, hnode⟩
    exact ih hnode fun r hr => htyped r (.head hpass hr)

/-- With typed elements the look-through comes back with a record. -/
lemma SkipEnds.exists_ok {n : ι} {c : DICompositeType ι} (h : G.SkipEnds n c)
    (hn : G.node n = .compositeType c)
    (htyped : ∀ r, ReflTransGen G.LooksThrough n r → G.TypedElements r) :
    ∃ fuel r, ∀ fuel', fuel ≤ fuel' → G.skipFirstGepAccess fuel' n c = .ok r := by
  obtain ⟨fuel, ⟨r, hr⟩ | hnull⟩ := h
  · exact ⟨fuel, r, hr⟩
  · have hskips : G.Skips c none := by
      apply skips_of_skipFirst
      rw [hnull fuel (Nat.le_refl fuel)]
      rfl
    exact absurd rfl (hskips.ne_none hn htyped)

/-- A record that is passed by one of its parts has what comes next by value. -/
lemma PassesBy.hasByValue {e r r' : ι} (hpass : G.PassesBy e r r') (hpart : G.IsPart e) :
    G.HasByValue r r' := by
  obtain ⟨c, c', hr, -, he, hleads, hr'⟩ := hpass
  obtain ⟨d, hd, hkind⟩ := hpart
  refine ⟨c, c', e, hr, mem_of_selectFirstElement he, ⟨d, hd, hkind⟩, ⟨d, hd, ?_⟩, hr'⟩
  have htype : (G.node e).isType = true := by
    rw [hd]
    rfl
  rw [if_pos htype] at hleads
  cases hleads with
  | stop => cases hd.symm.trans hr'
  | other hother =>
    rw [hd] at hother
    cases hother
  | step hd' _ hbase =>
    obtain rfl := DINode.derivedType.inj (hd.symm.trans hd')
    exact hbase

/-- On each cycle a record is passed by an element that is no part of it. -/
lemma SizedRecords.exists_pass_of_cycle (h : G.SizedRecords) {r : ι}
    (hcycle : TransGen G.LooksThrough r r) :
    ∃ e r₁ r₂, ReflTransGen G.LooksThrough r r₁ ∧ G.PassesBy e r₁ r₂ ∧ ¬ G.IsPart e ∧
      ReflTransGen G.LooksThrough r₂ r := by
  by_contra hnone
  have hparts : ∀ r', TransGen G.LooksThrough r r' → ReflTransGen G.LooksThrough r' r →
      TransGen G.HasByValue r r' := by
    intro r' hto hback
    induction hto with
    | single hstep =>
      obtain ⟨e, hpass⟩ := hstep
      have hpart : G.IsPart e := by
        by_contra hpart
        exact hnone ⟨e, r, _, .refl, hpass, hpart, hback⟩
      exact .single (hpass.hasByValue hpart)
    | tail hto hstep ih =>
      have hto' := hto.to_reflTransGen
      obtain ⟨e, hpass⟩ := hstep
      have hpart : G.IsPart e := by
        by_contra hpart
        exact hnone ⟨e, _, _, hto', hpass, hpart, hback⟩
      exact (ih (.head ⟨e, hpass⟩ hback)).tail (hpass.hasByValue hpart)
  exact h.sized r (hparts r hcycle .refl)

variable (G) in
/-- The look-through from `n` passes a record by an element that is no part of it, such as a static
member, and is led back to that record. -/
def LedBack (n : ι) : Prop :=
  ∃ e r r', ReflTransGen G.LooksThrough n r ∧ G.PassesBy e r r' ∧ ¬ G.IsPart e ∧
    ReflTransGen G.LooksThrough r' r

lemma SizedRecords.skipEnds_iff [Finite ι] (h : G.SizedRecords) {n : ι} {c : DICompositeType ι}
    (hn : G.node n = .compositeType c) : G.SkipEnds n c ↔ ¬ G.LedBack n := by
  have hacyclic := Recursion.acc_iff_no_cycle (r := G.LooksThrough) (x := n) (Set.toFinite _)
  constructor
  · rintro hends ⟨e, r, r', hreach, hpass, -, hback⟩
    obtain ⟨x, hskips⟩ := hends.exists_skips
    exact hacyclic.mp (hskips.acc hn) r hreach (.head' ⟨e, hpass⟩ hback)
  · intro hnone
    have hacc : Acc (fun r' r => G.LooksThrough r r') n := by
      rw [hacyclic]
      intro r hreach hcycle
      obtain ⟨e, r₁, r₂, hto, hpass, hpart, hback⟩ := h.exists_pass_of_cycle hcycle
      exact hnone ⟨e, r₁, r₂, hreach.trans hto, hpass, hpart, hback.trans hto⟩
    exact h.skipEnds hn hacc

/-- The look-through ends exactly if it is not led back to a record, through an element that is no
part of it. If the elements of the records that are passed have a type, it comes back with a
record. -/
theorem SizedRecords.skip_ends_iff [Finite ι] (h : G.SizedRecords) {n : ι} {c : DICompositeType ι}
    (hn : G.node n = .compositeType c) :
    (G.SkipEnds n c ↔ ¬ G.LedBack n) ∧
    ((∀ r, ReflTransGen G.LooksThrough n r → G.TypedElements r) →
      ((∃ fuel r, ∀ fuel', fuel ≤ fuel' → G.skipFirstGepAccess fuel' n c = .ok r) ↔
        ¬ G.LedBack n)) := by
  refine ⟨h.skipEnds_iff hn, fun htyped => ?_⟩
  rw [← h.skipEnds_iff hn]
  constructor
  · rintro ⟨fuel, r, hr⟩
    exact ⟨fuel, .inl ⟨r, hr⟩⟩
  · exact fun hends => hends.exists_ok hn htyped

end DIGraph

/-! ### A record with an instance of its own -/

abbrev ownInstanceRecord : DICompositeType (Fin 4) where
  tag := .structureType
  name := "S"
  sizeInBits := 32
  elements := [1, 2]

/-- `struct S { int y; static S instance; };`, where both members are at offset 0. -/
def ownInstance : DIGraph (Fin 4) where
  node
    | 0 => .compositeType ownInstanceRecord
    | 1 => .derivedType { tag := .member, name := "y", sizeInBits := 32, baseType := some 3 }
    | 2 => .derivedType { tag := .member, name := "instance", flags := DIFlags.staticMember,
                          baseType := some 0 }
    | 3 => .basicType { name := "int", sizeInBits := 32, encoding := .signed }

lemma refers_ownInstance : ownInstance.Refers 1 3 ∧ ownInstance.Refers 2 0 :=
  ⟨⟨_, rfl, .other rfl⟩, ⟨_, rfl, .other rfl⟩⟩

lemma typedElements_ownInstance (r : Fin 4) : ownInstance.TypedElements r := by
  intro c hc _ e he
  fin_cases r <;> cases hc
  rcases List.mem_pair.mp he with rfl | rfl
  · exact ⟨3, refers_ownInstance.1⟩
  · exact ⟨0, refers_ownInstance.2⟩

lemma sizedRecords_ownInstance : ownInstance.SizedRecords where
  named r c hc e he d hd := by
    fin_cases r <;> cases hc
    rcases List.mem_pair.mp he with rfl | rfl
    · cases hd
      exact ⟨some 3, .other rfl⟩
    · cases hd
      exact ⟨some 0, .other rfl⟩
  sized r hcycle := by
    -- the only part is an integer
    have hnone : ∀ r', ¬ ownInstance.HasByValue r r' := by
      rintro r' ⟨c, c', e, hc, he, hpart, ⟨d, hd, hleads⟩, hc'⟩
      fin_cases r <;> cases hc
      rcases List.mem_pair.mp he with rfl | rfl
      · cases hd
        have hint : ownInstance.LeadsTo DINode.isPointerLike (some 3) (some 3) := .other rfl
        obtain rfl := Option.some.inj (hleads.unique hint)
        cases hc'
      · obtain ⟨d', hd', ⟨-, hstatic⟩ | hbase⟩ := hpart
        · cases hd'
          cases hstatic
        · cases hd'
          cases hbase
    obtain ⟨r', hstep, -⟩ := TransGen.head'_iff.mp hcycle
    exact hnone r' hstep

theorem DIGraph.SizedRecords.skip_ends_iff_ownInstance :
    (ownInstance.SkipEnds 0 ownInstanceRecord ↔ ¬ ownInstance.LedBack 0) ∧
    ((∃ fuel r, ∀ fuel', fuel ≤ fuel' →
      ownInstance.skipFirstGepAccess fuel' 0 ownInstanceRecord = .ok r) ↔
        ¬ ownInstance.LedBack 0) := by
  have hn : ownInstance.node 0 = .compositeType ownInstanceRecord := rfl
  obtain ⟨hends, hok⟩ := sizedRecords_ownInstance.skip_ends_iff hn
  exact ⟨hends, hok fun r _ => typedElements_ownInstance r⟩

/-- The static member is selected, as it has the offset of the first one, and its type is `S`. -/
theorem not_skip_ends : ¬ ∀ (G : DIGraph (Fin 4)) (n : Fin 4) (c : DICompositeType (Fin 4)),
    G.SizedRecords → (∀ r, G.TypedElements r) → G.node n = .compositeType c →
    ∃ fuel, G.skipFirstGepAccess fuel n c ≠ .error .outOfFuel := by
  intro h
  obtain ⟨fuel, hends⟩ := h ownInstance 0 _ sizedRecords_ownInstance typedElements_ownInstance rfl
  have hskips : ∀ fuel, ownInstance.skipFirstGepAccess fuel 0 ownInstanceRecord =
      .error .outOfFuel := by
    intro fuel
    induction fuel with
    | zero => rfl
    | succ fuel ih =>
      match fuel, ih with
      | 0, _ => rfl
      | 1, _ => rfl
      | fuel + 2, ih => exact ih
  exact hends (hskips fuel)

end Dimeta
