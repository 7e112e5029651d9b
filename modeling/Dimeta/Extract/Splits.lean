import Mathlib.Tactic.FinCases
import Dimeta.DI.Search
import Dimeta.Extract.Records
import Dimeta.Extract.Reset

/-!
# GEPs that are split

A GEP with the indices `[0, i₁, …, iₙ]` leads through nested records to the same member as two GEPs
between which the indices are divided, the second one with an additional 0 in front.
-/

set_option autoImplicit false

namespace Dimeta

variable {ι ν : Type} {G : DIGraph ι} {M : IRModule ι ν}

namespace DIGraph

/-- A record of fields one behind the other; subprograms follow. -/
structure PlainRecord (G : DIGraph ι) (c : DICompositeType ι) (members : List ι) : Prop where
  elements : ∃ subprograms, c.elements = members ++ subprograms ∧
    ∀ e ∈ subprograms, G.node e = .subprogram
  member : ∀ e ∈ members, ∃ d, G.node e = .derivedType d ∧ d.isField = true
  increasing : members.Pairwise fun e e' =>
    ∀ d d', G.node e = .derivedType d → G.node e' = .derivedType d' →
      d.offsetInBits < d'.offsetInBits

/-- Field numbers that lead through nested records, all of them known, to the member `e`, which has
the type `r` up to names and qualifiers. -/
inductive MemberPath (G : DIGraph ι) : DICompositeType ι → List UInt64 → ι → ι → Prop
  | member {c : DICompositeType ι} {members : List ι} {k : UInt64} {e r : ι}
      (hc : G.PlainRecord c members) (he : members[k.toNat]? = some e) (hr : G.Refers e r) :
      MemberPath G c [k] e r
  | nested {c c' : DICompositeType ι} {members : List ι} {k : UInt64} {ks : List UInt64}
      {e n e' r : ι} (hc : G.PlainRecord c members) (he : members[k.toNat]? = some e)
      (hn : G.Refers e n) (hnode : G.node n = .compositeType c') (hrecord : c'.isRecord = true)
      (hcomplete : c'.isForwardDecl = false) (hks : MemberPath G c' ks e' r) :
      MemberPath G c (k :: ks) e' r

namespace PlainRecord

variable {c : DICompositeType ι} {members : List ι}

lemma field (h : G.PlainRecord c members) {k : ℕ} {e : ι} (he : members[k]? = some e) :
    ∃ d, G.node e = .derivedType d ∧ d.isField = true :=
  h.member e (List.mem_of_getElem? he)

lemma isInheritance (h : G.PlainRecord c members) {e : ι} (he : e ∈ c.elements) :
    (G.node e).isInheritance = false := by
  obtain ⟨subprograms, helements, hsub⟩ := h.elements
  rw [helements] at he
  rcases List.mem_append.mp he with he | he
  · obtain ⟨d, hd, hfield⟩ := h.member e he
    have htag : d.tag = .member := by simpa using (Bool.and_eq_true_iff.mp hfield).1
    rw [hd, DINode.isInheritance, DINode.tag, htag]
    rfl
  · rw [hsub e he]
    rfl

/-- The first element is at another place than the second. -/
lemma selectFirstElement (h : G.PlainRecord c members) {e : ι} (he : members[0]? = some e) :
    G.selectFirstElement c.elements = .ok e := by
  obtain ⟨subprograms, helements, hsub⟩ := h.elements
  cases members with
  | nil => cases he
  | cons e₀ ms =>
    obtain rfl := Option.some.inj he
    obtain ⟨d, hd, -⟩ := h.field he
    rw [helements, List.cons_append]
    cases hrest : ms ++ subprograms with
    | nil => rfl
    | cons e' es =>
      rw [DIGraph.selectFirstElement, selectNonZeroElement]
      congr 1
      rcases List.mem_append.mp (hrest ▸ List.mem_cons_self) with hmem | hmem
      · obtain ⟨d', hd', -⟩ := h.member e' (List.mem_cons_of_mem _ hmem)
        have hlt := (List.pairwise_cons.mp h.increasing).1 e' hmem d d' hd hd'
        rw [hd, hd']
        exact if_neg (UInt64.ne_of_lt hlt)
      · rw [hsub e' hmem, hd]
        rfl

/-- Fields are numbered as elements are. -/
lemma gepElement (h : G.PlainRecord c members) {k : ℕ} {e : ι} (he : members[k]? = some e) :
    G.gepElement c.elements k = .ok (k, e) := by
  have hzero : G.eboInheritanceOffset c.elements = .ok 0 :=
    eboInheritanceOffset_eq_zero fun _ he => h.isInheritance he
  cases k with
  | zero => exact gepElement_zero hzero (h.selectFirstElement he)
  | succ k =>
    obtain ⟨subprograms, helements, -⟩ := h.elements
    refine gepElement_pos hzero (Nat.succ_ne_zero k) ?_
    rw [helements, List.getElem?_append_left (List.getElem?_eq_some_iff.mp he).1, he]

/-- A record with a field that is not the first has several members. -/
lemma not_single (h : G.PlainRecord c members) {k : ℕ} {e : ι} (he : members[k]? = some e)
    (hk : k ≠ 0) : c.elements.countP (fun e => (G.node e).isNonStaticMember) ≠ 1 := by
  obtain ⟨subprograms, helements, -⟩ := h.elements
  have hall : members.countP (fun e => (G.node e).isNonStaticMember) = members.length := by
    refine List.countP_eq_length.mpr fun e he => ?_
    obtain ⟨d, hd, hfield⟩ := h.member e he
    rw [hd]
    exact DIDerivedType.isNonStaticMember_of_isField hfield
  have hlt := (List.getElem?_eq_some_iff.mp he).1
  rw [helements, List.countP_append, hall]
  omega

end PlainRecord

lemma isStaticMember_of_field {e : ι} {d : DIDerivedType ι} (hd : G.node e = .derivedType d)
    (hfield : d.isField = true) : G.isStaticMember e = false := by
  have hstatic := (Bool.and_eq_true_iff.mp hfield).2
  rw [isStaticMember, hd]
  exact Bool.not_eq_true' _ ▸ hstatic

/-- A field is never passed over. -/
lemma skipStaticMembers_of_field {e : ι} {d : DIDerivedType ι} (hd : G.node e = .derivedType d)
    (hfield : d.isField = true) (elements : List ι) : G.skipStaticMembers e elements = .ok e := by
  rw [skipStaticMembers_eq, List.find?_cons, isStaticMember_of_field hd hfield]
  rfl

/-- Once a field is found that is a record, the rest of the indices applies to the record. -/
lemma iterate_nested {fuel : ℕ} {c c' : DICompositeType ι} {k : UInt64} {ks : List UInt64}
    {e n : ι} {d : DIDerivedType ι} (he : G.gepElement c.elements k.toNat = .ok (k.toNat, e))
    (hd : G.node e = .derivedType d) (hfield : d.isField = true)
    (hn : G.findNonDerivedTypeUnlessPtr fuel d.baseType = .ok (some n))
    (hnode : G.node n = .compositeType c') (hrecord : c'.isRecord = true) (hks : ks ≠ []) :
    G.iterateGepIndex fuel c (k :: ks) = G.iterateGepIndex fuel c' ks := by
  have harray : (G.node e).isArray = false := by rw [hd]; rfl
  have hderived : (G.node e).asDerived = some d := by rw [hd]; rfl
  have hstruct : (G.node n).isStructOrClass = true := by rw [hnode]; exact hrecord
  have hempty : ks.isEmpty = false := by cases ks with
    | nil => exact absurd rfl hks
    | cons => rfl
  rw [iterateGepIndex, he]
  simp only [ok_bind, harray, Bool.false_eq_true, if_false, skipStaticMembers_of_field hd hfield,
    hderived, hn, deref, hempty, hstruct, if_true]
  rw [hnode]

namespace MemberPath

variable {c : DICompositeType ι} {ks : List UInt64} {e r : ι}

lemma ne_nil (h : G.MemberPath c ks e r) : ks ≠ [] := by
  cases h <;> exact List.cons_ne_nil _ _

/-- The member is found at the end of the path. -/
lemma iterate (h : G.MemberPath c ks e r) :
    ∃ fuel, ∀ fuel', fuel ≤ fuel' →
      G.iterateGepIndex fuel' c ks = .ok { type := some (some r), member := some e } := by
  induction h with
  | member hc he hr =>
    obtain ⟨d, hd, hleads⟩ := hr
    obtain ⟨d', hd', hfield⟩ := hc.field he
    obtain rfl := DINode.derivedType.inj (hd.symm.trans hd')
    obtain ⟨fuel, hfuel⟩ := hleads.find
    refine ⟨fuel, fun fuel' hle => ?_⟩
    refine iterate_of_element (hc.gepElement he) ?_ (skipStaticMembers_of_field hd hfield _) hd
      (hfuel fuel' hle)
    rw [hd]
    rfl
  | nested hc he hn hnode hrecord _ hks ih =>
    obtain ⟨d, hd, hleads⟩ := hn
    obtain ⟨d', hd', hfield⟩ := hc.field he
    obtain rfl := DINode.derivedType.inj (hd.symm.trans hd')
    obtain ⟨fuel, hfuel⟩ := hleads.find
    obtain ⟨fuelRest, hrest⟩ := ih
    refine ⟨max fuel fuelRest, fun fuel' hle => ?_⟩
    rw [iterate_nested (hc.gepElement he) hd hfield (hfuel fuel' (le_of_max_le_left hle)) hnode
      hrecord hks.ne_nil]
    exact hrest fuel' (le_of_max_le_right hle)

lemma head (h : G.MemberPath c ks e r) :
    ∃ k ks' members e', ks = k :: ks' ∧ G.PlainRecord c members ∧ members[k.toNat]? = some e' := by
  cases h with
  | member hc he | nested hc he => exact ⟨_, _, _, _, rfl, hc, he⟩

/-- A record that the path starts in is not skipped, unless by the index 0 that leads through it. -/
lemma resolve [DecidableEq ι] (h : G.MemberPath c ks e r) (n : ι) {indices : List (Option ℤ)}
    (hks : constIndices indices = ks) :
    ∃ fuel, ∀ fuel', fuel ≤ fuel' →
      G.resolveGepIndexToType fuel' n c (steppedIndices indices) =
        .ok { type := some (some r), member := some e } := by
  obtain ⟨fuel, hfuel⟩ := h.iterate
  refine ⟨fuel + 1, fun fuel' hle => ?_⟩
  obtain ⟨fuel', rfl⟩ := Nat.exists_eq_succ_of_ne_zero (by omega : fuel' ≠ 0)
  rw [← hfuel (fuel' + 1) (by omega)]
  obtain ⟨k, ks', members, e', rfl, hc, he⟩ := h.head
  apply resolve_of_not_skipped hks rfl
  by_cases hk : k = 0
  · exact .inl hk
  · exact .inr (skipFirst_of_countP
      (hc.not_single he fun hzero => hk (UInt64.toNat_inj.mp hzero)) fuel')

/-- Where a path is divided there is a member that is a record, and the rest of the path starts in
that record. -/
lemma split {ks₁ ks₂ : List UInt64} (h : G.MemberPath c (ks₁ ++ ks₂) e r) (h₁ : ks₁ ≠ [])
    (h₂ : ks₂ ≠ []) :
    ∃ e₁ n₁ c₁, G.MemberPath c ks₁ e₁ n₁ ∧ G.Refers e₁ n₁ ∧ G.node n₁ = .compositeType c₁ ∧
      c₁.isRecord = true ∧ c₁.isForwardDecl = false ∧ G.MemberPath c₁ ks₂ e r := by
  induction ks₁ generalizing c with
  | nil => exact absurd rfl h₁
  | cons k ks₁ ih =>
    rw [List.cons_append] at h
    generalize hks : ks₁ ++ ks₂ = ks at h
    cases h with
    | member => exact absurd (List.append_eq_nil_iff.mp hks).2 h₂
    | @nested _ c' _ _ _ e' n' _ _ hc he hn hnode hrecord hcomplete hrest =>
      rw [← hks] at hrest
      cases ks₁ with
      | nil => exact ⟨e', n', c', .member hc he hn, hn, hnode, hrecord, hcomplete, hrest⟩
      | cons k' ks₁ =>
        obtain ⟨e₁, n₁, c₁, hfront, hbehind⟩ := ih hrest (List.cons_ne_nil _ _)
        exact ⟨e₁, n₁, c₁, .nested hc he hn hnode hrecord hcomplete hfront, hbehind⟩

end MemberPath

/-- A chain without pointers leads to the same record if it may pass pointers. -/
lemma LeadsTo.of_composite {t : Option ι} {n : ι} {c : DICompositeType ι} {r : Option ι}
    {stop : DINode ι → Bool} (h : G.LeadsTo stop t r) (hr : r = some n)
    (hnode : G.node n = .compositeType c) : G.LeadsTo (fun _ => false) t r := by
  induction h with
  | null => exact .null
  | stop ht =>
    obtain rfl := Option.some.inj hr
    rw [hnode] at ht
    cases ht
  | other ht => exact .other ht
  | step ht _ _ ih => exact .step ht rfl (ih hr)

/-- A member that is a record is a root that is a record. -/
lemma Refers.recordRoot {e n : ι} {c : DICompositeType ι} (h : G.Refers e n)
    (hnode : G.node n = .compositeType c) (hrecord : c.isRecord = true)
    (hcomplete : c.isForwardDecl = false) : G.RecordRoot e n c := by
  obtain ⟨d, hd, hleads⟩ := h
  exact ⟨⟨.step hd rfl (hleads.of_composite rfl hnode), hnode, hcomplete⟩, hrecord⟩

end DIGraph

/-! ### Single and split GEPs -/

/-- A GEP with the indices `[0, i₁, …, iₙ]` over a struct that is no descriptor, without an inlined
location. -/
structure FieldGep (M : IRModule ι ν) (v : ν) (gep : GEPOperator ν) (is : List ℤ) : Prop where
  value : M.value v = .getElementPtr gep ∨ M.value v = .constantGEP gep
  struct : StructGep M v gep (some 0) (is.map some)
  descriptor : isFortranDescriptor gep.sourceElementType = false

lemma constIndices_map_some (is : List ℤ) : constIndices (is.map some) = is.map UInt64.ofInt := by
  rw [constIndices, List.filterMap_map]
  exact congrFun List.filterMap_eq_map' is

section

variable [DecidableEq ι] [DecidableEq ν]

/-- A GEP along a path of members computes the address of the member at its end. -/
lemma extract_of_path {t n e r : ι} {c : DICompositeType ι} (hroot : G.RecordRoot t n c) {v : ν}
    {gep : GEPOperator ν} {is : List ℤ} (hgep : FieldGep M v gep is)
    (h : G.MemberPath c (is.map UInt64.ofInt) e r) :
    ∃ fuel, ∀ fuel', fuel ≤ fuel' →
      extractGepDereferencedType G M fuel' (some t) v gep =
          .ok { type := some (some r), member := some e } ∧
        ∀ path, resetDitype G M fuel' path (some t) v = .ok (some e) := by
  obtain ⟨fuel, hfuel⟩ := extract_of_compositeRoot (M := M) hroot.toCompositeRoot
  obtain ⟨fuel₁, hfuel₁⟩ := h.resolve n (constIndices_map_some is)
  refine ⟨max fuel fuel₁, fun fuel' hle => ?_⟩
  have hextract : extractGepDereferencedType G M fuel' (some t) v gep =
      .ok { type := some (some r), member := some e } := by
    rw [hfuel fuel' (le_of_max_le_left hle) hgep.struct]
    exact hfuel₁ fuel' (le_of_max_le_right hle)
  exact ⟨hextract, resetDitype_gep G M hgep.value hgep.descriptor hextract⟩

/-- Dividing the indices of a GEP among two changes neither the member nor its type. -/
theorem split_gep {t n e r : ι} {c : DICompositeType ι} (hroot : G.RecordRoot t n c)
    {v v₁ v₂ : ν} {gep gep₁ gep₂ : GEPOperator ν} {is₁ is₂ : List ℤ} (h₁ : is₁ ≠ [])
    (h₂ : is₂ ≠ []) (hgep : FieldGep M v gep (is₁ ++ is₂)) (hgep₁ : FieldGep M v₁ gep₁ is₁)
    (hgep₂ : FieldGep M v₂ gep₂ is₂)
    (h : G.MemberPath c ((is₁ ++ is₂).map UInt64.ofInt) e r) (path : ValuePath ν) :
    ∃ fuel e₁, ∀ fuel', fuel ≤ fuel' →
      resetAlong G M fuel' path (some t) [v₁, v₂] = resetDitype G M fuel' path (some t) v ∧
      resetDitype G M fuel' path (some t) v = .ok (some e) ∧
      resetDitype G M fuel' path (some t) v₁ = .ok (some e₁) ∧
      extractGepDereferencedType G M fuel' (some e₁) v₂ gep₂ =
        extractGepDereferencedType G M fuel' (some t) v gep ∧
      extractGepDereferencedType G M fuel' (some t) v gep =
        .ok { type := some (some r), member := some e } := by
  have hdivided := h
  rw [List.map_append] at hdivided
  obtain ⟨e₁, n₁, c₁, hfront, he₁, hnode, hrecord, hcomplete, hbehind⟩ :=
    hdivided.split (by simpa using h₁) (by simpa using h₂)
  obtain ⟨fuel, hwhole⟩ := extract_of_path hroot hgep h
  obtain ⟨fuel₁, hfirst⟩ := extract_of_path hroot hgep₁ hfront
  obtain ⟨fuel₂, hsecond⟩ :=
    extract_of_path (he₁.recordRoot hnode hrecord hcomplete) hgep₂ hbehind
  refine ⟨max fuel (max fuel₁ fuel₂), e₁, fun fuel' hle => ?_⟩
  obtain ⟨hextract, hreset⟩ := hwhole fuel' (by omega)
  obtain ⟨-, hreset₁⟩ := hfirst fuel' (by omega)
  obtain ⟨hextract₂, hreset₂⟩ := hsecond fuel' (by omega)
  refine ⟨?_, hreset path, hreset₁ path, hextract₂.trans hextract.symm, hextract⟩
  rw [hreset path, resetAlong]
  simp only [List.foldlM_cons, List.foldlM_nil, hreset₁ path, ok_bind, hreset₂ path]
  rfl

end

/-! ### A record in a record -/

/-- `struct S { int x; int y; }; struct T { int a; const struct S s; };` and a pointer to `T`. -/
def recordInRecord : DIGraph (Fin 9) where
  node
    | 0 => .derivedType { tag := .pointerType, sizeInBits := 64, baseType := some 1 }
    | 1 => .compositeType { tag := .structureType, name := "T", sizeInBits := 96,
                            elements := [2, 3] }
    | 2 => .derivedType { tag := .member, name := "a", sizeInBits := 32, baseType := some 8 }
    | 3 => .derivedType { tag := .member, name := "s", sizeInBits := 64, offsetInBits := 32,
                          baseType := some 4 }
    | 4 => .derivedType { tag := .constType, baseType := some 5 }
    | 5 => .compositeType { tag := .structureType, name := "S", sizeInBits := 64,
                            elements := [6, 7] }
    | 6 => .derivedType { tag := .member, name := "x", sizeInBits := 32, baseType := some 8 }
    | 7 => .derivedType { tag := .member, name := "y", sizeInBits := 32, offsetInBits := 32,
                          baseType := some 8 }
    | 8 => .basicType { name := "int", sizeInBits := 32, encoding := .signed }

/-- The address of a field, of `T` or of `S`, in the object at `pointer`. -/
def fieldOf (pointer : Fin 4) (elements : List LLType) (is : List ℤ) : GEPOperator (Fin 4) where
  sourceElementType := .struct elements
  pointerOperand := pointer
  indices := some 0 :: is.map some
  dynamicOperands := []

/-- A function with the parameter `p`, where the address of `p->s.y` is computed by the GEP 1, and
again by the GEPs 2 and 3. -/
def computesTwice : IRModule (Fin 9) (Fin 4) where
  value
    | 0 => .argument { name := "f", subprogram := none } 0 false
    | 1 => .getElementPtr (fieldOf 0 [.integer 32, .struct [.integer 32, .integer 32]] [1, 1])
    | 2 => .getElementPtr (fieldOf 0 [.integer 32, .struct [.integer 32, .integer 32]] [1])
    | 3 => .getElementPtr (fieldOf 2 [.integer 32, .integer 32] [1])
  users
    | 0 => [1, 2]
    | 1 => []
    | 2 => [3]
    | 3 => []
  mem_users := by decide
  debugLoc _ := none
  dbgRecords := []

lemma plainRecord_recordInRecord :
    recordInRecord.PlainRecord { tag := .structureType, name := "T", sizeInBits := 96,
                                 elements := [2, 3] } [2, 3] ∧
      recordInRecord.PlainRecord { tag := .structureType, name := "S", sizeInBits := 64,
                                   elements := [6, 7] } [6, 7] := by
  constructor
  all_goals
    refine ⟨⟨[], rfl, fun e he => by cases he⟩, fun e he => ?_, ?_⟩
    · fin_cases he <;> exact ⟨_, rfl, rfl⟩
    · refine List.pairwise_pair.mpr fun d d' hd hd' => ?_
      obtain rfl := DINode.derivedType.inj hd
      obtain rfl := DINode.derivedType.inj hd'
      decide

theorem split_gep_recordInRecord :
    ∃ fuel e₁, ∀ fuel', fuel ≤ fuel' →
      resetAlong recordInRecord computesTwice fuel' ⟨[3, 2, 0]⟩ (some 0) [2, 3] =
          resetDitype recordInRecord computesTwice fuel' ⟨[3, 2, 0]⟩ (some 0) 1 ∧
        resetDitype recordInRecord computesTwice fuel' ⟨[3, 2, 0]⟩ (some 0) 1 = .ok (some 7) ∧
        resetDitype recordInRecord computesTwice fuel' ⟨[3, 2, 0]⟩ (some 0) 2 = .ok (some e₁) ∧
        extractGepDereferencedType recordInRecord computesTwice fuel' (some e₁) 3
            (fieldOf 2 [.integer 32, .integer 32] [1]) =
          extractGepDereferencedType recordInRecord computesTwice fuel' (some 0) 1
            (fieldOf 0 [.integer 32, .struct [.integer 32, .integer 32]] [1, 1]) ∧
        extractGepDereferencedType recordInRecord computesTwice fuel' (some 0) 1
            (fieldOf 0 [.integer 32, .struct [.integer 32, .integer 32]] [1, 1]) =
          .ok { type := some (some 8), member := some 7 } := by
  have hne : ([1] : List ℤ) ≠ [] := List.cons_ne_nil _ _
  refine split_gep (t := 0) (n := 1) ⟨⟨.step rfl rfl (.other rfl), rfl, by decide⟩, rfl⟩ hne hne
    ⟨.inl rfl, ⟨rfl, by simp, ⟨_, rfl⟩, rfl⟩, rfl⟩
    ⟨.inl rfl, ⟨rfl, by simp, ⟨_, rfl⟩, rfl⟩, rfl⟩
    ⟨.inl rfl, ⟨rfl, by simp, ⟨_, rfl⟩, rfl⟩, rfl⟩ ?_ _
  exact .nested plainRecord_recordInRecord.1 rfl ⟨_, rfl, .step rfl rfl (.other rfl)⟩ rfl rfl
    (by decide) (.member plainRecord_recordInRecord.2 rfl ⟨_, rfl, .other rfl⟩)

end Dimeta
