import Mathlib.Tactic.FinCases
import Dimeta.Extract.FirstMember
import Dimeta.Extract.Splits
import Dimeta.Extract.TBAA

/-!
# Fields by number, by byte and by tag

A field of nested records is addressed by field numbers or, where a GEP is lowered to bytes, by one
offset into the outermost record; an access tag gives such an offset, too. All lead to the same
member, as long as the search for the byte saves no stray member.
-/

set_option autoImplicit false

namespace Dimeta

variable {ι ν : Type}

namespace DIGraph

/-! ### Places of fields -/

/-- Field numbers lead from the record `n`, which starts at byte `B`, to the field `e`, which starts
at byte `b`. -/
inductive FieldAt (G : DIGraph ι) : ℕ → ι → List UInt64 → ℕ → ι → DIDerivedType ι → Prop
  | field {B : ℕ} {n e : ι} {c : DICompositeType ι} {members : List ι} {k : UInt64}
      {d : DIDerivedType ι} (hn : G.node n = .compositeType c) (hc : G.PlainRecord c members)
      (he : members[k.toNat]? = some e) (hd : G.node e = .derivedType d) :
      FieldAt G B n [k] (B + d.byteOffset) e d
  | nested {B b : ℕ} {n t e e' : ι} {c c' : DICompositeType ι} {members : List ι} {k : UInt64}
      {ks : List UInt64} {d d' : DIDerivedType ι} (hn : G.node n = .compositeType c)
      (hc : G.PlainRecord c members) (he' : members[k.toNat]? = some e')
      (hd' : G.node e' = .derivedType d') (ht : d'.baseType = some t)
      (hnode : G.node t = .compositeType c') (hrecord : c'.isRecord = true)
      (hcomplete : c'.isForwardDecl = false) (hks : FieldAt G (B + d'.byteOffset) t ks b e d) :
      FieldAt G B n (k :: ks) b e d

variable {G : DIGraph ι}

lemma PlainRecord.mem_elements {c : DICompositeType ι} {members : List ι}
    (h : G.PlainRecord c members) {k : ℕ} {e : ι} (he : members[k]? = some e) : e ∈ c.elements := by
  obtain ⟨subprograms, helements, -⟩ := h.elements
  rw [helements]
  exact List.mem_append_left _ (List.mem_of_getElem? he)

/-- A field lies between the bounds, and its type is as the layout has it. -/
lemma Fields.of_mem {lo hi : ℕ} {es : List ι} (h : G.Fields lo hi es) {e : ι} (he : e ∈ es)
    {d : DIDerivedType ι} (hd : G.node e = .derivedType d) :
    lo ≤ d.byteOffset ∧ d.byteOffset + d.byteSize ≤ hi ∧
      ∀ t c, d.baseType = some t → G.node t = .compositeType c → c.isRecord = true →
        c.byteSize ≤ d.byteSize := by
  induction h with
  | nil => cases he
  | method hmethod _ ih =>
    rcases List.mem_cons.mp he with rfl | he
    · rw [hmethod] at hd
      cases hd
    · exact ih he
  | field hfield hisField hbase htype hlo hhi _ ih =>
    rcases List.mem_cons.mp he with rfl | he
    · obtain rfl := DINode.derivedType.inj (hd.symm.trans hfield)
      refine ⟨hlo, hhi, fun t c ht hc hrecord => ?_⟩
      obtain rfl := Option.some.inj (ht.symm.trans hbase)
      rcases htype with hstops | hscalar | ⟨c', hc', -, hsize⟩
      · rw [not_isRecord_of_head hc hstops] at hrecord
        cases hrecord
      · cases hscalar with
        | enumeration hn htag =>
          obtain rfl := DINode.compositeType.inj (hc.symm.trans hn)
          simp [DICompositeType.isRecord, htag] at hrecord
        | basic hn | string hn | sugar hn => rw [hc] at hn; cases hn
      · obtain rfl := DINode.compositeType.inj (hc.symm.trans hc')
        exact hsize
    · obtain ⟨hle, hrest⟩ := ih he
      exact ⟨by omega, hrest⟩

/-- Two fields that contain one byte are the same. -/
lemma Fields.eq_of_contains {lo hi : ℕ} {es : List ι} (h : G.Fields lo hi es) {B b : ℕ} {e e' : ι}
    (he : e ∈ es) (he' : e' ∈ es) {d d' : DIDerivedType ι} (hd : G.node e = .derivedType d)
    (hd' : G.node e' = .derivedType d') (hb : d.contains B b = true)
    (hb' : d'.contains B b = true) : e = e' := by
  simp only [DIDerivedType.contains, Bool.and_eq_true, decide_eq_true_eq] at hb hb'
  induction h with
  | nil => cases he
  | method hmethod _ ih =>
    rcases List.mem_cons.mp he with rfl | he
    · rw [hmethod] at hd
      cases hd
    · rcases List.mem_cons.mp he' with rfl | he'
      · rw [hmethod] at hd'
        cases hd'
      · exact ih he he'
  | field hfield _ _ _ _ _ hes ih =>
    -- what follows a field starts behind it
    rcases List.mem_cons.mp he with rfl | hmem
    · rcases List.mem_cons.mp he' with rfl | hmem'
      · rfl
      · obtain rfl := DINode.derivedType.inj (hd.symm.trans hfield)
        have hbehind := (hes.of_mem hmem' hd').1
        omega
    · rcases List.mem_cons.mp he' with rfl | hmem'
      · obtain rfl := DINode.derivedType.inj (hd'.symm.trans hfield)
        have hbehind := (hes.of_mem hmem hd).1
        omega
      · exact ih hmem hmem'

lemma LaidOut.fields {n : ι} {c : DICompositeType ι} (h : G.LaidOut n)
    (hn : G.node n = .compositeType c) : G.Fields 0 c.byteSize c.elements := by
  cases h with
  | record hn' _ _ hfields =>
    obtain rfl := DINode.compositeType.inj (hn.symm.trans hn')
    exact hfields

lemma LaidOut.nested {n t : ι} (h : G.LaidOut n) (ht : G.Nests n t) : G.LaidOut t := by
  cases h with
  | record _ _ _ _ hnested => exact hnested t ht

namespace FieldAt

variable {B b : ℕ} {n e : ι} {ks : List UInt64} {d : DIDerivedType ι}

lemma node (h : G.FieldAt B n ks b e d) : G.node e = .derivedType d := by
  induction h with
  | field _ _ _ hd => exact hd
  | nested _ _ _ _ _ _ _ _ _ ih => exact ih

lemma isField (h : G.FieldAt B n ks b e d) : d.isField = true := by
  induction h with
  | field _ hc he hd =>
    obtain ⟨d', hd', hfield⟩ := hc.field he
    obtain rfl := DINode.derivedType.inj (hd.symm.trans hd')
    exact hfield
  | nested _ _ _ _ _ _ _ _ _ ih => exact ih

/-- The numbers are a path to the member. -/
lemma memberPath (h : G.FieldAt B n ks b e d) {r : ι} (hr : G.Refers e r) {c : DICompositeType ι}
    (hn : G.node n = .compositeType c) : G.MemberPath c ks e r := by
  induction h generalizing c with
  | field hn' hc he _ =>
    obtain rfl := DINode.compositeType.inj (hn.symm.trans hn')
    exact .member hc he hr
  | @nested B b n t e e' c₁ c' members k ks d d' hn' hc he' hd' ht hnode hrecord hcomplete _ ih =>
    obtain rfl := DINode.compositeType.inj (hn.symm.trans hn')
    have hother : (G.node t).asDerived = none := by
      rw [hnode]
      rfl
    have hrefers : G.Refers e' t := ⟨d', hd', by rw [ht]; exact .other hother⟩
    exact .nested hc he' hrefers hnode hrecord hcomplete (ih hr hnode)

/-- The field is inside the record. -/
lemma bounds (h : G.FieldAt B n ks b e d) (hlaid : G.LaidOut n) {c : DICompositeType ι}
    (hn : G.node n = .compositeType c) : B ≤ b ∧ b + d.byteSize ≤ B + c.byteSize := by
  induction h generalizing c with
  | field hn' hc he hd =>
    obtain rfl := DINode.compositeType.inj (hn.symm.trans hn')
    obtain ⟨-, hhi, -⟩ := (hlaid.fields hn).of_mem (hc.mem_elements he) hd
    omega
  | nested hn' hc he' hd' ht hnode hrecord _ _ ih =>
    obtain rfl := DINode.compositeType.inj (hn.symm.trans hn')
    have hmem := hc.mem_elements he'
    obtain ⟨-, hhi, hsize⟩ := (hlaid.fields hn).of_mem hmem hd'
    have hnests : G.Nests _ _ := ⟨_, _, _, _, hn, hmem, hd', ht, hnode, hrecord⟩
    obtain ⟨hle, hle'⟩ := ih (hlaid.nested hnests) hnode
    have hsize := hsize _ _ ht hnode hrecord
    omega

/-- Every byte of a field that has no fields around the byte is in this field innermost. -/
lemma innermost (h : G.FieldAt B n ks b e d) (hlaid : G.LaidOut n) {t : ι}
    (ht : d.baseType = some t) {x : ℕ} (hx : b ≤ x ∧ x < b + d.byteSize)
    (hleaf : ∀ c, G.node t = .compositeType c → c.isRecord = true → ¬ G.Covered b x c) :
    G.Innermost x B n ⟨e, t⟩ := by
  induction h with
  | field hn hc he hd =>
    obtain ⟨d', hd', hfield⟩ := hc.field he
    obtain rfl := DINode.derivedType.inj (hd.symm.trans hd')
    refine .here hn (hc.mem_elements he) hd hfield ?_ ht hleaf
    simpa [DIDerivedType.contains] using hx
  | @nested B b n t' e e' c c' members k ks d d' hn hc he' hd' ht' hnode hrecord _ hks ih =>
    have hmem := hc.mem_elements he'
    have hnests : G.Nests n t' := ⟨_, _, _, _, hn, hmem, hd', ht', hnode, hrecord⟩
    have hlaid' := hlaid.nested hnests
    obtain ⟨hle, hle'⟩ := hks.bounds hlaid' hnode
    have hsize := ((hlaid.fields hn).of_mem hmem hd').2.2 _ _ ht' hnode hrecord
    obtain ⟨d'', hd'', hfield⟩ := hc.field he'
    obtain rfl := DINode.derivedType.inj (hd'.symm.trans hd'')
    refine .inside hn hmem hd' hfield ?_ ht' hnode hrecord (ih hlaid' ht hx hleaf)
    simp only [DIDerivedType.contains, Bool.and_eq_true, decide_eq_true_eq]
    omega

end FieldAt

lemma Innermost.covered {b B : ℕ} {n : ι} {m : StructMember ι} (h : G.Innermost b B n m)
    {c : DICompositeType ι} (hn : G.node n = .compositeType c) : G.Covered B b c := by
  cases h with
  | here hn' he hd hfield hb | inside hn' he hd hfield hb =>
    obtain rfl := DINode.compositeType.inj (hn.symm.trans hn')
    exact ⟨_, he, _, hd, hfield, hb⟩

/-- There is one innermost member around a byte. -/
lemma Innermost.unique {b B : ℕ} {n : ι} {m m' : StructMember ι} (h : G.Innermost b B n m)
    (h' : G.Innermost b B n m') (hlaid : G.LaidOut n) : m = m' := by
  induction h generalizing m' with
  | here hn he hd hfield hb ht hleaf =>
    cases h' with
    | here hn' he' hd' _ hb' ht' =>
      obtain rfl := DINode.compositeType.inj (hn.symm.trans hn')
      obtain rfl := (hlaid.fields hn).eq_of_contains he he' hd hd' hb hb'
      obtain rfl := DINode.derivedType.inj (hd.symm.trans hd')
      obtain rfl := Option.some.inj (ht.symm.trans ht')
      rfl
    | inside hn' he' hd' _ hb' ht' hc' hrecord hm =>
      obtain rfl := DINode.compositeType.inj (hn.symm.trans hn')
      obtain rfl := (hlaid.fields hn).eq_of_contains he he' hd hd' hb hb'
      obtain rfl := DINode.derivedType.inj (hd.symm.trans hd')
      obtain rfl := Option.some.inj (ht.symm.trans ht')
      exact absurd (hm.covered hc') (hleaf _ hc' hrecord)
  | inside hn he hd hfield hb ht hc hrecord hm ih =>
    cases h' with
    | here hn' he' hd' _ hb' ht' hleaf =>
      obtain rfl := DINode.compositeType.inj (hn.symm.trans hn')
      obtain rfl := (hlaid.fields hn).eq_of_contains he he' hd hd' hb hb'
      obtain rfl := DINode.derivedType.inj (hd.symm.trans hd')
      obtain rfl := Option.some.inj (ht.symm.trans ht')
      exact absurd (hm.covered hc) (hleaf _ hc hrecord)
    | inside hn' he' hd' _ hb' ht' _ _ hm' =>
      obtain rfl := DINode.compositeType.inj (hn.symm.trans hn')
      obtain rfl := (hlaid.fields hn).eq_of_contains he he' hd hd' hb hb'
      obtain rfl := DINode.derivedType.inj (hd.symm.trans hd')
      obtain rfl := Option.some.inj (ht.symm.trans ht')
      exact ih hm' (hlaid.nested ⟨_, _, _, _, hn, he, hd, ht, hc, hrecord⟩)

/-- No stray member is saved in the search for the byte. -/
def StrayFree [DecidableEq ι] (G : DIGraph ι) (n : ι) (b : ℕ) : Prop :=
  ∃ fuel w, G.walk fuel ∅ n = some w ∧ w.strayFree b = true

end DIGraph

/-! ### The search for a byte of a field -/

/-- Without stray members the search finds what the layout says about the byte. -/
lemma LayoutGraph.exists_memberAt_resolvesTo [DecidableEq ι] (G : LayoutGraph ι) {n : ι}
    {c : DICompositeType ι} (hlaid : G.LaidOut n) (hn : G.node n = .compositeType c) {b : UInt64}
    (hstray : G.StrayFree n b.toNat) :
    ∃ found, G.ResolvesTo b.toNat n c found ∧
      ∃ fuel, ∀ fuel', fuel ≤ fuel' → G.memberAt fuel' n c b = .ok found := by
  obtain ⟨fuel, w, hw, hfree⟩ := hstray
  have haround : G.Around ∅ n := fun v hv => absurd hv (Finset.notMem_empty v)
  obtain ⟨c', ws, hn', hrecord, rfl, hfields, hapart⟩ := hlaid.walk G.well_formed haround hw
  obtain rfl := DINode.compositeType.inj (hn.symm.trans hn')
  have hreads := reads_of_walk G.well_typed hw
  have hfinds := hlaid.finds (b := b.toNat) haround hn hw 0
  generalize hr : Walk.composite n c .null ws = w at hw hreads hfinds hfree
  have htype : w.FieldType c.byteSize := by
    rw [← hr]
    exact .inl ⟨hrecord, le_rfl, rfl, hfields, hapart⟩
  have hcomposite : w.isComposite = true := by
    rw [← hr]
    rfl
  have hsize : 0 + c.byteSize ≤ 2 ^ 61 := by
    have hlt : c.byteSize < 2 ^ 61 := UInt64.toNat_div_eight_lt _
    omega
  rw [Walk.strayFree, Bool.and_eq_true] at hfree
  have hreaches := DestructureComposite.run_search (G := G.toDIGraph) w hreads htype hcomposite
    (s := ({}, [])) rfl rfl hsize hfree.1 hfree.2
  have hundefined := DestructureComposite.undefined_run (b := b) w hreads (s := ({}, [])) rfl
  have hcandidate : ((DestructureComposite.logged G.toDIGraph b).run w
      ({}, [])).2.1.outermostCandidate = (w.search b.toNat 0).way.getLast? :=
    hreaches.candidate.trans Option.or_none
  refine ⟨(w.search b.toNat 0).way.getLast?, ?_, fuel, fun fuel' hle => ?_⟩
  · -- what is found last is the innermost member
    cases hlast : (w.search b.toNat 0).way.getLast? with
    | some m =>
      rw [hlast] at hfinds
      exact hfinds
    | none =>
      rw [hlast] at hfinds
      rintro ⟨e, he, d, hd, hfield, hcontains⟩
      rw [hfinds e he d hd hfield] at hcontains
      cases hcontains
  · have hw' := DIGraph.walk_mono (hle.trans (Nat.le_succ fuel')) hw
    rw [DIGraph.memberAt, traverse_of_walk hn hw']
    simp only [hundefined, Bool.false_eq_true, if_false, hcandidate]

/-- Without stray members the search ends at the innermost one. -/
lemma LayoutGraph.memberAt_of_innermost [DecidableEq ι] (G : LayoutGraph ι) {n : ι}
    {c : DICompositeType ι} (hlaid : G.LaidOut n) (hn : G.node n = .compositeType c) {b : UInt64}
    (hstray : G.StrayFree n b.toNat) {m : StructMember ι} (hm : G.Innermost b.toNat 0 n m) :
    ∃ fuel, ∀ fuel', fuel ≤ fuel' → G.memberAt fuel' n c b = .ok (some m) := by
  obtain ⟨found, hfound, fuel, hfuel⟩ := G.exists_memberAt_resolvesTo hlaid hn hstray
  cases found with
  | none => exact absurd (hm.covered hn) hfound
  | some m' =>
    obtain rfl : m' = m := DIGraph.Innermost.unique hfound hm hlaid
    exact ⟨fuel, hfuel⟩

/-- Behind the end of a record there is no member. -/
lemma LayoutGraph.memberAt_of_le [DecidableEq ι] (G : LayoutGraph ι) {n : ι}
    {c : DICompositeType ι} (hlaid : G.LaidOut n) (hn : G.node n = .compositeType c) {b : UInt64}
    (hstray : G.StrayFree n b.toNat) (hle : c.byteSize ≤ b.toNat) :
    ∃ fuel, ∀ fuel', fuel ≤ fuel' → G.memberAt fuel' n c b = .ok none := by
  obtain ⟨found, hfound, fuel, hfuel⟩ := G.exists_memberAt_resolvesTo hlaid hn hstray
  cases found with
  | none => exact ⟨fuel, hfuel⟩
  | some m =>
    have hfound : G.Innermost b.toNat 0 n m := hfound
    obtain ⟨e, he, d, hd, -, hcontains⟩ := hfound.covered hn
    obtain ⟨-, hhi, -⟩ := (hlaid.fields hn).of_mem he hd
    simp only [DIDerivedType.contains, Bool.and_eq_true, decide_eq_true_eq] at hcontains
    omega

/-! ### GEPs over bytes -/

/-- A GEP over `i8` by a constant number of bytes, without an inlined location. -/
structure ByteGep (M : IRModule ι ν) (v : ν) (gep : GEPOperator ν) (k : ℤ) : Prop where
  value : M.value v = .getElementPtr gep ∨ M.value v = .constantGEP gep
  byte : gep.sourceElementType = .integer 8
  index_eq : gep.indices = [some k]
  inlined : tryResolveInlinedDebugLoc M v gep = none

section Bytes

variable [DecidableEq ι] [DecidableEq ν] {G : DIGraph ι} {M : IRModule ι ν}

/-- A GEP over bytes looks up the member at the offset. -/
lemma extract_of_byteGep {t n : ι} {c : DICompositeType ι} (hroot : G.RecordRoot t n c)
    (hdirect : G.baseIsPointer t = .ok false) {v : ν} {gep : GEPOperator ν} {k : ℤ}
    (hgep : ByteGep M v gep k) {m : StructMember ι}
    (hmember : ∃ fuel, ∀ fuel', fuel ≤ fuel' →
      G.memberAt fuel' n c (UInt64.ofInt k) = .ok (some m)) :
    ∃ fuel, ∀ fuel', fuel ≤ fuel' →
      extractGepDereferencedType G M fuel' (some t) v gep =
          .ok { type := some (some m.typeOfMember), member := some m.member } ∧
        ∀ path, resetDitype G M fuel' path (some t) v = .ok (some m.member) := by
  obtain ⟨fuel, hfuel⟩ := hroot.leads.find
  obtain ⟨fuel₁, hfuel₁⟩ := hmember
  refine ⟨max fuel fuel₁, fun fuel' hle => ?_⟩
  have hfind : G.findNonDerivedType fuel' (some t) = .ok (some n) :=
    hfuel fuel' (le_of_max_le_left hle)
  have hcomposite : G.composite n = some (n, c) := by rw [DIGraph.composite, hroot.node]; rfl
  have hinlined : tryResolveInlinedOperator G M fuel' v gep = .ok none := by
    rw [tryResolveInlinedOperator, inlinedReturnType, hgep.inlined]
    rfl
  have hbyte : gep.isByteIndexing = true := by
    rw [GEPOperator.isByteIndexing, hgep.byte]
    rfl
  have hresolve : G.resolveGepIndexToType fuel' n c (.create gep false) =
      .ok { type := some (some m.typeOfMember), member := some m.member } := by
    rw [DIGraph.resolveGepIndexToType]
    simp only [GepIndices.create, hgep.index_eq, hbyte, if_true, Bool.false_eq_true, if_false,
      List.filterMap_cons, List.filterMap_nil, Option.map_some]
    rw [hfuel₁ fuel' (le_of_max_le_right hle)]
    rfl
  have hof : extractGepOfComposite G fuel' t n c gep =
      .ok { type := some (some m.typeOfMember), member := some m.member } := by
    rw [extractGepOfComposite, GEPOperator.isFirstNonZeroIndexing, hgep.index_eq]
    simp only [ok_bind, hbyte, Bool.not_true, Bool.and_false, Bool.false_and, Bool.false_eq_true,
      if_false]
    cases (G.node t).asDerived <;> exact hresolve
  have hextract : extractGepDereferencedType G M fuel' (some t) v gep =
      .ok { type := some (some m.typeOfMember), member := some m.member } := by
    rw [extractGepDereferencedType, hfind, ok_bind, hinlined, ok_bind, hgep.byte]
    simp only [LLType.isPointerTy, LLType.isArrayTy, Bool.false_and, Bool.false_eq_true, if_false,
      deref, ok_bind, hdirect, hbyte, Option.bind_some, hcomposite, hroot.complete,
      Option.isNone_some, Bool.or_false, Bool.and_false]
    exact hof
  have hdescriptor : isFortranDescriptor gep.sourceElementType = false := by
    rw [hgep.byte]
    rfl
  exact ⟨hextract, resetDitype_gep G M hgep.value hdescriptor hextract⟩

end Bytes

/-! ### Access tags -/

/-- A tag whose base type has the name of the record looks up the member at the offset. -/
lemma resolveTbaa_of_member [DecidableEq ι] {G : DIGraph ι} {t n : ι} {c : DICompositeType ι}
    (hroot : G.RecordRoot t n c) {tbaa : TBAAHandle} (hname : c.structName = tbaa.baseName)
    (hnamed : c.structName ≠ "")
    (haccess : (tbaa.baseTy.same tbaa.accessTy && tbaa.accessIsPtr) = false) {m : StructMember ι}
    (hmember : ∃ fuel, ∀ fuel', fuel ≤ fuel' →
      G.memberAt fuel' n c tbaa.offsetValue = .ok (some m)) :
    ∃ fuel, ∀ fuel', fuel ≤ fuel' →
      resolveTbaa G fuel' (some t) (some tbaa) = .ok (some (some m.typeOfMember)) := by
  obtain ⟨fuel, hfuel⟩ := hroot.leads.find
  obtain ⟨fuel₁, hfuel₁⟩ := hmember
  refine ⟨max fuel fuel₁, fun fuel' hle => ?_⟩
  have hfind : G.findNonDerivedType fuel' (some t) = .ok (some n) :=
    hfuel fuel' (le_of_max_le_left hle)
  have hcomposite : (some n).bind G.composite = some (n, c) := by
    simp [DIGraph.composite, hroot.node, DINode.asComposite]
  have hmatch : matchBase G fuel' n c tbaa = .ok (some ((n, c), tbaa)) :=
    if_neg fun h => h.1 hname
  have htype : typeAtTag G fuel' (some t) c.structName n c tbaa =
      .ok (some (some m.typeOfMember)) := by
    rw [typeAtTag, if_neg fun h => hnamed h.1, hfuel₁ fuel' (le_of_max_le_right hle)]
    rfl
  rw [resolveTbaa, haccess, tbaaResolver, hfind]
  simp only [Bool.false_eq_true, if_false, hcomposite, hmatch, htype]

section Agreement

variable [DecidableEq ι] [DecidableEq ν] {M : IRModule ι ν} (G : LayoutGraph ι) {t n e r s : ι}
  {c : DICompositeType ι} {d : DIDerivedType ι} {is : List ℤ} {b : ℕ}

/-- A field of nested records is the same member, whether a GEP addresses it by field numbers or by
a byte of it. -/
theorem LayoutGraph.byte_gep_agrees {k : ℤ} (hroot : G.RecordRoot t n c)
    (hdirect : G.baseIsPointer t = .ok false) (hlaid : G.LaidOut n)
    (hfield : G.FieldAt 0 n (is.map UInt64.ofInt) b e d) (hr : G.Refers e r)
    (hs : d.baseType = some s)
    (hbyte : b ≤ (UInt64.ofInt k).toNat ∧ (UInt64.ofInt k).toNat < b + d.byteSize)
    (hleaf : ∀ c, G.node s = .compositeType c → c.isRecord = true →
      ¬ G.Covered b (UInt64.ofInt k).toNat c)
    (hstray : G.StrayFree n (UInt64.ofInt k).toNat) {v v' : ν} {gep gep' : GEPOperator ν}
    (hgep : FieldGep M v gep is) (hgep' : ByteGep M v' gep' k) (path : ValuePath ν) :
    ∃ fuel, ∀ fuel', fuel ≤ fuel' →
      resetDitype G.toDIGraph M fuel' path (some t) v = .ok (some e) ∧
        resetDitype G.toDIGraph M fuel' path (some t) v' =
          resetDitype G.toDIGraph M fuel' path (some t) v := by
  obtain ⟨fuel, hnumbers⟩ := extract_of_path hroot hgep (hfield.memberPath hr hroot.node)
  have hinnermost := hfield.innermost hlaid hs hbyte hleaf
  obtain ⟨fuel₁, hbytes⟩ := extract_of_byteGep hroot hdirect hgep'
    (G.memberAt_of_innermost hlaid hroot.node hstray hinnermost)
  refine ⟨max fuel fuel₁, fun fuel' hle => ?_⟩
  obtain ⟨-, hreset⟩ := hnumbers fuel' (le_of_max_le_left hle)
  obtain ⟨-, hreset'⟩ := hbytes fuel' (le_of_max_le_right hle)
  exact ⟨hreset path, (hreset' path).trans (hreset path).symm⟩

/-- The type by an access tag relative to the record, at any byte of a field, is the declared type
of the member that the field numbers lead to. -/
theorem LayoutGraph.tag_agrees {tbaa : TBAAHandle} (hroot : G.RecordRoot t n c)
    (hname : c.structName = tbaa.baseName) (hnamed : c.structName ≠ "")
    (haccess : (tbaa.baseTy.same tbaa.accessTy && tbaa.accessIsPtr) = false) (hlaid : G.LaidOut n)
    (hfield : G.FieldAt 0 n (is.map UInt64.ofInt) b e d) (hr : G.Refers e r)
    (hs : d.baseType = some s)
    (hbyte : b ≤ tbaa.offsetValue.toNat ∧ tbaa.offsetValue.toNat < b + d.byteSize)
    (hleaf : ∀ c, G.node s = .compositeType c → c.isRecord = true →
      ¬ G.Covered b tbaa.offsetValue.toNat c)
    (hstray : G.StrayFree n tbaa.offsetValue.toNat) {v : ν} {gep : GEPOperator ν}
    (hgep : FieldGep M v gep is) (path : ValuePath ν) :
    ∃ fuel, ∀ fuel', fuel ≤ fuel' →
      resetDitype G.toDIGraph M fuel' path (some t) v = .ok (some e) ∧
        resolveTbaa G.toDIGraph fuel' (some t) (some tbaa) = .ok (some (G.node e).typeRef) := by
  obtain ⟨fuel, hnumbers⟩ := extract_of_path hroot hgep (hfield.memberPath hr hroot.node)
  have hinnermost := hfield.innermost hlaid hs hbyte hleaf
  obtain ⟨fuel₁, htag⟩ := resolveTbaa_of_member hroot hname hnamed haccess
    (G.memberAt_of_innermost hlaid hroot.node hstray hinnermost)
  refine ⟨max fuel fuel₁, fun fuel' hle => ?_⟩
  obtain ⟨-, hreset⟩ := hnumbers fuel' (le_of_max_le_left hle)
  refine ⟨hreset path, ?_⟩
  rw [htag fuel' (le_of_max_le_right hle), hfield.node]
  exact congrArg (fun x => Except.ok (some x)) hs.symm

end Agreement

/-! ### Linked records -/

def nodeRecord : DICompositeType (Fin 10) :=
  { tag := .structureType, name := "Node", sizeInBits := 256, elements := [0, 1, 2] }

def dataRecord : DICompositeType (Fin 10) :=
  { tag := .structureType, name := "Data", sizeInBits := 128, elements := [3, 4] }

/-- The member `p`. -/
def pointerField : DIDerivedType (Fin 10) :=
  { tag := .member, name := "p", sizeInBits := 64, offsetInBits := 64, baseType := some 6 }

/-- `struct Node { int id; struct Data { int n; int *p; } data; struct Node *next; };` -/
def linked : DIGraph (Fin 10) where
  node
    | 0 => .derivedType { tag := .member, name := "id", sizeInBits := 32, baseType := some 7 }
    | 1 => .derivedType { tag := .member, name := "data", sizeInBits := 128, offsetInBits := 64,
                          baseType := some 8 }
    | 2 => .derivedType { tag := .member, name := "next", sizeInBits := 64, offsetInBits := 192,
                          baseType := some 5 }
    | 3 => .derivedType { tag := .member, name := "n", sizeInBits := 32, baseType := some 7 }
    | 4 => .derivedType pointerField
    | 5 => .derivedType { tag := .pointerType, sizeInBits := 64, baseType := some 9 }
    | 6 => .derivedType { tag := .pointerType, sizeInBits := 64, baseType := some 7 }
    | 7 => .basicType { name := "int", sizeInBits := 32, encoding := .signed }
    | 8 => .compositeType dataRecord
    | 9 => .compositeType nodeRecord

def linkedGraph : LayoutGraph (Fin 10) where
  toDIGraph := linked
  well_typed :=
    { refers_to_types := by
        intro n t h
        fin_cases n <;> simp [linked, nodeRecord, dataRecord, pointerField, DINode.typeRef] at h <;>
          subst h <;> decide
      members_have_types := by decide }
  members_owned := by
    intro n n' c c' e h h' _ he he'
    fin_cases n <;> simp [linked] at h <;> fin_cases n' <;> simp [linked] at h' <;>
      subst h <;> subst h' <;> simp [nodeRecord, dataRecord] at he he' ⊢
    all_goals omega
  cycles_pass_records := by
    refine DIGraph.cyclesPassRecords_of_lt fun a b h => ?_
    fin_cases a <;>
      simp [DIGraph.PlainStep, linked, nodeRecord, dataRecord, pointerField] at h <;>
      subst h <;> decide

lemma laidOut_linked : linked.LaidOut 9 := by
  have hint : linked.Scalar 7 := .basic rfl
  have hdata : linked.LaidOut 8 := by
    refine .record rfl rfl rfl ?_ ?_
    · refine .field (e := 3) (t := 7) rfl rfl rfl (.inr (.inl hint)) (by decide) (by decide) ?_
      exact .field (e := 4) (t := 6) rfl rfl rfl (.inl rfl) (by decide) (by decide) .nil
    · rintro t ⟨c, e, d, c', hc, he, hd, ht, hc', -⟩
      obtain rfl := DINode.compositeType.inj hc
      rcases (by simpa [dataRecord] using he : e = 3 ∨ e = 4) with rfl | rfl <;>
      · obtain rfl := DINode.derivedType.inj hd
        obtain rfl := Option.some.inj ht
        cases hc'
  refine .record rfl rfl rfl ?_ ?_
  · refine .field (e := 0) (t := 7) rfl rfl rfl (.inr (.inl hint)) (by decide) (by decide) ?_
    refine .field (e := 1) (t := 8) rfl rfl rfl (.inr (.inr ⟨_, rfl, rfl, by decide⟩)) (by decide)
      (by decide) ?_
    exact .field (e := 2) (t := 5) rfl rfl rfl (.inl rfl) (by decide) (by decide) .nil
  · rintro t ⟨c, e, d, c', hc, he, hd, ht, hc', -⟩
    obtain rfl := DINode.compositeType.inj hc
    rcases (by simpa [nodeRecord] using he : e = 0 ∨ e = 1 ∨ e = 2) with rfl | rfl | rfl
    · obtain rfl := DINode.derivedType.inj hd
      obtain rfl := Option.some.inj ht
      cases hc'
    · obtain rfl := DINode.derivedType.inj hd
      obtain rfl := Option.some.inj ht
      exact hdata
    · obtain rfl := DINode.derivedType.inj hd
      obtain rfl := Option.some.inj ht
      cases hc'

lemma plainRecord_linked :
    linked.PlainRecord nodeRecord [0, 1, 2] ∧ linked.PlainRecord dataRecord [3, 4] := by
  constructor
  all_goals
    refine ⟨⟨[], rfl, fun e he => by cases he⟩, fun e he => ?_, ?_⟩
    · fin_cases he <;> exact ⟨_, rfl, rfl⟩
    · simp [linked, pointerField]

lemma recordRoot_linked : linked.RecordRoot 5 9 nodeRecord where
  leads := .step rfl rfl (.other rfl)
  node := rfl
  complete := rfl
  record := rfl

/-- `p` is the second member of the record that is the second member. -/
lemma fieldAt_linked :
    linked.FieldAt 0 9 (([1, 1] : List ℤ).map UInt64.ofInt) 16 4 pointerField := by
  have hp : linked.FieldAt 8 8 [1] (8 + pointerField.byteOffset) 4 pointerField :=
    .field rfl plainRecord_linked.2 rfl rfl
  exact .nested rfl plainRecord_linked.1 rfl rfl rfl rfl rfl rfl hp

lemma strayFree_linked : linked.StrayFree 9 16 := ⟨9, _, rfl, by decide⟩

/-- The address of `node->data.p`, by numbers and by bytes. -/
def fieldOfNode : IRModule (Fin 10) (Fin 3) where
  value
    | 0 => .argument { name := "f", subprogram := none } 0 false
    | 1 => .getElementPtr { sourceElementType := .struct [.integer 32,
                              .struct [.integer 32, .pointer], .pointer]
                            pointerOperand := 0
                            indices := [some 0, some 1, some 1]
                            dynamicOperands := [] }
    | 2 => .getElementPtr { sourceElementType := .integer 8
                            pointerOperand := 0
                            indices := [some 16]
                            dynamicOperands := [] }
  users
    | 0 => [1, 2]
    | 1 => []
    | 2 => []
  mem_users := by decide
  debugLoc _ := none
  dbgRecords := []

/-- The tag of an access to `p`. -/
def nodeTag : TBAAHandle where
  baseTy := ⟨"Node", [(scalarNode "int", 0),
    (⟨"Data", [(scalarNode "int", 0), (scalarNode "any pointer", 8)]⟩, 8),
    (scalarNode "any pointer", 24)]⟩
  accessTy := scalarNode "any pointer"
  offsetValue := 16
  globPointerPattern := false

lemma fieldGep_fieldOfNode : ∃ gep, FieldGep fieldOfNode 1 gep [1, 1] :=
  ⟨_, .inl rfl, ⟨rfl, by simp, ⟨_, rfl⟩, rfl⟩, rfl⟩

theorem LayoutGraph.byte_gep_agrees_linked :
    ∃ fuel, ∀ fuel', fuel ≤ fuel' →
      resetDitype linked fieldOfNode fuel' ⟨[1, 0]⟩ (some 5) 1 = .ok (some 4) ∧
        resetDitype linked fieldOfNode fuel' ⟨[1, 0]⟩ (some 5) 2 =
          resetDitype linked fieldOfNode fuel' ⟨[1, 0]⟩ (some 5) 1 := by
  obtain ⟨gep, hgep⟩ := fieldGep_fieldOfNode
  have hbyte : ByteGep fieldOfNode 2 { sourceElementType := .integer 8, pointerOperand := 0,
                                       indices := [some 16], dynamicOperands := [] } 16 :=
    ⟨.inl rfl, rfl, rfl, rfl⟩
  refine linkedGraph.byte_gep_agrees (d := pointerField) (b := 16) (k := 16) recordRoot_linked rfl
    laidOut_linked fieldAt_linked ⟨_, rfl, .stop rfl rfl⟩ rfl ⟨by decide, by decide⟩ ?_
    strayFree_linked hgep hbyte _
  intro c hc
  cases hc

theorem LayoutGraph.tag_agrees_linked :
    ∃ fuel, ∀ fuel', fuel ≤ fuel' →
      resetDitype linked fieldOfNode fuel' ⟨[1, 0]⟩ (some 5) 1 = .ok (some 4) ∧
        resolveTbaa linked fuel' (some 5) (some nodeTag) = .ok (some (linked.node 4).typeRef) := by
  obtain ⟨gep, hgep⟩ := fieldGep_fieldOfNode
  have hoffset : 16 ≤ nodeTag.offsetValue.toNat ∧
      nodeTag.offsetValue.toNat < 16 + pointerField.byteSize := by decide
  refine linkedGraph.tag_agrees recordRoot_linked rfl (by decide) rfl laidOut_linked fieldAt_linked
    ⟨_, rfl, .stop rfl rfl⟩ rfl hoffset ?_ strayFree_linked hgep _
  intro c hc
  cases hc

end Dimeta
