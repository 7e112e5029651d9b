import Dimeta.Parse.Translation

/-!
# Chains in records

A chain whose end makes no event leaves its wrappers in the metadata, and the next element of the
record that makes one has them in front of its own. A member is translated as its chain stands
exactly if the elements before it left nothing that is seen.
-/

set_option autoImplicit false

namespace Dimeta

variable {ι : Type}

/-! ### Wrappers that are left -/

/-- The count of a subrange. -/
def Walk.subrangeCount : Walk ι → Option (Option ℤ)
  | .node _ (.subrange count) => some count
  | _                         => none

mutual
/-- The wrappers in the metadata after a walk, given those before: every event drops them. -/
def Walk.pending : Walk ι → List (Wrapper ι) → List (Wrapper ι)
  | .null, ws | .skip _, ws => ws
  | .basic _ _, _ | .string _ _, _ | .recurring _ _, _ => []
  | .node _ x, ws =>
    match x with
    | .subroutineType => []
    | _               => ws
  | .var _ type, ws => type.pending ws
  | .derived _ d base, ws =>
    base.pending (if DIEventVisitor.isVoidPointer d || DIEventVisitor.isVtablePtr d then []
      else ws ++ [.derived d])
  | .array _ c elements base, ws =>
    base.pending (ws ++ [.array c (elements.filterMap Walk.subrangeCount)])
  | .composite _ _ base elements, _ => pendingElements elements (base.pending [])

def pendingElements : List (Walk ι) → List (Wrapper ι) → List (Wrapper ι)
  | [], ws             => ws
  | w :: elements, ws  => pendingElements elements (w.pending ws)
end

/-- The wrappers that are left before the element at `k` of a record. -/
def Walk.pendingBefore (k : ℕ) : Walk ι → List (Wrapper ι)
  | .composite _ _ base elements => pendingElements (elements.take k) (base.pending [])
  | _                            => []

namespace MetaData

variable {m m' : MetaData ι} {ws : List (Wrapper ι)}

lemma length_visitSubrange (m : MetaData ι) (count : ℤ) :
    (m.visitSubrange count).sizes.length = m.sizes.length := by
  simp only [sizes, makeArraySizes, List.length_map]
  rcases List.eq_nil_or_concat m.arrays with hnil | ⟨as, a, ha⟩
  · rw [visitSubrange, hnil]
    rfl
  · rw [List.concat_eq_append] at ha
    rw [visitSubrange_of_append ha, ha, List.length_append, List.length_append]
    rfl

/-- What the wrappers stand for is in three parts of the metadata. -/
lemma Holds.congr (h : m.Holds ws) (htags : m'.dwarfTags = m.dwarfTags)
    (hsizes : m'.sizes.length = m.sizes.length) (hnames : m'.typedefNames = m.typedefNames) :
    m'.Holds ws where
  quals := by rw [MetaData.quals, htags]; exact h.quals
  sizes := hsizes.trans h.sizes
  typedefNames := hnames.trans h.typedefNames

lemma Holds.visitDerived (h : m.Holds ws) (d : DIDerivedType ι) :
    (m.visitDerived d).Holds (ws ++ [.derived d]) where
  quals := by rw [quals_visitDerived, h.quals, List.flatMap_append, List.flatMap_singleton]
  sizes := by
    rw [sizes_visitDerived, h.sizes, List.filterMap_append]
    exact congrArg List.length (List.append_nil _).symm
  typedefNames := by
    have hnames := m.typedefNames_collect (.derived d)
    rw [collect] at hnames
    rw [hnames, h.typedefNames, List.filterMap_append]
    cases hname : (Wrapper.derived d).typedefName with
    | none => rw [List.filterMap_cons_none hname]; rfl
    | some name => rw [List.filterMap_cons_some hname]; rfl

lemma Holds.visitArray (h : m.Holds ws) (c : DICompositeType ι) (counts : List (Option ℤ)) :
    (m.visitArray c).Holds (ws ++ [.array c counts]) where
  quals := by
    have hquals := m.quals_collect (.array c [])
    rw [List.flatMap_append, List.flatMap_singleton, ← h.quals]
    exact hquals
  sizes := by
    have hlength := h.sizes
    simp only [MetaData.sizes, makeArraySizes, List.length_map] at hlength ⊢
    rw [MetaData.visitArray, List.length_append, hlength, List.filterMap_append,
      List.length_append]
    rfl
  typedefNames := by
    rw [List.filterMap_append, ← h.typedefNames]
    exact (List.append_nil _).symm

end MetaData

section Pending

variable [DecidableEq ι]

lemma holds_subranges {elements : List (Walk ι)} (hsub : AllSubranges elements) {p : Parse ι}
    {ws : List (Wrapper ι)} (h : p.current.Holds ws) :
    (parseElements elements p).current.Holds ws := by
  induction elements generalizing p with
  | nil => exact h
  | cons w elements ih =>
    obtain ⟨n, count, rfl⟩ := hsub w List.mem_cons_self
    refine ih (fun w hw => hsub w (List.mem_cons_of_mem _ hw)) ?_
    cases count with
    | none => exact h
    | some count =>
      simp only [parse, Parse.node]
      split
      · exact h
      · exact h.congr rfl (MetaData.length_visitSubrange _ _) rfl

lemma holds_enumerators {elements : List (Walk ι)} (henum : AllEnumerators elements) {p : Parse ι}
    {ws : List (Wrapper ι)} (h : p.current.Holds ws) :
    (parseElements elements p).current.Holds (pendingElements elements ws) := by
  induction elements generalizing p with
  | nil => exact h
  | cons w elements ih =>
    obtain ⟨n, name, rfl⟩ := henum w List.mem_cons_self
    refine ih (fun w hw => henum w (List.mem_cons_of_mem _ hw)) ?_
    simp only [parse, Parse.node]
    cases p.enumData.enumBase with
    | none => exact h
    | some b =>
      simp only [Parse.current_emitFundamental]
      exact h.congr rfl rfl rfl

omit [DecidableEq ι] in
lemma holds_derived {p : Parse ι} {ws : List (Wrapper ι)} (h : p.current.Holds ws)
    (d : DIDerivedType ι) : (p.derived d).current.Holds
      (if DIEventVisitor.isVoidPointer d || DIEventVisitor.isVtablePtr d then []
        else ws ++ [.derived d]) := by
  cases hclear : DIEventVisitor.isVoidPointer d || DIEventVisitor.isVtablePtr d with
  | true =>
    rw [Parse.current_derived_of_event hclear, if_pos rfl]
    exact MetaData.holds_default
  | false =>
    rw [Parse.derived_of_collected hclear, if_neg Bool.false_ne_true]
    exact h.visitDerived d

mutual
/-- The metadata after a walk holds what is pending. -/
lemma holds_parse {G : DIGraph ι} (w : Walk ι) (hw : w.TypeOk G ∨ w.ElementOk G) {p : Parse ι}
    {ws : List (Wrapper ι)} (h : p.current.Holds ws) :
    (parse w p).current.Holds (w.pending ws) := by
  match w with
  | .null | .skip _ => exact h
  | .basic _ _ | .string _ _ => exact MetaData.holds_default
  | .node n x =>
    rcases hw with hw | hw
    · obtain rfl : x = .subroutineType := hw
      exact MetaData.holds_default
    · cases hw
  | .var n type => rcases hw with hw | hw <;> cases hw
  | .derived n d base =>
    have hbase : base.TypeOk G := hw.elim And.right And.right
    exact holds_parse base (.inl hbase) (holds_derived h d)
  | .array n c elements base =>
    obtain ⟨hsub, hbase⟩ : AllSubranges elements ∧ base.TypeOk G := hw.resolve_right id
    exact holds_parse base (.inl hbase) (holds_subranges hsub (h.visitArray c _))
  | .composite n c base elements =>
    obtain ⟨hbase, helements⟩ := hw.resolve_right id
    have hinner := holds_parse base (.inl hbase) (p := p.enter c) MetaData.holds_default
    simp only [parse, Parse.current_leave, base.returns_of_typeOk hbase, if_true, Walk.pending]
    split_ifs at helements with henum
    · exact holds_enumerators helements.1 hinner
    · exact holds_parseElements elements helements.1 hinner
  | .recurring n c =>
    simp only [parse, Parse.current_leave, Walk.pending]
    exact MetaData.holds_default

lemma holds_parseElements {G : DIGraph ι} (elements : List (Walk ι)) (hok : ElementsOk G elements)
    {p : Parse ι} {ws : List (Wrapper ι)} (h : p.current.Holds ws) :
    (parseElements elements p).current.Holds (pendingElements elements ws) := by
  match elements with
  | [] => exact h
  | w :: elements => exact holds_parseElements elements hok.2 (holds_parse w (.inr hok.1) h)
end

/-! ### Members -/

/-- A member whose type is a chain makes one entry. -/
lemma exists_entry_of_typeChain {G : DIGraph ι} {fuel : ℕ} {visited : Finset ι} {e b : ι}
    {d : DIDerivedType ι} {ws : List (Wrapper ι)} (h : G.TypeChain b ws)
    (hopen : G.OpenRecords visited) (he : G.node e = .derivedType d)
    (hd : d.isMemberNode = true) (hvtbl : DIEventVisitor.isVtablePtr d = false)
    (hbase : d.baseType = some b) {w : Walk ι} (hw : G.walk fuel visited e = some w) {p : Parse ι}
    (henum : p.enumData.isEnum = false) : ∃ type,
      Carries type ((p.current.visitDerived d).collectAll ws) ∧
        (parse w p).entries = p.entries ++ [.ofElement d type] := by
  cases fuel with
  | zero => cases hw
  | succ fuel =>
    obtain ⟨base, rfl, hwalk⟩ := DIGraph.walk_derived he hw
    rw [hbase] at hwalk
    have hvoid : DIEventVisitor.isVoidPointer d = false := by
      simp [DIEventVisitor.isVoidPointer, hbase]
    have hstep : parse (.derived e d base) p =
        parse base { p with current := p.current.visitDerived d } := by
      rw [parse, Parse.derived_of_collected (Bool.or_eq_false_iff.mpr ⟨hvoid, hvtbl⟩)]
    obtain ⟨type, hcarries, hemits⟩ := emits_of_typeChain h hopen hwalk.of_some
      (p := { p with current := p.current.visitDerived d }) henum
    refine ⟨type, hcarries, ?_⟩
    have hmember := MetaData.visitDerived_of_isMemberNode hd p.current
    rw [hstep, hemits.member (by rw [hmember]; rfl), hmember]
    rfl

/-- The element at `k` of the record `n` is a member of type `b`. -/
inductive DIGraph.MemberAt (G : DIGraph ι) (n : ι) (k : ℕ) (d : DIDerivedType ι) (b : ι) : Prop
  | intro {c : DICompositeType ι} {e : ι} (hn : G.node n = .compositeType c)
      (harray : c.tag ≠ .arrayType) (henum : c.tag ≠ .enumerationType)
      (he : c.elements[k]? = some e) (hd : G.node e = .derivedType d)
      (hmember : d.isMemberNode = true) (hvtbl : DIEventVisitor.isVtablePtr d = false)
      (hbase : d.baseType = some b) : MemberAt G n k d b

/-- The entry of a member that is a chain, and when it is the translation of the chain. -/
lemma RecordGraph.member_translates_iff (G : RecordGraph ι) {fuel : ℕ} {visited : Finset ι}
    {n b : ι} {k : ℕ} {d : DIDerivedType ι} {ws : List (Wrapper ι)} (hat : G.MemberAt n k d b)
    (h : G.TypeChain b ws) (hcounts : ∀ w ∈ ws, w.CountsFit) (hopen : G.OpenRecords visited)
    (hvisited : n ∉ visited) {w : Walk ι} (hw : G.walk fuel visited n = some w) (p : Parse ι) :
    ∃ type, w.entriesAt p k = [.ofElement d type] ∧
      (Translates type ws d.isStaticMember ↔ Unseen (w.pendingBefore k) ws) := by
  obtain @⟨c, e, hn, harray, henum, he, hd, hmember, hvtbl, hbase⟩ := hat
  have hok := (G.walk_ok fuel visited).1 n w hw (by rw [hn]; rfl)
  obtain ⟨fuel, rfl⟩ := DIGraph.exists_fuel_of_walk hw
  obtain ⟨base, elements, rfl, -, hwalks⟩ := DIGraph.walk_composite hn harray hvisited hw
  obtain ⟨hbaseOk, helements⟩ := hok
  rw [if_neg henum] at helements
  obtain ⟨hk, rfl⟩ := List.getElem?_eq_some_iff.mp he
  have hlt : k < elements.length := hwalks.length_eq ▸ hk
  have hwalk := hwalks.get hk hlt
  -- the state before the member
  have hisEnum : (parseElements (elements.take k) (parse base (p.enter c))).enumData.isEnum =
      false := isEnum_parseElements _ (isEnum_parse base (by simp [Parse.enter, henum]))
  have hholds : (parseElements (elements.take k) (parse base (p.enter c))).current.Holds
      ((Walk.composite n c base elements).pendingBefore k) :=
    holds_parseElements _ (elementsOk_take helements.1 k)
      (holds_parse base (.inl hbaseOk) MetaData.holds_default)
  obtain ⟨type, hcarries, hentries⟩ := exists_entry_of_typeChain h (hopen.insert hn harray) hd
    hmember hvtbl hbase hwalk hisEnum
  refine ⟨type, ?_, ?_⟩
  · simp only [Walk.entriesAt, List.drop_eq_getElem_cons hlt, List.take_succ_cons,
      List.take_zero, parseElements]
    rw [← List.get_eq_getElem (i := ⟨k, hlt⟩), hentries, List.drop_left]
  · rw [MetaData.visitDerived_of_isMemberNode hmember] at hcarries
    have hset : (MetaData.makeMember d { (parseElements (elements.take k)
        (parse base (p.enter c))).current with derivedSize := d.sizeInBits / 8 }).Holds
          ((Walk.composite n c base elements).pendingBefore k) := hholds.congr rfl rfl rfl
    have htranslates := hcarries.translates_iff h hcounts hset
    exact htranslates

/-- A chain on its own is translated as it stands. A member of a record, wherever the record is
met, is exactly if the wrappers that the elements before it left are not seen. -/
theorem RecordGraph.chain_translates_iff [Fintype ι] (G : RecordGraph ι) {b : ι}
    {ws : List (Wrapper ι)} (h : G.TypeChain b ws) (hcounts : ∀ w ∈ ws, w.CountsFit) :
    (∃ fuel type, Translates type ws false ∧
      ∀ fuel' ≥ fuel, makeDimetadata G.toDIGraph fuel' b = some (some type)) ∧
    ∀ (visited : Finset ι) (n : ι) (k : ℕ) (d : DIDerivedType ι), G.OpenRecords visited →
      n ∉ visited → G.MemberAt n k d b → ∃ fuel w, (∀ fuel' ≥ fuel,
        G.walk fuel' visited n = some w) ∧ ∀ p, ∃ type, w.entriesAt p k = [.ofElement d type] ∧
          (Translates type ws d.isStaticMember ↔ Unseen (w.pendingBefore k) ws) := by
  constructor
  · obtain ⟨fuel, w, hw⟩ := DIGraph.hasWalk_of_cyclesPassRecords G.cycles_pass_records ∅ b
    obtain ⟨type, hresult, -, -, htranslates⟩ := exists_result_of_typeChain h hw
    refine ⟨fuel, type, htranslates hcounts, fun fuel' hle => ?_⟩
    rw [makeDimetadata_eq (DIGraph.walk_mono hle hw) (by rw [h.isType, Bool.or_true]), hresult]
  · intro visited n k d hopen hvisited hat
    obtain ⟨fuel, w, hw⟩ := DIGraph.hasWalk_of_cyclesPassRecords G.cycles_pass_records visited n
    refine ⟨fuel, w, fun fuel' hle => DIGraph.walk_mono hle hw, fun p => ?_⟩
    exact G.member_translates_iff hat h hcounts hopen hvisited hw p

end Pending

/-! ### A member behind a pointer to constant data -/

/-- `struct { const void *p; int *q; }` -/
def constVoidPointer : DIGraph (Fin 7) where
  node
    | 0 => .compositeType { tag := .structureType, name := "S", sizeInBits := 128,
                            elements := [1, 2] }
    | 1 => .derivedType { tag := .member, name := "p", sizeInBits := 64, baseType := some 3 }
    | 2 => .derivedType { tag := .member, name := "q", sizeInBits := 64, offsetInBits := 64,
                          baseType := some 5 }
    | 3 => .derivedType { tag := .pointerType, sizeInBits := 64, baseType := some 4 }
    | 4 => .derivedType { tag := .constType, baseType := none }
    | 5 => .derivedType { tag := .pointerType, sizeInBits := 64, baseType := some 6 }
    | 6 => .basicType { name := "int", sizeInBits := 32, encoding := .signed }

def constVoidPointerGraph : RecordGraph (Fin 7) where
  toDIGraph := constVoidPointer
  typeRef_isTypeNode n b h := by
    fin_cases n <;> simp [constVoidPointer, DINode.typeRef] at h <;> subst h <;> rfl
  array_elements n c h htag := by
    fin_cases n <;> simp [constVoidPointer] at h
    subst h
    cases htag
  enum_elements n c h htag := by
    fin_cases n <;> simp [constVoidPointer] at h
    subst h
    cases htag
  enum_base n c h htag := by
    fin_cases n <;> simp [constVoidPointer] at h
    subst h
    cases htag
  record_elements n c h _ _ := by
    fin_cases n <;> simp [constVoidPointer] at h
    subst h
    intro e he
    right
    fin_cases e <;> simp at he <;> exact ⟨_, rfl, rfl⟩
  cycles_pass_records := by
    refine DIGraph.cyclesPassRecords_of_lt fun a b h => ?_
    fin_cases a <;> simp [DIGraph.PlainStep, constVoidPointer] at h <;> subst h <;> decide

/-- The chain of `q`. -/
def pointerChain : List (Wrapper (Fin 7)) :=
  [.derived { tag := .pointerType, sizeInBits := 64, baseType := some 6 }]

lemma typeChain_constVoidPointer : constVoidPointerGraph.TypeChain 5 pointerChain :=
  .derived rfl rfl (by decide) rfl rfl (.leaf rfl)

/-- The member `q`. -/
def memberQ : DIDerivedType (Fin 7) :=
  { tag := .member, name := "q", sizeInBits := 64, offsetInBits := 64, baseType := some 5 }

lemma memberAt_constVoidPointer : constVoidPointerGraph.MemberAt 0 1 memberQ 5 :=
  .intro (e := 2) rfl (by decide) (by decide) rfl rfl rfl rfl rfl

theorem RecordGraph.chain_translates_iff_pointer :
    (∃ fuel type, Translates type pointerChain false ∧
      ∀ fuel' ≥ fuel, makeDimetadata constVoidPointer fuel' 5 = some (some type)) ∧
    ∃ fuel w, (∀ fuel' ≥ fuel, constVoidPointer.walk fuel' ∅ 0 = some w) ∧
      ∀ p, ∃ type, w.entriesAt p 1 = [.ofElement memberQ type] ∧
        (Translates type pointerChain false ↔ Unseen (w.pendingBefore 1) pointerChain) := by
  have hcounts : ∀ w ∈ pointerChain, w.CountsFit := by
    intro w hw
    obtain rfl := List.mem_singleton.mp hw
    trivial
  obtain ⟨halone, hmember⟩ :=
    constVoidPointerGraph.chain_translates_iff typeChain_constVoidPointer hcounts
  refine ⟨halone, hmember ∅ 0 1 memberQ ?_ (Finset.notMem_empty _) memberAt_constVoidPointer⟩
  simp [DIGraph.OpenRecords]

/-- The qualifiers of an entry. -/
def Entry.qual : Entry → List Qualifier
  | .member _ _ _ type | .staticMember _ type => type.qual
  | .base _ | .truncateEnum                   => []

/-- `q` gets the qualifiers of `p` as well: no event fires below `const`. -/
theorem not_chain_translates : ¬ ∀ (G : RecordGraph (Fin 7)) (fuel : ℕ) (n b : Fin 7) (k : ℕ)
    (d : DIDerivedType (Fin 7)) (ws : List (Wrapper (Fin 7))) (w : Walk (Fin 7))
    (type : QualifiedType), G.TypeChain b ws → (∀ w ∈ ws, w.CountsFit) → G.MemberAt n k d b →
    G.walk fuel ∅ n = some w → w.entriesAt {} k = [.ofElement d type] →
    Translates type ws d.isStaticMember := by
  intro h
  have hquals : ((constVoidPointer.walk 8 ∅ 0).map fun w => (w.entriesAt {} 1).map Entry.qual) =
      some [[.kPtr, .kConst, .kPtr]] := by decide +kernel
  obtain ⟨w, hw, hquals⟩ := Option.map_eq_some_iff.mp hquals
  obtain ⟨entry, hentry, hqual⟩ := List.map_eq_singleton_iff.mp hquals
  have hcounts : ∀ w ∈ pointerChain, w.CountsFit := by
    intro w hw
    obtain rfl := List.mem_singleton.mp hw
    trivial
  obtain ⟨type, hentries, -⟩ := constVoidPointerGraph.member_translates_iff
    memberAt_constVoidPointer typeChain_constVoidPointer hcounts (by simp [DIGraph.OpenRecords])
    (Finset.notMem_empty _) hw {}
  have htranslates := h constVoidPointerGraph 8 0 5 1 memberQ pointerChain w type
    typeChain_constVoidPointer hcounts memberAt_constVoidPointer hw hentries
  rw [hentry] at hentries
  obtain rfl : entry = _ := List.singleton_inj.mp hentries
  have hptr : type.qual = [.kPtr] := htranslates.qual
  have hthree : type.qual = [.kPtr, .kConst, .kPtr] := hqual
  rw [hptr] at hthree
  cases hthree

end Dimeta
