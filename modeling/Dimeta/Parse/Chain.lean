import Dimeta.Parse.Recursive

/-!
# Type chains

What the parse of a type below a member, a base class or a variable does: at most one entry, made
when the chain of the type reaches an event, and what is left of the metadata afterwards.
-/

set_option autoImplicit false

namespace Dimeta

variable {ι : Type}

/-! ### Elements and chains -/

/-- Derived types that `make_member` is called for. -/
def DIDerivedType.isMemberNode (d : DIDerivedType ι) : Bool :=
  d.tag == .member || d.tag == .var && d.isStaticMember

/-- Derived types that occur as elements of records only. -/
def DIDerivedType.isElement (d : DIDerivedType ι) : Bool :=
  d.isMemberNode || d.tag == .inheritance

def Walk.asDerived : Walk ι → Option (DIDerivedType ι)
  | .derived _ d _ => some d
  | _              => none

def AllSubranges (ws : List (Walk ι)) : Prop := ∀ w ∈ ws, ∃ n count, w = .node n (.subrange count)

def AllEnumerators (ws : List (Walk ι)) : Prop := ∀ w ∈ ws, ∃ n name, w = .node n (.enumerator name)

/-- A chain of derived types that ends in a basic type. -/
def Walk.EndsBasic : Walk ι → Prop
  | .basic _ _        => True
  | .derived _ _ base => base.EndsBasic
  | _                 => False

mutual
/-- The walk of a type: what is below is a type again, arrays have subranges, enumerations
enumerators over a basic type, and the elements of a record `c` are those of the graph. -/
def Walk.TypeOk (G : DIGraph ι) : Walk ι → Prop
  | .null | .basic _ _ | .string _ _ | .recurring _ _ => True
  | .node _ x => x = .subroutineType
  | .var _ _ | .skip _ => False
  | .derived _ d base => d.isElement = false ∧ base.TypeOk G
  | .array _ _ elements base => AllSubranges elements ∧ base.TypeOk G
  | .composite _ c base elements =>
    base.TypeOk G ∧
      if c.tag = .enumerationType then
        AllEnumerators elements ∧ (elements = [] ∨ base.EndsBasic)
      else
        ElementsOk G elements ∧
          elements.filterMap Walk.asDerived = c.elements.filterMap fun e => (G.node e).asDerived

/-- The walk of an element of a record: a member, a base class, or a subprogram. -/
def Walk.ElementOk (G : DIGraph ι) : Walk ι → Prop
  | .skip _           => True
  | .derived _ d base => d.isElement = true ∧ base.TypeOk G
  | _                 => False

def ElementsOk (G : DIGraph ι) : List (Walk ι) → Prop
  | []      => True
  | w :: ws => w.ElementOk G ∧ ElementsOk G ws
end

/-- An event fires on the chain. -/
def Walk.reachesEvent : Walk ι → Bool
  | .null | .skip _ => false
  | .basic _ _ | .string _ _ | .composite _ _ _ _ | .recurring _ _ => true
  | .node _ x => x.tag == .subroutineType
  | .var _ type => type.reachesEvent
  | .derived _ d base =>
    DIEventVisitor.isVoidPointer d || DIEventVisitor.isVtablePtr d || base.reachesEvent
  | .array _ _ _ base => base.reachesEvent

/-- The first event on the chain is that of a record. -/
def Walk.reachesRecord : Walk ι → Bool
  | .composite _ _ _ _ | .recurring _ _ => true
  | .derived _ d base =>
    !(DIEventVisitor.isVoidPointer d || DIEventVisitor.isVtablePtr d) && base.reachesRecord
  | .array _ _ _ base => base.reachesRecord
  | _ => false

mutual
/-- Whether the metadata says "member" after a walk, given whether it did before. -/
def Walk.memberAfter : Walk ι → Bool → Bool
  | .null, b | .skip _, b => b
  | .basic _ _, _ | .string _ _, _ | .recurring _ _, _ => false
  | .node _ x, b =>
    match x with
    | .enumerator _   => true
    | .subroutineType => false
    | _               => b
  | .var _ type, b => type.memberAfter b
  | .derived _ d base, b =>
    base.memberAfter (!(DIEventVisitor.isVoidPointer d || DIEventVisitor.isVtablePtr d) &&
      (b || d.isMemberNode))
  | .array _ _ elements base, b => base.memberAfter (memberAfterElements elements b)
  | .composite _ _ base elements, _ => memberAfterElements elements (base.memberAfter false)

def memberAfterElements : List (Walk ι) → Bool → Bool
  | [], b      => b
  | w :: ws, b => memberAfterElements ws (w.memberAfter b)
end

/-! ### Metadata on the way down -/

/-- The metadata says the same about the entry to be made. -/
structure MetaData.SameEntry (m m' : MetaData ι) : Prop where
  isMember : m'.isMember = m.isMember
  isMemberStatic : m'.isMemberStatic = m.isMemberStatic
  isBaseClass : m'.isBaseClass = m.isBaseClass
  memberName : m'.memberName = m.memberName
  memberOffset : m'.memberOffset = m.memberOffset
  memberSize : m'.memberSize = m.memberSize

namespace MetaData

lemma SameEntry.refl (m : MetaData ι) : SameEntry m m := ⟨rfl, rfl, rfl, rfl, rfl, rfl⟩

lemma SameEntry.ofMember_eq {m m' : MetaData ι} (h : SameEntry m m') (t : QualifiedType) :
    Entry.ofMember t m' = Entry.ofMember t m := by
  simp [Entry.ofMember, h.isMemberStatic, h.memberName, h.memberOffset, h.memberSize]

lemma SameEntry.trans {m m' m'' : MetaData ι} (h : SameEntry m m') (h' : SameEntry m' m'') :
    SameEntry m m'' :=
  ⟨h'.isMember.trans h.isMember, h'.isMemberStatic.trans h.isMemberStatic,
    h'.isBaseClass.trans h.isBaseClass, h'.memberName.trans h.memberName,
    h'.memberOffset.trans h.memberOffset, h'.memberSize.trans h.memberSize⟩

lemma visitDerived_of_not_isElement {d : DIDerivedType ι} (hd : d.isElement = false)
    (m : MetaData ι) : SameEntry m (m.visitDerived d) := by
  simp only [DIDerivedType.isElement, DIDerivedType.isMemberNode, Bool.or_eq_false_iff,
    beq_eq_false_iff_ne, Bool.and_eq_false_imp, beq_iff_eq] at hd
  obtain ⟨⟨hmember, hvar⟩, hinh⟩ := hd
  simp only [visitDerived]
  split
  · next h => exact absurd h hmember
  · next h =>
    rw [hvar h]
    exact ⟨rfl, rfl, rfl, rfl, rfl, rfl⟩
  · exact ⟨rfl, rfl, rfl, rfl, rfl, rfl⟩
  · next h => exact absurd h hinh
  · exact ⟨rfl, rfl, rfl, rfl, rfl, rfl⟩
  · exact ⟨rfl, rfl, rfl, rfl, rfl, rfl⟩

lemma visitDerived_of_isMemberNode {d : DIDerivedType ι} (hd : d.isMemberNode = true)
    (m : MetaData ι) :
    m.visitDerived d = { m with derivedSize := d.sizeInBits / 8 }.makeMember d := by
  simp only [DIDerivedType.isMemberNode, Bool.or_eq_true, beq_iff_eq, Bool.and_eq_true] at hd
  rcases hd with h | ⟨h, hstatic⟩
  · simp [visitDerived, h]
  · simp [visitDerived, h, hstatic]

end MetaData

/-! ### Parts of the state that a walk keeps -/

namespace Parse

@[simp] lemma enumData_emitFundamental (name : String) (encoding : FundamentalType.Encoding)
    (p : Parse ι) : (p.emitFundamental name encoding).enumData = p.enumData := by
  simp only [emitFundamental, emit]
  split <;> rfl

@[simp] lemma current_emitFundamental (name : String) (encoding : FundamentalType.Encoding)
    (p : Parse ι) : (p.emitFundamental name encoding).current = p.current := by
  simp only [emitFundamental, emit]
  split <;> rfl

@[simp] lemma finalized_emitFundamental (name : String) (encoding : FundamentalType.Encoding)
    (p : Parse ι) : (p.emitFundamental name encoding).finalized = p.finalized := by
  simp only [emitFundamental, emit]
  split <;> rfl

@[simp] lemma enumData_leave (m : MetaData ι) (c : DICompositeType ι) (p inner : Parse ι) :
    (p.leave m c inner).enumData = {} := by
  simp only [leave]
  split
  · rfl
  · split <;> rfl

@[simp] lemma current_leave (m : MetaData ι) (c : DICompositeType ι) (p inner : Parse ι) :
    (p.leave m c inner).current = inner.current := by
  simp only [leave]
  split
  · rfl
  · split <;> rfl

@[simp] lemma finalized_leave (m : MetaData ι) (c : DICompositeType ι) (p inner : Parse ι) :
    (p.leave m c inner).finalized = inner.finalized ++
      [(m, { makeQualType (makeCompound c) m with
        type := (makeCompound c).addAll inner.entries })] := by
  simp only [leave]
  split
  · rfl
  · split <;> rfl

lemma enumData_basic (b : DIBasicType) {p : Parse ι} (h : p.enumData.isEnum = false) :
    (p.basic b).enumData = p.enumData := by
  simp only [basic, h, Bool.false_eq_true, if_false, clearCurrent]
  rw [enumData_emitFundamental]

lemma enumBase_basic (b : DIBasicType) {p : Parse ι} (h : p.enumData.isEnum = true) :
    (p.basic b).enumData.enumBase = some b := by
  simp only [basic, h, if_true, clearCurrent]

lemma finalized_basic (b : DIBasicType) (p : Parse ι) : (p.basic b).finalized = p.finalized := by
  simp only [basic, clearCurrent]
  split
  · rfl
  · rw [finalized_emitFundamental]

/-- A derived type is collected, unless it is a pointer to void or the vtable pointer. -/
lemma derived_of_collected {d : DIDerivedType ι}
    (h : (DIEventVisitor.isVoidPointer d || DIEventVisitor.isVtablePtr d) = false) (p : Parse ι) :
    p.derived d = { p with current := p.current.visitDerived d } := by
  obtain ⟨hvoid, hvtbl⟩ := Bool.or_eq_false_iff.mp h
  simp [derived, hvoid, hvtbl]

/-- A pointer to void and the vtable pointer make an event and leave cleared metadata. -/
lemma derived_of_event {d : DIDerivedType ι}
    (h : (DIEventVisitor.isVoidPointer d || DIEventVisitor.isVtablePtr d) = true) (p : Parse ι) :
    ∃ name encoding isVoidPtr, p.derived d = (emitFundamental name encoding
      { p with current := { p.current.visitDerived d with
          type := some (.derivedType d), isVoidPtr := isVoidPtr } }).clearCurrent := by
  simp only [derived]
  split
  · exact ⟨"void", .kVoid, true, rfl⟩
  · next hvoid =>
    rw [if_pos (by simpa [hvoid] using h)]
    exact ⟨d.name, .kVtablePtr, (p.current.visitDerived d).isVoidPtr, rfl⟩

lemma current_derived_of_event {d : DIDerivedType ι}
    (h : (DIEventVisitor.isVoidPointer d || DIEventVisitor.isVtablePtr d) = true) (p : Parse ι) :
    (p.derived d).current = {} := by
  obtain ⟨name, encoding, isVoidPtr, hderived⟩ := derived_of_event h p
  rw [hderived, clearCurrent]

lemma isEnum_derived (d : DIDerivedType ι) (p : Parse ι) :
    (p.derived d).enumData = p.enumData := by
  simp only [derived]
  split
  · simp [clearCurrent]
  · split <;> simp [clearCurrent]

lemma enumData_node (x : DINode ι) (p : Parse ι) : (p.node x).enumData = p.enumData := by
  cases x with
  | enumerator name =>
    simp only [node]
    cases p.enumData.enumBase <;> simp
  | subrange count =>
    cases count with
    | none => rfl
    | some count =>
      simp only [node]
      split <;> rfl
  | subroutineType => simp [node, clearCurrent]
  | _ => rfl

end Parse

section Keep

variable [DecidableEq ι]

mutual
/-- Outside of an enumeration a walk never ends inside of one. -/
lemma isEnum_parse (w : Walk ι) {p : Parse ι} (h : p.enumData.isEnum = false) :
    (parse w p).enumData.isEnum = false := by
  match w with
  | .null => exact h
  | .basic n b => rw [parse, Parse.enumData_basic b h, h]
  | .string n t => simp [parse, Parse.string, h, Parse.clearCurrent]
  | .node n x => rw [parse, Parse.enumData_node, h]
  | .var n type => exact isEnum_parse type h
  | .derived n d base => exact isEnum_parse base (by rw [Parse.isEnum_derived, h])
  | .array n c elements base => exact isEnum_parse base (isEnum_parseElements elements h)
  | .composite n c base elements => simp [parse]
  | .recurring n c => simp [parse]
  | .skip n => exact h

lemma isEnum_parseElements (ws : List (Walk ι)) {p : Parse ι} (h : p.enumData.isEnum = false) :
    (parseElements ws p).enumData.isEnum = false := by
  match ws with
  | [] => exact h
  | w :: ws => exact isEnum_parseElements ws (isEnum_parse w h)
end

omit [DecidableEq ι] in
lemma isRecurring_derived (d : DIDerivedType ι) {p : Parse ι}
    (h : p.current.isRecurring = false) : (p.derived d).current.isRecurring = false := by
  have hvisit : (p.current.visitDerived d).isRecurring = false := by
    simp only [MetaData.visitDerived]
    split
    · exact h
    · split <;> exact h
    all_goals exact h
  cases hclear : DIEventVisitor.isVoidPointer d || DIEventVisitor.isVtablePtr d with
  | true => rw [Parse.current_derived_of_event hclear]
  | false =>
    rw [Parse.derived_of_collected hclear]
    exact hvisit

omit [DecidableEq ι] in
lemma isRecurring_node (x : DINode ι) {p : Parse ι} (h : p.current.isRecurring = false) :
    (p.node x).current.isRecurring = false := by
  cases x with
  | enumerator name =>
    simp only [Parse.node]
    cases p.enumData.enumBase with
    | none => exact h
    | some b => simpa [MetaData.visitEnumerator] using h
  | subrange count =>
    cases count with
    | none => exact h
    | some count =>
      simp only [Parse.node]
      split <;> exact h
  | subroutineType => rfl
  | _ => exact h

mutual
/-- The recurring flag is spent on the composite it is set for. -/
lemma isRecurring_parse (w : Walk ι) {p : Parse ι} (h : p.current.isRecurring = false) :
    (parse w p).current.isRecurring = false := by
  match w with
  | .null => exact h
  | .basic n b => rfl
  | .string n t => rfl
  | .node n x => exact isRecurring_node x h
  | .var n type => exact isRecurring_parse type h
  | .derived n d base => exact isRecurring_parse base (isRecurring_derived d h)
  | .array n c elements base => exact isRecurring_parse base (isRecurring_parseElements elements h)
  | .composite n c base elements =>
    have hbase := isRecurring_parse base (p := p.enter c) rfl
    simp only [parse, Parse.current_leave]
    split
    · exact isRecurring_parseElements elements hbase
    · exact hbase
  | .recurring n c =>
    simp only [parse, Parse.current_leave]
    rfl
  | .skip n => exact h

lemma isRecurring_parseElements (ws : List (Walk ι)) {p : Parse ι}
    (h : p.current.isRecurring = false) : (parseElements ws p).current.isRecurring = false := by
  match ws with
  | [] => exact h
  | w :: ws => exact isRecurring_parseElements ws (isRecurring_parse w h)
end

/-! ### Subranges, enumerators and enumeration bases -/

lemma parseElements_of_allSubranges {ws : List (Walk ι)} (h : AllSubranges ws) (p : Parse ι) :
    (parseElements ws p).entries = p.entries ∧ (parseElements ws p).enumData = p.enumData ∧
      (parseElements ws p).finalized = p.finalized ∧
      p.current.SameEntry (parseElements ws p).current := by
  induction ws generalizing p with
  | nil => exact ⟨rfl, rfl, rfl, .refl _⟩
  | cons w ws ih =>
    obtain ⟨n, count, rfl⟩ := h w (by simp)
    have hstep : (p.node (.subrange count)).entries = p.entries ∧
        (p.node (.subrange count)).finalized = p.finalized ∧
        p.current.SameEntry (p.node (.subrange count)).current := by
      cases count with
      | none => exact ⟨rfl, rfl, .refl _⟩
      | some count =>
        simp only [Parse.node]
        split
        · exact ⟨rfl, rfl, .refl _⟩
        · exact ⟨rfl, rfl, rfl, rfl, rfl, rfl, rfl, rfl⟩
    obtain ⟨hentries, henum, hfin, hsame⟩ := ih (fun w hw => h w (by simp [hw]))
      (p.node (.subrange count))
    rw [parseElements, parse]
    exact ⟨hentries.trans hstep.1, henum.trans (Parse.enumData_node _ _), hfin.trans hstep.2.1,
      hstep.2.2.trans hsame⟩

omit [DecidableEq ι] in
lemma memberAfterElements_of_allSubranges {ws : List (Walk ι)} (h : AllSubranges ws) (b : Bool) :
    memberAfterElements ws b = b := by
  induction ws with
  | nil => rfl
  | cons w ws ih =>
    obtain ⟨n, count, rfl⟩ := h w (by simp)
    rw [memberAfterElements]
    exact ih fun w hw => h w (by simp [hw])

/-- A base chain that ends in a basic type leaves that type to the enumerators. -/
lemma enumBase_of_endsBasic (w : Walk ι) (hw : w.EndsBasic) {p : Parse ι}
    (h : p.enumData.isEnum = true) : (parse w p).enumData.enumBase ≠ none := by
  match w with
  | .basic n b => simp [parse, Parse.enumBase_basic b h]
  | .null | .string _ _ | .node _ _ | .recurring _ _ | .skip _ | .var _ _ | .array _ _ _ _
  | .composite _ _ _ _ => exact hw.elim
  | .derived n d base => exact enumBase_of_endsBasic base hw (by rw [Parse.isEnum_derived, h])

omit [DecidableEq ι] in
lemma Walk.returns_of_typeOk {G : DIGraph ι} (w : Walk ι) (hw : w.TypeOk G) : w.returns = true := by
  match w with
  | .null | .basic _ _ | .string _ _ | .node _ _ | .recurring _ _ => rfl
  | .var _ _ | .skip _ => exact hw.elim
  | .derived n d base => exact base.returns_of_typeOk hw.2
  | .array n c elements base => exact base.returns_of_typeOk hw.2
  | .composite n c base elements => exact base.returns_of_typeOk hw.1

lemma isMember_enumerators {ws : List (Walk ι)} (h : AllEnumerators ws) {p : Parse ι}
    (hbase : p.enumData.enumBase ≠ none) :
    (parseElements ws p).current.isMember = memberAfterElements ws p.current.isMember := by
  induction ws generalizing p with
  | nil => rfl
  | cons w ws ih =>
    obtain ⟨n, name, rfl⟩ := h w (by simp)
    rw [parseElements, parse, memberAfterElements,
      ih (fun w hw => h w (by simp [hw])) (by rwa [Parse.enumData_node])]
    obtain ⟨b, hb⟩ := Option.ne_none_iff_exists'.mp hbase
    have hmember : (p.node (.enumerator name)).current.isMember = true := by
      simp [Parse.node, hb, MetaData.visitEnumerator]
    rw [hmember, Walk.memberAfter]

/-! ### The member flag after a walk -/

omit [DecidableEq ι] in
lemma isMember_derived (d : DIDerivedType ι) (p : Parse ι) :
    (p.derived d).current.isMember =
      (!(DIEventVisitor.isVoidPointer d || DIEventVisitor.isVtablePtr d) &&
        (p.current.isMember || d.isMemberNode)) := by
  have hvisit : (p.current.visitDerived d).isMember = (p.current.isMember || d.isMemberNode) := by
    by_cases hd : d.isMemberNode = true
    · rw [MetaData.visitDerived_of_isMemberNode hd, hd]
      simp [MetaData.makeMember]
    · simp only [DIDerivedType.isMemberNode, Bool.or_eq_true, beq_iff_eq, Bool.and_eq_true,
        not_or, not_and, Bool.not_eq_true] at hd
      have hfalse : d.isMemberNode = false := by
        simpa [DIDerivedType.isMemberNode] using hd
      rw [hfalse, Bool.or_false]
      simp only [MetaData.visitDerived]
      split
      · next h => exact absurd h hd.1
      · next h => simp [hd.2 h]
      all_goals rfl
  cases hclear : DIEventVisitor.isVoidPointer d || DIEventVisitor.isVtablePtr d with
  | true =>
    rw [Parse.current_derived_of_event hclear]
    rfl
  | false =>
    rw [Parse.derived_of_collected hclear]
    exact hvisit

mutual
lemma isMember_parse {G : DIGraph ι} (w : Walk ι) (hw : w.TypeOk G ∨ w.ElementOk G) (p : Parse ι) :
    (parse w p).current.isMember = w.memberAfter p.current.isMember := by
  match w with
  | .null => rfl
  | .basic n b => rfl
  | .string n t => rfl
  | .node n x =>
    rcases hw with hw | hw
    · obtain rfl : x = .subroutineType := hw
      rfl
    · cases hw
  | .var n type => rcases hw with hw | hw <;> cases hw
  | .derived n d base =>
    have hbase : base.TypeOk G := hw.elim And.right And.right
    rw [parse, isMember_parse base (.inl hbase), isMember_derived, Walk.memberAfter]
  | .array n c elements base =>
    obtain ⟨hsub, hbase⟩ : AllSubranges elements ∧ base.TypeOk G := hw.resolve_right id
    rw [parse, isMember_parse base (.inl hbase), Walk.memberAfter,
      memberAfterElements_of_allSubranges hsub,
      (parseElements_of_allSubranges hsub _).2.2.2.isMember]
    rfl
  | .composite n c base elements =>
    obtain ⟨hbase, helements⟩ := hw.resolve_right id
    have hflag := isMember_parse base (.inl hbase) (p.enter c)
    simp only [parse, Parse.current_leave, base.returns_of_typeOk hbase, if_true,
      Walk.memberAfter]
    split_ifs at helements with henum
    · obtain ⟨hall, hends⟩ := helements
      rcases hends with rfl | hends
      · exact hflag
      · have hb := enumBase_of_endsBasic base hends (p := p.enter c) (by simp [Parse.enter, henum])
        rw [isMember_enumerators hall hb, hflag]
        rfl
    · rw [isMember_parseElements elements helements.1, hflag]
      rfl
  | .recurring n c =>
    simp only [parse, Parse.current_leave, Walk.memberAfter]
    rfl
  | .skip n => rfl

lemma isMember_parseElements {G : DIGraph ι} (ws : List (Walk ι)) (hws : ElementsOk G ws)
    (p : Parse ι) :
    (parseElements ws p).current.isMember = memberAfterElements ws p.current.isMember := by
  match ws with
  | [] => rfl
  | w :: ws =>
    rw [parseElements, isMember_parseElements ws hws.2, isMember_parse w (.inr hws.1),
      memberAfterElements]
end

/-! ### The entry of a chain -/

/-- What the walk of a type adds to the composite around it, by the metadata `m` it starts with:
the entry of a member if an event fires, that of a base class if a record comes first. -/
inductive ChainEntry (w : Walk ι) (m : MetaData ι) : Option Entry → Prop
  | member (t : QualifiedType) (hm : m.isMember = true) (hw : w.reachesEvent = true) :
      ChainEntry w m (some (.ofMember t m))
  | lost (hm : m.isMember = true) (hw : w.reachesEvent = false) : ChainEntry w m none
  | base (b : BaseClass) (hm : m.isMember = false) (hb : m.isBaseClass = true)
      (hw : w.reachesRecord = true) (hoffset : b.offset = m.memberOffset) :
      ChainEntry w m (some (.base b))
  | none (hm : m.isMember = false) (hb : m.isBaseClass = false ∨ w.reachesRecord = false) :
      ChainEntry w m none

omit [DecidableEq ι] in
/-- The entry depends on the chain through its events and on the metadata through the fields of
the entry. -/
lemma ChainEntry.of_sameEntry {w w' : Walk ι} {m m' : MetaData ι} {o : Option Entry}
    (h : ChainEntry w' m' o) (hm : m.SameEntry m') (hevent : w.reachesEvent = w'.reachesEvent)
    (hrecord : w.reachesRecord = w'.reachesRecord) : ChainEntry w m o := by
  cases h with
  | member t hmember hw =>
    rw [hm.ofMember_eq]
    exact .member t (hm.isMember ▸ hmember) (hevent.trans hw)
  | lost hmember hw => exact .lost (hm.isMember ▸ hmember) (hevent.trans hw)
  | base b hmember hb hw hoffset =>
    exact .base b (hm.isMember ▸ hmember) (hm.isBaseClass ▸ hb) (hrecord.trans hw)
      (hoffset.trans hm.memberOffset)
  | none hmember hb =>
    exact .none (hm.isMember ▸ hmember) (hb.imp (hm.isBaseClass ▸ ·) hrecord.trans)

omit [DecidableEq ι] in
/-- An event makes an entry exactly for a member. -/
lemma chainEntry_emitFundamental {w : Walk ι} (hevent : w.reachesEvent = true)
    (hrecord : w.reachesRecord = false) (name : String) (encoding : FundamentalType.Encoding)
    (p : Parse ι) {m : MetaData ι} (hm : m.SameEntry p.current) :
    ∃ o, (p.emitFundamental name encoding).entries = p.entries ++ o.toList ∧ ChainEntry w m o := by
  simp only [Parse.emitFundamental, Parse.emit]
  cases hmember : p.current.isMember with
  | true => exact ⟨_, rfl, (ChainEntry.member _ hmember hevent).of_sameEntry hm rfl rfl⟩
  | false =>
    exact ⟨none, by simp, (ChainEntry.none hmember (.inr hrecord)).of_sameEntry hm rfl rfl⟩

omit [DecidableEq ι] in
/-- Leaving a composite makes the entry of a member or of a base class. -/
lemma chainEntry_leave {w : Walk ι} (hevent : w.reachesEvent = true)
    (hrecord : w.reachesRecord = true) (m m' : MetaData ι) (c : DICompositeType ι)
    (p inner : Parse ι) (hm' : m.SameEntry m') :
    ∃ o, (p.leave m' c inner).entries = p.entries ++ o.toList ∧ ChainEntry w m o := by
  simp only [Parse.leave]
  split
  · next h => exact ⟨_, rfl, (ChainEntry.member _ h hevent).of_sameEntry hm' rfl rfl⟩
  · next h =>
    have h : m'.isMember = false := by simpa using h
    split
    · next hb => exact ⟨_, rfl, (ChainEntry.base _ h hb hrecord rfl).of_sameEntry hm' rfl rfl⟩
    · next hb =>
      have hb : m'.isBaseClass = false := by simpa using hb
      exact ⟨Option.none, by simp, (ChainEntry.none h (.inl hb)).of_sameEntry hm' rfl rfl⟩

omit [DecidableEq ι] in
/-- Without a member or a base class to come, nothing is added. -/
lemma ChainEntry.eq_none {w : Walk ι} {m : MetaData ι} {o : Option Entry} (h : ChainEntry w m o)
    (hm : m.isMember = false) (hb : m.isBaseClass = false) : o = Option.none := by
  cases h with
  | member _ h => simp [hm] at h
  | lost h => simp [hm] at h
  | base _ _ h => simp [hb] at h
  | none => rfl

/-- The walk of a type makes the entry of its chain. -/
lemma chainEntry_parse {G : DIGraph ι} (w : Walk ι) (hw : w.TypeOk G) {p : Parse ι}
    (h : p.enumData.isEnum = false) :
    ∃ o, (parse w p).entries = p.entries ++ o.toList ∧ ChainEntry w p.current o := by
  match w with
  | .null =>
    refine ⟨none, by simp [parse], ?_⟩
    cases hm : p.current.isMember with
    | true => exact .lost hm rfl
    -- the metadata go on, with nothing but the chain added
    | false => exact .none hm (.inr rfl)
  | .basic n b =>
    simp only [parse, Parse.basic, h, Bool.false_eq_true, if_false]
    exact chainEntry_emitFundamental rfl rfl _ _ { p with current.type := some (.basicType b) }
      ⟨rfl, rfl, rfl, rfl, rfl, rfl⟩
  | .string n t =>
    exact chainEntry_emitFundamental rfl rfl _ _ { p with current.type := some (.stringType t) }
      ⟨rfl, rfl, rfl, rfl, rfl, rfl⟩
  | .node n x =>
    obtain rfl : x = .subroutineType := hw
    exact chainEntry_emitFundamental rfl rfl _ _ { p with current.type := some .subroutineType }
      ⟨rfl, rfl, rfl, rfl, rfl, rfl⟩
  | .var _ _ | .skip _ => exact hw.elim
  | .derived n d base =>
    obtain ⟨hd, hbase⟩ := hw
    have hsame := MetaData.visitDerived_of_not_isElement hd p.current
    obtain ⟨o', ho', hchain'⟩ := chainEntry_parse base hbase (p := p.derived d)
      (by rw [Parse.isEnum_derived, h])
    cases hclear : DIEventVisitor.isVoidPointer d || DIEventVisitor.isVtablePtr d with
    | true =>
      -- the event of the pointer fires here, and what follows finds cleared metadata
      have hevent : (Walk.derived n d base).reachesEvent = true := by
        simp [Walk.reachesEvent, hclear]
      have hrecord : (Walk.derived n d base).reachesRecord = false := by
        simp [Walk.reachesRecord, hclear]
      have hcurrent := Parse.current_derived_of_event hclear p
      obtain rfl := hchain'.eq_none (by rw [hcurrent]) (by rw [hcurrent])
      obtain ⟨name, encoding, isVoidPtr, hderived⟩ := Parse.derived_of_event hclear p
      rw [parse, ho', Option.toList_none, List.append_nil, hderived, Parse.clearCurrent]
      exact chainEntry_emitFundamental hevent hrecord _ _ { p with current := _ }
        (hsame.trans ⟨rfl, rfl, rfl, rfl, rfl, rfl⟩)
    | false =>
      have hderived := Parse.derived_of_collected hclear p
      rw [hderived] at ho' hchain'
      rw [parse, hderived]
      refine ⟨o', ho', hchain'.of_sameEntry hsame ?_ ?_⟩
      · simp [Walk.reachesEvent, hclear]
      · simp [Walk.reachesRecord, hclear]
  | .array n c elements base =>
    obtain ⟨hsub, hbase⟩ := hw
    obtain ⟨hentries, henum, -, hsame⟩ := parseElements_of_allSubranges hsub
      { p with current := p.current.visitArray c }
    obtain ⟨o, ho, hchain⟩ := chainEntry_parse base hbase
      (p := parseElements elements { p with current := p.current.visitArray c })
      (by rw [henum]; exact h)
    rw [hentries] at ho
    have harray : p.current.SameEntry (p.current.visitArray c) := ⟨rfl, rfl, rfl, rfl, rfl, rfl⟩
    exact ⟨o, by rw [parse, ho], hchain.of_sameEntry (harray.trans hsame) rfl rfl⟩
  | .composite n c base elements =>
    exact chainEntry_leave rfl rfl _ _ c p _ ⟨rfl, rfl, rfl, rfl, rfl, rfl⟩
  | .recurring n c => exact chainEntry_leave rfl rfl _ _ c p _ ⟨rfl, rfl, rfl, rfl, rfl, rfl⟩

end Keep

end Dimeta
