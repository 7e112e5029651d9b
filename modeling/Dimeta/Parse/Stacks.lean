import Dimeta.Parse.Complete

/-!
# The stacks of a parse

The event visitor and the type parser each have a stack, pushed and popped by different callbacks.
In every state of a parse both have the same depth, none is read where it is empty, and the lists
of every record fit together: each member has an offset and a size, the enumerators share one.

The entries of the three lists are those of one element as long as no base class is parsed while
the metadata still says "member": such a base class becomes a member with its own offset, but with
the name and the size of what was met before.
-/

set_option autoImplicit false

namespace Dimeta

variable {ι : Type}

/-! ### Records inside of records -/

/-- `P` holds of a record and of all records inside of it. -/
inductive CompoundType.Everywhere (P : CompoundType → Prop) : CompoundType → Prop
  | intro (t : CompoundType) (h : P t) (hbases : ∀ b ∈ t.bases, Everywhere P b.base.type)
      (hmembers : ∀ m ∈ t.members ++ t.staticMembers, ∀ q, m.member = .compound q →
        Everywhere P q.type) : Everywhere P t

def QualifiedType.Everywhere (P : CompoundType → Prop) : QualifiedType → Prop
  | .compound q    => q.type.Everywhere P
  | .fundamental _ => True

/-- `P` holds of all records in the result and on the stack. -/
structure DITypeParser.Everywhere (P : CompoundType → Prop) (p : DITypeParser) : Prop where
  result : p.result.Everywhere P
  compositeStack : ∀ c ∈ p.compositeStack, c.type.Everywhere P

section Everywhere

variable {P Q : CompoundType → Prop}

lemma CompoundType.Everywhere.here {t : CompoundType} (h : t.Everywhere P) : P t := by
  cases h with
  | intro _ h => exact h

lemma CompoundType.Everywhere.imp (hPQ : ∀ t, P t → Q t) {t : CompoundType}
    (h : t.Everywhere P) : t.Everywhere Q := by
  induction h with
  | intro t h _ _ hbases hmembers => exact .intro t (hPQ t h) hbases hmembers

lemma DITypeParser.Everywhere.imp (hPQ : ∀ t, P t → Q t) {p : DITypeParser}
    (h : p.Everywhere P) : p.Everywhere Q where
  result := by
    have hresult := h.result
    cases hp : p.result with
    | compound q =>
      rw [hp] at hresult
      exact CompoundType.Everywhere.imp hPQ hresult
    | fundamental q => trivial
  compositeStack c hc := (h.compositeStack c hc).imp hPQ

/-- The type of an entry has the property everywhere. -/
def Entry.Everywhere (P : CompoundType → Prop) : Entry → Prop
  | .member _ _ _ type    => type.Everywhere P
  | .staticMember _ type  => type.Everywhere P
  | .base b               => b.base.type.Everywhere P
  | .truncateEnum         => True

lemma CompoundType.Everywhere.add {t : CompoundType} (h : t.Everywhere P) {e : Entry}
    (he : e.Everywhere P) (hadd : P (t.add e)) : (t.add e).Everywhere P := by
  obtain ⟨t, -, hbases, hmembers⟩ := h
  cases e with
  | member name offset size type =>
    refine .intro _ hadd hbases fun m hm q hq => ?_
    simp only [CompoundType.add, List.mem_append, List.mem_singleton] at hm
    rcases hm with (hm | rfl) | hm
    · exact hmembers m (by simp [hm]) q hq
    · obtain rfl : type = .compound q := hq
      exact he
    · exact hmembers m (by simp [hm]) q hq
  | staticMember name type =>
    refine .intro _ hadd hbases fun m hm q hq => ?_
    simp only [CompoundType.add, List.mem_append, List.mem_singleton] at hm
    rcases hm with hm | hm | rfl
    · exact hmembers m (by simp [hm]) q hq
    · exact hmembers m (by simp [hm]) q hq
    · obtain rfl : type = .compound q := hq
      exact he
  | base b =>
    refine .intro _ hadd (fun b' hb' => ?_) hmembers
    simp only [CompoundType.add, CompoundType.emplaceBase, List.mem_append,
      List.mem_singleton] at hb'
    rcases hb' with hb' | rfl
    · exact hbases b' hb'
    · exact he
  | truncateEnum => exact .intro _ hadd hbases hmembers

end Everywhere

/-! ### Lists that fit together -/

/-- Every member has an offset and a size; enumerators have one of each together. -/
structure CompoundType.ListsOk (t : CompoundType) : Prop where
  offsets : t.offsets.length = if t.type = .kEnum then min 1 t.members.length else t.members.length
  sizes : t.sizes.length = if t.type = .kEnum then min 1 t.members.length else t.members.length

/-- The three lists side by side: name, offset and size of the members. -/
def CompoundType.keys (t : CompoundType) : List (String × UInt64 × UInt64) :=
  (t.members.map Member.name).zip (t.offsets.zip t.sizes)

/-- Name, offset and size of the non-static members among the elements of a composite. -/
def DIGraph.elementKeys (G : DIGraph ι) (c : DICompositeType ι) : List (String × UInt64 × UInt64) :=
  c.elements.filterMap fun e => (G.node e).asDerived.bind DIDerivedType.memberKey

/-- The members, offsets and sizes at each index are those of one element of the composite that the
record was made for, in the order of the elements. -/
def CompoundType.Described (G : DIGraph ι) (t : CompoundType) : Prop :=
  t.type ≠ .kEnum → t.keys ≠ [] → ∃ n c, G.node n = .compositeType c ∧
    t.name = c.name ∧ t.identifier = c.identifier ∧ t.type = dwarf2compound c.tag ∧
    t.extent = c.sizeInBits / 8 ∧ t.keys.Sublist (G.elementKeys c)

/-- The stacks have the same depth, none was read where it is empty, and `P` holds of all
records. -/
structure DIEventState.StacksOk (P : CompoundType → Prop) (s : DIEventState ι DITypeParser) :
    Prop where
  defined : s.undefined = false
  eventsDefined : s.events.undefined = false
  depths : s.stack.length = s.events.compositeStack.length
  records : s.events.Everywhere P

/-! ### The states of a parse -/

abbrev parserVisitor [DecidableEq ι] : DINodeVisitor ι (DIEventState ι DITypeParser) :=
  DIEventVisitor.visitor DITypeParser.events

/-- The final state of `make_dimetadata` and all states that its callbacks return. -/
def parserStates [DecidableEq ι] (G : DIGraph ι) (fuel : ℕ) (n : ι) :
    Option (DIEventState ι DITypeParser × List (DIEventState ι DITypeParser)) :=
  let start : DIEventState ι DITypeParser := { events := {} }
  if !((G.node n).isVariable || (G.node n).isType) then some (start, [start])
  else (parserVisitor.traced.traverseNode G fuel n (start, [start])).map fun r => r.2.callback


/-! ### Base classes after a lost clearing -/

def MetaData.isPlainMember (m : MetaData ι) : Bool := m.isMember && !m.isMemberStatic

mutual
/-- Whether the metadata says "member, and not static" after a walk, given whether it did before. -/
def Walk.plainAfter : Walk ι → Bool → Bool
  | .null, b | .skip _, b => b
  | .basic _ _, _ | .string _ _, _ | .recurring _ _, _ => false
  | .node _ x, b =>
    match x with
    | .enumerator _   => true
    | .subroutineType => false
    | _               => b
  | .var _ type, b => type.plainAfter b
  | .derived _ d base, b =>
    base.plainAfter (!(DIEventVisitor.isVoidPointer d || DIEventVisitor.isVtablePtr d) &&
      if d.isMemberNode then !d.isStaticMember else b)
  | .array _ _ elements base, b => base.plainAfter (plainAfterElements elements b)
  | .composite _ _ base elements, _ => plainAfterElements elements (base.plainAfter false)

def plainAfterElements : List (Walk ι) → Bool → Bool
  | [], b      => b
  | w :: ws, b => plainAfterElements ws (w.plainAfter b)
end

/-- The element is a base class on whose chain an event fires. -/
def Walk.isFiringBase (w : Walk ι) : Bool :=
  w.asDerived.any (fun d => !d.isMemberNode) && w.reachesEvent

mutual
/-- No base class with an event on its chain is met while the metadata says "member, and not
static". -/
def Walk.settled : Walk ι → Bool
  | .null | .basic _ _ | .string _ _ | .node _ _ | .recurring _ _ | .skip _ => true
  | .var _ type => type.settled
  | .derived _ _ base | .array _ _ _ base => base.settled
  | .composite _ c base elements =>
    base.settled &&
      (c.tag == .enumerationType || settledElements elements (base.plainAfter false))

def settledElements : List (Walk ι) → Bool → Bool
  | [], _      => true
  | w :: ws, b =>
    !(b && w.isFiringBase) && w.settled && settledElements ws (w.plainAfter b)
end

section Plain

variable [DecidableEq ι]

omit [DecidableEq ι] in
lemma MetaData.SameEntry.isPlainMember {m m' : MetaData ι} (h : m.SameEntry m') :
    m'.isPlainMember = m.isPlainMember := by
  rw [MetaData.isPlainMember, h.isMember, h.isMemberStatic, MetaData.isPlainMember]

omit [DecidableEq ι] in
lemma isPlainMember_derived (d : DIDerivedType ι) (p : Parse ι) :
    (p.derived d).current.isPlainMember =
      (!(DIEventVisitor.isVoidPointer d || DIEventVisitor.isVtablePtr d) &&
        if d.isMemberNode then !d.isStaticMember else p.current.isPlainMember) := by
  have hvisit : (p.current.visitDerived d).isPlainMember =
      if d.isMemberNode then !d.isStaticMember else p.current.isPlainMember := by
    cases hd : d.isMemberNode with
    | true =>
      rw [MetaData.visitDerived_of_isMemberNode hd]
      simp [MetaData.isPlainMember, MetaData.makeMember]
    | false =>
      simp only [DIDerivedType.isMemberNode, Bool.or_eq_false_iff, beq_eq_false_iff_ne,
        Bool.and_eq_false_imp, beq_iff_eq] at hd
      simp only [MetaData.visitDerived]
      split
      · next h => exact absurd h hd.1
      · next h =>
        rw [hd.2 h]
        rfl
      all_goals rfl
  cases hclear : DIEventVisitor.isVoidPointer d || DIEventVisitor.isVtablePtr d with
  | true =>
    rw [Parse.current_derived_of_event hclear]
    rfl
  | false =>
    rw [Parse.derived_of_collected hclear]
    exact hvisit

omit [DecidableEq ι] in
lemma plainAfterElements_of_allSubranges {ws : List (Walk ι)} (h : AllSubranges ws) (b : Bool) :
    plainAfterElements ws b = b := by
  induction ws with
  | nil => rfl
  | cons w ws ih =>
    obtain ⟨n, count, rfl⟩ := h w (by simp)
    rw [plainAfterElements]
    exact ih fun w hw => h w (by simp [hw])

/-- A chain that ends in a basic type clears the metadata. -/
lemma current_of_endsBasic (w : Walk ι) (hw : w.EndsBasic) (p : Parse ι) :
    (parse w p).current = {} := by
  match w with
  | .basic n b => rfl
  | .null | .string _ _ | .node _ _ | .recurring _ _ | .skip _ | .var _ _ | .array _ _ _ _
  | .composite _ _ _ _ => exact hw.elim
  | .derived n d base => exact current_of_endsBasic base hw _

lemma isPlainMember_enumerators {ws : List (Walk ι)} (h : AllEnumerators ws) {p : Parse ι}
    (hbase : p.enumData.enumBase ≠ none) (hstatic : p.current.isMemberStatic = false) :
    (parseElements ws p).current.isPlainMember =
      plainAfterElements ws p.current.isPlainMember := by
  induction ws generalizing p with
  | nil => rfl
  | cons w ws ih =>
    obtain ⟨n, name, rfl⟩ := h w (by simp)
    obtain ⟨b, hb⟩ := Option.ne_none_iff_exists'.mp hbase
    have hflags : (p.node (.enumerator name)).current.isMember = true ∧
        (p.node (.enumerator name)).current.isMemberStatic = false := by
      simp [Parse.node, hb, MetaData.visitEnumerator, hstatic]
    have hplain : (p.node (.enumerator name)).current.isPlainMember = true := by
      simp [MetaData.isPlainMember, hflags]
    rw [parseElements, parse, plainAfterElements,
      ih (fun w hw => h w (by simp [hw])) (by rwa [Parse.enumData_node]) hflags.2, hplain,
      Walk.plainAfter]

mutual
lemma isPlainMember_parse {G : DIGraph ι} (w : Walk ι) (hw : w.TypeOk G ∨ w.ElementOk G)
    (p : Parse ι) : (parse w p).current.isPlainMember = w.plainAfter p.current.isPlainMember := by
  match w with
  | .null => rfl
  | .basic n b => rfl
  | .string n t => rfl
  | .node n x =>
    rcases hw with hw | hw
    · obtain rfl : x = .subroutineType := hw
      rfl
    · cases hw
  | .var n type => rcases hw with hw | hw <;> cases hw
  | .derived n d base =>
    have hbase : base.TypeOk G := hw.elim And.right And.right
    rw [parse, isPlainMember_parse base (.inl hbase), isPlainMember_derived, Walk.plainAfter]
  | .array n c elements base =>
    obtain ⟨hsub, hbase⟩ : AllSubranges elements ∧ base.TypeOk G := hw.resolve_right id
    rw [parse, isPlainMember_parse base (.inl hbase), Walk.plainAfter,
      plainAfterElements_of_allSubranges hsub,
      (parseElements_of_allSubranges hsub _).2.2.2.isPlainMember]
    rfl
  | .composite n c base elements =>
    obtain ⟨hbase, helements⟩ := hw.resolve_right id
    have hflag := isPlainMember_parse base (.inl hbase) (p.enter c)
    simp only [parse, Parse.current_leave, base.returns_of_typeOk hbase, if_true,
      Walk.plainAfter]
    split_ifs at helements with henum
    · obtain ⟨hall, hends⟩ := helements
      rcases hends with rfl | hends
      · exact hflag
      · have hb := enumBase_of_endsBasic base hends (p := p.enter c) (by simp [Parse.enter, henum])
        rw [isPlainMember_enumerators hall hb (by rw [current_of_endsBasic base hends]), hflag]
        rfl
    · rw [isPlainMember_parseElements elements helements.1, hflag]
      rfl
  | .recurring n c =>
    simp only [parse, Parse.current_leave, Walk.plainAfter]
    rfl
  | .skip n => rfl

lemma isPlainMember_parseElements {G : DIGraph ι} (ws : List (Walk ι)) (hws : ElementsOk G ws)
    (p : Parse ι) : (parseElements ws p).current.isPlainMember =
      plainAfterElements ws p.current.isPlainMember := by
  match ws with
  | [] => rfl
  | w :: ws =>
    rw [parseElements, isPlainMember_parseElements ws hws.2,
      isPlainMember_parse w (.inr hws.1), plainAfterElements]
end

end Plain

/-! ### Entries that keep the lists -/

section Lists

variable {G : DIGraph ι} {C : Prop} {t : CompoundType}

/-- The lists fit, and under the condition `C` they describe the elements. -/
def CompoundType.Ok (G : DIGraph ι) (C : Prop) (t : CompoundType) : Prop :=
  t.ListsOk ∧ (C → t.Described G)

/-- A record with these keys describes a composite. -/
def CompoundType.Describes (G : DIGraph ι) (t : CompoundType)
    (keys : List (String × UInt64 × UInt64)) : Prop :=
  ∃ n c, G.node n = .compositeType c ∧ t.name = c.name ∧ t.identifier = c.identifier ∧
    t.type = dwarf2compound c.tag ∧ t.extent = c.sizeInBits / 8 ∧ keys.Sublist (G.elementKeys c)

lemma CompoundType.ok_makeCompound (c : DICompositeType ι) : (makeCompound c).Ok G C :=
  ⟨⟨by simp [makeCompound], by simp [makeCompound]⟩, fun _ _ h => absurd rfl h⟩

lemma CompoundType.Ok.add_base (h : t.Ok G C) (b : BaseClass) : (t.add (.base b)).Ok G C :=
  ⟨⟨h.1.offsets, h.1.sizes⟩, fun hC => h.2 hC⟩

lemma CompoundType.Ok.add_static (h : t.Ok G C) (name : String) (type : QualifiedType) :
    (t.add (.staticMember name type)).Ok G C :=
  ⟨⟨h.1.offsets, h.1.sizes⟩, fun hC => h.2 hC⟩

lemma CompoundType.keys_add_member (h : t.ListsOk) (htag : t.type ≠ .kEnum) (name : String)
    (offset size : UInt64) (type : QualifiedType) :
    (t.add (.member name offset size type)).keys = t.keys ++ [(name, offset, size)] := by
  have hoffsets := h.offsets
  have hsizes := h.sizes
  rw [if_neg htag] at hoffsets hsizes
  simp only [keys, add, List.map_append, List.map_singleton]
  rw [List.zip_append (by simp [hoffsets, hsizes]),
    List.zip_append (by simp [hoffsets, hsizes])]
  rfl

lemma CompoundType.Ok.add_member (h : t.Ok G C) (htag : t.type ≠ .kEnum) {name : String}
    {offset size : UInt64} (type : QualifiedType)
    (hkeys : C → t.Describes G (t.keys ++ [(name, offset, size)])) :
    (t.add (.member name offset size type)).Ok G C := by
  have hoffsets := h.1.offsets
  have hsizes := h.1.sizes
  rw [if_neg htag] at hoffsets hsizes
  refine ⟨⟨?_, ?_⟩, fun hC _ _ => ?_⟩
  · simp [add, htag, hoffsets]
  · simp [add, htag, hsizes]
  · rw [keys_add_member h.1 htag]
    exact hkeys hC

/-- An enumerator leaves the enumeration with one offset and one size. -/
lemma CompoundType.Ok.add_enumerator (h : t.Ok G C) (htag : t.type = .kEnum) (name : String)
    (offset size : UInt64) (type : QualifiedType) :
    ((t.add (.member name offset size type)).add .truncateEnum).Ok G C := by
  have hoffsets := h.1.offsets
  have hsizes := h.1.sizes
  rw [if_pos htag] at hoffsets hsizes
  refine ⟨⟨?_, ?_⟩, fun _ hne => absurd htag hne⟩
  · simp only [add, truncateEnum, htag, if_true, List.length_take, List.length_append, hoffsets,
      List.length_singleton]
    omega
  · simp only [add, truncateEnum, htag, if_true, List.length_take, List.length_append, hsizes,
      List.length_singleton]
    omega

end Lists

/-! ### One callback -/

section Callback

variable {G : DIGraph ι} {C : Prop} {s : DIEventState ι DITypeParser}

/-- The entry that the metadata asks for may be added to the record on top of the stack. -/
structure DIEventState.Ready (G : DIGraph ι) (C : Prop) (s : DIEventState ι DITypeParser) :
    Prop where
  member : s.current.isMember = true → ∃ c cs, s.events.compositeStack = c :: cs ∧
    ∀ type, (c.type.add (.ofMember type s.current)).Ok G C
  base : s.current.isBaseClass = true → s.events.compositeStack ≠ []

lemma ready_of_cleared (h : s.current = {}) : s.Ready G C :=
  ⟨fun hm => by simp [h] at hm, fun hb => by simp [h] at hb⟩

namespace DIEventState

lemma Ready.of_sameEntry (h : s.Ready G C) {s' : DIEventState ι DITypeParser}
    (hm : s.current.SameEntry s'.current)
    (hstack : s'.events.compositeStack = s.events.compositeStack) : s'.Ready G C := by
  constructor
  · intro hmember
    obtain ⟨c, cs, hcons, hadd⟩ := h.member (hm.isMember ▸ hmember)
    refine ⟨c, cs, hstack.trans hcons, fun type => ?_⟩
    rw [hm.ofMember_eq]
    exact hadd type
  · intro hbase
    rw [hstack]
    exact h.base (hm.isBaseClass ▸ hbase)

lemma Ready.setCurrent (h : s.Ready G C) {m : MetaData ι} (hm : s.current.SameEntry m) :
    Ready G C { s with current := m } := h.of_sameEntry hm rfl

namespace StacksOk

variable {P : CompoundType → Prop}

lemma setCurrent (h : s.StacksOk P) (m : MetaData ι) : StacksOk P { s with current := m } :=
  ⟨h.defined, h.eventsDefined, h.depths, h.records⟩

/-- An entry for the record on top of the stack. -/
lemma onTop (h : s.StacksOk P) {c : QualifiedCompound} {cs : List QualifiedCompound}
    (hstack : s.events.compositeStack = c :: cs) {f : CompoundType → CompoundType}
    {t : CompoundType} (hf : f c.type = t) (ht : t.Everywhere P) :
    StacksOk P { s with events := s.events.onTop f } := by
  have hrecords := h.records.compositeStack
  have hdepths := h.depths
  rw [hstack] at hrecords hdepths
  simp only [DITypeParser.onTop, hstack, hf]
  refine ⟨h.defined, h.eventsDefined, hdepths, h.records.result, fun c' hc' => ?_⟩
  rcases List.mem_cons.mp hc' with rfl | hc'
  · exact ht
  · exact hrecords c' (by simp [hc'])

lemma setResult (h : s.StacksOk P) {type : QualifiedType} (ht : type.Everywhere P) :
    StacksOk P { s with events := { s.events with result := type } } :=
  ⟨h.defined, h.eventsDefined, h.depths, ht, h.records.compositeStack⟩

lemma emplaceMember (h : s.StacksOk (CompoundType.Ok G C)) (hready : s.Ready G C)
    (hmember : s.current.isMember = true) {type : QualifiedType}
    (htype : type.Everywhere (CompoundType.Ok G C)) :
    StacksOk (CompoundType.Ok G C)
      { s with events := s.events.emplaceMember type s.current } := by
  obtain ⟨c, cs, hstack, hadd⟩ := hready.member hmember
  have htop := h.records.compositeStack c (by simp [hstack])
  refine h.onTop hstack (c.type.emplaceMember_eq_add type s.current)
    (htop.add ?_ (hadd type))
  simp only [Entry.ofMember]
  split <;> exact htype

lemma emplaceFundamental (h : s.StacksOk (CompoundType.Ok G C)) (hready : s.Ready G C)
    (name : String) (encoding : FundamentalType.Encoding) :
    StacksOk (CompoundType.Ok G C)
      { s with events := s.events.emplaceFundamental s.current name encoding } := by
  simp only [DITypeParser.emplaceFundamental]
  split
  · next hm => exact h.emplaceMember hready hm trivial
  · have htype : (QualifiedType.fundamental
        (makeQualifiedFundamental s.current name encoding)).Everywhere (CompoundType.Ok G C) := trivial
    exact h.setResult htype

lemma visitBasicType (h : s.StacksOk (CompoundType.Ok G C)) (hready : s.Ready G C)
    (b : DIBasicType) :
    StacksOk (CompoundType.Ok G C)
      (DIEventVisitor.visitBasicType DITypeParser.events b s) := by
  have hc := h.setCurrent { s.current with type := some (.basicType b) }
  have hr : Ready G C { s with current.type := some (.basicType b) } :=
    hready.setCurrent ⟨rfl, rfl, rfl, rfl, rfl, rfl⟩
  simp only [DIEventVisitor.visitBasicType]
  split
  · exact ⟨hc.defined, hc.eventsDefined, hc.depths, hc.records⟩
  · exact hc.emplaceFundamental hr _ _

lemma visitStringType (h : s.StacksOk (CompoundType.Ok G C)) (hready : s.Ready G C)
    (t : DIStringType) :
    StacksOk (CompoundType.Ok G C)
      (DIEventVisitor.visitStringType DITypeParser.events t s) := by
  have hr : Ready G C { s with current.type := some (.stringType t) } :=
    hready.setCurrent ⟨rfl, rfl, rfl, rfl, rfl, rfl⟩
  exact (h.setCurrent _).emplaceFundamental hr _ _

lemma visitSubroutineType (h : s.StacksOk (CompoundType.Ok G C)) (hready : s.Ready G C) :
    StacksOk (CompoundType.Ok G C)
      (DIEventVisitor.visitNode DITypeParser.events .subroutineType s) := by
  have hr : Ready G C { s with current.type := some .subroutineType } :=
    hready.setCurrent ⟨rfl, rfl, rfl, rfl, rfl, rfl⟩
  exact (h.setCurrent _).emplaceFundamental hr _ _

/-- A derived type fires an event only for `void*` and vtable pointers. -/
lemma visitDerivedType (h : s.StacksOk (CompoundType.Ok G C)) (d : DIDerivedType ι)
    (hready : (DIEventVisitor.isVoidPointer d || DIEventVisitor.isVtablePtr d) = true →
      Ready G C { s with current := s.current.visitDerived d }) :
    StacksOk (CompoundType.Ok G C)
      (DIEventVisitor.visitDerivedType DITypeParser.events d s) := by
  have hc := h.setCurrent (s.current.visitDerived d)
  simp only [DIEventVisitor.visitDerivedType]
  split
  · next hvoid =>
    have hr := (hready (by simp [hvoid])).setCurrent
      (m := { s.current.visitDerived d with type := some (.derivedType d), isVoidPtr := true })
      ⟨rfl, rfl, rfl, rfl, rfl, rfl⟩
    exact ((hc.setCurrent _).emplaceFundamental hr _ _).setCurrent {}
  · split
    · next hvtbl =>
      have hr := (hready (by simp [hvtbl])).setCurrent
        (m := { s.current.visitDerived d with type := some (.derivedType d) })
        ⟨rfl, rfl, rfl, rfl, rfl, rfl⟩
      exact ((hc.setCurrent _).emplaceFundamental hr _ _).setCurrent {}
    · exact hc

section Composite

variable [DecidableEq ι]

/-- Opening a composite pushes onto both stacks. -/
lemma visitCompositeType (h : s.StacksOk (CompoundType.Ok G C)) (n : ι) {c : DICompositeType ι}
    (htag : c.tag ≠ .arrayType) :
    StacksOk (CompoundType.Ok G C)
      (DIEventVisitor.visitCompositeType DITypeParser.events n c s) := by
  have hcompound : (makeCompound c).Everywhere (CompoundType.Ok G C) := by
    refine .intro _ (CompoundType.ok_makeCompound c) (fun b hb => ?_) fun m hm => ?_
    · simp [makeCompound] at hb
    · simp [makeCompound] at hm
  simp only [DIEventVisitor.visitCompositeType, if_neg htag, DITypeParser.events,
    DITypeParser.makeComposite, MetaData.visitRecord, DIEventVisitor.clearCurrent]
  refine ⟨h.defined, h.eventsDefined, by simp [h.depths], h.records.result, fun q hq => ?_⟩
  rcases List.mem_cons.mp hq with rfl | hq
  · exact hcompound
  · exact h.records.compositeStack q hq

omit [DecidableEq ι] in
/-- Leaving it pops both, and the finished record goes where the metadata that was put aside
says. -/
lemma leaveCompositeType (h : s.StacksOk (CompoundType.Ok G C)) {c : DICompositeType ι}
    (htag : c.tag ≠ .arrayType) {s₀ : DIEventState ι DITypeParser} (hready : s₀.Ready G C)
    {m : MetaData ι} (hm : s₀.current.SameEntry m) (hstack : s.stack = m :: s₀.stack)
    {q : QualifiedCompound} (hcompounds : s.events.compositeStack = q :: s₀.events.compositeStack) :
    StacksOk (CompoundType.Ok G C)
      (DIEventVisitor.leaveCompositeType DITypeParser.events c s) := by
  have hq := h.records.compositeStack q (by simp [hcompounds])
  have hcompound : (QualifiedType.compound q).Everywhere (CompoundType.Ok G C) := hq
  have hdepths := h.depths
  simp only [hstack, hcompounds, List.length_cons, Nat.add_right_cancel_iff] at hdepths
  -- the state after both pops
  have hpop : StacksOk (CompoundType.Ok G C)
      { s with
        current := m
        stack := s₀.stack
        enumData := {}
        events := { s.events with compositeStack := s₀.events.compositeStack } } :=
    ⟨h.defined, h.eventsDefined, hdepths, h.records.result,
      fun c' hc' => h.records.compositeStack c' (by simp [hcompounds, hc'])⟩
  have hreadyPop : Ready G C
      { s with
        current := m
        stack := s₀.stack
        enumData := {}
        events := { s.events with compositeStack := s₀.events.compositeStack } } := by
    have hr := hready.setCurrent hm
    exact ⟨hr.member, hr.base⟩
  simp only [DIEventVisitor.leaveCompositeType, if_neg htag, hstack, DITypeParser.events,
    DITypeParser.finalizeComposite, hcompounds]
  split
  · next hmember =>
    exact (hpop.emplaceMember hreadyPop hmember hcompound).setCurrent s.current
  · split
    · next hbase =>
      have hne := hreadyPop.base hbase
      obtain ⟨c', cs, hc'⟩ : ∃ c' cs, s₀.events.compositeStack = c' :: cs :=
        List.exists_cons_of_ne_nil hne
      have hmem : c' ∈ s₀.events.compositeStack := by simp [hc']
      have htop := hpop.records.compositeStack c' hmem
      have hadd := htop.add (e := .base (makeBase q m.memberOffset)) hq (htop.here.add_base _)
      exact (hpop.onTop hc' (f := fun t => t.emplaceBase (makeBase q m.memberOffset)) rfl
        hadd).setCurrent s.current
    · exact (hpop.setResult hcompound).setCurrent s.current

end Composite

/-- An enumerator becomes a member of the enumeration on top of the stack. -/
lemma visitEnumerator (h : s.StacksOk (CompoundType.Ok G C)) (name : String) {b : DIBasicType}
    (hb : s.enumData.enumBase = some b) (hstatic : s.current.isMemberStatic = false)
    {q : QualifiedCompound} {cs : List QualifiedCompound}
    (hstack : s.events.compositeStack = q :: cs) (htag : q.type.type = .kEnum) :
    StacksOk (CompoundType.Ok G C)
      (DIEventVisitor.visitNode DITypeParser.events (.enumerator name) s) := by
  have htop := h.records.compositeStack q (by simp [hstack])
  set m : MetaData ι := s.current.visitEnumerator name b with hm
  have hstatic : m.isMemberStatic = false := hstatic
  set type : QualifiedType :=
    .fundamental (makeQualifiedFundamental m b.name (dwarf2encoding b.encoding)) with htype
  have hok := htop.here.add_enumerator htag m.memberName m.memberOffset m.memberSize type
  have hmember : Entry.ofMember type m = .member m.memberName m.memberOffset m.memberSize type := by
    rw [Entry.ofMember, hstatic]
    rfl
  -- the record has two offsets between the two steps of the event, so both are taken at once
  have hboth : ((q.type.add (.member m.memberName m.memberOffset m.memberSize type)).add
      .truncateEnum).Everywhere (CompoundType.Ok G C) := by
    obtain ⟨t, ht, hbases, hmembers⟩ := htop
    refine .intro _ hok hbases fun x hx q' hq' => ?_
    simp only [CompoundType.add, CompoundType.truncateEnum, List.mem_append,
      List.mem_singleton] at hx
    rcases hx with (hx | rfl) | hx
    · exact hmembers x (by simp [hx]) q' hq'
    · cases hq'
    · exact hmembers x (by simp [hx]) q' hq'
  have hstep := (h.setCurrent m).onTop hstack
    (f := fun t => (t.emplaceMember type m).truncateEnum)
    (by rw [CompoundType.emplaceMember_eq_add, hmember]; rfl) hboth
  simp only [DIEventVisitor.visitNode, hb]
  have hevent : s.events.makeEnumMember m =
      s.events.onTop fun t => (t.emplaceMember type m).truncateEnum := by
    simp only [DITypeParser.makeEnumMember, DITypeParser.withBasic, hm, MetaData.visitEnumerator,
      DITypeParser.emplaceFundamental, if_true, DITypeParser.emplaceMember, DITypeParser.onTop,
      hstack]
    rfl
  simp only [DITypeParser.events, ← hm, hevent]
  exact hstep

end StacksOk

end DIEventState

end Callback

end Dimeta
