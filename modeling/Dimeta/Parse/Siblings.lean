import Dimeta.Parse.Complete

/-!
# Siblings

How far the parse of an element depends on the elements before it. Every chain that ends in an
event clears the metadata, but the enumerators of an enumeration write into it once more: what is
left is a member flag with the name, offset and size of an enumerator. A member overwrites all of
them, a base class does not.
-/

set_option autoImplicit false

namespace Dimeta

variable {ι : Type}

/-! ### Metadata and states that make the same entries -/

/-- The metadata agree in everything that an entry is made of: the type is set before every event,
and the name and size of a member matter for members only. -/
def MetaData.Alike (m m' : MetaData ι) : Prop :=
  ∃ type name size, m' = { m with type := type, memberName := name, memberSize := size } ∧
    (m.isMember = true → name = m.memberName ∧ size = m.memberSize)

namespace MetaData.Alike

variable {m m' : MetaData ι}

lemma refl (m : MetaData ι) : Alike m m := ⟨m.type, m.memberName, m.memberSize, rfl, by simp⟩

lemma isMember_eq (h : Alike m m') : m'.isMember = m.isMember := by
  obtain ⟨_, _, _, rfl, _⟩ := h
  rfl

/-- Once the type is set, alike members are the same. -/
lemma eq_of_isMember (h : Alike m m') (hm : m.isMember = true) (type : Option (DINode ι)) :
    { m' with type := type } = { m with type := type } := by
  obtain ⟨t, name, size, rfl, hmember⟩ := h
  obtain ⟨rfl, rfl⟩ := hmember hm
  rfl

lemma with_type (h : Alike m m') (t t' : Option (DINode ι)) :
    Alike { m with type := t } { m' with type := t' } := by
  obtain ⟨_, name, size, rfl, hmember⟩ := h
  exact ⟨t', name, size, rfl, hmember⟩

lemma visitDerived (h : Alike m m') (d : DIDerivedType ι) :
    Alike (m.visitDerived d) (m'.visitDerived d) := by
  obtain ⟨t, name, size, rfl, hmember⟩ := h
  simp only [MetaData.visitDerived]
  split
  · exact ⟨t, d.name, d.sizeInBits / 8, rfl, fun _ => ⟨rfl, rfl⟩⟩
  · split
    · exact ⟨t, d.name, d.sizeInBits / 8, rfl, fun _ => ⟨rfl, rfl⟩⟩
    · exact ⟨t, name, size, rfl, hmember⟩
  all_goals exact ⟨t, name, size, rfl, hmember⟩

lemma visitArray (h : Alike m m') (c : DICompositeType ι) :
    Alike (m.visitArray c) (m'.visitArray c) := by
  obtain ⟨t, name, size, rfl, hmember⟩ := h
  exact ⟨t, name, size, rfl, hmember⟩

lemma visitSubrange (h : Alike m m') (count : ℤ) :
    Alike (m.visitSubrange count) (m'.visitSubrange count) := by
  obtain ⟨t, name, size, rfl, hmember⟩ := h
  exact ⟨t, name, size, rfl, hmember⟩

lemma arrays_eq (h : Alike m m') : m'.arrays = m.arrays := by
  obtain ⟨_, _, _, rfl, _⟩ := h
  rfl

lemma visitEnumerator (h : Alike m m') (name : String) (b : DIBasicType) :
    m'.visitEnumerator name b = m.visitEnumerator name b := by
  obtain ⟨_, _, _, rfl, _⟩ := h
  rfl

lemma makeQualType (h : Alike m m') {T : Type} (type : T) :
    Dimeta.makeQualType type m' = Dimeta.makeQualType type m := by
  obtain ⟨_, _, _, rfl, _⟩ := h
  rfl

lemma visitRecord [DecidableEq ι] (h : Alike m m') (n : ι) (c c' : DICompositeType ι)
    (hholder : c'.vtableHolder = c.vtableHolder) (hflags : c'.flags = c.flags) :
    Alike (m.visitRecord n c) (m'.visitRecord n c') := by
  obtain ⟨t, name, size, rfl, hmember⟩ := h
  refine ⟨some (.compositeType c'), name, size, ?_, hmember⟩
  simp [MetaData.visitRecord, hholder, DICompositeType.isForwardDecl, hflags]

end MetaData.Alike

/-- Two states that go on to make the same entries, from `es` and `es'` on. -/
structure Parse.Agrees (es es' : List Entry) (p p' : Parse ι) : Prop where
  current : p.current.Alike p'.current
  isEnum : p'.enumData.isEnum = p.enumData.isEnum
  entries : ∃ l, p.entries = es ++ l ∧ p'.entries = es' ++ l

namespace Parse.Agrees

variable {es es' : List Entry} {p p' : Parse ι}

lemma set_current (h : Agrees es es' p p') {m m' : MetaData ι} (hm : m.Alike m') :
    Agrees es es' { p with current := m } { p' with current := m' } :=
  ⟨hm, h.isEnum, h.entries⟩

/-- An entry in both. -/
lemma append (h : Agrees es es' p p') (e : Entry) :
    Agrees es es' { p with entries := p.entries ++ [e] } { p' with entries := p'.entries ++ [e] } := by
  obtain ⟨l, hl, hl'⟩ := h.entries
  exact ⟨h.current, h.isEnum, l ++ [e], by simp [hl], by simp [hl']⟩

/-- An event whose metadata is the same if it is about a member. -/
lemma emitFundamental (h : Agrees es es' p p') (hm : p.current.isMember = true →
    p'.current = p.current) (name : String) (encoding : FundamentalType.Encoding) :
    Agrees es es' (p.emitFundamental name encoding) (p'.emitFundamental name encoding) := by
  simp only [Parse.emitFundamental, Parse.emit, h.current.isMember_eq]
  cases hmember : p.current.isMember with
  | true =>
    rw [if_pos rfl, if_pos rfl, hm hmember]
    exact ⟨.refl _, h.isEnum, (h.append _).entries⟩
  | false => exact ⟨h.current, h.isEnum, h.entries⟩

lemma clearCurrent (h : Agrees es es' p p') : Agrees es es' p.clearCurrent p'.clearCurrent :=
  h.set_current (.refl _)

lemma event (h : Agrees es es' p p') (type : Option (DINode ι)) (name : String)
    (encoding : FundamentalType.Encoding) :
    Agrees es es' (({ p with current.type := type }).emitFundamental name encoding).clearCurrent
      (({ p' with current.type := type }).emitFundamental name encoding).clearCurrent :=
  ((h.set_current (h.current.with_type type type)).emitFundamental
    (fun hm => h.current.eq_of_isMember hm type) name encoding).clearCurrent

lemma basic (h : Agrees es es' p p') (b : DIBasicType) : Agrees es es' (p.basic b) (p'.basic b) := by
  simp only [Parse.basic, h.isEnum]
  split
  · exact ⟨.refl _, rfl, h.entries⟩
  · exact h.event _ _ _

/-- Derived types whose metadata is alike after the visit. -/
lemma derived {d : DIDerivedType ι}
    (h : Agrees es es' { p with current := p.current.visitDerived d }
      { p' with current := p'.current.visitDerived d }) :
    Agrees es es' (p.derived d) (p'.derived d) := by
  simp only [Parse.derived]
  split
  · obtain ⟨t, name, size, hm, hmember⟩ := h.current
    simp only at hm
    have hvoid : Agrees es es'
        { p with current := { p.current.visitDerived d with isVoidPtr := true } }
        { p' with current := { p'.current.visitDerived d with isVoidPtr := true } } :=
      h.set_current ⟨t, name, size, by rw [hm], hmember⟩
    exact hvoid.event _ _ _
  · split
    · exact h.event _ _ _
    · exact h

lemma subrange (h : Agrees es es' p p') (count : Option ℤ) :
    Agrees es es' (p.node (.subrange count)) (p'.node (.subrange count)) := by
  cases count with
  | none => exact h
  | some count =>
    simp only [Parse.node, h.current.arrays_eq]
    split
    · exact h
    · exact h.set_current (h.current.visitSubrange count)

lemma enumerator (h : Agrees es es' p p') (name : String) {b : DIBasicType}
    (hb : p.enumData.enumBase = some b) (hb' : p'.enumData.enumBase = some b) :
    Agrees es es' (p.node (.enumerator name)) (p'.node (.enumerator name)) := by
  have hset := h.set_current (MetaData.Alike.refl (p.current.visitEnumerator name b))
  simp only [Parse.node, hb, hb', h.current.visitEnumerator]
  exact (hset.emitFundamental (fun _ => rfl) _ _).append _

lemma subroutineType (h : Agrees es es' p p') :
    Agrees es es' (p.node .subroutineType) (p'.node .subroutineType) := h.event _ _ _

lemma enter {c c' : DICompositeType ι} (hc : c'.tag = c.tag) :
    Agrees [] [] (p.enter c) (p'.enter c') :=
  ⟨.refl _, by simp [Parse.enter, hc], [], rfl, rfl⟩

/-- Composites made of the same entries. -/
lemma leave (h : Agrees es es' p p') {m m' : MetaData ι} (hm : m.Alike m')
    {c c' : DICompositeType ι} (hc : makeCompound c' = makeCompound c) {inner inner' : Parse ι}
    (hinner : Agrees [] [] inner inner') :
    Agrees es es' (p.leave m c inner) (p'.leave m' c' inner') := by
  obtain ⟨l, hl, hl'⟩ := h.entries
  obtain ⟨li, hli, hli'⟩ := hinner.entries
  have hentries : inner'.entries = inner.entries := by rw [hli, hli']
  simp only [Parse.leave, hm.makeQualType, hc, hentries, hm.isMember_eq]
  cases hmember : m.isMember with
  | true =>
    have hof : ∀ t, Entry.ofMember t m' = Entry.ofMember t m := by
      intro t
      obtain ⟨_, name, size, rfl, hsame⟩ := hm
      obtain ⟨rfl, rfl⟩ := hsame hmember
      rfl
    simp only [if_true, hof]
    exact ⟨hinner.current, rfl, l ++ [_], by rw [hl, List.append_assoc], by
      rw [hl', List.append_assoc]⟩
  | false =>
    obtain ⟨_, name, size, rfl, _⟩ := hm
    simp only [Bool.false_eq_true, if_false]
    split
    · exact ⟨hinner.current, rfl, l ++ [_], by rw [hl, List.append_assoc], by
        rw [hl', List.append_assoc]⟩
    · exact ⟨hinner.current, rfl, l, hl, hl'⟩

end Parse.Agrees

/-! ### Walks that differ in the elements of an open record -/

mutual
/-- The walk after the elements of `m`, which is open, were replaced: they are not visited again. -/
def Walk.recast [DecidableEq ι] (m : ι) (elements : List ι) : Walk ι → Walk ι
  | .null => .null
  | .basic n b => .basic n b
  | .string n t => .string n t
  | .node n x => .node n x
  | .var n type => .var n (type.recast m elements)
  | .derived n d base => .derived n d (base.recast m elements)
  | .array n c ws base => .array n c (recastElements m elements ws) (base.recast m elements)
  | .composite n c base ws =>
    .composite n c (base.recast m elements) (recastElements m elements ws)
  | .recurring n c => .recurring n (if n = m then { c with elements } else c)
  | .skip n => .skip n

def recastElements [DecidableEq ι] (m : ι) (elements : List ι) : List (Walk ι) → List (Walk ι)
  | []      => []
  | w :: ws => w.recast m elements :: recastElements m elements ws
end

section Recast

variable [DecidableEq ι] (m : ι) (elements : List ι)

lemma recastElements_eq_map (ws : List (Walk ι)) :
    recastElements m elements ws = ws.map (Walk.recast m elements) := by
  induction ws with
  | nil => rfl
  | cons w ws ih => rw [recastElements, ih, List.map_cons]

lemma recast_of_endsBasic (w : Walk ι) (hw : w.EndsBasic) : w.recast m elements = w := by
  match w with
  | .basic n b => rfl
  | .null | .string _ _ | .node _ _ | .recurring _ _ | .skip _ | .var _ _ | .array _ _ _ _
  | .composite _ _ _ _ => exact hw.elim
  | .derived n d base => rw [Walk.recast, recast_of_endsBasic base hw]

lemma recastElements_of_nodes {ws : List (Walk ι)} (h : ∀ w ∈ ws, ∃ n x, w = .node n x) :
    recastElements m elements ws = ws := by
  induction ws with
  | nil => rfl
  | cons w ws ih =>
    obtain ⟨n, x, rfl⟩ := h w (by simp)
    rw [recastElements, ih fun w hw => h w (by simp [hw]), Walk.recast]

lemma returns_recast (w : Walk ι) : (w.recast m elements).returns = w.returns := by
  cases w with
  | null | basic _ _ | string _ _ | node _ _ | recurring _ _ | skip _ => rfl
  | var n type => exact returns_recast type
  | derived n d base => exact returns_recast base
  | array n c ws base => exact returns_recast base
  | composite n c base ws => exact returns_recast base

/-- The basic type that the chain of an enumeration ends in. -/
lemma exists_enumBase_of_endsBasic (w : Walk ι) (hw : w.EndsBasic) :
    ∃ b, ∀ p : Parse ι, p.enumData.isEnum = true → (parse w p).enumData.enumBase = some b := by
  match w with
  | .basic n b => exact ⟨b, fun p hp => by rw [parse, Parse.enumBase_basic b hp]⟩
  | .null | .string _ _ | .node _ _ | .recurring _ _ | .skip _ | .var _ _ | .array _ _ _ _
  | .composite _ _ _ _ => exact hw.elim
  | .derived n d base =>
    obtain ⟨b, hb⟩ := exists_enumBase_of_endsBasic base hw
    exact ⟨b, fun p hp => hb _ (by rw [Parse.isEnum_derived, hp])⟩

variable {es es' : List Entry} {p p' : Parse ι}

lemma agrees_subranges {ws : List (Walk ι)} (hws : AllSubranges ws) (h : p.Agrees es es' p') :
    (parseElements ws p).Agrees es es' (parseElements ws p') := by
  induction ws generalizing p p' with
  | nil => exact h
  | cons w ws ih =>
    obtain ⟨n, count, rfl⟩ := hws w (by simp)
    exact ih (fun w hw => hws w (by simp [hw])) (h.subrange count)

lemma agrees_enumerators {ws : List (Walk ι)} (hws : AllEnumerators ws) (h : p.Agrees es es' p')
    {b : DIBasicType} (hb : p.enumData.enumBase = some b) (hb' : p'.enumData.enumBase = some b) :
    (parseElements ws p).Agrees es es' (parseElements ws p') := by
  induction ws generalizing p p' with
  | nil => exact h
  | cons w ws ih =>
    obtain ⟨n, name, rfl⟩ := hws w (by simp)
    exact ih (fun w hw => hws w (by simp [hw])) (h.enumerator name hb hb')
      (by rw [parse, Parse.enumData_node, hb]) (by rw [parse, Parse.enumData_node, hb'])

mutual
/-- States that make the same entries do so after a walk as well. -/
lemma agrees_parse {G : DIGraph ι} (w : Walk ι) (hw : w.TypeOk G ∨ w.ElementOk G)
    {es es' : List Entry} {p p' : Parse ι} (h : p.Agrees es es' p') :
    (parse w p).Agrees es es' (parse (w.recast m elements) p') := by
  match w with
  | .null => exact h
  | .basic n b => exact h.basic b
  | .string n t => exact h.event _ _ _
  | .node n x =>
    rcases hw with hw | hw
    · obtain rfl : x = .subroutineType := hw
      exact h.subroutineType
    · cases hw
  | .var n type => rcases hw with hw | hw <;> cases hw
  | .derived n d base =>
    have hbase : base.TypeOk G := hw.elim And.right And.right
    exact agrees_parse base (.inl hbase)
      (Parse.Agrees.derived (h.set_current (h.current.visitDerived d)))
  | .array n c ws base =>
    obtain ⟨hsub, hbase⟩ : AllSubranges ws ∧ base.TypeOk G := hw.resolve_right id
    have hnodes : ∀ w ∈ ws, ∃ n x, w = .node n x := by
      intro w hw
      obtain ⟨n, count, rfl⟩ := hsub w hw
      exact ⟨n, _, rfl⟩
    simp only [Walk.recast, parse, recastElements_of_nodes m elements hnodes]
    exact agrees_parse base (.inl hbase)
      (agrees_subranges hsub (h.set_current (h.current.visitArray c)))
  | .composite n c base ws =>
    obtain ⟨hbase, hws⟩ := hw.resolve_right id
    have henter : Parse.Agrees [] [] (p.enter c) (p'.enter c) := .enter rfl
    have hinner := agrees_parse base (.inl hbase) henter
    simp only [Walk.recast, parse, returns_recast, base.returns_of_typeOk hbase, if_true]
    refine h.leave (h.current.visitRecord n c c rfl rfl) rfl ?_
    split_ifs at hws with henum
    · obtain ⟨hall, hends⟩ := hws
      have hnodes : ∀ w ∈ ws, ∃ n x, w = .node n x := by
        intro w hw
        obtain ⟨n, name, rfl⟩ := hall w hw
        exact ⟨n, _, rfl⟩
      rw [recastElements_of_nodes m elements hnodes]
      rcases hends with rfl | hends
      · exact hinner
      · -- the base type of the enumerators is that of the enumeration, whatever was there before
        obtain ⟨b, hb⟩ := exists_enumBase_of_endsBasic base hends
        refine agrees_enumerators hall hinner (hb _ (by simp [Parse.enter, henum])) ?_
        rw [recast_of_endsBasic m elements base hends]
        exact hb _ (by simp [Parse.enter, henum])
    · exact agrees_parseElements ws hws.1 hinner
  | .recurring n c =>
    have hc : ∀ c', makeCompound (if n = m then { c with elements := c' } else c) =
        makeCompound c := by
      intro c'
      split <;> rfl
    refine h.leave ?_ (hc elements) (Parse.Agrees.enter ?_)
    · obtain ⟨t, name, size, hm, hmember⟩ := h.current
      have hrecurring : MetaData.Alike { p.current with isRecurring := true }
          { p'.current with isRecurring := true } := ⟨t, name, size, by rw [hm], hmember⟩
      exact hrecurring.visitRecord n c _ (by split <;> rfl) (by split <;> rfl)
    · split <;> rfl
  | .skip n => exact h

lemma agrees_parseElements {G : DIGraph ι} (ws : List (Walk ι)) (hws : ElementsOk G ws)
    {es es' : List Entry} {p p' : Parse ι} (h : p.Agrees es es' p') :
    (parseElements ws p).Agrees es es' (parseElements (recastElements m elements ws) p') := by
  match ws with
  | [] => exact h
  | w :: ws => exact agrees_parseElements ws hws.2 (agrees_parse w (.inr hws.1) h)
end

end Recast

/-! ### What is left of a sibling -/

/-- Metadata with nothing but what an enumerator writes. -/
def MetaData.Residue (m : MetaData ι) : Prop :=
  ∃ type name offset size flag, m =
    { type := type, memberName := name, memberOffset := offset, memberSize := size,
      isMember := flag }

lemma MetaData.residue_default : ({} : MetaData ι).Residue := ⟨none, "", 0, 0, false, rfl⟩

lemma MetaData.Residue.visitEnumerator {m : MetaData ι} (h : m.Residue) (name : String)
    (b : DIBasicType) : (m.visitEnumerator name b).Residue := by
  obtain ⟨_, _, _, _, _, rfl⟩ := h
  exact ⟨_, name, 0, b.sizeInBits / 8, true, rfl⟩

mutual
/-- Every chain ends in a type, or in a pointer without one; records have no base type. -/
def Walk.Closed : Walk ι → Prop
  | .null => False
  | .derived _ d base => DIEventVisitor.isVoidPointer d = true ∧ base = .null ∨ base.Closed
  | .array _ _ _ base => base.Closed
  | .composite _ c base elements =>
    (base = .null ∨ c.tag = .enumerationType ∧ base.Closed) ∧ ClosedElements elements
  | _ => True

def ClosedElements : List (Walk ι) → Prop
  | []      => True
  | w :: ws => w.Closed ∧ ClosedElements ws
end

lemma Walk.reachesEvent_of_closed {G : DIGraph ι} (w : Walk ι) (hw : w.TypeOk G)
    (hclosed : w.Closed) : w.reachesEvent = true := by
  match w with
  | .null => cases hclosed
  | .basic _ _ | .string _ _ | .composite _ _ _ _ | .recurring _ _ => rfl
  | .node n x =>
    obtain rfl : x = .subroutineType := hw
    rfl
  | .var _ _ | .skip _ => exact hw.elim
  | .derived n d base =>
    rcases hclosed with ⟨hvoid, -⟩ | hclosed
    · simp [reachesEvent, hvoid]
    · simp [reachesEvent, base.reachesEvent_of_closed hw.2 hclosed]
  | .array n c elements base =>
    have hevent := base.reachesEvent_of_closed hw.2 hclosed
    exact hevent

section Residue

variable [DecidableEq ι]

lemma residue_enumerators {ws : List (Walk ι)} (hws : AllEnumerators ws) {p : Parse ι}
    (h : p.current.Residue) : (parseElements ws p).current.Residue := by
  induction ws generalizing p with
  | nil => exact h
  | cons w ws ih =>
    obtain ⟨n, name, rfl⟩ := hws w (by simp)
    refine ih (fun w hw => hws w (by simp [hw])) ?_
    simp only [parse, Parse.node]
    cases p.enumData.enumBase with
    | none => exact h
    | some b => simpa using h.visitEnumerator name b

mutual
/-- After a closed type only an enumerator can be left in the metadata. -/
lemma residue_parse {G : DIGraph ι} (w : Walk ι) (hw : w.TypeOk G) (hclosed : w.Closed)
    (p : Parse ι) : (parse w p).current.Residue := by
  match w with
  | .null => cases hclosed
  | .basic n b => exact MetaData.residue_default
  | .string n t => exact MetaData.residue_default
  | .node n x =>
    obtain rfl : x = .subroutineType := hw
    exact MetaData.residue_default
  | .var _ _ | .skip _ => cases hw
  | .derived n d base =>
    rcases hclosed with ⟨hvoid, rfl⟩ | hclosed
    · rw [parse, parse, Parse.derived, if_pos hvoid]
      exact MetaData.residue_default
    · exact residue_parse base hw.2 hclosed _
  | .array n c elements base => exact residue_parse base hw.2 hclosed _
  | .composite n c base elements =>
    obtain ⟨hbase, helements⟩ := hw
    obtain ⟨hclosed, hclosedElements⟩ := hclosed
    have hinner : (parse base (p.enter c)).current.Residue := by
      rcases hclosed with rfl | ⟨-, hclosed⟩
      · exact MetaData.residue_default
      · exact residue_parse base hbase hclosed _
    simp only [parse, Parse.current_leave, base.returns_of_typeOk hbase, if_true]
    split_ifs at helements with henum
    · exact residue_enumerators helements.1 hinner
    · exact residue_parseElements elements helements.1 hclosedElements hinner
  | .recurring n c =>
    rw [parse, Parse.current_leave]
    exact MetaData.residue_default

lemma residue_parseElements {G : DIGraph ι} (ws : List (Walk ι)) (hws : ElementsOk G ws)
    (hclosed : ClosedElements ws) {p : Parse ι} (h : p.current.Residue) :
    (parseElements ws p).current.Residue := by
  match ws with
  | [] => exact h
  | .null :: _ | .basic _ _ :: _ | .string _ _ :: _ | .node _ _ :: _ | .recurring _ _ :: _
  | .var _ _ :: _ | .array _ _ _ _ :: _ | .composite _ _ _ _ :: _ => exact hws.1.elim
  | .skip n :: ws => exact residue_parseElements ws hws.2 hclosed.2 h
  | .derived n d base :: ws =>
    refine residue_parseElements ws hws.2 hclosed.2 ?_
    rcases hclosed.1 with ⟨hvoid, rfl⟩ | hbase
    · rw [parse, parse, Parse.derived, if_pos hvoid]
      exact MetaData.residue_default
    · exact residue_parse base hws.1.2 hbase _
end

/-- An element after such metadata is parsed as after cleared metadata, unless it is a base class
and the member flag is left. -/
lemma agrees_element {G : DIGraph ι} {w : Walk ι} (hw : w.ElementOk G) {es es' : List Entry}
    {p p' : Parse ι} (hp : p.current.Residue) (hp' : p'.current.Residue)
    (hmember : (w.asDerived.all fun d => d.isMemberNode) = true ∨
      p.current.isMember = false ∧ p'.current.isMember = false)
    (henum : p'.enumData.isEnum = p.enumData.isEnum)
    (hentries : ∃ l, p.entries = es ++ l ∧ p'.entries = es' ++ l) (m : ι) (elements : List ι) :
    ∃ l, (parse w p).entries = es ++ l ∧ (parse (w.recast m elements) p').entries = es' ++ l := by
  obtain ⟨t, name, offset, size, flag, hcurrent⟩ := hp
  obtain ⟨t', name', offset', size', flag', hcurrent'⟩ := hp'
  match w with
  | .null | .basic _ _ | .string _ _ | .node _ _ | .recurring _ _ | .var _ _ | .array _ _ _ _
  | .composite _ _ _ _ => exact hw.elim
  | .skip n => exact hentries
  | .derived n d base =>
    obtain ⟨hd, hbase⟩ := hw
    have hvisit : (p.current.visitDerived d).Alike (p'.current.visitDerived d) := by
      rw [hcurrent, hcurrent']
      cases hnode : d.isMemberNode with
      | true =>
        rw [MetaData.visitDerived_of_isMemberNode hnode, MetaData.visitDerived_of_isMemberNode hnode]
        exact ⟨t', d.name, d.sizeInBits / 8, rfl, fun _ => ⟨rfl, rfl⟩⟩
      | false =>
        obtain ⟨hflag, hflag'⟩ := hmember.resolve_left (by simp [Walk.asDerived, hnode])
        rw [hcurrent] at hflag
        rw [hcurrent'] at hflag'
        obtain rfl : flag = false := hflag
        obtain rfl : flag' = false := hflag'
        have htag := DIDerivedType.tag_of_isElement hd hnode
        refine ⟨t', name', size', ?_, ?_⟩ <;> simp [MetaData.visitDerived, htag]
    have hagrees : Parse.Agrees es es' { p with current := p.current.visitDerived d }
        { p' with current := p'.current.visitDerived d } := ⟨hvisit, henum, hentries⟩
    exact (agrees_parse m elements base (.inl hbase) hagrees.derived).entries

end Residue

end Dimeta
