import Dimeta.Parse.Pending
import Dimeta.Parse.StackRuns

/-!
# What a parse denotes

The parser carries one record of metadata through the whole visit. For complete walks of closed
graphs it is as if there were none: the type of a walk is a function of the walk and of what was
collected on the chain down to it, and each element of a record starts from nothing.
-/

set_option autoImplicit false

namespace Dimeta

variable {ι : Type}

/-! ### The type of a walk -/

/-- The basic type at the end of the chain of an enumeration. -/
def Walk.enumBase : Walk ι → Option DIBasicType
  | .basic _ b        => some b
  | .derived _ _ base => base.enumBase
  | _                 => none

/-- An enumerator is a member of the type of the enumeration, which counts once. -/
def enumeratorEntries (b : DIBasicType) : Walk ι → List Entry
  | .node _ (.enumerator name) =>
    let m := ({} : MetaData ι).visitEnumerator name b
    [.ofMember (.fundamental (makeQualifiedFundamental m b.name (dwarf2encoding b.encoding))) m,
      .truncateEnum]
  | _ => []

/-- The entry of an element of type `t`; base classes have a record. -/
def Walk.entryOf (w : Walk ι) (t : QualifiedType) : Option Entry :=
  match w, t with
  | .derived _ d _, .compound q =>
    some (if d.isMemberNode then .ofElement d t else .base (makeBase q (d.offsetInBits / 8)))
  | .derived _ d _, .fundamental _ => if d.isMemberNode then some (.ofElement d t) else none
  | _, _ => none

/-- The fundamental type of a node that an event is about. -/
def MetaData.fundamental (m : MetaData ι) (x : DINode ι) (name : String)
    (encoding : FundamentalType.Encoding) : QualifiedType :=
  .fundamental (makeQualifiedFundamental { m with type := some x } name encoding)

/-- The type that a derived type reports itself, if it does. -/
def DIDerivedType.event (d : DIDerivedType ι) (m : MetaData ι) : Option QualifiedType :=
  if DIEventVisitor.isVoidPointer d then
    some ({ m with isVoidPtr := true }.fundamental (.derivedType d) "void" .kVoid)
  else if DIEventVisitor.isVtablePtr d then
    some (m.fundamental (.derivedType d) d.name .kVtablePtr)
  else none

section Translate

variable [DecidableEq ι]

mutual
/-- The type of a walk, where `m` was collected on the chain down to it. -/
def Walk.translate : Walk ι → MetaData ι → QualifiedType
  | .null, _ | .skip _, _ => default
  | .basic _ b, m => m.fundamental (.basicType b) b.name
      (if "nullptr".toList <:+: b.name.toList then .kNullptr else dwarf2encoding b.encoding)
  | .string _ t, m => m.fundamental (.stringType t)
      (if t.name.isEmpty then "character" else t.name) .kString
  | .node _ x, m => m.fundamental x "" .kFunctionPtr
  | .var _ type, m => type.translate m
  | .derived _ d base, m =>
    let m := m.visitDerived d
    -- a type that reports itself makes a member; elsewhere the event below replaces its own
    (d.event m).elim (base.translate m) fun t =>
      if m.isMember || !base.reachesEvent then t else base.translate {}
  | .array _ c elements base, m =>
    base.translate ((m.visitArray c).visitSubranges (elements.filterMap Walk.subrangeCount))
  | .composite n c base elements, m =>
    .compound { makeQualType (makeCompound c) (m.visitRecord n c) with
      type := (makeCompound c).addAll
        (if c.tag = .enumerationType then
          base.enumBase.elim [] fun b => elements.flatMap (enumeratorEntries b)
        else elementEntries elements) }
  | .recurring n c, m =>
    .compound (makeQualType (makeCompound c) ({ m with isRecurring := true }.visitRecord n c))

/-- The entries of the elements of a record. -/
def elementEntries : List (Walk ι) → List Entry
  | []      => []
  | w :: ws => (w.entryOf (w.translate {})).toList ++ elementEntries ws
end

end Translate

/-! ### Metadata that make the same type -/

namespace DIDerivedType

variable {d : DIDerivedType ι}

lemma event_isSome (h : (DIEventVisitor.isVoidPointer d || DIEventVisitor.isVtablePtr d) = true)
    (m : MetaData ι) : ∃ t, d.event m = some t := by
  simp only [event]
  split_ifs with hvoid hvtbl
  · exact ⟨_, rfl⟩
  · exact ⟨_, rfl⟩
  · simp [hvoid, hvtbl] at h

lemma event_eq_none
    (h : (DIEventVisitor.isVoidPointer d || DIEventVisitor.isVtablePtr d) = false)
    (m : MetaData ι) : d.event m = none := by
  obtain ⟨hvoid, hvtbl⟩ := Bool.or_eq_false_iff.mp h
  simp [event, hvoid, hvtbl]

end DIDerivedType

namespace MetaData.Alike

variable {m m' : MetaData ι}

lemma fundamental (h : Alike m m') (hm : m.isMember = true) (x : DINode ι) (name : String)
    (encoding : FundamentalType.Encoding) :
    m'.fundamental x name encoding = m.fundamental x name encoding := by
  rw [MetaData.fundamental, h.eq_of_isMember hm, MetaData.fundamental]

/-- A derived type of a member reports the same type. -/
lemma event_eq (h : Alike m m') (hm : m.isMember = true) (d : DIDerivedType ι) :
    d.event m' = d.event m := by
  have hvoid : Alike { m with isVoidPtr := true } { m' with isVoidPtr := true } := by
    obtain ⟨t, name, size, hcurrent, hsame⟩ := h
    exact ⟨t, name, size, by rw [hcurrent], hsame⟩
  simp only [DIDerivedType.event, hvoid.fundamental hm, h.fundamental hm]

lemma visitSubranges (h : Alike m m') (counts : List (Option ℤ)) :
    Alike (m.visitSubranges counts) (m'.visitSubranges counts) := by
  induction counts generalizing m m' with
  | nil => exact h
  | cons count counts ih =>
    cases count with
    | none => exact ih h
    | some k => exact ih (h.visitSubrange k)

variable [DecidableEq ι]

/-- A derived type, after it was visited. -/
lemma translate_derived (n : ι) {d : DIDerivedType ι} {base : Walk ι}
    (h : Alike (m.visitDerived d) (m'.visitDerived d))
    (hm : (m.visitDerived d).isMember = true ∨ (Walk.derived n d base).reachesRecord = true)
    (hbase : ∀ m m' : MetaData ι, Alike m m' → m.isMember = true ∨ base.reachesRecord = true →
      base.translate m' = base.translate m) :
    (Walk.derived n d base).translate m' = (Walk.derived n d base).translate m := by
  simp only [Walk.translate]
  cases hclear : DIEventVisitor.isVoidPointer d || DIEventVisitor.isVtablePtr d with
  | true =>
    have hm := hm.resolve_right (by simp [Walk.reachesRecord, hclear])
    obtain ⟨t, ht⟩ := DIDerivedType.event_isSome hclear (m.visitDerived d)
    simp [h.event_eq hm, ht, h.isMember_eq, hm]
  | false =>
    rw [DIDerivedType.event_eq_none hclear, DIDerivedType.event_eq_none hclear]
    exact hbase _ _ h (hm.imp_right fun hrecord => by
      simpa [Walk.reachesRecord, hclear] using hrecord)

/-- The types of members and the records of base classes are made of no more. -/
lemma translate {G : DIGraph ι} {m m' : MetaData ι} (h : Alike m m') (w : Walk ι)
    (hw : w.TypeOk G) (hm : m.isMember = true ∨ w.reachesRecord = true) :
    w.translate m' = w.translate m := by
  match w with
  | .null => rfl
  | .var _ _ | .skip _ => exact hw.elim
  | .basic n b => exact h.fundamental (hm.resolve_right (by simp [Walk.reachesRecord])) _ _ _
  | .string n t => exact h.fundamental (hm.resolve_right (by simp [Walk.reachesRecord])) _ _ _
  | .node n x => exact h.fundamental (hm.resolve_right (by simp [Walk.reachesRecord])) _ _ _
  | .derived n d base =>
    have hmember := (visitDerived_of_not_isElement hw.1 m).isMember
    exact translate_derived n (h.visitDerived d) (hm.imp_left hmember.trans) fun _ _ h hm =>
      h.translate base hw.2 hm
  | .array n c elements base =>
    exact ((h.visitArray c).visitSubranges _).translate base hw.2 (hm.imp_left fun hm => by
      rw [visitSubranges_eq]
      exact hm)
  | .composite n c base elements =>
    simp only [Walk.translate, (h.visitRecord n c c rfl rfl).makeQualType]
  | .recurring n c =>
    obtain ⟨t, name, size, hcurrent, hsame⟩ := h
    have h : Alike { m with isRecurring := true } { m' with isRecurring := true } :=
      ⟨t, name, size, by rw [hcurrent], hsame⟩
    simp only [Walk.translate, (h.visitRecord n c c rfl rfl).makeQualType]

end MetaData.Alike

/-! ### Enumerations and arrays -/

section Elements

variable [DecidableEq ι]

/-- The subranges of an array leave their counts in its metadata. -/
lemma parseElements_eq_visitSubranges {ws : List (Walk ι)} (hws : AllSubranges ws) {p : Parse ι}
    (hp : p.current.arrays ≠ []) : parseElements ws p =
      { p with current := p.current.visitSubranges (ws.filterMap Walk.subrangeCount) } := by
  induction ws generalizing p with
  | nil => rfl
  | cons w ws ih =>
    obtain ⟨n, count, rfl⟩ := hws w (by simp)
    have hrest : AllSubranges ws := fun w hw => hws w (by simp [hw])
    cases count with
    | none => exact ih hrest hp
    | some k =>
      have hstep : p.node (.subrange (some k)) =
          { p with current := p.current.visitSubrange k } := by
        simp only [Parse.node, if_neg hp]
      have hne : (p.current.visitSubrange k).arrays ≠ [] := modifyBack_ne_nil hp
      rw [parseElements, parse, hstep, ih hrest hne]
      rfl

lemma enumBase_parse (w : Walk ι) (hw : w.EndsBasic) {p : Parse ι}
    (hp : p.enumData.isEnum = true) : (parse w p).enumData.enumBase = w.enumBase := by
  match w with
  | .basic n b => exact Parse.enumBase_basic b hp
  | .null | .string _ _ | .node _ _ | .recurring _ _ | .skip _ | .var _ _ | .array _ _ _ _
  | .composite _ _ _ _ => exact hw.elim
  | .derived n d base => exact enumBase_parse base hw (by rw [Parse.isEnum_derived, hp])

omit [DecidableEq ι] in
/-- An enumerator overwrites all that is left of the one before it. -/
lemma MetaData.Residue.visitEnumerator_eq {m : MetaData ι} (h : m.Residue) (name : String)
    (b : DIBasicType) : m.visitEnumerator name b = ({} : MetaData ι).visitEnumerator name b := by
  obtain ⟨_, _, _, _, _, rfl⟩ := h
  rfl

lemma entries_enumerators {ws : List (Walk ι)} (hws : AllEnumerators ws) {p : Parse ι}
    {b : DIBasicType} (hbase : p.enumData.enumBase = some b) (hp : p.current.Residue) :
    (parseElements ws p).entries = p.entries ++ ws.flatMap (enumeratorEntries b) := by
  induction ws generalizing p with
  | nil => simp [parseElements]
  | cons w ws ih =>
    obtain ⟨n, name, rfl⟩ := hws w (by simp)
    have hnode : (p.node (.enumerator name)).entries =
        p.entries ++ enumeratorEntries b (.node n (.enumerator name)) := by
      simp only [Parse.node, hbase, hp.visitEnumerator_eq]
      simp [Parse.emitFundamental, Parse.emit, enumeratorEntries, MetaData.visitEnumerator]
    have hresidue : (p.node (.enumerator name)).current.Residue := by
      simpa [Parse.node, hbase] using hp.visitEnumerator name b
    rw [parseElements, parse, ih (fun w hw => hws w (by simp [hw]))
      (by rw [Parse.enumData_node, hbase]) hresidue, hnode, List.flatMap_cons, List.append_assoc]

/-- Without a member or a base class to come, a walk adds nothing. -/
lemma entries_parse_of_free {G : DIGraph ι} (w : Walk ι) (hw : w.TypeOk G) {p : Parse ι}
    (hm : p.current.isMember = false) (hb : p.current.isBaseClass = false) :
    (parse w p).entries = p.entries := by
  match w with
  | .null => rfl
  | .var _ _ | .skip _ => exact hw.elim
  | .basic n b =>
    rw [parse, Parse.basic]
    split
    · rfl
    · exact ((emits_fundamental { p with current.type := some (.basicType b) } _ _).free hm hb).1
  | .string n t =>
    exact ((emits_fundamental { p with current.type := some (.stringType t) } _ _).free hm hb).1
  | .node n x =>
    obtain rfl : x = .subroutineType := hw
    exact ((emits_fundamental { p with current.type := some .subroutineType } _ _).free hm hb).1
  | .derived n d base =>
    have hsame := MetaData.visitDerived_of_not_isElement hw.1 p.current
    cases hclear : DIEventVisitor.isVoidPointer d || DIEventVisitor.isVtablePtr d with
    | true =>
      have hcurrent := Parse.current_derived_of_event hclear p
      obtain ⟨name, encoding, isVoidPtr, hderived⟩ := Parse.derived_of_event hclear p
      rw [parse, entries_parse_of_free base hw.2 (by rw [hcurrent]) (by rw [hcurrent]), hderived]
      simp [Parse.clearCurrent, Parse.emitFundamental, Parse.emit, hsame.isMember, hm]
    | false =>
      rw [parse, Parse.derived_of_collected hclear]
      exact entries_parse_of_free base hw.2 (hsame.isMember.trans hm) (hsame.isBaseClass.trans hb)
  | .array n c elements base =>
    obtain ⟨hentries, -, -, hsame⟩ := parseElements_of_allSubranges hw.1
      { p with current := p.current.visitArray c }
    rw [parse, entries_parse_of_free base hw.2 (hsame.isMember.trans hm)
      (hsame.isBaseClass.trans hb), hentries]
  | .composite n c base elements =>
    refine ((emits_leave p _ c ?_).free hm hb).1
    exact ⟨rfl, rfl, rfl, rfl, rfl, rfl⟩
  | .recurring n c =>
    refine ((emits_leave p _ c ?_).free hm hb).1
    exact ⟨rfl, rfl, rfl, rfl, rfl, rfl⟩

lemma entries_enumeration {G : DIGraph ι} {c : DICompositeType ι} {base : Walk ι}
    {elements : List (Walk ι)} {p : Parse ι} (htag : c.tag = .enumerationType)
    (hbase : base.TypeOk G)
    (helements : AllEnumerators elements ∧ (elements = [] ∨ base.EndsBasic)) :
    (parseElements elements (parse base (p.enter c))).entries =
      base.enumBase.elim [] fun b => elements.flatMap (enumeratorEntries b) := by
  have hkeep : (parse base (p.enter c)).entries = [] :=
    entries_parse_of_free base hbase rfl rfl
  rcases helements with ⟨hnames, rfl | hends⟩
  · rw [parseElements, hkeep]
    cases base.enumBase <;> rfl
  · have hisEnum : (p.enter c).enumData.isEnum = true := by simp [Parse.enter, htag]
    obtain ⟨b, hb⟩ := exists_enumBase_of_endsBasic base hends
    have hresidue : (parse base (p.enter c)).current.Residue := by
      rw [current_of_endsBasic base hends]
      exact MetaData.residue_default
    rw [entries_enumerators hnames (hb _ hisEnum) hresidue, hkeep,
      ← enumBase_parse base hends hisEnum, hb _ hisEnum]
    rfl

end Elements

/-! ### The parse follows the translation -/

section Denotes

/-- The parse of `w` went on from `p` to `p'` with one event, about this type. -/
structure Denotes (w : Walk ι) (p p' : Parse ι) (type : QualifiedType) : Prop where
  emits : Emits p p' type
  base : p.current.isMember = false → p.current.isBaseClass = true → w.reachesRecord = true →
    ∃ q, type = .compound q ∧
      p'.entries = p.entries ++ [.base (makeBase q p.current.memberOffset)]

/-- An event that is not about a record. -/
lemma Emits.denotes {w : Walk ι} {p p' : Parse ι} {type : QualifiedType} (h : Emits p p' type)
    (hrecord : w.reachesRecord = false) : Denotes w p p' type :=
  ⟨h, fun _ _ hw => by simp [hrecord] at hw⟩

/-- What is above a walk only collects. -/
lemma Denotes.of_sameEntry {w w' : Walk ι} {p q p' : Parse ι} {type : QualifiedType}
    (h : Denotes w q p' type) (hsame : p.current.SameEntry q.current)
    (hentries : q.entries = p.entries) (hrecord : w'.reachesRecord = w.reachesRecord) :
    Denotes w' p p' type where
  emits := h.emits.of_sameEntry hsame hentries
  base hm hb hw := by
    rw [← hentries, ← hsame.memberOffset]
    exact h.base (hsame.isMember.trans hm) (hsame.isBaseClass.trans hb) (hrecord ▸ hw)

/-- Leaving a record reports what was entered into it. -/
lemma denotes_leave (w : Walk ι) (p inner : Parse ι) (c : DICompositeType ι) {m : MetaData ι}
    (hm : p.current.SameEntry m) : Denotes w p (p.leave m c inner)
      (.compound { makeQualType (makeCompound c) m with
        type := (makeCompound c).addAll inner.entries }) where
  emits := emits_leave p inner c hm
  base hmember hbase _ := by
    refine ⟨_, rfl, ?_⟩
    rw [← hm.memberOffset]
    simp [Parse.leave, hm.isMember, hmember, hm.isBaseClass, hbase, makeQualType]

/-- The event of a leaf. -/
lemma emits_leaf_event (p : Parse ι) (x : DINode ι) (name : String)
    (encoding : FundamentalType.Encoding) :
    Emits p (Parse.emitFundamental name encoding { p with current.type := some x }).clearCurrent
      (p.current.fundamental x name encoding) :=
  (emits_fundamental { p with current.type := some x } name encoding).of_sameEntry
    ⟨rfl, rfl, rfl, rfl, rfl, rfl⟩ rfl

lemma emits_derived {p : Parse ι} {d : DIDerivedType ι} {t : QualifiedType}
    (h : d.event (p.current.visitDerived d) = some t) :
    Emits { p with current := p.current.visitDerived d } (p.derived d) t := by
  simp only [DIDerivedType.event] at h
  split_ifs at h with hvoid hvtbl
  · cases h
    simp only [Parse.derived, hvoid, if_true]
    exact (emits_leaf_event { p with current := { p.current.visitDerived d with
      isVoidPtr := true } } _ _ _).of_sameEntry ⟨rfl, rfl, rfl, rfl, rfl, rfl⟩ rfl
  · cases h
    simp only [Parse.derived, hvoid, hvtbl, if_true]
    exact emits_leaf_event { p with current := p.current.visitDerived d } _ _ _

variable [DecidableEq ι]

/-- A derived type, after it was visited: the event is its own, or that of its base type. -/
lemma denotes_derived {G : DIGraph ι} {n : ι} {d : DIDerivedType ι} {base : Walk ι} {p : Parse ι}
    (hbase : base.TypeOk G) (hclosed : (Walk.derived n d base).Closed)
    (henum : p.enumData.isEnum = false)
    (hdenotes : ∀ q : Parse ι, base.Closed → q.enumData.isEnum = false →
      Denotes base q (parse base q) (base.translate q.current)) :
    Denotes (.derived n d base) { p with current := p.current.visitDerived d }
      (parse (.derived n d base) p) ((Walk.derived n d base).translate p.current) := by
  rw [parse, Walk.translate]
  cases hclear : DIEventVisitor.isVoidPointer d || DIEventVisitor.isVtablePtr d with
  | true =>
    obtain ⟨t, ht⟩ := DIDerivedType.event_isSome hclear (p.current.visitDerived d)
    have hevent := emits_derived ht
    have hcurrent := Parse.current_derived_of_event hclear p
    have hkeep := entries_parse_of_free base hbase (p := p.derived d) (by rw [hcurrent])
      (by rw [hcurrent])
    refine Emits.denotes ?_ (by simp [Walk.reachesRecord, hclear])
    simp only [ht, Option.elim_some]
    constructor
    · intro hm
      have hm : (p.current.visitDerived d).isMember = true := hm
      rw [if_pos (by simp [hm]), hkeep]
      exact hevent.member hm
    · intro hm hb
      obtain ⟨hentries, hresult⟩ := hevent.free hm hb
      refine ⟨hkeep.trans hentries, ?_⟩
      rcases hclosed with ⟨-, rfl⟩ | hclosed
      · simpa [parse, Walk.reachesEvent] using hresult
      · -- the event of the base type finds cleared metadata
        have hfree := (hdenotes (p.derived d) hclosed (by rw [Parse.isEnum_derived, henum])).emits
        rw [hcurrent] at hfree
        have hm : (p.current.visitDerived d).isMember = false := hm
        rw [if_neg (by simp [hm, base.reachesEvent_of_closed hbase hclosed])]
        exact (hfree.free (by rw [hcurrent]) (by rw [hcurrent])).2
  | false =>
    have hclosed : base.Closed := hclosed.resolve_left fun h => by simp [h.1] at hclear
    rw [Parse.derived_of_collected hclear, DIDerivedType.event_eq_none hclear]
    exact (hdenotes { p with current := p.current.visitDerived d } hclosed henum).of_sameEntry
      (.refl _) rfl (by simp [Walk.reachesRecord, hclear])

/-- The entry of a complete element, after whatever was left of its siblings. -/
lemma entries_element {G : DIGraph ι} {n : ι} {d : DIDerivedType ι} {base : Walk ι} {p : Parse ι}
    (hw : (Walk.derived n d base).ElementOk G) (hp : p.current.Residue)
    (hcomplete : (Walk.derived n d base).elementComplete p.current.isMember = true)
    (h : Denotes (.derived n d base) { p with current := p.current.visitDerived d }
      (parse (.derived n d base) p) ((Walk.derived n d base).translate p.current)) :
    (parse (.derived n d base) p).entries = p.entries ++ ((Walk.derived n d base).entryOf
      ((Walk.derived n d base).translate {})).toList := by
  obtain ⟨hd, hbase⟩ := hw
  obtain ⟨t, name, offset, size, flag, hcurrent⟩ := hp
  cases hnode : d.isMemberNode with
  | true =>
    have hvisit := MetaData.visitDerived_of_isMemberNode hnode
    have halike : (({} : MetaData ι).visitDerived d).Alike (p.current.visitDerived d) := by
      rw [hvisit, hvisit, hcurrent]
      exact ⟨t, d.name, d.sizeInBits / 8, rfl, fun _ => ⟨rfl, rfl⟩⟩
    have htype := halike.translate_derived n (.inl (by rw [hvisit]; rfl)) fun _ _ h hm =>
      h.translate base hbase hm
    have hof : ∀ type, Entry.ofMember type (p.current.visitDerived d) = .ofElement d type := by
      intro type
      rw [hvisit]
      rfl
    rw [h.emits.member (by simp only [hvisit]; rfl), hof, htype]
    cases (Walk.derived n d base).translate {} <;> simp [Walk.entryOf, hnode]
  | false =>
    have htag := DIDerivedType.tag_of_isElement hd hnode
    have helement : p.current.isMember = false ∧ (Walk.derived n d base).reachesRecord = true := by
      simpa [Walk.elementComplete, hnode] using hcomplete
    obtain ⟨hflag, hrecord⟩ := helement
    have hvisit : p.current.visitDerived d = { p.current with
        derivedSize := d.sizeInBits / 8, isBaseClass := true,
        memberOffset := d.offsetInBits / 8 } := by
      simp [MetaData.visitDerived, htag]
    have halike : (({} : MetaData ι).visitDerived d).Alike (p.current.visitDerived d) := by
      obtain rfl : flag = false := by rwa [hcurrent] at hflag
      rw [hcurrent]
      refine ⟨t, name, size, ?_, ?_⟩ <;> simp [MetaData.visitDerived, htag]
    have htype := halike.translate_derived n (.inr hrecord) fun _ _ h hm =>
      h.translate base hbase hm
    obtain ⟨q, hq, hentries⟩ := h.base (by rw [hvisit]; exact hflag) (by rw [hvisit]) hrecord
    rw [hentries, ← htype, hq, hvisit]
    simp [Walk.entryOf, hnode]

mutual
/-- The walk of a complete type makes one event, about its type. -/
lemma denotes_parse {G : DIGraph ι} (w : Walk ι) (hw : w.TypeOk G) (hclosed : w.Closed)
    (hcomplete : w.complete = true) {p : Parse ι} (henum : p.enumData.isEnum = false) :
    Denotes w p (parse w p) (w.translate p.current) := by
  match w with
  | .null => cases hclosed
  | .var _ _ | .skip _ => exact hw.elim
  | .basic n b =>
    simp only [parse, Parse.basic, henum, Bool.false_eq_true, if_false]
    exact (emits_leaf_event _ _ _ _).denotes rfl
  | .string n t => exact (emits_leaf_event _ _ _ _).denotes rfl
  | .node n x =>
    obtain rfl : x = .subroutineType := hw
    exact (emits_leaf_event _ _ _ _).denotes rfl
  | .derived n d base =>
    have hderived := denotes_derived hw.2 hclosed henum fun q hclosed henum =>
      denotes_parse base hw.2 hclosed hcomplete henum
    exact hderived.of_sameEntry (MetaData.visitDerived_of_not_isElement hw.1 p.current) rfl rfl
  | .array n c elements base =>
    have hbase := denotes_parse base hw.2 hclosed hcomplete (p := { p with
      current := (p.current.visitArray c).visitSubranges
        (elements.filterMap Walk.subrangeCount) }) henum
    rw [parse, parseElements_eq_visitSubranges (p := { p with current := p.current.visitArray c })
      hw.1 (List.append_ne_nil_of_right_ne_nil _ (List.cons_ne_nil _ _))]
    refine hbase.of_sameEntry ?_ rfl rfl
    rw [MetaData.visitSubranges_eq]
    exact ⟨rfl, rfl, rfl, rfl, rfl, rfl⟩
  | .composite n c base elements =>
    obtain ⟨hbase, helements⟩ := hw
    obtain ⟨hclosed, hclosedElements⟩ := hclosed
    have hreturns := base.returns_of_typeOk hbase
    rw [parse, Walk.translate]
    simp only [hreturns, if_true]
    have hentries : (parseElements elements (parse base (p.enter c))).entries =
        if c.tag = .enumerationType then
          base.enumBase.elim [] fun b => elements.flatMap (enumeratorEntries b)
        else elementEntries elements := by
      simp only [Walk.complete, Bool.and_eq_true, Bool.or_eq_true, beq_iff_eq] at hcomplete
      obtain ⟨⟨-, hcompleteElements⟩, hflags⟩ := hcomplete
      split_ifs at helements ⊢ with henumeration
      · exact entries_enumeration henumeration hbase helements
      · have hnull : base = .null := hclosed.resolve_right fun h => henumeration h.1
        subst hnull
        have henter : (p.enter c).enumData.isEnum = false := by simp [Parse.enter, henumeration]
        exact entries_parseElements elements helements.1 hclosedElements hcompleteElements henter
          MetaData.residue_default (hflags.resolve_left henumeration)
    rw [← hentries]
    refine denotes_leave _ p _ c ?_
    exact ⟨rfl, rfl, rfl, rfl, rfl, rfl⟩
  | .recurring n c =>
    refine denotes_leave _ p _ c ?_
    exact ⟨rfl, rfl, rfl, rfl, rfl, rfl⟩

lemma entries_parseElements {G : DIGraph ι} (ws : List (Walk ι)) (hws : ElementsOk G ws)
    (hclosed : ClosedElements ws) (hcomplete : completeElements ws = true) {p : Parse ι}
    (henum : p.enumData.isEnum = false) (hp : p.current.Residue)
    (hflags : elementsComplete ws p.current.isMember = true) :
    (parseElements ws p).entries = p.entries ++ elementEntries ws := by
  match ws with
  | [] => simp [parseElements, elementEntries]
  | .null :: _ | .basic _ _ :: _ | .string _ _ :: _ | .node _ _ :: _ | .recurring _ _ :: _
  | .var _ _ :: _ | .array _ _ _ _ :: _ | .composite _ _ _ _ :: _ => exact hws.1.elim
  | .skip n :: ws =>
    exact entries_parseElements ws hws.2 hclosed.2 hcomplete henum hp hflags
  | .derived n d base :: ws =>
    simp only [completeElements, Bool.and_eq_true] at hcomplete
    simp only [elementsComplete, Bool.and_eq_true] at hflags
    have hentries := entries_element hws.1 hp hflags.1 (denotes_derived hws.1.2 hclosed.1 henum
      fun q hclosed henum => denotes_parse base hws.1.2 hclosed hcomplete.1 henum)
    have hresidue : (parse (.derived n d base) p).current.Residue := by
      rcases hclosed.1 with ⟨hvoid, rfl⟩ | hbase
      · rw [parse, parse, Parse.derived, if_pos hvoid]
        exact MetaData.residue_default
      · exact residue_parse base hws.1.2 hbase _
    have hrest := entries_parseElements ws hws.2 hclosed.2 hcomplete.2
      (isEnum_parse (.derived n d base) henum) hresidue
      (by rw [isMember_parse _ (.inr hws.1)]; exact hflags.2)
    rw [parseElements, hrest, hentries, List.append_assoc]
    rfl
end

lemma result_eq_translate {G : DIGraph ι} {w : Walk ι} (hw : w.TypeOk G)
    (hclosed : w = .null ∨ w.Closed) (hcomplete : w.complete = true) :
    (parse w {}).result = w.translate {} := by
  rcases hclosed with rfl | hclosed
  · rfl
  · exact ((denotes_parse w hw hclosed hcomplete (p := {}) rfl).emits.free rfl rfl).2

/-- The parse of a type or variable, whenever the traversal has enough fuel, is the type of the
walk: nothing that the metadata and the stacks carry from one element to another shows in it. -/
theorem ClosedGraph.makeDimetadata_eq_translate [Fintype ι] (G : ClosedGraph ι) (n : ι)
    (hn : (G.node n).isVariable = true ∨ (G.node n).isTypeNode = true) :
    ∃ fuel w, ∀ fuel', fuel ≤ fuel' → G.walk fuel' ∅ n = some w ∧
      (w.complete = true →
        makeDimetadata G.toDIGraph fuel' n = some (some (w.translate {}))) := by
  obtain ⟨fuel, w, hw⟩ := DIGraph.hasWalk_of_cyclesPassRecords G.cycles_pass_records ∅ n
  refine ⟨fuel, w, fun fuel' hle => ⟨DIGraph.walk_mono hle hw, fun hcomplete => ?_⟩⟩
  have hparsed : ((G.node n).isVariable || (G.node n).isType) = true := by
    rcases hn with hn | hn
    · rw [hn, Bool.true_or]
    · simp only [DINode.isTypeNode, Bool.and_eq_true] at hn
      rw [hn.1, Bool.or_true]
  rw [makeDimetadata_eq (DIGraph.walk_mono hle hw) hparsed]
  congr 2
  rcases hn with hn | hn
  · obtain ⟨type, hnode⟩ : ∃ type, G.node n = .var type := by
      cases hnode : G.node n <;> simp [hnode, DINode.isVariable] at hn
      exact ⟨_, rfl⟩
    obtain ⟨k, rfl⟩ := DIGraph.exists_fuel_of_walk hw
    obtain ⟨w, rfl, htype⟩ := DIGraph.walk_var hnode hw
    have hok := RecordGraph.TypesOk.typeWalk (G.walk_ok k ∅).1 (by rw [hnode]; rfl) htype
    rw [Walk.complete] at hcomplete
    rw [parse, Walk.translate]
    refine result_eq_translate hok ?_ hcomplete
    cases htype with
    | null => exact .inl rfl
    | type hw => exact .inr (G.closed_of_walk hw)
  · exact result_eq_translate ((G.walk_ok fuel ∅).1 n w hw hn) (.inr (G.closed_of_walk hw))
      hcomplete

/-- `struct A { enum E { X } e; };` -/
theorem ClosedGraph.makeDimetadata_eq_translate_enumBase : ∃ fuel w,
    enumBaseGraph.walk fuel ∅ 3 = some w ∧ w.complete = true ∧
      makeDimetadata enumBaseGraph.toDIGraph fuel 3 = some (some (w.translate {})) := by
  obtain ⟨fuel, w, hw⟩ := enumBaseGraph.makeDimetadata_eq_translate 3 (.inr rfl)
  obtain ⟨w', hw', hcomplete⟩ := Option.map_eq_some_iff.mp
    (show (enumBaseGraph.walk 8 ∅ 3).map Walk.complete = some true by decide +kernel)
  obtain ⟨hwalk, hparse⟩ := hw (max fuel 8) (le_max_left _ _)
  obtain rfl : w = w' :=
    Option.some.inj (hwalk.symm.trans (DIGraph.walk_mono (le_max_right _ _) hw'))
  exact ⟨_, w, hwalk, hcomplete, hparse hcomplete⟩

end Denotes

end Dimeta
