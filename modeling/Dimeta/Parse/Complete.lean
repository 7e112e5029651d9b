import Dimeta.Parse.Records
import Mathlib.Tactic.FinCases
import Mathlib.Data.Fintype.Fin

/-!
# Completeness of parsed records

A record is parsed completely if it has one entry for each member, static member and base class,
in order. Members whose type ends without an event are lost, and a base class that follows while
the metadata still says "member" becomes a member; a record is complete exactly if neither
happens.
-/

set_option autoImplicit false

namespace Dimeta

variable {ι : Type}

/-! ### What an element adds -/

/-- The element gets its own entry, if the metadata said "member" (`b`) before it. -/
def Walk.elementComplete : Walk ι → Bool → Bool
  | .derived n d base, b =>
    if d.isMemberNode then (Walk.derived n d base).reachesEvent
    else !b && (Walk.derived n d base).reachesRecord
  | _, _ => true

def elementsComplete : List (Walk ι) → Bool → Bool
  | [], _      => true
  | w :: ws, b => w.elementComplete b && elementsComplete ws (w.memberAfter b)

/-- The entry of a member or static member of type `t`. -/
def Entry.ofElement (d : DIDerivedType ι) (t : QualifiedType) : Entry :=
  if d.isStaticMember then .staticMember d.name t
  else .member d.name (d.offsetInBits / 8) (d.sizeInBits / 8) t

/-- What an element adds to its record. -/
inductive ElementEntry : Walk ι → Bool → Option Entry → Prop
  | skip (n : ι) (b : Bool) : ElementEntry (.skip n) b none
  | member {n : ι} {d : DIDerivedType ι} {base : Walk ι} {b : Bool} (t : QualifiedType)
      (hd : d.isMemberNode = true) (hw : (Walk.derived n d base).reachesEvent = true) :
      ElementEntry (.derived n d base) b (some (.ofElement d t))
  | lost {n : ι} {d : DIDerivedType ι} {base : Walk ι} {b : Bool} (hd : d.isMemberNode = true)
      (hw : (Walk.derived n d base).reachesEvent = false) : ElementEntry (.derived n d base) b none
  | base {n : ι} {d : DIDerivedType ι} {base : Walk ι} (x : BaseClass)
      (hd : d.isMemberNode = false) (hw : (Walk.derived n d base).reachesRecord = true)
      (hoffset : x.offset = d.offsetInBits / 8) :
      ElementEntry (.derived n d base) false (some (.base x))
  | strayed {n : ι} {d : DIDerivedType ι} {base : Walk ι} {b : Bool} (o : Option Entry)
      (hd : d.isMemberNode = false)
      (hw : b = true ∨ (Walk.derived n d base).reachesRecord = false)
      (ho : o = none ∧ (b = false ∨ (Walk.derived n d base).reachesEvent = false) ∨
        b = true ∧ ∃ t m, o = some (.ofMember t (m : MetaData ι))) :
      ElementEntry (.derived n d base) b o

lemma DIDerivedType.tag_of_isElement {d : DIDerivedType ι} (hd : d.isElement = true)
    (hmember : d.isMemberNode = false) : d.tag = .inheritance := by
  simpa [isElement, hmember] using hd

lemma not_isVoidPointer_of_isElement {d : DIDerivedType ι} (hd : d.isElement = true) :
    DIEventVisitor.isVoidPointer d = false := by
  have htag : d.tag ≠ .pointerType := by
    intro htag
    simp [DIDerivedType.isElement, DIDerivedType.isMemberNode, htag] at hd
  simp [DIEventVisitor.isVoidPointer, htag]

/-- A derived type with the name of the vtable pointer is reported at once. -/
lemma entries_derived_of_isVtablePtr {d : DIDerivedType ι}
    (hvoid : DIEventVisitor.isVoidPointer d = false) (hvtbl : DIEventVisitor.isVtablePtr d = true)
    (p : Parse ι) :
    ∃ t, (p.derived d).entries = p.entries ++
      if (p.current.visitDerived d).isMember then [.ofMember t (p.current.visitDerived d)]
      else [] := by
  refine ⟨.fundamental (makeQualifiedFundamental
    { p.current.visitDerived d with type := some (.derivedType d) } d.name .kVtablePtr), ?_⟩
  simp only [Parse.derived]
  rw [if_neg (by simp [hvoid]), if_pos hvtbl]
  simp only [Parse.emitFundamental, Parse.emit, Parse.clearCurrent]
  split
  · next hm => simp [hm, Entry.ofMember]
  · simp

variable [DecidableEq ι]

/-- An element adds what its kind, its chain and the member flag make of it. -/
lemma elementEntry_parse {G : DIGraph ι} {w : Walk ι} (hw : w.ElementOk G) {p : Parse ι}
    (h : p.enumData.isEnum = false) :
    ∃ o, (parse w p).entries = p.entries ++ o.toList ∧ ElementEntry w p.current.isMember o := by
  match w with
  | .null | .basic _ _ | .string _ _ | .node _ _ | .recurring _ _ | .var _ _ | .array _ _ _ _
  | .composite _ _ _ _ => exact hw.elim
  | .skip n => exact ⟨none, by simp [parse], .skip n _⟩
  | .derived n d base =>
    obtain ⟨hd, hbase⟩ := hw
    have hvoid := not_isVoidPointer_of_isElement hd
    obtain ⟨o, ho, hchain⟩ := chainEntry_parse base hbase (p := p.derived d)
      (by rw [Parse.isEnum_derived, h])
    cases hvtbl : DIEventVisitor.isVtablePtr d with
    | true =>
      -- the element itself is taken for a vtable pointer
      have hcurrent : (p.derived d).current = {} :=
        Parse.current_derived_of_event (by simp [hvtbl]) p
      obtain rfl := hchain.eq_none (by rw [hcurrent]) (by rw [hcurrent])
      obtain ⟨t, hentries⟩ := entries_derived_of_isVtablePtr hvoid hvtbl p
      cases hmember : d.isMemberNode with
      | true =>
        rw [MetaData.visitDerived_of_isMemberNode hmember] at hentries
        refine ⟨_, by rw [parse, ho, hentries]; simp; rfl, .member t hmember ?_⟩
        simp [Walk.reachesEvent, hvtbl]
      | false =>
        have hrecord : (Walk.derived n d base).reachesRecord = false := by
          simp [Walk.reachesRecord, hvtbl]
        have hflag : (p.current.visitDerived d).isMember = p.current.isMember := by
          simp [MetaData.visitDerived, DIDerivedType.tag_of_isElement hd hmember]
        rw [parse, ho, hentries, hflag]
        split
        · next hb =>
          exact ⟨_, by simp; rfl, .strayed _ hmember (.inr hrecord) (.inr ⟨hb, t, _, rfl⟩)⟩
        · next hb =>
          have hb : p.current.isMember = false := by simpa using hb
          exact ⟨none, by simp, .strayed _ hmember (.inr hrecord) (.inl ⟨rfl, .inl hb⟩)⟩
    | false =>
      -- the element is a member or a base class, and the chain below makes the entry
      have hstep := Parse.derived_of_collected (Bool.or_eq_false_iff.mpr ⟨hvoid, hvtbl⟩) p
      rw [hstep] at ho hchain
      refine ⟨o, by rw [parse, hstep]; exact ho, ?_⟩
      have hevent : (Walk.derived n d base).reachesEvent = base.reachesEvent := by
        simp [Walk.reachesEvent, hvoid, hvtbl]
      have hrecord : (Walk.derived n d base).reachesRecord = base.reachesRecord := by
        simp [Walk.reachesRecord, hvoid, hvtbl]
      cases hmember : d.isMemberNode with
      | true =>
        rw [MetaData.visitDerived_of_isMemberNode hmember] at hchain
        cases hchain with
        | member t _ hw => exact .member t hmember (hevent.trans hw)
        | lost _ hw => exact .lost hmember (hevent.trans hw)
        | base _ hm => cases hm
        | none hm => cases hm
      | false =>
        have htag := DIDerivedType.tag_of_isElement hd hmember
        have hvisit : p.current.visitDerived d = { p.current with
            derivedSize := d.sizeInBits / 8, isBaseClass := true,
            memberOffset := d.offsetInBits / 8 } := by
          simp [MetaData.visitDerived, htag]
        rw [hvisit] at hchain
        cases hchain with
        | member t hm hw => exact .strayed _ hmember (.inl hm) (.inr ⟨hm, t, _, rfl⟩)
        | lost hm hw =>
          exact .strayed _ hmember (.inl hm) (.inl ⟨rfl, .inr (hevent.trans hw)⟩)
        | base b hm _ hw hoffset =>
          have hm : p.current.isMember = false := hm
          rw [hm]
          exact .base b hmember (hrecord.trans hw) hoffset
        | none hm hb =>
          exact .strayed _ hmember (.inr (hrecord.trans (hb.resolve_left (by simp))))
            (.inl ⟨rfl, .inl hm⟩)

/-- What the elements of a record add, from the member flag `b` on. -/
inductive RecordEntries : List (Walk ι) → Bool → List Entry → Prop
  | nil (b : Bool) : RecordEntries [] b []
  | cons {w : Walk ι} {ws : List (Walk ι)} {b : Bool} {o : Option Entry} {es : List Entry}
      (hw : ElementEntry w b o) (hws : RecordEntries ws (w.memberAfter b) es) :
      RecordEntries (w :: ws) b (o.toList ++ es)

lemma recordEntries_parseElements {G : DIGraph ι} {ws : List (Walk ι)} (hws : ElementsOk G ws)
    {p : Parse ι} (h : p.enumData.isEnum = false) :
    ∃ es, (parseElements ws p).entries = p.entries ++ es ∧
      RecordEntries ws p.current.isMember es := by
  induction ws generalizing p with
  | nil => exact ⟨[], by simp [parseElements], .nil _⟩
  | cons w ws ih =>
    obtain ⟨o, ho, hentry⟩ := elementEntry_parse hws.1 h
    obtain ⟨es, hes, hentries⟩ := ih hws.2 (isEnum_parse w h)
    rw [isMember_parse w (.inr hws.1)] at hentries
    refine ⟨o.toList ++ es, ?_, .cons hentry hentries⟩
    rw [parseElements, hes, ho, List.append_assoc]

/-! ### Entries and the record they make -/

namespace Entry

/-- Name, offset and size of a member entry. -/
def memberKey : Entry → Option (String × UInt64 × UInt64)
  | .member name offset size _ => some (name, offset, size)
  | _ => none

def staticName : Entry → Option String
  | .staticMember name _ => some name
  | _ => none

def baseOffset : Entry → Option UInt64
  | .base b => some b.offset
  | _ => none

end Entry

namespace DIDerivedType

/-- Name, byte offset and byte size of a non-static member. -/
def memberKey (d : DIDerivedType ι) : Option (String × UInt64 × UInt64) :=
  if d.isMemberNode && !d.isStaticMember then
    some (d.name, d.offsetInBits / 8, d.sizeInBits / 8)
  else none

def staticName (d : DIDerivedType ι) : Option String :=
  if d.isMemberNode && d.isStaticMember then some d.name else none

def baseOffset (d : DIDerivedType ι) : Option UInt64 :=
  if d.tag = .inheritance then some (d.offsetInBits / 8) else none

end DIDerivedType

/-- One entry for each element, in order and with its own name, offset and size, and nothing
else. -/
structure CompoundType.Matches (t : CompoundType) (elements : List (DIDerivedType ι)) : Prop where
  names : t.members.map Member.name = (elements.filterMap (·.memberKey)).map (·.1)
  offsets : t.offsets = (elements.filterMap (·.memberKey)).map (·.2.1)
  sizes : t.sizes = (elements.filterMap (·.memberKey)).map (·.2.2)
  staticNames : t.staticMembers.map Member.name = elements.filterMap (·.staticName)
  baseOffsets : t.bases.map BaseClass.offset = elements.filterMap (·.baseOffset)

omit [DecidableEq ι] in
lemma RecordEntries.ne_truncateEnum {ws : List (Walk ι)} {b : Bool} {es : List Entry}
    (h : RecordEntries ws b es) : ∀ e ∈ es, e ≠ .truncateEnum := by
  have hmember : ∀ (t : QualifiedType) (m : MetaData ι), Entry.ofMember t m ≠ .truncateEnum := by
    intro t m
    simp only [Entry.ofMember]
    split <;> simp
  induction h with
  | nil => simp
  | cons hw _ ih =>
    intro e he
    rcases List.mem_append.mp he with he | he
    · cases hw with
      | skip => simp at he
      | member t =>
        obtain rfl : e = _ := by simpa using he
        simp only [Entry.ofElement]
        split <;> simp
      | lost => simp at he
      | base x =>
        obtain rfl : e = .base x := by simpa using he
        simp
      | strayed o _ _ ho =>
        rcases ho with ⟨rfl, -⟩ | ⟨-, t, m, rfl⟩
        · simp at he
        · obtain rfl : e = .ofMember t m := by simpa using he
          exact hmember t m
    · exact ih e he

lemma CompoundType.addAll_fields {es : List Entry} (hes : ∀ e ∈ es, e ≠ .truncateEnum)
    (t : CompoundType) :
    (t.addAll es).members.map Member.name =
        t.members.map Member.name ++ (es.filterMap Entry.memberKey).map (·.1) ∧
      (t.addAll es).offsets = t.offsets ++ (es.filterMap Entry.memberKey).map (·.2.1) ∧
      (t.addAll es).sizes = t.sizes ++ (es.filterMap Entry.memberKey).map (·.2.2) ∧
      (t.addAll es).staticMembers.map Member.name =
        t.staticMembers.map Member.name ++ es.filterMap Entry.staticName ∧
      (t.addAll es).bases.map BaseClass.offset =
        t.bases.map BaseClass.offset ++ es.filterMap Entry.baseOffset := by
  induction es generalizing t with
  | nil => simp
  | cons e es ih =>
    have ih := ih (fun e he => hes e (by simp [he])) (t.add e)
    have hadd : t.addAll (e :: es) = (t.add e).addAll es := rfl
    rw [hadd]
    cases e with
    | member name offset size type =>
      simpa [add, Entry.memberKey, Entry.staticName, Entry.baseOffset, List.filterMap_cons] using ih
    | staticMember name type =>
      simpa [add, Entry.memberKey, Entry.staticName, Entry.baseOffset, List.filterMap_cons] using ih
    | base b =>
      simpa [add, emplaceBase, Entry.memberKey, Entry.staticName, Entry.baseOffset,
        List.filterMap_cons] using ih
    | truncateEnum => exact absurd rfl (hes .truncateEnum (by simp))

lemma eq_of_map_components {α β γ : Type} {l l' : List (α × β × γ)}
    (h₁ : l.map (·.1) = l'.map (·.1)) (h₂ : l.map (·.2.1) = l'.map (·.2.1))
    (h₃ : l.map (·.2.2) = l'.map (·.2.2)) : l = l' := by
  induction l generalizing l' with
  | nil =>
    cases l' with
    | nil => rfl
    | cons y l' => simp at h₁
  | cons x l ih =>
    cases l' with
    | nil => simp at h₁
    | cons y l' =>
      simp only [List.map_cons, List.cons.injEq] at h₁ h₂ h₃
      rw [ih h₁.2 h₂.2 h₃.2, Prod.ext h₁.1 (Prod.ext h₂.1 h₃.1)]

/-- The keys of the entries are those of the elements. -/
structure KeysMatch (es : List Entry) (elements : List (DIDerivedType ι)) : Prop where
  members : es.filterMap Entry.memberKey = elements.filterMap (·.memberKey)
  staticNames : es.filterMap Entry.staticName = elements.filterMap (·.staticName)
  baseOffsets : es.filterMap Entry.baseOffset = elements.filterMap (·.baseOffset)

omit [DecidableEq ι] in
lemma makeCompound_matches_iff {es : List Entry} (hes : ∀ e ∈ es, e ≠ .truncateEnum)
    (c : DICompositeType ι) (elements : List (DIDerivedType ι)) :
    ((makeCompound c).addAll es).Matches elements ↔ KeysMatch es elements := by
  obtain ⟨hnames, hoffsets, hsizes, hstatics, hbases⟩ :=
    CompoundType.addAll_fields hes (makeCompound c)
  rw [show (makeCompound c).members = [] from rfl, List.map_nil, List.nil_append] at hnames
  rw [show (makeCompound c).offsets = [] from rfl, List.nil_append] at hoffsets
  rw [show (makeCompound c).sizes = [] from rfl, List.nil_append] at hsizes
  rw [show (makeCompound c).staticMembers = [] from rfl, List.map_nil, List.nil_append] at hstatics
  rw [show (makeCompound c).bases = [] from rfl, List.map_nil, List.nil_append] at hbases
  constructor
  · rintro ⟨h₁, h₂, h₃, h₄, h₅⟩
    rw [hnames] at h₁
    rw [hoffsets] at h₂
    rw [hsizes] at h₃
    rw [hstatics] at h₄
    rw [hbases] at h₅
    exact ⟨eq_of_map_components h₁ h₂ h₃, h₄, h₅⟩
  · rintro ⟨h₁, h₂, h₃⟩
    exact ⟨hnames.trans (by rw [h₁]), hoffsets.trans (by rw [h₁]), hsizes.trans (by rw [h₁]),
      hstatics.trans h₂, hbases.trans h₃⟩

/-! ### Complete elements are those with their own entries -/

def Walk.memberKey (w : Walk ι) : Option (String × UInt64 × UInt64) :=
  w.asDerived.bind DIDerivedType.memberKey

def Walk.staticName (w : Walk ι) : Option String := w.asDerived.bind DIDerivedType.staticName

def Walk.baseOffset (w : Walk ι) : Option UInt64 := w.asDerived.bind DIDerivedType.baseOffset

omit [DecidableEq ι] in
/-- A complete element has an entry with its own keys. -/
lemma ElementEntry.keys_of_complete {G : DIGraph ι} {w : Walk ι} {b : Bool} {o : Option Entry}
    (h : ElementEntry w b o) (hw : w.ElementOk G) (hc : w.elementComplete b = true) :
    o.bind Entry.memberKey = w.memberKey ∧ o.bind Entry.staticName = w.staticName ∧
      o.bind Entry.baseOffset = w.baseOffset := by
  cases h with
  | skip => exact ⟨rfl, rfl, rfl⟩
  | @member n d base _ t hd hevent =>
    have hinh : d.tag ≠ .inheritance := by
      intro h
      simp [DIDerivedType.isMemberNode, h] at hd
    cases hstatic : d.isStaticMember <;>
      simp [Entry.ofElement, hstatic, Entry.memberKey, Entry.staticName, Entry.baseOffset,
        Walk.memberKey, Walk.staticName, Walk.baseOffset, Walk.asDerived,
        DIDerivedType.memberKey, DIDerivedType.staticName, DIDerivedType.baseOffset, hd, hinh]
  | lost hd hevent => simp [Walk.elementComplete, hd, hevent] at hc
  | @base n d base x hd hrecord hoffset =>
    have hinh := DIDerivedType.tag_of_isElement hw.1 hd
    simp [Entry.memberKey, Entry.staticName, Entry.baseOffset, Walk.memberKey, Walk.staticName,
      Walk.baseOffset, Walk.asDerived, DIDerivedType.memberKey, DIDerivedType.staticName,
      DIDerivedType.baseOffset, hd, hinh, hoffset]
  | strayed o hd hrecord =>
    simp only [Walk.elementComplete, hd, Bool.false_eq_true, if_false, Bool.and_eq_true] at hc
    rcases hrecord with rfl | hrecord
    · simp at hc
    · simp [hrecord] at hc

omit [DecidableEq ι] in
/-- An incomplete member has no entry; an incomplete base class has none among the bases. -/
lemma ElementEntry.keys_of_incomplete {G : DIGraph ι} {w : Walk ι} {b : Bool} {o : Option Entry}
    (h : ElementEntry w b o) (hw : w.ElementOk G) (hc : w.elementComplete b = false) :
    (o = none ∧ w.baseOffset = none ∧ (w.memberKey ≠ none ∨ w.staticName ≠ none)) ∨
      (o.bind Entry.baseOffset = none ∧ w.baseOffset ≠ none) := by
  cases h with
  | skip => cases hc
  | member t hd hevent => simp [Walk.elementComplete, hd, hevent] at hc
  | @lost n d base _ hd hevent =>
    have hinh : d.tag ≠ .inheritance := by
      intro h
      simp [DIDerivedType.isMemberNode, h] at hd
    refine .inl ⟨rfl, ?_, ?_⟩
    · simp [Walk.baseOffset, Walk.asDerived, DIDerivedType.baseOffset, hinh]
    · cases hstatic : d.isStaticMember with
      | true => exact .inr (by simp [Walk.staticName, Walk.asDerived, DIDerivedType.staticName,
          hd, hstatic])
      | false => exact .inl (by simp [Walk.memberKey, Walk.asDerived, DIDerivedType.memberKey,
          hd, hstatic])
  | base x hd hrecord => simp [Walk.elementComplete, hd, hrecord] at hc
  | @strayed n d base _ o hd hrecord ho =>
    have hinh := DIDerivedType.tag_of_isElement hw.1 hd
    refine .inr ⟨?_, by simp [Walk.baseOffset, Walk.asDerived, DIDerivedType.baseOffset, hinh]⟩
    rcases ho with ⟨rfl, -⟩ | ⟨-, t, m, rfl⟩
    · rfl
    · simp only [Option.bind_some, Entry.ofMember]
      split <;> rfl

lemma filterMap_toList_append {α β : Type} (f : α → Option β) (o : Option α) (l : List α) :
    (o.toList ++ l).filterMap f = (o.bind f).toList ++ l.filterMap f := by
  cases o with
  | none => rfl
  | some a => cases h : f a <;> simp [h]

lemma filterMap_cons_toList {α β : Type} (f : α → Option β) (a : α) (l : List α) :
    (a :: l).filterMap f = (f a).toList ++ l.filterMap f := by
  cases h : f a <;> simp [h]

omit [DecidableEq ι] in
/-- Complete elements have entries with their own keys. -/
lemma RecordEntries.keys {G : DIGraph ι} {ws : List (Walk ι)} {b : Bool} {es : List Entry}
    (h : RecordEntries ws b es) (hws : ElementsOk G ws) (hc : elementsComplete ws b = true) :
    es.filterMap Entry.memberKey = ws.filterMap Walk.memberKey ∧
      es.filterMap Entry.staticName = ws.filterMap Walk.staticName ∧
      es.filterMap Entry.baseOffset = ws.filterMap Walk.baseOffset := by
  induction h with
  | nil => exact ⟨rfl, rfl, rfl⟩
  | cons hw _ ih =>
    simp only [elementsComplete, Bool.and_eq_true] at hc
    obtain ⟨hm, hs, hb⟩ := ih hws.2 hc.2
    obtain ⟨hm', hs', hb'⟩ := hw.keys_of_complete hws.1 hc.1
    simp only [filterMap_toList_append, filterMap_cons_toList, hm, hs, hb, hm', hs', hb', and_self]

omit [DecidableEq ι] in
/-- There are no more bases than base classes, and if there are as many, no more members than
members; if there are as many of each, every element is complete. -/
lemma RecordEntries.complete_of_lengths {G : DIGraph ι} {ws : List (Walk ι)} {b : Bool}
    {es : List Entry} (h : RecordEntries ws b es) (hws : ElementsOk G ws) :
    (es.filterMap Entry.baseOffset).length ≤ (ws.filterMap Walk.baseOffset).length ∧
      ((es.filterMap Entry.baseOffset).length = (ws.filterMap Walk.baseOffset).length →
        (es.filterMap Entry.memberKey).length ≤ (ws.filterMap Walk.memberKey).length ∧
          (es.filterMap Entry.staticName).length ≤ (ws.filterMap Walk.staticName).length ∧
          ((es.filterMap Entry.memberKey).length = (ws.filterMap Walk.memberKey).length →
            (es.filterMap Entry.staticName).length = (ws.filterMap Walk.staticName).length →
            elementsComplete ws b = true)) := by
  induction h with
  | nil => simp [elementsComplete]
  | @cons w ws b o es hw _ ih =>
    obtain ⟨hb, hrest⟩ := ih hws.2
    simp only [filterMap_toList_append, filterMap_cons_toList, List.length_append,
      elementsComplete, Bool.and_eq_true]
    cases hc : w.elementComplete b with
    | true =>
      obtain ⟨hm', hs', hb'⟩ := hw.keys_of_complete hws.1 hc
      rw [hm', hs', hb']
      refine ⟨by omega, fun hbases => ?_⟩
      obtain ⟨hm, hs, hall⟩ := hrest (by omega)
      exact ⟨by omega, by omega, fun h₁ h₂ => ⟨rfl, hall (by omega) (by omega)⟩⟩
    | false =>
      have hlength : ∀ {α : Type} {x : Option α}, x ≠ none → x.toList.length = 1 := by
        intro α x hx
        obtain ⟨a, rfl⟩ := Option.ne_none_iff_exists'.mp hx
        rfl
      rcases hw.keys_of_incomplete hws.1 hc with ⟨rfl, hnone, hlost⟩ | ⟨hnone, hsome⟩
      · -- a lost member: as many bases, but fewer members
        rw [hnone]
        simp only [Option.bind_none, Option.toList_none, List.length_nil]
        refine ⟨by omega, fun hbases => ?_⟩
        obtain ⟨hm, hs, -⟩ := hrest (by omega)
        refine ⟨by omega, by omega, fun h₁ h₂ => ?_⟩
        rcases hlost with hlost | hlost
        · have := hlength hlost
          omega
        · have := hlength hlost
          omega
      · -- a strayed base class: fewer bases
        have hone := hlength hsome
        rw [hnone]
        simp only [Option.toList_none, List.length_nil]
        exact ⟨by omega, fun hbases => by omega⟩

omit [DecidableEq ι] in
lemma filterMap_elements {β : Type} {G : DIGraph ι} {elements : List (Walk ι)}
    {c : DICompositeType ι} (h : elements.filterMap Walk.asDerived =
      c.elements.filterMap fun e => (G.node e).asDerived) (f : DIDerivedType ι → Option β) :
    (c.elements.filterMap fun e => (G.node e).asDerived).filterMap f =
      elements.filterMap fun w => w.asDerived.bind f := by
  rw [← h, List.filterMap_filterMap]

omit [DecidableEq ι] in
/-- A record matches its elements exactly if they are complete. -/
theorem RecordEntries.matches_iff {G : DIGraph ι} {elements : List (Walk ι)} {b : Bool}
    {es : List Entry} (h : RecordEntries elements b es) (hok : ElementsOk G elements)
    {c : DICompositeType ι} (hc : elements.filterMap Walk.asDerived =
      c.elements.filterMap fun e => (G.node e).asDerived) :
    ((makeCompound c).addAll es).Matches (c.elements.filterMap fun e => (G.node e).asDerived) ↔
      elementsComplete elements b = true := by
  rw [makeCompound_matches_iff h.ne_truncateEnum]
  constructor
  · rintro ⟨hmembers, hstatics, hbases⟩
    rw [filterMap_elements hc] at hmembers hstatics hbases
    obtain ⟨-, hrest⟩ := h.complete_of_lengths hok
    obtain ⟨-, -, hall⟩ := hrest (by rw [hbases]; rfl)
    exact hall (by rw [hmembers]; rfl) (by rw [hstatics]; rfl)
  · intro hcomplete
    obtain ⟨hmembers, hstatics, hbases⟩ := h.keys hok hcomplete
    refine ⟨?_, ?_, ?_⟩ <;> rw [filterMap_elements hc]
    · exact hmembers
    · exact hstatics
    · exact hbases

/-! ### Complete walks -/

mutual
/-- In every record of the walk each element gets its own entry. -/
def Walk.complete : Walk ι → Bool
  | .null | .basic _ _ | .string _ _ | .node _ _ | .recurring _ _ | .skip _ => true
  | .var _ type => type.complete
  | .derived _ _ base | .array _ _ _ base => base.complete
  | .composite _ c base elements =>
    base.complete && completeElements elements &&
      (c.tag == .enumerationType || elementsComplete elements (base.memberAfter false))

def completeElements : List (Walk ι) → Bool
  | []      => true
  | w :: ws => w.complete && completeElements ws
end

/-- A record that was expanded matches its elements. -/
def RecordOk (G : DIGraph ι) (r : MetaData ι × QualifiedCompound) : Prop :=
  ∀ c, r.1.type = some (.compositeType c) → c.tag ≠ .enumerationType → r.1.isRecurring = false →
    r.2.type.Matches (c.elements.filterMap fun e => (G.node e).asDerived)

omit [DecidableEq ι] in
lemma finalized_derived (d : DIDerivedType ι) (p : Parse ι) :
    (p.derived d).finalized = p.finalized := by
  cases hclear : DIEventVisitor.isVoidPointer d || DIEventVisitor.isVtablePtr d with
  | true =>
    obtain ⟨name, encoding, isVoidPtr, hderived⟩ := Parse.derived_of_event hclear p
    rw [hderived, Parse.clearCurrent, Parse.finalized_emitFundamental]
  | false => rw [Parse.derived_of_collected hclear]

omit [DecidableEq ι] in
lemma finalized_node (x : DINode ι) (p : Parse ι) : (p.node x).finalized = p.finalized := by
  cases x with
  | enumerator name =>
    simp only [Parse.node]
    cases p.enumData.enumBase <;> simp
  | subrange count =>
    cases count with
    | none => rfl
    | some count =>
      simp only [Parse.node]
      split <;> rfl
  | subroutineType => simp [Parse.node, Parse.clearCurrent]
  | _ => rfl

lemma finalized_of_allEnumerators {ws : List (Walk ι)} (h : AllEnumerators ws) (p : Parse ι) :
    (parseElements ws p).finalized = p.finalized ∧ completeElements ws = true := by
  induction ws generalizing p with
  | nil => exact ⟨rfl, rfl⟩
  | cons w ws ih =>
    obtain ⟨n, name, rfl⟩ := h w (by simp)
    obtain ⟨hfinalized, hcomplete⟩ := ih (fun w hw => h w (by simp [hw])) (p.node (.enumerator name))
    constructor
    · rw [parseElements, parse, hfinalized, finalized_node]
    · rw [completeElements, hcomplete, Walk.complete, Bool.and_self]

/-- The entries of a record are those of its elements: its base type adds none. -/
lemma recordEntries_enter {G : DIGraph ι} {c : DICompositeType ι} {base : Walk ι}
    {elements : List (Walk ι)} (hbase : base.TypeOk G) (helements : ElementsOk G elements)
    (hc : c.tag ≠ .enumerationType) (p : Parse ι) :
    RecordEntries elements (base.memberAfter false)
      (parseElements elements (parse base (p.enter c))).entries := by
  have henum : (p.enter c).enumData.isEnum = false := by simp [Parse.enter, hc]
  obtain ⟨o, ho, hchain⟩ := chainEntry_parse base hbase henum
  obtain rfl := hchain.eq_none rfl rfl
  obtain ⟨es, hes, hentries⟩ := recordEntries_parseElements helements (isEnum_parse base henum)
  rw [isMember_parse base (.inl hbase)] at hentries
  rw [hes, ho]
  exact hentries

mutual
/-- The records that a walk finalizes match their elements exactly if the walk is complete. -/
lemma finalized_parse {G : DIGraph ι} (w : Walk ι) (hw : w.TypeOk G ∨ w.ElementOk G) (p : Parse ι)
    (hp : p.current.isRecurring = false) :
    ∃ l, (parse w p).finalized = p.finalized ++ l ∧
      ((∀ r ∈ l, RecordOk G r) ↔ w.complete = true) := by
  match w with
  | .null => exact ⟨[], by simp [parse], by simp [Walk.complete]⟩
  | .basic n b =>
    exact ⟨[], by simp [parse, Parse.finalized_basic], by simp [Walk.complete]⟩
  | .string n t => exact ⟨[], by simp [parse, Parse.string, Parse.clearCurrent],
      by simp [Walk.complete]⟩
  | .node n x => exact ⟨[], by rw [parse, finalized_node]; simp, by simp [Walk.complete]⟩
  | .var n type => rcases hw with hw | hw <;> cases hw
  | .derived n d base =>
    have hbase : base.TypeOk G := hw.elim And.right And.right
    obtain ⟨l, hl, hiff⟩ := finalized_parse base (.inl hbase) (p.derived d)
      (isRecurring_derived d hp)
    exact ⟨l, by rw [parse, hl, finalized_derived], by rw [Walk.complete]; exact hiff⟩
  | .array n c elements base =>
    obtain ⟨hsub, hbase⟩ : AllSubranges elements ∧ base.TypeOk G := hw.resolve_right id
    obtain ⟨l, hl, hiff⟩ := finalized_parse base (.inl hbase)
      (parseElements elements { p with current := p.current.visitArray c })
      (isRecurring_parseElements elements hp)
    have hfinalized := (parseElements_of_allSubranges hsub
      { p with current := p.current.visitArray c }).2.2.1
    exact ⟨l, by rw [parse, hl, hfinalized], by rw [Walk.complete]; exact hiff⟩
  | .composite n c base elements =>
    obtain ⟨hbase, helements⟩ := hw.resolve_right id
    obtain ⟨l, hl, hiff⟩ := finalized_parse base (.inl hbase) (p.enter c) rfl
    simp only [parse, Parse.finalized_leave, base.returns_of_typeOk hbase, if_true]
    -- an enumeration asks for nothing, a record for all of its elements
    split_ifs at helements with henum
    · obtain ⟨hall, -⟩ := helements
      obtain ⟨hfinalized, hcomplete⟩ := finalized_of_allEnumerators hall (parse base (p.enter c))
      refine ⟨_, by rw [hfinalized, hl, List.append_assoc]; rfl, ?_⟩
      have hrecord : ∀ q, RecordOk G (p.current.visitRecord n c, q) := by
        intro q c' hc' hne
        obtain rfl : c = c' := by simpa [MetaData.visitRecord] using hc'
        exact absurd henum hne
      simp only [List.mem_append, List.mem_singleton, or_imp, forall_and, forall_eq, hrecord,
        and_true, hiff]
      simp [Walk.complete, hcomplete, henum]
    · obtain ⟨hok, hsame⟩ := helements
      obtain ⟨l', hl', hiff'⟩ := finalizedElements_parse elements hok (parse base (p.enter c))
        (isRecurring_parse base rfl)
      refine ⟨_, by rw [hl', hl, List.append_assoc, List.append_assoc]; rfl, ?_⟩
      have hmatches := (recordEntries_enter hbase hok henum p).matches_iff hok hsame
      have hrecord : RecordOk G (p.current.visitRecord n c,
          { makeQualType (makeCompound c) (p.current.visitRecord n c) with
            type := (makeCompound c).addAll
              (parseElements elements (parse base (p.enter c))).entries }) ↔
          elementsComplete elements (base.memberAfter false) = true := by
        rw [← hmatches]
        constructor
        · exact fun h => h c rfl henum hp
        · intro h c' hc' _ _
          obtain rfl : c = c' := by simpa [MetaData.visitRecord] using hc'
          exact h
      simp only [List.mem_append, List.mem_singleton, or_imp, forall_and, forall_eq, hrecord,
        hiff, hiff']
      simp [Walk.complete, henum, and_assoc]
  | .recurring n c =>
    refine ⟨_, by rw [parse, Parse.finalized_leave]; rfl, ?_⟩
    simp [RecordOk, MetaData.visitRecord, Walk.complete]
  | .skip n => exact ⟨[], by simp [parse], by simp [Walk.complete]⟩

lemma finalizedElements_parse {G : DIGraph ι} (ws : List (Walk ι)) (hws : ElementsOk G ws)
    (p : Parse ι) (hp : p.current.isRecurring = false) :
    ∃ l, (parseElements ws p).finalized = p.finalized ++ l ∧
      ((∀ r ∈ l, RecordOk G r) ↔ completeElements ws = true) := by
  match ws with
  | [] => exact ⟨[], by simp [parseElements], by simp [completeElements]⟩
  | w :: ws =>
    obtain ⟨l, hl, hiff⟩ := finalized_parse w (.inr hws.1) p hp
    obtain ⟨l', hl', hiff'⟩ := finalizedElements_parse ws hws.2 (parse w p) (isRecurring_parse w hp)
    refine ⟨l ++ l', by rw [parseElements, hl', hl, List.append_assoc], ?_⟩
    simp only [List.mem_append, or_imp, forall_and, hiff, hiff', completeElements,
      Bool.and_eq_true]
end

/-- The walk of a variable or a type finalizes records that match their elements exactly if it is
complete. -/
lemma RecordGraph.finalized_iff {G : RecordGraph ι} {fuel : ℕ} {n : ι} {w : Walk ι}
    (h : G.walk fuel ∅ n = some w) (hn : ((G.node n).isVariable || (G.node n).isType) = true) :
    (∀ r ∈ (parse w {}).finalized, RecordOk G.toDIGraph r) ↔ w.complete = true := by
  obtain ⟨htypes, helements⟩ := G.walk_ok fuel ∅
  have hparse : ∀ w' : Walk ι, w'.TypeOk G.toDIGraph ∨ w'.ElementOk G.toDIGraph →
      ((∀ r ∈ (parse w' {}).finalized, RecordOk G.toDIGraph r) ↔ w'.complete = true) := by
    intro w' hw'
    obtain ⟨l, hl, hiff⟩ := finalized_parse w' hw' {} rfl
    rw [hl]
    simpa using hiff
  cases hnode : G.node n with
  | var type =>
    obtain ⟨fuel, rfl⟩ := DIGraph.exists_fuel_of_walk h
    obtain ⟨w', rfl, hw'⟩ := DIGraph.walk_var hnode h
    have hok := TypesOk.typeWalk (G.walk_ok fuel ∅).1 (by rw [hnode]; rfl) hw'
    rw [Walk.complete]
    exact hparse w' (.inl hok)
  | derivedType d =>
    cases hd : d.isElement with
    | true => exact hparse w (.inr (helements n (.inr ⟨d, hnode, hd⟩) w h))
    | false => exact hparse w (.inl (htypes n w h (by
        simp [hnode, DINode.isTypeNode, DINode.isType, DINode.asDerived, hd])))
  | basicType b => exact hparse w (.inl (htypes n w h (by rw [hnode]; rfl)))
  | stringType t => exact hparse w (.inl (htypes n w h (by rw [hnode]; rfl)))
  | compositeType c => exact hparse w (.inl (htypes n w h (by rw [hnode]; rfl)))
  | subroutineType => exact hparse w (.inl (htypes n w h (by rw [hnode]; rfl)))
  | enumerator name => simp [hnode, DINode.isVariable, DINode.isType] at hn
  | subrange count => simp [hnode, DINode.isVariable, DINode.isType] at hn
  | subprogram => simp [hnode, DINode.isVariable, DINode.isType] at hn
  | other => simp [hnode, DINode.isVariable, DINode.isType] at hn

lemma Walk.complete_of_not_type {G : DIGraph ι} {fuel : ℕ} {n : ι} {w : Walk ι}
    (h : G.walk fuel ∅ n = some w) (hn : ((G.node n).isVariable || (G.node n).isType) = false) :
    w.complete = true := by
  cases fuel with
  | zero => cases h
  | succ fuel =>
    cases DIGraph.walkStep_of_walk h with
    | node _ _ | skip _ | basic _ | string _ | recurring _ _ => rfl
    | var hnode _ => rw [hnode] at hn; cases hn
    | derived hnode _ => rw [hnode] at hn; cases hn
    | array hnode _ _ _ _ => rw [hnode] at hn; cases hn
    | composite hnode _ _ _ _ => rw [hnode] at hn; cases hn

/-- Every record that `make_dimetadata` expands has one entry for each element, in order, exactly
if the tree below the root is complete: no member has a chain that ends without an event, and no
base class is met while the metadata still says "member" or has a chain that ends elsewhere than
in a record. -/
theorem RecordGraph.records_match_iff [Fintype ι] (G : RecordGraph ι) (n : ι) :
    ∃ fuel w log, ∀ fuel', fuel ≤ fuel' → G.walk fuel' ∅ n = some w ∧
      finalizedComposites G.toDIGraph fuel' n = some log ∧
      ((∀ r ∈ log, RecordOk G.toDIGraph r) ↔ w.complete = true) := by
  obtain ⟨fuel, w, hw⟩ := DIGraph.hasWalk_of_cyclesPassRecords G.cycles_pass_records ∅ n
  cases hn : (G.node n).isVariable || (G.node n).isType with
  | true =>
    refine ⟨fuel, w, (parse w {}).finalized, fun fuel' hle => ?_⟩
    have hw' := DIGraph.walk_mono hle hw
    exact ⟨hw', finalizedComposites_eq hw' hn, G.finalized_iff hw' hn⟩
  | false =>
    refine ⟨fuel, w, [], fun fuel' hle => ⟨DIGraph.walk_mono hle hw, ?_, ?_⟩⟩
    · simp [finalizedComposites, hn]
    · simp [Walk.complete_of_not_type hw hn]

/-! ### A member that is lost -/

/-- `struct { const void *p; int x; }` -/
def constVoidMember : DIGraph (Fin 6) where
  node
    | 0 => .compositeType { tag := .structureType, name := "S", sizeInBits := 128,
                            elements := [1, 2] }
    | 1 => .derivedType { tag := .member, name := "p", sizeInBits := 64, baseType := some 3 }
    | 2 => .derivedType { tag := .member, name := "x", sizeInBits := 32, offsetInBits := 64,
                          baseType := some 5 }
    | 3 => .derivedType { tag := .pointerType, sizeInBits := 64, baseType := some 4 }
    | 4 => .derivedType { tag := .constType, baseType := none }
    | 5 => .basicType { name := "int", sizeInBits := 32, encoding := .signed }

lemma constVoidMember_plainStep {a b : Fin 6} (h : constVoidMember.PlainStep a b) : a < b := by
  fin_cases a <;> simp [DIGraph.PlainStep, constVoidMember] at h <;> subst h <;> decide

def constVoidMemberGraph : RecordGraph (Fin 6) where
  toDIGraph := constVoidMember
  typeRef_isTypeNode n b h := by
    fin_cases n <;> simp [constVoidMember, DINode.typeRef] at h <;> subst h <;> rfl
  array_elements n c h htag := by
    fin_cases n <;> simp [constVoidMember] at h
    subst h
    cases htag
  enum_elements n c h htag := by
    fin_cases n <;> simp [constVoidMember] at h
    subst h
    cases htag
  enum_base n c h htag := by
    fin_cases n <;> simp [constVoidMember] at h
    subst h
    cases htag
  record_elements n c h _ _ := by
    fin_cases n <;> simp [constVoidMember] at h
    subst h
    intro e he
    right
    fin_cases e <;> simp at he <;> exact ⟨_, rfl, rfl⟩
  cycles_pass_records :=
    DIGraph.cyclesPassRecords_of_lt fun _ _ h => constVoidMember_plainStep h

/-- The member `p` is lost: no event fires below `const`, and the metadata of `x` replaces its. -/
theorem not_records_match : ¬ ∀ (G : RecordGraph (Fin 6)) (fuel : ℕ) (n : Fin 6)
    (log : List (MetaData (Fin 6) × QualifiedCompound)),
    finalizedComposites G.toDIGraph fuel n = some log → ∀ r ∈ log, RecordOk G.toDIGraph r := by
  intro h
  have hlog : ((finalizedComposites constVoidMember 8 0).map fun log =>
      log.map fun r => (r.1.type, r.1.isRecurring, r.2.type.members.map Member.name)) =
      some [(some (constVoidMember.node 0), false, ["x"])] := by decide +kernel
  obtain ⟨log, hrun, hlog⟩ := Option.map_eq_some_iff.mp hlog
  obtain ⟨r, rfl, hr⟩ := List.map_eq_singleton_iff.mp hlog
  simp only [Prod.mk.injEq] at hr
  obtain ⟨htype, hrecurring, hnames⟩ := hr
  have hmatches := h constVoidMemberGraph 8 0 [r] hrun r (by simp) _ htype (by decide) hrecurring
  have hmembers := hmatches.names
  rw [hnames] at hmembers
  exact absurd hmembers (by decide)

end Dimeta
