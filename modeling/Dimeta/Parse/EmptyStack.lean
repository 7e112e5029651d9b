import Dimeta.Parse.Pending
import Dimeta.Parse.StackRuns

/-!
# Events without a record

The parse of a member or a base class on its own adds its entry to the record on top of a stack
that is empty: the parser is undefined from then on. Types other than these leave it defined.
-/

set_option autoImplicit false

namespace Dimeta

variable {ι : Type}

/-! ### The parser stays undefined -/

/-- All events keep a property of the receiver. -/
structure DIParseEvents.Keeps {π : Type} (I : π → Prop) (E : DIParseEvents ι π) : Prop where
  makeFundamental : ∀ m p, I p → I (E.makeFundamental m p)
  makeFunctionPtr : ∀ m p, I p → I (E.makeFunctionPtr m p)
  makeVoidPtr : ∀ m p, I p → I (E.makeVoidPtr m p)
  makeString : ∀ m p, I p → I (E.makeString m p)
  makeVtable : ∀ m p, I p → I (E.makeVtable m p)
  makeEnumMember : ∀ m p, I p → I (E.makeEnumMember m p)
  makeComposite : ∀ m p, I p → I (E.makeComposite m p)
  finalizeComposite : ∀ m p, I p → I (E.finalizeComposite m p)

section Keeps

variable {π : Type} {I : π → Prop} {E : DIParseEvents ι π}

lemma DIParseEvents.Keeps.visitCompositeType [DecidableEq ι] (h : E.Keeps I) (n : ι)
    (c : DICompositeType ι) {s : DIEventState ι π} (hs : I s.events) :
    I (DIEventVisitor.visitCompositeType E n c s).events := by
  simp only [DIEventVisitor.visitCompositeType]
  split
  · exact hs
  · exact h.makeComposite _ _ hs

lemma DIParseEvents.Keeps.leaveCompositeType (h : E.Keeps I) (c : DICompositeType ι)
    {s : DIEventState ι π} (hs : I s.events) :
    I (DIEventVisitor.leaveCompositeType E c s).events := by
  simp only [DIEventVisitor.leaveCompositeType]
  split
  · exact hs
  · cases s.stack with
    | nil => exact hs
    | cons m stack => exact h.finalizeComposite m _ hs

/-- What all events keep, the visitor keeps. -/
lemma DIParseEvents.Keeps.visitor [DecidableEq ι] (h : E.Keeps I) :
    DINodeVisitor.Keeps (fun s => I s.events) (DIEventVisitor.visitor E) where
  visitType _ _ hs := hs
  visitNode _ x s hs := by
    cases x with
    | enumerator name =>
      simp only [DIEventVisitor.visitor, DIEventVisitor.visitNode]
      cases s.enumData.enumBase with
      | none => exact hs
      | some b => exact h.makeEnumMember _ _ hs
    | subrange count =>
      cases count with
      | none => exact hs
      | some count =>
        simp only [DIEventVisitor.visitor, DIEventVisitor.visitNode]
        split <;> exact hs
    | subroutineType => exact h.makeFunctionPtr _ _ hs
    | _ => exact hs
  leaveNode _ x _ hs := by cases x <;> exact hs
  visitVariable _ _ hs := hs
  leaveVariable _ _ hs := hs
  visitBasicType _ b s hs := by
    simp only [DIEventVisitor.visitor, DIEventVisitor.visitBasicType]
    split
    · exact hs
    · exact h.makeFundamental _ _ hs
  leaveBasicType _ _ _ hs := hs
  visitStringType _ _ _ hs := h.makeString _ _ hs
  leaveStringType _ _ _ hs := hs
  visitDerivedType _ d s hs := by
    simp only [DIEventVisitor.visitor, DIEventVisitor.visitDerivedType]
    split
    · exact h.makeVoidPtr _ _ hs
    · split
      · exact h.makeVtable _ _ hs
      · exact hs
  leaveDerivedType _ _ _ hs := hs
  visitCompositeType n c _ hs := h.visitCompositeType n c hs
  leaveCompositeType _ c _ hs := h.leaveCompositeType c hs
  visitRecurringCompositeType n c _ hs := h.visitCompositeType n c hs
  leaveRecurringCompositeType _ c _ hs := h.leaveCompositeType c hs

end Keeps

namespace DITypeParser

variable {p : DITypeParser}

lemma undefined_onTop (h : p.undefined = true) (f : CompoundType → CompoundType) :
    (p.onTop f).undefined = true := by
  simp only [onTop]
  split
  · rfl
  · exact h

lemma undefined_emplaceFundamental (h : p.undefined = true) (m : MetaData ι) (name : String)
    (encoding : FundamentalType.Encoding) :
    (p.emplaceFundamental m name encoding).undefined = true := by
  simp only [emplaceFundamental]
  split
  · exact undefined_onTop h _
  · exact h

lemma undefined_withBasic (m : MetaData ι) {f : DIBasicType → DITypeParser}
    (hf : ∀ b, (f b).undefined = true) : (withBasic m p f).undefined = true := by
  simp only [withBasic]
  split
  · exact hf _
  · rfl

lemma keeps_undefined :
    DIParseEvents.Keeps (fun p => p.undefined = true) (events : DIParseEvents ι DITypeParser) where
  makeFundamental m _ h := undefined_withBasic m fun _ => undefined_emplaceFundamental h m _ _
  makeFunctionPtr m _ h := undefined_emplaceFundamental h m _ _
  makeVoidPtr m _ h := undefined_emplaceFundamental h m _ _
  makeString m _ h := undefined_emplaceFundamental h m _ _
  makeVtable m _ h := undefined_emplaceFundamental h m _ _
  makeEnumMember m _ h :=
    undefined_withBasic m fun _ => undefined_onTop (undefined_emplaceFundamental h m _ _) _
  makeComposite m p h := by
    simp only [events, makeComposite]
    split
    · exact h
    · rfl
  finalizeComposite m p h := by
    simp only [events, finalizeComposite]
    split
    · rfl
    · split
      · apply undefined_onTop
        exact h
      · split
        · apply undefined_onTop
          exact h
        · exact h

/-- A member without a record around it. -/
lemma undefined_of_isMember {m : MetaData ι} (hm : m.isMember = true)
    (hstack : p.compositeStack = []) (name : String) (encoding : FundamentalType.Encoding) :
    (p.emplaceFundamental m name encoding).undefined = true := by
  simp only [emplaceFundamental, hm, if_true, emplaceMember, onTop, hstack]

/-- A record that is a member or a base class, without a record around it. -/
lemma undefined_finalizeComposite {m : MetaData ι} (hm : m.isMember = true ∨ m.isBaseClass = true)
    {c : QualifiedCompound} (hstack : p.compositeStack = [c]) :
    (p.finalizeComposite m).undefined = true := by
  simp only [finalizeComposite, hstack]
  cases hmember : m.isMember with
  | true => simp [emplaceMember, onTop]
  | false =>
    have hbase : m.isBaseClass = true := hm.resolve_left (by simp [hmember])
    simp [hbase, onTop]

end DITypeParser

/-! ### Entries without a record -/

section Run

variable [DecidableEq ι] {s : DIEventState ι DITypeParser}

lemma undefined_run_of_undefined (w : Walk ι) (h : s.events.undefined = true) :
    (parserVisitor.run w s).2.events.undefined = true :=
  DITypeParser.keeps_undefined.visitor.run w h

omit [DecidableEq ι] in
/-- Most derived types only write into the metadata. -/
lemma visitDerivedType_of_plain {d : DIDerivedType ι}
    (hvoid : DIEventVisitor.isVoidPointer d = false) (hvtbl : DIEventVisitor.isVtablePtr d = false)
    (s : DIEventState ι DITypeParser) : DIEventVisitor.visitDerivedType DITypeParser.events d s =
      { s with current := s.current.visitDerived d } := by
  simp [DIEventVisitor.visitDerivedType, hvoid, hvtbl]

omit [DecidableEq ι] in
lemma Walk.reachesEvent_of_reachesRecord (w : Walk ι) (h : w.reachesRecord = true) :
    w.reachesEvent = true := by
  match w with
  | .composite _ _ _ _ | .recurring _ _ => rfl
  | .derived n d base =>
    simp only [reachesRecord, Bool.and_eq_true] at h
    rw [reachesEvent, base.reachesEvent_of_reachesRecord h.2, Bool.or_true]
  | .array n c elements base => exact base.reachesEvent_of_reachesRecord h
  | .null | .basic _ _ | .string _ _ | .node _ _ | .skip _ | .var _ _ => cases h

/-- The visit of a composite leaves it in a state with its own metadata and compound on top. -/
lemma exists_run_composite (n : ι) {c : DICompositeType ι} {base : Walk ι}
    {elements : List (Walk ι)} (htag : c.tag ≠ .arrayType) (hbaseTag : base.Tagged)
    (helements : TaggedElements elements) (hreturns : base.returns = true) : ∃ s' es,
      parserVisitor.run (.composite n c base elements) s =
        (true, DIEventVisitor.leaveCompositeType DITypeParser.events c s') ∧
      s'.stack = s.current.visitRecord n c :: s.stack ∧
      s'.events.compositeStack = addTop es (makeQualType (makeCompound c)
        (s.current.visitRecord n c) :: s.events.compositeStack) := by
  set s₁ := DIEventVisitor.visitCompositeType DITypeParser.events n c s with hs₁
  obtain ⟨hret, hruns⟩ := run_parserVisitor base hbaseTag s₁
  rw [hreturns] at hret
  have hpushed : s₁.stack = s.current.visitRecord n c :: s.stack ∧
      s₁.events.compositeStack = makeQualType (makeCompound c) (s.current.visitRecord n c) ::
        s.events.compositeStack := by
    rw [hs₁, visitCompositeType_eq n htag]
    exact ⟨rfl, rfl⟩
  rw [DIEventVisitor.run_composite, ← hs₁]
  cases hr : parserVisitor.run base s₁ with
  | mk ret s₂ =>
    rw [hr] at hret hruns
    obtain rfl : ret = true := hret
    have hruns' := runElements_parserVisitor elements helements s₂
    have hstack := hruns'.stack.trans hruns.stack
    have hcompounds := hruns'.compositeStack
    rw [hruns.compositeStack, ← addTop_append, hpushed.2] at hcompounds
    rw [hpushed.1] at hstack
    exact ⟨_, _, rfl, hstack, hcompounds⟩

/-- The visit of an array writes its subranges into the metadata and goes on to its type. -/
lemma exists_run_array (n : ι) (c : DICompositeType ι) (base : Walk ι) {elements : List (Walk ι)}
    (hsub : AllSubranges elements) (htag : c.tag = .arrayType) (helements : TaggedElements elements)
    (hstack : s.events.compositeStack = []) : ∃ s',
      (parserVisitor.run (.array n c elements base) s).2 = (parserVisitor.run base s').2 ∧
      s'.events.compositeStack = [] ∧ s'.enumData.isEnum = s.enumData.isEnum ∧
      s.current.SameEntry s'.current := by
  have hvisit : DIEventVisitor.visitCompositeType DITypeParser.events n c s =
      { s with current := s.current.visitArray c } := by
    rw [DIEventVisitor.visitCompositeType, if_pos htag]
  have hruns := runElements_parserVisitor elements helements
    (DIEventVisitor.visitCompositeType DITypeParser.events n c s)
  obtain ⟨-, henumData, -, hsame⟩ := parseElements_of_allSubranges hsub
    (DIEventVisitor.visitCompositeType DITypeParser.events n c s).asParse
  rw [hvisit] at hruns henumData hsame
  refine ⟨parserVisitor.runElements elements { s with current := s.current.visitArray c },
    ?_, ?_, ?_, ?_⟩
  · rw [DIEventVisitor.run_array, DIEventVisitor.leaveCompositeType, if_pos htag, hvisit]
  · rw [hruns.compositeStack]
    exact congrArg (addTop _) hstack
  · rw [hruns.enumData, henumData]
    rfl
  · have harray : s.current.SameEntry (s.current.visitArray c) := ⟨rfl, rfl, rfl, rfl, rfl, rfl⟩
    rw [hruns.current]
    exact harray.trans hsame

/-- The entry that the metadata asks for has no record to be added to. -/
lemma undefined_run {G : DIGraph ι} (w : Walk ι) (hw : w.TypeOk G) (htag : w.Tagged)
    {s : DIEventState ι DITypeParser} (hstack : s.events.compositeStack = [])
    (henum : s.enumData.isEnum = false) (hevent : w.reachesEvent = true)
    (hm : s.current.isMember = true ∨ s.current.isBaseClass = true ∧ w.reachesRecord = true) :
    (parserVisitor.run w s).2.events.undefined = true := by
  -- a leaf makes the entry itself; elsewhere what is asked for is handed down to the type below
  match w with
  | .null | .skip _ => cases hevent
  | .basic n b =>
    have hmember := hm.resolve_right (by simp [Walk.reachesRecord])
    have hvisit : (DIEventVisitor.visitBasicType DITypeParser.events b s).events.undefined =
        true := by
      simp only [DIEventVisitor.visitBasicType, henum, Bool.false_eq_true, if_false]
      apply DITypeParser.undefined_of_isMember
      · exact hmember
      · exact hstack
    exact hvisit
  | .string n t =>
    have hmember := hm.resolve_right (by simp [Walk.reachesRecord])
    apply DITypeParser.undefined_of_isMember
    · exact hmember
    · exact hstack
  | .node n x =>
    obtain rfl : x = .subroutineType := hw
    have hmember := hm.resolve_right (by simp [Walk.reachesRecord])
    apply DITypeParser.undefined_of_isMember
    · exact hmember
    · exact hstack
  | .var n type => exact hw.elim
  | .derived n d base =>
    have hsame := MetaData.visitDerived_of_not_isElement hw.1 s.current
    rw [DIEventVisitor.run_derived]
    cases hclear : DIEventVisitor.isVoidPointer d || DIEventVisitor.isVtablePtr d with
    | true =>
      -- the event of a pointer to void or of the vtable fires here
      have hmember : (s.current.visitDerived d).isMember = true :=
        hsame.isMember.trans (hm.resolve_right (by simp [Walk.reachesRecord, hclear]))
      apply undefined_run_of_undefined
      simp only [DIEventVisitor.visitDerivedType]
      split
      · apply DITypeParser.undefined_of_isMember
        · exact hmember
        · exact hstack
      · next hvoid =>
        rw [if_pos (by simpa [hvoid] using hclear)]
        apply DITypeParser.undefined_of_isMember
        · exact hmember
        · exact hstack
    | false =>
      -- the metadata are handed on, as the node is no element
      obtain ⟨hvoid, hvtbl⟩ := Bool.or_eq_false_iff.mp hclear
      rw [visitDerivedType_of_plain hvoid hvtbl]
      refine undefined_run base hw.2 htag hstack henum ?_ ?_
      · simpa [Walk.reachesEvent, hvoid, hvtbl] using hevent
      · refine hm.imp hsame.isMember.trans fun hbase => ⟨hsame.isBaseClass.trans hbase.1, ?_⟩
        simpa [Walk.reachesRecord, hvoid, hvtbl] using hbase.2
  | .array n c elements base =>
    obtain ⟨hsub, hbase⟩ := hw
    obtain ⟨htagged, helements, hbaseTag⟩ := htag
    obtain ⟨s', hrun, hempty, henum', hsame⟩ :=
      exists_run_array n c base hsub htagged helements hstack
    rw [hrun]
    apply undefined_run base hbase hbaseTag hempty (henum'.trans henum) hevent
    exact hm.imp hsame.isMember.trans (And.imp_left hsame.isBaseClass.trans)
  | .composite n c base elements =>
    -- a record pushes its own entry, which is gone when the record is added to the one around it
    obtain ⟨htagged, hbaseTag, helements⟩ := htag
    obtain ⟨s', es, hrun, hmetas, hcompounds⟩ := exists_run_composite (s := s) n htagged hbaseTag
      helements (base.returns_of_typeOk hw.1)
    rw [hstack] at hcompounds
    rw [hrun, DIEventVisitor.leaveCompositeType, if_neg htagged, hmetas]
    exact DITypeParser.undefined_finalizeComposite (hm.imp id And.left) hcompounds
  | .recurring n c =>
    have hpushed := visitCompositeType_eq n htag { s with current.isRecurring := true }
    have hrun : parserVisitor.run (.recurring n c) s = (true,
        DIEventVisitor.leaveCompositeType DITypeParser.events c
          (DIEventVisitor.visitCompositeType DITypeParser.events n c
            { s with current.isRecurring := true })) := rfl
    rw [hrun, hpushed, DIEventVisitor.leaveCompositeType, if_neg htag]
    apply DITypeParser.undefined_finalizeComposite
    · exact hm.imp id And.left
    · exact congrArg (_ :: ·) hstack

/-! ### Whole parses -/

/-- No event of the parse of `n` is about a record on an empty stack. -/
def ParseDefined (G : DIGraph ι) (fuel : ℕ) (n : ι) : Prop :=
  ∀ s, diparserVisitNode DITypeParser.events G fuel n {} = some s → s.events.undefined = false

lemma parseDefined_iff {G : DIGraph ι} {fuel : ℕ} {n : ι} {w : Walk ι}
    (h : G.walk fuel ∅ n = some w) (hn : (G.node n).isType = true) :
    ParseDefined G fuel n ↔
      (parserVisitor.run w { events := {} }).2.events.undefined = false := by
  have hrun := parserVisitor.traverseNode_eq_run h (by rw [hn, Bool.or_true]) (fun _ _ => rfl)
    { events := {} }
  simp [ParseDefined, diparserVisitNode, hrun]

omit [DecidableEq ι] in
lemma traces_start {G : DIGraph ι} : Traces (CompoundType.Ok G False) { events := {} }
    (({ events := {} } : DIEventState ι DITypeParser), []) :=
  ⟨rfl, stacksOk_start, fun s hs => by cases hs⟩

/-- The parse of a type that is neither a member nor a base class is defined. -/
lemma RecordGraph.parseDefined_of_type (G : RecordGraph ι) {fuel : ℕ} {n : ι} {w : Walk ι}
    (h : G.walk fuel ∅ n = some w) (hn : (G.node n).isTypeNode = true) :
    ParseDefined G.toDIGraph fuel n := by
  simp only [DINode.isTypeNode, Bool.and_eq_true] at hn
  rw [parseDefined_iff h hn.1]
  have htraces := G.traces_of_walk h (by rw [hn.1, Bool.or_true]) (fun d hd => ?_) False.elim
    traces_start
  · exact htraces.here.eventsDefined
  · simpa [hd, DINode.asDerived] using hn.2

/-- The parse of a member on its own is undefined exactly if an event fires on its chain. -/
lemma RecordGraph.parseDefined_of_member (G : RecordGraph ι) {fuel : ℕ} {n : ι} {w : Walk ι}
    {d : DIDerivedType ι} (h : G.walk fuel ∅ n = some w) (hn : G.node n = .derivedType d)
    (hd : d.isMemberNode = true) :
    ParseDefined G.toDIGraph fuel n ↔ w.reachesEvent = false := by
  have htag := DIGraph.tagged_of_walk (by simp [DIGraph.OpenRecords]) h
  have hin := compositesIn_of_walk h
  have hok := (G.walk_ok fuel ∅).2 n (.inr ⟨d, hn, by simp [DIDerivedType.isElement, hd]⟩) w h
  rw [parseDefined_iff h (by rw [hn]; rfl)]
  obtain ⟨fuel, rfl⟩ := DIGraph.exists_fuel_of_walk h
  obtain ⟨base, rfl, -⟩ := DIGraph.walk_derived hn h
  have hvoid := not_isVoidPointer_of_isElement hok.1
  have hmember : (({} : MetaData ι).visitDerived d).isMember = true := by
    rw [MetaData.visitDerived_of_isMemberNode hd]
    rfl
  rw [DIEventVisitor.run_derived]
  constructor
  · intro hdefined
    by_contra hevent
    rw [Bool.not_eq_false] at hevent
    refine absurd hdefined (Bool.not_eq_false _ ▸ ?_)
    cases hvtbl : DIEventVisitor.isVtablePtr d with
    | true =>
      apply undefined_run_of_undefined
      simp only [DIEventVisitor.visitDerivedType, hvoid, hvtbl, Bool.false_eq_true, if_false,
        if_true]
      apply DITypeParser.undefined_of_isMember
      · exact hmember
      · rfl
    | false =>
      rw [visitDerivedType_of_plain hvoid hvtbl]
      refine undefined_run base hok.2 htag rfl rfl ?_ (.inl hmember)
      simpa [Walk.reachesEvent, hvoid, hvtbl] using hevent
  · intro hevent
    simp only [Walk.reachesEvent, Bool.or_eq_false_iff] at hevent
    obtain ⟨⟨-, hvtbl⟩, hevent⟩ := hevent
    have hstart : Traces (CompoundType.Ok G.toDIGraph False)
        { events := {}, current := ({} : MetaData ι).visitDerived d }
        (({ events := {}, current := ({} : MetaData ι).visitDerived d } :
          DIEventState ι DITypeParser), []) :=
      ⟨rfl, stacksOk_start.setCurrent _, fun s hs => by cases hs⟩
    rw [visitDerivedType_of_plain hvoid hvtbl]
    have htraces := hstart.run base hok.2 htag hin False.elim fun h => absurd h (by simp [hevent])
    exact htraces.here.eventsDefined

/-- The parse of a base class that is a record, on its own, is undefined. -/
lemma RecordGraph.not_parseDefined_of_base (G : RecordGraph ι) {fuel : ℕ} {n : ι} {w : Walk ι}
    {d : DIDerivedType ι} (h : G.walk fuel ∅ n = some w) (hn : G.node n = .derivedType d)
    (hd : d.tag = .inheritance) (hrecord : w.reachesRecord = true) :
    ¬ ParseDefined G.toDIGraph fuel n := by
  have htag := DIGraph.tagged_of_walk (by simp [DIGraph.OpenRecords]) h
  have hok := (G.walk_ok fuel ∅).2 n (.inr ⟨d, hn, by simp [DIDerivedType.isElement, hd]⟩) w h
  rw [parseDefined_iff h (by rw [hn]; rfl), Bool.not_eq_false]
  obtain ⟨fuel, rfl⟩ := DIGraph.exists_fuel_of_walk h
  obtain ⟨base, rfl, -⟩ := DIGraph.walk_derived hn h
  simp only [Walk.reachesRecord, Bool.and_eq_true, Bool.not_eq_true', Bool.or_eq_false_iff]
    at hrecord
  obtain ⟨⟨hvoid, hvtbl⟩, hrecord⟩ := hrecord
  have hbase : (({} : MetaData ι).visitDerived d).isBaseClass = true := by
    simp [MetaData.visitDerived, hd]
  rw [DIEventVisitor.run_derived, visitDerivedType_of_plain hvoid hvtbl]
  exact undefined_run base hok.2 htag rfl rfl (base.reachesEvent_of_reachesRecord hrecord)
    (.inr ⟨hbase, hrecord⟩)

end Run

end Dimeta
