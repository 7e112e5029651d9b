import Dimeta.DI.Walk
import Dimeta.Parse.TypeParser

/-!
# The parse as a recursion

The parser drives two stacks by the events of a visitor. Over the tree of a traversal the same
parse is a recursion without stacks: every walk adds entries to the composite around it, and a
composite is made of the entries of its base type and its elements. `runWalk_refines` ties the two.
-/

set_option autoImplicit false

namespace Dimeta

variable {ι : Type}

/-! ### Entries of a composite -/

/-- What a walk adds to the composite around it. -/
inductive Entry where
  | member (name : String) (offset size : UInt64) (type : QualifiedType)
  | staticMember (name : String) (type : QualifiedType)
  | base (base : BaseClass)
  | truncateEnum

def CompoundType.add (c : CompoundType) : Entry → CompoundType
  | .member name offset size type =>
    { c with
      offsets := c.offsets ++ [offset]
      sizes := c.sizes ++ [size]
      members := c.members ++ [⟨name, type⟩] }
  | .staticMember name type => { c with staticMembers := c.staticMembers ++ [⟨name, type⟩] }
  | .base b                 => c.emplaceBase b
  | .truncateEnum           => c.truncateEnum

def CompoundType.addAll (c : CompoundType) (es : List Entry) : CompoundType := es.foldl add c

@[simp] lemma CompoundType.addAll_nil (c : CompoundType) : c.addAll [] = c := rfl

@[simp] lemma CompoundType.addAll_append (c : CompoundType) (es es' : List Entry) :
    c.addAll (es ++ es') = (c.addAll es).addAll es' := List.foldl_append

@[simp] lemma CompoundType.addAll_singleton (c : CompoundType) (e : Entry) :
    c.addAll [e] = c.add e := rfl

/-- The entry for a type whose metadata says that it is a member. -/
def Entry.ofMember (type : QualifiedType) (m : MetaData ι) : Entry :=
  if m.isMemberStatic then .staticMember m.memberName type
  else .member m.memberName m.memberOffset m.memberSize type

lemma CompoundType.emplaceMember_eq_add (c : CompoundType) (type : QualifiedType)
    (m : MetaData ι) : c.emplaceMember type m = c.add (.ofMember type m) := by
  simp only [emplaceMember, Entry.ofMember]
  split <;> rfl

/-! ### The recursive parse -/

/-- The state of a parse inside one composite: the metadata, the entries made so far, the last
free-standing type and the composites finalized below. -/
structure Parse (ι : Type) where
  current : MetaData ι := {}
  enumData : EnumMeta := {}
  entries : List Entry := []
  result : QualifiedType := default
  finalized : List (MetaData ι × QualifiedCompound) := []

namespace Parse

/-- A type becomes a member if the metadata says so, and is free-standing otherwise. -/
def emit (type : QualifiedType) (m : MetaData ι) (p : Parse ι) : Parse ι :=
  if m.isMember then { p with entries := p.entries ++ [.ofMember type m] }
  else { p with result := type }

def emitFundamental (name : String) (encoding : FundamentalType.Encoding) (p : Parse ι) :
    Parse ι :=
  p.emit (.fundamental (makeQualifiedFundamental p.current name encoding)) p.current

def clearCurrent (p : Parse ι) : Parse ι := { p with current := {} }

def basic (b : DIBasicType) (p : Parse ι) : Parse ι :=
  let p := { p with current.type := some (.basicType b) }
  let p :=
    if p.enumData.isEnum then { p with enumData.enumBase := some b }
    else p.emitFundamental b.name (if "nullptr".toList <:+: b.name.toList then .kNullptr
      else dwarf2encoding b.encoding)
  p.clearCurrent

def string (t : DIStringType) (p : Parse ι) : Parse ι :=
  let p := { p with current.type := some (.stringType t) }
  (p.emitFundamental (if t.name.isEmpty then "character" else t.name) .kString).clearCurrent

def derived (d : DIDerivedType ι) (p : Parse ι) : Parse ι :=
  let p := { p with current := p.current.visitDerived d }
  if DIEventVisitor.isVoidPointer d then
    let p := { p with current.type := some (.derivedType d), current.isVoidPtr := true }
    (p.emitFundamental "void" .kVoid).clearCurrent
  else if DIEventVisitor.isVtablePtr d then
    let p := { p with current.type := some (.derivedType d) }
    (p.emitFundamental d.name .kVtablePtr).clearCurrent
  else p

def node (node : DINode ι) (p : Parse ι) : Parse ι :=
  match node with
  | .enumerator name =>
    match p.enumData.enumBase with
    | none      => p
    | some base =>
      let p := { p with current := p.current.visitEnumerator name base }
      let p := p.emitFundamental base.name (dwarf2encoding base.encoding)
      { p with entries := p.entries ++ [.truncateEnum] }
  | .subrange (some count) =>
    if p.current.arrays = [] then p else { p with current := p.current.visitSubrange count }
  | .subroutineType =>
    let p := { p with current.type := some .subroutineType }
    (p.emitFundamental "" .kFunctionPtr).clearCurrent
  | _ => p

/-- The state in which the base type and the elements of a composite are parsed. -/
def enter (c : DICompositeType ι) (p : Parse ι) : Parse ι :=
  { current := {}
    enumData := { p.enumData with isEnum := decide (c.tag = DwTag.enumerationType) }
    entries := []
    result := p.result
    finalized := p.finalized }

/-- Leave a composite with metadata `m`, after `inner` was parsed in it. -/
def leave (m : MetaData ι) (c : DICompositeType ι) (p inner : Parse ι) : Parse ι :=
  let compound := makeQualType (makeCompound c) m
  let compound := { compound with type := compound.type.addAll inner.entries }
  let p := { inner with
    entries := p.entries, enumData := {}, finalized := inner.finalized ++ [(m, compound)] }
  if m.isMember then { p with entries := p.entries ++ [.ofMember (.compound compound) m] }
  else if m.isBaseClass then
    { p with entries := p.entries ++ [.base (makeBase compound m.memberOffset)] }
  else { p with result := .compound compound }

end Parse

/-- The visit of a walk that no callback cuts short returns false only where a chain ends in a
node that has no visit. -/
def Walk.returns : Walk ι → Bool
  | .null | .basic _ _ | .string _ _ | .node _ _ | .recurring _ _ => true
  | .var _ type => type.returns
  | .derived _ _ base | .array _ _ _ base | .composite _ _ base _ => base.returns
  | .skip _ => false

section Parse

variable [DecidableEq ι]

mutual
def parse : Walk ι → Parse ι → Parse ι
  | .null, p                      => p
  | .basic _ b, p                 => p.basic b
  | .string _ t, p                => p.string t
  | .node _ node, p               => p.node node
  | .var _ type, p                => parse type p
  | .derived _ d base, p          => parse base (p.derived d)
  | .array _ c elements base, p   =>
    parse base (parseElements elements { p with current := p.current.visitArray c })
  | .composite n c base elements, p =>
    let inner := parse base (p.enter c)
    let inner := if base.returns then parseElements elements inner else inner
    p.leave (p.current.visitRecord n c) c inner
  | .recurring n c, p             =>
    p.leave ({ p.current with isRecurring := true }.visitRecord n c) c (p.enter c)
  | .skip _, p                    => p

def parseElements : List (Walk ι) → Parse ι → Parse ι
  | [], p      => p
  | w :: ws, p => parseElements ws (parse w p)
end

end Parse

/-! ### The finalized composites of a parse -/

/-- A type parser with the composites it finalized, in order. -/
abbrev LoggedParser (ι : Type) := DITypeParser × List (MetaData ι × QualifiedCompound)

/-- The events of the type parser, with every finalized composite recorded beside its metadata. -/
def DITypeParser.loggedEvents : DIParseEvents ι (LoggedParser ι) where
  makeFundamental m p := (p.1.makeFundamental m, p.2)
  makeFunctionPtr m p := (p.1.makeFunctionPtr m, p.2)
  makeVoidPtr m p := (p.1.makeVoidPtr m, p.2)
  makeString m p := (p.1.makeString m, p.2)
  makeVtable m p := (p.1.makeVtable m, p.2)
  makeEnumMember m p := (p.1.makeEnumMember m, p.2)
  makeComposite m p := (p.1.makeComposite m, p.2)
  finalizeComposite m p :=
    (p.1.finalizeComposite m, p.2 ++ (p.1.compositeStack.head?.map fun c => (m, c)).toList)

/-! ### The stacks refine the recursion -/

/-- A compound stack whose top got some entries. -/
def addTop (es : List Entry) : List QualifiedCompound → List QualifiedCompound
  | []      => []
  | c :: cs => { c with type := c.type.addAll es } :: cs

@[simp] lemma addTop_nil (cs : List QualifiedCompound) : addTop [] cs = cs := by
  cases cs <;> rfl

lemma addTop_append (es es' : List Entry) (cs : List QualifiedCompound) :
    addTop (es ++ es') cs = addTop es' (addTop es cs) := by
  cases cs <;> simp [addTop]

/-- The machine is in the state of the recursion `p`, with visitor stack `S` and, below the entries
of `p`, composite stack `cs`. -/
def Refines (S : List (MetaData ι)) (cs : List QualifiedCompound)
    (s : DIEventState ι (LoggedParser ι)) (p : Parse ι) : Prop :=
  ∃ u v, s = ⟨p.current, S, p.enumData, (⟨p.result, addTop p.entries cs, u⟩, p.finalized), v⟩

namespace Refines

variable {S : List (MetaData ι)} {cs : List QualifiedCompound}
  {s : DIEventState ι (LoggedParser ι)} {p : Parse ι}

lemma setCurrent (h : Refines S cs s p) (m : MetaData ι) :
    Refines S cs { s with current := m } { p with current := m } := by
  obtain ⟨u, v, rfl⟩ := h
  exact ⟨u, v, rfl⟩

lemma current_eq (h : Refines S cs s p) : s.current = p.current := by
  obtain ⟨u, v, rfl⟩ := h
  rfl

/-- An entry for the composite on top of the stack. -/
lemma onTop (h : Refines S cs s p) (e : Entry) {f : CompoundType → CompoundType}
    (hf : ∀ c, f c = c.add e) :
    Refines S cs { s with events := (s.events.1.onTop f, s.events.2) }
      { p with entries := p.entries ++ [e] } := by
  obtain ⟨u, v, rfl⟩ := h
  cases cs with
  | nil => exact ⟨true, v, rfl⟩
  | cons c cs => exact ⟨u, v, by simp [DITypeParser.onTop, addTop, hf]⟩

lemma emplaceMember (h : Refines S cs s p) (type : QualifiedType) (m : MetaData ι) :
    Refines S cs { s with events := (s.events.1.emplaceMember type m, s.events.2) }
      { p with entries := p.entries ++ [.ofMember type m] } :=
  h.onTop _ fun c => c.emplaceMember_eq_add type m

lemma emplaceFundamental (h : Refines S cs s p) (name : String)
    (encoding : FundamentalType.Encoding) :
    Refines S cs
      { s with events := (s.events.1.emplaceFundamental p.current name encoding, s.events.2) }
      (p.emitFundamental name encoding) := by
  simp only [DITypeParser.emplaceFundamental, Parse.emitFundamental, Parse.emit]
  split
  · exact h.emplaceMember _ _
  · obtain ⟨u, v, rfl⟩ := h
    exact ⟨u, v, rfl⟩

lemma basic (h : Refines S cs s p) (b : DIBasicType) :
    Refines S cs (DIEventVisitor.clearCurrent
      (DIEventVisitor.visitBasicType DITypeParser.loggedEvents b s)) (p.basic b) := by
  have hc := h.setCurrent { p.current with type := some (.basicType b) }
  obtain ⟨u, v, rfl⟩ := h
  simp only [DIEventVisitor.visitBasicType, Parse.basic]
  split
  · exact ⟨u, v, rfl⟩
  · exact (hc.emplaceFundamental _ _).setCurrent {}

lemma string (h : Refines S cs s p) (t : DIStringType) :
    Refines S cs (DIEventVisitor.clearCurrent
      (DIEventVisitor.visitStringType DITypeParser.loggedEvents t s)) (p.string t) := by
  have hc := h.setCurrent { p.current with type := some (.stringType t) }
  obtain ⟨u, v, rfl⟩ := h
  exact (hc.emplaceFundamental _ _).setCurrent {}

lemma derived (h : Refines S cs s p) (d : DIDerivedType ι) :
    Refines S cs (DIEventVisitor.visitDerivedType DITypeParser.loggedEvents d s)
      (p.derived d) := by
  have hc := h.setCurrent (p.current.visitDerived d)
  obtain ⟨u, v, rfl⟩ := h
  simp only [DIEventVisitor.visitDerivedType, Parse.derived]
  split
  · exact ((hc.setCurrent _).emplaceFundamental _ _).setCurrent {}
  · split
    · exact ((hc.setCurrent _).emplaceFundamental _ _).setCurrent {}
    · exact hc

lemma node (h : Refines S cs s p) (node : DINode ι) :
    Refines S cs (DIEventVisitor.leaveNode node
      (DIEventVisitor.visitNode DITypeParser.loggedEvents node s)) (p.node node) := by
  have hc := fun m => h.setCurrent m
  obtain ⟨u, v, rfl⟩ := h
  cases node with
  | enumerator name =>
    simp only [DIEventVisitor.visitNode, DIEventVisitor.leaveNode, Parse.node]
    cases p.enumData.enumBase with
    | none => exact ⟨u, true, rfl⟩
    | some base =>
      have hmember := (hc (p.current.visitEnumerator name base)).emplaceFundamental base.name
        (dwarf2encoding base.encoding)
      exact hmember.onTop .truncateEnum fun _ => rfl
  | subrange count =>
    cases count with
    | none => exact ⟨u, v, rfl⟩
    | some count =>
      simp only [DIEventVisitor.visitNode, Parse.node]
      split
      · exact ⟨u, true, rfl⟩
      · exact hc _
  | subroutineType => exact ((hc _).emplaceFundamental _ _).setCurrent {}
  | _ => exact ⟨u, v, rfl⟩

variable [DecidableEq ι]

/-- Opening a composite that is no array puts its metadata and its compound on the stacks. -/
lemma enter (h : Refines S cs s p) {c : DICompositeType ι} (htag : c.tag ≠ .arrayType) (n : ι) :
    Refines (p.current.visitRecord n c :: S)
      (makeQualType (makeCompound c) (p.current.visitRecord n c) :: addTop p.entries cs)
      (DIEventVisitor.visitCompositeType DITypeParser.loggedEvents n c s) (p.enter c) := by
  obtain ⟨u, v, rfl⟩ := h
  refine ⟨u, v, ?_⟩
  simp [DIEventVisitor.visitCompositeType, htag, DITypeParser.loggedEvents,
    DITypeParser.makeComposite, DIEventVisitor.clearCurrent, Parse.enter, addTop,
    MetaData.visitRecord]

omit [DecidableEq ι] in
/-- Leaving it turns the compound into an entry of the one below, or into the result. -/
lemma leave {inner : Parse ι} {c : DICompositeType ι} {m : MetaData ι} (htag : c.tag ≠ .arrayType)
    (h : Refines (m :: S) (makeQualType (makeCompound c) m :: addTop p.entries cs) s inner) :
    Refines S cs (DIEventVisitor.leaveCompositeType DITypeParser.loggedEvents c s)
      (p.leave m c inner) := by
  obtain ⟨u, v, rfl⟩ := h
  have hpop : Refines S cs
      ⟨inner.current, S, {}, (⟨inner.result, addTop p.entries cs, u⟩, inner.finalized ++ [(m,
        { makeQualType (makeCompound c) m with
          type := (makeQualType (makeCompound c) m).type.addAll inner.entries })]), v⟩
      { inner with
        entries := p.entries, enumData := {}, finalized := inner.finalized ++ [(m,
          { makeQualType (makeCompound c) m with
            type := (makeQualType (makeCompound c) m).type.addAll inner.entries })] } :=
    ⟨u, v, rfl⟩
  simp only [DIEventVisitor.leaveCompositeType, if_neg htag, DITypeParser.loggedEvents,
    DITypeParser.finalizeComposite, addTop, Parse.leave, List.head?_cons, Option.map_some,
    Option.toList_some]
  split
  · exact hpop.emplaceMember _ _
  · split
    · exact hpop.onTop _ fun _ => rfl
    · exact ⟨u, v, rfl⟩

end Refines

/-! ### Running the event visitor -/

section Run

variable {π : Type} [DecidableEq ι] (E : DIParseEvents ι π)

namespace DIEventVisitor

/-- Types are always visited. -/
lemma runType_eq (w : Walk ι) (s : DIEventState ι π) :
    (visitor E).runType w.root ((visitor E).run w) s = (visitor E).run w s := by
  cases w <;> rfl

lemma run_var (n : ι) (type : Walk ι) (s : DIEventState ι π) :
    (visitor E).run (.var n type) s = (visitor E).run type s := by
  simp only [DINodeVisitor.run]
  exact runType_eq E type s

lemma run_derived (n : ι) (d : DIDerivedType ι) (base : Walk ι) (s : DIEventState ι π) :
    (visitor E).run (.derived n d base) s = (visitor E).run base (visitDerivedType E d s) := by
  simp only [DINodeVisitor.run]
  exact runType_eq E base _

lemma run_array (n : ι) (c : DICompositeType ι) (elements : List (Walk ι)) (base : Walk ι)
    (s : DIEventState ι π) :
    (visitor E).run (.array n c elements base) s =
      (((visitor E).run base
          ((visitor E).runElements elements (visitCompositeType E n c s))).1,
        leaveCompositeType E c ((visitor E).run base
          ((visitor E).runElements elements (visitCompositeType E n c s))).2) := by
  simp only [DINodeVisitor.run, runType_eq]
  rfl

lemma run_composite (n : ι) (c : DICompositeType ι) (base : Walk ι) (elements : List (Walk ι))
    (s : DIEventState ι π) :
    (visitor E).run (.composite n c base elements) s =
      match (visitor E).run base (visitCompositeType E n c s) with
      | (false, s) => (false, leaveCompositeType E c s)
      | (true, s)  => (true, leaveCompositeType E c ((visitor E).runElements elements s)) := by
  have hvisit : (visitor E).visitCompositeType n c s = (true, visitCompositeType E n c s) := rfl
  simp only [DINodeVisitor.run, runType_eq, hvisit]
  cases (visitor E).run base (visitCompositeType E n c s) with
  | mk ret s => cases ret <;> rfl

end DIEventVisitor

/-! ### The whole parse -/

abbrev loggedVisitor : DINodeVisitor ι (DIEventState ι (LoggedParser ι)) :=
  DIEventVisitor.visitor DITypeParser.loggedEvents

lemma Refines.array {S : List (MetaData ι)} {cs : List QualifiedCompound}
    {s : DIEventState ι (LoggedParser ι)} {p : Parse ι} (h : Refines S cs s p)
    {c : DICompositeType ι} (htag : c.tag = .arrayType) (n : ι) :
    Refines S cs (DIEventVisitor.visitCompositeType DITypeParser.loggedEvents n c s)
      { p with current := p.current.visitArray c } := by
  simp only [DIEventVisitor.visitCompositeType, if_pos htag, h.current_eq]
  exact h.setCurrent _

mutual
/-- The machine does over a walk what the recursion does, and leaves the stacks below alone. -/
theorem run_refines (w : Walk ι) (hw : w.Tagged) {S : List (MetaData ι)}
    {cs : List QualifiedCompound} {s : DIEventState ι (LoggedParser ι)} {p : Parse ι}
    (h : Refines S cs s p) :
    (loggedVisitor.run w s).1 = w.returns ∧
      Refines S cs (loggedVisitor.run w s).2 (parse w p) := by
  match w with
  | .null => exact ⟨rfl, h⟩
  | .basic n b => exact ⟨rfl, h.basic b⟩
  | .string n t => exact ⟨rfl, h.string t⟩
  | .node n node => exact ⟨rfl, h.node node⟩
  | .var n type =>
    rw [DIEventVisitor.run_var]
    exact run_refines type hw h
  | .derived n d base =>
    rw [DIEventVisitor.run_derived]
    exact run_refines base hw (h.derived d)
  | .array n c elements base =>
    obtain ⟨htag, helements, hbase⟩ := hw
    rw [DIEventVisitor.run_array, DIEventVisitor.leaveCompositeType, if_pos htag]
    exact run_refines base hbase (runElements_refines elements helements (h.array htag n))
  | .composite n c base elements =>
    obtain ⟨htag, hbase, helements⟩ := hw
    obtain ⟨hret, hinner⟩ := run_refines base hbase (h.enter htag n)
    rw [DIEventVisitor.run_composite]
    cases hrun : loggedVisitor.run base
      (DIEventVisitor.visitCompositeType DITypeParser.loggedEvents n c s) with
    | mk ret st =>
      rw [hrun] at hret hinner
      simp only [Walk.returns, parse, ← hret]
      cases ret with
      | false => exact ⟨rfl, hinner.leave htag⟩
      | true => exact ⟨rfl, (runElements_refines elements helements hinner).leave htag⟩
  | .recurring n c =>
    have hrecurring := h.setCurrent { p.current with isRecurring := true }
    refine ⟨rfl, ?_⟩
    simp only [DINodeVisitor.run, DIEventVisitor.visitor, h.current_eq, parse]
    exact (hrecurring.enter hw n).leave hw
  | .skip n => exact ⟨rfl, h⟩

theorem runElements_refines (ws : List (Walk ι)) (hws : TaggedElements ws)
    {S : List (MetaData ι)} {cs : List QualifiedCompound}
    {s : DIEventState ι (LoggedParser ι)} {p : Parse ι} (h : Refines S cs s p) :
    Refines S cs (loggedVisitor.runElements ws s) (parseElements ws p) := by
  match ws with
  | [] => exact h
  | w :: ws => exact runElements_refines ws hws.2 (run_refines w hws.1 h).2
end

/-- The composites that `make_dimetadata` finalizes, each beside its metadata. -/
def finalizedComposites (G : DIGraph ι) (fuel : ℕ) (n : ι) :
    Option (List (MetaData ι × QualifiedCompound)) :=
  if !((G.node n).isVariable || (G.node n).isType) then some []
  else (diparserVisitNode DITypeParser.loggedEvents G fuel n ({}, [])).map fun s => s.events.2

/-- Recording the finalized composites changes nothing else. -/
lemma commutes_loggedEvents :
    DINodeVisitor.Commutes (fun s : DIEventState ι (LoggedParser ι) => { s with events := s.events.1 })
      loggedVisitor (DIEventVisitor.visitor DITypeParser.events) where
  visitType _ _ := rfl
  visitNode _ x s := by
    cases x with
    | enumerator name =>
      simp only [DIEventVisitor.visitor, DIEventVisitor.visitNode]
      cases s.enumData.enumBase <;> rfl
    | subrange count =>
      cases count with
      | none => rfl
      | some count =>
        simp only [DIEventVisitor.visitor, DIEventVisitor.visitNode]
        split <;> rfl
    | _ => rfl
  leaveNode _ x s := by cases x <;> rfl
  visitVariable _ _ := rfl
  leaveVariable _ _ := rfl
  visitBasicType _ b s := by
    simp only [DIEventVisitor.visitor, DIEventVisitor.visitBasicType]
    split <;> rfl
  leaveBasicType _ _ _ := rfl
  visitStringType _ _ _ := rfl
  leaveStringType _ _ _ := rfl
  visitDerivedType _ d s := by
    simp only [DIEventVisitor.visitor, DIEventVisitor.visitDerivedType]
    split
    · rfl
    · split <;> rfl
  leaveDerivedType _ _ _ := rfl
  visitCompositeType _ c s := by
    simp only [DIEventVisitor.visitor, DIEventVisitor.visitCompositeType]
    split <;> rfl
  leaveCompositeType _ c s := by
    simp only [DIEventVisitor.visitor, DIEventVisitor.leaveCompositeType]
    split
    · rfl
    · cases s.stack <;> rfl
  visitRecurringCompositeType _ c s := by
    simp only [DIEventVisitor.visitor, DIEventVisitor.visitCompositeType]
    split <;> rfl
  leaveRecurringCompositeType _ c s := by
    simp only [DIEventVisitor.visitor, DIEventVisitor.leaveCompositeType]
    split
    · rfl
    · cases s.stack <;> rfl

variable {G : DIGraph ι} {fuel : ℕ} {n : ι} {w : Walk ι}

omit [DecidableEq ι] in
lemma refines_init : Refines [] [] { events := (({} : DITypeParser), []) } ({} : Parse ι) :=
  ⟨false, false, rfl⟩

/-- The finalized composites of a parse are those of the recursion over the tree. -/
theorem finalizedComposites_eq (h : G.walk fuel ∅ n = some w)
    (hn : ((G.node n).isVariable || (G.node n).isType) = true) :
    finalizedComposites G fuel n = some (parse w {}).finalized := by
  have htagged := DIGraph.tagged_of_walk (by simp [DIGraph.OpenRecords]) h
  obtain ⟨u, v, hrun⟩ := (run_refines w htagged refines_init).2
  simp [finalizedComposites, hn, diparserVisitNode,
    loggedVisitor.traverseNode_eq_run h hn (fun _ _ => rfl), hrun]

/-- The parsed type is the result of the recursion over the tree. -/
theorem makeDimetadata_eq (h : G.walk fuel ∅ n = some w)
    (hn : ((G.node n).isVariable || (G.node n).isType) = true) :
    makeDimetadata G fuel n = some (some (parse w {}).result) := by
  have htagged := DIGraph.tagged_of_walk (by simp [DIGraph.OpenRecords]) h
  obtain ⟨u, v, hrun⟩ := (run_refines w htagged refines_init).2
  have hcomm := commutes_loggedEvents.run w { events := (({} : DITypeParser), []) }
  simp only at hcomm
  simp [makeDimetadata, hn, diparserVisitNode,
    (DIEventVisitor.visitor DITypeParser.events).traverseNode_eq_run h hn (fun _ _ => rfl), hcomm,
    hrun]

end Run

end Dimeta
