import Dimeta.Parse.Independence
import Dimeta.Parse.Stacks

/-!
# Runs of the parser

Over a whole traversal every state has consistent stacks and lists. The induction follows the tree:
a type is visited when the entry that its metadata asks for may be added to the record on top of
the stack, and the elements of a record when there is room for the entries of all that are left.
-/

set_option autoImplicit false

namespace Dimeta

variable {ι : Type}

/-! ### The parser as the recursive parse -/

section Run

variable [DecidableEq ι]

/-- The state as the recursive parse sees it, without entries. -/
def DIEventState.asParse (s : DIEventState ι DITypeParser) : Parse ι where
  current := s.current
  enumData := s.enumData
  result := s.events.result

/-- The parser went from `s` to `s'` as the recursive parse went to `p`. -/
structure DIEventState.RunsTo (s s' : DIEventState ι DITypeParser) (p : Parse ι) : Prop where
  current : s'.current = p.current
  enumData : s'.enumData = p.enumData
  stack : s'.stack = s.stack
  compositeStack : s'.events.compositeStack = addTop p.entries s.events.compositeStack
  result : s'.events.result = p.result

omit [DecidableEq ι] in
lemma refines_asParse (s : DIEventState ι DITypeParser) :
    Refines s.stack s.events.compositeStack
      { current := s.current, stack := s.stack, enumData := s.enumData, events := (s.events, []),
        undefined := s.undefined } s.asParse :=
  ⟨s.events.undefined, s.undefined, by simp [DIEventState.asParse]⟩

omit [DecidableEq ι] in
lemma runsTo_of_refines {s : DIEventState ι DITypeParser}
    {s' : DIEventState ι (LoggedParser ι)} {p : Parse ι}
    (h : Refines s.stack s.events.compositeStack s' p) :
    s.RunsTo { s' with events := s'.events.1 } p := by
  obtain ⟨u, v, rfl⟩ := h
  exact ⟨rfl, rfl, rfl, rfl, rfl⟩

lemma run_parserVisitor (w : Walk ι) (hw : w.Tagged) (s : DIEventState ι DITypeParser) :
    (parserVisitor.run w s).1 = w.returns ∧
      s.RunsTo (parserVisitor.run w s).2 (parse w s.asParse) := by
  obtain ⟨hret, hrefines⟩ := run_refines w hw (refines_asParse s)
  have hcommutes := commutes_loggedEvents.run w
    { current := s.current, stack := s.stack, enumData := s.enumData, events := (s.events, []),
      undefined := s.undefined }
  rw [show parserVisitor.run w s = _ from hcommutes]
  exact ⟨hret, runsTo_of_refines hrefines⟩

lemma runElements_parserVisitor (ws : List (Walk ι)) (hws : TaggedElements ws)
    (s : DIEventState ι DITypeParser) :
    s.RunsTo (parserVisitor.runElements ws s) (parseElements ws s.asParse) := by
  have hrefines := runElements_refines ws hws (refines_asParse s)
  have hcommutes := commutes_loggedEvents.runElements ws
    { current := s.current, stack := s.stack, enumData := s.enumData, events := (s.events, []),
      undefined := s.undefined }
  rw [show parserVisitor.runElements ws s = _ from hcommutes]
  exact runsTo_of_refines hrefines

end Run

/-! ### Room for the elements of a record -/

section Room

variable {G : DIGraph ι} {C : Prop}

/-- The record can still take the entries of the elements `ws`. -/
def Room (G : DIGraph ι) (C : Prop) (ws : List (Walk ι)) (t : CompoundType) : Prop :=
  t.type ≠ .kEnum ∧ (C → ∃ done, t.keys.Sublist done ∧
    ∀ l, l.Sublist (done ++ ws.filterMap Walk.memberKey) → t.Describes G l)

lemma Room.skip {w : Walk ι} {ws : List (Walk ι)} {t : CompoundType} (h : Room G C (w :: ws) t) :
    Room G C ws t := by
  refine ⟨h.1, fun hC => ?_⟩
  obtain ⟨done, hkeys, hdone⟩ := h.2 hC
  refine ⟨done ++ w.memberKey.toList, hkeys.trans (List.sublist_append_left _ _), fun l hl => ?_⟩
  apply hdone l
  rw [List.filterMap_cons]
  cases hw : w.memberKey with
  | none => simpa [hw] using hl
  | some k => simpa [hw] using hl

lemma Room.describes {w : Walk ι} {ws : List (Walk ι)} {t : CompoundType}
    (h : Room G C (w :: ws) t) (hC : C) {k : String × UInt64 × UInt64}
    (hk : w.memberKey = some k) : t.Describes G (t.keys ++ [k]) := by
  obtain ⟨done, hkeys, hdone⟩ := h.2 hC
  apply hdone
  rw [List.filterMap_cons, hk]
  exact hkeys.append (List.singleton_sublist.mpr (by simp))

lemma Room.add_member {w : Walk ι} {ws : List (Walk ι)} {t : CompoundType}
    (h : Room G C (w :: ws) t) (hlists : t.ListsOk) {name : String} {offset size : UInt64}
    (type : QualifiedType) (hk : C → w.memberKey = some (name, offset, size)) :
    Room G C ws (t.add (.member name offset size type)) := by
  refine ⟨h.1, fun hC => ?_⟩
  obtain ⟨done, hkeys, hdone⟩ := h.2 hC
  refine ⟨done ++ [(name, offset, size)], ?_, fun l hl => ?_⟩
  · rw [CompoundType.keys_add_member hlists h.1]
    exact hkeys.append_right _
  · apply hdone l
    rw [List.filterMap_cons, hk hC]
    simpa using hl

/-- What an element has set the metadata to when its entry is made: the keys of the element, or
those of a static member. -/
lemma memberKey_of_visitDerived {n : ι} {d : DIDerivedType ι} {base : Walk ι}
    (hd : d.isElement = true) {m : MetaData ι} (hmember : (m.visitDerived d).isMember = true)
    (hstatic : (m.visitDerived d).isMemberStatic = false)
    (hevent : (Walk.derived n d base).reachesEvent = true)
    (hcond : (m.isPlainMember && (Walk.derived n d base).isFiringBase) = false) :
    d.memberKey = some ((m.visitDerived d).memberName, (m.visitDerived d).memberOffset,
      (m.visitDerived d).memberSize) := by
  cases hnode : d.isMemberNode with
  | true =>
    rw [MetaData.visitDerived_of_isMemberNode hnode] at hstatic ⊢
    have hstatic : d.isStaticMember = false := hstatic
    simp [DIDerivedType.memberKey, hnode, hstatic, MetaData.makeMember]
  | false =>
    -- a base class sets neither flag, so the metadata said "member" before
    have htag := DIDerivedType.tag_of_isElement hd hnode
    have hvisit : (m.visitDerived d).isMember = m.isMember ∧
        (m.visitDerived d).isMemberStatic = m.isMemberStatic := by
      simp [MetaData.visitDerived, htag]
    rw [hvisit.1] at hmember
    rw [hvisit.2] at hstatic
    simp [MetaData.isPlainMember, Walk.isFiringBase, Walk.asDerived, hmember, hstatic, hnode,
      hevent] at hcond

section Parse

variable [DecidableEq ι]

/-- The entry of an element is that of a base class, or that of the metadata after the element. -/
lemma entry_of_element {n : ι} {d : DIDerivedType ι} {base : Walk ι} (hd : d.isElement = true)
    (hbase : base.TypeOk G) {p : Parse ι} (h : p.enumData.isEnum = false) :
    ∃ o : Option Entry, (parse (.derived n d base) p).entries = p.entries ++ o.toList ∧
      ∀ e ∈ o, (∃ b, e = .base b) ∨ (p.current.visitDerived d).isMember = true ∧
        (Walk.derived n d base).reachesEvent = true ∧
        ∃ type, e = .ofMember type (p.current.visitDerived d) := by
  have hvoid := not_isVoidPointer_of_isElement hd
  obtain ⟨o, ho, hchain⟩ := chainEntry_parse base hbase (p := p.derived d)
    (by rw [Parse.isEnum_derived, h])
  cases hvtbl : DIEventVisitor.isVtablePtr d with
  | true =>
    have hcurrent : (p.derived d).current = {} :=
      Parse.current_derived_of_event (by simp [hvtbl]) p
    obtain rfl := hchain.eq_none (by rw [hcurrent]) (by rw [hcurrent])
    obtain ⟨type, hentries⟩ := entries_derived_of_isVtablePtr hvoid hvtbl p
    rw [parse, ho, hentries]
    split
    · next hmember =>
      refine ⟨some (.ofMember type (p.current.visitDerived d)), by simp, fun e he => .inr ?_⟩
      obtain rfl : _ = e := Option.some.inj he
      exact ⟨hmember, by simp [Walk.reachesEvent, hvtbl], type, rfl⟩
    · exact ⟨none, by simp, fun e he => by cases he⟩
  | false =>
    have hstep := Parse.derived_of_collected (Bool.or_eq_false_iff.mpr ⟨hvoid, hvtbl⟩) p
    rw [hstep] at ho hchain
    refine ⟨o, by rw [parse, hstep, ho], fun e he => ?_⟩
    cases hchain with
    | member type hmember hw =>
      obtain rfl : _ = e := Option.some.inj he
      exact .inr ⟨hmember, by simp [Walk.reachesEvent, hw], type, rfl⟩
    | lost => cases he
    | base b _ _ _ _ =>
      obtain rfl : _ = e := Option.some.inj he
      exact .inl ⟨b, rfl⟩
    | none => cases he

omit [DecidableEq ι] in
/-- An element whose visit the condition allows leaves room for the elements after it. -/
lemma Room.element {n : ι} {d : DIDerivedType ι} {base : Walk ι} {ws : List (Walk ι)}
    {t : CompoundType} (h : Room G C (.derived n d base :: ws) t) (hlists : t.ListsOk)
    (hd : d.isElement = true) {m : MetaData ι}
    (hcond : C → (m.isPlainMember && (Walk.derived n d base).isFiringBase) = false)
    {o : Option Entry} (ho : ∀ e ∈ o, (∃ b, e = .base b) ∨ (m.visitDerived d).isMember = true ∧
      (Walk.derived n d base).reachesEvent = true ∧ ∃ type, e = .ofMember type (m.visitDerived d)) :
    Room G C ws (t.addAll o.toList) := by
  cases o with
  | none => exact h.skip
  | some e =>
    rcases ho e rfl with ⟨b, rfl⟩ | ⟨hmember, hevent, type, rfl⟩
    · exact h.skip
    · simp only [Option.toList_some, CompoundType.addAll_singleton, Entry.ofMember]
      split
      · exact h.skip
      · next hstatic =>
        have hstatic : (m.visitDerived d).isMemberStatic = false := by simpa using hstatic
        refine h.add_member hlists type fun hC => ?_
        exact memberKey_of_visitDerived hd hmember hstatic hevent (hcond hC)

omit [DecidableEq ι] in
/-- The metadata that an element leaves for its chain asks for an entry there is room for. -/
lemma Room.ready {n : ι} {d : DIDerivedType ι} {base : Walk ι} {ws : List (Walk ι)}
    {s : DIEventState ι DITypeParser} {q : QualifiedCompound} {cs : List QualifiedCompound}
    (h : Room G C (.derived n d base :: ws) q.type)
    (hok : q.type.Ok G C) (hstack : s.events.compositeStack = q :: cs)
    (hd : d.isElement = true) (hevent : (Walk.derived n d base).reachesEvent = true)
    (hcond : C → (s.current.isPlainMember && (Walk.derived n d base).isFiringBase) = false) :
    DIEventState.Ready G C { s with current := s.current.visitDerived d } := by
  refine ⟨fun hmember => ⟨q, cs, hstack, fun type => ?_⟩, fun _ => by simp [hstack]⟩
  simp only [Entry.ofMember]
  split
  · exact hok.add_static _ _
  · next hstatic =>
    have hstatic : (s.current.visitDerived d).isMemberStatic = false := by simpa using hstatic
    refine hok.add_member h.1 type fun hC => h.describes hC ?_
    exact memberKey_of_visitDerived hd hmember hstatic hevent (hcond hC)

end Parse

end Room

/-! ### The composites of a walk -/

mutual
/-- The composites of a walk are those of the graph. -/
def Walk.CompositesIn (G : DIGraph ι) : Walk ι → Prop
  | .null | .basic _ _ | .string _ _ | .node _ _ | .recurring _ _ | .skip _ => True
  | .var _ type => type.CompositesIn G
  | .derived _ _ base => base.CompositesIn G
  | .array _ _ elements base => CompositesInElements G elements ∧ base.CompositesIn G
  | .composite n c base elements =>
    G.node n = .compositeType c ∧ base.CompositesIn G ∧ CompositesInElements G elements

def CompositesInElements (G : DIGraph ι) : List (Walk ι) → Prop
  | []      => True
  | w :: ws => w.CompositesIn G ∧ CompositesInElements G ws
end

section CompositesIn

variable {G : DIGraph ι}

lemma compositesIn_of_typeWalk {U : ι → Walk ι → Prop} {type : Option ι} {w : Walk ι}
    (h : TypeWalk U type w) (hU : ∀ n w, U n w → w.CompositesIn G) : w.CompositesIn G := by
  cases h with
  | null => trivial
  | type h => exact hU _ _ h

lemma compositesInElements_of_forall₂ {U : ι → Walk ι → Prop} {es : List ι} {ws : List (Walk ι)}
    (h : List.Forall₂ U es ws) (hU : ∀ n w, U n w → w.CompositesIn G) :
    CompositesInElements G ws := by
  induction h with
  | nil => trivial
  | cons hw _ ih => exact ⟨hU _ _ hw, ih⟩

lemma compositesIn_of_walk [DecidableEq ι] {fuel : ℕ} {visited : Finset ι} {n : ι} {w : Walk ι}
    (h : G.walk fuel visited n = some w) : w.CompositesIn G := by
  induction fuel generalizing visited n w with
  | zero => cases h
  | succ fuel ih =>
    have ih : ∀ visited n w, G.walk fuel visited n = some w → w.CompositesIn G := fun _ _ _ => ih
    cases DIGraph.walkStep_of_walk h with
    | basic _ | string _ | node _ _ | recurring _ _ | skip _ => trivial
    | var _ hw =>
      simp only [Walk.CompositesIn]
      exact compositesIn_of_typeWalk hw (ih visited)
    | derived _ hbase =>
      simp only [Walk.CompositesIn]
      exact compositesIn_of_typeWalk hbase (ih visited)
    | array _ _ _ helements hbase =>
      exact ⟨compositesInElements_of_forall₂ helements (ih visited),
        compositesIn_of_typeWalk hbase (ih visited)⟩
    | composite hn _ _ hbase helements =>
      exact ⟨hn, compositesIn_of_typeWalk hbase (ih _),
        compositesInElements_of_forall₂ helements (ih _)⟩

end CompositesIn

/-! ### The states on the way -/

section Traces

variable {P : CompoundType → Prop} {s s' : DIEventState ι DITypeParser}
  {x : DIEventState ι DITypeParser × List (DIEventState ι DITypeParser)}

/-- The traced run is in state `s`, and all states so far are consistent. -/
structure Traces (P : CompoundType → Prop) (s : DIEventState ι DITypeParser)
    (x : DIEventState ι DITypeParser × List (DIEventState ι DITypeParser)) : Prop where
  state : x.1 = s
  here : s.StacksOk P
  before : ∀ s' ∈ x.2, s'.StacksOk P

lemma Traces.note (h : Traces P s x) (hs' : s'.StacksOk P) : Traces P s' (s', x.2 ++ [s']) := by
  refine ⟨rfl, hs', fun t ht => ?_⟩
  rcases List.mem_append.mp ht with ht | ht
  · exact h.before t ht
  · obtain rfl := List.mem_singleton.mp ht
    exact hs'

variable [DecidableEq ι]

lemma run_traced_fst (w : Walk ι) (x) :
    (parserVisitor.traced.run w x).1 = (parserVisitor.run w x.1).1 := by
  have h := (DINodeVisitor.commutes_traced (parserVisitor (ι := ι))).run w x
  rw [h]
  rfl

/-- Visiting a type notes one more state. -/
lemma Traces.runType {w : Walk ι} (h : Traces P s x)
    (hrun : ∀ y, Traces P s y →
      Traces P (parserVisitor.run w s).2 (parserVisitor.traced.run w y).2) :
    (parserVisitor.traced.runType w.root (parserVisitor.traced.run w) x).1 =
        (parserVisitor.run w s).1 ∧
      Traces P (parserVisitor.run w s).2
        (parserVisitor.traced.runType w.root (parserVisitor.traced.run w) x).2 := by
  obtain ⟨s₀, states⟩ := x
  obtain rfl : s₀ = s := h.state
  have hnote : Traces P s₀ (s₀, states ++ [s₀]) := h.note h.here
  cases hroot : w.root with
  | none =>
    cases w with
    | null => exact ⟨rfl, h⟩
    | _ => simp [Walk.root] at hroot
  | some n => exact ⟨run_traced_fst w _, hrun _ hnote⟩

/-! ### Subranges and enumerators -/

omit [DecidableEq ι] in
lemma modifyBack_ne_nil {α : Type*} {f : α → α} {l : List α} (h : l ≠ []) :
    modifyBack f l ≠ [] := by
  match l with
  | [] => exact absurd rfl h
  | [a] => simp [modifyBack]
  | a :: b :: l => simp [modifyBack]

lemma Traces.subranges {ws : List (Walk ι)} (hws : AllSubranges ws) (h : Traces P s x)
    (harrays : s.current.arrays ≠ []) :
    Traces P (parserVisitor.runElements ws s) (parserVisitor.traced.runElements ws x) := by
  induction ws generalizing s x with
  | nil => exact h
  | cons w ws ih =>
    obtain ⟨n, count, rfl⟩ := hws w (by simp)
    have hws' : AllSubranges ws := fun w hw => hws w (by simp [hw])
    obtain ⟨s₀, states⟩ := x
    obtain rfl : s₀ = s := h.state
    cases count with
    | none => exact ih hws' ((h.note h.here).note h.here) harrays
    | some count =>
      have hvisit : DIEventVisitor.visitNode DITypeParser.events (.subrange (some count)) s₀ =
          { s₀ with current := s₀.current.visitSubrange count } := by
        simp only [DIEventVisitor.visitNode, if_neg harrays]
      have hs' := h.here.setCurrent (s₀.current.visitSubrange count)
      rw [← hvisit] at hs'
      refine ih hws' ((h.note hs').note hs') ?_
      show (DIEventVisitor.visitNode DITypeParser.events (.subrange (some count)) s₀).current.arrays
        ≠ []
      rw [hvisit]
      exact modifyBack_ne_nil harrays

lemma Traces.enumerators {G : DIGraph ι} {C : Prop} {ws : List (Walk ι)} (hws : AllEnumerators ws)
    (h : Traces (CompoundType.Ok G C) s x) {b : DIBasicType} (hb : s.enumData.enumBase = some b)
    (hstatic : s.current.isMemberStatic = false) {q : QualifiedCompound}
    {cs : List QualifiedCompound} (hstack : s.events.compositeStack = q :: cs)
    (htag : q.type.type = .kEnum) :
    Traces (CompoundType.Ok G C) (parserVisitor.runElements ws s)
      (parserVisitor.traced.runElements ws x) := by
  induction ws generalizing s x q with
  | nil => exact h
  | cons w ws ih =>
    obtain ⟨n, name, rfl⟩ := hws w (by simp)
    have hws' : AllEnumerators ws := fun w hw => hws w (by simp [hw])
    obtain ⟨s₀, states⟩ := x
    obtain rfl : s₀ = s := h.state
    have hs' := h.here.visitEnumerator name hb hstatic hstack htag
    have hframe : (DIEventVisitor.visitNode DITypeParser.events (.enumerator name) s₀).enumData =
          s₀.enumData ∧
        (DIEventVisitor.visitNode DITypeParser.events (.enumerator name) s₀).current.isMemberStatic =
          false ∧
        ∃ q', (DIEventVisitor.visitNode DITypeParser.events
            (.enumerator name) s₀).events.compositeStack = q' :: cs ∧ q'.type.type = .kEnum := by
      have hstatic' : (s₀.current.visitEnumerator name b).isMemberStatic = false := hstatic
      simp only [DIEventVisitor.visitNode, hb, DITypeParser.events, DITypeParser.makeEnumMember,
        DITypeParser.withBasic, DITypeParser.emplaceFundamental, MetaData.visitEnumerator,
        DITypeParser.emplaceMember, DITypeParser.onTop, hstack, if_true]
      refine ⟨trivial, hstatic, _, rfl, ?_⟩
      simp [CompoundType.truncateEnum, CompoundType.emplaceMember, hstatic, htag]
    obtain ⟨henum, hstatic', q', hstack', htag'⟩ := hframe
    exact ih hws' ((h.note hs').note hs') (by rw [← hb, ← henum]; rfl) hstatic' hstack' htag'

/-! ### Types and elements -/

lemma visitCompositeType_eq (n : ι) {c : DICompositeType ι} (htag : c.tag ≠ .arrayType)
    (s : DIEventState ι DITypeParser) :
    DIEventVisitor.visitCompositeType DITypeParser.events n c s =
      { current := {}
        stack := s.current.visitRecord n c :: s.stack
        enumData := { s.enumData with isEnum := decide (c.tag = DwTag.enumerationType) }
        events := { s.events with
          compositeStack := makeQualType (makeCompound c) (s.current.visitRecord n c) ::
            s.events.compositeStack }
        undefined := s.undefined } := by
  simp only [DIEventVisitor.visitCompositeType, if_neg htag, DITypeParser.events,
    DITypeParser.makeComposite, MetaData.visitRecord, DIEventVisitor.clearCurrent]

/-- The visit of a derived type, given the visit of its base. -/
lemma Traces.derived {n : ι} {d : DIDerivedType ι} {base : Walk ι} (h : Traces P s x)
    (hvisit : DIEventState.StacksOk P (DIEventVisitor.visitDerivedType DITypeParser.events d s))
    (hbase : ∀ y, Traces P (DIEventVisitor.visitDerivedType DITypeParser.events d s) y →
      Traces P (parserVisitor.run base
        (DIEventVisitor.visitDerivedType DITypeParser.events d s)).2
        (parserVisitor.traced.run base y).2) :
    Traces P (parserVisitor.run (.derived n d base) s).2
      (parserVisitor.traced.run (.derived n d base) x).2 := by
  obtain ⟨s₀, states⟩ := x
  obtain rfl : s₀ = s := h.state
  obtain ⟨-, hrun⟩ := (h.note hvisit).runType hbase
  have hleave := hrun.note hrun.here
  rw [DIEventVisitor.run_derived]
  have hstate := hrun.state
  simp only [DINodeVisitor.run]
  show Traces P _ (DINodeVisitor.note (true, _) _).2
  rw [← hstate] at hleave ⊢
  exact hleave

variable {G : DIGraph ι} {C : Prop}

/-- The subranges of an array keep what the metadata says about the entry to be made. -/
lemma Traces.array {n : ι} {c : DICompositeType ι} {elements : List (Walk ι)} {base : Walk ι}
    (htag : c.tag = .arrayType) (hsub : AllSubranges elements)
    (helements : TaggedElements elements) (h : Traces (CompoundType.Ok G C) s x)
    (hready : base.reachesEvent = true → s.Ready G C)
    (hbase : ∀ s' y, Traces (CompoundType.Ok G C) s' y →
      (base.reachesEvent = true → s'.Ready G C) →
      Traces (CompoundType.Ok G C) (parserVisitor.run base s').2
        (parserVisitor.traced.run base y).2) :
    Traces (CompoundType.Ok G C) (parserVisitor.run (.array n c elements base) s).2
      (parserVisitor.traced.run (.array n c elements base) x).2 := by
  obtain ⟨s₀, states⟩ := x
  obtain rfl : s₀ = s := h.state
  have hvisit : DIEventVisitor.visitCompositeType DITypeParser.events n c s₀ =
      { s₀ with current := s₀.current.visitArray c } := by
    rw [DIEventVisitor.visitCompositeType, if_pos htag]
  set s₁ := DIEventVisitor.visitCompositeType DITypeParser.events n c s₀ with hs₁
  have hs₁' : s₁.StacksOk (CompoundType.Ok G C) := by
    rw [hvisit]
    exact h.here.setCurrent _
  have harrays : s₁.current.arrays ≠ [] := by simp [hvisit, MetaData.visitArray]
  have hranges := (h.note hs₁').subranges hsub harrays
  -- what is below the array finds the entry that was asked for above it
  have hruns := runElements_parserVisitor elements helements s₁
  obtain ⟨hentries, -, -, hsame⟩ := parseElements_of_allSubranges hsub s₁.asParse
  have hstack : (parserVisitor.runElements elements s₁).events.compositeStack =
      s₀.events.compositeStack := by
    rw [hruns.compositeStack, hentries, hvisit]
    exact addTop_nil _
  have hcurrent : s₀.current.SameEntry (parserVisitor.runElements elements s₁).current := by
    rw [hruns.current]
    refine MetaData.SameEntry.trans ?_ hsame
    simp only [DIEventState.asParse, hvisit]
    exact ⟨rfl, rfl, rfl, rfl, rfl, rfl⟩
  obtain ⟨-, hrun⟩ := hranges.runType fun y hy =>
    hbase _ y hy fun hevent => (hready hevent).of_sameEntry hcurrent hstack
  have hleave : ∀ t : DIEventState ι DITypeParser,
      DIEventVisitor.leaveCompositeType DITypeParser.events c t = t := by
    intro t
    rw [DIEventVisitor.leaveCompositeType, if_pos htag]
  have hnote := hrun.note hrun.here
  have hvisits : parserVisitor.traced.visitCompositeType n c (s₀, states) =
      (true, s₁, states ++ [s₁]) := rfl
  rw [DIEventVisitor.run_array, hleave]
  simp only [DINodeVisitor.run, hvisits]
  show Traces _ _ (DINodeVisitor.note
    (true, DIEventVisitor.leaveCompositeType DITypeParser.events c _) _).2
  rw [hleave, hrun.state]
  exact hnote

/-- The visit of a composite that is no array, given the visits of its base type and its
elements. -/
lemma Traces.composite {n : ι} {c : DICompositeType ι} {base : Walk ι} {elements : List (Walk ι)}
    (htag : c.tag ≠ .arrayType) (hbaseTag : base.Tagged) (helements : TaggedElements elements)
    (hreturns : base.returns = true) (h : Traces (CompoundType.Ok G C) s x) (hready : s.Ready G C)
    (hbase : ∀ y,
      Traces (CompoundType.Ok G C) (DIEventVisitor.visitCompositeType DITypeParser.events n c s) y →
      Traces (CompoundType.Ok G C)
        (parserVisitor.run base (DIEventVisitor.visitCompositeType DITypeParser.events n c s)).2
        (parserVisitor.traced.run base y).2)
    (hrest : ∀ y, Traces (CompoundType.Ok G C)
        (parserVisitor.run base (DIEventVisitor.visitCompositeType DITypeParser.events n c s)).2 y →
      Traces (CompoundType.Ok G C)
        (parserVisitor.runElements elements (parserVisitor.run base
          (DIEventVisitor.visitCompositeType DITypeParser.events n c s)).2)
        (parserVisitor.traced.runElements elements y)) :
    Traces (CompoundType.Ok G C) (parserVisitor.run (.composite n c base elements) s).2
      (parserVisitor.traced.run (.composite n c base elements) x).2 := by
  obtain ⟨s₀, states⟩ := x
  obtain rfl : s₀ = s := h.state
  set s₁ := DIEventVisitor.visitCompositeType DITypeParser.events n c s₀ with hs₁
  obtain ⟨hret, hrun⟩ := (h.note (h.here.visitCompositeType n htag)).runType hbase
  obtain ⟨hreturns', hruns⟩ := run_parserVisitor base hbaseTag s₁
  rw [hreturns', hreturns] at hret
  rw [hreturns] at hreturns'
  -- the stacks after the elements
  have hruns' := runElements_parserVisitor elements helements (parserVisitor.run base s₁).2
  have hstack := hruns'.stack
  have hcompounds := hruns'.compositeStack
  have hpushed : s₁.stack = s₀.current.visitRecord n c :: s₀.stack ∧
      s₁.events.compositeStack = makeQualType (makeCompound c) (s₀.current.visitRecord n c) ::
        s₀.events.compositeStack := by
    rw [hs₁, visitCompositeType_eq n htag]
    exact ⟨rfl, rfl⟩
  rw [hruns.stack, hpushed.1] at hstack
  rw [hruns.compositeStack, hpushed.2] at hcompounds
  simp only [addTop] at hcompounds
  have hsame : s₀.current.SameEntry (s₀.current.visitRecord n c) := ⟨rfl, rfl, rfl, rfl, rfl, rfl⟩
  have hvisits : parserVisitor.traced.visitCompositeType n c (s₀, states) =
      (true, s₁, states ++ [s₁]) := rfl
  rw [DIEventVisitor.run_composite, ← hs₁]
  simp only [DINodeVisitor.run, hvisits]
  cases hr : parserVisitor.run base s₁ with
  | mk ret s₂ =>
    obtain rfl : ret = true := by rw [← hreturns', hr]
    cases hy : parserVisitor.traced.runType base.root (parserVisitor.traced.run base)
        (s₁, states ++ [s₁]) with
    | mk ret y =>
      rw [hy] at hret hrun
      obtain rfl : ret = true := hret
      have hlast := hrest y hrun
      simp only [hr] at hlast hstack hcompounds
      have hleave := hlast.here.leaveCompositeType htag hready hsame hstack hcompounds
      have hnote := hlast.note hleave
      show Traces _ (DIEventVisitor.leaveCompositeType DITypeParser.events c
          (parserVisitor.runElements elements s₂))
        (DINodeVisitor.note (true, DIEventVisitor.leaveCompositeType DITypeParser.events c
          (parserVisitor.traced.runElements elements y).1) _).2
      rw [hlast.state]
      exact hnote

omit [DecidableEq ι] in
lemma room_makeCompound {n : ι} {c : DICompositeType ι} (hn : G.node n = .compositeType c)
    (htag : c.tag ≠ .enumerationType) {elements : List (Walk ι)}
    (helements : elements.filterMap Walk.asDerived =
      c.elements.filterMap fun e => (G.node e).asDerived) :
    Room G C elements (makeCompound c) := by
  refine ⟨?_, fun _ => ⟨[], by simp [CompoundType.keys, makeCompound], fun l hl => ?_⟩⟩
  · simp only [makeCompound, dwarf2compound]
    split
    · next h => exact absurd h htag
    all_goals simp
  · refine ⟨n, c, hn, rfl, rfl, rfl, rfl, ?_⟩
    rw [List.nil_append] at hl
    have hkeys := filterMap_elements helements DIDerivedType.memberKey
    rw [List.filterMap_filterMap] at hkeys
    rw [DIGraph.elementKeys, hkeys]
    exact hl

omit [DecidableEq ι] in
lemma type_addAll (es : List Entry) (t : CompoundType) : (t.addAll es).type = t.type := by
  induction es generalizing t with
  | nil => rfl
  | cons e es ih =>
    rw [show t.addAll (e :: es) = (t.add e).addAll es from rfl, ih]
    cases e <;> rfl

/-- The base type of an enumeration is what its enumerators need. -/
lemma Traces.enumeratorsOf {n : ι} {c : DICompositeType ι} {base : Walk ι}
    {elements : List (Walk ι)} {s : DIEventState ι DITypeParser}
    (h : Traces (CompoundType.Ok G C)
      (parserVisitor.run base (DIEventVisitor.visitCompositeType DITypeParser.events n c s)).2 x)
    (henum : c.tag = .enumerationType) (hbaseTag : base.Tagged) (helements : AllEnumerators elements)
    (hends : elements = [] ∨ base.EndsBasic) :
    Traces (CompoundType.Ok G C)
      (parserVisitor.runElements elements (parserVisitor.run base
        (DIEventVisitor.visitCompositeType DITypeParser.events n c s)).2)
      (parserVisitor.traced.runElements elements x) := by
  have htag : c.tag ≠ .arrayType := by simp [henum]
  rcases hends with rfl | hends
  · exact h
  obtain ⟨-, hruns⟩ := run_parserVisitor base hbaseTag
    (DIEventVisitor.visitCompositeType DITypeParser.events n c s)
  have hstack := hruns.compositeStack
  have henumData := hruns.enumData
  have hcurrent := hruns.current
  have hisEnum : (DIEventVisitor.visitCompositeType DITypeParser.events n c
      s).asParse.enumData.isEnum = true := by
    simp [visitCompositeType_eq n htag, DIEventState.asParse, henum]
  obtain ⟨b, hb⟩ := Option.ne_none_iff_exists'.mp (enumBase_of_endsBasic base hends hisEnum)
  rw [current_of_endsBasic base hends] at hcurrent
  rw [show (DIEventVisitor.visitCompositeType DITypeParser.events n c s).events.compositeStack =
      makeQualType (makeCompound c) (s.current.visitRecord n c) :: s.events.compositeStack by
    rw [visitCompositeType_eq n htag]] at hstack
  refine h.enumerators helements (b := b) (by rw [henumData, hb]) (by rw [hcurrent]) hstack ?_
  simp only [type_addAll]
  simp [makeQualType, makeCompound, dwarf2compound, henum]

/-- The base type of a record adds nothing to it. -/
lemma run_base_of_record (n : ι) {c : DICompositeType ι} {base : Walk ι} (htag : c.tag ≠ .arrayType)
    (henum : c.tag ≠ .enumerationType) (hbaseTag : base.Tagged) (hbase : base.TypeOk G)
    (s : DIEventState ι DITypeParser) :
    let s' := (parserVisitor.run base
      (DIEventVisitor.visitCompositeType DITypeParser.events n c s)).2
    s'.current.isPlainMember = base.plainAfter false ∧ s'.enumData.isEnum = false ∧
      s'.events.compositeStack = makeQualType (makeCompound c) (s.current.visitRecord n c) ::
        s.events.compositeStack := by
  obtain ⟨-, hruns⟩ := run_parserVisitor base hbaseTag
    (DIEventVisitor.visitCompositeType DITypeParser.events n c s)
  set s₁ := DIEventVisitor.visitCompositeType DITypeParser.events n c s with hs₁
  rw [visitCompositeType_eq n htag] at hs₁
  have hisEnum : s₁.asParse.enumData.isEnum = false := by
    simp [hs₁, DIEventState.asParse, henum]
  have hcleared : s₁.asParse.current = {} := by
    rw [hs₁]
    rfl
  have hpushed : s₁.events.compositeStack =
      makeQualType (makeCompound c) (s.current.visitRecord n c) :: s.events.compositeStack := by
    rw [hs₁]
  obtain ⟨o, ho, hchain⟩ := chainEntry_parse base hbase hisEnum
  obtain rfl := hchain.eq_none (by rw [hcleared]) (by rw [hcleared])
  refine ⟨?_, ?_, ?_⟩
  · rw [hruns.current, isPlainMember_parse base (.inl hbase), hcleared]
    rfl
  · rw [hruns.enumData]
    exact isEnum_parse base hisEnum
  · rw [hruns.compositeStack, ho, hpushed]
    rfl

omit [DecidableEq ι] in
/-- The visit of an element of a record, given that there is room for it. -/
lemma Room.visitDerivedType {n : ι} {d : DIDerivedType ι} {base : Walk ι} {ws : List (Walk ι)}
    {q : QualifiedCompound} {cs : List QualifiedCompound}
    (hroom : Room G C (.derived n d base :: ws) q.type) (hs : s.StacksOk (CompoundType.Ok G C))
    (hstack : s.events.compositeStack = q :: cs) (hd : d.isElement = true)
    (hcond : C → (s.current.isPlainMember && (Walk.derived n d base).isFiringBase) = false) :
    DIEventState.StacksOk (CompoundType.Ok G C)
        (DIEventVisitor.visitDerivedType DITypeParser.events d s) ∧
      (base.reachesEvent = true → DIEventState.Ready G C
        (DIEventVisitor.visitDerivedType DITypeParser.events d s)) := by
  have hok := (hs.records.compositeStack q (by simp [hstack])).here
  constructor
  · refine hs.visitDerivedType d fun hclear => hroom.ready hok hstack hd ?_ hcond
    simp [Walk.reachesEvent, hclear]
  · intro hevent
    have hvoid := not_isVoidPointer_of_isElement hd
    simp only [DIEventVisitor.visitDerivedType, hvoid, Bool.false_eq_true, if_false]
    split
    · exact ready_of_cleared rfl
    · exact hroom.ready hok hstack hd (by simp [Walk.reachesEvent, hevent]) hcond

mutual
/-- The visit of a type goes through consistent states only. -/
theorem Traces.run (w : Walk ι) (hw : w.TypeOk G) (htag : w.Tagged) (hin : w.CompositesIn G)
    (hset : C → w.settled = true) {s : DIEventState ι DITypeParser}
    {x : DIEventState ι DITypeParser × List (DIEventState ι DITypeParser)}
    (h : Traces (CompoundType.Ok G C) s x) (hready : w.reachesEvent = true → s.Ready G C) :
    Traces (CompoundType.Ok G C) (parserVisitor.run w s).2 (parserVisitor.traced.run w x).2 := by
  obtain ⟨s₀, states⟩ := x
  obtain rfl : s₀ = s := h.state
  match w with
  | .null => exact h
  | .basic n b =>
    have hvisit := h.here.visitBasicType (hready rfl) b
    exact (h.note hvisit).note (hvisit.setCurrent {})
  | .string n t =>
    have hvisit := h.here.visitStringType (hready rfl) t
    exact (h.note hvisit).note (hvisit.setCurrent {})
  | .node n node =>
    obtain rfl : node = .subroutineType := hw
    have hvisit := h.here.visitSubroutineType (hready rfl)
    exact (h.note hvisit).note (hvisit.setCurrent {})
  | .var n type => exact hw.elim
  | .skip n => exact hw.elim
  | .derived n d base =>
    have hsame := MetaData.visitDerived_of_not_isElement hw.1 s₀.current
    have hvisit := h.here.visitDerivedType (G := G) (C := C) d fun hclear =>
      (hready (by simp [Walk.reachesEvent, hclear])).setCurrent hsame
    -- the chain goes on with cleared metadata behind an event, else with its own
    refine h.derived hvisit fun y hy => Traces.run base hw.2 htag hin hset hy fun hevent => ?_
    have hready := (hready (by simp [Walk.reachesEvent, hevent])).setCurrent hsame
    simp only [DIEventVisitor.visitDerivedType]
    split
    · exact ready_of_cleared rfl
    · split
      · exact ready_of_cleared rfl
      · exact hready
  | .array n c elements base =>
    obtain ⟨hsub, hbase⟩ := hw
    obtain ⟨htag, helements, hbaseTag⟩ := htag
    exact h.array htag hsub helements hready fun s' y hy hready =>
      Traces.run base hbase hbaseTag hin.2 hset hy hready
  | .composite n c base elements =>
    obtain ⟨hbase, helements⟩ := hw
    obtain ⟨htag, hbaseTag, helementsTag⟩ := htag
    obtain ⟨hn, hbaseIn, helementsIn⟩ := hin
    have hcond : C → base.settled = true ∧
        (c.tag = .enumerationType ∨ settledElements elements (base.plainAfter false) = true) := by
      intro hC
      simpa [Walk.settled] using hset hC
    -- first the base type, on the pushed record, then the elements
    refine h.composite htag hbaseTag helementsTag (base.returns_of_typeOk hbase) (hready rfl)
      (fun y hy => ?_) fun y hy => ?_
    · refine Traces.run base hbase hbaseTag hbaseIn (fun hC => (hcond hC).1) hy fun _ => ?_
      rw [visitCompositeType_eq n htag]
      exact ready_of_cleared rfl
    · split_ifs at helements with henum
      · exact hy.enumeratorsOf henum hbaseTag helements.1 helements.2
      · have hsettled : C → settledElements elements (base.plainAfter false) = true :=
          fun hC => (hcond hC).2.resolve_left henum
        obtain ⟨hplain, hisEnum, hstack⟩ := run_base_of_record n htag henum hbaseTag hbase s₀
        refine Traces.runElements elements helements.1 helementsTag helementsIn ?_ hy hisEnum hstack
          (room_makeCompound hn henum helements.2)
        rw [hplain]
        exact hsettled
  | .recurring n c =>
    -- a record that is open is pushed and finalized at once
    have hrecurring := h.here.setCurrent { s₀.current with isRecurring := true }
    have hready' : DIEventState.Ready G C { s₀ with current.isRecurring := true } :=
      (hready rfl).setCurrent ⟨rfl, rfl, rfl, rfl, rfl, rfl⟩
    have hvisit := hrecurring.visitCompositeType n htag
    have hpushed := visitCompositeType_eq n htag { s₀ with current.isRecurring := true }
    have hleave := hvisit.leaveCompositeType htag hready'
      (m := { s₀.current with isRecurring := true }.visitRecord n c)
      ⟨rfl, rfl, rfl, rfl, rfl, rfl⟩ (congrArg DIEventState.stack hpushed)
      (congrArg (fun s => s.events.compositeStack) hpushed)
    exact (h.note hvisit).note hleave

theorem Traces.runElements (ws : List (Walk ι)) (hws : ElementsOk G ws) (htag : TaggedElements ws)
    (hin : CompositesInElements G ws) {s : DIEventState ι DITypeParser}
    (hset : C → settledElements ws s.current.isPlainMember = true)
    {x : DIEventState ι DITypeParser × List (DIEventState ι DITypeParser)}
    (h : Traces (CompoundType.Ok G C) s x) (henum : s.enumData.isEnum = false)
    {q : QualifiedCompound} {cs : List QualifiedCompound}
    (hstack : s.events.compositeStack = q :: cs) (hroom : Room G C ws q.type) :
    Traces (CompoundType.Ok G C) (parserVisitor.runElements ws s)
      (parserVisitor.traced.runElements ws x) := by
  obtain ⟨s₀, states⟩ := x
  obtain rfl : s₀ = s := h.state
  match ws with
  | [] => exact h
  | w :: ws =>
    have hcond : C → (s₀.current.isPlainMember && w.isFiringBase) = false ∧ w.settled = true ∧
        settledElements ws (w.plainAfter s₀.current.isPlainMember) = true := by
      intro hC
      simpa only [settledElements, Bool.and_eq_true, Bool.not_eq_eq_eq_not, Bool.not_true,
        and_assoc] using hset hC
    have hw := hws.1
    have hnext := isPlainMember_parse w (.inr hw) s₀.asParse
    match w with
    | .null | .basic _ _ | .string _ _ | .node _ _ | .recurring _ _ | .var _ _ | .array _ _ _ _
    | .composite _ _ _ _ => exact hw.elim
    | .skip n =>
      exact Traces.runElements ws hws.2 htag.2 hin.2 (fun hC => (hcond hC).2.2) h henum hstack
        hroom.skip
    | .derived n d base =>
      have hok := (h.here.records.compositeStack q (by simp [hstack])).here
      obtain ⟨hvisit, hready⟩ := hroom.visitDerivedType h.here hstack hw.1
        fun hC => (hcond hC).1
      have hhead := h.derived (n := n) hvisit fun y hy =>
        Traces.run base hw.2 htag.1 hin.1 (fun hC => (hcond hC).2.1) hy hready
      obtain ⟨-, hruns⟩ := run_parserVisitor (.derived n d base) htag.1 s₀
      obtain ⟨o, ho, hentry⟩ := entry_of_element (n := n) hw.1 hw.2 (p := s₀.asParse) henum
      have hstack' := hruns.compositeStack
      rw [ho, hstack] at hstack'
      have hplain : (parserVisitor.run (.derived n d base) s₀).2.current.isPlainMember =
          (Walk.derived n d base).plainAfter s₀.current.isPlainMember := by
        rw [hruns.current, hnext]
        rfl
      refine Traces.runElements ws hws.2 htag.2 hin.2 (fun hC => ?_) hhead ?_ hstack'
        (hroom.element hok.1 hw.1 (fun hC => (hcond hC).1) hentry)
      · rw [hplain]
        exact (hcond hC).2.2
      · rw [hruns.enumData]
        exact isEnum_parse _ henum
end

end Traces

/-! ### The whole parse -/

section Whole

variable [DecidableEq ι]

omit [DecidableEq ι] in
lemma stacksOk_start {G : DIGraph ι} {C : Prop} :
    DIEventState.StacksOk (CompoundType.Ok G C)
      ({ events := {} } : DIEventState ι DITypeParser) := by
  have hdefault : (default : CompoundType).Everywhere (CompoundType.Ok G C) := by
    refine .intro _ ⟨⟨rfl, rfl⟩, fun _ _ hkeys => absurd rfl hkeys⟩ (fun b hb => ?_) fun m hm => ?_
    · cases hb
    · cases hm
  exact ⟨rfl, rfl, rfl, hdefault, fun c hc => by cases hc⟩

/-- Nodes that are neither members nor base classes are visited as types. -/
lemma RecordGraph.traces_of_walk (G : RecordGraph ι) {C : Prop} {fuel : ℕ} {n : ι} {w : Walk ι}
    (h : G.walk fuel ∅ n = some w) (hn : ((G.node n).isVariable || (G.node n).isType) = true)
    (hstart : ∀ d, G.node n = .derivedType d → d.isElement = false)
    (hset : C → w.settled = true)
    {x : DIEventState ι DITypeParser × List (DIEventState ι DITypeParser)}
    (hx : Traces (CompoundType.Ok G.toDIGraph C) { events := {} } x) :
    Traces (CompoundType.Ok G.toDIGraph C) (parserVisitor.run w { events := {} }).2
      (parserVisitor.traced.run w x).2 := by
  have htag := DIGraph.tagged_of_walk (by simp [DIGraph.OpenRecords]) h
  have hin := compositesIn_of_walk h
  have htype : (G.node n).isTypeNode = true → Traces (CompoundType.Ok G.toDIGraph C)
      (parserVisitor.run w { events := {} }).2 (parserVisitor.traced.run w x).2 := fun hnode =>
    hx.run w ((G.walk_ok fuel ∅).1 n w h hnode) htag hin hset fun _ => ready_of_cleared rfl
  cases hnode : G.node n with
  | var type =>
    obtain ⟨fuel, rfl⟩ := DIGraph.exists_fuel_of_walk h
    obtain ⟨w', rfl, hw'⟩ := DIGraph.walk_var hnode h
    have hok := TypesOk.typeWalk (G.walk_ok fuel ∅).1 (by rw [hnode]; rfl) hw'
    obtain ⟨s₀, states⟩ := x
    obtain rfl : s₀ = { events := {} } := hx.state
    obtain ⟨-, hrun⟩ := (hx.note hx.here).runType fun y hy =>
      hy.run w' hok htag hin hset fun _ => ready_of_cleared rfl
    have hleave := hrun.note hrun.here
    have hvisits : parserVisitor.traced.visitVariable n (({ events := {} }, states) :
        DIEventState ι DITypeParser × List (DIEventState ι DITypeParser)) =
        (true, { events := {} }, states ++ [{ events := {} }]) := rfl
    rw [DIEventVisitor.run_var]
    simp only [DINodeVisitor.run, hvisits]
    show Traces _ _ (DINodeVisitor.note (true, _) _).2
    rw [← hrun.state] at hleave ⊢
    exact hleave
  | derivedType d =>
    exact htype (by simp [hnode, DINode.isTypeNode, DINode.isType, DINode.asDerived,
      hstart d hnode])
  | basicType b => exact htype (by rw [hnode]; rfl)
  | stringType t => exact htype (by rw [hnode]; rfl)
  | compositeType c => exact htype (by rw [hnode]; rfl)
  | subroutineType => exact htype (by rw [hnode]; rfl)
  | enumerator name => simp [hnode, DINode.isVariable, DINode.isType] at hn
  | subrange count => simp [hnode, DINode.isVariable, DINode.isType] at hn
  | subprogram => simp [hnode, DINode.isVariable, DINode.isType] at hn
  | other => simp [hnode, DINode.isVariable, DINode.isType] at hn

/-- The states that are noted are those of the parse: the last one holds what is parsed. -/
theorem makeDimetadata_eq_parserStates {G : DIGraph ι} {fuel : ℕ} {n : ι} {w : Walk ι}
    (h : G.walk fuel ∅ n = some w) (hn : ((G.node n).isVariable || (G.node n).isType) = true) :
    makeDimetadata G fuel n =
      (parserStates G fuel n).map fun r => some r.1.events.result := by
  obtain ⟨x, hx, hrun⟩ := parserVisitor.traced.traverseNode_eq_run_of_visitType h hn
    (s := (({ events := {} } : DIEventState ι DITypeParser), [{ events := {} }])) rfl
  have hfst : x.1 = { events := {} } := by
    rcases hx with rfl | rfl
    · rfl
    · rfl
  have hcommutes := (DINodeVisitor.commutes_traced (parserVisitor (ι := ι))).run w x
  rw [hfst] at hcommutes
  simp only [makeDimetadata, parserStates, hn, Bool.not_true, Bool.false_eq_true, if_false, hrun,
    diparserVisitNode, parserVisitor.traverseNode_eq_run h hn (fun _ _ => rfl), hcommutes]
  rfl

/-- In every state of a parse both stacks have the same depth, neither is read where it is empty,
and the lists of every record fit; at the end the stacks are empty. If no base class is met while
the metadata still says "member, and not static", the lists also describe the elements of their
records. -/
theorem RecordGraph.parser_states_consistent [Fintype ι] (G : RecordGraph ι) (n : ι)
    (hstart : ∀ d, G.node n = .derivedType d → d.isElement = false) :
    ∃ fuel w, ∀ fuel', fuel ≤ fuel' → G.walk fuel' ∅ n = some w ∧
      ∃ final states, parserStates G.toDIGraph fuel' n = some (final, states) ∧
        final.stack = [] ∧ final.events.compositeStack = [] ∧
        (∀ s ∈ final :: states, s.StacksOk CompoundType.ListsOk) ∧
        (w.settled = true →
          ∀ s ∈ final :: states, s.StacksOk (CompoundType.Described G.toDIGraph)) := by
  obtain ⟨fuel, w, hw⟩ := DIGraph.hasWalk_of_cyclesPassRecords G.cycles_pass_records ∅ n
  refine ⟨fuel, w, fun fuel' hle => ⟨DIGraph.walk_mono hle hw, ?_⟩⟩
  have hw' := DIGraph.walk_mono hle hw
  have hsplit : ∀ (final : DIEventState ι DITypeParser) (states),
      Traces (CompoundType.Ok G.toDIGraph (w.settled = true)) final (final, states) →
      (∀ s ∈ final :: states, s.StacksOk CompoundType.ListsOk) ∧ (w.settled = true →
        ∀ s ∈ final :: states, s.StacksOk (CompoundType.Described G.toDIGraph)) := by
    intro final states h
    have hall : ∀ s ∈ final :: states,
        s.StacksOk (CompoundType.Ok G.toDIGraph (w.settled = true)) := by
      intro s hs
      rcases List.mem_cons.mp hs with rfl | hs
      · exact h.here
      · exact h.before s hs
    refine ⟨fun s hs => ?_, fun hset s hs => ?_⟩
    · exact ⟨(hall s hs).defined, (hall s hs).eventsDefined, (hall s hs).depths,
        (hall s hs).records.imp fun _ ht => ht.1⟩
    · exact ⟨(hall s hs).defined, (hall s hs).eventsDefined, (hall s hs).depths,
        (hall s hs).records.imp fun _ ht => ht.2 hset⟩
  have hbegin : Traces (CompoundType.Ok G.toDIGraph (w.settled = true)) { events := {} }
      (({ events := {} } : DIEventState ι DITypeParser), [{ events := {} }]) :=
    ⟨rfl, stacksOk_start, fun s hs => by
      obtain rfl := List.mem_singleton.mp hs
      exact stacksOk_start⟩
  cases hn : (G.node n).isVariable || (G.node n).isType with
  | false =>
    refine ⟨{ events := {} }, [{ events := {} }], by simp [parserStates, hn], rfl, rfl, ?_⟩
    exact hsplit _ _ hbegin
  | true =>
    obtain ⟨x, hx, hrun⟩ := parserVisitor.traced.traverseNode_eq_run_of_visitType hw' hn
      (s := (({ events := {} } : DIEventState ι DITypeParser), [{ events := {} }])) rfl
    have hxTraces : Traces (CompoundType.Ok G.toDIGraph (w.settled = true)) { events := {} } x := by
      rcases hx with rfl | rfl
      · exact hbegin
      · exact hbegin.note hbegin.here
    have htraces := G.traces_of_walk hw' hn hstart id hxTraces
    obtain ⟨-, hruns⟩ := run_parserVisitor w
      (DIGraph.tagged_of_walk (by simp [DIGraph.OpenRecords]) hw') { events := {} }
    have hstack := hruns.stack
    have hcompounds := hruns.compositeStack
    rw [← htraces.state] at hstack hcompounds
    refine ⟨(parserVisitor.traced.run w x).2.1, (parserVisitor.traced.run w x).2.2,
      by simp [parserStates, hn, hrun], hstack, hcompounds, ?_⟩
    exact hsplit _ _ ⟨rfl, by rw [htraces.state]; exact htraces.here, htraces.before⟩

end Whole

/-- `struct B { unsigned y; }; struct D : B { enum E { X } e; };` -/
def baseFirst : DIGraph (Fin 8) where
  node
    | 0 => .compositeType { tag := .structureType, name := "D", sizeInBits := 64,
                            elements := [1, 2] }
    | 1 => .derivedType { tag := .inheritance, baseType := some 3 }
    | 2 => .derivedType { tag := .member, name := "e", sizeInBits := 32, offsetInBits := 32,
                          baseType := some 5 }
    | 3 => .compositeType { tag := .structureType, name := "B", sizeInBits := 32, elements := [4] }
    | 4 => .derivedType { tag := .member, name := "y", sizeInBits := 32, baseType := some 7 }
    | 5 => .compositeType { tag := .enumerationType, name := "E", sizeInBits := 32,
                            baseType := some 7, elements := [6] }
    | 6 => .enumerator "X"
    | 7 => .basicType { name := "unsigned int", sizeInBits := 32, encoding := .unsigned }

def baseFirstGraph : RecordGraph (Fin 8) where
  toDIGraph := baseFirst
  typeRef_isTypeNode n b h := by
    fin_cases n <;> simp [baseFirst, DINode.typeRef] at h <;> subst h <;> rfl
  array_elements n c h htag := by
    fin_cases n <;> simp [baseFirst] at h <;> subst h <;> cases htag
  enum_elements n c h htag := by
    fin_cases n <;> simp [baseFirst] at h <;> subst h
    all_goals cases htag
    intro e he
    obtain rfl : e = 6 := by simpa using he
    exact ⟨"X", rfl⟩
  enum_base n c h htag _ := by
    fin_cases n <;> simp [baseFirst] at h <;> subst h
    all_goals cases htag
    exact .basic rfl
  record_elements n c h _ henum := by
    fin_cases n <;> simp [baseFirst] at h <;> subst h
    · intro e he
      right
      fin_cases e <;> simp at he <;> exact ⟨_, rfl, rfl⟩
    · intro e he
      right
      fin_cases e <;> simp at he
      exact ⟨_, rfl, rfl⟩
    · exact absurd rfl henum
  cycles_pass_records := by
    refine DIGraph.cyclesPassRecords_of_lt fun a b h => ?_
    fin_cases a <;> simp [DIGraph.PlainStep, baseFirst] at h <;> subst h <;> decide

/-- The base class comes before the enumeration. -/
theorem RecordGraph.parser_states_consistent_baseFirst :
    ∃ fuel w, baseFirst.walk fuel ∅ 0 = some w ∧ w.settled = true ∧
      ∃ final states, parserStates baseFirst fuel 0 = some (final, states) ∧
        ∀ s ∈ final :: states, s.StacksOk (CompoundType.Described baseFirst) := by
  obtain ⟨fuel, w, h⟩ :=
    RecordGraph.parser_states_consistent baseFirstGraph 0 fun d hd => by cases hd
  obtain ⟨w', hw', hsettled⟩ := Option.map_eq_some_iff.mp
    (show (baseFirst.walk 8 ∅ 0).map Walk.settled = some true by decide +kernel)
  obtain ⟨hwalk, final, states, hstates, -, -, -, hdescribed⟩ := h (max fuel 8) (le_max_left _ _)
  obtain rfl : w = w' :=
    Option.some.inj (hwalk.symm.trans (DIGraph.walk_mono (le_max_right _ _) hw'))
  exact ⟨_, w, hwalk, hsettled, final, states, hstates, hdescribed hsettled⟩

/-- The name, the tag and the keys of a parsed record. -/
def QualifiedType.outline :
    QualifiedType → String × CompoundType.Tag × List (String × UInt64 × UInt64)
  | .compound q    => (q.type.name, q.type.type, q.type.keys)
  | .fundamental q => (q.type.name, .kUnknown, [])

/-- The base class `B` becomes a member of `D` with the name of the enumerator: `D` has no member,
so none of its elements has that name. -/
theorem not_parser_states_described : ¬ ∀ (G : RecordGraph (Fin 10)) (fuel : ℕ) (n : Fin 10)
    (final : DIEventState (Fin 10) DITypeParser)
    (states : List (DIEventState (Fin 10) DITypeParser)),
    (∀ d, G.node n = .derivedType d → d.isElement = false) →
    parserStates G.toDIGraph fuel n = some (final, states) → ∀ s ∈ final :: states,
      s.StacksOk fun t => t.ListsOk ∧ t.Described G.toDIGraph := by
  intro h
  have hrun : ((parserStates enumBase 8 0).map fun r => r.1.events.result.outline) =
      some ("D", .kStruct, [("X", 4, 4)]) := by
    decide +kernel
  obtain ⟨⟨final, states⟩, hstates, hresult⟩ := Option.map_eq_some_iff.mp hrun
  have hok := h enumBaseGraph.toRecordGraph 8 0 final states (fun d hd => by cases hd) hstates
    final (by simp)
  have hrecords := hok.records.result
  cases hcompound : final.events.result with
  | fundamental q => simp [hcompound, QualifiedType.outline] at hresult
  | compound q =>
    rw [hcompound] at hrecords
    simp only [hcompound, QualifiedType.outline, Prod.mk.injEq] at hresult
    obtain ⟨hname, htag, hkeys⟩ := hresult
    obtain ⟨n, c, hn, hname', -, -, -, hsub⟩ := (CompoundType.Everywhere.here hrecords).2
      (by rw [htag]; decide) (by rw [hkeys]; decide)
    rw [hname] at hname'
    rw [hkeys] at hsub
    revert hn
    fin_cases n <;> simp [enumBaseGraph, enumBase] <;> rintro rfl <;> revert hsub hname' <;> decide

end Dimeta
