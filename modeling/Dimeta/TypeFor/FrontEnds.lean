import Dimeta.Parse.EmptyStack
import Dimeta.TypeFor.PointerLevel

/-!
# Two ways to a parsed type

`experimental::type_for` parses the type that is found for a value as it is, `located_type_for`
parses the type of a member in its place and sets the pointer level. Both return the same unless
the parse of a member makes an event, or reports fewer pointers than are on the chain.
-/

set_option autoImplicit false

namespace Dimeta

open Recursion Recursion.Asking

variable {ι ν : Type}

/-! ### Pointers on a chain -/

/-- The wrappers on the chain of a walk. -/
def Walk.wrappers : Walk ι → List (Wrapper ι)
  | .derived _ d base          => .derived d :: base.wrappers
  | .array _ c elements base   => .array c (elements.filterMap Walk.subrangeCount) :: base.wrappers
  | _                          => []

/-- The wrappers in front of the last event of a chain, given those before the walk. -/
def Walk.reported : Walk ι → List (Wrapper ι) → Option (List (Wrapper ι))
  | .null, _ | .skip _, _ => none
  | .basic _ _, ws | .string _ _, ws | .composite _ _ _ _, ws | .recurring _ _, ws => some ws
  | .node _ x, ws =>
    match x with
    | .subroutineType => some ws
    | _               => none
  | .var _ type, ws => type.reported ws
  | .derived _ d base, ws =>
    if DIEventVisitor.isVoidPointer d || DIEventVisitor.isVtablePtr d then
      some ((base.reported []).getD (ws ++ [.derived d]))
    else base.reported (ws ++ [.derived d])
  | .array _ c elements base, ws =>
    base.reported (ws ++ [.array c (elements.filterMap Walk.subrangeCount)])

/-- The pointers that some wrappers stand for. -/
def pointersOf (ws : List (Wrapper ι)) : ℕ := (ws.flatMap Wrapper.qual).count .kPtr

/-- The pointers of the parsed type: those in front of the last event, if there is one. -/
def Walk.pointersReported (w : Walk ι) : ℕ := ((w.reported []).map pointersOf).getD 0

lemma Walk.reported_of_not_reachesEvent {G : DIGraph ι} (w : Walk ι) (hw : w.TypeOk G)
    (h : w.reachesEvent = false) (ws : List (Wrapper ι)) : w.reported ws = none := by
  match w with
  | .null | .skip _ => rfl
  | .basic _ _ | .string _ _ | .composite _ _ _ _ | .recurring _ _ => cases h
  | .node n x =>
    obtain rfl : x = .subroutineType := hw
    cases h
  | .var _ _ => exact hw.elim
  | .derived n d base =>
    obtain ⟨hclear, hevent⟩ := Bool.or_eq_false_iff.mp h
    rw [reported, hclear]
    exact base.reported_of_not_reachesEvent hw.2 hevent _
  | .array n c elements base => exact base.reported_of_not_reachesEvent hw.2 h _

lemma Parse.result_node_subrange (count : Option ℤ) (p : Parse ι) :
    (p.node (.subrange count)).result = p.result := by
  cases count with
  | none => rfl
  | some count =>
    simp only [Parse.node]
    split <;> rfl

lemma count_static (static : Bool) :
    (if static then [Qualifier.kStatic] else []).count .kPtr = 0 := by
  cases static <;> rfl

/-- An event about a type that is no member. -/
lemma count_result_emitFundamental {p : Parse ι} {ws : List (Wrapper ι)} (h : p.current.Holds ws)
    (hm : p.current.isMember = false) (name : String) (encoding : FundamentalType.Encoding) :
    (p.emitFundamental name encoding).result.qual.count .kPtr = pointersOf ws := by
  simp only [Parse.emitFundamental, Parse.emit, hm, Bool.false_eq_true, if_false]
  have hqual : (makeQualifiedFundamental p.current name encoding).qual =
      p.current.quals ++ if p.current.isMemberStatic then [.kStatic] else [] := rfl
  rw [pointersOf, ← h.quals]
  refine (congrArg (List.count _) hqual).trans ?_
  rw [List.count_append, count_static, add_zero]

/-- The type of the event is set before. -/
lemma count_result_event {p : Parse ι} {ws : List (Wrapper ι)} (h : p.current.Holds ws)
    (hm : p.current.isMember = false) (type : Option (DINode ι)) (name : String)
    (encoding : FundamentalType.Encoding) :
    (Parse.emitFundamental name encoding
      { p with current.type := type }).clearCurrent.result.qual.count .kPtr = pointersOf ws := by
  have hset : ({ p.current with type := type } : MetaData ι).Holds ws := h.congr rfl rfl rfl
  exact count_result_emitFundamental (p := { p with current.type := type }) hset hm name encoding

/-- A record that is neither a member nor a base class. -/
lemma count_result_leave {p inner : Parse ι} {ws : List (Wrapper ι)} {c : DICompositeType ι}
    {m : MetaData ι} (hsame : p.current.SameEntry m) (h : m.Holds ws)
    (hm : p.current.isMember = false) (hbase : p.current.isBaseClass = false) :
    (p.leave m c inner).result.qual.count .kPtr = pointersOf ws := by
  rw [← hsame.isMember] at hm
  rw [← hsame.isBaseClass] at hbase
  simp only [Parse.leave, hm, hbase, Bool.false_eq_true, if_false]
  have hqual : (makeQualType (makeCompound c) m).qual =
      m.quals ++ if m.isMemberStatic then [.kStatic] else [] := rfl
  rw [pointersOf, ← h.quals]
  refine (congrArg (List.count _) hqual).trans ?_
  rw [List.count_append, count_static, add_zero]

section Chains

variable [DecidableEq ι] {G : DIGraph ι}

lemma result_subranges {elements : List (Walk ι)} (hsub : AllSubranges elements) (p : Parse ι) :
    (parseElements elements p).result = p.result := by
  induction elements generalizing p with
  | nil => rfl
  | cons w elements ih =>
    obtain ⟨n, count, rfl⟩ := hsub w List.mem_cons_self
    rw [parseElements, ih fun w hw => hsub w (List.mem_cons_of_mem _ hw), parse,
      Parse.result_node_subrange]

/-- The pointers of the type that the parse of a chain returns. -/
lemma count_result_parse (w : Walk ι) (hw : w.TypeOk G) {p : Parse ι} {ws : List (Wrapper ι)}
    (h : p.current.Holds ws) (henum : p.enumData.isEnum = false)
    (hfree : w.reachesEvent = true → p.current.isMember = false ∧ p.current.isBaseClass = false) :
    (parse w p).result.qual.count .kPtr =
      ((w.reported ws).map pointersOf).getD (p.result.qual.count .kPtr) := by
  match w with
  | .null | .skip _ => rfl
  | .basic n b =>
    simp only [parse, Parse.basic, henum, Bool.false_eq_true, if_false]
    exact count_result_event h (hfree rfl).1 _ _ _
  | .string n t => exact count_result_event h (hfree rfl).1 _ _ _
  | .node n x =>
    obtain rfl : x = .subroutineType := hw
    exact count_result_event h (hfree rfl).1 _ _ _
  | .var n type => exact hw.elim
  | .derived n d base =>
    have hsame := MetaData.visitDerived_of_not_isElement hw.1 p.current
    cases hclear : DIEventVisitor.isVoidPointer d || DIEventVisitor.isVtablePtr d with
    | true =>
      -- the event of the pointer fires here; what is below counts from anew
      have hmember : (p.current.visitDerived d).isMember = false :=
        hsame.isMember.trans (hfree (by simp [Walk.reachesEvent, hclear])).1
      have hcurrent := Parse.current_derived_of_event hclear p
      have hcount : (p.derived d).result.qual.count .kPtr = pointersOf (ws ++ [.derived d]) := by
        obtain ⟨name, encoding, isVoidPtr, hderived⟩ := Parse.derived_of_event hclear p
        rw [hderived, Parse.clearCurrent]
        exact count_result_emitFundamental ((h.visitDerived d).congr rfl rfl rfl) hmember _ _
      have hcleared : (p.derived d).current.Holds [] := by
        rw [hcurrent]
        exact MetaData.holds_default
      have hbase := count_result_parse base hw.2 hcleared (by rw [Parse.isEnum_derived, henum])
        fun _ => by rw [hcurrent]; exact ⟨rfl, rfl⟩
      rw [parse, hbase, hcount, Walk.reported, if_pos hclear]
      cases base.reported [] <;> rfl
    | false =>
      rw [parse, Parse.derived_of_collected hclear, Walk.reported, hclear]
      refine count_result_parse base hw.2 (h.visitDerived d) henum fun hevent => ?_
      obtain ⟨hm, hb⟩ := hfree (by simp [Walk.reachesEvent, hevent])
      exact ⟨hsame.isMember.trans hm, hsame.isBaseClass.trans hb⟩
  | .array n c elements base =>
    obtain ⟨hsub, hbase⟩ := hw
    obtain ⟨-, henumData, -, hsame⟩ := parseElements_of_allSubranges hsub
      { p with current := p.current.visitArray c }
    have hholds := holds_subranges hsub (p := { p with current := p.current.visitArray c })
      (h.visitArray c (elements.filterMap Walk.subrangeCount))
    have hchain := count_result_parse base hbase hholds (by rw [henumData, henum]) fun hevent => by
      obtain ⟨hm, hb⟩ := hfree hevent
      exact ⟨hsame.isMember.trans hm, hsame.isBaseClass.trans hb⟩
    rw [parse, hchain, result_subranges hsub, Walk.reported]
  | .composite n c base elements =>
    obtain ⟨hm, hb⟩ := hfree rfl
    simp only [parse]
    exact count_result_leave ⟨rfl, rfl, rfl, rfl, rfl, rfl⟩ (h.congr rfl rfl rfl) hm hb
  | .recurring n c =>
    obtain ⟨hm, hb⟩ := hfree rfl
    simp only [parse]
    exact count_result_leave ⟨rfl, rfl, rfl, rfl, rfl, rfl⟩ (h.congr rfl rfl rfl) hm hb

/-- Without an event the parse returns what it returned before. -/
lemma result_of_not_reachesEvent (w : Walk ι) (hw : w.TypeOk G) (h : w.reachesEvent = false)
    (p : Parse ι) : (parse w p).result = p.result := by
  match w with
  | .null | .skip _ => rfl
  | .basic _ _ | .string _ _ | .composite _ _ _ _ | .recurring _ _ => cases h
  | .node n x =>
    obtain rfl : x = .subroutineType := hw
    cases h
  | .var _ _ => exact hw.elim
  | .derived n d base =>
    obtain ⟨hclear, hevent⟩ := Bool.or_eq_false_iff.mp h
    rw [parse, result_of_not_reachesEvent base hw.2 hevent, Parse.derived_of_collected hclear]
  | .array n c elements base =>
    rw [parse, result_of_not_reachesEvent base hw.2 h, result_subranges hw.1]

/-- The level of a type is the number of pointers on its chain, in front of the first array. -/
lemma exists_finalDitypeLoop_of_walk {fuel : ℕ} {visited : Finset ι} {n : ι} {w : Walk ι}
    (h : G.walk fuel visited n = some w) : ∃ final, ∀ fuel' ≥ fuel, ∀ level : ℤ,
      finalDitypeLoop G fuel' n level = .ok (final, level + pointersInFront w.wrappers) := by
  induction fuel generalizing n w with
  | zero => cases h
  | succ fuel ih =>
    have hstop : (∀ d, G.node n ≠ .derivedType d) → pointersInFront w.wrappers = 0 →
        ∃ final, ∀ fuel' ≥ fuel + 1, ∀ level : ℤ,
          finalDitypeLoop G fuel' n level = .ok (final, level + pointersInFront w.wrappers) := by
      intro hn hw
      refine ⟨n, fun fuel' hle level => ?_⟩
      obtain ⟨k, rfl⟩ := Nat.exists_eq_succ_of_ne_zero (Nat.ne_zero_of_lt hle)
      rw [hw]
      cases hnode : G.node n with
      | derivedType d => exact absurd hnode (hn d)
      | _ => simp [finalDitypeLoop, hnode]
    cases DIGraph.walkStep_of_walk h with
    | @derived d base hn hbase =>
      cases hd : d.baseType with
      | none =>
        rw [hd] at hbase
        cases hbase
        refine ⟨n, fun fuel' hle level => ?_⟩
        obtain ⟨k, rfl⟩ := Nat.exists_eq_succ_of_ne_zero (Nat.ne_zero_of_lt hle)
        by_cases htag : d.tag = .pointerType
        · simp [finalDitypeLoop, hn, hd, htag, Walk.wrappers, pointersInFront]
        · simp [finalDitypeLoop, hn, hd, htag, Walk.wrappers, pointersInFront]
      | some b =>
        rw [hd] at hbase
        obtain ⟨final, hloop⟩ := ih hbase.of_some
        refine ⟨final, fun fuel' hle level => ?_⟩
        obtain ⟨k, rfl⟩ := Nat.exists_eq_succ_of_ne_zero (Nat.ne_zero_of_lt hle)
        simp only [finalDitypeLoop, hn, hd]
        rw [hloop k (Nat.le_of_succ_le_succ hle), Walk.wrappers, pointersInFront]
        by_cases htag : d.tag = .pointerType
        · simp [htag, add_assoc]
        · simp [htag]
    | basic hn => exact hstop (by simp [hn]) rfl
    | string hn => exact hstop (by simp [hn]) rfl
    | node hn hplain =>
      refine hstop (fun d hd => ?_) rfl
      rw [← hn, hd] at hplain
      cases hplain
    | var hn _ => exact hstop (by simp [hn]) rfl
    | array hn _ _ _ _ => exact hstop (by simp [hn]) rfl
    | composite hn _ _ _ _ => exact hstop (by simp [hn]) rfl
    | recurring hn _ => exact hstop (by simp [hn]) rfl
    | skip hn => exact hstop (by rcases hn with hn | hn <;> simp [hn]) rfl

end Chains

/-! ### Type graphs -/

/-- A chain of derived types, none of which is a vtable pointer, that ends in a record. -/
inductive DIGraph.ReachesRecord (G : DIGraph ι) : Option ι → Prop
  | record {n : ι} {c : DICompositeType ι} (hn : G.node n = .compositeType c)
      (htag : c.tag ≠ .arrayType) : ReachesRecord G (some n)
  | derived {n b : ι} {d : DIDerivedType ι} (hn : G.node n = .derivedType d)
      (hvtbl : DIEventVisitor.isVtablePtr d = false) (hd : d.baseType = some b)
      (hbase : ReachesRecord G (some b)) : ReachesRecord G (some n)

/-- A type graph in which base classes are records, and only members are flagged as static
members. -/
structure MemberGraph (ι : Type) extends RecordGraph ι where
  inheritance_record : ∀ n d, node n = .derivedType d → d.tag = .inheritance →
    DIEventVisitor.isVtablePtr d = false ∧ toDIGraph.ReachesRecord d.baseType
  isMember_isMemberNode : ∀ n d, node n = .derivedType d →
    (DINode.derivedType d).isMember = true → d.isMemberNode = true

section Agree

variable [DecidableEq ι]

lemma reachesRecord_of_typeWalk {G : DIGraph ι} {type : Option ι} (h : G.ReachesRecord type)
    {fuel : ℕ} {visited : Finset ι} {w : Walk ι}
    (hw : TypeWalk (fun n w => G.walk fuel visited n = some w) type w) :
    w.reachesRecord = true := by
  induction h generalizing fuel w with
  | @record n c hn htag =>
    have hw := hw.of_some
    cases fuel with
    | zero => cases hw
    | succ fuel =>
      by_cases hvisited : n ∈ visited
      · obtain rfl := DIGraph.walk_recurring hn hvisited hw
        rfl
      · obtain ⟨base, elements, rfl, -, -⟩ := DIGraph.walk_composite hn htag hvisited hw
        rfl
  | @derived n b d hn hvtbl hd _ ih =>
    have hw := hw.of_some
    cases fuel with
    | zero => cases hw
    | succ fuel =>
      obtain ⟨base, rfl, hbase⟩ := DIGraph.walk_derived hn hw
      rw [hd] at hbase
      have hvoid : DIEventVisitor.isVoidPointer d = false := by
        simp [DIEventVisitor.isVoidPointer, hd]
      rw [Walk.reachesRecord, hvoid, hvtbl, ih hbase]
      rfl

/-! ### Agreement -/

/-- What `experimental::type_for` returned is what `located_type_for` makes of the entry type `t`
and this pointer level, and no event of their parses is about a record on an empty stack. -/
structure FrontEndsAgree (G : DIGraph ι) (fuel : ℕ) (t : ι) (level : ℤ)
    (returned : Option QualifiedType) : Prop where
  located : ∀ (data : DimetaData ι) (location : SourceLocation), data.entryType = some (some t) →
    data.pointerLevel = level → data.shape = none →
      locatedTypeFor G fuel data (some location) = .ok (returned.map (⟨·, location⟩))
  defined : ParseDefined G fuel t
  entryDefined : ∀ n, entryTypeOf G t = some n → ParseDefined G fuel n

/-- The type `t` with walk `w` is no base class; if it is a member, it has a type and no event fires
on its chain; and no pointer on its chain is in front of no event. -/
structure DIGraph.Plain (G : DIGraph ι) (t : ι) (w : Walk ι) : Prop where
  base : ∀ d, G.node t = .derivedType d → d.tag ≠ .inheritance
  silent : ∀ d, G.node t = .derivedType d → d.isMemberNode = true → w.reachesEvent = false
  typed : ∀ d, G.node t = .derivedType d → (DINode.derivedType d).isMember = true →
    d.baseType ≠ none
  level : pointersInFront w.wrappers ≤ w.pointersReported

/-- The level is set on the type that was parsed: nothing changes if the type has as many pointers. -/
lemma locatedTypeFor_eq_parsed_iff {G : DIGraph ι} {fuel : ℕ} {t : ι} {type : QualifiedType}
    (h : parseEntryType G fuel t = .ok (some type)) {level : ℤ} :
    (∀ (data : DimetaData ι) (location : SourceLocation), data.entryType = some (some t) →
      data.pointerLevel = level → data.shape = none →
        locatedTypeFor G fuel data (some location) = .ok (some ⟨type, location⟩)) ↔
      level ≤ type.qual.count .kPtr := by
  constructor
  · intro hall
    by_contra hlt
    have hlocated := hall ⟨.kHeap, some (some t), none, none, level⟩ default rfl rfl rfl
    rw [locatedTypeFor_eq_some] at hlocated
    obtain ⟨t', type', ht', htype', -, heq⟩ := hlocated
    cases ht'
    rw [h] at htype'
    cases htype'
    have hqual := congrArg QualifiedType.qual heq
    rw [Option.elim_none, qual_resetPointerQualifier, if_pos (not_le.mp hlt)] at hqual
    exact absurd hqual.symm (List.cons_ne_self _ _)
  · intro hle data location hdata hlevel hshape
    rw [locatedTypeFor_eq_some]
    refine ⟨t, type, hdata, h, rfl, ?_⟩
    rw [hshape, hlevel, resetPointerQualifier_of_le hle]
    rfl

namespace MemberGraph

variable (G : MemberGraph ι) {fuel : ℕ} {t : ι} {w : Walk ι}

lemma parseType_eq (h : G.walk fuel ∅ t = some w) (ht : (G.node t).isType = true) :
    parseType G.toDIGraph fuel t = .ok (some (parse w {}).result) := by
  rw [parseType, makeDimetadata_eq h (by rw [ht, Bool.or_true])]

/-- A member on whose chain no event fires is parsed as its type. -/
lemma parseEntryType_of_silent (h : G.walk fuel ∅ t = some w) {d : DIDerivedType ι}
    (hn : G.node t = .derivedType d) (hd : d.isMemberNode = true) (hsilent : w.reachesEvent = false)
    (htyped : (DINode.derivedType d).isMember = true → d.baseType ≠ none) :
    parseEntryType G.toDIGraph fuel t = .ok (some (parse w {}).result) ∧
      ∀ n, entryTypeOf G.toDIGraph t = some n → ParseDefined G.toDIGraph fuel n := by
  have ht : (G.node t).isType = true := by rw [hn]; rfl
  cases hmember : (DINode.derivedType d).isMember with
  | false =>
    have hentry : entryTypeOf G.toDIGraph t = some t := by simp [entryTypeOf, hn, hmember]
    refine ⟨?_, fun n hentry' => ?_⟩
    · rw [parseEntryType, hentry, deref, ok_bind, G.parseType_eq h ht]
    · rw [hentry] at hentry'
      cases hentry'
      exact (G.parseDefined_of_member h hn hd).mpr hsilent
  | true =>
    obtain ⟨b, hb⟩ := Option.ne_none_iff_exists'.mp (htyped hmember)
    have hentry : entryTypeOf G.toDIGraph t = some b := by simp [entryTypeOf, hn, hmember, hb]
    have hok := (G.walk_ok fuel ∅).2 t (.inr ⟨d, hn, by simp [DIDerivedType.isElement, hd]⟩) w h
    have hnode : (G.node b).isTypeNode = true := G.typeRef_isTypeNode t b (by rw [hn]; exact hb)
    cases fuel with
    | zero => cases h
    | succ fuel =>
      obtain ⟨base, rfl, hbase⟩ := DIGraph.walk_derived hn h
      rw [hb] at hbase
      have hwalk := DIGraph.walk_mono (Nat.le_succ fuel) hbase.of_some
      obtain ⟨hclear, hevent⟩ := Bool.or_eq_false_iff.mp hsilent
      have hresult : (parse (.derived t d base) {}).result = (parse base {}).result := by
        rw [parse, result_of_not_reachesEvent base hok.2 hevent,
          result_of_not_reachesEvent base hok.2 hevent, Parse.derived_of_collected hclear]
      refine ⟨?_, fun n hentry' => ?_⟩
      · simp only [DINode.isTypeNode, Bool.and_eq_true] at hnode
        rw [parseEntryType, hentry, deref, ok_bind, G.parseType_eq hwalk hnode.1, hresult]
      · rw [hentry] at hentry'
        cases hentry'
        exact G.parseDefined_of_type hwalk hnode

/-- Without an event no pointer is reported. -/
lemma pointersReported_of_silent (h : G.walk fuel ∅ t = some w) {d : DIDerivedType ι}
    (hn : G.node t = .derivedType d) (hd : d.isMemberNode = true)
    (hsilent : w.reachesEvent = false) :
    w.pointersReported = (parse w {}).result.qual.count .kPtr := by
  have hok := (G.walk_ok fuel ∅).2 t (.inr ⟨d, hn, by simp [DIDerivedType.isElement, hd]⟩) w h
  cases fuel with
  | zero => cases h
  | succ fuel =>
    obtain ⟨base, rfl, -⟩ := DIGraph.walk_derived hn h
    obtain ⟨hclear, hevent⟩ := Bool.or_eq_false_iff.mp hsilent
    rw [Walk.pointersReported, Walk.reported, hclear, parse,
      result_of_not_reachesEvent base hok.2 hevent, Parse.derived_of_collected hclear]
    have hnone := base.reported_of_not_reachesEvent hok.2 hevent ([] ++ [.derived d])
    simp only [Bool.false_eq_true, if_false, hnone]
    rfl

lemma front_ends_agree_member (h : G.walk fuel ∅ t = some w) {d : DIDerivedType ι}
    (hn : G.node t = .derivedType d) (hd : d.isMemberNode = true) :
    FrontEndsAgree G.toDIGraph fuel t (pointersInFront w.wrappers) (some (parse w {}).result) ↔
      G.Plain t w := by
  have hnot : d.tag ≠ .inheritance := by
    intro htag
    simp [DIDerivedType.isMemberNode, htag] at hd
  constructor
  · intro hagree
    have hsilent := (G.parseDefined_of_member h hn hd).mp hagree.defined
    have htyped : (DINode.derivedType d).isMember = true → d.baseType ≠ none := by
      intro hmember hbase
      have hentry : entryTypeOf G.toDIGraph t = none := by simp [entryTypeOf, hn, hmember, hbase]
      have hlocated := hagree.located ⟨.kHeap, some (some t), none, none, _⟩ default rfl rfl rfl
      rw [Option.map_some, locatedTypeFor_eq_some] at hlocated
      obtain ⟨t', _, ht', hparse, -⟩ := hlocated
      cases ht'
      rw [parseEntryType, hentry] at hparse
      cases hparse
    have hlevel := (locatedTypeFor_eq_parsed_iff
      (G.parseEntryType_of_silent h hn hd hsilent htyped).1).mp hagree.located
    refine ⟨fun d' hn' => ?_, fun d' hn' _ => hsilent, fun d' hn' => ?_, ?_⟩
    · rw [hn] at hn'
      cases hn'
      exact hnot
    · rw [hn] at hn'
      cases hn'
      exact htyped
    · rw [G.pointersReported_of_silent h hn hd hsilent]
      exact Int.ofNat_le.mp hlevel
  · intro hplain
    have hsilent := hplain.silent d hn hd
    obtain ⟨hparse, hentry⟩ := G.parseEntryType_of_silent h hn hd hsilent (hplain.typed d hn)
    have hlevel := hplain.level
    rw [G.pointersReported_of_silent h hn hd hsilent] at hlevel
    exact ⟨(locatedTypeFor_eq_parsed_iff hparse).mpr (Int.ofNat_le.mpr hlevel),
      (G.parseDefined_of_member h hn hd).mpr hsilent, hentry⟩

lemma front_ends_agree_type (h : G.walk fuel ∅ t = some w) (hn : (G.node t).isTypeNode = true) :
    FrontEndsAgree G.toDIGraph fuel t (pointersInFront w.wrappers) (some (parse w {}).result) ↔
      G.Plain t w := by
  have hdefined := G.parseDefined_of_type h hn
  have hok := (G.walk_ok fuel ∅).1 t w h hn
  simp only [DINode.isTypeNode, Bool.and_eq_true] at hn
  have helement : ∀ d, G.node t = .derivedType d → d.isElement = false := by
    intro d hd
    simpa [hd, DINode.asDerived] using hn.2
  have hentry : entryTypeOf G.toDIGraph t = some t := by
    cases hnode : G.node t with
    | derivedType d =>
      have hmember : (DINode.derivedType d).isMember = false := by
        by_contra hmember
        have hd := G.isMember_isMemberNode t d hnode (Bool.not_eq_false _ ▸ hmember)
        have := helement d hnode
        simp [DIDerivedType.isElement, hd] at this
      simp [entryTypeOf, hnode, hmember]
    | _ => simp [entryTypeOf, hnode]
  have hparse : parseEntryType G.toDIGraph fuel t = .ok (some (parse w {}).result) := by
    rw [parseEntryType, hentry, deref, ok_bind, G.parseType_eq h hn.1]
  have hcount : w.pointersReported = (parse w {}).result.qual.count .kPtr := by
    have hparsed := count_result_parse w hok (p := {}) MetaData.holds_default rfl
      fun _ => ⟨rfl, rfl⟩
    exact hparsed.symm
  constructor
  · intro hagree
    have hlevel := (locatedTypeFor_eq_parsed_iff hparse).mp hagree.located
    refine ⟨fun d hd htag => ?_, fun d hd hmember => ?_, fun d hd hmember => ?_, ?_⟩
    · have := helement d hd
      simp [DIDerivedType.isElement, htag] at this
    · have := helement d hd
      simp [DIDerivedType.isElement, hmember] at this
    · have := helement d hd
      simp [DIDerivedType.isElement, G.isMember_isMemberNode t d hd hmember] at this
    · rw [hcount]
      exact Int.ofNat_le.mp hlevel
  · intro hplain
    have hlevel := hplain.level
    rw [hcount] at hlevel
    refine ⟨(locatedTypeFor_eq_parsed_iff hparse).mpr (Int.ofNat_le.mpr hlevel), hdefined,
      fun n hn' => ?_⟩
    rw [hentry] at hn'
    cases hn'
    exact hdefined

/-- The front ends agree about a type exactly if it is plain. -/
lemma front_ends_agree_iff (h : G.walk fuel ∅ t = some w) (ht : (G.node t).isType = true) :
    FrontEndsAgree G.toDIGraph fuel t (pointersInFront w.wrappers) (some (parse w {}).result) ↔
      G.Plain t w := by
  cases hnode : (G.node t).isTypeNode with
  | true => exact G.front_ends_agree_type h hnode
  | false =>
    obtain ⟨d, hd, helement⟩ : ∃ d, G.node t = .derivedType d ∧ d.isElement = true := by
      cases hn : G.node t with
      | derivedType d =>
        rw [hn] at hnode
        exact ⟨d, rfl, by simpa [DINode.isTypeNode, DINode.isType, DINode.asDerived] using hnode⟩
      | _ => rw [hn] at hnode ht; simp_all [DINode.isTypeNode, DINode.asDerived]
    cases hmember : d.isMemberNode with
    | true => exact G.front_ends_agree_member h hd hmember
    | false =>
      -- the record of a base class is added to no record
      have htag := DIDerivedType.tag_of_isElement helement hmember
      obtain ⟨hvtbl, hrecord⟩ := G.inheritance_record t d hd htag
      have hreaches : w.reachesRecord = true := by
        cases hbase : d.baseType with
        | none => rw [hbase] at hrecord; cases hrecord
        | some b =>
          rw [hbase] at hrecord
          exact reachesRecord_of_typeWalk (.derived hd hvtbl hbase hrecord) (.type h)
      have hnot := G.not_parseDefined_of_base h hd htag hreaches
      exact iff_of_false (fun hagree => hnot hagree.defined) fun hplain => hplain.base d hd htag

end MemberGraph

/-! ### Values -/

section Values

variable [Fintype ι] [DecidableEq ν] [Fintype ν]

/-- Whatever type is found first for a value, `experimental::type_for` returns what
`located_type_for` makes of it, with the level of `final_ditype`, exactly if the type is plain. -/
theorem type_for_agrees_iff (G : MemberGraph ι) (M : IRModule ι ν) {value : ν}
    {answers : (q : TypeQuery ν) → Option (Except Fault (q.Result ι))} {t : ι} {ts : List ι}
    (htypes : (collectTypes none (M.pathFromValue value)).run answers = some (.ok (t :: ts)))
    (ht : (G.node t).isType = true) : ∃ fuel w final level returned, ∀ fuel' ≥ fuel,
      G.walk fuel' ∅ t = some w ∧
        finalDitype G.toDIGraph fuel' (some (some t)) = .ok (some (some final), level) ∧
          (experimentalTypeFor G.toDIGraph M fuel' value).run answers = some (.ok returned) ∧
            (FrontEndsAgree G.toDIGraph fuel' t level returned ↔ G.Plain t w) := by
  obtain ⟨fuel, w, hw⟩ := DIGraph.hasWalk_of_cyclesPassRecords G.cycles_pass_records ∅ t
  obtain ⟨final, hloop⟩ := exists_finalDitypeLoop_of_walk hw
  refine ⟨fuel, w, final, pointersInFront w.wrappers, some (parse w {}).result,
    fun fuel' hle => ?_⟩
  have hw' := DIGraph.walk_mono hle hw
  refine ⟨hw', ?_, ?_, G.front_ends_agree_iff hw' ht⟩
  · simp only [finalDitype, deref, ok_bind]
    rw [hloop fuel' hle, zero_add]
    rfl
  · have hfirst : firstParsed G.toDIGraph fuel' (t :: ts) =
        .ok (some (parse w {}).result) := by
      simp only [firstParsed, G.parseType_eq hw' ht, ok_bind]
      rfl
    simp only [experimentalTypeFor, run_bind, htypes]
    exact (run_ofExcept _ _).trans (congrArg some hfirst)

end Values

end Agree

/-! ### The address of a field -/

/-- `struct S { int a; int b; }` -/
def intPair : DIGraph (Fin 4) where
  node
    | 0 => .compositeType { tag := .structureType, name := "S", sizeInBits := 64,
                            elements := [1, 2] }
    | 1 => .derivedType { tag := .member, name := "a", sizeInBits := 32, baseType := some 3 }
    | 2 => .derivedType { tag := .member, name := "b", sizeInBits := 32, offsetInBits := 32,
                          baseType := some 3 }
    | 3 => .basicType { name := "int", sizeInBits := 32, encoding := .signed }

def intPairGraph : MemberGraph (Fin 4) where
  toDIGraph := intPair
  typeRef_isTypeNode n b h := by
    fin_cases n <;> simp [intPair, DINode.typeRef] at h <;> subst h <;> rfl
  array_elements n c h htag := by
    fin_cases n <;> simp [intPair] at h
    subst h
    cases htag
  enum_elements n c h htag := by
    fin_cases n <;> simp [intPair] at h
    subst h
    cases htag
  enum_base n c h htag := by
    fin_cases n <;> simp [intPair] at h
    subst h
    cases htag
  record_elements n c h _ _ := by
    fin_cases n <;> simp [intPair] at h
    subst h
    intro e he
    right
    fin_cases e <;> simp at he <;> exact ⟨_, rfl, rfl⟩
  cycles_pass_records := by
    refine DIGraph.cyclesPassRecords_of_lt fun a b h => ?_
    fin_cases a <;> simp [DIGraph.PlainStep, intPair] at h <;> subst h <;> decide
  inheritance_record n d h htag := by
    fin_cases n <;> simp [intPair] at h <;> subst h <;> cases htag
  isMember_isMemberNode n d h _ := by
    fin_cases n <;> simp [intPair] at h <;> subst h <;> rfl

/-- `struct S s; &s.b`, where `s` is 0 and the address of its field is 1. -/
def addressOfField : IRModule (Fin 4) (Fin 2) where
  value
    | 0 => .alloca
    | 1 => .getElementPtr ⟨.struct [.integer 32, .integer 32], 0, [some 0, some 1], []⟩
  users
    | 0 => [1]
    | 1 => []
  mem_users := by decide
  debugLoc _ := none
  dbgRecords := [⟨some 0, ⟨"s", some 0⟩, false⟩]

lemma run_collectTypes_object : (collectTypes none (addressOfField.pathFromValue 0)).run
    (solve (typeQuery intPair addressOfField 8) 3) = some (.ok [0]) := by
  have hpaths : addressOfField.pathFromValue 0 = [⟨[0]⟩] := DefUseChain.loop_eq_of_run 4 rfl
  rw [hpaths]
  rfl

lemma pathFromValue_field : addressOfField.pathFromValue 1 = [⟨[1, 0]⟩] :=
  DefUseChain.loop_eq_of_run 6 rfl

theorem type_for_agrees_iff_object : ∃ fuel w final level returned, ∀ fuel' ≥ fuel,
    intPair.walk fuel' ∅ 0 = some w ∧
      finalDitype intPair fuel' (some (some 0)) = .ok (some (some final), level) ∧
        (experimentalTypeFor intPair addressOfField fuel' 0).run
          (solve (typeQuery intPair addressOfField 8) 3) = some (.ok returned) ∧
          (FrontEndsAgree intPair fuel' 0 level returned ↔ intPair.Plain 0 w) :=
  type_for_agrees_iff intPairGraph addressOfField run_collectTypes_object rfl

/-- For `&s.b` the member `b` is found: `experimental::type_for` parses it as a member of no
record. -/
theorem not_type_for_agrees : ¬ ∀ (G : MemberGraph (Fin 4)) (M : IRModule (Fin 4) (Fin 2))
    (value : Fin 2) (fuel depth : ℕ) (t final : Fin 4) (ts : List (Fin 4)) (level : ℤ)
    (returned : Option QualifiedType),
    (collectTypes none (M.pathFromValue value)).run (solve (typeQuery G.toDIGraph M fuel) depth) =
      some (.ok (t :: ts)) →
    (G.node t).isType = true →
    finalDitype G.toDIGraph fuel (some (some t)) = .ok (some (some final), level) →
    (experimentalTypeFor G.toDIGraph M fuel value).run (solve (typeQuery G.toDIGraph M fuel) depth) =
      some (.ok returned) →
    FrontEndsAgree G.toDIGraph fuel t level returned := by
  intro h
  have htypes : (collectTypes none (addressOfField.pathFromValue 1)).run
      (solve (typeQuery intPair addressOfField 8) 3) = some (.ok [2]) := by
    rw [pathFromValue_field]
    rfl
  have hreturned : (experimentalTypeFor intPair addressOfField 8 1).run
      (solve (typeQuery intPair addressOfField 8) 3) = some (.ok (some default)) := by
    rw [experimentalTypeFor, pathFromValue_field]
    rfl
  have hagree := h intPairGraph addressOfField 1 8 3 2 3 [] 0 (some default) htypes rfl rfl
    hreturned
  have hundefined : (diparserVisitNode DITypeParser.events intPair 8 2 {}).map
      (·.events.undefined) = some true := rfl
  obtain ⟨s, hs, hundefined⟩ := Option.map_eq_some_iff.mp hundefined
  have hdefined := hagree.defined s hs
  rw [hundefined] at hdefined
  cases hdefined

end Dimeta
