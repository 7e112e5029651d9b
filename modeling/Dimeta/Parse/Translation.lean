import Dimeta.Parse.Independence
import Mathlib.Data.List.ReduceOption

/-!
# The translation of type chains

A type chain is a list of wrappers, derived types and arrays, around the type that it ends in. The
parse collects tags, arrays and typedef names in three lists on the way down and combines them at
the end; each of the lists is the one of the wrappers, in order, behind what was left in the
metadata before.
-/

set_option autoImplicit false

namespace Dimeta

variable {ι : Type}

/-! ### Chains -/

/-- A derived type, or an array with the counts of its subranges, as far as they are constant. -/
inductive Wrapper (ι : Type) where
  | derived (d : DIDerivedType ι)
  | array (c : DICompositeType ι) (counts : List (Option ℤ))

/-- Types that a chain ends in. -/
def DINode.endsChain : DINode ι → Bool
  | .basicType _ | .stringType _ | .subroutineType => true
  | .compositeType c => c.tag != .arrayType
  | _ => false

/-- A chain of wrappers from a node to the type that it ends in, or to a pointer to `void`. -/
inductive DIGraph.TypeChain (G : DIGraph ι) : ι → List (Wrapper ι) → Prop
  | leaf {n : ι} (hn : (G.node n).endsChain = true) : TypeChain G n []
  | void {n : ι} {d : DIDerivedType ι} (hn : G.node n = .derivedType d)
      (htag : d.tag = .pointerType) (hbase : d.baseType = none) : TypeChain G n [.derived d]
  | derived {n b : ι} {d : DIDerivedType ι} {ws : List (Wrapper ι)}
      (hn : G.node n = .derivedType d) (helement : d.isElement = false) (harray : d.tag ≠ .arrayType)
      (hvtbl : DIEventVisitor.isVtablePtr d = false) (hbase : d.baseType = some b)
      (h : TypeChain G b ws) : TypeChain G n (.derived d :: ws)
  | array {n b : ι} {c : DICompositeType ι} {counts : List (Option ℤ)} {ws : List (Wrapper ι)}
      (hn : G.node n = .compositeType c) (htag : c.tag = .arrayType)
      (helements : List.Forall₂ (fun e count => G.node e = .subrange count) c.elements counts)
      (hbase : c.baseType = some b) (h : TypeChain G b ws) : TypeChain G n (.array c counts :: ws)

namespace Wrapper

/-- The qualifiers that a wrapper stands for. -/
def qual : Wrapper ι → List Qualifier
  | .derived d =>
    match d.tag with
    | .pointerType     => [.kPtr]
    | .referenceType   => [.kRef]
    | .constType       => [.kConst]
    | .ptrToMemberType => [.kPtrToMember]
    | .arrayType       => [.kArray]
    | _                => []
  | .array c _ => (if c.isVector then .kVector else .kArray) :: if c.associated then [.kPtr] else []

/-- The number of elements, modulo 2^64; negative counts are read as 0. -/
def arraySize : Wrapper ι → Option UInt64
  | .derived _      => none
  | .array _ counts => some (UInt64.ofNat (counts.reduceOption.map Int.toNat).prod)

def typedefName : Wrapper ι → Option String
  | .derived d => if d.tag = .typedef then some d.name else none
  | .array _ _ => none

/-- The counts are constants of 64 bits. -/
def CountsFit : Wrapper ι → Prop
  | .derived _      => True
  | .array _ counts => ∀ k : ℤ, some k ∈ counts → k < 2 ^ 64

end Wrapper

/-! ### What the metadata collects -/

namespace MetaData

def visitSubranges (counts : List (Option ℤ)) (m : MetaData ι) : MetaData ι :=
  counts.foldl (fun m count => count.elim m m.visitSubrange) m

/-- The metadata below a wrapper. -/
def collect (m : MetaData ι) : Wrapper ι → MetaData ι
  | .derived d      => m.visitDerived d
  | .array c counts => (m.visitArray c).visitSubranges counts

def collectAll (m : MetaData ι) (ws : List (Wrapper ι)) : MetaData ι := ws.foldl collect m

/-- The qualifiers collected so far. -/
def quals (m : MetaData ι) : List Qualifier := makeQualifiers m.dwarfTags

def sizes (m : MetaData ι) : List UInt64 := makeArraySizes m.arrays

end MetaData

lemma makeQualifiers_append (tags tags' : List CollectedTag) :
    makeQualifiers (tags ++ tags') = makeQualifiers tags ++ makeQualifiers tags' := by
  rw [makeQualifiers, makeQualifiers, makeQualifiers, List.filter_append, List.map_append]

lemma modifyBack_append {α : Type} (f : α → α) (as : List α) (a : α) :
    modifyBack f (as ++ [a]) = as ++ [f a] := by
  induction as with
  | nil => rfl
  | cons b as ih =>
    cases as with
    | nil => rfl
    | cons c as =>
      have hcons : modifyBack f (b :: (c :: as ++ [a])) = b :: modifyBack f (c :: as ++ [a]) := by
        cases as <;> rfl
      rw [List.cons_append, hcons, ih]
      rfl

/-- What a pointer writes into the last array does not change its size. -/
lemma makeArraySizes_modifyBack (size : UInt64) (arrays : List ArrayData) :
    makeArraySizes (modifyBack (fun a => { a with arrayOfPointer := size }) arrays) =
      makeArraySizes arrays := by
  rcases List.eq_nil_or_concat arrays with rfl | ⟨as, a, rfl⟩
  · rfl
  · rw [List.concat_eq_append, modifyBack_append, makeArraySizes, makeArraySizes, List.map_append,
      List.map_append]
    rfl

namespace MetaData

lemma visitSubrange_of_append {m : MetaData ι} {as : List ArrayData} {a : ArrayData}
    (h : m.arrays = as ++ [a]) (count : ℤ) :
    (m.visitSubrange count).arrays = as ++ [{ a with subranges := a.subranges ++
      [if 0 ≤ count then UInt64.ofNat (min count.toNat (UInt64.size - 1)) else 0] }] := by
  rw [visitSubrange, h, modifyBack_append]

/-- Subranges change nothing but the last array. -/
lemma visitSubranges_eq (counts : List (Option ℤ)) (m : MetaData ι) :
    m.visitSubranges counts = { m with arrays := (m.visitSubranges counts).arrays } := by
  induction counts generalizing m with
  | nil => rfl
  | cons count counts ih =>
    have hstep : m.visitSubranges (count :: counts) =
        (count.elim m m.visitSubrange).visitSubranges counts := rfl
    rw [hstep, ih]
    cases count with
    | none => rfl
    | some k => rfl

/-- The product of the counts. -/
lemma sizes_visitSubranges {counts : List (Option ℤ)}
    (hcounts : ∀ k : ℤ, some k ∈ counts → k < 2 ^ 64) {m : MetaData ι} {as : List ArrayData}
    {a : ArrayData} {s : ℕ} (h : m.arrays = as ++ [a])
    (hs : a.subranges.foldl (· * ·) 1 = UInt64.ofNat s) :
    (m.visitSubranges counts).sizes =
      makeArraySizes as ++ [UInt64.ofNat (s * (counts.reduceOption.map Int.toNat).prod)] := by
  induction counts generalizing m a s with
  | nil =>
    have hnil : m.visitSubranges [] = m := rfl
    rw [hnil, sizes, h, makeArraySizes, List.map_append, List.map_singleton, hs]
    rw [List.reduceOption_nil, List.map_nil, List.prod_nil, mul_one]
    rfl
  | cons count counts ih =>
    have hstep : m.visitSubranges (count :: counts) =
        (count.elim m m.visitSubrange).visitSubranges counts := rfl
    have hrest : ∀ k : ℤ, some k ∈ counts → k < 2 ^ 64 :=
      fun k hk => hcounts k (List.mem_cons_of_mem _ hk)
    rw [hstep]
    cases count with
    | none => exact ih hrest h hs
    | some k =>
      have hk := hcounts k List.mem_cons_self
      have hrange : (if 0 ≤ k then UInt64.ofNat (min k.toNat (UInt64.size - 1)) else 0) =
          UInt64.ofNat k.toNat := by
        by_cases hneg : 0 ≤ k
        · rw [if_pos hneg, min_eq_left]
          have hsize : UInt64.size = 2 ^ 64 := rfl
          omega
        · rw [if_neg hneg, Int.toNat_of_nonpos (not_le.mp hneg).le]
          rfl
      rw [List.reduceOption_cons_of_some, List.map_cons, List.prod_cons, ← mul_assoc]
      apply ih hrest (m.visitSubrange_of_append h k)
      rw [List.foldl_append, hs, hrange, UInt64.ofNat_mul]
      rfl

variable (m : MetaData ι)

lemma quals_visitDerived (d : DIDerivedType ι) :
    (m.visitDerived d).quals = m.quals ++ (Wrapper.derived d).qual := by
  have happend : ∀ tag : CollectedTag, makeQualifiers (m.dwarfTags ++ [tag]) =
      m.quals ++ makeQualifiers [tag] := fun tag => makeQualifiers_append _ _
  simp only [visitDerived, Wrapper.qual]
  cases htag : d.tag with
  | var =>
    simp only
    split_ifs
    · exact (List.append_nil _).symm
    · exact (List.append_nil _).symm
  | member => exact (List.append_nil _).symm
  | typedef => exact (List.append_nil _).symm
  | inheritance => exact (List.append_nil _).symm
  | _ => exact happend _

lemma quals_collect (w : Wrapper ι) : (m.collect w).quals = m.quals ++ w.qual := by
  cases w with
  | derived d => exact m.quals_visitDerived d
  | array c counts =>
    have htags : (m.collect (.array c counts)).dwarfTags = (m.visitArray c).dwarfTags := by
      rw [collect, visitSubranges_eq]
    rw [quals, htags, visitArray, makeQualifiers_append, makeQualifiers_append, List.append_assoc]
    congr 1
    simp only [Wrapper.qual]
    cases c.isVector <;> cases c.associated <;> rfl

lemma sizes_visitDerived (d : DIDerivedType ι) : (m.visitDerived d).sizes = m.sizes := by
  simp only [visitDerived]
  split
  · rfl
  · split_ifs <;> rfl
  · rfl
  · rfl
  · exact makeArraySizes_modifyBack _ _
  · rfl

lemma sizes_collect {w : Wrapper ι} (hw : w.CountsFit) :
    (m.collect w).sizes = m.sizes ++ w.arraySize.toList := by
  cases w with
  | derived d =>
    rw [collect, sizes_visitDerived]
    exact (List.append_nil _).symm
  | array c counts =>
    have hsizes := sizes_visitSubranges hw (m := m.visitArray c) (s := 1) rfl rfl
    rw [one_mul] at hsizes
    exact hsizes

lemma typedefNames_collect (w : Wrapper ι) :
    (m.collect w).typedefNames = m.typedefNames ++ w.typedefName.toList := by
  cases w with
  | derived d =>
    by_cases htag : d.tag = .typedef
    · simp only [collect, visitDerived, Wrapper.typedefName, htag, if_true]
      rfl
    · simp only [collect, visitDerived, Wrapper.typedefName, if_neg htag]
      split
      · exact (List.append_nil _).symm
      · split_ifs
        · exact (List.append_nil _).symm
        · exact (List.append_nil _).symm
      · next h => exact absurd h htag
      · exact (List.append_nil _).symm
      · exact (List.append_nil _).symm
      · exact (List.append_nil _).symm
  | array c counts =>
    rw [collect, visitSubranges_eq]
    exact (List.append_nil _).symm

/-! The three lists behind a whole chain. -/

lemma quals_collectAll (ws : List (Wrapper ι)) :
    (m.collectAll ws).quals = m.quals ++ ws.flatMap Wrapper.qual := by
  induction ws generalizing m with
  | nil => exact (List.append_nil _).symm
  | cons w ws ih =>
    rw [collectAll, List.foldl_cons, ← collectAll, ih, quals_collect, List.flatMap_cons,
      List.append_assoc]

lemma sizes_collectAll {ws : List (Wrapper ι)} (hws : ∀ w ∈ ws, w.CountsFit) :
    (m.collectAll ws).sizes = m.sizes ++ ws.filterMap Wrapper.arraySize := by
  induction ws generalizing m with
  | nil => exact (List.append_nil _).symm
  | cons w ws ih =>
    have hrest : ∀ w ∈ ws, w.CountsFit := fun w' hw' => hws w' (List.mem_cons_of_mem _ hw')
    rw [collectAll, List.foldl_cons, ← collectAll, ih _ hrest,
      sizes_collect _ (hws w List.mem_cons_self), List.append_assoc, filterMap_cons_toList]

lemma typedefNames_collectAll (ws : List (Wrapper ι)) :
    (m.collectAll ws).typedefNames = m.typedefNames ++ ws.filterMap Wrapper.typedefName := by
  induction ws generalizing m with
  | nil => exact (List.append_nil _).symm
  | cons w ws ih =>
    rw [collectAll, List.foldl_cons, ← collectAll, ih, typedefNames_collect, List.append_assoc,
      filterMap_cons_toList]

end MetaData

/-! ### Types that are made of the metadata -/

/-- The type has what was collected around it. -/
structure Carries (type : QualifiedType) (m : MetaData ι) : Prop where
  qual : type.qual = m.quals ++ if m.isMemberStatic then [.kStatic] else []
  arraySize : type.arraySize = m.sizes
  typedefName : type.typedefName = m.typedefNames.headD ""

/-- The parse went on from `p` to `p'` with one event, about this type. -/
structure Emits (p p' : Parse ι) (type : QualifiedType) : Prop where
  member : p.current.isMember = true → p'.entries = p.entries ++ [.ofMember type p.current]
  free : p.current.isMember = false → p.current.isBaseClass = false →
    p'.entries = p.entries ∧ p'.result = type

lemma Emits.of_sameEntry {p q p' : Parse ι} {type : QualifiedType} (h : Emits q p' type)
    (hsame : p.current.SameEntry q.current) (hentries : q.entries = p.entries) :
    Emits p p' type where
  member hm := by
    rw [h.member (hsame.isMember.trans hm), hentries, hsame.ofMember_eq]
  free hm hb := by
    obtain ⟨hkeep, hresult⟩ := h.free (hsame.isMember.trans hm) (hsame.isBaseClass.trans hb)
    exact ⟨hkeep.trans hentries, hresult⟩

lemma emits_fundamental (p : Parse ι) (name : String) (encoding : FundamentalType.Encoding) :
    Emits p (p.emitFundamental name encoding).clearCurrent
      (.fundamental (makeQualifiedFundamental p.current name encoding)) := by
  simp only [Parse.emitFundamental, Parse.emit]
  constructor
  · intro hm
    rw [if_pos hm]
    rfl
  · intro hm _
    rw [if_neg (by simp [hm])]
    exact ⟨rfl, rfl⟩

lemma emits_leave (p inner : Parse ι) (c : DICompositeType ι) {m : MetaData ι}
    (hm : p.current.SameEntry m) : Emits p (p.leave m c inner)
      (.compound { makeQualType (makeCompound c) m with
        type := (makeCompound c).addAll inner.entries }) := by
  simp only [Parse.leave]
  constructor
  · intro hmember
    rw [if_pos (hm.isMember.trans hmember), hm.ofMember_eq]
    rfl
  · intro hmember hbase
    rw [if_neg (by simp [hm.isMember, hmember]), if_neg (by simp [hm.isBaseClass, hbase])]
    exact ⟨rfl, rfl⟩

section Chain

variable [DecidableEq ι] {G : DIGraph ι} {fuel : ℕ} {visited : Finset ι} {n : ι} {w : Walk ι}

/-- The elements of an array are its subranges. -/
lemma parseElements_subranges {es : List ι} {counts : List (Option ℤ)} {elements : List (Walk ι)}
    (hnodes : List.Forall₂ (fun e count => G.node e = .subrange count) es counts)
    (hwalks : List.Forall₂ (fun n w => G.walk fuel visited n = some w) es elements)
    {p : Parse ι} (hp : p.current.arrays ≠ []) :
    parseElements elements p = { p with current := p.current.visitSubranges counts } := by
  induction hnodes generalizing elements p with
  | nil =>
    cases hwalks
    rfl
  | @cons e count es counts he _ ih =>
    cases hwalks with
    | @cons _ w _ ws hw hws =>
      have hnode : w = .node e (.subrange count) := by
        cases fuel with
        | zero => cases hw
        | succ fuel =>
          simp only [DIGraph.walk, he] at hw
          exact (Option.some.inj hw).symm
      rw [parseElements, hnode, parse]
      cases count with
      | none => exact ih hws hp
      | some k =>
        have hstep : p.node (.subrange (some k)) =
            { p with current := p.current.visitSubrange k } := by
          simp only [Parse.node, if_neg hp]
        have hne : (p.current.visitSubrange k).arrays ≠ [] := by
          rcases List.eq_nil_or_concat p.current.arrays with hnil | ⟨as, a, ha⟩
          · exact absurd hnil hp
          · rw [List.concat_eq_append] at ha
            rw [MetaData.visitSubrange_of_append ha]
            exact List.append_ne_nil_of_right_ne_nil _ (List.cons_ne_nil _ _)
        rw [hstep, ih hws hne]
        rfl

/-- The type at the end of a chain makes its event. -/
lemma emits_leaf (hn : (G.node n).endsChain = true) (hw : G.walk (fuel + 1) visited n = some w)
    {p : Parse ι} (henum : p.enumData.isEnum = false) :
    ∃ type, Carries type p.current ∧ Emits p (parse w p) type := by
  have hfundamental : ∀ (x : DINode ι) (name : String) (encoding : FundamentalType.Encoding),
      ∃ type, Carries type p.current ∧ Emits p (Parse.emitFundamental name encoding
        { p with current.type := some x }).clearCurrent type := fun x name encoding =>
    ⟨_, ⟨rfl, rfl, rfl⟩, (emits_fundamental _ name encoding).of_sameEntry
      ⟨rfl, rfl, rfl, rfl, rfl, rfl⟩ rfl⟩
  cases DIGraph.walkStep_of_walk hw with
  | @basic b hn' =>
    simp only [parse, Parse.basic, henum, Bool.false_eq_true, if_false]
    exact hfundamental _ _ _
  | @string t hn' => exact hfundamental _ _ _
  | @node x hn' hplain =>
    rw [hn'] at hn
    cases x with
    | subroutineType => exact hfundamental _ _ _
    | enumerator name => cases hn
    | subrange count => cases hn
    | _ => cases hplain
  | @composite c base elements hn' _ _ _ _ =>
    refine ⟨_, ⟨rfl, rfl, rfl⟩, emits_leave p _ c ?_⟩
    exact ⟨rfl, rfl, rfl, rfl, rfl, rfl⟩
  | @recurring c hn' _ =>
    refine ⟨_, ⟨rfl, rfl, rfl⟩, emits_leave p _ c ?_⟩
    exact ⟨rfl, rfl, rfl, rfl, rfl, rfl⟩
  | @array c base elements hn' _ htag _ _ =>
    rw [hn'] at hn
    simp [DINode.endsChain, htag] at hn
  | var hn' _ => rw [hn'] at hn; cases hn
  | derived hn' _ => rw [hn'] at hn; cases hn
  | skip hn' => rcases hn' with hn' | hn' <;> rw [hn'] at hn <;> cases hn

/-- A chain makes one event, about a type with all that was collected on the chain. -/
lemma emits_of_typeChain {ws : List (Wrapper ι)} (h : G.TypeChain n ws)
    (hopen : G.OpenRecords visited) (hw : G.walk fuel visited n = some w) {p : Parse ι}
    (henum : p.enumData.isEnum = false) :
    ∃ type, Carries type (p.current.collectAll ws) ∧ Emits p (parse w p) type := by
  obtain ⟨fuel, rfl⟩ := DIGraph.exists_fuel_of_walk hw
  induction h generalizing fuel w p with
  | @leaf n hn => exact emits_leaf hn hw henum
  | @void n d hn htag hbase =>
    -- the event of a pointer to void fires at the pointer
    obtain ⟨base, rfl, hwalk⟩ := DIGraph.walk_derived hn hw
    rw [hbase] at hwalk
    cases hwalk
    have hvoid : DIEventVisitor.isVoidPointer d = true := by
      simp [DIEventVisitor.isVoidPointer, htag, hbase]
    have hstep : parse (.derived n d .null) p = (Parse.emitFundamental "void" .kVoid
        { p with current := { p.current.visitDerived d with
          type := some (.derivedType d), isVoidPtr := true } }).clearCurrent := by
      simp only [parse, Parse.derived, hvoid, if_true]
    have helement : d.isElement = false := by
      simp [DIDerivedType.isElement, DIDerivedType.isMemberNode, htag]
    have hsame := MetaData.visitDerived_of_not_isElement helement p.current
    rw [hstep]
    refine ⟨_, ⟨rfl, rfl, rfl⟩, (emits_fundamental _ _ _).of_sameEntry ?_ rfl⟩
    exact hsame.trans ⟨rfl, rfl, rfl, rfl, rfl, rfl⟩
  | @derived n b d ws hn helement harray hvtbl hbase _ ih =>
    obtain ⟨base, rfl, hwalk⟩ := DIGraph.walk_derived hn hw
    rw [hbase] at hwalk
    have hbasewalk := hwalk.of_some
    have hvoid : DIEventVisitor.isVoidPointer d = false := by
      simp [DIEventVisitor.isVoidPointer, hbase]
    have hstep : parse (.derived n d base) p =
        parse base { p with current := p.current.visitDerived d } := by
      rw [parse, Parse.derived_of_collected (Bool.or_eq_false_iff.mpr ⟨hvoid, hvtbl⟩)]
    obtain ⟨k, rfl⟩ := DIGraph.exists_fuel_of_walk hbasewalk
    obtain ⟨type, hcarries, hemits⟩ := ih
      (p := { p with current := p.current.visitDerived d }) henum k hbasewalk
    rw [hstep]
    refine ⟨type, hcarries, hemits.of_sameEntry ?_ rfl⟩
    exact MetaData.visitDerived_of_not_isElement helement p.current
  | @array n b c counts ws hn htag helements hbase _ ih =>
    have hvisited : n ∉ visited := fun hmem => absurd htag (hopen n hmem c hn)
    obtain ⟨elements, base, rfl, hwalks, hwalk⟩ := DIGraph.walk_array hn htag hvisited hw
    rw [hbase] at hwalk
    have hbasewalk := hwalk.of_some
    obtain ⟨k, rfl⟩ := DIGraph.exists_fuel_of_walk hbasewalk
    have harrays : (p.current.visitArray c).arrays ≠ [] :=
      List.append_ne_nil_of_right_ne_nil _ (List.cons_ne_nil _ _)
    have hstep : parse (.array n c elements base) p = parse base
        { p with current := (p.current.visitArray c).visitSubranges counts } := by
      rw [parse, parseElements_subranges helements hwalks
        (p := { p with current := p.current.visitArray c }) harrays]
    obtain ⟨type, hcarries, hemits⟩ := ih
      (p := { p with current := (p.current.visitArray c).visitSubranges counts }) henum k hbasewalk
    rw [hstep]
    refine ⟨type, hcarries, hemits.of_sameEntry ?_ rfl⟩
    rw [MetaData.visitSubranges_eq]
    exact ⟨rfl, rfl, rfl, rfl, rfl, rfl⟩

omit [DecidableEq ι] in
/-- The wrappers of a chain leave alone what the metadata says about the entry to be made. -/
lemma DIGraph.TypeChain.sameEntry {ws : List (Wrapper ι)} (h : G.TypeChain n ws) (m : MetaData ι) :
    m.SameEntry (m.collectAll ws) := by
  induction h generalizing m with
  | leaf => exact .refl m
  | @void n d _ htag =>
    have helement : d.isElement = false := by
      simp [DIDerivedType.isElement, DIDerivedType.isMemberNode, htag]
    exact MetaData.visitDerived_of_not_isElement helement m
  | @derived n b d ws _ helement _ _ _ _ ih =>
    exact (MetaData.visitDerived_of_not_isElement helement m).trans (ih _)
  | @array n b c counts ws _ _ _ _ _ ih =>
    have harray : m.SameEntry (m.collect (.array c counts)) := by
      rw [MetaData.collect, MetaData.visitSubranges_eq]
      exact ⟨rfl, rfl, rfl, rfl, rfl, rfl⟩
    exact harray.trans (ih _)

omit [DecidableEq ι] in
lemma DIGraph.TypeChain.isType {ws : List (Wrapper ι)} (h : G.TypeChain n ws) :
    (G.node n).isType = true := by
  cases h with
  | leaf hn => cases hnode : G.node n <;> simp_all [DINode.endsChain, DINode.isType]
  | void hn => rw [hn]; rfl
  | derived hn => rw [hn]; rfl
  | array hn => rw [hn]; rfl

omit [DecidableEq ι] in
/-- One size for every array and vector on a chain. -/
lemma DIGraph.TypeChain.count_array {ws : List (Wrapper ι)} (h : G.TypeChain n ws) :
    (ws.flatMap Wrapper.qual).count .kArray + (ws.flatMap Wrapper.qual).count .kVector =
      (ws.filterMap Wrapper.arraySize).length := by
  induction h with
  | leaf => rfl
  | void hn htag hbase =>
    simp only [List.flatMap_cons, List.flatMap_nil, Wrapper.qual, htag]
    rfl
  | @derived n b d ws _ _ harray _ _ _ ih =>
    have hqual : (Wrapper.derived d).qual.count .kArray = 0 ∧
        (Wrapper.derived d).qual.count .kVector = 0 := by
      simp only [Wrapper.qual]
      cases htag : d.tag with
      | arrayType => exact absurd htag harray
      | _ => exact ⟨rfl, rfl⟩
    rw [List.flatMap_cons, List.count_append, List.count_append, hqual.1, hqual.2, zero_add,
      zero_add]
    exact ih
  | @array n b c counts ws _ _ _ _ _ ih =>
    have hqual : (Wrapper.array c counts).qual.count .kArray +
        (Wrapper.array c counts).qual.count .kVector = 1 := by
      simp only [Wrapper.qual]
      cases c.isVector <;> cases c.associated <;> rfl
    rw [List.flatMap_cons, List.count_append, List.count_append, add_add_add_comm, hqual, ih,
      add_comm]
    rfl

/-! ### What a chain translates to -/

structure Translates (type : QualifiedType) (ws : List (Wrapper ι)) (static : Bool) : Prop where
  qual : type.qual = ws.flatMap Wrapper.qual ++ if static then [.kStatic] else []
  arraySize : type.arraySize = ws.filterMap Wrapper.arraySize
  typedefName : type.typedefName = (ws.filterMap Wrapper.typedefName).headD ""
  arrays : type.qual.count .kArray + type.qual.count .kVector = type.arraySize.length

/-- The metadata says what these wrappers stand for. -/
structure MetaData.Holds (m : MetaData ι) (ws : List (Wrapper ι)) : Prop where
  quals : m.quals = ws.flatMap Wrapper.qual
  sizes : m.sizes.length = (ws.filterMap Wrapper.arraySize).length
  typedefNames : m.typedefNames = ws.filterMap Wrapper.typedefName

omit [DecidableEq ι] in
lemma MetaData.holds_default : ({} : MetaData ι).Holds [] := ⟨rfl, rfl, rfl⟩

/-- The wrappers in `before` add nothing to a chain: they stand for no qualifier, and the first
typedef among them has the name that the chain has anyway. -/
structure Unseen (before ws : List (Wrapper ι)) : Prop where
  qual : ∀ w ∈ before, w.qual = []
  typedefName : ∀ name ∈ (before.filterMap Wrapper.typedefName).head?,
    name = (ws.filterMap Wrapper.typedefName).headD ""

omit [DecidableEq ι] in
lemma unseen_nil (ws : List (Wrapper ι)) : Unseen [] ws := ⟨by simp, by simp⟩

omit [DecidableEq ι] in
/-- Arrays stand for a qualifier each. -/
lemma filterMap_arraySize_eq_nil {ws : List (Wrapper ι)} (h : ∀ w ∈ ws, w.qual = []) :
    ws.filterMap Wrapper.arraySize = [] := by
  refine List.filterMap_eq_nil_iff.mpr fun w hw => ?_
  cases w with
  | derived d => rfl
  | array c counts => exact absurd (h _ hw) (List.cons_ne_nil _ _)

omit [DecidableEq ι] in
/-- A chain that is parsed with other wrappers in the metadata is translated as it stands exactly
if these are not seen. -/
lemma Carries.translates_iff {ws before : List (Wrapper ι)} (h : G.TypeChain n ws)
    (hcounts : ∀ w ∈ ws, w.CountsFit) {m : MetaData ι} (hm : m.Holds before) {type : QualifiedType}
    (htype : Carries type (m.collectAll ws)) :
    Translates type ws m.isMemberStatic ↔ Unseen before ws := by
  have hqual := htype.qual
  have hsizes := htype.arraySize
  have hnames := htype.typedefName
  rw [(h.sameEntry m).isMemberStatic, MetaData.quals_collectAll, hm.quals, List.append_assoc]
    at hqual
  rw [MetaData.sizes_collectAll _ hcounts] at hsizes
  rw [MetaData.typedefNames_collectAll, hm.typedefNames] at hnames
  have hheadD : (before.filterMap Wrapper.typedefName ++ ws.filterMap Wrapper.typedefName).headD ""
      = (before.filterMap Wrapper.typedefName).head?.getD
          ((ws.filterMap Wrapper.typedefName).headD "") := by
    cases before.filterMap Wrapper.typedefName with
    | nil => rfl
    | cons name names => rfl
  rw [hheadD] at hnames
  constructor
  · intro htranslates
    have hempty : before.flatMap Wrapper.qual = [] := by
      have heq := hqual.symm.trans htranslates.qual
      exact List.append_left_eq_self.mp heq
    refine ⟨List.flatMap_eq_nil_iff.mp hempty, fun name hname => ?_⟩
    have heq := hnames.symm.trans htranslates.typedefName
    rw [Option.mem_def.mp hname] at heq
    exact heq
  · intro hunseen
    have hempty : before.flatMap Wrapper.qual = [] := List.flatMap_eq_nil_iff.mpr hunseen.qual
    have hnone : m.sizes = [] := by
      rw [← List.length_eq_zero_iff, hm.sizes, filterMap_arraySize_eq_nil hunseen.qual]
      rfl
    rw [hempty, List.nil_append] at hqual
    rw [hnone, List.nil_append] at hsizes
    refine ⟨hqual, hsizes, ?_, ?_⟩
    · rw [hnames]
      cases hhead : (before.filterMap Wrapper.typedefName).head? with
      | none => rfl
      | some name => exact hunseen.typedefName name hhead
    · rw [hqual, hsizes, List.count_append, List.count_append, ← h.count_array]
      cases m.isMemberStatic <;> rfl

/-- The parse of a chain on its own returns the type of the chain. -/
lemma exists_result_of_typeChain {ws : List (Wrapper ι)} (h : G.TypeChain n ws)
    (hw : G.walk fuel ∅ n = some w) : ∃ type, (parse w {}).result = type ∧
      makeDimetadata G fuel n = some (some type) ∧
        type.qual = ws.flatMap Wrapper.qual ∧
        ((∀ w ∈ ws, w.CountsFit) → Translates type ws false) := by
  obtain ⟨type, hcarries, hemits⟩ := emits_of_typeChain h (by simp [DIGraph.OpenRecords]) hw
    (p := {}) rfl
  have hresult := (hemits.free rfl rfl).2
  have hqual : type.qual = ws.flatMap Wrapper.qual := by
    rw [hcarries.qual, (h.sameEntry {}).isMemberStatic, MetaData.quals_collectAll]
    exact List.append_nil _
  refine ⟨type, hresult, ?_, hqual, fun hcounts => ?_⟩
  · rw [makeDimetadata_eq hw (by rw [h.isType, Bool.or_true]), hresult]
  · exact (hcarries.translates_iff h hcounts MetaData.holds_default).mpr (unseen_nil ws)

end Chain

end Dimeta
