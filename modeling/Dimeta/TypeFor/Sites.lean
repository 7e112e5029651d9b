import Dimeta.TypeFor.FrontEnds
import Dimeta.TypeFor.Places

/-!
# Allocation sites

The result of `new` is annotated with the type of what is allocated, not with that of the pointer to
it: one pointer is added to the type that is parsed, if the level shows that it is missing. The
result is the type that a variable for the pointer is declared with, unless there are pointers
behind an array.
-/

set_option autoImplicit false

namespace Dimeta

open Recursion Recursion.Asking

variable {ι ν : Type}

/-! ### A pointer in front -/

/-- The type with a pointer in front of all others. -/
def QualifiedType.pointed : QualifiedType → QualifiedType
  | .compound q    => .compound { q with qual := .kPtr :: q.qual }
  | .fundamental f => .fundamental { f with qual := .kPtr :: f.qual }

lemma QualifiedType.qual_pointed (type : QualifiedType) :
    type.pointed.qual = .kPtr :: type.qual := by
  cases type <;> rfl

/-- The pointer is set if it is missing, and only then. -/
lemma resetPointerQualifier_eq_pointed_iff {type : QualifiedType} {level : ℤ} :
    resetPointerQualifier type level = type.pointed ↔ (type.qual.count .kPtr : ℤ) < level := by
  constructor
  · intro h
    by_contra hle
    have hqual := congrArg QualifiedType.qual h
    rw [resetPointerQualifier_of_le (not_lt.mp hle), QualifiedType.qual_pointed] at hqual
    exact List.cons_ne_self _ _ hqual.symm
  · intro hlt
    cases type with
    | compound q => exact congrArg QualifiedType.compound (if_pos hlt)
    | fundamental f => exact congrArg QualifiedType.fundamental (if_pos hlt)

/-- `m'` has collected a pointer of 64 bits before everything that `m` has. -/
inductive MetaData.Pointed (m : MetaData ι) : MetaData ι → Prop
  | alone (hsize : m.derivedSize = 0) : Pointed m
      { m with dwarfTags := .dwarf .pointerType :: m.dwarfTags, derivedSize := sizeofPtr }
  | first : Pointed m { m with dwarfTags := .dwarf .pointerType :: m.dwarfTags }

namespace MetaData.Pointed

variable {m m' : MetaData ι}

lemma dwarfTags (h : Pointed m m') : m'.dwarfTags = .dwarf .pointerType :: m.dwarfTags := by
  cases h <;> rfl

/-- Where the size of the last derived type matters, none is as good as a pointer. -/
lemma fundamentalSize_eq (h : Pointed m m') (encoding : FundamentalType.Encoding) :
    fundamentalSize m' encoding = fundamentalSize m encoding := by
  cases h with
  | alone hsize =>
    simp only [fundamentalSize, hsize]
    rfl
  | first => rfl

lemma makeQualType {T : Type} (h : Pointed m m') (type : T) : makeQualType type m' =
    { makeQualType type m with qual := .kPtr :: (makeQualType type m).qual } := by
  cases h <;> rfl

lemma fundamental (h : Pointed m m') (name : String) (encoding : FundamentalType.Encoding) :
    QualifiedType.fundamental (makeQualifiedFundamental m' name encoding) =
      (QualifiedType.fundamental (makeQualifiedFundamental m name encoding)).pointed := by
  rw [makeQualifiedFundamental, h.fundamentalSize_eq, h.makeQualType]
  rfl

lemma withType (h : Pointed m m') (type : Option (DINode ι)) :
    Pointed { m with type } { m' with type } := by
  cases h with
  | alone hsize => exact .alone hsize
  | first => exact .first

lemma visitDerived (h : Pointed m m') (d : DIDerivedType ι) :
    Pointed (m.visitDerived d) (m'.visitDerived d) := by
  have heq : m'.visitDerived d = { m.visitDerived d with
      dwarfTags := .dwarf .pointerType :: (m.visitDerived d).dwarfTags } := by
    cases h <;>
    · simp only [MetaData.visitDerived]
      split
      · rfl
      · split_ifs <;> rfl
      · rfl
      · rfl
      · rfl
      · rfl
  rw [heq]
  exact .first

lemma visitArray (h : Pointed m m') (c : DICompositeType ι) :
    Pointed (m.visitArray c) (m'.visitArray c) := by
  cases h with
  | alone hsize => exact .alone hsize
  | first => exact .first

lemma visitSubranges (h : Pointed m m') (counts : List (Option ℤ)) :
    Pointed (m.visitSubranges counts) (m'.visitSubranges counts) := by
  induction counts generalizing m m' with
  | nil => exact h
  | cons count counts ih =>
    cases count with
    | none => exact ih h
    | some k =>
      refine ih ?_
      cases h with
      | alone hsize => exact .alone hsize
      | first => exact .first

lemma visitRecord [DecidableEq ι] (h : Pointed m m') (n : ι) (c : DICompositeType ι) :
    Pointed (m.visitRecord n c) (m'.visitRecord n c) := by
  cases h with
  | alone hsize => exact .alone hsize
  | first => exact .first

lemma recurring (h : Pointed m m') :
    Pointed { m with isRecurring := true } { m' with isRecurring := true } := by
  cases h with
  | alone hsize => exact .alone hsize
  | first => exact .first

lemma voidPtr (h : Pointed m m') (type : Option (DINode ι)) :
    Pointed { m with type, isVoidPtr := true } { m' with type, isVoidPtr := true } := by
  cases h with
  | alone hsize => exact .alone hsize
  | first => exact .first

lemma isMember_eq (h : Pointed m m') : m'.isMember = m.isMember := by
  cases h <;> rfl

lemma isBaseClass_eq (h : Pointed m m') : m'.isBaseClass = m.isBaseClass := by
  cases h <;> rfl

end MetaData.Pointed

section Chain

variable [DecidableEq ι] {G : DIGraph ι}

omit [DecidableEq ι] in
lemma result_emitFundamental_pointed {p : Parse ι} {m' : MetaData ι} (h : p.current.Pointed m')
    (hm : p.current.isMember = false) (hb : p.current.isBaseClass = false) (name : String)
    (encoding : FundamentalType.Encoding) :
    (Parse.emitFundamental name encoding { p with current := m' }).clearCurrent.result =
      (p.emitFundamental name encoding).clearCurrent.result.pointed := by
  rw [((emits_fundamental p name encoding).free hm hb).2, ← h.fundamental]
  exact ((emits_fundamental { p with current := m' } name encoding).free
    (h.isMember_eq.trans hm) (h.isBaseClass_eq.trans hb)).2

omit [DecidableEq ι] in
lemma result_leave_pointed {p inner : Parse ι} {c : DICompositeType ι} {m m' : MetaData ι}
    (h : m.Pointed m') (hm : m.isMember = false) (hb : m.isBaseClass = false) :
    (p.leave m' c inner).result = (p.leave m c inner).result.pointed := by
  simp only [Parse.leave, h.isMember_eq, h.isBaseClass_eq, hm, hb, h.makeQualType,
    Bool.false_eq_true, if_false]
  rfl

/-- The type at the end of a chain. -/
lemma result_parse_leaf_pointed {fuel : ℕ} {visited : Finset ι} {n : ι} {w : Walk ι}
    (hn : (G.node n).endsChain = true) (hw : G.walk (fuel + 1) visited n = some w) {p : Parse ι}
    {m' : MetaData ι} (h : p.current.Pointed m') (henum : p.enumData.isEnum = false)
    (hm : p.current.isMember = false) (hb : p.current.isBaseClass = false) :
    (parse w { p with current := m' }).result = (parse w p).result.pointed := by
  have hfundamental : ∀ (x : DINode ι) (name : String) (encoding : FundamentalType.Encoding),
      (Parse.emitFundamental name encoding
          { p with current := { m' with type := some x } }).clearCurrent.result =
        (Parse.emitFundamental name encoding
          { p with current.type := some x }).clearCurrent.result.pointed := fun x name encoding =>
    result_emitFundamental_pointed (p := { p with current.type := some x }) (h.withType (some x))
      hm hb name encoding
  cases DIGraph.walkStep_of_walk hw with
  | @basic b hn' =>
    simp only [parse, Parse.basic, henum, Bool.false_eq_true, if_false]
    exact hfundamental _ _ _
  | @string t hn' => exact hfundamental _ _ _
  | @node x hn' hplain =>
    rw [hn'] at hn
    cases x with
    | subroutineType => exact hfundamental _ _ _
    | enumerator name => cases hn
    | subrange count => cases hn
    | _ => cases hplain
  | @composite c base elements hn' _ _ _ _ =>
    exact result_leave_pointed (h.visitRecord n c) hm hb
  | @recurring c hn' _ =>
    exact result_leave_pointed (h.recurring.visitRecord n c) hm hb
  | @array c base elements hn' _ htag _ _ =>
    rw [hn'] at hn
    simp [DINode.endsChain, htag] at hn
  | var hn' _ => rw [hn'] at hn; cases hn
  | derived hn' _ => rw [hn'] at hn; cases hn
  | skip hn' => rcases hn' with hn' | hn' <;> rw [hn'] at hn <;> cases hn

/-- A pointer in front of a chain is in front of its type. -/
lemma result_parse_pointed {fuel : ℕ} {visited : Finset ι} {n : ι} {w : Walk ι}
    {ws : List (Wrapper ι)} (hchain : G.TypeChain n ws) (hopen : G.OpenRecords visited)
    (hw : G.walk fuel visited n = some w) {p : Parse ι} {m' : MetaData ι}
    (h : p.current.Pointed m') (henum : p.enumData.isEnum = false)
    (hm : p.current.isMember = false) (hb : p.current.isBaseClass = false) :
    (parse w { p with current := m' }).result = (parse w p).result.pointed := by
  obtain ⟨fuel, rfl⟩ := DIGraph.exists_fuel_of_walk hw
  induction hchain generalizing fuel w p m' with
  | @leaf n hn => exact result_parse_leaf_pointed hn hw h henum hm hb
  | @void n d hn htag hbase =>
    obtain ⟨base, rfl, hwalk⟩ := DIGraph.walk_derived hn hw
    rw [hbase] at hwalk
    cases hwalk
    have hvoid : DIEventVisitor.isVoidPointer d = true := by
      simp [DIEventVisitor.isVoidPointer, htag, hbase]
    have helement : d.isElement = false := by
      simp [DIDerivedType.isElement, DIDerivedType.isMemberNode, htag]
    have hsame := MetaData.visitDerived_of_not_isElement helement p.current
    simp only [parse, Parse.derived, hvoid, if_true]
    exact result_emitFundamental_pointed (p := { p with current := { p.current.visitDerived d with
      type := some (.derivedType d), isVoidPtr := true } }) ((h.visitDerived d).voidPtr _)
      (hsame.isMember.trans hm) (hsame.isBaseClass.trans hb) _ _
  | @derived n b d ws hn helement harray hvtbl hbase _ ih =>
    -- the pointer in front stays in front of what the chain collects
    obtain ⟨base, rfl, hwalk⟩ := DIGraph.walk_derived hn hw
    rw [hbase] at hwalk
    have hbasewalk := hwalk.of_some
    have hvoid : DIEventVisitor.isVoidPointer d = false := by
      simp [DIEventVisitor.isVoidPointer, hbase]
    have hcollected := Bool.or_eq_false_iff.mpr ⟨hvoid, hvtbl⟩
    have hsame := MetaData.visitDerived_of_not_isElement helement p.current
    obtain ⟨k, rfl⟩ := DIGraph.exists_fuel_of_walk hbasewalk
    rw [parse, parse, Parse.derived_of_collected hcollected, Parse.derived_of_collected hcollected]
    exact ih (p := { p with current := p.current.visitDerived d }) (h.visitDerived d) henum
      (hsame.isMember.trans hm) (hsame.isBaseClass.trans hb) k hbasewalk
  | @array n b c counts ws hn htag helements hbase _ ih =>
    have hvisited : n ∉ visited := fun hmem => absurd htag (hopen n hmem c hn)
    obtain ⟨elements, base, rfl, hwalks, hwalk⟩ := DIGraph.walk_array hn htag hvisited hw
    rw [hbase] at hwalk
    have hbasewalk := hwalk.of_some
    obtain ⟨k, rfl⟩ := DIGraph.exists_fuel_of_walk hbasewalk
    have hstep : ∀ p : Parse ι, parse (.array n c elements base) p = parse base
        { p with current := (p.current.visitArray c).visitSubranges counts } := by
      intro p
      have harrays : (p.current.visitArray c).arrays ≠ [] :=
        List.append_ne_nil_of_right_ne_nil _ (List.cons_ne_nil _ _)
      rw [parse, parseElements_subranges helements hwalks
        (p := { p with current := p.current.visitArray c }) harrays]
    have hkeep : ((p.current.visitArray c).visitSubranges counts).isMember = false ∧
        ((p.current.visitArray c).visitSubranges counts).isBaseClass = false := by
      rw [MetaData.visitSubranges_eq]
      exact ⟨hm, hb⟩
    rw [hstep, hstep]
    exact ih (p := { p with current := (p.current.visitArray c).visitSubranges counts })
      ((h.visitArray c).visitSubranges counts) henum hkeep.1 hkeep.2 k hbasewalk

end Chain

/-! ### The result of `new` -/

/-- `p` is a pointer of 64 bits to the type `t`. -/
structure DIGraph.PointerTo (G : DIGraph ι) (p t : ι) (d : DIDerivedType ι) : Prop where
  node : G.node p = .derivedType d
  pointer : d.tag = .pointerType
  size : d.sizeInBits = 64
  base : d.baseType = some t
  not_vtable : DIEventVisitor.isVtablePtr d = false
  not_member : (DINode.derivedType d).isMember = false

section New

variable [DecidableEq ι]

/-- The type of a pointer is that of what it points to, with a pointer in front. -/
lemma DIGraph.PointerTo.makeDimetadata {G : DIGraph ι} {p t : ι} {d : DIDerivedType ι}
    (h : G.PointerTo p t d) {ws : List (Wrapper ι)} (hchain : G.TypeChain t ws) {fuel : ℕ}
    {w : Walk ι} (hw : G.walk fuel ∅ t = some w) :
    makeDimetadata G fuel t = some (some (parse w {}).result) ∧
      makeDimetadata G (fuel + 1) p = some (some (parse w {}).result.pointed) := by
  have hvoid : DIEventVisitor.isVoidPointer d = false := by
    simp [DIEventVisitor.isVoidPointer, h.base]
  have hwalk : G.walk (fuel + 1) ∅ p = some (.derived p d w) := by
    simp [DIGraph.walk, h.node, h.base, DIGraph.walkType, hw]
  have hvisit : ({} : MetaData ι).visitDerived d =
      { dwarfTags := [.dwarf .pointerType], derivedSize := sizeofPtr } := by
    simp only [MetaData.visitDerived, h.pointer, h.size]
    rfl
  have hpointed : ({} : MetaData ι).Pointed (({} : MetaData ι).visitDerived d) := by
    rw [hvisit]
    exact .alone rfl
  have hparse := result_parse_pointed hchain (by simp [DIGraph.OpenRecords]) hw (p := {}) hpointed
    rfl rfl rfl
  constructor
  · rw [makeDimetadata_eq hw (by rw [hchain.isType, Bool.or_true])]
  · rw [makeDimetadata_eq hwalk (by rw [h.node]; rfl), parse,
      Parse.derived_of_collected (Bool.or_eq_false_iff.mpr ⟨hvoid, h.not_vtable⟩), hparse]

/-- The result of `new` with an allocation site is located as a declared pointer to the type of the
site is parsed, exactly if all pointers of the type are in front of its arrays. -/
theorem located_type_for_new_iff [DecidableEq ν] [Fintype ι] [Fintype ν] {G : DIGraph ι}
    (hrecords : G.CyclesPassRecords) (M : SourceModule ι ν) {call : ν} {base : CallBase ι ν}
    {config : CallBaseTypeConfig} {i : ℕ}
    {loc : DILocation} {p t : ι} {d : DIDerivedType ι} {ws : List (Wrapper ι)}
    (hbase : (M.value call).asCallBase = some base)
    (hresolved : resolveCallbaseConfig base config = some ⟨.kHeapAllocSite, i, 1⟩)
    (hsite : base.heapallocsite = some t) (hlocation : M.findLocation call = some loc)
    (hp : G.PointerTo p t d) (hchain : G.TypeChain t ws)
    (hmember : ∀ d, G.node t = .derivedType d → (DINode.derivedType d).isMember = false) :
    ∃ fuel type, ∀ fuel' ≥ fuel, parseEntryType G fuel' p = .ok (some type) ∧ ∀ depth,
      (locatedTypeForCall G M fuel' depth call config =
          some (.ok (some ⟨type, loc.sourceLocation⟩)) ↔
        pointersInFront ws = pointersOf ws) := by
  obtain ⟨fuel, final, hloop⟩ := exists_finalDitypeLoop hchain
  obtain ⟨fuel₁, w, hw⟩ := DIGraph.hasWalk_of_cyclesPassRecords hrecords ∅ t
  obtain ⟨type, hresult, -, hqual, -⟩ := exists_result_of_typeChain hchain hw
  have hentry : entryTypeOf G t = some t := by
    cases hnode : G.node t with
    | derivedType d => simp [entryTypeOf, hnode, hmember d hnode]
    | _ => simp [entryTypeOf, hnode]
  have hentry' : entryTypeOf G p = some p := by
    simp [entryTypeOf, hp.node, hp.not_member]
  -- the level that is passed is short of the pointers exactly if one is behind an array
  have hcount : (type.qual.count .kPtr : ℤ) < pointersInFront ws + 1 ↔
      pointersInFront ws = pointersOf ws := by
    have hle := pointersInFront_le ws
    rw [hqual, pointersOf]
    omega
  refine ⟨max fuel fuel₁ + 1, type.pointed, fun fuel' hle => ?_⟩
  obtain ⟨fuel', rfl⟩ := Nat.exists_eq_add_of_le' (le_of_add_le_right hle)
  have hle : max fuel fuel₁ ≤ fuel' := by omega
  -- the two parses, of the type and of the pointer to it
  obtain ⟨-, hpointer⟩ := hp.makeDimetadata hchain
    (DIGraph.walk_mono (le_of_max_le_right hle) hw)
  obtain ⟨htype, -⟩ := hp.makeDimetadata hchain
    (DIGraph.walk_mono (Nat.le_succ_of_le (le_of_max_le_right hle)) hw)
  rw [hresult] at hpointer htype
  have hparse : parseEntryType G (fuel' + 1) t = .ok (some type) := by
    simp only [parseEntryType, hentry, deref, ok_bind, parseType, htype]
  refine ⟨by simp only [parseEntryType, hentry', deref, ok_bind, parseType, hpointer],
    fun depth => ?_⟩
  -- what the query answers, with the level of the pointers in front
  have hfinal : finalDitype G (fuel' + 1) (some (some t)) =
      .ok (some (some final), 0 + (pointersInFront ws : ℤ)) := by
    simp only [finalDitype, deref, ok_bind, hloop (fuel' + 1) (by omega)]
    rfl
  have htypeOf : typeForNewlike G (some t) = .ok (some (some t)) := by
    simp only [typeForNewlike, deref, ok_bind, hchain.isType, if_true]
    rfl
  have hrun : runTypeFor G M.toIRModule (fuel' + 1) depth call config =
      some (.ok (some ⟨.kHeap, some (some t), some (some final), none,
        0 + (pointersInFront ws : ℤ) + 1⟩)) := by
    simp only [runTypeFor, typeFor, hbase, hresolved, typeForResolvedCallbase, extractType,
      hsite, htypeOf, run_bind, andThen, run_pure, hfinal, run_ofExcept, Option.isNone_some]
    split <;> simp_all
  rw [locatedTypeForCall, hrun, ← hcount, ← resetPointerQualifier_eq_pointed_iff]
  simp only [Option.map_some, Except.map, getLocatedType, ok_bind, locationFor, hlocation,
    Option.some.injEq, locatedTypeFor_eq_some]
  constructor
  · rintro ⟨s, parsed, hs, hparsed, -, hreset⟩
    obtain rfl : t = s := hs
    rw [hparse] at hparsed
    obtain rfl := Option.some.inj (Except.ok.inj hparsed)
    rw [zero_add] at hreset
    exact hreset.symm
  · intro hreset
    refine ⟨t, type, rfl, hparse, trivial, ?_⟩
    rw [zero_add]
    exact hreset.symm

end New

/-- The type `int (*(*)[3])[3]`, whose arrays share a dimension, and a pointer to it. -/
def rowPointers : DIGraph (Fin 7) where
  node
    | 0 => .derivedType { tag := .pointerType, sizeInBits := 64, baseType := some 1 }
    | 1 => .derivedType { tag := .pointerType, sizeInBits := 64, baseType := some 2 }
    | 2 => .compositeType { tag := .arrayType, sizeInBits := 192, elements := [6],
                            baseType := some 3 }
    | 3 => .derivedType { tag := .pointerType, sizeInBits := 64, baseType := some 4 }
    | 4 => .compositeType { tag := .arrayType, sizeInBits := 96, elements := [6],
                            baseType := some 5 }
    | 5 => .basicType { name := "int", sizeInBits := 32, encoding := .signed }
    | 6 => .subrange (some 3)

/-- `new (int (*(*)[3])[3])` -/
def newRows : SourceModule (Fin 7) (Fin 1) where
  value _ := .call .call (.function ⟨"_Znwm", none⟩) [] (some 1)
  users _ := []
  mem_users := by decide
  debugLoc _ := some ⟨false, .subprogram ⟨[]⟩⟩
  dbgRecords := []
  records := []
  dbgRecords_eq := rfl
  location _ := some ⟨.subprogram "main" "a.cpp", 3⟩
  isSome_location _ := rfl
  globalAt _ := ⟨"a.cpp", none, 0⟩

/-- The pointer of the site is in front of the arrays, but the one of the rows is not. -/
theorem located_type_for_new_iff_rows : ∃ fuel type, ∀ fuel' ≥ fuel,
    parseEntryType rowPointers fuel' 0 = .ok (some type) ∧ ∀ depth,
      locatedTypeForCall rowPointers newRows fuel' depth 0 {} ≠
        some (.ok (some ⟨type, ⟨"a.cpp", "main", 3⟩⟩)) := by
  have hrecords : rowPointers.CyclesPassRecords := by
    refine DIGraph.cyclesPassRecords_of_lt fun a b h => ?_
    fin_cases a <;> simp [DIGraph.PlainStep, rowPointers] at h <;>
      first | (subst h; decide) | (rcases h with rfl | rfl <;> decide)
  have hp : rowPointers.PointerTo 0 1 _ := ⟨rfl, rfl, rfl, rfl, rfl, by decide⟩
  have hdimension : List.Forall₂ (fun e count => rowPointers.node e = .subrange count) [6]
      [some 3] := .cons rfl .nil
  have hrow : rowPointers.TypeChain 4 _ := .array rfl rfl hdimension rfl (.leaf rfl)
  have hrows : rowPointers.TypeChain 2 _ :=
    .array rfl rfl hdimension rfl (.derived (b := 4) rfl rfl (by decide) rfl rfl hrow)
  have hchain : rowPointers.TypeChain 1 _ := .derived (b := 2) rfl rfl (by decide) rfl rfl hrows
  have hmember : ∀ d, rowPointers.node 1 = .derivedType d →
      (DINode.derivedType d).isMember = false := by
    rintro d ⟨⟩
    decide
  obtain ⟨fuel, type, h⟩ := located_type_for_new_iff hrecords newRows rfl
    (show resolveCallbaseConfig _ {} = _ from rfl) rfl rfl hp hchain hmember
  refine ⟨fuel, type, fun fuel' hfuel => ?_⟩
  obtain ⟨hparse, hlocated⟩ := h fuel' hfuel
  exact ⟨hparse, fun depth => (hlocated depth).not.mpr (by decide)⟩

end Dimeta
