import Dimeta.Parse.Translation
import Dimeta.TypeFor.Located

/-!
# The pointer level of a located type

The recorded level is the number of pointers on the chain of the entry type, up to the first array,
and an offset that the configuration adds. The parsed type has at least the pointers of the chain.
It gets one more if it has fewer than the level says; a level that is higher by two or more is not
reached.
-/

set_option autoImplicit false

namespace Dimeta

open Recursion

variable {ι : Type}

/-! ### Levels without an offset -/

/-- The pointers in front of the first array. -/
def pointersInFront : List (Wrapper ι) → ℕ
  | []               => 0
  | .derived d :: ws => (if d.tag = .pointerType then 1 else 0) + pointersInFront ws
  | .array _ _ :: _  => 0

lemma count_kPtr_derived (d : DIDerivedType ι) : (Wrapper.derived d).qual.count .kPtr =
    if d.tag = .pointerType then 1 else 0 := by
  cases htag : d.tag <;> simp [Wrapper.qual, htag]

lemma pointersInFront_le (ws : List (Wrapper ι)) :
    pointersInFront ws ≤ (ws.flatMap Wrapper.qual).count .kPtr := by
  induction ws with
  | nil => exact Nat.zero_le _
  | cons w ws ih =>
    cases w with
    | derived d =>
      rw [pointersInFront, List.flatMap_cons, List.count_append, count_kPtr_derived]
      exact Nat.add_le_add_left ih _
    | array c counts => exact Nat.zero_le _

lemma pointersInFront_eq {ws : List (Wrapper ι)} (h : ∀ w ∈ ws, ∃ d, w = .derived d) :
    pointersInFront ws = (ws.flatMap Wrapper.qual).count .kPtr := by
  induction ws with
  | nil => rfl
  | cons w ws ih =>
    obtain ⟨d, rfl⟩ := h w List.mem_cons_self
    rw [pointersInFront, List.flatMap_cons, List.count_append, count_kPtr_derived,
      ih fun w hw => h w (List.mem_cons_of_mem _ hw)]

/-- An entry type: a chain, or a member of one, which is left out. -/
inductive DIGraph.EntryChain (G : DIGraph ι) : ι → List (Wrapper ι) → Prop
  | chain {t : ι} {ws : List (Wrapper ι)} (h : G.TypeChain t ws)
      (hmember : ∀ d, G.node t = .derivedType d → (DINode.derivedType d).isMember = false) :
      EntryChain G t ws
  | member {t n : ι} {d : DIDerivedType ι} {ws : List (Wrapper ι)} (ht : G.node t = .derivedType d)
      (hnode : d.isMemberNode = true) (hmember : (DINode.derivedType d).isMember = true)
      (hbase : d.baseType = some n) (h : G.TypeChain n ws) : EntryChain G t ws

variable {G : DIGraph ι} {t n : ι} {ws : List (Wrapper ι)}

/-- The loop of `final_ditype` stops at the first array. -/
lemma exists_finalDitypeLoop (h : G.TypeChain n ws) : ∃ fuel final, ∀ fuel' ≥ fuel, ∀ level : ℤ,
    finalDitypeLoop G fuel' n level = .ok (final, level + pointersInFront ws) := by
  induction h with
  | @leaf n hn =>
    refine ⟨1, n, fun fuel' hle level => ?_⟩
    obtain ⟨k, rfl⟩ := Nat.exists_eq_add_of_le' hle
    cases hnode : G.node n with
    | derivedType d =>
      rw [hnode] at hn
      cases hn
    | _ => simp [finalDitypeLoop, hnode, pointersInFront]
  | @void n d hn htag hbase =>
    refine ⟨1, n, fun fuel' hle level => ?_⟩
    obtain ⟨k, rfl⟩ := Nat.exists_eq_add_of_le' hle
    simp [finalDitypeLoop, hn, hbase, htag, pointersInFront]
  | @derived n b d ws hn _ _ _ hbase _ ih =>
    obtain ⟨fuel, final, hloop⟩ := ih
    refine ⟨fuel + 1, final, fun fuel' hle level => ?_⟩
    obtain ⟨k, rfl⟩ := Nat.exists_eq_succ_of_ne_zero (Nat.ne_zero_of_lt hle)
    simp only [finalDitypeLoop, hn, hbase]
    rw [hloop k (Nat.le_of_succ_le_succ hle), pointersInFront]
    by_cases htag : d.tag = .pointerType
    · simp [htag, add_assoc]
    · simp [htag]
  | @array n b c counts ws hn _ _ _ _ _ =>
    refine ⟨1, n, fun fuel' hle level => ?_⟩
    obtain ⟨k, rfl⟩ := Nat.exists_eq_add_of_le' hle
    simp [finalDitypeLoop, hn, pointersInFront]

/-- The entry type is parsed as its chain, and a member in front adds nothing to the level. -/
lemma DIGraph.EntryChain.resolve (h : G.EntryChain t ws) : ∃ n, entryTypeOf G t = some n ∧
    G.TypeChain n ws ∧ ∃ fuel final, ∀ fuel' ≥ fuel,
      finalDitype G fuel' (some (some t)) = .ok (some (some final), pointersInFront ws) := by
  have hfinal : ∀ {fuel : ℕ} {final : ι} {level : ℤ},
      finalDitypeLoop G fuel t 0 = .ok (final, level) →
        finalDitype G fuel (some (some t)) = .ok (some (some final), level) := by
    intro fuel final level hloop
    simp only [finalDitype, deref, ok_bind, hloop]
    rfl
  cases h with
  | chain h hmember =>
    obtain ⟨fuel, final, hloop⟩ := exists_finalDitypeLoop h
    refine ⟨t, ?_, h, fuel, final, fun fuel' hle => hfinal ?_⟩
    · cases hnode : G.node t with
      | derivedType d => simp [entryTypeOf, hnode, hmember d hnode]
      | _ => simp [entryTypeOf, hnode]
    · rw [hloop fuel' hle, zero_add]
  | @member n d _ ht hnode hmember hbase h =>
    obtain ⟨fuel, final, hloop⟩ := exists_finalDitypeLoop h
    have htag : d.tag ≠ .pointerType := by
      intro htag
      simp [DIDerivedType.isMemberNode, htag] at hnode
    refine ⟨n, by simp [entryTypeOf, ht, hmember, hbase], h, fuel + 1, final,
      fun fuel' hle => hfinal ?_⟩
    obtain ⟨k, rfl⟩ := Nat.exists_eq_succ_of_ne_zero (Nat.ne_zero_of_lt hle)
    simp only [finalDitypeLoop, ht, hbase, if_neg htag]
    rw [hloop k (Nat.le_of_succ_le_succ hle), zero_add]

/-- The level of an entry type is at most the number of pointers of the parsed type, and equal to
it without arrays; so without an offset the located type is the parsed one. -/
theorem pointer_level_agrees [DecidableEq ι] [Fintype ι] (hG : G.CyclesPassRecords)
    (h : G.EntryChain t ws) : ∃ fuel final level type, ∀ fuel' ≥ fuel,
      finalDitype G fuel' (some (some t)) = .ok (some (some final), level) ∧
        parseEntryType G fuel' t = .ok (some type) ∧
          level ≤ type.qual.count .kPtr ∧
            ((∀ w ∈ ws, ∃ d, w = .derived d) → level = type.qual.count .kPtr) ∧
              resetPointerQualifier type level = type ∧
                ∀ (data : DimetaData ι) (location : SourceLocation),
                  data.entryType = some (some t) → data.pointerLevel = level →
                    data.shape = none → locatedTypeFor G fuel' data (some location) =
                      .ok (some ⟨type, location⟩) := by
  obtain ⟨n, hentry, hchain, fuel, final, hfinal⟩ := h.resolve
  obtain ⟨fuel₀, w, hw⟩ := DIGraph.hasWalk_of_cyclesPassRecords hG ∅ n
  obtain ⟨type, hresult, -, hqual, -⟩ := exists_result_of_typeChain hchain hw
  have hle : (pointersInFront ws : ℤ) ≤ type.qual.count .kPtr := by
    rw [hqual]
    exact Int.ofNat_le.mpr (pointersInFront_le ws)
  refine ⟨max fuel fuel₀, final, pointersInFront ws, type, fun fuel' hfuel => ?_⟩
  have hw' := DIGraph.walk_mono (le_of_max_le_right hfuel) hw
  have hparse : parseEntryType G fuel' t = .ok (some type) := by
    have hdimeta : makeDimetadata G fuel' n = some (some type) := by
      rw [makeDimetadata_eq hw' (by rw [hchain.isType, Bool.or_true]), hresult]
    simp only [parseEntryType, hentry, deref, ok_bind, parseType, hdimeta]
  refine ⟨hfinal fuel' (le_of_max_le_left hfuel), hparse, hle, fun hderived => ?_,
    resetPointerQualifier_of_le hle, fun data location hdata hlevel hshape => ?_⟩
  · rw [hqual, pointersInFront_eq hderived]
  · rw [locatedTypeFor_eq_some]
    refine ⟨t, type, hdata, hparse, rfl, ?_⟩
    rw [hshape, hlevel, resetPointerQualifier_of_le hle]
    rfl

/-- `int *` -/
def pointerToInt : DIGraph (Fin 2) where
  node
    | 0 => .derivedType { tag := .pointerType, sizeInBits := 64, baseType := some 1 }
    | 1 => .basicType { name := "int", sizeInBits := 32, encoding := .signed }

lemma pointerToInt_plainStep {a b : Fin 2} (h : pointerToInt.PlainStep a b) : a < b := by
  fin_cases a
  · obtain rfl : 1 = b := Option.some.inj h
    decide
  · exact h.elim

lemma entryChain_pointerToInt : pointerToInt.EntryChain 0
    [.derived { tag := .pointerType, sizeInBits := 64, baseType := some 1 }] := by
  refine .chain (.derived rfl rfl (by decide) rfl rfl (.leaf rfl)) ?_
  rintro d ⟨⟩
  rfl

/-- `int *(*p)[3]`, a member. -/
def pointerToPointers : DIGraph (Fin 6) where
  node
    | 0 => .derivedType { tag := .member, sizeInBits := 64, baseType := some 1 }
    | 1 => .derivedType { tag := .pointerType, sizeInBits := 64, baseType := some 2 }
    | 2 => .compositeType { tag := .arrayType, sizeInBits := 192, elements := [5],
                            baseType := some 3 }
    | 3 => .derivedType { tag := .pointerType, sizeInBits := 64, baseType := some 4 }
    | 4 => .basicType { name := "int", sizeInBits := 32, encoding := .signed }
    | 5 => .subrange (some 3)

lemma cyclesPassRecords_pointerToPointers : pointerToPointers.CyclesPassRecords := by
  refine DIGraph.cyclesPassRecords_of_lt fun a b h => ?_
  fin_cases a <;> simp [DIGraph.PlainStep, pointerToPointers] at h <;>
    first | (subst h; decide) | (rcases h with rfl | rfl <;> decide)

/-- The level counts the pointer in front of the array only. -/
theorem pointer_level_agrees_pointer : ∃ fuel final level type, ∀ fuel' ≥ fuel,
    finalDitype pointerToPointers fuel' (some (some 0)) = .ok (some (some final), level) ∧
      parseEntryType pointerToPointers fuel' 0 = .ok (some type) ∧
        level ≤ type.qual.count .kPtr ∧ resetPointerQualifier type level = type := by
  have hpointers : pointerToPointers.TypeChain 2 _ :=
    .array rfl rfl (.cons rfl .nil) rfl (.derived (b := 4) rfl rfl (by decide) rfl rfl (.leaf rfl))
  have hchain : pointerToPointers.EntryChain 0 _ :=
    .member rfl rfl rfl rfl (.derived (b := 2) rfl rfl (by decide) rfl rfl hpointers)
  obtain ⟨fuel, final, level, type, h⟩ :=
    pointer_level_agrees cyclesPassRecords_pointerToPointers hchain
  refine ⟨fuel, final, level, type, fun fuel' hfuel => ?_⟩
  obtain ⟨hfinal, hparse, hle, -, hreset, -⟩ := h fuel' hfuel
  exact ⟨hfinal, hparse, hle, hreset⟩

/-! ### Levels with an offset -/

@[simp] lemma qual_resetShapeQualifier (type : QualifiedType) (shape : ShapeData) :
    (resetShapeQualifier type shape).qual = type.qual := by
  cases type <;> rfl

/-- The qualifiers of a located type are those of the parsed one, up to a pointer. -/
lemma qual_of_locatedTypeFor [DecidableEq ι] {G : DIGraph ι} {fuel : ℕ} {data : DimetaData ι}
    {location : Option SourceLocation} {located : LocatedType} {t : ι} {type : QualifiedType}
    (hentry : data.entryType = some (some t)) (htype : parseEntryType G fuel t = .ok (some type))
    (h : locatedTypeFor G fuel data location = .ok (some located)) :
    located.type.qual = (resetPointerQualifier type data.pointerLevel).qual := by
  rw [locatedTypeFor_eq_some] at h
  obtain ⟨t', type', hentry', htype', -, hlocated⟩ := h
  rw [hentry] at hentry'
  cases hentry'
  rw [htype] at htype'
  cases htype'
  rw [hlocated]
  cases data.shape with
  | none => rfl
  | some shape => exact qual_resetShapeQualifier _ shape

/-- A located type has the pointers of the parsed type or as many as the level says, whichever is
more, exactly if at most one is missing. -/
theorem pointer_level_reflected_iff [DecidableEq ι] {G : DIGraph ι} {fuel : ℕ}
    {data : DimetaData ι} {location : Option SourceLocation} {located : LocatedType} {t : ι}
    {type : QualifiedType} (hentry : data.entryType = some (some t))
    (htype : parseEntryType G fuel t = .ok (some type))
    (h : locatedTypeFor G fuel data location = .ok (some located)) :
    ((located.type.qual.count .kPtr : ℤ) = max (type.qual.count .kPtr : ℤ) data.pointerLevel ∧
        type.qual.Sublist located.type.qual) ↔
      data.pointerLevel ≤ type.qual.count .kPtr + 1 := by
  rw [qual_of_locatedTypeFor hentry htype h]
  exact count_resetPointerQualifier_iff type

/-! ### A buffer that is registered -/

/-- The type `int`. -/
def intType : DIGraph (Fin 1) where
  node _ := .basicType { name := "int", sizeInBits := 32, encoding := .signed }

/-- `int i; registers(&i);`, where the variable is 0 and the call is 1. -/
def registers : IRModule (Fin 1) (Fin 2) where
  value
    | 0 => .alloca
    | 1 => .call .call (.function { name := "registers", subprogram := none }) [0] none
  users
    | 0 => [1]
    | 1 => []
  mem_users := by decide
  debugLoc
    | 0 => none
    | 1 => some ⟨false, .subprogram ⟨[]⟩⟩
  dbgRecords := [⟨some 0, ⟨"i", some 0⟩, false⟩]

lemma runTypeFor_registers (offset : ℤ) :
    runTypeFor intType registers 1 2 1 ⟨.kArgumentBackward, 0, offset⟩ =
      some (.ok (some ⟨.kHeap, some (some 0), some (some 0), none, 0 + offset⟩)) := by
  have hpaths : registers.pathFromValue 0 = [⟨[0]⟩] := DefUseChain.loop_eq_of_run 4 rfl
  have hbase : (registers.value 1).asCallBase =
      some ⟨.function ⟨"registers", none⟩, [0], none⟩ := rfl
  have hresolved : resolveCallbaseConfig
      (⟨.function ⟨"registers", none⟩, [0], none⟩ : CallBase (Fin 1) (Fin 2))
        ⟨.kArgumentBackward, 0, offset⟩ = some ⟨.kArgumentBackward, 0, offset⟩ := rfl
  simp only [runTypeFor, typeFor, hbase, hresolved, typeForResolvedCallbase, extractType,
    List.getElem?_cons_zero, diTypeFor, hpaths]
  rfl

/-- `int`, with pointers in front. -/
def intWith (qual : List Qualifier) : QualifiedType :=
  .fundamental { type := ⟨"int", 4, .kSignedInt⟩, qual }

lemma parseEntryType_intType : parseEntryType intType 2 0 = .ok (some (intWith [])) := rfl

theorem pointer_level_reflected_iff_one :
    (([Qualifier.kPtr].count .kPtr : ℤ) = max (([] : List Qualifier).count .kPtr : ℤ) 1 ∧
        ([] : List Qualifier).Sublist [.kPtr]) ↔
      (1 : ℤ) ≤ ([] : List Qualifier).count .kPtr + 1 := by
  have hlocated : locatedTypeFor intType 2
      ⟨.kHeap, some (some 0), some (some 0), none, 1⟩ (some default) =
        .ok (some ⟨intWith [.kPtr], default⟩) := rfl
  exact pointer_level_reflected_iff rfl parseEntryType_intType hlocated

/-- An offset of two adds one pointer. -/
theorem exists_pointer_level_not_reflected : ∃ data located,
    runTypeFor intType registers 1 2 1 ⟨.kArgumentBackward, 0, 2⟩ = some (.ok (some data)) ∧
      data.entryType = some (some 0) ∧
        parseEntryType intType 2 0 = .ok (some (intWith [])) ∧
          locatedTypeFor intType 2 data (some default) = .ok (some located) ∧
            (located.type.qual.count .kPtr : ℤ) ≠
              max ((intWith []).qual.count .kPtr : ℤ) data.pointerLevel := by
  refine ⟨_, ⟨intWith [.kPtr], default⟩, runTypeFor_registers 2, rfl, parseEntryType_intType, rfl, ?_⟩
  decide

end Dimeta
