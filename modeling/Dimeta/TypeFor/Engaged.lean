import Dimeta.Extract.Kept
import Dimeta.TypeFor.Queries
import Mathlib.Data.List.ReduceOption

/-!
# Results that carry a type

Whether the result of a call query carries a type. The base type is set exactly if the entry type
is, and the entry type is set exactly if the source of the configuration has a type for the call.
Only explicit configurations drop a result without one.
-/

set_option autoImplicit false

namespace Dimeta

open Recursion Recursion.Asking

variable {ι ν : Type}

/-! ### The base type -/

lemma finalDitype_isSome {G : DIGraph ι} {fuel : ℕ} {root final : Option (Option ι)} {level : ℤ}
    (h : finalDitype G fuel root = .ok (final, level)) : final.isSome = root.isSome := by
  cases root with
  | none =>
    cases h
    rfl
  | some root =>
    simp only [finalDitype, bind_eq_ok] at h
    obtain ⟨_, _, ⟨type, n⟩, _, h⟩ := h
    cases h
    rfl

/-! ### Types along paths -/

lemma run_collectTypes {h : (q : TypeQuery ν) → Option (Except Fault (q.Result ι))}
    {call : Option ν} {ps : List (ValuePath ν)} {types : List ι}
    (hr : (collectTypes call ps).run h = some (.ok types)) :
    ∃ found : List (Option ι),
      List.Forall₂ (fun p t => h (.findType ⟨call, p⟩) = some (.ok t)) ps found ∧
        types = found.reduceOption := by
  induction ps generalizing types with
  | nil =>
    cases hr
    exact ⟨[], .nil, rfl⟩
  | cons p ps ih =>
    simp only [collectTypes, run_bind, andThen_eq_ok] at hr
    obtain ⟨t, ht, ts, hts, hr⟩ := hr
    cases hr
    rw [askFindType, run_query] at ht
    obtain ⟨found, hfound, rfl⟩ := ih hts
    refine ⟨t :: found, .cons ht hfound, ?_⟩
    cases t <;> rfl

section

variable [DecidableEq ι] [DecidableEq ν] [Fintype ν] (G : DIGraph ι) (M : IRModule ι ν) (fuel : ℕ)

namespace Fortran

/-- At the value a type is recorded: a type that is there, unless the value is a GEP that leads
nowhere, and in place of a missing type what an inlined operator declares. -/
def Records (type : Option ι) (v : ν) : Prop :=
  match type with
  | none   => Redeclares G M v
  | some t => ∀ gep, (M.value v).gepOperator = some gep →
    isFortranDescriptor gep.sourceElementType = false → ¬ GepLeadsNowhere G M True t v gep

/-- The path is a global, whose type is a record with a member at its start. -/
def FirstOfGlobal (path : ValuePath ν) (root : Option ι) : Prop :=
  ∃ value t c mapped member, path.value = some value ∧ onlyGlobal M path value = true ∧
    walk G M fuel root path.pathToValue.reverse = .ok (some t, mapped) ∧
    G.node t = .compositeType c ∧ G.memberAt fuel t c 0 = .ok (some member)

/-- At the start of the path, which is walked last, a type is recorded, or the path is a global with
a first member. -/
def EndsInType (path : ValuePath ν) (root : Option ι) : Prop :=
  (∃ walked v st, path.pathToValue.reverse = walked ++ [v] ∧ walk G M fuel root walked = .ok st ∧
    Records G M st.1 v) ∨
  FirstOfGlobal G M fuel path root

variable {G M fuel}

omit [DecidableEq ν] [Fintype ν] in
/-- What a GEP records: nothing exactly if it leads nowhere. -/
lemma resetDitype_gep {type : Option ι} {v : ν} {gep : GEPOperator ν} {r : Option (Option ι)}
    (hoperator : (M.value v).gepOperator = some gep)
    (hdescriptor : isFortranDescriptor gep.sourceElementType = false)
    (h : resetDitype G M fuel type v = .ok r) :
    ∃ result, extractGepDereferencedType G M fuel type v gep = .ok result ∧
      r.join = result.resets none ∧ (r.join.isSome ↔ ¬ result.LeadsNowhere True) := by
  simp only [resetDitype, hoperator, hdescriptor, Bool.false_eq_true, if_false, bind_eq_ok] at h
  obtain ⟨result, hresult, h⟩ := h
  refine ⟨result, hresult, ?_⟩
  obtain ⟨_ | _ | type, _ | member, _ | _⟩ := result <;>
  · cases h
    simp [GepIndexToType.resets, GepIndexToType.LeadsNowhere]

omit [DecidableEq ν] [Fintype ν] in
lemma records_iff {type : Option ι} {v : ν} {r : Option (Option ι)}
    (h : resetDitype G M fuel type v = .ok r) : r.join.isSome ↔ Records G M type v := by
  have hkept : (∀ gep, (M.value v).gepOperator = some gep →
      isFortranDescriptor gep.sourceElementType = true) → r = some type := by
    intro hall
    rw [resetDitype] at h
    cases hoperator : (M.value v).gepOperator with
    | none =>
      rw [hoperator] at h
      exact (Except.ok.inj h).symm
    | some gep =>
      simp only [hoperator, hall gep hoperator, if_true] at h
      exact (Except.ok.inj h).symm
  by_cases hgep : ∃ gep, (M.value v).gepOperator = some gep ∧
      isFortranDescriptor gep.sourceElementType = false
  · obtain ⟨gep, hoperator, hdescriptor⟩ := hgep
    obtain ⟨result, hresult, hjoin, hiff⟩ := resetDitype_gep hoperator hdescriptor h
    cases type with
    | none =>
      rw [hjoin, isSome_of_extractGep_iff hresult]
      constructor
      · rintro ⟨s, type, hs, hleads⟩
        exact ⟨gep, s, type, hoperator, hdescriptor, hs, hleads⟩
      · rintro ⟨gep', s, type, hgep', -, hs, hleads⟩
        rw [hoperator] at hgep'
        cases hgep'
        exact ⟨s, type, hs, hleads⟩
    | some t =>
      rw [hiff, extractGep_leadsNowhere_iff hresult]
      constructor
      · intro hnowhere gep' hgep' _
        rw [hoperator] at hgep'
        cases hgep'
        exact hnowhere
      · exact fun hall => hall gep hoperator hdescriptor
  · rw [hkept fun gep hoperator => Bool.ne_false_iff.mp fun hnot => hgep ⟨gep, hoperator, hnot⟩]
    cases type with
    | none =>
      refine iff_of_false (by simp) ?_
      rintro ⟨gep, -, -, hoperator, hdescriptor, -⟩
      exact hgep ⟨gep, hoperator, hdescriptor⟩
    | some t =>
      refine iff_of_true rfl ?_
      intro gep hoperator hdescriptor
      exact absurd ⟨gep, hoperator, hdescriptor⟩ hgep

omit [DecidableEq ν] [Fintype ν] in
/-- What is recorded last is left. -/
lemma isSome_of_walk_iff {root : Option ι} {vs : List ν} {st : Option ι × Option ι} (hvs : vs ≠ [])
    (h : walk G M fuel root vs = .ok st) :
    st.2.isSome ↔ ∃ walked v before, vs = walked ++ [v] ∧
      walk G M fuel root walked = .ok before ∧ Records G M before.1 v := by
  obtain ⟨walked, v, rfl⟩ := (List.eq_nil_or_concat' vs).resolve_left hvs
  have hconcat := h
  rw [walk, List.foldlM_append, bind_eq_ok] at hconcat
  obtain ⟨before, hbefore, hlast⟩ := hconcat
  simp only [List.foldlM_cons, List.foldlM_nil, bind_assoc, pure_bind, bind_eq_ok] at hlast
  obtain ⟨type, htype, hlast⟩ := hlast
  cases hlast
  rw [records_iff htype]
  constructor
  · exact fun hv => ⟨walked, v, before, rfl, hbefore, hv⟩
  · rintro ⟨walked', v', before', hsplit, hbefore', hv⟩
    obtain ⟨rfl, hvv⟩ := List.append_inj' hsplit rfl
    cases hvv
    have hsame := hbefore.symm.trans hbefore'
    cases hsame
    exact hv

omit [DecidableEq ν] in
lemma isSome_of_extract_iff {path : ValuePath ν} {root r : Option ι}
    (h : extract G M fuel path root = .ok r) : r.isSome ↔ EndsInType G M fuel path root := by
  simp only [extract, bind_eq_ok] at h
  obtain ⟨⟨type, mapped⟩, hwalk, value, hvalue, h⟩ := h
  have hpath : path.value = some value := by
    cases hlast : path.value with
    | none =>
      rw [hlast] at hvalue
      cases hvalue
    | some v =>
      rw [hlast] at hvalue
      cases hvalue
      rfl
  have hne : path.pathToValue.reverse ≠ [] := by
    intro hnil
    rw [List.reverse_eq_nil_iff] at hnil
    rw [ValuePath.value, hnil] at hpath
    cases hpath
  rw [EndsInType, ← isSome_of_walk_iff hne hwalk]
  -- what is recorded is left alone unless the path is such a global
  have hkept : ¬ FirstOfGlobal G M fuel path root → r = mapped →
      (r.isSome ↔ mapped.isSome ∨ FirstOfGlobal G M fuel path root) := by
    rintro hnot rfl
    rw [or_iff_left hnot]
  split_ifs at h with honly
  · obtain ⟨t, ht, h⟩ := bind_eq_ok.mp h
    cases type with
    | none => cases ht
    | some u =>
      cases ht
      cases hc : G.node t with
      | compositeType c =>
        simp only [hc, bind_eq_ok] at h
        obtain ⟨found, hfound, h⟩ := h
        cases found with
        | some member =>
          cases h
          have hglobal : FirstOfGlobal G M fuel path root :=
            ⟨value, t, c, mapped, member, hpath, honly, hwalk, hc, hfound⟩
          exact iff_of_true rfl (.inr hglobal)
        | none =>
          refine hkept ?_ (Except.ok.inj h).symm
          rintro ⟨_, t', c', _, member, -, -, hwalk', hc', hmember⟩
          rw [hwalk] at hwalk'
          cases hwalk'
          rw [hc] at hc'
          cases hc'
          rw [hfound] at hmember
          cases hmember
      | _ =>
        simp only [hc] at h
        refine hkept ?_ (Except.ok.inj h).symm
        rintro ⟨_, t', c', _, _, -, -, hwalk', hc', -⟩
        rw [hwalk] at hwalk'
        cases hwalk'
        rw [hc] at hc'
        cases hc'
  · refine hkept ?_ (Except.ok.inj h).symm
    rintro ⟨value', _, _, _, _, hvalue', honly', -⟩
    rw [hpath] at hvalue'
    cases hvalue'
    exact honly honly'

end Fortran

/-! ### Types of paths -/

/-- The walk from the root keeps a type: by the rules for Fortran it ends in one, and else an
inlined operator declares one behind each value at which it is missing. -/
def KeepsType (cp : CallValuePath ν) (root : Option ι) : Prop :=
  if fortranHandle M cp.call then Fortran.EndsInType G M fuel cp.path root
  else ∀ walked rest, cp.path.pathToValue.reverse = walked ++ rest →
    MissingAfter G M fuel cp.path root walked → ∃ v ∈ rest, Redeclares G M v

/-- By the rules the root of the path has a type, and the walk from there keeps one. -/
def TypedAlong (cp : CallValuePath ν) : Prop :=
  ∃ root, Derives (typeRules G M fuel) (.findTypeRoot cp) (some root) ∧
    KeepsType G M fuel cp root

variable {G M fuel}

/-- The rules derive what the search for a root answers. -/
lemma derives_findTypeRoot_iff {cp : CallValuePath ν} {r : Option (Option ι)} :
    Derives (typeRules G M fuel) (.findTypeRoot cp) r ↔
      Answers (typeQuery G M fuel) (.findTypeRoot cp) r := by
  rw [(obeys_typeRules G M fuel).derives_iff]
  simp [TypeQuery.entry]

lemma isSome_of_walkFromRoot_iff {cp : CallValuePath ν} {root t : Option ι}
    (h : walkFromRoot G M fuel cp root = .ok t) : t.isSome ↔ KeepsType G M fuel cp root := by
  rw [walkFromRoot] at h
  rw [KeepsType]
  split_ifs at h ⊢ with hcall
  · exact Fortran.isSome_of_extract_iff h
  · exact isSome_of_resetAlong_iff h

lemma isSome_iff_typedAlong {cp : CallValuePath ν} {t : Option ι} {depth : ℕ}
    (h : solve (typeQuery G M fuel) depth (.findType cp) = some (.ok t)) :
    t.isSome ↔ TypedAlong G M fuel cp := by
  cases depth with
  | zero => cases h
  | succ depth =>
    simp only [solve, typeQuery, findType, run_bind, andThen_eq_ok] at h
    obtain ⟨root, hroot, h⟩ := h
    rw [askFindTypeRoot, run_query] at hroot
    have hanswer : Answers (typeQuery G M fuel) (.findTypeRoot cp) root := ⟨depth, hroot⟩
    cases root with
    | none =>
      cases h
      refine iff_of_false (by simp) ?_
      rintro ⟨root, hderives, -⟩
      cases hanswer.eq_of_solve (derives_findTypeRoot_iff.mp hderives).choose_spec
    | some root =>
      rw [run_ofExcept, Option.some.injEq] at h
      rw [isSome_of_walkFromRoot_iff h]
      constructor
      · exact fun hkeeps => ⟨root, derives_findTypeRoot_iff.mpr hanswer, hkeeps⟩
      · rintro ⟨root', hderives, hkeeps⟩
        cases (derives_findTypeRoot_iff.mp hderives).eq_of_solve hroot
        exact hkeeps

/-- A type is collected exactly if a path finds one. -/
lemma head_collectTypes_isSome_iff {call : Option ν} {ps : List (ValuePath ν)} {types : List ι}
    {depth : ℕ}
    (h : (collectTypes call ps).run (solve (typeQuery G M fuel) depth) = some (.ok types)) :
    types.head?.isSome ↔ ∃ p ∈ ps, TypedAlong G M fuel ⟨call, p⟩ := by
  obtain ⟨found, hfound, rfl⟩ := run_collectTypes h
  clear h
  induction hfound with
  | nil => simp
  | @cons p t ps found ht _ ih =>
    have hp := isSome_iff_typedAlong ht
    cases t with
    | some t =>
      rw [List.exists_mem_cons_iff, ← hp]
      simp [List.reduceOption_cons_of_some]
    | none =>
      rw [List.exists_mem_cons_iff, ← hp]
      simp [List.reduceOption_cons_of_none, ih]

/-! ### The sources -/

variable (G M fuel)

/-- The source of the configuration has a type for the call; a Fortran call without arguments is
left out, it has no result. -/
def SourceHasType (call : ν) (base : CallBase ι ν) (config : ResolvedCallBaseTypeConfig) : Prop :=
  match config.source with
  | .kArgumentBackward =>
    ∃ value ∈ base.args[config.argumentIndex]?,
      ∃ p ∈ M.pathFromValue value, TypedAlong G M fuel ⟨none, p⟩
  | .kReturnValueForwardThenBackward =>
    (M.getArrayAccessAssignment call).isSome ∨
      ∃ p ∈ M.typeForHeapCall call, TypedAlong G M fuel ⟨some call, p⟩
  | .kFortranDescriptor =>
    ∀ value ∈ base.args.head?, ∃ p ∈ M.pathFromValue value, TypedAlong G M fuel ⟨some call, p⟩
  | .kHeapAllocSite => ∃ node ∈ base.heapallocsite, (G.node node).isType

/-- The source that the call is resolved to has a type for it, unless the configuration is
explicit. -/
def TypeAvailable (call : ν) (config : CallBaseTypeConfig) : Prop :=
  config.dataflow = .kAuto →
    ∀ base ∈ (M.value call).asCallBase, ∀ resolved ∈ resolveAutoCallbaseConfig base,
      SourceHasType G M fuel call base resolved

variable {G M fuel}

lemma diTypeFor_isSome_iff {value : ν} {t : Option (Option ι)} {depth : ℕ}
    (h : (diTypeFor M value).run (solve (typeQuery G M fuel) depth) = some (.ok t)) :
    t.isSome ↔ ∃ p ∈ M.pathFromValue value, TypedAlong G M fuel ⟨none, p⟩ := by
  simp only [diTypeFor, run_bind, andThen_eq_ok] at h
  obtain ⟨types, htypes, h⟩ := h
  cases h
  rw [Option.isSome_map]
  exact head_collectTypes_isSome_iff htypes

lemma fortranDiTypeFor_isSome_iff {value call : ν} {t : Option (ι × Option ShapeData)} {depth : ℕ}
    (h : (fortranDiTypeFor M value call).run (solve (typeQuery G M fuel) depth) = some (.ok t)) :
    t.isSome ↔ ∃ p ∈ M.pathFromValue value, TypedAlong G M fuel ⟨some call, p⟩ := by
  simp only [fortranDiTypeFor, run_bind, andThen_eq_ok] at h
  obtain ⟨shapes, _, types, htypes, h⟩ := h
  cases h
  rw [Option.isSome_map]
  exact head_collectTypes_isSome_iff htypes

omit [DecidableEq ι] [Fintype ν] in
lemma assignedType_isSome {diVar : DILocalVariable ι} {arrayAccess : Bool} {t : Option (Option ι)}
    (h : assignedType G diVar arrayAccess = .ok t) : t.isSome := by
  cases arrayAccess with
  | false =>
    cases h
    rfl
  | true =>
    simp only [assignedType, if_true, bind_eq_ok] at h
    obtain ⟨type, _, h⟩ := h
    cases hc : (G.node type).asComposite with
    | none =>
      rw [hc] at h
      cases h
      rfl
    | some c =>
      rw [hc] at h
      cases h
      rfl

lemma typeForMalloclike_isSome_iff {call : ν} {t : Option (Option ι)} {depth : ℕ}
    (h : (typeForMalloclike G M call).run (solve (typeQuery G M fuel) depth) = some (.ok t)) :
    t.isSome ↔ (M.getArrayAccessAssignment call).isSome ∨
      ∃ p ∈ M.typeForHeapCall call, TypedAlong G M fuel ⟨some call, p⟩ := by
  cases hvar : M.getArrayAccessAssignment call with
  | some diVar =>
    simp only [typeForMalloclike, hvar, run_ofExcept] at h
    have ht := assignedType_isSome (Option.some.inj h)
    simp [ht]
  | none =>
    simp only [typeForMalloclike, hvar, run_bind, andThen_eq_ok] at h
    obtain ⟨types, htypes, h⟩ := h
    cases h
    rw [Option.isSome_map, head_collectTypes_isSome_iff htypes]
    simp

omit [DecidableEq ι] [DecidableEq ν] [Fintype ν] in
lemma typeForNewlike_isSome_iff {heapallocsite : Option ι} {t : Option (Option ι)}
    (h : typeForNewlike G heapallocsite = .ok t) :
    t.isSome ↔ ∃ node ∈ heapallocsite, (G.node node).isType := by
  cases heapallocsite with
  | none => cases h
  | some node =>
    cases h
    cases htype : (G.node node).isType <;> simp [htype]

/-- What is extracted, if anything, is set exactly if the source has a type. -/
lemma extractType_isSome_iff {call : ν} {base : CallBase ι ν}
    {config : ResolvedCallBaseTypeConfig} {r : Option (Option (Option ι) × Option ShapeData)}
    {depth : ℕ}
    (h : (extractType G M call base config).run (solve (typeQuery G M fuel) depth) =
      some (.ok r)) :
    (∀ extracted ∈ r, extracted.1.isSome) ↔ SourceHasType G M fuel call base config := by
  rcases config with ⟨source, n, offset⟩
  cases source with
  | kReturnValueForwardThenBackward =>
    simp only [extractType, run_bind, andThen_eq_ok] at h
    obtain ⟨t, ht, h⟩ := h
    cases h
    simpa [SourceHasType] using typeForMalloclike_isSome_iff ht
  | kArgumentBackward =>
    simp only [extractType] at h
    cases hvalue : base.args[n]? with
    | none =>
      rw [hvalue] at h
      cases h
    | some value =>
      simp only [hvalue, run_bind, andThen_eq_ok] at h
      obtain ⟨t, ht, h⟩ := h
      cases h
      have hiff := diTypeFor_isSome_iff ht
      simpa [SourceHasType, hvalue] using hiff
  | kFortranDescriptor =>
    simp only [extractType] at h
    cases hvalue : base.args.head? with
    | none =>
      rw [hvalue] at h
      cases h
      simp [SourceHasType, hvalue]
    | some value =>
      simp only [hvalue, run_bind, andThen_eq_ok] at h
      obtain ⟨t, ht, h⟩ := h
      have hiff := fortranDiTypeFor_isSome_iff ht
      cases t with
      | none =>
        cases h
        simpa [SourceHasType, hvalue] using hiff
      | some type =>
        cases h
        simpa [SourceHasType, hvalue] using hiff
  | kHeapAllocSite =>
    simp only [extractType, run_bind, run_ofExcept, andThen_eq_ok] at h
    obtain ⟨t, ht, h⟩ := h
    cases h
    simpa [SourceHasType] using typeForNewlike_isSome_iff (Option.some.inj ht)

/-! ### The results -/

lemma typeForResolvedCallbase_isSome_iff {call : ν} {base : CallBase ι ν}
    {config : ResolvedCallBaseTypeConfig} {r : Option (DimetaData ι)} {depth : ℕ}
    (h : (typeForResolvedCallbase G M fuel call base config).run
      (solve (typeQuery G M fuel) depth) = some (.ok r)) :
    (∀ data ∈ r, data.baseType.isSome = data.entryType.isSome) ∧
      ((∀ data ∈ r, data.entryType.isSome) ↔ SourceHasType G M fuel call base config) := by
  simp only [typeForResolvedCallbase, run_bind, andThen_eq_ok] at h
  obtain ⟨extracted, hextracted, h⟩ := h
  have hiff := extractType_isSome_iff hextracted
  rcases extracted with _ | ⟨t, shape⟩
  · cases h
    exact ⟨by simp, by simpa using hiff⟩
  · simp only [run_bind, run_ofExcept, andThen_eq_ok] at h
    obtain ⟨⟨final, level⟩, hfinal, h⟩ := h
    cases h
    have hbase := finalDitype_isSome (Option.some.inj hfinal)
    exact ⟨by simpa using hbase, by simpa using hiff⟩

/-- A call query that returns has a result with both types set, if it has a result, exactly if
the configuration is explicit or the source that the call is resolved to has a type. -/
theorem result_carries_type_iff {depth : ℕ} {call : ν} {config : CallBaseTypeConfig}
    {r : Option (DimetaData ι)} (h : runTypeFor G M fuel depth call config = some (.ok r)) :
    (∀ data ∈ r, data.entryType.isSome ∧ data.baseType.isSome) ↔
      TypeAvailable G M fuel call config := by
  simp only [runTypeFor, typeFor] at h
  cases hbase : (M.value call).asCallBase with
  | none =>
    rw [hbase] at h
    cases h
    simp [TypeAvailable, hbase]
  | some base =>
    simp only [hbase] at h
    cases hresolved : resolveCallbaseConfig base config with
    | none =>
      rw [hresolved] at h
      cases h
      have havailable : TypeAvailable G M fuel call config := by
        intro hauto base' hbase' resolved hresolved'
        rw [hbase] at hbase'
        cases hbase'
        rw [resolveCallbaseConfig, hauto] at hresolved
        simp [hresolved] at hresolved'
      simp [havailable]
    | some resolved =>
      simp only [hresolved, run_bind, andThen_eq_ok] at h
      obtain ⟨data, hdata, h⟩ := h
      obtain ⟨hfinal, hsource⟩ := typeForResolvedCallbase_isSome_iff hdata
      by_cases hauto : config.dataflow = .kAuto
      · -- the result is what was extracted
        have hr : data = r := by
          cases data with
          | none =>
            cases h
            rfl
          | some data =>
            simp only [hauto] at h
            cases h
            rfl
        subst hr
        have havailable : TypeAvailable G M fuel call config ↔
            SourceHasType G M fuel call base resolved := by
          rw [resolveCallbaseConfig, hauto] at hresolved
          simp [TypeAvailable, hauto, hbase, hresolved]
        rw [havailable, ← hsource]
        constructor
        · intro hcarries data hdata
          exact (hcarries data hdata).1
        · intro hentry data hdata
          exact ⟨hentry data hdata, (hfinal data hdata).trans (hentry data hdata)⟩
      · -- a result without a type is dropped
        have havailable : TypeAvailable G M fuel call config := fun h => absurd h hauto
        simp only [havailable, iff_true]
        intro data' hdata'
        cases data with
        | none =>
          cases h
          cases hdata'
        | some data =>
          cases hentry : data.entryType with
          | none =>
            simp only [hentry] at h
            rw [if_pos ⟨hauto, rfl⟩] at h
            cases h
            cases hdata'
          | some type =>
            simp only [hentry] at h
            rw [if_neg fun hnone => by cases hnone.2] at h
            cases h
            cases hdata'
            have hbase := hfinal _ rfl
            rw [hentry] at hbase
            exact ⟨by simp [hentry], hbase⟩

end

/-! ### A call whose result is not used -/

/-- The types `int *` and `int`. -/
def intPointer : DIGraph (Fin 2) where
  node
    | 0 => .derivedType { tag := .pointerType, sizeInBits := 64, baseType := some 1 }
    | 1 => .basicType { name := "int", sizeInBits := 32, encoding := .signed }

/-- `malloc(4); int *p = malloc(4);`, where the calls are 0 and 1. -/
def allocatesTwice : IRModule (Fin 2) (Fin 2) where
  value
    | 0 => .call .call (.function { name := "malloc", subprogram := none }) [] none
    | 1 => .call .call (.function { name := "malloc", subprogram := none }) [] none
  users _ := []
  mem_users := by decide
  debugLoc _ := none
  dbgRecords := [⟨some 1, ⟨"p", some 0⟩, false⟩]

theorem result_carries_type_iff_assigned :
    (∀ data ∈ some (⟨.kHeap, some (some 0), some (some 1), none, 1⟩ : DimetaData (Fin 2)),
        data.entryType.isSome ∧ data.baseType.isSome) ↔
      TypeAvailable intPointer allocatesTwice 2 1 {} :=
  result_carries_type_iff (show runTypeFor intPointer allocatesTwice 2 0 1 {} = _ from rfl)

lemma typeForHeapCall_allocatesTwice : allocatesTwice.typeForHeapCall 0 = [] := by
  have hanchors : allocatesTwice.forwardAnchors 0 = [] :=
    DefUseChain.loop_eq_of_run 2 rfl
  rw [IRModule.typeForHeapCall, hanchors]
  rfl

theorem exists_result_without_type :
    ∃ data : DimetaData (Fin 2),
      runTypeFor intPointer allocatesTwice 2 1 0 {} = some (.ok (some data)) ∧
        ¬ (data.entryType.isSome ∧ data.baseType.isSome) := by
  refine ⟨⟨.kHeap, none, none, none, 0⟩, ?_, by decide⟩
  have hmalloc : typeForMalloclike intPointer allocatesTwice 0 = pure none := by
    have hvar : allocatesTwice.getArrayAccessAssignment 0 = none := rfl
    simp only [typeForMalloclike, hvar, typeForHeapCall_allocatesTwice]
    rfl
  have hbase : (allocatesTwice.value 0).asCallBase = some ⟨.function ⟨"malloc", none⟩, [], none⟩ :=
    rfl
  have hresolved : resolveCallbaseConfig (⟨.function ⟨"malloc", none⟩, [], none⟩ :
      CallBase (Fin 2) (Fin 2)) {} = some { source := .kReturnValueForwardThenBackward } := rfl
  simp only [runTypeFor, typeFor, hbase, hresolved, typeForResolvedCallbase, extractType, hmalloc]
  rfl

end Dimeta
