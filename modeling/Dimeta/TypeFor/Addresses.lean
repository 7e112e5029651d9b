import Dimeta.TypeFor.Extents
import Dimeta.TypeFor.Places

/-!
# Addresses passed to calls

Where an allocation function gets the address of a pointer (or of a Fortran descriptor), the type is
looked for backward from the argument. The address of a variable or of a field has one way back, and
the type walk along it ends at the variable's type or at the member, whose type is then parsed.
-/

set_option autoImplicit false

namespace Dimeta

open Recursion Recursion.Asking Relation

variable {ι ν : Type}

/-! ### The way back from an address -/

/-- A value that the pointer can be followed back from in one way has the path of this way, maybe
several times. -/
lemma IRModule.pathFromValue_of_onlyWay [DecidableEq ν] [Fintype ν] (M : IRModule ι ν) {v : ν}
    {vs : List ν} (h : OnlyWay M.PointerFlow (fun v => M.isTarget v = true) (v :: vs)) :
    M.pathFromValue v ≠ [] ∧ ∀ p ∈ M.pathFromValue v, p = ⟨v :: vs⟩ := by
  have hfinds : M.FindsTargets v (M.pathFromValue v) := M.findsTargets_backtrack v
  constructor
  · obtain ⟨w, hw, hreach⟩ := h.reaches
    obtain ⟨p, hp, -⟩ := (hfinds.found_iff w).mpr ⟨hw, hreach⟩
    exact List.ne_nil_of_mem hp
  · intro p hp
    obtain ⟨w, hgenuine⟩ := hfinds.genuine p hp
    have hw := ((hfinds.found_iff w).mp ⟨p, hp, hgenuine.value⟩).1
    exact h.eq_of_genuinePath hgenuine hw

/-- If the only path from a value ends at a type, this is the first one that is collected. -/
lemma exists_collectTypes_of_onlyWay [DecidableEq ι] [DecidableEq ν] [Fintype ν] {G : DIGraph ι}
    {M : IRModule ι ν} {call : Option ν} {v : ν} {vs : List ν} {q : ι}
    (h : OnlyWay M.PointerFlow (fun v => M.isTarget v = true) (v :: vs))
    (hfind : ∃ fuel, ∀ fuel', fuel ≤ fuel' → ∀ depth,
      solve (typeQuery G M fuel') (depth + 2) (.findType ⟨call, ⟨v :: vs⟩⟩) = some (.ok (some q))) :
    ∃ types fuel, types.head? = some q ∧ ∀ fuel', fuel ≤ fuel' → ∀ depth,
      (collectTypes call (M.pathFromValue v)).run (solve (typeQuery G M fuel') (depth + 2)) =
        some (.ok types) := by
  obtain ⟨hne, hpaths⟩ := M.pathFromValue_of_onlyWay h
  have hfound : ∀ p ∈ M.pathFromValue v, ∃ q', q' = q ∧ ∃ fuel, ∀ fuel', fuel ≤ fuel' → ∀ depth,
      solve (typeQuery G M fuel') (depth + 2) (.findType ⟨call, p⟩) = some (.ok (some q')) := by
    intro p hp
    rw [hpaths p hp]
    exact ⟨q, rfl, hfind⟩
  obtain ⟨types, fuel, htypes, hfuel⟩ := exists_collectTypes (P := fun _ q' => q' = q) hfound
  refine ⟨types, fuel, ?_, hfuel⟩
  generalize M.pathFromValue v = ps at hne htypes
  cases htypes with
  | nil => exact absurd rfl hne
  | cons hq _ => rw [List.head?_cons, hq]

/-- `g` is the address of a variable, declared with type `e`, or of the field `e` behind a pointer
from the root. -/
inductive AddressOf [DecidableEq ι] (G : LayoutGraph ι) (M : IRModule ι ν) (root : ν) (t : ι) :
    ν → List ν → ι → Prop
  | slot (hroot : (M.value root).isSlot = true) : AddressOf G M root t root [root] t
  | field {g w : ν} {ws : List ν} {s e q : ι} {gep : GEPOperator ν} {d : DIDerivedType ι}
      (hw : PointerFrom G M root t w ws s) (hg : Addresses G M s g gep e)
      (hoperand : gep.pointerOperand = w) (he : G.PointerField e q d) :
      AddressOf G M root t g (g :: ws) e

section AddressOf

variable [DecidableEq ι] [DecidableEq ν] {G : LayoutGraph ι} {M : IRModule ι ν} {root g : ν}
  {t e : ι} {vs : List ν}

omit [DecidableEq ν] in
lemma AddressOf.onlyWay (h : AddressOf G M root t g vs e) (hroot : IsRoot M root) :
    ∃ us, vs = g :: us ∧ OnlyWay M.PointerFlow (fun v => M.isTarget v = true) (g :: us) := by
  cases h with
  | slot => exact ⟨[], rfl, M.onlyWay_root hroot⟩
  | field hw hg hoperand he =>
    obtain ⟨us, rfl, hway⟩ := hw.onlyWay hroot
    obtain ⟨us', hus, hway'⟩ := (FieldBehind.gep hg hoperand he).onlyWay hway
    obtain rfl : _ = us' := (List.cons.inj hus).2
    exact ⟨_, rfl, hway'⟩

omit [DecidableEq ν] in
lemma AddressOf.getLast? (h : AddressOf G M root t g vs e) : vs.getLast? = some root := by
  cases h with
  | slot => rfl
  | field hw hg hoperand he => exact (Place.field hw (.gep hg hoperand he)).getLast?

/-- The walk from the root to an address ends at the variable's type or at the field. -/
lemma AddressOf.type_of_address (h : AddressOf G M root t g vs e) (hroot : IsRoot M root) :
    ∃ fuel, ∀ fuel', fuel ≤ fuel' → typeOfPath G.toDIGraph M fuel' ⟨vs⟩ t = .ok (some e) := by
  cases h with
  | slot =>
    refine ⟨0, fun fuel' _ => ?_⟩
    exact (resetAlong_snoc _ M fuel' ⟨[root]⟩ (some t) [] root).trans
      (hroot.resetDitype fuel' ⟨[root]⟩)
  | @field _ w ws s _ _ gep _ hw hg _ he =>
    obtain ⟨fuel, hfuel⟩ := hw.resetAlong hroot
    obtain ⟨fuel₁, hfuel₁⟩ := hg.resetDitype he
    refine ⟨max fuel fuel₁, fun fuel' hle => ?_⟩
    have hstart : ∀ v, (ValuePath.mk (g :: ws)).startValue = some v →
        (M.value v).isLoad = false := by
      intro v hv
      obtain rfl := Option.some.inj hv
      rcases hg.value with hv | hv <;>
      · rw [hv]
        rfl
    rw [typeOfPath, List.reverse_cons, resetAlong_append,
      hfuel fuel' (le_of_max_le_left hle) _ hstart, ok_bind]
    exact (resetAlong_snoc _ M fuel' _ (some s) [] g).trans
      (hfuel₁ fuel' (le_of_max_le_right hle) _)

/-- The type that is found backward from an address. -/
lemma AddressOf.diTypeFor [Fintype ι] [Fintype ν] (h : AddressOf G M root t g vs e)
    (hroot : Declares M root t) : ∃ fuel, ∀ fuel', fuel ≤ fuel' → ∀ depth,
      (diTypeFor M g).run (solve (typeQuery G.toDIGraph M fuel') (depth + 2)) =
        some (.ok (some (some e))) := by
  obtain ⟨fuel, hfuel⟩ := h.type_of_address hroot.isRoot
  obtain ⟨us, rfl, hway⟩ := h.onlyWay hroot.isRoot
  have hfind : ∃ fuel, ∀ fuel', fuel ≤ fuel' → ∀ depth,
      solve (typeQuery G.toDIGraph M fuel') (depth + 2) (.findType ⟨none, ⟨g :: us⟩⟩) =
        some (.ok (some e)) := by
    refine ⟨fuel, fun fuel' hle depth => ?_⟩
    have hvalue : (ValuePath.mk (g :: us)).value = some root := h.getLast?
    rw [solve, typeQuery, Dimeta.findType, run_bind, askFindTypeRoot, run_query, solve, typeQuery,
      hroot.findTypeRoot hvalue]
    have hwalk : walkFromRoot G.toDIGraph M fuel' ⟨none, ⟨g :: us⟩⟩ (some t) = .ok (some e) :=
      hfuel fuel' hle
    simp only [andThen, run_ofExcept, hwalk]
  obtain ⟨types, fuel₁, hhead, hfuel₁⟩ := exists_collectTypes_of_onlyWay hway hfind
  refine ⟨fuel₁, fun fuel' hle depth => ?_⟩
  rw [Dimeta.diTypeFor, run_bind, hfuel₁ fuel' hle depth]
  simp only [andThen, run_pure, hhead, Option.map_some]

/-- An allocation function that gets the address of a pointer is located as the pointer's declared
type is parsed, whatever pointers are on the way to it. -/
theorem located_type_for_argument [Fintype ι] [Fintype ν] (M : SourceModule ι ν) {call : ν}
    {base : CallBase ι ν} {config : CallBaseTypeConfig} {i : ℕ} {loc : DILocation}
    {ws : List (Wrapper ι)} (hbase : (M.value call).asCallBase = some base)
    (hresolved : resolveCallbaseConfig base config = some ⟨.kArgumentBackward, i, 0⟩)
    (harg : base.args[i]? = some g) (hroot : Declares M.toIRModule root t)
    (haddress : AddressOf G M.toIRModule root t g vs e) (hchain : G.EntryChain e ws)
    (hlocation : M.findLocation call = some loc) :
    ∃ fuel type, ((∀ w ∈ ws, w.CountsFit) → Translates type ws false) ∧
      ∀ fuel' ≥ fuel, ∀ depth ≥ 2, parseEntryType G.toDIGraph fuel' e = .ok (some type) ∧
        locatedTypeForCall G.toDIGraph M fuel' depth call config =
          some (.ok (some ⟨type, loc.sourceLocation⟩)) := by
  obtain ⟨fuel, hfuel⟩ := haddress.diTypeFor hroot
  have hextract : ∃ fuel, ∀ fuel', fuel ≤ fuel' → ∀ depth,
      (extractType G.toDIGraph M.toIRModule call base ⟨.kArgumentBackward, i, 0⟩).run
        (solve (typeQuery G.toDIGraph M.toIRModule fuel') (depth + 2)) =
          some (.ok (some (some (some e), none))) := by
    refine ⟨fuel, fun fuel' hle depth => ?_⟩
    simp only [extractType, harg, run_bind, hfuel fuel' hle depth, andThen, run_pure]
  exact exists_locatedTypeForCall hbase hresolved hlocation hchain hextract

end AddressOf

/-- The argument is the address of a field of the next node. -/
theorem located_type_for_argument_next : ∃ fuel type, ∀ fuel' ≥ fuel, ∀ depth ≥ 2,
    parseEntryType linked fuel' 4 = .ok (some type) ∧
      locatedTypeForCall linked dataOfNext fuel' depth 6 {} =
        some (.ok (some ⟨type, ⟨"a.c", "f", 9⟩⟩)) := by
  have hchain : linked.EntryChain 4 _ := .member rfl rfl rfl rfl typeChain_linked
  obtain ⟨fuel, type, -, h⟩ :=
    located_type_for_argument (G := linkedGraph) dataOfNext
      (show (dataOfNext.value 6).asCallBase = some _ from rfl)
      (show resolveCallbaseConfig _ {} = _ from rfl) rfl (.argument rfl rfl)
      (.field pointerFrom_dataOfNext addresses_dataOfNext rfl pointerField_linked) hchain rfl
  exact ⟨fuel, type, h⟩

/-! ### Fortran descriptors -/

section Descriptors

variable [DecidableEq ι] [DecidableEq ν] {G : LayoutGraph ι} {M : IRModule ι ν} {root g : ν}
  {t e : ι} {vs : List ν}

/-- `g` is the descriptor that is allocated: a local variable or a parameter, a component of the
record that is there, or the first component of a global record. Its type is `e`. -/
inductive DescriptorOf (G : LayoutGraph ι) (M : IRModule ι ν) (root : ν) (t : ι) :
    ν → List ν → ι → Prop
  | whole (hlocal : (M.value root).isGlobalVariable = false) : DescriptorOf G M root t root [root] t
  | component {n e r : ι} {c : DICompositeType ι} {is : List ℤ} {g : ν} {gep : GEPOperator ν}
      (hroot : G.RecordRoot t n c) (hpath : G.MemberPath c (is.map UInt64.ofInt) e r)
      (hgep : FieldGep M g gep is) (hoperand : gep.pointerOperand = root) :
      DescriptorOf G M root t g [g, root] e
  | first {c : DICompositeType ι} {ks : List UInt64} {e q : ι} {d : DIDerivedType ι}
      (hglobal : (M.value root).isGlobalVariable = true) (ht : G.node t = .compositeType c)
      (hlaid : G.LaidOut t) (hfield : G.FieldAt 0 t ks 0 e d) (hq : d.baseType = some q)
      (hsize : 0 < d.byteSize)
      (hleaf : ∀ c, G.node q = .compositeType c → c.isRecord = true → ¬ G.Covered 0 0 c)
      (hstray : G.StrayFree t 0) : DescriptorOf G M root t root [root] q

omit [DecidableEq ι] [DecidableEq ν] in
/-- Without copies of the root, only a global that is the whole path is taken for its first
component. -/
lemma onlyGlobal_of_not_copied [Fintype ν]
    (hcopied : ∀ user ∈ M.users root, (M.value user).isMemCpy = false) (path : ValuePath ν) :
    Fortran.onlyGlobal M path root = ((M.value root).isGlobalVariable && path.size == 1) := by
  refine List.foldlRecOn (M.users root) _
    (motive := (· = ((M.value root).isGlobalVariable && path.size == 1))) rfl ?_
  intro isGlobal hsame user huser
  simp only [hcopied user huser]
  exact hsame

omit [DecidableEq ν] in
lemma IsRoot.fortranResetDitype [Fintype ν] (h : IsRoot M root) (fuel : ℕ) :
    Fortran.resetDitype G.toDIGraph M fuel (some t) root = .ok (some (some t)) := by
  have hgep : (M.value root).gepOperator = none := by
    rcases h with ⟨_, _, _, hv⟩ | hslot
    · rw [hv]
      rfl
    · cases hv : M.value root with
      | getElementPtr _ | constantGEP _ => rw [hv] at hslot; cases hslot
      | _ => rfl
  rw [Fortran.resetDitype, hgep]

/-- The type of a descriptor, by the rules for Fortran. -/
lemma DescriptorOf.extract [Fintype ν] (h : DescriptorOf G M root t g vs e) (hroot : IsRoot M root)
    (hcopied : ∀ user ∈ M.users root, (M.value user).isMemCpy = false) :
    ∃ fuel, ∀ fuel', fuel ≤ fuel' →
      Fortran.extract G.toDIGraph M fuel' ⟨vs⟩ (some t) = .ok (some e) := by
  have honly := onlyGlobal_of_not_copied hcopied
  have hwhole : ∀ fuel, Fortran.walk G.toDIGraph M fuel (some t) [root] =
      .ok (some t, some t) := by
    intro fuel
    rw [Fortran.walk, List.foldlM_cons, hroot.fortranResetDitype]
    rfl
  cases h with
  | whole hlocal =>
    refine ⟨0, fun fuel' _ => ?_⟩
    have hglobal : Fortran.onlyGlobal M ⟨[root]⟩ root = false := by
      rw [honly, hlocal]
      rfl
    rw [Fortran.extract, List.reverse_singleton, hwhole, ok_bind]
    show (Except.ok root >>= _) = _
    rw [ok_bind, hglobal]
    rfl
  | @component n _ r c is _ gep hroot' hpath hgep hoperand =>
    obtain ⟨fuel, hfuel⟩ := extract_of_path hroot' hgep hpath
    refine ⟨fuel, fun fuel' hle => ?_⟩
    have hglobal : Fortran.onlyGlobal M ⟨[g, root]⟩ root = false := by
      rw [honly]
      exact Bool.and_false _
    have hgepOf : (M.value g).gepOperator = some gep := by
      rcases hgep.value with hv | hv <;>
      · rw [hv]
        rfl
    have hreset : Fortran.resetDitype G.toDIGraph M fuel' (some t) g = .ok (some (some e)) := by
      rw [Fortran.resetDitype, hgepOf]
      simp only [hgep.descriptor, (hfuel fuel' hle).1, Bool.false_eq_true, if_false, ok_bind]
      rfl
    have hwalk : Fortran.walk G.toDIGraph M fuel' (some t) [root, g] = .ok (some e, some e) := by
      rw [Fortran.walk, List.foldlM_cons, hroot.fortranResetDitype]
      simp only [ok_bind, pure_bind, Option.getD_some, List.foldlM_cons, List.foldlM_nil, hreset]
      rfl
    rw [Fortran.extract]
    show (Fortran.walk G.toDIGraph M fuel' (some t) [root, g] >>= _) = _
    rw [hwalk, ok_bind]
    show (Except.ok root >>= _) = _
    rw [ok_bind, hglobal]
    rfl
  | @first c ks m _ d hglobal ht hlaid hfield hq hsize hleaf hstray =>
    -- the first component of a global, which is looked up at byte 0
    have hinnermost := hfield.innermost hlaid hq (x := 0) ⟨le_rfl, by omega⟩ hleaf
    obtain ⟨fuel, hfuel⟩ := G.memberAt_of_innermost hlaid ht (b := 0) hstray hinnermost
    refine ⟨fuel, fun fuel' hle => ?_⟩
    have hglobal' : Fortran.onlyGlobal M ⟨[root]⟩ root = true := by
      rw [honly, hglobal]
      rfl
    rw [Fortran.extract, List.reverse_singleton, hwhole, ok_bind]
    show (Except.ok root >>= _) = _
    rw [ok_bind, if_pos hglobal']
    simp only [deref, ok_bind, ht, hfuel fuel' hle]
    rfl

omit [DecidableEq ν] in
lemma DescriptorOf.onlyWay (h : DescriptorOf G M root t g vs e) (hroot : IsRoot M root) :
    ∃ us, vs = g :: us ∧ OnlyWay M.PointerFlow (fun v => M.isTarget v = true) (g :: us) := by
  cases h with
  | whole | first => exact ⟨[], rfl, M.onlyWay_root hroot⟩
  | component _ _ hgep hoperand =>
    refine ⟨[root], rfl, .cons ?_ (fun x => ?_) (M.onlyWay_root hroot)⟩
    · rcases hgep.value with hv | hv <;>
        simp [IRModule.isTarget, hv, LLValue.isAlloca, LLValue.isArgument,
          LLValue.isGlobalVariable, LLValue.isCallBase]
    · rw [M.pointerFlow_gep hgep.value, hoperand]

omit [DecidableEq ν] in
lemma DescriptorOf.getLast? (h : DescriptorOf G M root t g vs e) : vs.getLast? = some root := by
  cases h <;> rfl

omit [DecidableEq ι] [DecidableEq ν] in
/-- Only calls of the Fortran runtime get their type from a descriptor. -/
lemma fortranHandle_of_resolved {call : ν} {base : CallBase ι ν} {config : CallBaseTypeConfig}
    {resolved : ResolvedCallBaseTypeConfig} (hbase : (M.value call).asCallBase = some base)
    (hresolved : resolveCallbaseConfig base config = some resolved)
    (hsource : resolved.source = .kFortranDescriptor) : fortranHandle M (some call) = true := by
  have hnames : ∀ kind ∈ MemOps.allocMap, kind.2.hasValue MemOpKind.kFortranMallocLike = true →
      startsWithAnyOf kind.1 ["_FortranAAllocatableAllocate", "_FortranAPointerAllocate"] =
        true := by
    decide
  have hcalled : calledFunction M call = base.callee.calledFunction := by
    cases hv : M.value call <;> rw [hv] at hbase <;> cases hbase
    rw [calledFunction, hv]
  rw [resolveCallbaseConfig] at hresolved
  split at hresolved
  · rw [resolveAutoCallbaseConfig] at hresolved
    cases hf : base.callee.calledFunction with
    | none =>
      rw [hf] at hresolved
      cases hresolved
    | some f =>
      rw [hf] at hresolved
      cases hlike : MemOps.isFortranLike f.name with
      | true =>
        rw [MemOps.isFortranLike, MemOps.isKind, Option.any_eq_true] at hlike
        obtain ⟨kind, hkind, hvalue⟩ := hlike
        rw [MemOps.allocKind, List.lookup_eq_some_iff] at hkind
        obtain ⟨before, after, hmap, -⟩ := hkind
        have hmem : (f.name, kind) ∈ MemOps.allocMap := by
          rw [hmap]
          exact List.mem_append_right _ List.mem_cons_self
        rw [fortranHandle, Option.bind_some, hcalled, hf]
        exact hnames _ hmem hvalue
      | false =>
        simp only [hlike, Bool.false_eq_true, if_false] at hresolved
        split_ifs at hresolved <;> cases hresolved <;> cases hsource
  · split_ifs at hresolved
    cases hresolved
    cases hsource
  · cases hresolved
    cases hsource

/-- A Fortran allocation is located as the type of its descriptor is parsed, with the bounds that
are set for the descriptor. -/
theorem located_type_for_descriptor [Fintype ι] [Fintype ν] (M : SourceModule ι ν) {call : ν}
    {base : CallBase ι ν} {config : CallBaseTypeConfig} {i : ℕ} {loc : DILocation}
    {ws : List (Wrapper ι)} {shapes : ShapeData} (hbase : (M.value call).asCallBase = some base)
    (hresolved : resolveCallbaseConfig base config = some ⟨.kFortranDescriptor, i, 0⟩)
    (harg : base.args.head? = some g) (hshapes : M.shapesFromValue g = some shapes)
    (hroot : Declares M.toIRModule root t) (hdescriptor : DescriptorOf G M.toIRModule root t g vs e)
    (hcopied : ∀ user ∈ M.users root, (M.value user).isMemCpy = false)
    (hchain : G.EntryChain e ws) (hlocation : M.findLocation call = some loc) :
    ∃ fuel type, ((∀ w ∈ ws, w.CountsFit) → Translates type ws false) ∧
      ∀ fuel' ≥ fuel, ∀ depth ≥ 2, parseEntryType G.toDIGraph fuel' e = .ok (some type) ∧
        locatedTypeForCall G.toDIGraph M fuel' depth call config =
          some (.ok (some ⟨if shapes = [] then type else resetShapeQualifier type shapes,
            loc.sourceLocation⟩)) := by
  obtain ⟨fuel, hfuel⟩ := hdescriptor.extract hroot.isRoot hcopied
  obtain ⟨us, rfl, hway⟩ := hdescriptor.onlyWay hroot.isRoot
  have hhandle : fortranHandle M.toIRModule (some call) = true :=
    fortranHandle_of_resolved hbase hresolved rfl
  have hfind : ∃ fuel, ∀ fuel', fuel ≤ fuel' → ∀ depth,
      solve (typeQuery G.toDIGraph M.toIRModule fuel') (depth + 2)
        (.findType ⟨some call, ⟨g :: us⟩⟩) = some (.ok (some e)) := by
    refine ⟨fuel, fun fuel' hle depth => ?_⟩
    have hvalue : (ValuePath.mk (g :: us)).value = some root := hdescriptor.getLast?
    have hwalk : walkFromRoot G.toDIGraph M.toIRModule fuel' ⟨some call, ⟨g :: us⟩⟩ (some t) =
        .ok (some e) := by
      rw [walkFromRoot, if_pos hhandle]
      exact hfuel fuel' hle
    rw [solve, typeQuery, Dimeta.findType, run_bind, askFindTypeRoot, run_query, solve, typeQuery,
      hroot.findTypeRoot hvalue]
    simp only [andThen, run_ofExcept, hwalk]
  obtain ⟨types, fuel₁, hhead, hfuel₁⟩ := exists_collectTypes_of_onlyWay hway hfind
  have hextract : ∃ fuel, ∀ fuel', fuel ≤ fuel' → ∀ depth,
      (extractType G.toDIGraph M.toIRModule call base ⟨.kFortranDescriptor, i, 0⟩).run
        (solve (typeQuery G.toDIGraph M.toIRModule fuel') (depth + 2)) =
          some (.ok (some (some (some e), if shapes = [] then none else some shapes))) := by
    refine ⟨fuel₁, fun fuel' hle depth => ?_⟩
    simp only [extractType, harg, fortranDiTypeFor, hshapes, run_bind, run_ofExcept, andThen,
      hfuel₁ fuel' hle depth, run_pure, hhead, Option.map_some]
  obtain ⟨fuel₂, type, htranslates, hall⟩ :=
    exists_locatedTypeForCall hbase hresolved hlocation hchain hextract
  refine ⟨fuel₂, type, htranslates, fun fuel' hle depth hdepth => ?_⟩
  obtain ⟨hparse, hlocated⟩ := hall fuel' hle depth hdepth
  refine ⟨hparse, hlocated.trans ?_⟩
  split_ifs <;> rfl

end Descriptors

/-- `ALLOCATE (buf(2:4))`, with the locations that are needed. -/
def allocatesBuffer : SourceModule (Fin 1) (Fin 6) where
  toIRModule := { allocatesBounds 2 4 with debugLoc := fun _ => some ⟨false, .subprogram ⟨[]⟩⟩ }
  records := [⟨⟨some 0, ⟨"buf", some 0⟩, false⟩, ⟨"a.f90", some "main", 2⟩,
    ⟨.subprogram "main" "a.f90", 2⟩⟩]
  dbgRecords_eq := rfl
  location _ := some ⟨.subprogram "main" "a.f90", 3⟩
  isSome_location _ := rfl
  globalAt _ := ⟨"a.f90", none, 0⟩

def integerGraph : LayoutGraph (Fin 1) where
  toDIGraph := integerOnly
  well_typed :=
    { refers_to_types := by simp [integerOnly, DINode.typeRef]
      members_have_types := by decide }
  members_owned := by simp [integerOnly]
  cycles_pass_records := DIGraph.cyclesPassRecords_of_lt fun a b h => by
    simp [DIGraph.PlainStep, integerOnly] at h

theorem located_type_for_descriptor_buffer : ∃ fuel type, ∀ fuel' ≥ fuel, ∀ depth ≥ 2,
    parseEntryType integerOnly fuel' 0 = .ok (some type) ∧
      locatedTypeForCall integerOnly allocatesBuffer fuel' depth 5 {} =
        some (.ok (some ⟨resetShapeQualifier type [⟨0, 3⟩], ⟨"a.f90", "main", 3⟩⟩)) := by
  have hchain : integerOnly.EntryChain 0 [] := by
    refine .chain (.leaf rfl) ?_
    rintro d ⟨⟩
  have hcopied : ∀ user ∈ allocatesBuffer.users 0,
      (allocatesBuffer.value user).isMemCpy = false := by
    decide
  obtain ⟨fuel, type, -, h⟩ :=
    located_type_for_descriptor (G := integerGraph) allocatesBuffer
      (show (allocatesBuffer.value 5).asCallBase = some _ from rfl)
      (show resolveCallbaseConfig _ {} = _ from rfl) rfl (shapesFromValue_allocatesBounds 2 4)
      (.alloca rfl rfl) (.whole rfl) hcopied hchain rfl
  exact ⟨fuel, type, h⟩

end Dimeta
