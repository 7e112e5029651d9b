import Dimeta.Extract.Accesses
import Dimeta.TypeFor.Variables

/-!
# Located types of allocations

An allocation gets the type that one of its ends is declared with: a place that it is stored in, a
function that returns it or a parameter that it is passed for. The ends are found forward from the
call. The way back from a store through its place is the only one, and the type walk along it ends
at the declared type; the way to a return or a call has no accesses on it.
-/

set_option autoImplicit false

namespace Dimeta

open Recursion Recursion.Asking Relation

variable {ι ν : Type}

/-! ### The way back from a place -/

namespace IRModule

variable (M : IRModule ι ν) {v w : ν}

lemma pointerFlow_store {value pointer : ν} (hv : M.value v = .store value pointer) :
    M.PointerFlow v w ↔ w = pointer := by
  rw [pointerFlow_iff]
  simpa [hv, LLValue.gepOperator] using eq_comm

lemma pointerFlow_load {pointer : ν} (hv : M.value v = .load pointer) :
    M.PointerFlow v w ↔ w = pointer := by
  rw [pointerFlow_iff]
  simpa [hv, LLValue.gepOperator] using eq_comm

lemma pointerFlow_gep {gep : GEPOperator ν}
    (hv : M.value v = .getElementPtr gep ∨ M.value v = .constantGEP gep) :
    M.PointerFlow v w ↔ w = gep.pointerOperand := by
  rw [pointerFlow_iff]
  rcases hv with hv | hv <;> simp [hv, LLValue.gepOperator]

/-- A root is where the way back ends. -/
lemma onlyWay_root {root : ν} (h : IsRoot M root) :
    OnlyWay M.PointerFlow (fun v => M.isTarget v = true) [root] := by
  refine .last ?_ fun w => ?_
  · rcases h with ⟨_, _, _, hv⟩ | hslot
    · simp [isTarget, hv, LLValue.isIntrinsicInst, LLValue.isArgument]
    · cases hv : M.value root <;> simp [hv, LLValue.isSlot, LLValue.isGlobalVariable,
        LLValue.isAlloca] at hslot <;>
        simp [isTarget, hv, LLValue.isIntrinsicInst, LLValue.isAlloca, LLValue.isGlobalVariable]
  · rw [pointerFlow_iff]
    rcases h with ⟨_, _, _, hv⟩ | hslot
    · simp [hv, LLValue.gepOperator]
    · cases hv : M.value root <;> simp [hv, LLValue.isSlot, LLValue.isGlobalVariable,
        LLValue.isAlloca] at hslot <;>
        simp [LLValue.gepOperator]

end IRModule

section OnlyWay

variable [DecidableEq ι] {G : LayoutGraph ι} {M : IRModule ι ν} {root g w : ν} {t q : ι}
  {vs ws : List ν}

/-- From the address of a field the way goes on to the pointer. -/
lemma FieldBehind.onlyWay (h : FieldBehind G M t w g vs q)
    (hw : OnlyWay M.PointerFlow (fun v => M.isTarget v = true) (w :: ws)) :
    ∃ us, vs ++ w :: ws = g :: us ∧
      OnlyWay M.PointerFlow (fun v => M.isTarget v = true) (g :: us) := by
  cases h with
  | gep hv hoperand _ =>
    refine ⟨w :: ws, rfl, .cons ?_ (fun x => ?_) hw⟩
    · rcases hv.value with hv | hv <;>
        simp [IRModule.isTarget, hv, LLValue.isAlloca, LLValue.isArgument,
          LLValue.isGlobalVariable, LLValue.isCallBase]
    · rw [M.pointerFlow_gep hv.value, hoperand]
  | first => exact ⟨ws, rfl, hw⟩

omit [DecidableEq ι] in
lemma onlyWay_load {v : ν} (hv : M.value v = .load g)
    (h : OnlyWay M.PointerFlow (fun v => M.isTarget v = true) (g :: vs)) :
    OnlyWay M.PointerFlow (fun v => M.isTarget v = true) (v :: g :: vs) := by
  refine .cons ?_ (fun x => M.pointerFlow_load hv) h
  simp [IRModule.isTarget, hv, LLValue.isAlloca, LLValue.isArgument, LLValue.isGlobalVariable,
    LLValue.isCallBase]

lemma PointerFrom.onlyWay (h : PointerFrom G M root t w ws q) (hroot : IsRoot M root) :
    ∃ us, ws = w :: us ∧ OnlyWay M.PointerFlow (fun v => M.isTarget v = true) (w :: us) := by
  induction h with
  | root => exact ⟨[], rfl, M.onlyWay_root hroot⟩
  | slot _ hv => exact ⟨[root], rfl, onlyWay_load hv (M.onlyWay_root hroot)⟩
  | field _ hg hv ih =>
    obtain ⟨us, rfl, hway⟩ := ih
    obtain ⟨us', hus, hway'⟩ := hg.onlyWay hway
    rw [hus]
    exact ⟨_, rfl, onlyWay_load hv hway'⟩

/-- There is one way back from a store to a place. -/
lemma Place.onlyWay (h : Place G M root t g vs q) (hroot : IsRoot M root) {store value : ν}
    (hstore : M.value store = .store value g) :
    OnlyWay M.PointerFlow (fun v => M.isTarget v = true) (store :: vs) := by
  have hway : ∃ us, vs = g :: us ∧
      OnlyWay M.PointerFlow (fun v => M.isTarget v = true) (g :: us) := by
    cases h with
    | slot => exact ⟨[], rfl, M.onlyWay_root hroot⟩
    | field hw hg =>
      obtain ⟨us, rfl, hway⟩ := hw.onlyWay hroot
      obtain ⟨us', hus, hway'⟩ := hg.onlyWay hway
      exact ⟨us', hus, hway'⟩
  obtain ⟨us, rfl, hway⟩ := hway
  refine .cons ?_ (fun x => M.pointerFlow_store hstore) hway
  simp [IRModule.isTarget, hstore, LLValue.isAlloca, LLValue.isArgument, LLValue.isGlobalVariable,
    LLValue.isCallBase]

lemma Place.getLast? (h : Place G M root t g vs q) : vs.getLast? = some root := by
  have hpointer : ∀ {w ws s}, PointerFrom G M root t w ws s → ws.getLast? = some root := by
    intro w ws s hw
    induction hw with
    | root => rfl
    | slot => rfl
    | field _ _ _ ih => simp [List.getLast?_cons, List.getLast?_append, ih]
  cases h with
  | slot => rfl
  | field hw _ => simp [List.getLast?_append, hpointer hw]

end OnlyWay

/-! ### Types along the way -/

/-- The root has the declared type `t`: that of a parameter, of the variable or stored argument of
an alloca, or of a global. -/
inductive Declares [DecidableEq ν] (M : IRModule ι ν) (root : ν) (t : ι) : Prop
  | argument {parent : LLFunction ι} {argNo : ℕ} {structRet : Bool}
      (hv : M.value root = .argument parent argNo structRet)
      (ht : typeOfArgument parent argNo structRet = .ok (some (some t)))
  | alloca (hv : M.value root = .alloca) (ht : declaredAlloca M root = some (.ok (some (some t))))
  | global {initializer : Option ν}
      (hv : M.value root = .globalVariable (some (some t)) initializer)

/-- The value `v` is a store to a place, which is declared with type `q`, along the path `p`. -/
inductive StoresTo [DecidableEq ι] [DecidableEq ν] (G : LayoutGraph ι) (M : IRModule ι ν) (v : ν)
    (q : ι) : ValuePath ν → Prop
  | place {root g value : ν} {t : ι} {vs : List ν} (hroot : Declares M root t)
      (hplace : Place G M root t g vs q) (hstore : M.value v = .store value g) :
      StoresTo G M v q ⟨v :: vs⟩

section Stores

variable [DecidableEq ι] [DecidableEq ν] {G : LayoutGraph ι} {M : IRModule ι ν}

omit [DecidableEq ι] in
lemma Declares.isRoot {root : ν} {t : ι} (h : Declares M root t) : IsRoot M root := by
  cases h with
  | argument hv => exact .inl ⟨_, _, _, hv⟩
  | alloca hv | global hv =>
    refine .inr ?_
    rw [hv]
    rfl

omit [DecidableEq ι] in
lemma Declares.findTypeRoot [Fintype ν] {root : ν} {t : ι} (h : Declares M root t)
    {cp : CallValuePath ν} (hpath : cp.path.value = some root)
    (answers : (q : TypeQuery ν) → Option (Except Fault (q.Result ι))) :
    (findTypeRoot M cp).run answers = some (.ok (some (some t))) := by
  rw [Dimeta.findTypeRoot, hpath]
  cases h with
  | argument hv ht =>
    simp only [hv, LLValue.rootKind, ht]
    rfl
  | alloca hv ht =>
    simp only [hv, LLValue.rootKind, ht]
    rfl
  | global hv =>
    simp only [hv, LLValue.rootKind]
    rfl

/-- The type of a path that leads back from a store to a place is the declared type. -/
lemma StoresTo.findType [Fintype ι] [Fintype ν] {v : ν} {q : ι} {p : ValuePath ν}
    (h : StoresTo G M v q p) {call : Option ν} (hcall : fortranHandle M call = false) :
    ∃ fuel, ∀ fuel', fuel ≤ fuel' → ∀ depth,
      solve (typeQuery G.toDIGraph M fuel') (depth + 2) (.findType ⟨call, p⟩) =
        some (.ok (some q)) := by
  cases h with
  | @place root g value t vs hroot hplace hstore =>
    obtain ⟨fuel, hfuel⟩ := hplace.type_of_store hroot.isRoot hstore
    refine ⟨fuel, fun fuel' hle depth => ?_⟩
    have hvalue : (ValuePath.mk (v :: vs)).value = some root := by
      show (v :: vs).getLast? = _
      rw [List.getLast?_cons, hplace.getLast?]
      rfl
    have hwalk : walkFromRoot G.toDIGraph M fuel' ⟨call, ⟨v :: vs⟩⟩ (some t) = .ok (some q) := by
      rw [walkFromRoot, hcall]
      exact hfuel fuel' hle
    rw [solve, typeQuery, Dimeta.findType, run_bind, askFindTypeRoot, run_query, solve, typeQuery,
      hroot.findTypeRoot hvalue]
    simp only [andThen, run_ofExcept, hwalk]

/-- A target is found backward from a store to a place, and along the path of the place only. -/
lemma StoresTo.targets {v : ν} {q : ι} {p : ValuePath ν} (h : StoresTo G M v q p) :
    (∃ w, M.isTarget w = true ∧ ReflTransGen M.PointerFlow v w) ∧
      ∀ p' w, GenuinePath M.PointerFlow v w p' → M.isTarget w = true → p' = p := by
  cases h with
  | place hroot hplace hstore =>
    have hway := hplace.onlyWay hroot.isRoot hstore
    exact ⟨hway.reaches, fun p' w hgenuine hw => hway.eq_of_genuinePath hgenuine hw⟩

/-- Where a type is found along every path, the types are collected in order. -/
lemma exists_collectTypes [Fintype ν] {G : DIGraph ι} {call : Option ν} {P : ValuePath ν → ι → Prop}
    {ps : List (ValuePath ν)}
    (h : ∀ p ∈ ps, ∃ q, P p q ∧ ∃ fuel, ∀ fuel', fuel ≤ fuel' → ∀ depth,
      solve (typeQuery G M fuel') (depth + 2) (.findType ⟨call, p⟩) = some (.ok (some q))) :
    ∃ types fuel, List.Forall₂ P ps types ∧ ∀ fuel', fuel ≤ fuel' → ∀ depth,
      (collectTypes call ps).run (solve (typeQuery G M fuel') (depth + 2)) = some (.ok types) := by
  induction ps with
  | nil => exact ⟨[], 0, .nil, fun _ _ _ => rfl⟩
  | cons p ps ih =>
    obtain ⟨q, hq, fuel, hfuel⟩ := h p List.mem_cons_self
    obtain ⟨types, fuel₁, htypes, hfuel₁⟩ := ih fun p hp => h p (List.mem_cons_of_mem _ hp)
    refine ⟨q :: types, max fuel fuel₁, .cons hq htypes, fun fuel' hle depth => ?_⟩
    rw [collectTypes, run_bind, askFindType, run_query, hfuel fuel' (le_of_max_le_left hle) depth]
    simp only [andThen, run_bind, hfuel₁ fuel' (le_of_max_le_right hle) depth]
    rfl

/-! ### Ends of an allocation -/

/-- The type is not reset at the value. -/
structure Unreset (M : IRModule ι ν) (v : ν) : Prop where
  gep : (M.value v).gepOperator = none
  load : (M.value v).isLoad = false
  store : ∀ value pointer, M.value v ≠ .store value pointer

/-- `v` returns the last value of the path in front of it from a function, or passes it for a
parameter, of declared type `q`. There are no accesses on the path. -/
inductive HandsOn (M : IRModule ι ν) (v : ν) (q : ι) : ValuePath ν → Prop
  | returned {vs : List ν} {parent : LLFunction ι} {returnValue : Option ν} {s : DISubprogram ι}
      (hv : M.value v = .ret parent returnValue) (hs : parent.subprogram = some s)
      (hq : s.typeArray.head? = some (some q)) (hvs : ∀ x ∈ vs, Unreset M x) :
      HandsOn M v q ⟨vs ++ [v]⟩
  | passed {vs : List ν} {w : ν} {opcode : CallOpcode} {callee : Callee ι ν} {args : List ν}
      {heapallocsite : Option ι} {f : LLFunction ι} {s : DISubprogram ι} {k : ℕ}
      (hv : M.value v = .call opcode callee args heapallocsite)
      (hf : callee.calledFunction = some f) (hcopy : (M.value v).isMemCpy = false)
      (halloc : MemOps.isAlloc f.name = false) (hs : f.subprogram = some s)
      (hk : args.findIdx? (· = w) = some k) (hq : s.typeArray[k + 1]? = some (some q))
      (hvs : ∀ x ∈ vs ++ [w], Unreset M x) : HandsOn M v q ⟨vs ++ [w] ++ [v]⟩

lemma Unreset.resetDitype {v : ν} (h : Unreset M v) (fuel : ℕ) (path : ValuePath ν)
    (type : Option ι) : resetDitype G.toDIGraph M fuel path type v = .ok type := by
  obtain ⟨hgep, hload, hstore⟩ := h
  rw [Dimeta.resetDitype]
  cases hv : M.value v with
  | getElementPtr _ | constantGEP _ => rw [hv] at hgep; cases hgep
  | load _ => rw [hv] at hload; cases hload
  | store value pointer => exact absurd hv (hstore value pointer)
  | _ => rfl

lemma resetAlong_of_unreset {vs : List ν} (h : ∀ v ∈ vs, Unreset M v) (fuel : ℕ)
    (path : ValuePath ν) (type : Option ι) :
    resetAlong G.toDIGraph M fuel path type vs = .ok type := by
  induction vs with
  | nil => rfl
  | cons v vs ih =>
    rw [resetAlong, List.foldlM_cons, (h v List.mem_cons_self).resetDitype, ok_bind]
    exact ih fun w hw => h w (List.mem_cons_of_mem _ hw)

omit [DecidableEq ι] [DecidableEq ν] in
lemma unreset_append {vs : List ν} {v : ν} (h : ∀ x ∈ vs, Unreset M x) (hv : Unreset M v) :
    ∀ x ∈ vs ++ [v], Unreset M x := by
  intro x hx
  rcases List.mem_append.mp hx with hx | hx
  · exact h x hx
  · rw [List.mem_singleton.mp hx]
    exact hv

/-- The type of a path to where the allocation is handed on is the declared type. -/
lemma HandsOn.findType [Fintype ν] {v : ν} {q : ι} {p : ValuePath ν} (h : HandsOn M v q p)
    {call : Option ν} (hcall : fortranHandle M call = false) (fuel depth : ℕ) :
    solve (typeQuery G.toDIGraph M fuel) (depth + 2) (.findType ⟨call, p⟩) =
      some (.ok (some q)) := by
  -- the root declares its type, whatever is answered
  have hfind : ∀ answers : (q : TypeQuery ν) → Option (Except Fault (q.Result ι)),
      (findTypeRoot M ⟨call, p⟩).run answers = some (.ok (some (some q))) := by
    intro answers
    cases h with
    | @returned vs _ _ s hv hs hq hvs =>
      have hvalue : (ValuePath.mk (vs ++ [v])).value = some v := List.getLast?_concat
      simp only [findTypeRoot, hvalue, hv, LLValue.rootKind, hs, hq]
      rfl
    | @passed vs w _ callee args _ f s k hv hf hcopy halloc hs hk hq hvs =>
      have hvalue : (ValuePath.mk (vs ++ [w] ++ [v])).value = some v := List.getLast?_concat
      have hprevious : (ValuePath.mk (vs ++ [w] ++ [v])).previousValue = some w := by
        rw [ValuePath.previousValue, List.dropLast_concat, List.getLast?_concat]
      -- the start of the path is no store
      have hstore : typeOfStoreToCall M ⟨vs ++ [w] ++ [v]⟩ f v = .ok none := by
        rw [typeOfStoreToCall]
        cases hstart : (ValuePath.mk (vs ++ [w] ++ [v])).startValue with
        | none => rfl
        | some x =>
          have hx : x ∈ vs ++ [w] := by
            cases vs with
            | nil => exact List.mem_singleton.mpr (Option.some.inj hstart).symm
            | cons y vs =>
              obtain rfl : y = x := Option.some.inj hstart
              exact List.mem_cons_self
          rw [Option.map_some]
          cases hvx : M.value x with
          | store value pointer => exact absurd hvx ((hvs x hx).store value pointer)
          | _ => rfl
      have hargument : typeOfCallArgument ⟨vs ++ [w] ++ [v]⟩ f args = .ok (some (some q)) := by
        simp only [typeOfCallArgument, hprevious, Option.bind_some, hk, hs, typeAt, hq]
      rw [hv] at hcopy
      simp only [findTypeRoot, hvalue, hv, LLValue.rootKind, hf, hcopy, typeOfCall, halloc, hstore,
        ok_bind, hprevious, hargument, Bool.false_eq_true, if_false, Option.isSome_some, if_true]
      rfl
  -- and nothing on the way changes it
  have hunreset : ∀ x ∈ p.pathToValue, Unreset M x := by
    cases h with
    | returned hv _ _ hvs =>
      refine unreset_append hvs ⟨?_, ?_, ?_⟩ <;> rw [hv]
      · rfl
      · rfl
      · intro _ _ h
        cases h
    | passed hv _ _ _ _ _ _ hvs =>
      refine unreset_append hvs ⟨?_, ?_, ?_⟩ <;> rw [hv]
      · rfl
      · rfl
      · intro _ _ h
        cases h
  have hwalk : walkFromRoot G.toDIGraph M fuel ⟨call, p⟩ (some q) = .ok (some q) := by
    rw [walkFromRoot, hcall]
    exact resetAlong_of_unreset (fun x hx => hunreset x (List.mem_reverse.mp hx)) fuel p (some q)
  rw [solve, typeQuery, Dimeta.findType, run_bind, askFindTypeRoot, run_query, solve, typeQuery,
    hfind]
  simp only [andThen, run_ofExcept, hwalk]

/-- The end `v` of an allocation is declared with type `q`, along the path `p`. -/
def DeclaredEnd (G : LayoutGraph ι) (M : IRModule ι ν) (v : ν) (q : ι) (p : ValuePath ν) : Prop :=
  StoresTo G M v q p ∨ HandsOn M v q p

/-- The ends of an allocation, of which there is one, are declared with types that satisfy `P`: it
is stored in places, returned, and passed for parameters. -/
structure DeclaredEnds (G : LayoutGraph ι) (M : IRModule ι ν) (call : ν) (P : ν → ι → Prop) :
    Prop where
  handedOn : ∀ v p, M.isHandedOn call v = true → GenuinePath (M.UseFlow call) call v p →
    ∃ q, HandsOn M v q p ∧ P v q
  stored : ∀ v, ReflTransGen (M.UseFlow call) call v → M.isBacktracked call v = true →
    ∃ q p, StoresTo G M v q p ∧ P v q
  exists_end : ∃ v, ReflTransGen (M.UseFlow call) call v ∧
    (M.isBacktracked call v = true ∨ M.isHandedOn call v = true)

/-- The paths for the allocation lead to its ends, and there is one. -/
lemma DeclaredEnds.paths [Fintype ν] {call : ν} {P : ν → ι → Prop}
    (h : DeclaredEnds G M call P) :
    M.typeForHeapCall call ≠ [] ∧ ∀ p ∈ M.typeForHeapCall call, ∃ q, ∃ v,
      ReflTransGen (M.UseFlow call) call v ∧ DeclaredEnd G M v q p ∧ P v q := by
  have hfinds := M.findsAllocation_typeForHeapCall call
  constructor
  · by_cases hreturn : ∃ v, ReflTransGen (M.UseFlow call) call v ∧ M.isReturn v = true
    · obtain ⟨p, hp, -⟩ := hfinds.returned_iff.mpr hreturn
      exact List.ne_nil_of_mem hp
    · have hnone : ∀ v, ReflTransGen (M.UseFlow call) call v → M.isReturn v = false := by
        intro v hv
        by_contra hret
        exact hreturn ⟨v, hv, by simpa using hret⟩
      have hleads : ∃ v target, ReflTransGen (M.UseFlow call) call v ∧
          M.LeadsTo call v target := by
        obtain ⟨v, hreach, hback | hhanded⟩ := h.exists_end
        · obtain ⟨q, p, hstores, -⟩ := h.stored v hreach hback
          obtain ⟨w, hw, hflow⟩ := hstores.targets.1
          exact ⟨v, w, hreach, .inr ⟨hback, hw, hflow⟩⟩
        · exact ⟨v, v, hreach, .inl ⟨hhanded, rfl⟩⟩
      obtain ⟨v, target, hreach, hleads⟩ := hleads
      obtain ⟨p, hp, -⟩ := hfinds.complete hnone v target hreach hleads
      exact List.ne_nil_of_mem hp
  · intro p hp
    obtain ⟨v, hreach, ⟨hhanded, hgenuine⟩ | ⟨hback, w, hw, hgenuine⟩⟩ := hfinds.genuine p hp
    · obtain ⟨q, hhands, hP⟩ := h.handedOn v p hhanded hgenuine
      exact ⟨q, v, hreach, .inr hhands, hP⟩
    · obtain ⟨q, p', hstores, hP⟩ := h.stored v hreach hback
      obtain rfl := hstores.targets.2 p w hgenuine hw
      exact ⟨q, v, hreach, .inl hstores, hP⟩

/-- The type that is found for the allocation is the declared type of one of its ends. -/
lemma DeclaredEnds.typeForMalloclike [Fintype ι] [Fintype ν] {call : ν} {P : ν → ι → Prop}
    (h : DeclaredEnds G M call P) (hassigned : M.getArrayAccessAssignment call = none)
    (hfortran : fortranHandle M (some call) = false) :
    ∃ v q p, ReflTransGen (M.UseFlow call) call v ∧ DeclaredEnd G M v q p ∧ P v q ∧
      ∃ fuel, ∀ fuel', fuel ≤ fuel' → ∀ depth,
        (typeForMalloclike G.toDIGraph M call).run (solve (typeQuery G.toDIGraph M fuel')
          (depth + 2)) = some (.ok (some (some q))) := by
  obtain ⟨hne, hpaths⟩ := h.paths
  have hfound : ∀ p ∈ M.typeForHeapCall call, ∃ q,
      (∃ v, ReflTransGen (M.UseFlow call) call v ∧ DeclaredEnd G M v q p ∧ P v q) ∧
        ∃ fuel, ∀ fuel', fuel ≤ fuel' → ∀ depth,
          solve (typeQuery G.toDIGraph M fuel') (depth + 2) (.findType ⟨some call, p⟩) =
            some (.ok (some q)) := by
    intro p hp
    obtain ⟨q, v, hreach, hend, hP⟩ := hpaths p hp
    refine ⟨q, ⟨v, hreach, hend, hP⟩, ?_⟩
    rcases hend with hstores | hhands
    · exact hstores.findType hfortran
    · exact ⟨0, fun fuel' _ depth => hhands.findType hfortran fuel' depth⟩
  obtain ⟨types, fuel, htypes, hfuel⟩ := exists_collectTypes hfound
  have hselect : ∀ fuel', fuel ≤ fuel' → ∀ depth,
      (Dimeta.typeForMalloclike G.toDIGraph M call).run
        (solve (typeQuery G.toDIGraph M fuel') (depth + 2)) =
          some (.ok (types.head?.map some)) := by
    intro fuel' hle depth
    rw [Dimeta.typeForMalloclike, hassigned]
    simp only [run_bind, hfuel fuel' hle depth]
    rfl
  generalize M.typeForHeapCall call = ps at hne htypes
  cases htypes with
  | nil => exact absurd rfl hne
  | @cons p q ps types hq _ =>
    obtain ⟨v, hreach, hend, hP⟩ := hq
    exact ⟨v, q, p, hreach, hend, hP, fuel, hselect⟩

/-! ### Located types of calls -/

/-- `located_type_for`, of a call -/
def locatedTypeForCall [Fintype ν] (G : DIGraph ι) (M : SourceModule ι ν) (fuel depth : ℕ)
    (call : ν) (config : CallBaseTypeConfig) : Option (Except Fault (Option LocatedType)) :=
  (runTypeFor G M.toIRModule fuel depth call config).map fun typeData =>
    getLocatedType G fuel <| typeData.map fun data =>
      data.map fun data => ⟨data, none, M.findLocation call⟩

omit [DecidableEq ν] in
/-- The shape is set at the end. -/
lemma locatedTypeFor_of_no_shape {G : DIGraph ι} {fuel : ℕ} {data plain : DimetaData ι}
    {type : QualifiedType} {location : SourceLocation} (hentry : plain.entryType = data.entryType)
    (hlevel : plain.pointerLevel = data.pointerLevel) (hshape : plain.shape = none)
    (h : locatedTypeFor G fuel plain (some location) = .ok (some ⟨type, location⟩)) :
    locatedTypeFor G fuel data (some location) =
      .ok (some ⟨data.shape.elim type (resetShapeQualifier type), location⟩) := by
  rw [locatedTypeFor_eq_some] at h ⊢
  obtain ⟨t, parsed, ht, hparse, -, htype⟩ := h
  rw [hshape, Option.elim_none, hlevel] at htype
  refine ⟨t, parsed, hentry.symm.trans ht, hparse, rfl, ?_⟩
  rw [← htype]

/-- Once the type of a call is found, the call is located as the type is parsed, with the shape that
was found. -/
lemma exists_locatedTypeForCall [Fintype ι] [Fintype ν] {M : SourceModule ι ν} {call : ν}
    {base : CallBase ι ν} {config : CallBaseTypeConfig} {source : CallBaseTypeSource} {i : ℕ}
    {loc : DILocation} {q : ι} {ws : List (Wrapper ι)} {shape : Option ShapeData}
    (hbase : (M.value call).asCallBase = some base)
    (hresolved : resolveCallbaseConfig base config = some ⟨source, i, 0⟩)
    (hlocation : M.findLocation call = some loc) (hchain : G.EntryChain q ws)
    (hextract : ∃ fuel, ∀ fuel', fuel ≤ fuel' → ∀ depth,
      (extractType G.toDIGraph M.toIRModule call base ⟨source, i, 0⟩).run
        (solve (typeQuery G.toDIGraph M.toIRModule fuel') (depth + 2)) =
          some (.ok (some (some (some q), shape)))) :
    ∃ fuel type, ((∀ w ∈ ws, w.CountsFit) → Translates type ws false) ∧
      ∀ fuel' ≥ fuel, ∀ depth ≥ 2, parseEntryType G.toDIGraph fuel' q = .ok (some type) ∧
        locatedTypeForCall G.toDIGraph M fuel' depth call config =
          some (.ok (some ⟨shape.elim type (resetShapeQualifier type), loc.sourceLocation⟩)) := by
  obtain ⟨fuel, hfuel⟩ := hextract
  obtain ⟨fuel₁, final, level, type, htranslates, hall⟩ :=
    exists_getLocatedType G.cycles_pass_records hchain
  refine ⟨max fuel fuel₁, type, htranslates, fun fuel' hle depth hdepth => ?_⟩
  obtain ⟨depth, rfl⟩ := Nat.exists_eq_add_of_le' hdepth
  obtain ⟨hfinal, hparse, hlocated⟩ := hall fuel' (le_of_max_le_right hle)
  refine ⟨hparse, ?_⟩
  have hrun : runTypeFor G.toDIGraph M.toIRModule fuel' (depth + 2) call config =
      some (.ok (some ⟨.kHeap, some (some q), some (some final), shape, level + 0⟩)) := by
    simp only [runTypeFor, typeFor, hbase, hresolved, typeForResolvedCallbase, run_bind,
      hfuel fuel' (le_of_max_le_left hle) depth, andThen, run_pure, hfinal, run_ofExcept,
      Option.isNone_some]
    split <;> simp_all
  rw [locatedTypeForCall, hrun]
  simp only [Option.map_some, Except.map, getLocatedType, ok_bind, locationFor, hlocation]
  have hplain := hlocated ⟨.kHeap, some (some q), some (some final), none, level + 0⟩
    loc.sourceLocation rfl (add_zero level) rfl
  rw [locatedTypeFor_of_no_shape ?_ ?_ ?_ hplain] <;> rfl

/-- An allocation is located, at its call, as the declared type of one of its ends is parsed, with
all that is on the chain of that type. -/
theorem located_type_for_call [Fintype ι] [Fintype ν] (M : SourceModule ι ν) {call : ν}
    {base : CallBase ι ν} {config : CallBaseTypeConfig} {n : ℕ} {loc : DILocation}
    (hbase : (M.value call).asCallBase = some base)
    (hresolved : resolveCallbaseConfig base config =
      some ⟨.kReturnValueForwardThenBackward, n, 0⟩)
    (hassigned : M.getArrayAccessAssignment call = none)
    (hfortran : fortranHandle M.toIRModule (some call) = false)
    {P : ν → ι → Prop} (hends : DeclaredEnds G M.toIRModule call P)
    (hchains : ∀ v q, P v q → ∃ ws, G.EntryChain q ws)
    (hlocation : M.findLocation call = some loc) :
    ∃ v q ws p fuel type, ReflTransGen (M.UseFlow call) call v ∧ DeclaredEnd G M.toIRModule v q p ∧
      P v q ∧ G.EntryChain q ws ∧ ((∀ w ∈ ws, w.CountsFit) → Translates type ws false) ∧
        ∀ fuel' ≥ fuel, ∀ depth ≥ 2, parseEntryType G.toDIGraph fuel' q = .ok (some type) ∧
          locatedTypeForCall G.toDIGraph M fuel' depth call config =
            some (.ok (some ⟨type, loc.sourceLocation⟩)) := by
  obtain ⟨v, q, p, hreach, hend, hP, fuel, hfuel⟩ :=
    hends.typeForMalloclike hassigned hfortran
  obtain ⟨ws, hchain⟩ := hchains v q hP
  have hextract : ∃ fuel, ∀ fuel', fuel ≤ fuel' → ∀ depth,
      (extractType G.toDIGraph M.toIRModule call base ⟨.kReturnValueForwardThenBackward, n, 0⟩).run
        (solve (typeQuery G.toDIGraph M.toIRModule fuel') (depth + 2)) =
          some (.ok (some (some (some q), none))) := by
    refine ⟨fuel, fun fuel' hle depth => ?_⟩
    simp only [extractType, run_bind, hfuel fuel' hle depth, andThen, run_pure]
  obtain ⟨fuel, type, htranslates, hall⟩ :=
    exists_locatedTypeForCall hbase hresolved hlocation hchain hextract
  exact ⟨v, q, ws, p, fuel, type, hreach, hend, hP, hchain, htranslates, hall⟩

end Stores

/-! ### Data of the next node -/

/-- `int *f(struct Node *node)`, with `node->next->data.p = p = malloc(..);`, with
`cudaMalloc(&node->next->data.p, ..);` and with `return p;`. The last field is addressed by
bytes. -/
def dataOfNext : SourceModule (Fin 10) (Fin 8) where
  value
    | 0 => .argument { name := "f", subprogram := some ⟨[some 6, some 5]⟩ } 0 false
    | 1 => .getElementPtr { sourceElementType := .struct [.integer 32,
                              .struct [.integer 32, .pointer], .pointer]
                            pointerOperand := 0
                            indices := [some 0, some 2]
                            dynamicOperands := [] }
    | 2 => .load 1
    | 3 => .getElementPtr { sourceElementType := .integer 8
                            pointerOperand := 2
                            indices := [some 16]
                            dynamicOperands := [] }
    | 4 => .call .call (.function ⟨"malloc", none⟩) [] none
    | 5 => .store 4 3
    | 6 => .call .call (.function ⟨"cudaMalloc", none⟩) [3] none
    | 7 => .ret { name := "f", subprogram := some ⟨[some 6, some 5]⟩ } (some 4)
  users
    | 0 => [1]
    | 1 => [2]
    | 2 => [3]
    | 3 => [6, 5]
    | 4 => [7, 5]
    | 5 => []
    | 6 => []
    | 7 => []
  mem_users := by decide
  debugLoc _ := some ⟨false, .subprogram ⟨[some 6, some 5]⟩⟩
  dbgRecords := []
  records := []
  dbgRecords_eq := rfl
  location _ := some ⟨.subprogram "f" "a.c", 9⟩
  isSome_location _ := rfl
  globalAt _ := ⟨"a.c", none, 0⟩

lemma pointerField_linked : linked.PointerField 4 6 pointerField := ⟨rfl, rfl, rfl, rfl, by decide⟩

lemma typeChain_linked : linked.TypeChain 6
    [.derived { tag := .pointerType, sizeInBits := 64, baseType := some 7 }] :=
  .derived rfl rfl (by decide) rfl rfl (.leaf rfl)

/-- The next node is found behind the parameter. -/
lemma pointerFrom_dataOfNext :
    PointerFrom linkedGraph dataOfNext.toIRModule 0 5 2 [2, 1, 0] 5 := by
  have hmember : linked.MemberPath nodeRecord (([2] : List ℤ).map UInt64.ofInt) 2 5 :=
    .member plainRecord_linked.1 rfl ⟨_, rfl, .stop rfl rfl⟩
  have hnext : linked.PointerField 2 5 _ := ⟨rfl, rfl, rfl, rfl, by decide⟩
  have hnumbers : FieldBehind linkedGraph dataOfNext.toIRModule 5 0 1 [1] 5 :=
    .gep (.numbers recordRoot_linked hmember ⟨.inl rfl, ⟨rfl, by simp, ⟨_, rfl⟩, rfl⟩, rfl⟩) rfl
      hnext
  exact .field .root hnumbers rfl

lemma addresses_dataOfNext : Addresses linkedGraph dataOfNext.toIRModule 5 3
    { sourceElementType := .integer 8, pointerOperand := 2, indices := [some 16],
      dynamicOperands := [] } 4 :=
  .bytes recordRoot_linked rfl laidOut_linked fieldAt_linked (k := 16) ⟨by decide, by decide⟩
    strayFree_linked ⟨.inl rfl, rfl, rfl, rfl⟩

/-- The pointer that is stored is in a place, declared as `int *`. -/
lemma storesTo_dataOfNext :
    StoresTo linkedGraph dataOfNext.toIRModule 5 6 ⟨[5, 3, 2, 1, 0]⟩ :=
  .place (.argument rfl rfl)
    (.field pointerFrom_dataOfNext (.gep addresses_dataOfNext rfl pointerField_linked)) rfl

/-- From the allocation the search goes to the store and to the return, and no further. -/
lemma useFlow_dataOfNext {v w : Fin 8} (hv : v = 4 ∨ v = 5 ∨ v = 7) :
    dataOfNext.UseFlow 4 v w → v = 4 ∧ (w = 5 ∨ w = 7) := by
  intro hstep
  cases hstep with
  | slot hstore _ hcopied _ =>
    rcases hv with rfl | rfl | rfl
    · cases hstore
    · obtain ⟨rfl, rfl⟩ := LLValue.store.inj hstore
      exact absurd hcopied (by decide)
    · cases hstore
  | user hpasses huser =>
    rcases hv with rfl | rfl | rfl
    · exact ⟨rfl, (List.mem_pair.mp huser).symm⟩
    · exact absurd hpasses (by decide)
    · exact absurd hpasses (by decide)

lemma declaredEnds_dataOfNext :
    DeclaredEnds linkedGraph dataOfNext.toIRModule 4 fun _ q => q = 6 := by
  have hreach : ∀ v, ReflTransGen (dataOfNext.UseFlow 4) 4 v → v = 4 ∨ v = 5 ∨ v = 7 := by
    intro v hv
    induction hv with
    | refl => exact .inl rfl
    | tail _ hstep ih => exact .inr (useFlow_dataOfNext ih hstep).2
  have hcall : Unreset dataOfNext.toIRModule 4 := ⟨rfl, rfl, nofun⟩
  refine ⟨fun v p hhanded hgenuine => ?_, fun v hv hback => ?_, 5, .single (.user rfl (by decide)),
    .inl rfl⟩
  · obtain ⟨hstart, hvalue, hchain⟩ := hgenuine
    obtain ⟨vs⟩ := p
    match vs with
    | [] => cases hstart
    | [x] =>
      obtain rfl : x = 4 := Option.some.inj hstart
      obtain rfl : 4 = v := Option.some.inj hvalue
      exact absurd hhanded (by decide)
    | [x, y] =>
      obtain rfl : x = 4 := Option.some.inj hstart
      obtain rfl : y = v := Option.some.inj hvalue
      obtain ⟨-, rfl | rfl⟩ := useFlow_dataOfNext (.inl rfl) (List.isChain_pair.mp hchain)
      · exact absurd hhanded (by decide)
      · have hreturned : HandsOn dataOfNext.toIRModule 7 6 ⟨[4] ++ [7]⟩ := by
          refine .returned rfl rfl rfl fun x hx => ?_
          rw [List.mem_singleton.mp hx]
          exact hcall
        exact ⟨6, hreturned, rfl⟩
    | x :: y :: z :: vs =>
      obtain rfl : x = 4 := Option.some.inj hstart
      obtain ⟨hxy, hyz⟩ := List.isChain_cons_cons.mp hchain
      obtain ⟨-, hy⟩ := useFlow_dataOfNext (.inl rfl) hxy
      obtain ⟨rfl, -⟩ := useFlow_dataOfNext (.inr hy) (List.isChain_cons_cons.mp hyz).1
      rcases hy with hy | hy <;> cases hy
  · rcases hreach v hv with rfl | rfl | rfl
    · cases hback
    · exact ⟨6, _, storesTo_dataOfNext, rfl⟩
    · cases hback

theorem located_type_for_call_next : ∃ fuel type, ∀ fuel' ≥ fuel, ∀ depth ≥ 2,
    parseEntryType linked fuel' 6 = .ok (some type) ∧
      locatedTypeForCall linked dataOfNext fuel' depth 4 {} =
        some (.ok (some ⟨type, ⟨"a.c", "f", 9⟩⟩)) := by
  have hchains : ∀ (v : Fin 8) (q : Fin 10), q = 6 → ∃ ws, linked.EntryChain q ws := by
    rintro v q rfl
    refine ⟨_, .chain typeChain_linked ?_⟩
    rintro d ⟨⟩
    rfl
  obtain ⟨v, q, ws, p, fuel, type, -, -, rfl, -, -, h⟩ :=
    located_type_for_call dataOfNext rfl (show resolveCallbaseConfig _ {} = _ from rfl) rfl rfl
      declaredEnds_dataOfNext hchains rfl
  exact ⟨fuel, type, h⟩

end Dimeta
