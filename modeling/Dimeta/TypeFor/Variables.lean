import Dimeta.Dataflow.Flows
import Dimeta.TypeFor.PointerLevel

/-!
# Located types of variables

A stack allocation gets the declared type of the variable that a debug record ties to it, a global
that of its first debug expression. A source module has the places of the declarations, which the
type search has no use for.
-/

set_option autoImplicit false

namespace Dimeta

open Recursion

variable {ι ν : Type}

/-! ### Places -/

/-- The scope of a location: a subprogram, or a block below one, each in a file. -/
inductive DILocalScope where
  | subprogram (name filename : String)
  | lexicalBlock (filename : String) (scope : DILocalScope)

namespace DILocalScope

def filename : DILocalScope → String
  | .subprogram _ filename | .lexicalBlock filename _ => filename

/-- The name of the subprogram around a scope. -/
def subprogramName : DILocalScope → String
  | .subprogram name _    => name
  | .lexicalBlock _ scope => scope.subprogramName

end DILocalScope

structure DILocation where
  scope : DILocalScope
  line : UInt32

/-- Where a local or global variable is declared; the scope is there by its name. -/
structure DIVariable where
  filename : String
  scopeName : Option String
  line : UInt32

def DILocation.sourceLocation (loc : DILocation) : SourceLocation :=
  ⟨loc.scope.filename, loc.scope.subprogramName, loc.line⟩

/-- `make_source_loc` -/
def DIVariable.sourceLocation (v : DIVariable) : SourceLocation :=
  ⟨v.filename, v.scopeName.getD "", v.line⟩

structure SourceRecord (ι ν : Type) extends DbgRecord ι ν where
  declaredAt : DIVariable
  debugLoc : DILocation

/-- A module with the places of its variables and instructions. -/
structure SourceModule (ι ν : Type) extends IRModule ι ν where
  records : List (SourceRecord ι ν)
  dbgRecords_eq : dbgRecords = records.map (·.toDbgRecord)
  location : ν → Option DILocation
  isSome_location : ∀ v, (location v).isSome = (debugLoc v).isSome
  globalAt : ν → DIVariable

namespace SourceModule

variable [DecidableEq ν] (M : SourceModule ι ν)

/-- `find_intrinsic`, with the place of the record. -/
def findRecord (inst : ν) : Option (SourceRecord ι ν) :=
  M.records.find? fun r => r.location = some inst

/-- `find_local_variable`, with the place of the variable. -/
def findLocalRecord (inst : ν) : Option (SourceRecord ι ν) :=
  match M.findRecord inst with
  | some r => some r
  | none   => (M.users inst).findSome? fun user =>
      match M.value user with
      | .bitCast _ | .load _ => M.findRecord user
      | _                    => none

def findLocation (inst : ν) : Option DILocation :=
  match M.location inst with
  | some loc => some loc
  | none     => (M.findRecord inst).map (·.debugLoc)

lemma toDbgRecord_findRecord (inst : ν) :
    (M.findRecord inst).map (·.toDbgRecord) = M.findIntrinsic inst := by
  rw [IRModule.findIntrinsic, M.dbgRecords_eq, List.find?_map]
  rfl

/-- The records of a source module are those that the type search reads. -/
lemma diVariable_findLocalRecord (inst : ν) :
    (M.findLocalRecord inst).map (·.diVariable) = M.findLocalVariable inst := by
  have hrecord : ∀ v, (M.findRecord v).map (·.diVariable) =
      (M.findIntrinsic v).map (·.diVariable) := by
    intro v
    rw [← M.toDbgRecord_findRecord, Option.map_map]
    rfl
  simp only [findLocalRecord, IRModule.findLocalVariable, ← hrecord]
  cases M.findRecord inst with
  | some r => rfl
  | none =>
    simp only [Option.map_none, List.map_findSome?]
    congr 1
    funext user
    cases hvalue : M.value user <;> simp [hvalue]

end SourceModule

/-! ### `type_for` -/

/-- The type data of an allocation, with its places. -/
structure PlacedData (ι : Type) extends DimetaData ι where
  diVariable : Option DIVariable
  diLocation : Option DILocation

/-- `location_for` -/
def locationFor (data : PlacedData ι) : Option SourceLocation :=
  match data.diLocation with
  | some loc => some loc.sourceLocation
  | none     => data.diVariable.map (·.sourceLocation)

section TypeFor

variable [DecidableEq ν] (G : DIGraph ι) (M : SourceModule ι ν)

/-- `type_for`, of a stack allocation -/
def typeForAlloca [Fintype ν] (fuel : ℕ) (ai : ν) : Except Fault (Option (PlacedData ι)) :=
  let localDiVar := M.findLocalRecord ai
  if M.passedToFortranHelper ai then .ok none
  else match localDiVar with
    | none => .ok none
    | some record => do
      let extractedType := some record.diVariable.type
      let (finalType, pointerLevel) ← finalDitype G fuel extractedType
      return some { memoryLocation := .kStack, entryType := extractedType, baseType := finalType,
                    shape := none, pointerLevel, diVariable := some record.declaredAt,
                    diLocation := M.findLocation ai }

omit [DecidableEq ν] in
/-- `type_for`, of a global variable -/
def typeForGlobal (fuel : ℕ) (gv : ν) : Except Fault (Option (PlacedData ι)) :=
  match M.value gv with
  | .globalVariable (some gvType) _ => do
    let (finalType, pointerLevel) ← finalDitype G fuel (some gvType)
    return some { memoryLocation := .kGlobal, entryType := some gvType, baseType := finalType,
                  shape := none, pointerLevel, diVariable := some (M.globalAt gv),
                  diLocation := none }
  | _ => .ok none

end TypeFor

/-- `get_located_type`, from what `type_for` returns. -/
def getLocatedType [DecidableEq ι] (G : DIGraph ι) (fuel : ℕ)
    (typeData : Except Fault (Option (PlacedData ι))) : Except Fault (Option LocatedType) := do
  match ← typeData with
  | none      => return none
  | some data => locatedTypeFor G fuel data.toDimetaData (locationFor data)

section Variables

variable [DecidableEq ι] [Fintype ι] {G : DIGraph ι}

/-- A declared type is located as it is parsed. -/
lemma exists_getLocatedType (hG : G.CyclesPassRecords) {t : ι} {ws : List (Wrapper ι)}
    (h : G.EntryChain t ws) : ∃ fuel final level type,
      ((∀ w ∈ ws, w.CountsFit) → Translates type ws false) ∧ ∀ fuel' ≥ fuel,
        finalDitype G fuel' (some (some t)) = .ok (some (some final), level) ∧
          parseEntryType G fuel' t = .ok (some type) ∧
          ∀ (data : DimetaData ι) (location : SourceLocation), data.entryType = some (some t) →
            data.pointerLevel = level → data.shape = none →
              locatedTypeFor G fuel' data (some location) = .ok (some ⟨type, location⟩) := by
  obtain ⟨n, hentry, hchain, fuel, final, hfinal⟩ := h.resolve
  obtain ⟨fuel₀, w, hw⟩ := DIGraph.hasWalk_of_cyclesPassRecords hG ∅ n
  obtain ⟨type, hresult, -, hqual, htranslates⟩ := exists_result_of_typeChain hchain hw
  have hle : (pointersInFront ws : ℤ) ≤ type.qual.count .kPtr := by
    rw [hqual]
    exact Int.ofNat_le.mpr (pointersInFront_le ws)
  refine ⟨max fuel fuel₀, final, pointersInFront ws, type, htranslates, fun fuel' hfuel => ?_⟩
  have hw' := DIGraph.walk_mono (le_of_max_le_right hfuel) hw
  have hparse : parseEntryType G fuel' t = .ok (some type) := by
    have hdimeta : makeDimetadata G fuel' n = some (some type) := by
      rw [makeDimetadata_eq hw' (by rw [hchain.isType, Bool.or_true]), hresult]
    simp only [parseEntryType, hentry, deref, ok_bind, parseType, hdimeta]
  refine ⟨hfinal fuel' (le_of_max_le_left hfuel), hparse, ?_⟩
  intro data location hdata hlevel hshape
  rw [locatedTypeFor_eq_some]
  refine ⟨t, type, hdata, hparse, rfl, ?_⟩
  rw [hshape, hlevel, resetPointerQualifier_of_le hle]
  rfl

/-- Where a stack allocation is: at its own location, else where the record is that describes it,
else where its variable is declared. -/
def SourceModule.allocatedAt [DecidableEq ν] (M : SourceModule ι ν) (ai : ν)
    (record : SourceRecord ι ν) : SourceLocation :=
  ((M.findLocation ai).map DILocation.sourceLocation).getD record.declaredAt.sourceLocation

/-- The located type of a stack allocation is its variable's declared type as it is parsed, with
all that is on the chain of that type; only an allocation that is passed to a Fortran runtime
function has none. -/
theorem located_type_for_alloca [DecidableEq ν] [Fintype ν] (hG : G.CyclesPassRecords)
    (M : SourceModule ι ν) {ai : ν} {record : SourceRecord ι ν} {t : ι} {ws : List (Wrapper ι)}
    (hrecord : M.findLocalRecord ai = some record) (ht : record.diVariable.type = some t)
    (h : G.EntryChain t ws) : ∃ fuel type,
      ((∀ w ∈ ws, w.CountsFit) → Translates type ws false) ∧ ∀ fuel' ≥ fuel,
        parseEntryType G fuel' t = .ok (some type) ∧
          getLocatedType G fuel' (typeForAlloca G M fuel' ai) =
            .ok (if M.passedToFortranHelper ai then none
              else some ⟨type, M.allocatedAt ai record⟩) := by
  obtain ⟨fuel, final, level, type, htranslates, hall⟩ := exists_getLocatedType hG h
  refine ⟨fuel, type, htranslates, fun fuel' hfuel => ?_⟩
  obtain ⟨hfinal, hparse, hlocated⟩ := hall fuel' hfuel
  refine ⟨hparse, ?_⟩
  cases hpassed : M.passedToFortranHelper ai with
  | true =>
    simp only [typeForAlloca, hpassed, getLocatedType, ok_bind, if_true]
    rfl
  | false =>
    have hplace : ∀ data : PlacedData ι, data.diLocation = M.findLocation ai →
        data.diVariable = some record.declaredAt →
          locationFor data = some (M.allocatedAt ai record) := by
      intro data hloc hvar
      rw [locationFor, hloc, hvar, SourceModule.allocatedAt]
      cases M.findLocation ai <;> rfl
    simp only [typeForAlloca, hpassed, hrecord, ht, hfinal, getLocatedType, ok_bind,
      pure_bind, Bool.false_eq_true, if_false]
    rw [hplace _ rfl rfl]
    exact hlocated _ _ rfl rfl rfl

/-- `int *p;`, whose record describes a load of it. -/
def loadedPointer : SourceModule (Fin 2) (Fin 2) where
  value
    | 0 => .alloca
    | 1 => .load 0
  users
    | 0 => [1]
    | 1 => []
  mem_users := by decide
  debugLoc _ := none
  dbgRecords := [⟨some 1, ⟨"p", some 0⟩, false⟩]
  records := [⟨⟨some 1, ⟨"p", some 0⟩, false⟩, ⟨"a.c", some "main", 3⟩,
    ⟨.subprogram "main" "a.c", 4⟩⟩]
  dbgRecords_eq := rfl
  location _ := none
  isSome_location _ := rfl
  globalAt _ := ⟨"a.c", none, 0⟩

theorem located_type_for_alloca_loaded : ∃ fuel type, ∀ fuel' ≥ fuel,
    parseEntryType pointerToInt fuel' 0 = .ok (some type) ∧
      getLocatedType pointerToInt fuel' (typeForAlloca pointerToInt loadedPointer fuel' 0) =
        .ok (some ⟨type, ⟨"a.c", "main", 3⟩⟩) := by
  have hpassed : loadedPointer.passedToFortranHelper 0 = false := DefUseChain.loop_eq_of_run 4 rfl
  obtain ⟨fuel, type, -, h⟩ := located_type_for_alloca
    (DIGraph.cyclesPassRecords_of_lt fun _ _ => pointerToInt_plainStep) loadedPointer
    (show loadedPointer.findLocalRecord 0 = some _ from rfl) rfl entryChain_pointerToInt
  refine ⟨fuel, type, fun fuel' hfuel => ?_⟩
  obtain ⟨hparse, hlocated⟩ := h fuel' hfuel
  rw [hpassed] at hlocated
  exact ⟨hparse, hlocated⟩

/-- The located type of a global is its declared type as it is parsed, at the declaration. -/
theorem located_type_for_global (hG : G.CyclesPassRecords) (M : SourceModule ι ν) {gv : ν} {t : ι}
    {initializer : Option ν} {ws : List (Wrapper ι)}
    (hgv : M.value gv = .globalVariable (some (some t)) initializer) (h : G.EntryChain t ws) :
    ∃ fuel type, ((∀ w ∈ ws, w.CountsFit) → Translates type ws false) ∧ ∀ fuel' ≥ fuel,
      parseEntryType G fuel' t = .ok (some type) ∧
        getLocatedType G fuel' (typeForGlobal G M fuel' gv) =
          .ok (some ⟨type, (M.globalAt gv).sourceLocation⟩) := by
  obtain ⟨fuel, final, level, type, htranslates, hall⟩ := exists_getLocatedType hG h
  refine ⟨fuel, type, htranslates, fun fuel' hfuel => ?_⟩
  obtain ⟨hfinal, hparse, hlocated⟩ := hall fuel' hfuel
  refine ⟨hparse, ?_⟩
  simp only [typeForGlobal, hgv, hfinal, getLocatedType, ok_bind, pure_bind]
  exact hlocated _ _ rfl rfl rfl

/-- `static int *p;` -/
def globalPointer : SourceModule (Fin 2) (Fin 1) where
  value _ := .globalVariable (some (some 0)) none
  users _ := []
  mem_users := by decide
  debugLoc _ := none
  dbgRecords := []
  records := []
  dbgRecords_eq := rfl
  location _ := none
  isSome_location _ := rfl
  globalAt _ := ⟨"a.c", none, 7⟩

theorem located_type_for_global_pointer : ∃ fuel type, ∀ fuel' ≥ fuel,
    parseEntryType pointerToInt fuel' 0 = .ok (some type) ∧
      getLocatedType pointerToInt fuel' (typeForGlobal pointerToInt globalPointer fuel' 0) =
        .ok (some ⟨type, ⟨"a.c", "", 7⟩⟩) := by
  obtain ⟨fuel, type, -, h⟩ := located_type_for_global
    (DIGraph.cyclesPassRecords_of_lt fun _ _ => pointerToInt_plainStep) globalPointer
    (show globalPointer.value 0 = _ from rfl) entryChain_pointerToInt
  exact ⟨fuel, type, h⟩

end Variables

end Dimeta
