import Dimeta.Parse.Stacks
import Dimeta.Serial.RoundTrip
import Dimeta.TypeFor.PointerLevel

/-!
# The types of compile units

`compile_unit_types` parses what a module retains. The dump of the result is read back unchanged,
so it has for each compile unit the parse of each retained type, in order.
-/

set_option autoImplicit false

namespace Dimeta

open Document Recursion

variable {ι : Type}

/-- A compile unit; it retains types and other nodes. -/
structure DICompileUnit (ι : Type) where
  filename : String
  retainedTypes : List ι

namespace DICompileUnit

variable [DecidableEq ι] (G : DIGraph ι)

/-- The parse of a retained type. It fails if the parser reads an empty stack or optional, as it
does for a member that is retained by itself. -/
def parseRetained (fuel : ℕ) (n : ι) : Except Fault (Option QualifiedType) :=
  match diparserVisitNode DITypeParser.events G fuel n {} with
  | none   => .error .outOfFuel
  | some s => if s.undefined || s.events.undefined then .error .outOfBounds else parseType G fuel n

/-- The types that parse; nodes that are no types are left out. -/
def retainedTypesOf (fuel : ℕ) : List ι → Except Fault (List QualifiedType)
  | []      => .ok []
  | n :: ns =>
    if (G.node n).isType then do
      match ← parseRetained G fuel n with
      | none      => retainedTypesOf fuel ns
      | some type => return type :: (← retainedTypesOf fuel ns)
    else retainedTypesOf fuel ns

def compileUnitList (fuel : ℕ) : List (DICompileUnit ι) → Except Fault CompileUnitTypeList
  | []            => .ok []
  | unit :: units => do
    let types ← retainedTypesOf G fuel unit.retainedTypes
    return { name := unit.filename, types } :: (← compileUnitList fuel units)

/-- `compile_unit_types`: nothing for a module without compile units. -/
def compileUnitTypes (fuel : ℕ) (units : List (DICompileUnit ι)) :
    Except Fault (Option CompileUnitTypeList) := do
  match ← compileUnitList G fuel units with
  | []   => return none
  | list => return some list

variable {G}

/-- The parser reads an empty stack or optional in the walk. -/
def readsEmpty (w : Walk ι) : Bool :=
  (parserVisitor.run w { events := {} }).2.undefined ||
    (parserVisitor.run w { events := {} }).2.events.undefined

lemma parseRetained_eq {fuel : ℕ} {n : ι} {w : Walk ι} (hw : G.walk fuel ∅ n = some w)
    (hn : (G.node n).isType = true) : parseRetained G fuel n =
      if readsEmpty w = true then .error .outOfBounds else .ok (some (parse w {}).result) := by
  have hnode : ((G.node n).isVariable || (G.node n).isType) = true := by rw [hn, Bool.or_true]
  have hvisit : diparserVisitNode DITypeParser.events G fuel n {} =
      some (parserVisitor.run w { events := {} }).2 := by
    simp [diparserVisitNode, parserVisitor.traverseNode_eq_run hw hnode (fun _ _ => rfl)]
  rw [parseRetained, hvisit, parseType, makeDimetadata_eq hw hnode]
  rfl

/-- The parses of all types end within one bound. -/
lemma exists_walks [Fintype ι] (hG : G.CyclesPassRecords) :
    ∃ fuel, ∃ walkOf : ι → Walk ι, ∀ fuel' ≥ fuel, ∀ n, G.walk fuel' ∅ n = some (walkOf n) := by
  choose fuel w hw using fun n => DIGraph.hasWalk_of_cyclesPassRecords hG ∅ n
  refine ⟨Finset.univ.sup fuel, w, fun fuel' hfuel n => ?_⟩
  exact DIGraph.walk_mono ((Finset.le_sup (Finset.mem_univ n)).trans hfuel) (hw n)

variable {fuel : ℕ} {typeOf : ι → QualifiedType} {undefined : ι → Bool}
  (h : ∀ n, (G.node n).isType = true → parseRetained G fuel n =
    if undefined n = true then .error .outOfBounds else .ok (some (typeOf n)))

include h

lemma retainedTypesOf_eq_error {ns : List ι}
    (hns : ∃ n ∈ ns, (G.node n).isType = true ∧ undefined n = true) :
    retainedTypesOf G fuel ns = .error .outOfBounds := by
  induction ns with
  | nil => simp at hns
  | cons n ns ih =>
    rw [retainedTypesOf]
    by_cases hn : (G.node n).isType = true
    · rw [if_pos hn, h n hn]
      by_cases hundefined : undefined n = true
      · rw [if_pos hundefined]
        rfl
      · rw [if_neg hundefined, ok_bind]
        simp only [ih (by simpa [hundefined] using hns), error_bind]
    · rw [if_neg hn]
      exact ih (by simpa [hn] using hns)

lemma retainedTypesOf_eq_ok {ns : List ι}
    (hns : ∀ n ∈ ns, (G.node n).isType = true → undefined n = false) :
    retainedTypesOf G fuel ns =
      .ok ((ns.filter fun n => (G.node n).isType).map typeOf) := by
  induction ns with
  | nil => rfl
  | cons n ns ih =>
    obtain ⟨hdefined, hns⟩ := List.forall_mem_cons.mp hns
    rw [retainedTypesOf]
    by_cases hn : (G.node n).isType = true
    · rw [if_pos hn, h n hn, hdefined hn, if_neg Bool.false_ne_true,
        List.filter_cons_of_pos (p := fun n => (G.node n).isType) hn, List.map_cons]
      simp only [ok_bind, ih hns]
      rfl
    · rw [if_neg hn, ih hns, List.filter_cons_of_neg (p := fun n => (G.node n).isType) hn]

lemma compileUnitList_eq_error {units : List (DICompileUnit ι)}
    (hunits : ∃ unit ∈ units, ∃ n ∈ unit.retainedTypes,
      (G.node n).isType = true ∧ undefined n = true) :
    compileUnitList G fuel units = .error .outOfBounds := by
  induction units with
  | nil => simp at hunits
  | cons unit units ih =>
    rw [compileUnitList]
    by_cases hunit : ∃ n ∈ unit.retainedTypes, (G.node n).isType = true ∧ undefined n = true
    · rw [retainedTypesOf_eq_error h hunit]
      rfl
    · have hdefined : ∀ n ∈ unit.retainedTypes, (G.node n).isType = true →
          undefined n = false := by
        intro n hn htype
        by_contra hundefined
        exact hunit ⟨n, hn, htype, by simpa using hundefined⟩
      rw [retainedTypesOf_eq_ok h hdefined]
      simp only [ok_bind, ih (by simpa [hunit] using hunits), error_bind]

lemma compileUnitList_eq_ok {units : List (DICompileUnit ι)}
    (hunits : ∀ unit ∈ units, ∀ n ∈ unit.retainedTypes,
      (G.node n).isType = true → undefined n = false) :
    compileUnitList G fuel units =
      .ok (units.map fun unit => { name := unit.filename, types :=
        (unit.retainedTypes.filter fun n => (G.node n).isType).map typeOf }) := by
  induction units with
  | nil => rfl
  | cons unit units ih =>
    obtain ⟨hunit, hunits⟩ := List.forall_mem_cons.mp hunits
    rw [compileUnitList, retainedTypesOf_eq_ok h hunit]
    simp only [ok_bind, ih hunits]
    rfl

omit h

/-- The types of the compile units of a module, emitted and read back: for each unit the parse of
each type that it retains, in order. Nothing is returned if the parser reads an empty stack or
optional for one of them. -/
theorem compile_unit_types_round_trip [Fintype ι] (hG : G.CyclesPassRecords)
    (units : List (DICompileUnit ι)) (canElide : List (String × Node) → Bool) :
    ∃ fuel, ∃ typeOf : ι → QualifiedType, ∃ undefined : ι → Bool, ∀ fuel' ≥ fuel,
      (∀ n, (G.node n).isType = true →
        makeDimetadata G fuel' n = some (some (typeOf n)) ∧ parseRetained G fuel' n =
          if undefined n = true then .error .outOfBounds else .ok (some (typeOf n))) ∧
        ((∃ unit ∈ units, ∃ n ∈ unit.retainedTypes,
            (G.node n).isType = true ∧ undefined n = true) →
          compileUnitTypes G fuel' units = .error .outOfBounds) ∧
        ((∀ unit ∈ units, ∀ n ∈ unit.retainedTypes,
            (G.node n).isType = true → undefined n = false) →
          ∃ list, compileUnitTypes G fuel' units = .ok list ∧ (list = none ↔ units = []) ∧
            (compileUnitTypeList canElide).input
                ((compileUnitTypeList canElide).emit (list.getD [])) [] =
              some (units.map fun unit => { name := unit.filename, types :=
                (unit.retainedTypes.filter fun n => (G.node n).isType).map typeOf })) := by
  obtain ⟨fuel, walkOf, hwalk⟩ := exists_walks hG
  refine ⟨fuel, fun n => (parse (walkOf n) {}).result, fun n => readsEmpty (walkOf n),
    fun fuel' hfuel => ?_⟩
  have h := fun n hn => parseRetained_eq (hwalk fuel' hfuel n) hn
  refine ⟨fun n hn => ⟨?_, h n hn⟩, fun hunits => ?_, fun hunits => ?_⟩
  · exact makeDimetadata_eq (hwalk fuel' hfuel n) (by rw [hn, Bool.or_true])
  · rw [compileUnitTypes, compileUnitList_eq_error h hunits]
    rfl
  · simp only [compileUnitTypes, compileUnitList_eq_ok h hunits, ok_bind]
    cases units with
    | nil => exact ⟨none, rfl, by simp, compileUnitTypeList_input_emit canElide []⟩
    | cons unit units => exact ⟨some _, rfl, by simp, compileUnitTypeList_input_emit canElide _⟩

/-- A unit that retains `int *` and `int`. -/
theorem compile_unit_types_round_trip_pointer : ∃ fuel, ∃ typeOf : Fin 2 → QualifiedType,
    (∀ n, makeDimetadata pointerToInt fuel n = some (some (typeOf n))) ∧
    ∃ list, compileUnitTypes pointerToInt fuel [⟨"a.c", [0, 1]⟩] = .ok list ∧
      (compileUnitTypeList fun _ => false).input
          ((compileUnitTypeList fun _ => false).emit (list.getD [])) [] =
        some [{ name := "a.c", types := [typeOf 0, typeOf 1] }] := by
  obtain ⟨fuel, typeOf, undefined, h⟩ := compile_unit_types_round_trip
    (DIGraph.cyclesPassRecords_of_lt fun _ _ => pointerToInt_plainStep)
    [⟨"a.c", [0, 1]⟩] fun _ => false
  obtain ⟨hparse, -, hread⟩ := h (max fuel 3) (le_max_left fuel 3)
  have htype : ∀ n, (pointerToInt.node n).isType = true := by decide
  have hdefined : ∀ n, undefined n = false := by
    intro n
    obtain ⟨w, hw, hempty⟩ : ∃ w, pointerToInt.walk 3 ∅ n = some w ∧ readsEmpty w = false := by
      fin_cases n
      · exact ⟨_, rfl, rfl⟩
      · exact ⟨_, rfl, rfl⟩
    have hretained := (hparse n (htype n)).2
    rw [parseRetained_eq (DIGraph.walk_mono (le_max_right fuel 3) hw) (htype n), hempty]
      at hretained
    cases hundefined : undefined n with
    | false => rfl
    | true =>
      rw [hundefined] at hretained
      cases hretained
  obtain ⟨list, hlist, -, hread⟩ := hread fun _ _ n _ _ => hdefined n
  exact ⟨_, typeOf, fun n => (hparse n (htype n)).1, list, hlist, hread⟩

end DICompileUnit

end Dimeta
