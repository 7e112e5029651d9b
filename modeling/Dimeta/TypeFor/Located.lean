import Dimeta.Core.StableSort
import Dimeta.Parse.TypeParser
import Dimeta.TypeFor.Call

/-!
# Located types

`located_type_for` parses the entry type of an allocation and makes the qualifiers fit the pointer
level and the array dimensions fit the shape. The source location is a parameter: what
`location_for` returns.
-/

set_option autoImplicit false

namespace Dimeta

open Recursion StableSort

variable {ι ν : Type}

/-! ### Qualifiers and dimensions -/

/-- `add_pointer`: a pointer in front, if there are fewer pointers than the level says. -/
def QualType.addPointer {T : Type} (f : QualType T) (ptrLevel : ℤ) : QualType T :=
  if (f.qual.count .kPtr : ℤ) < ptrLevel then { f with qual := .kPtr :: f.qual } else f

def resetPointerQualifier (type : QualifiedType) (ptrLevel : ℤ) : QualifiedType :=
  match type with
  | .compound q    => .compound (q.addPointer ptrLevel)
  | .fundamental f => .fundamental (f.addPointer ptrLevel)

lemma QualType.qual_addPointer {T : Type} (f : QualType T) (ptrLevel : ℤ) :
    (f.addPointer ptrLevel).qual =
      if (f.qual.count .kPtr : ℤ) < ptrLevel then .kPtr :: f.qual else f.qual := by
  by_cases h : (f.qual.count .kPtr : ℤ) < ptrLevel
  · rw [addPointer, if_pos h, if_pos h]
  · rw [addPointer, if_neg h, if_neg h]

lemma qual_resetPointerQualifier (type : QualifiedType) (ptrLevel : ℤ) :
    (resetPointerQualifier type ptrLevel).qual =
      if (type.qual.count .kPtr : ℤ) < ptrLevel then .kPtr :: type.qual else type.qual := by
  cases type with
  | compound q => exact q.qual_addPointer ptrLevel
  | fundamental f => exact f.qual_addPointer ptrLevel

/-- A type with enough pointers stays as it is. -/
lemma resetPointerQualifier_of_le {type : QualifiedType} {ptrLevel : ℤ}
    (h : ptrLevel ≤ type.qual.count .kPtr) : resetPointerQualifier type ptrLevel = type := by
  cases type with
  | compound q => exact congrArg QualifiedType.compound (if_neg (not_lt.mpr h))
  | fundamental f => exact congrArg QualifiedType.fundamental (if_neg (not_lt.mpr h))

/-- The comparator of `reset_shape_qualifier`: unknown indices, the negative ones, come last. -/
def IndexDim.before (lhs rhs : IndexDim) : Bool :=
  if lhs.index < 0 ∧ rhs.index < 0 then false
  else if lhs.index < 0 then false
  else if rhs.index < 0 then true
  else decide (lhs.index < rhs.index)

/-- An extent as it is stored in the list of array sizes. -/
def IndexDim.size (d : IndexDim) : UInt64 := UInt64.ofInt d.dim

/-- `add_shape`: the dimensions replace those of the type. -/
def QualType.addShape {T : Type} (f : QualType T) (shape : ShapeData) : QualType T :=
  { f with arraySize := shape.map IndexDim.size }

def resetShapeQualifier (type : QualifiedType) (shape : ShapeData) : QualifiedType :=
  let orderedShapes := stableSort (fun lhs rhs : IndexDim => lhs.before rhs = true) shape
  match type with
  | .compound q    => .compound (q.addShape orderedShapes)
  | .fundamental f => .fundamental (f.addShape orderedShapes)

lemma arraySize_resetShapeQualifier (type : QualifiedType) (shape : ShapeData) :
    (resetShapeQualifier type shape).arraySize =
      (stableSort (fun lhs rhs : IndexDim => lhs.before rhs = true) shape).map IndexDim.size := by
  cases type <;> rfl

/-! ### `located_type_for` -/

section Located

variable (G : DIGraph ι)

/-- A member as the entry type is replaced by its type. -/
def entryTypeOf (t : ι) : Option ι :=
  match G.node t with
  | .derivedType d => if (DINode.derivedType d).isMember then d.baseType else some t
  | _              => some t

variable [DecidableEq ι]

/-- `make_dimetadata`, where the traversal has to end within the bound. -/
def parseType (fuel : ℕ) (t : ι) : Except Fault (Option QualifiedType) :=
  match makeDimetadata G fuel t with
  | none   => .error .outOfFuel
  | some r => .ok r

def parseEntryType (fuel : ℕ) (t : ι) : Except Fault (Option QualifiedType) := do
  parseType G fuel (← deref (entryTypeOf G t))

def locatedTypeFor (fuel : ℕ) (data : DimetaData ι) (location : Option SourceLocation) :
    Except Fault (Option LocatedType) :=
  match location with
  | none          => .ok none
  | some location =>
    match data.entryType with
    | none           => .ok none
    | some entryType => do
      match ← parseEntryType G fuel (← deref entryType) with
      | none      => return none
      | some type =>
        let type := resetPointerQualifier type data.pointerLevel
        return some ⟨data.shape.elim type (resetShapeQualifier type), location⟩

variable {G}

/-- What `located_type_for` returns is the parsed type, with the level and the shape set. -/
lemma locatedTypeFor_eq_some {fuel : ℕ} {data : DimetaData ι} {location : Option SourceLocation}
    {located : LocatedType} : locatedTypeFor G fuel data location = .ok (some located) ↔
      ∃ t type, data.entryType = some (some t) ∧ parseEntryType G fuel t = .ok (some type) ∧
        location = some located.location ∧
        located.type = data.shape.elim (resetPointerQualifier type data.pointerLevel)
          (resetShapeQualifier (resetPointerQualifier type data.pointerLevel)) := by
  obtain ⟨type, place⟩ := located
  cases location with
  | none => simp [locatedTypeFor]
  | some l =>
    cases hentry : data.entryType with
    | none => simp [locatedTypeFor, hentry]
    | some entryType =>
      cases entryType with
      | none => simp [locatedTypeFor, hentry, deref]
      | some t =>
        simp only [locatedTypeFor, hentry, deref, ok_bind, Option.some.injEq, bind_eq_ok]
        constructor
        · rintro ⟨r, hr, heq⟩
          cases r with
          | none => cases heq
          | some q =>
            cases heq
            exact ⟨t, q, rfl, hr, rfl, rfl⟩
        · rintro ⟨_, q, rfl, hq, rfl, rfl⟩
          exact ⟨some q, hq, rfl⟩

end Located

/-! ### `experimental::type_for` -/

section Experimental

variable [DecidableEq ι] (G : DIGraph ι)

/-- The first type that parses. -/
def firstParsed (fuel : ℕ) : List ι → Except Fault (Option QualifiedType)
  | []      => .ok none
  | t :: ts => do
    match ← parseType G fuel t with
    | none      => firstParsed fuel ts
    | some type => return some type

/-- `experimental::type_for` -/
def experimentalTypeFor [DecidableEq ν] [Fintype ν] (M : IRModule ι ν) (fuel : ℕ) (value : ν) :
    TypeSearch ι ν (Option QualifiedType) := do
  let types ← collectTypes none (M.pathFromValue value)
  .ofExcept (firstParsed G fuel types)

end Experimental

/-! ### The pointer level -/

/-- A pointer level is fully reflected exactly if at most one pointer is missing. -/
lemma count_resetPointerQualifier_iff (type : QualifiedType) {ptrLevel : ℤ} :
    (((resetPointerQualifier type ptrLevel).qual.count .kPtr : ℤ) =
        max (type.qual.count .kPtr : ℤ) ptrLevel ∧
      type.qual.Sublist (resetPointerQualifier type ptrLevel).qual) ↔
      ptrLevel ≤ type.qual.count .kPtr + 1 := by
  rw [qual_resetPointerQualifier]
  by_cases hlt : (type.qual.count .kPtr : ℤ) < ptrLevel
  · rw [if_pos hlt, and_iff_left (List.sublist_cons_self _ _), List.count_cons_self,
      max_eq_right hlt.le]
    push_cast
    constructor
    · intro h
      exact h.ge
    · intro h
      exact le_antisymm hlt h
  · rw [if_neg hlt, and_iff_left (List.Sublist.refl _), max_eq_left (not_lt.mp hlt)]
    exact iff_of_true rfl ((not_lt.mp hlt).trans (by simp))

end Dimeta
