import Dimeta.Extract.Fields

/-!
# Fields and base classes

The fields of an LLVM struct are the base classes and members that are not empty. A field index is
moved past all base classes without members of their own, wherever they stand and whatever their own
base classes hold.
-/

set_option autoImplicit false

namespace Dimeta

variable {ι : Type} {G : DIGraph ι}

namespace DIGraph

/-- A class without data: it has no member, the pointer to its virtual table included, and its own
base classes, or what their names stand for, are empty. -/
inductive EmptyClass (G : DIGraph ι) : ι → Prop
  | mk {n : ι} {c : DICompositeType ι} (hn : G.node n = .compositeType c)
      (hmembers : ∀ e ∈ c.elements, (G.node e).isNonStaticMember = false)
      (hbases : ∀ e ∈ c.elements, ∀ d b, G.node e = .derivedType d → d.tag = .inheritance →
        G.LeadsTo DINode.isPointerLike d.baseType (some b) → EmptyClass G b) : EmptyClass G n

/-- An element that has a field: a member, or a base class that is not empty. -/
def Occupies (G : DIGraph ι) (e : ι) : Prop :=
  ∃ d, G.node e = .derivedType d ∧ ∀ b, d.tag = .inheritance →
    G.LeadsTo DINode.isPointerLike d.baseType (some b) → ¬ G.EmptyClass b

/-- A base class without members of its own, where it is not named by a typedef. -/
def ownEmpty (G : DIGraph ι) (e : ι) : Bool :=
  (G.node e).isInheritance &&
    ((G.node e).typeRef.bind fun b => (G.node b).asComposite).any fun c =>
      !c.elements.any fun e => (G.node e).isNonStaticMember

/-- A class with base classes, by themselves or by name, then members that are not static, then
subprograms. -/
structure BasesAndMembers (G : DIGraph ι) (bases members subprograms : List ι) : Prop where
  base : ∀ e ∈ bases, ∃ d b c, G.node e = .derivedType d ∧ d.tag = .inheritance ∧
    d.isStaticMember = false ∧ G.LeadsTo DINode.isPointerLike d.baseType (some b) ∧
    G.node b = .compositeType c
  member : ∀ e ∈ members, ∃ d r, G.node e = .derivedType d ∧ d.isField = true ∧
    G.LeadsTo DINode.isPointerLike d.baseType (some r)
  subprogram : ∀ e ∈ subprograms, G.node e = .subprogram
  nodup : (bases ++ members).Nodup

namespace BasesAndMembers

variable {bases members subprograms : List ι}

lemma selectNonZeroElement_eq (e e' : ι) :
    G.selectNonZeroElement e e' = e ∨ G.selectNonZeroElement e e' = e' := by
  rw [selectNonZeroElement]
  split
  · split
    · exact .inr rfl
    · exact .inl rfl
  · exact .inl rfl

open Classical in
/-- The index of the field `e`, with the elements `front` before it and `behind` after it, hits the
field. Index 0 is that of the first element, or of the second if that is at the same offset; others
are moved past all base classes without members of their own. -/
def Hits (G : DIGraph ι) (bases front behind : List ι) (e : ι) : ℕ → Prop
  | 0 =>
    match front, behind with
    | [], e' :: _ => G.selectNonZeroElement e e' = e
    | [], []      => True
    | [x], _      => G.selectNonZeroElement x e = e
    | _, _        => False
  | _ + 1 => front.countP (fun x => !decide (G.Occupies x)) = bases.countP G.ownEmpty

end BasesAndMembers

end DIGraph

/-! ### A base class whose data is inherited -/

end Dimeta
