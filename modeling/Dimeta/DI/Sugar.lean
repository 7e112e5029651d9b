import Mathlib.Data.Option.Basic
import Dimeta.DI.Resolve

/-!
# Typedefs and qualifiers between members and their types

The search for a byte offset goes through typedefs and qualifiers, but it looks at the declared type
of a member only to decide whether to stop or to move the offset base. On a graph with such nodes
inserted it goes the same way, up to the first member around the byte whose pointer, array or
composite they hide.
-/

set_option autoImplicit false

namespace Dimeta

variable {ι κ : Type}

/-! ### Inserting nodes -/

/-- The derived type, of another type. -/
def DIDerivedType.withType (d : DIDerivedType ι) (type : Option κ) : DIDerivedType κ :=
  { d with baseType := type }

/-- Rename what a derived type refers to. -/
def DIDerivedType.map (f : ι → κ) (d : DIDerivedType ι) : DIDerivedType κ :=
  d.withType (d.baseType.map f)

def DICompositeType.map (f : ι → κ) (c : DICompositeType ι) : DICompositeType κ :=
  { c with
      vtableHolder := c.vtableHolder.map f
      baseType := c.baseType.map f
      elements := c.elements.map f }

def DINode.map (f : ι → κ) : DINode ι → DINode κ
  | .basicType b     => .basicType b
  | .stringType s    => .stringType s
  | .derivedType d   => .derivedType (d.map f)
  | .compositeType c => .compositeType (c.map f)
  | .subroutineType  => .subroutineType
  | .var type        => .var (type.map f)
  | .enumerator name => .enumerator name
  | .subrange count  => .subrange count
  | .subprogram      => .subprogram
  | .other           => .other

namespace DIGraph

/-- The first node names or qualifies the second one, or is that node. -/
inductive Names (G : DIGraph ι) : ι → ι → Prop
  | refl (t : ι) : Names G t t
  | sugar {n t t' : ι} {d : DIDerivedType ι} (hn : G.node n = .derivedType d)
      (hd : d.isSugar = true) (hbase : d.baseType = some t) (ht : Names G t t') : Names G n t'

/-- The node stays as it is, but for nodes between a member and its type. -/
inductive SugaredNode (f : ι → κ) (G' : DIGraph κ) : DINode ι → DINode κ → Prop
  | same (x : DINode ι) : SugaredNode f G' x (x.map f)
  | member {d : DIDerivedType ι} {t : ι} {t' : κ} (hd : d.tag = .member)
      (ht : d.baseType = some t) (hnames : G'.Names t' (f t)) :
      SugaredNode f G' (.derivedType d) (.derivedType (d.withType (some t')))

/-- `G'` has the nodes of `G`, renamed by `f`, and others that are inserted between members and
their types. -/
structure Sugared (f : ι → κ) (G : DIGraph ι) (G' : DIGraph κ) : Prop where
  injective : f.Injective
  node : ∀ n, SugaredNode f G' (G.node n) (G'.node (f n))

/-- The inserted nodes hide what the search looks for in the type of the member: a pointer or an
array, at which it stops, or a composite, at which it moves the offset base. -/
def hides [DecidableEq κ] (G : DIGraph ι) (f : ι → κ) (G' : DIGraph κ) (n : ι)
    (d : DIDerivedType ι) : Bool :=
  match d.baseType with
  | none   => false
  | some t =>
    (G'.node (f n)).typeRef != some (f t) &&
      ((G.node t).isPointerLike || (G.node t).isArray ||
        (G.node t).asComposite.isSome && d.offsetInBits / 8 != 0)

end DIGraph

/-! ### Members around the byte -/

/-- Where the search stands: the offset base in force, and whether a pointer or an array has stopped
it. -/
structure SearchPlace where
  offsetBase : UInt64 := 0
  stopped : Bool := false

def DestructureComposite.place (s : DestructureComposite ι) : SearchPlace :=
  ⟨s.offsetBase, s.terminate⟩

mutual
/-- Where the search for the byte `b` gets, if none of the members around the byte is hidden. -/
def Walk.passes (hides : ι → DIDerivedType ι → Bool) (b : UInt64) :
    Walk ι → SearchPlace → Option (Bool × SearchPlace)
  | .var _ type, p => type.passes hides b p
  | .derived n d base, p =>
    if (DINode.derivedType d).isNonStaticMember && d.covers p.offsetBase b then
      if hides n d then none
      else if base.stops then some (false, { p with stopped := true })
      else if base.isComposite then
        base.passes hides b { p with offsetBase := p.offsetBase + d.offsetInBits / 8 }
      else base.passes hides b p
    else base.passes hides b p
  | .array _ _ elements base, p =>
    if p.stopped then some (false, p)
    else (passesElements hides b elements p).bind (base.passes hides b)
  | .composite _ _ base elements, p =>
    if p.stopped then some (false, p)
    else (base.passes hides b p).bind fun r =>
      if r.1 then (passesElements hides b elements r.2).map fun p => (true, p)
      else some (false, r.2)
  | .skip _, p => some (false, p)
  | .null, p | .basic _ _, p | .string _ _, p | .node _ _, p | .recurring _ _, p => some (true, p)

def passesElements (hides : ι → DIDerivedType ι → Bool) (b : UInt64) :
    List (Walk ι) → SearchPlace → Option SearchPlace
  | [], p => some p
  | w :: ws, p => (w.passes hides b p).bind fun r => passesElements hides b ws r.2
end

/-! ### Steps of the search -/

/-- What the search does at a member that contains the byte: whether it goes on to the type of the
member, and in which state. -/
structure SearchStep (ι : Type*) where
  member : ι
  goesOn : Bool
  state : DestructureComposite ι

namespace DestructureComposite

/-- A search with its record. -/
abbrev Stepped (ι : Type*) := DestructureComposite ι × List (SearchStep ι)

/-- The visitor, with its steps recorded in order. -/
def stepped (G : DIGraph ι) (b : UInt64) : DINodeVisitor ι (Stepped ι) :=
  search (·.1.terminate) fun n d s =>
    let (ret, s') := visitDerivedType G b n d s.1
    (ret, s', if (DINode.derivedType d).isNonStaticMember && d.covers s.1.offsetBase b then
      s.2 ++ [⟨n, ret, s'⟩] else s.2)

end DestructureComposite

/-- The steps of the search for a byte offset, in order. -/
def searchSteps [DecidableEq ι] (G : DIGraph ι) (fuel : ℕ) (n : ι) (composite : DICompositeType ι)
    (offset : UInt64) : Option (List (SearchStep ι)) :=
  let visitor := DestructureComposite.stepped G offset
  (visitor.traverseCompositeType (visitor.invokeIfAny G fuel) n composite ⟨∅, {}, []⟩).map
    fun r => r.2.callback.2

/-! ### The same steps on both graphs -/

section Same

variable (f : ι → κ) (G' : DIGraph κ)

/-- The same member, of the same type up to names and qualifiers. -/
structure StructMember.Same (m : StructMember ι) (m' : StructMember κ) : Prop where
  member : m'.member = f m.member
  typeOfMember : G'.Names m'.typeOfMember (f m.typeOfMember)

structure DestructureComposite.Same (s : DestructureComposite ι) (s' : DestructureComposite κ) :
    Prop where
  offsetBase : s'.offsetBase = s.offsetBase
  outermostCandidate : Option.Rel (StructMember.Same f G') s.outermostCandidate
    s'.outermostCandidate
  terminate : s'.terminate = s.terminate
  undefined : s'.undefined = s.undefined

structure SearchStep.Same (x : SearchStep ι) (x' : SearchStep κ) : Prop where
  member : x'.member = f x.member
  goesOn : x'.goesOn = x.goesOn
  state : DestructureComposite.Same f G' x.state x'.state

end Same

variable {f : ι → κ} {G : DIGraph ι} {G' : DIGraph κ} {b : UInt64}

/-! ### Nodes with their types renamed -/

namespace DIGraph

/-- What stands above a type is no pointer, no array and no composite. -/
lemma Names.eq_or_plain {t' t : κ} (h : G'.Names t' t) :
    t' = t ∨ ((G'.node t').isPointerLike || (G'.node t').isArray) = false ∧
      (G'.node t').asComposite.isSome = false := by
  cases h with
  | refl => exact .inl rfl
  | sugar hn hd _ _ =>
    refine .inr ⟨?_, by rw [hn]; rfl⟩
    rw [hn]
    simp only [DIDerivedType.isSugar, Bool.or_eq_true, beq_iff_eq] at hd
    rcases hd with (((h | h) | h) | h) | h <;> simp [DINode.isPointerLike, DINode.isArray, h]

lemma SugaredNode.head {x : DINode ι} {x' : DINode κ} (h : SugaredNode f G' x x') :
    (x'.isPointerLike || x'.isArray) = (x.isPointerLike || x.isArray) ∧
      x'.asComposite.isSome = x.asComposite.isSome := by
  cases h with
  | same => cases x <;> exact ⟨rfl, rfl⟩
  | member _ _ _ => exact ⟨rfl, rfl⟩

lemma SugaredNode.derived {d : DIDerivedType ι} {x' : DINode κ}
    (h : SugaredNode f G' (.derivedType d) x') :
    ∃ type', x' = .derivedType (d.withType type') ∧
      Option.Rel (fun t t' => G'.Names t' (f t)) d.baseType type' := by
  cases h with
  | same =>
    refine ⟨d.baseType.map f, rfl, ?_⟩
    cases d.baseType with
    | none => exact .none
    | some t => exact .some (.refl (f t))
  | member _ ht hnames =>
    refine ⟨_, rfl, ?_⟩
    rw [ht]
    exact .some hnames

lemma Sugared.node_eq (h : G.Sugared f G') {n : ι} {x : DINode ι} (hn : G.node n = x)
    (hx : x.asDerived = none) : G'.node (f n) = x.map f := by
  have hnode := h.node n
  rw [hn] at hnode
  generalize G'.node (f n) = x' at hnode
  cases hnode with
  | same => rfl
  | member _ _ _ => cases hx

end DIGraph

/-! ### What happens at a member -/

namespace DestructureComposite

/-- The visit of a member `m` that contains the byte, by what is known of its type. -/
def enter (m : StructMember ι) (stops composite : Bool) (offset : UInt64)
    (s : DestructureComposite ι) : Bool × DestructureComposite ι :=
  (!stops, { s with
    outermostCandidate := some m
    terminate := s.terminate || stops
    offsetBase := if !stops && composite then s.offsetBase + offset else s.offsetBase })

lemma visitDerivedType_of_covers {n t : ι} {d : DIDerivedType ι} {s : DestructureComposite ι}
    (hd : (DINode.derivedType d).isNonStaticMember = true)
    (hcovers : d.covers s.offsetBase b = true) (ht : d.baseType = some t) :
    visitDerivedType G b n d s =
      enter ⟨n, t⟩ ((G.node t).isPointerLike || (G.node t).isArray) (G.node t).asComposite.isSome
        (d.offsetInBits / 8) s := by
  simp only [visitDerivedType, enter, hd, hcovers, ht]
  cases (G.node t).isPointerLike || (G.node t).isArray <;>
    cases (G.node t).asComposite.isSome <;> simp

lemma visitDerivedType_of_null {n : ι} {d : DIDerivedType ι} {s : DestructureComposite ι}
    (hcovers : ((DINode.derivedType d).isNonStaticMember && d.covers s.offsetBase b) = true)
    (ht : d.baseType = none) :
    visitDerivedType G b n d s = (true, { s with undefined := true }) := by
  obtain ⟨hd, hb⟩ := Bool.and_eq_true_iff.mp hcovers
  simp [visitDerivedType, hd, hb, ht]

/-- The visit does the same with the type that is looked at behind the inserted nodes, unless it
moves the offset base or stops there. -/
lemma enter_same {m : StructMember ι} {m' : StructMember κ} (hm : m.Same f G' m')
    {s : DestructureComposite ι} {s' : DestructureComposite κ} (hs : s.Same f G' s')
    {stops stops' composite composite' : Bool} {offset : UInt64} (hstops : stops' = stops)
    (hcomposite : composite' = composite ∨ offset = 0) :
    (enter m' stops' composite' offset s').1 = (enter m stops composite offset s).1 ∧
      (enter m stops composite offset s).2.Same f G' (enter m' stops' composite' offset s').2 := by
  subst hstops
  refine ⟨rfl, ?_, .some hm, ?_, hs.undefined⟩
  · rcases hcomposite with rfl | rfl
    · simp [enter, hs.offsetBase]
    · simp [enter, hs.offsetBase]
  · simp [enter, hs.terminate]

lemma enter_differs {m : StructMember ι} {m' : StructMember κ} {s : DestructureComposite ι}
    {s' : DestructureComposite κ} (hs : s.Same f G' s') {stops composite : Bool} {offset : UInt64}
    (h : (stops || composite && offset != 0) = true) :
    ¬ ((enter m' false false offset s').1 = (enter m stops composite offset s).1 ∧
      (enter m stops composite offset s).2.Same f G' (enter m' false false offset s').2) := by
  rintro ⟨hret, hsame⟩
  cases stops with
  | true => cases hret
  | false =>
    simp only [Bool.false_or, Bool.and_eq_true, bne_iff_ne] at h
    have hbase := hsame.offsetBase
    simp only [enter, h.1, hs.offsetBase, Bool.not_false, Bool.and_self, if_true,
      Bool.and_false, Bool.false_eq_true, if_false] at hbase
    exact h.2 (by simpa using hbase.symm)

/-- The visit of a member around the byte does the same on both graphs exactly if the inserted nodes
do not hide what it looks for. -/
lemma visit_same_iff [DecidableEq κ] (h : G.Sugared f G') {n t : ι} {t' : κ}
    {d : DIDerivedType ι} (hn' : G'.node (f n) = .derivedType (d.withType (some t')))
    (ht : d.baseType = some t) (hnames : G'.Names t' (f t)) {s : DestructureComposite ι}
    {s' : DestructureComposite κ} (hs : s.Same f G' s')
    (hd : (DINode.derivedType d).isNonStaticMember = true)
    (hcovers : d.covers s.offsetBase b = true) :
    (visitDerivedType G' b (f n) (d.withType (some t')) s').1 = (visitDerivedType G b n d s).1 ∧
      (visitDerivedType G b n d s).2.Same f G'
        (visitDerivedType G' b (f n) (d.withType (some t')) s').2 ↔
    G.hides f G' n d = false := by
  have hvisit := visitDerivedType_of_covers (G := G) (n := n) hd hcovers ht
  have hcovers' : (d.withType (some t')).covers s'.offsetBase b = true := by
    rw [hs.offsetBase]
    exact hcovers
  have hvisit' : visitDerivedType G' b (f n) (d.withType (some t')) s' =
      enter ⟨f n, t'⟩ ((G'.node t').isPointerLike || (G'.node t').isArray)
        (G'.node t').asComposite.isSome (d.offsetInBits / 8) s' :=
    visitDerivedType_of_covers hd hcovers' rfl
  have hmember : StructMember.Same f G' ⟨n, t⟩ ⟨f n, t'⟩ := ⟨rfl, hnames⟩
  have hhides : G.hides f G' n d = (some t' != some (f t) &&
      ((G.node t).isPointerLike || (G.node t).isArray ||
        (G.node t).asComposite.isSome && d.offsetInBits / 8 != 0)) := by
    rw [DIGraph.hides, ht, hn']
    rfl
  obtain ⟨hstops, hcomposite⟩ := (h.node t).head
  rw [hvisit, hvisit', hhides]
  by_cases hne : t' = f t
  · subst hne
    rw [bne_self_eq_false, Bool.false_and]
    exact iff_of_true (enter_same hmember hs hstops (.inl hcomposite)) rfl
  · obtain ⟨hplain, hplainComposite⟩ := hnames.eq_or_plain.resolve_left hne
    rw [hplain, hplainComposite, bne_iff_ne.mpr (by simpa using hne), Bool.true_and]
    cases hlooked : (G.node t).isPointerLike || (G.node t).isArray ||
        (G.node t).asComposite.isSome && d.offsetInBits / 8 != 0 with
    | true => exact iff_of_false (enter_differs hs hlooked) (by decide)
    | false =>
      rw [Bool.or_eq_false_iff, Bool.and_eq_false_iff, bne_eq_false_iff_eq] at hlooked
      obtain ⟨hfalse, hmoves⟩ := hlooked
      exact iff_of_true (enter_same hmember hs hfalse.symm (hmoves.imp_left Eq.symm)) rfl

end DestructureComposite

end Dimeta
