import Dimeta.Core.Recursion
import Dimeta.DI.Util
import Dimeta.DI.Walk

/-!
# Members and their layout

The by-value members of a record form a tree of byte ranges, and the search for a byte offset
should return the innermost of them that contains the byte. It does as long as no stray member is
saved: the visitor also sees the members of records that are only pointed to, and those of siblings
that do not contain the byte, and compares them with whatever offset base is in force.
-/

set_option autoImplicit false

namespace Dimeta

variable {ι : Type}

/-! ### Layout of records -/

namespace DIDerivedType

def byteOffset (d : DIDerivedType ι) : ℕ := (d.offsetInBits / 8).toNat

def byteSize (d : DIDerivedType ι) : ℕ := (d.sizeInBits / 8).toNat

/-- A member that has a place in the record. -/
def isField (d : DIDerivedType ι) : Bool := d.tag == .member && !d.isStaticMember

/-- The member, in a record that starts at byte `B`, contains the byte `b`. -/
def contains (d : DIDerivedType ι) (B b : ℕ) : Bool :=
  decide (B + d.byteOffset ≤ b) && decide (b < B + d.byteOffset + d.byteSize)

/-- Nodes that only name or qualify a type. -/
def isSugar (d : DIDerivedType ι) : Bool :=
  d.tag == .typedef || d.tag == .constType || d.tag == .volatileType || d.tag == .restrictType ||
    d.tag == .atomicType

end DIDerivedType

namespace DICompositeType

def byteSize (c : DICompositeType ι) : ℕ := (c.sizeInBits / 8).toNat

def isRecord (c : DICompositeType ι) : Bool := c.tag == .structureType || c.tag == .classType

end DICompositeType

namespace DIGraph

variable (G : DIGraph ι)

/-- Basic types, strings and enumerations, named or qualified. -/
inductive Scalar : ι → Prop
  | basic {n : ι} {b : DIBasicType} (hn : G.node n = .basicType b) : Scalar n
  | string {n : ι} {s : DIStringType} (hn : G.node n = .stringType s) : Scalar n
  | enumeration {n : ι} {c : DICompositeType ι} (hn : G.node n = .compositeType c)
      (htag : c.tag = .enumerationType) (hbase : ∀ t, c.baseType = some t → Scalar t)
      (helements : ∀ e ∈ c.elements, ∃ name, G.node e = .enumerator name) : Scalar n
  | sugar {n t : ι} {d : DIDerivedType ι} (hn : G.node n = .derivedType d)
      (hd : d.isSugar = true) (hbase : d.baseType = some t) (ht : Scalar t) : Scalar n

/-- The record `t` is the type of a by-value member of the record `n`. -/
def Nests (n t : ι) : Prop :=
  ∃ c e d c', G.node n = .compositeType c ∧ e ∈ c.elements ∧ G.node e = .derivedType d ∧
    d.baseType = some t ∧ G.node t = .compositeType c' ∧ c'.isRecord = true

/-- Fields at increasing places between `lo` and `hi`; methods have none. Every field is a record
no larger than itself, an array, a pointer or a scalar. -/
inductive Fields : ℕ → ℕ → List ι → Prop
  | nil {lo hi : ℕ} : Fields lo hi []
  | method {lo hi : ℕ} {e : ι} {es : List ι} (he : G.node e = .subprogram)
      (hes : Fields lo hi es) : Fields lo hi (e :: es)
  | field {lo hi : ℕ} {e t : ι} {es : List ι} {d : DIDerivedType ι}
      (he : G.node e = .derivedType d) (hd : d.isField = true) (hbase : d.baseType = some t)
      (htype : ((G.node t).isPointerLike || (G.node t).isArray) = true ∨ G.Scalar t ∨
        ∃ c, G.node t = .compositeType c ∧ c.isRecord = true ∧ c.byteSize ≤ d.byteSize)
      (hlo : lo ≤ d.byteOffset) (hhi : d.byteOffset + d.byteSize ≤ hi)
      (hes : Fields (d.byteOffset + d.byteSize) hi es) : Fields lo hi (e :: es)

/-- A record without base classes whose fields are laid out, and so on for the records in it. -/
inductive LaidOut : ι → Prop
  | record {n : ι} {c : DICompositeType ι} (hn : G.node n = .compositeType c)
      (hrecord : c.isRecord = true) (hbase : c.baseType = none)
      (hfields : G.Fields 0 c.byteSize c.elements) (hnested : ∀ t, G.Nests n t → LaidOut t) :
      LaidOut n

/-- A by-value member of the record, which starts at byte `B`, contains the byte `b`. -/
def Covered (B b : ℕ) (c : DICompositeType ι) : Prop :=
  ∃ e ∈ c.elements, ∃ d, G.node e = .derivedType d ∧ d.isField = true ∧ d.contains B b = true

/-- `m` is the innermost by-value member that contains the byte `b` of the record `n`, which starts
at byte `B`, together with its declared type. -/
inductive Innermost (b : ℕ) : ℕ → ι → StructMember ι → Prop
  | here {B : ℕ} {n e t : ι} {c : DICompositeType ι} {d : DIDerivedType ι}
      (hn : G.node n = .compositeType c) (he : e ∈ c.elements) (hd : G.node e = .derivedType d)
      (hfield : d.isField = true) (hb : d.contains B b = true) (ht : d.baseType = some t)
      (hleaf : ∀ c', G.node t = .compositeType c' → c'.isRecord = true →
        ¬ G.Covered (B + d.byteOffset) b c') : Innermost b B n ⟨e, t⟩
  | inside {B : ℕ} {n e t : ι} {c c' : DICompositeType ι} {d : DIDerivedType ι}
      {m : StructMember ι} (hn : G.node n = .compositeType c) (he : e ∈ c.elements)
      (hd : G.node e = .derivedType d) (hfield : d.isField = true) (hb : d.contains B b = true)
      (ht : d.baseType = some t) (hc' : G.node t = .compositeType c')
      (hrecord : c'.isRecord = true) (hm : Innermost b (B + d.byteOffset) t m) : Innermost b B n m

/-- What the layout says about the byte `b` of the record `n`: nothing if no member contains it,
and otherwise the innermost one. -/
def ResolvesTo (b : ℕ) (n : ι) (c : DICompositeType ι) : Option (StructMember ι) → Prop
  | none   => ¬ G.Covered 0 b c
  | some m => G.Innermost b 0 n m

/-- By-value nesting is well founded. -/
lemma LaidOut.acc {G : DIGraph ι} {n : ι} (h : G.LaidOut n) : Acc (fun t n => G.Nests n t) n := by
  induction h with
  | record _ _ _ _ _ ih => exact ⟨_, ih⟩

lemma LaidOut.not_nests_self {G : DIGraph ι} {n : ι} (h : G.LaidOut n) :
    ¬ Relation.TransGen G.Nests n n :=
  Recursion.not_transGen_self_of_acc h.acc

end DIGraph

/-! ### Walks of laid-out records -/

/-- The search stops at a member of this type. -/
def Walk.stops : Walk ι → Bool
  | .derived _ d _ => (DINode.derivedType d).isPointerLike
  | .array _ c _ _ | .composite _ c _ _ | .recurring _ c => (DINode.compositeType c).isArray
  | _ => false

def Walk.isComposite : Walk ι → Bool
  | .array _ _ _ _ | .composite _ _ _ _ | .recurring _ _ => true
  | _ => false

/-- A type, which is no member. -/
def Walk.isTypeWalk : Walk ι → Bool
  | .var _ _ | .skip _ => false
  | .derived _ d _     => !(DINode.derivedType d).isNonStaticMember
  | _                  => true

mutual
/-- What the search reads from the graph for a derived type is what is below it in the tree, and
only types are below it. -/
def Walk.Reads (G : DIGraph ι) : Walk ι → Prop
  | .derived _ d base =>
    (∀ t, d.baseType = some t → ((G.node t).isPointerLike || (G.node t).isArray) = base.stops ∧
      (G.node t).asComposite.isSome = base.isComposite) ∧
    ((DINode.derivedType d).isNonStaticMember = true → d.baseType ≠ none) ∧
    base.isTypeWalk = true ∧ base.Reads G
  | .var _ type => type.isTypeWalk = true ∧ type.Reads G
  | .array _ _ elements base => ReadsElements G elements ∧ base.isTypeWalk = true ∧ base.Reads G
  | .composite _ _ base elements =>
    (base.isTypeWalk = true ∧ base.Reads G) ∧ ReadsElements G elements
  | _ => True

def ReadsElements (G : DIGraph ι) : List (Walk ι) → Prop
  | []      => True
  | w :: ws => w.Reads G ∧ ReadsElements G ws
end

mutual
/-- The members that a traversal meets. -/
def Walk.members : Walk ι → List (ι × DIDerivedType ι)
  | .derived n d base =>
    (if (DINode.derivedType d).isNonStaticMember then [(n, d)] else []) ++ base.members
  | .var _ type => type.members
  | .array _ _ elements base => membersOf elements ++ base.members
  | .composite _ _ base elements => base.members ++ membersOf elements
  | _ => []

def membersOf : List (Walk ι) → List (ι × DIDerivedType ι)
  | []      => []
  | w :: ws => w.members ++ membersOf ws
end

/-- Where an element of a record ends. -/
def Walk.fieldEnd (lo : ℕ) : Walk ι → ℕ
  | .derived _ d _ => d.byteOffset + d.byteSize
  | _ => lo

/-- The elements of a record are not among the members that are met below them. -/
def Apart (elements : List ι) (ws : List (Walk ι)) : Prop :=
  ∀ n d type, Walk.derived n d type ∈ ws → n ∈ elements ∧ ∀ m ∈ type.members, m.1 ∉ elements

mutual
/-- The walk of an element at a place between `lo` and `hi`. -/
def Walk.FieldOk (lo hi : ℕ) : Walk ι → Prop
  | .skip _ => True
  | .derived _ d type =>
    d.isField = true ∧ lo ≤ d.byteOffset ∧ d.byteOffset + d.byteSize ≤ hi ∧
      (type.stops = true ∨ type.FieldType d.byteSize)
  | _ => False

/-- The type of a field with that many bytes, if the search goes on below it. -/
def Walk.FieldType (size : ℕ) : Walk ι → Prop
  | .basic _ _ | .string _ _ => True
  | .derived _ d base => (DINode.derivedType d).isNonStaticMember = false ∧ base.members = []
  | .composite _ c base elements =>
    c.isRecord = true ∧ c.byteSize ≤ size ∧ base = .null ∧ FieldsOk 0 c.byteSize elements ∧
        Apart c.elements elements ∨
      c.isRecord = false ∧ base.members = [] ∧ membersOf elements = []
  | _ => False

/-- Fields in place, one after the other. -/
def FieldsOk (lo hi : ℕ) : List (Walk ι) → Prop
  | []      => True
  | w :: ws => w.FieldOk lo hi ∧ FieldsOk (w.fieldEnd lo) hi ws
end

section OfWalk

variable [DecidableEq ι] {G : DIGraph ι}

/-- Nodes refer to types, members to some type. -/
structure DIGraph.WellTyped (G : DIGraph ι) : Prop where
  refers_to_types : ∀ n t, (G.node n).typeRef = some t →
    (G.node t).isType = true ∧ (G.node t).isNonStaticMember = false
  members_have_types : ∀ n, (G.node n).isNonStaticMember = true → (G.node n).typeRef ≠ none

/-- Moreover, a member that is not static belongs to one composite. Other elements, the dimensions
of arrays among them, may be shared. -/
structure DIGraph.WellFormed (G : DIGraph ι) : Prop extends G.WellTyped where
  members_owned : ∀ n n' c c' e, G.node n = .compositeType c → G.node n' = .compositeType c' →
    (G.node e).isNonStaticMember = true → e ∈ c.elements → e ∈ c'.elements → n = n'

lemma head_of_walk {fuel : ℕ} {visited : Finset ι} {n : ι} {w : Walk ι}
    (h : G.walk fuel visited n = some w) :
    ((G.node n).isPointerLike || (G.node n).isArray) = w.stops ∧
      (G.node n).asComposite.isSome = w.isComposite ∧
      ((G.node n).isType = true → (G.node n).isNonStaticMember = false → w.isTypeWalk = true) := by
  cases fuel with
  | zero => cases h
  | succ fuel =>
    cases DIGraph.walkStep_of_walk h with
    | node hn hplain =>
      next x =>
      rw [hn]
      cases x <;> simp [DINode.isPlain] at hplain <;> exact ⟨rfl, rfl, fun _ _ => rfl⟩
    | skip hn => rcases hn with hn | hn <;> rw [hn] <;> exact ⟨rfl, rfl, fun h => by cases h⟩
    | basic hn => rw [hn]; exact ⟨rfl, rfl, fun _ _ => rfl⟩
    | string hn => rw [hn]; exact ⟨rfl, rfl, fun _ _ => rfl⟩
    | var hn _ => rw [hn]; exact ⟨rfl, rfl, fun h => by cases h⟩
    | derived hn _ => rw [hn]; exact ⟨Bool.or_false _, rfl, fun _ h => by simp [Walk.isTypeWalk, h]⟩
    | array hn _ _ _ _ => rw [hn]; exact ⟨rfl, rfl, fun _ _ => rfl⟩
    | composite hn _ _ _ _ => rw [hn]; exact ⟨rfl, rfl, fun _ _ => rfl⟩
    | recurring hn _ => rw [hn]; exact ⟨rfl, rfl, fun _ _ => rfl⟩

omit [DecidableEq ι] in
lemma readsElements_of_forall₂ {U : ι → Walk ι → Prop} {es : List ι} {ws : List (Walk ι)}
    (h : List.Forall₂ U es ws) (hU : ∀ n w, U n w → w.Reads G) : ReadsElements G ws := by
  induction h with
  | nil => trivial
  | cons hw _ ih => exact ⟨hU _ _ hw, ih⟩

/-- What is below a reference is a type. -/
lemma isTypeWalk_of_typeRef (hG : G.WellTyped) {fuel : ℕ} {visited : Finset ι} {n : ι}
    {type : Option ι} {w : Walk ι} (hn : (G.node n).typeRef = type)
    (h : TypeWalk (fun n w => G.walk fuel visited n = some w) type w)
    (hreads : ∀ n w, G.walk fuel visited n = some w → w.Reads G) :
    w.isTypeWalk = true ∧ w.Reads G := by
  cases h with
  | null => exact ⟨rfl, trivial⟩
  | type h =>
    obtain ⟨htype, hmember⟩ := hG.refers_to_types n _ hn
    exact ⟨(head_of_walk h).2.2 htype hmember, hreads _ _ h⟩

/-- The search reads the graph as the walk has it. -/
lemma reads_of_walk (hG : G.WellTyped) {fuel : ℕ} {visited : Finset ι} {n : ι}
    {w : Walk ι} (h : G.walk fuel visited n = some w) : w.Reads G := by
  induction fuel generalizing visited n w with
  | zero => cases h
  | succ fuel ih =>
    have ih : ∀ visited n w, G.walk fuel visited n = some w → w.Reads G := fun _ _ _ => ih
    cases DIGraph.walkStep_of_walk h with
    | node _ _ | skip _ | basic _ | string _ | recurring _ _ => trivial
    | var hn htype => exact isTypeWalk_of_typeRef hG (by rw [hn]; rfl) htype (ih _)
    | array hn _ _ helements hbase =>
      exact ⟨readsElements_of_forall₂ helements (ih _),
        isTypeWalk_of_typeRef hG (by rw [hn]; rfl) hbase (ih _)⟩
    | composite hn _ _ hbase helements =>
      exact ⟨isTypeWalk_of_typeRef hG (by rw [hn]; rfl) hbase (ih _),
        readsElements_of_forall₂ helements (ih _)⟩
    | derived hn hbase =>
      next d base =>
      refine ⟨fun t ht => ?_, fun hd => ?_,
        isTypeWalk_of_typeRef hG (by rw [hn]; rfl) hbase (ih _)⟩
      · rw [ht] at hbase
        obtain ⟨hstops, hcomposite, -⟩ := head_of_walk hbase.of_some
        exact ⟨hstops, hcomposite⟩
      · have htyped := hG.members_have_types n (by rw [hn]; exact hd)
        rw [hn] at htyped
        exact htyped

omit [DecidableEq ι] in
lemma membersOf_eq_nil {ws : List (Walk ι)} (h : ∀ w ∈ ws, w.members = []) : membersOf ws = [] := by
  induction ws with
  | nil => rfl
  | cons w ws ih =>
    rw [membersOf, h w (by simp), ih fun w hw => h w (by simp [hw]), List.append_nil]

omit [DecidableEq ι] in
lemma DIDerivedType.isNonStaticMember_of_isSugar {d : DIDerivedType ι} (hd : d.isSugar = true) :
    (DINode.derivedType d).isNonStaticMember = false := by
  have htag : d.tag ≠ .member := by
    intro h
    simp [isSugar, h] at hd
  simp [DINode.isNonStaticMember, DINode.tag, htag]

/-- There are no members below a scalar. -/
lemma members_of_scalar {t : ι} (ht : G.Scalar t) {fuel : ℕ} {visited : Finset ι} {w : Walk ι}
    (h : G.walk fuel visited t = some w) : w.members = [] := by
  induction ht generalizing fuel visited w with
  | basic hn =>
    cases fuel with
    | zero => cases h
    | succ fuel =>
      simp only [DIGraph.walk, hn, Option.some.injEq] at h
      rw [← h]
      rfl
  | string hn =>
    cases fuel with
    | zero => cases h
    | succ fuel =>
      simp only [DIGraph.walk, hn, Option.some.injEq] at h
      rw [← h]
      rfl
  | sugar hn hd hbase _ ih =>
    cases fuel with
    | zero => cases h
    | succ fuel =>
      obtain ⟨base, rfl, hw⟩ := DIGraph.walk_derived hn h
      rw [hbase] at hw
      rw [Walk.members, DIDerivedType.isNonStaticMember_of_isSugar hd, ih hw.of_some]
      rfl
  | enumeration hn htag hbase helements ih =>
    next n c =>
    cases fuel with
    | zero => cases h
    | succ fuel =>
      by_cases hvisited : n ∈ visited
      · obtain rfl := DIGraph.walk_recurring hn hvisited h
        rfl
      · obtain ⟨base, ws, rfl, hwbase, hws⟩ :=
          DIGraph.walk_composite hn (by rw [htag]; decide) hvisited h
        have hbaseMembers : base.members = [] := by
          cases hc : c.baseType with
          | none =>
            rw [hc] at hwbase
            cases hwbase
            rfl
          | some t =>
            rw [hc] at hwbase
            exact ih t hc hwbase.of_some
        have hwsMembers : membersOf ws = [] := by
          refine membersOf_eq_nil fun w hw => ?_
          obtain ⟨e, -, rfl⟩ := DIGraph.node_of_forall₂ hws (fun e he => by
            obtain ⟨name, hname⟩ := helements e he
            rw [hname]
            rfl) w hw
          rfl
        rw [Walk.members, hbaseMembers, hwsMembers, List.append_nil]

/-- The composites `visited` are records around `n`. -/
def DIGraph.Around (G : DIGraph ι) (visited : Finset ι) (n : ι) : Prop :=
  ∀ v ∈ visited, Relation.TransGen G.Nests v n ∧
    ∃ c, G.node v = .compositeType c ∧ c.isRecord = true

omit [DecidableEq ι] in
lemma DICompositeType.tag_ne_arrayType {c : DICompositeType ι} (h : c.isRecord = true) :
    c.tag ≠ .arrayType := by
  intro htag
  simp [isRecord, htag] at h

lemma fieldType_of_scalar {t : ι} (ht : G.Scalar t) {fuel : ℕ} {visited : Finset ι} {w : Walk ι}
    (hvisited : ∀ v ∈ visited, ∃ c, G.node v = .compositeType c ∧ c.isRecord = true)
    (h : G.walk fuel visited t = some w) (size : ℕ) : w.FieldType size := by
  have hmembers := members_of_scalar ht h
  cases fuel with
  | zero => cases h
  | succ fuel =>
    cases DIGraph.walkStep_of_walk h with
    | basic _ | string _ => trivial
    | derived hn _ =>
      rw [Walk.members, List.append_eq_nil_iff] at hmembers
      exact ⟨by simpa using hmembers.1, hmembers.2⟩
    | composite hn hmem htag _ _ =>
      next c base ws =>
      rw [Walk.members, List.append_eq_nil_iff] at hmembers
      refine .inr ⟨?_, hmembers⟩
      cases ht with
      | enumeration hn' htag' =>
        obtain rfl := DINode.compositeType.inj (hn.symm.trans hn')
        simp [DICompositeType.isRecord, htag']
      | basic hn' | string hn' | sugar hn' => rw [hn] at hn'; cases hn'
    | recurring hn hmem =>
      obtain ⟨c', hc', hrecord⟩ := hvisited _ hmem
      cases ht with
      | enumeration hn' htag' =>
        obtain rfl := DINode.compositeType.inj (hc'.symm.trans hn')
        simp [DICompositeType.isRecord, htag'] at hrecord
      | basic hn' | string hn' | sugar hn' => rw [hn] at hn'; cases hn'
    | array hn _ htag _ _ =>
      cases ht with
      | enumeration hn' htag' =>
        obtain rfl := DINode.compositeType.inj (hn.symm.trans hn')
        rw [htag] at htag'
        cases htag'
      | basic hn' | string hn' | sugar hn' => rw [hn] at hn'; cases hn'
    | node hn hplain =>
      next x =>
      cases ht with
      | basic hn' | string hn' | sugar hn' | enumeration hn' =>
        rw [hn] at hn'
        subst hn'
        cases hplain
    | var hn _ => cases ht with
      | basic hn' | string hn' | sugar hn' | enumeration hn' => rw [hn] at hn'; cases hn'
    | skip hn => cases ht with
      | basic hn' | string hn' | sugar hn' | enumeration hn' =>
        rcases hn with hn | hn <;> rw [hn] at hn' <;> cases hn'

/-- The walks of fields are in place, if those of the records among their types are. -/
lemma fieldsOk_of_fields {lo hi : ℕ} {es : List ι} (hfields : G.Fields lo hi es) {fuel : ℕ}
    {visited : Finset ι} {ws : List (Walk ι)}
    (hvisited : ∀ v ∈ visited, ∃ c, G.node v = .compositeType c ∧ c.isRecord = true)
    (hws : List.Forall₂ (fun n w => G.walk fuel visited n = some w) es ws)
    (hrecords : ∀ e ∈ es, ∀ d t c, G.node e = .derivedType d → d.baseType = some t →
      G.node t = .compositeType c → c.isRecord = true → ∀ fuel w, G.walk fuel visited t = some w →
      ∃ ws, w = .composite t c .null ws ∧ FieldsOk 0 c.byteSize ws ∧ Apart c.elements ws) :
    FieldsOk lo hi ws := by
  induction hfields generalizing ws with
  | nil =>
    cases hws
    trivial
  | method he _ ih =>
    cases hws with
    | cons hw hws =>
      cases fuel with
      | zero => cases hw
      | succ fuel =>
        simp only [DIGraph.walk, he, Option.some.injEq] at hw
        subst hw
        exact ⟨trivial, ih hws fun e he => hrecords e (by simp [he])⟩
  | field he hd hbase htype hlo hhi _ ih =>
    next e t es d _ =>
    cases hws with
    | cons hw hws =>
      cases fuel with
      | zero => cases hw
      | succ fuel =>
        obtain ⟨type, rfl, htw⟩ := DIGraph.walk_derived he hw
        rw [hbase] at htw
        have htw := htw.of_some
        refine ⟨⟨hd, hlo, hhi, ?_⟩, ih hws fun e he => hrecords e (by simp [he])⟩
        rcases htype with hstops | hscalar | ⟨c, hc, hrecord, hsize⟩
        · exact .inl ((head_of_walk htw).1.symm.trans hstops)
        · exact .inr (fieldType_of_scalar hscalar hvisited htw _)
        · obtain ⟨ws', rfl, hws'⟩ := hrecords e (by simp) d t c he hbase hc hrecord _ _ htw
          exact .inr (.inl ⟨hrecord, hsize, rfl, hws'⟩)

/-- A member of a composite that is not open. -/
def DIGraph.Owned (G : DIGraph ι) (visited : Finset ι) (e : ι) : Prop :=
  (G.node e).isNonStaticMember = true ∧
    ∃ n c, G.node n = .compositeType c ∧ e ∈ c.elements ∧ (n ∈ visited → c.tag = .arrayType)

omit [DecidableEq ι] in
lemma DIGraph.Owned.mono {visited visited' : Finset ι} {e : ι} (h : G.Owned visited' e)
    (hsub : visited ⊆ visited') : G.Owned visited e := by
  obtain ⟨hmember, n, c, hn, he, hopen⟩ := h
  exact ⟨hmember, n, c, hn, he, fun hmem => hopen (hsub hmem)⟩

omit [DecidableEq ι] in
lemma owned_of_forall₂ {U : ι → Walk ι → Prop} {visited visited' : Finset ι} {n : ι}
    {c : DICompositeType ι} (hn : G.node n = .compositeType c) (hmem : n ∉ visited)
    (hsub : visited ⊆ visited')
    (hU : ∀ n w, U n w → ∀ m ∈ w.members,
      m.1 = n ∧ (G.node n).isNonStaticMember = true ∨ G.Owned visited' m.1) {es : List ι}
    {ws : List (Walk ι)} (hws : List.Forall₂ U es ws) (hes : ∀ e ∈ es, e ∈ c.elements) :
    ∀ m ∈ membersOf ws, G.Owned visited m.1 := by
  induction hws with
  | nil => simp [membersOf]
  | cons hw _ ih =>
    intro m hm
    rcases List.mem_append.mp hm with hm | hm
    · rcases hU _ _ hw m hm with ⟨heq, hmember⟩ | howned
      · exact ⟨heq ▸ hmember, n, c, hn, heq ▸ hes _ (by simp), fun h => absurd h hmem⟩
      · exact howned.mono hsub
    · exact ih (fun e he => hes e (by simp [he])) m hm

/-- The members met on a walk are elements of composites that were not open before, unless the walk
starts with the member. -/
lemma owner_of_members (hG : G.WellTyped) {fuel : ℕ} {visited : Finset ι} {n : ι} {w : Walk ι}
    (h : G.walk fuel visited n = some w) : ∀ m ∈ w.members,
      m.1 = n ∧ (G.node n).isNonStaticMember = true ∨ G.Owned visited m.1 := by
  induction fuel generalizing visited n w with
  | zero => cases h
  | succ fuel ih =>
    -- what is referred to is no member
    have htype : ∀ {visited n type w}, (G.node n).typeRef = type →
        TypeWalk (fun n w => G.walk fuel visited n = some w) type w →
        ∀ m ∈ w.members, G.Owned visited m.1 := by
      intro visited n type w hn hw m hm
      cases hw with
      | null => cases hm
      | type hw =>
        rcases ih hw m hm with ⟨-, hmember⟩ | howned
        · rw [(hG.refers_to_types n _ hn).2] at hmember
          cases hmember
        · exact howned
    have helement : ∀ visited n w, G.walk fuel visited n = some w → ∀ m ∈ w.members,
        m.1 = n ∧ (G.node n).isNonStaticMember = true ∨ G.Owned visited m.1 :=
      fun _ _ _ hw => ih hw
    cases DIGraph.walkStep_of_walk h with
    | node _ _ | skip _ | basic _ | string _ | recurring _ _ => simp [Walk.members]
    | var hn hw => exact fun m hm => .inr (htype (by rw [hn]; rfl) hw m hm)
    | array hn hmem htag hws hbase =>
      intro m hm
      rcases List.mem_append.mp hm with hm | hm
      · exact .inr (owned_of_forall₂ hn hmem (Finset.Subset.refl _) (helement _) hws
          (fun _ he => he) m hm)
      · exact .inr (htype (by rw [hn]; rfl) hbase m hm)
    | composite hn hmem htag hbase hws =>
      have hsub : visited ⊆ insert n visited := Finset.subset_insert n visited
      intro m hm
      rcases List.mem_append.mp hm with hm | hm
      · exact .inr ((htype (by rw [hn]; rfl) hbase m hm).mono hsub)
      · exact .inr (owned_of_forall₂ hn hmem hsub (helement _) hws (fun _ he => he) m hm)
    | derived hn hbase =>
      intro m hm
      rcases List.mem_append.mp hm with hm | hm
      · split at hm
        · next hmember =>
          obtain rfl := List.mem_singleton.mp hm
          exact .inl ⟨rfl, by rw [hn]; exact hmember⟩
        · cases hm
      · exact .inr (htype (by rw [hn]; rfl) hbase m hm)

/-- The members below the elements of an open record are elements of other composites. -/
lemma apart_of_forall₂ (hG : G.WellFormed) {fuel : ℕ} {visited : Finset ι} {n : ι}
    {c : DICompositeType ι} (hn : G.node n = .compositeType c) (hrecord : c.isRecord = true)
    (hmem : n ∈ visited) {ws : List (Walk ι)}
    (hws : List.Forall₂ (fun n w => G.walk fuel visited n = some w) c.elements ws) :
    Apart c.elements ws := by
  intro e d type hw
  obtain ⟨i, hi, hget⟩ := List.getElem_of_mem hw
  have hlt : i < c.elements.length := by
    rw [hws.length_eq]
    exact hi
  have hwalk := hws.get hlt hi
  rw [List.get_eq_getElem, List.get_eq_getElem, hget] at hwalk
  have he : c.elements[i] = e := by
    have hroot := DIGraph.root_of_walk hwalk
    exact (Option.some.inj hroot).symm
  rw [he] at hwalk
  refine ⟨he ▸ List.getElem_mem _, fun m hm hmc => ?_⟩
  cases fuel with
  | zero => cases hwalk
  | succ fuel =>
    cases DIGraph.walkStep_of_walk hwalk with
    | derived hd htype =>
      have howned : G.Owned visited m.1 := by
        cases htd : d.baseType with
        | none =>
          rw [htd] at htype
          cases htype
          cases hm
        | some t =>
          rw [htd] at htype
          rcases owner_of_members hG.toWellTyped htype.of_some m hm with ⟨-, hmember⟩ | howned
          · rw [(hG.refers_to_types e t (by rw [hd]; exact htd)).2] at hmember
            cases hmember
          · exact howned
      obtain ⟨hmember, n', c', hn', hmc', hopen⟩ := howned
      obtain rfl := hG.members_owned n n' c c' m.1 hn hn' hmember hmc hmc'
      obtain rfl := DINode.compositeType.inj (hn.symm.trans hn')
      exact DICompositeType.tag_ne_arrayType hrecord (hopen hmem)

/-- The walk of a laid-out record has its fields in place. -/
theorem DIGraph.LaidOut.walk (hG : G.WellFormed) {n : ι} (h : G.LaidOut n) {fuel : ℕ}
    {visited : Finset ι} {w : Walk ι} (hvisited : G.Around visited n)
    (hw : G.walk fuel visited n = some w) :
    ∃ c ws, G.node n = .compositeType c ∧ c.isRecord = true ∧ w = .composite n c .null ws ∧
      FieldsOk 0 c.byteSize ws ∧ Apart c.elements ws := by
  have hself := h.not_nests_self
  induction h generalizing fuel visited w with
  | record hn hrecord hbase hfields hnested ih =>
    next n c =>
    cases fuel with
    | zero => cases hw
    | succ fuel =>
      have hmem : n ∉ visited := fun hmem => hself (hvisited n hmem).1
      obtain ⟨_, ws, rfl, hwbase, hall⟩ :=
        DIGraph.walk_composite hn (DICompositeType.tag_ne_arrayType hrecord) hmem hw
      rw [hbase] at hwbase
      cases hwbase
      have hinsert : ∀ v ∈ insert n visited, ∃ c, G.node v = .compositeType c ∧
          c.isRecord = true := by
        intro v hv
        rcases Finset.mem_insert.mp hv with rfl | hv
        · exact ⟨c, hn, hrecord⟩
        · exact (hvisited v hv).2
      refine ⟨c, ws, hn, hrecord, rfl, fieldsOk_of_fields hfields hinsert hall ?_, ?_⟩
      · intro e he d t c' hd ht hc' hrecord' fuel' w' hw'
        have hnests : G.Nests n t := ⟨c, e, d, c', hn, he, hd, ht, hc', hrecord'⟩
        have haround : G.Around (insert n visited) t := by
          intro v hv
          refine ⟨?_, hinsert v hv⟩
          rcases Finset.mem_insert.mp hv with rfl | hv
          · exact .single hnests
          · exact (hvisited v hv).1.tail hnests
        obtain ⟨c'', ws', hc'', -, rfl, hfields', hapart⟩ :=
          ih t hnests haround hw' (hnested t hnests).not_nests_self
        obtain rfl := DINode.compositeType.inj (hc'.symm.trans hc'')
        exact ⟨ws', rfl, hfields', hapart⟩
      · exact apart_of_forall₂ hG hn hrecord (Finset.mem_insert_self n visited) hall

end OfWalk

end Dimeta
