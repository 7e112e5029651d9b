import Dimeta.Extract.Chains
import Dimeta.Parse.Members

/-!
# Types by TBAA access tags

An access tag says at which offset of which base type an access is. Where the root composite is not
the base type but a record inside it, `tbaa_resolver` makes that record the new base and subtracts
an offset that it adds up on the way: of each record on the way it adds at most the offset of one
direct field.

Assertions are not part of the model, and offsets are subtracted modulo `2 ^ 64`.
-/

set_option autoImplicit false

namespace Dimeta

variable {ι : Type}

/-! ### Access tags -/

/-- A type node: the operands are its name, then a type and a constant offset for each field. The
nodes are unique, so equal ones are the same. -/
inductive TBAANode where
  | mk (name : String) (fields : List (TBAANode × UInt64))

namespace TBAANode

/-- `tbaa_operand_name` -/
def name : TBAANode → String
  | ⟨name, _⟩ => name

def fields : TBAANode → List (TBAANode × UInt64)
  | ⟨_, fields⟩ => fields

mutual
def same : TBAANode → TBAANode → Bool
  | ⟨name, fields⟩, ⟨name', fields'⟩ => name == name' && sameFields fields fields'

def sameFields : List (TBAANode × UInt64) → List (TBAANode × UInt64) → Bool
  | [], []                                     => true
  | (t, offset) :: fields, (t', offset') :: fields' =>
    t.same t' && offset == offset' && sameFields fields fields'
  | _, _                                       => false
end

/-- Number of type and offset pairs. -/
def tbaaOperandCount (node : TBAANode) : ℕ := node.fields.length

end TBAANode

/-- An access tag; `globPointerPattern` says whether the names of LLVM 19 are matched, too. -/
structure TBAAHandle where
  baseTy : TBAANode
  accessTy : TBAANode
  offsetValue : UInt64
  globPointerPattern : Bool

namespace TBAAHandle

def baseName (tbaa : TBAAHandle) : String := tbaa.baseTy.name

def accessName (tbaa : TBAAHandle) : String := tbaa.accessTy.name

/-- The pattern `p[1-9] *` -/
def matchesGlob (name : String) : Bool :=
  match name.toList with
  | 'p' :: level :: ' ' :: _ => decide ('1' ≤ level) && decide (level ≤ '9')
  | _                        => false

def checkIfPointerType (tbaa : TBAAHandle) (name : String) : Bool :=
  name == "any pointer" || (tbaa.globPointerPattern && matchesGlob name)

def accessIsPtr (tbaa : TBAAHandle) : Bool := tbaa.checkIfPointerType tbaa.accessName

def resetBase (tbaa : TBAAHandle) (newBaseTy : TBAANode) : TBAAHandle :=
  { tbaa with baseTy := newBaseTy }

def subtractOffset (tbaa : TBAAHandle) (offset : UInt64) : TBAAHandle :=
  { tbaa with offsetValue := tbaa.offsetValue - offset }

end TBAAHandle

/-! ### Sub-types by name -/

/-- The state of the search for a name in a base type. -/
structure TBAADestructure where
  offsetBase : UInt64 := 0
  outermostCandidate : Option TBAANode := none

namespace TBAADestructure

mutual
/-- Only the node itself counts as found: the result says nothing about what is below it. -/
def traverseTbaaNodes (name : String) : TBAANode → TBAADestructure → Bool × TBAADestructure
  | ⟨tbaaName, fields⟩, s =>
    if tbaaName ≠ "" ∧ name = tbaaName then
      (true, { s with outermostCandidate := some ⟨tbaaName, fields⟩ })
    else (false, traverseFields name fields s)

/-- The loop over the operands; it is left behind the first field of that name. -/
def traverseFields (name : String) : List (TBAANode × UInt64) → TBAADestructure → TBAADestructure
  | [], s                    => s
  | (type, offset) :: fields, s =>
    match traverseTbaaNodes name type s with
    | (true, s)  => { s with offsetBase := s.offsetBase + offset }
    | (false, s) => traverseFields name fields s
end

end TBAADestructure

def tbaaSubNodeMatchesName (name : String) (newBaseTy : TBAANode) : Option TBAANode × UInt64 :=
  let s := (TBAADestructure.traverseTbaaNodes name newBaseTy {}).2
  (s.outermostCandidate, s.offsetBase)

/-! ### Composites by name -/

/-- C++ refers to composites by their identifiers, C by their names. -/
def DICompositeType.structName (c : DICompositeType ι) : String :=
  if c.identifier = "" then c.name else c.identifier

def FindMatchingMember.visitor (compositeName : String) :
    DINodeVisitor ι (Option (ι × DICompositeType ι)) where
  visitCompositeType n c result :=
    if c.structName = compositeName then (false, some (n, c)) else (true, result)

section Resolver

variable [DecidableEq ι] (G : DIGraph ι) (fuel : ℕ)

def findCompositeWithName (compositeName : String) (n : ι) (c : DICompositeType ι) :
    Except Fault (Option (ι × DICompositeType ι)) :=
  let finder := FindMatchingMember.visitor compositeName
  match finder.traverseCompositeType (finder.invokeIfAny G fuel) n c ⟨∅, none⟩ with
  | none        => .error .outOfFuel
  | some (_, t) => .ok t.callback

/-- The members are at the offsets of the fields. -/
def compositeFitsTbaa (c : DICompositeType ι) (tbaa : TBAAHandle) : Bool :=
  getNumCompositeMembers G c == tbaa.baseTy.tbaaOperandCount &&
    (((getCompositeMembers G c).zip tbaa.baseTy.fields).all fun x =>
      (G.node x.1).asDerived.any fun d => x.2.2 == d.offsetInBits / 8)

/-- The composite that the tag refers to, with the tag relative to it. The root composite `n` is
replaced by one inside it, or the base type is; without either there is none. -/
def matchBase (n : ι) (c : DICompositeType ι) (tbaa : TBAAHandle) :
    Except Fault (Option ((ι × DICompositeType ι) × TBAAHandle)) :=
  if c.structName ≠ tbaa.baseName ∧ tbaa.baseName ≠ "" then do
    match ← findCompositeWithName G fuel tbaa.baseName n c with
    | some (n', c') =>
      if getNumCompositeMembers G c' ≠ tbaa.baseTy.tbaaOperandCount then return none
      else return some ((n', c'), tbaa)
    | none =>
      match tbaaSubNodeMatchesName c.structName tbaa.baseTy with
      | (none, _)                        => return none
      | (some newBase, calculatedOffset) =>
        return some ((n, c), (tbaa.resetBase newBase).subtractOffset calculatedOffset)
  else return some ((n, c), tbaa)

/-- The type at the offset of the tag; the names do not say whether the tag of a composite without
one refers to it. -/
def typeAtTag (root : Option ι) (structName : String) (n : ι) (c : DICompositeType ι)
    (tbaa : TBAAHandle) : Except Fault (Option (Option ι)) :=
  if structName = "" ∧ compositeFitsTbaa G c tbaa = false then .ok (some root)
  else do
    let result ← G.memberAt fuel n c tbaa.offsetValue
    return result.map fun m => some m.typeOfMember

/-- The result, and the tag as it is left behind. -/
def tbaaResolver (root : Option ι) (tbaa : TBAAHandle) :
    Except Fault (Option (Option ι)) × TBAAHandle :=
  match G.findNonDerivedType fuel root with
  | .error e => (.error e, tbaa)
  | .ok type =>
    match type.bind G.composite with
    | none        => (.ok (some root), tbaa)
    | some (n, c) =>
      match matchBase G fuel n c tbaa with
      | .error e                    => (.error e, tbaa)
      | .ok none                    => (.ok (some root), tbaa)
      | .ok (some ((m, c'), tbaa')) => (typeAtTag G fuel root c.structName m c' tbaa', tbaa')

/-- `resolve_tbaa` for an instruction with or without a tag. -/
def resolveTbaa (root : Option ι) : Option TBAAHandle → Except Fault (Option (Option ι))
  | none      => .ok (some root)
  | some tbaa =>
    -- any pointer is assigned to any pointer
    if tbaa.baseTy.same tbaa.accessTy && tbaa.accessIsPtr then .ok (some root)
    else (tbaaResolver G fuel root tbaa).1

end Resolver

/-! ### Where the search finds the name -/

/-- A node occurs inside a base type: the offset is that of all fields on the way down. -/
inductive TBAANode.OccursAt : TBAANode → ℕ → TBAANode → Prop
  | field {base t : TBAANode} {offset : UInt64} :
      (t, offset) ∈ base.fields → OccursAt base offset.toNat t
  | inside {base t node : TBAANode} {offset : UInt64} {d : ℕ} :
      (t, offset) ∈ base.fields → OccursAt t d node → OccursAt base (offset.toNat + d) node

namespace TBAANode

lemma not_occursAt_nil {name : String} {d : ℕ} {node : TBAANode} : ¬ OccursAt ⟨name, []⟩ d node := by
  intro h
  cases h with
  | field hmem => cases hmem
  | inside hmem _ => cases hmem

/-- Inside the first field, or inside what follows it. -/
lemma occursAt_cons_iff {name : String} {t node : TBAANode} {offset : UInt64}
    {fields : List (TBAANode × UInt64)} {d : ℕ} :
    OccursAt ⟨name, (t, offset) :: fields⟩ d node ↔
      (d = offset.toNat ∧ node = t) ∨ (∃ d', t.OccursAt d' node ∧ d = offset.toNat + d') ∨
        OccursAt ⟨name, fields⟩ d node := by
  constructor
  · intro h
    cases h with
    | field hmem =>
      rcases List.mem_cons.mp hmem with heq | hmem
      · obtain ⟨rfl, rfl⟩ := Prod.mk.inj heq
        exact .inl ⟨rfl, rfl⟩
      · exact .inr (.inr (.field hmem))
    | inside hmem hbelow =>
      rcases List.mem_cons.mp hmem with heq | hmem
      · obtain ⟨rfl, rfl⟩ := Prod.mk.inj heq
        exact .inr (.inl ⟨_, hbelow, rfl⟩)
      · exact .inr (.inr (.inside hmem hbelow))
  · rintro (⟨rfl, rfl⟩ | ⟨d', hbelow, rfl⟩ | h)
    · exact .field List.mem_cons_self
    · exact .inside List.mem_cons_self hbelow
    · cases h with
      | field hmem => exact .field (List.mem_cons_of_mem _ hmem)
      | inside hmem hbelow => exact .inside (List.mem_cons_of_mem _ hmem) hbelow

end TBAANode

mutual
/-- For each record inside a base type, the first field of that name, in the order in which the
records are entered. Fields behind it are not, nor is what is below it. -/
def TBAANode.firstFields (name : String) : TBAANode → List (TBAANode × UInt64)
  | ⟨_, fields⟩ => firstOfFields name fields

def firstOfFields (name : String) : List (TBAANode × UInt64) → List (TBAANode × UInt64)
  | [] => []
  | (t, offset) :: fields =>
    if t.name ≠ "" ∧ name = t.name then [(t, offset)]
    else t.firstFields name ++ firstOfFields name fields
end

/-- The offsets of fields, each in its own record, added up. -/
def offsetSum (hits : List (TBAANode × UInt64)) : UInt64 :=
  hits.foldr (fun hit sum => hit.2 + sum) 0

namespace TBAADestructure

/-- The fields that were found, one after the other. -/
def found (s : TBAADestructure) (hits : List (TBAANode × UInt64)) : TBAADestructure :=
  hits.foldl (fun s hit => ⟨s.offsetBase + hit.2, some hit.1⟩) s

lemma traverseTbaaNodes_of_name {name : String} {node : TBAANode}
    (hname : node.name ≠ "" ∧ name = node.name) (s : TBAADestructure) :
    traverseTbaaNodes name node s = (true, { s with outermostCandidate := some node }) := by
  obtain ⟨tbaaName, fields⟩ := node
  rw [traverseTbaaNodes]
  exact if_pos hname

mutual
lemma traverseTbaaNodes_eq (name : String) : ∀ (node : TBAANode) (s : TBAADestructure),
    ¬ (node.name ≠ "" ∧ name = node.name) →
      traverseTbaaNodes name node s = (false, s.found (node.firstFields name))
  | ⟨tbaaName, fields⟩, s, hname => by
    rw [traverseTbaaNodes, TBAANode.firstFields, ← traverseFields_eq name fields s]
    exact if_neg hname

lemma traverseFields_eq (name : String) : ∀ (fields : List (TBAANode × UInt64))
    (s : TBAADestructure), traverseFields name fields s = s.found (firstOfFields name fields)
  | [], s => by rw [traverseFields, firstOfFields]; rfl
  | (t, offset) :: fields, s => by
    rw [traverseFields, firstOfFields]
    by_cases hname : t.name ≠ "" ∧ name = t.name
    · rw [if_pos hname, traverseTbaaNodes_of_name hname]
      rfl
    · rw [if_neg hname, traverseTbaaNodes_eq name t s hname]
      simp only [traverseFields_eq name fields, found, List.foldl_append]
end

lemma found_offsetBase (s : TBAADestructure) (hits : List (TBAANode × UInt64)) :
    (s.found hits).offsetBase = s.offsetBase + offsetSum hits := by
  induction hits generalizing s with
  | nil => exact (UInt64.add_zero _).symm
  | cons hit hits ih =>
    have hstep : s.found (hit :: hits) =
        found ⟨s.offsetBase + hit.2, some hit.1⟩ hits := rfl
    rw [hstep, ih]
    exact UInt64.add_assoc _ _ _

lemma found_outermostCandidate (s : TBAADestructure) (hits : List (TBAANode × UInt64)) :
    (s.found hits).outermostCandidate =
      (hits.getLast?.map Prod.fst).or s.outermostCandidate := by
  induction hits using List.reverseRecOn with
  | nil => rfl
  | append_singleton hits hit _ => simp [found]

end TBAADestructure

/-- The last hit is the new base, and the offsets of all hits are added up. -/
lemma tbaaSubNodeMatchesName_eq {name : String} {base : TBAANode}
    (hname : name ≠ base.name) :
    tbaaSubNodeMatchesName name base =
      ((base.firstFields name).getLast?.map Prod.fst,
        offsetSum (base.firstFields name)) := by
  rw [tbaaSubNodeMatchesName,
    TBAADestructure.traverseTbaaNodes_eq name base {} fun h => hname h.2]
  simp only [TBAADestructure.found_offsetBase, TBAADestructure.found_outermostCandidate,
    Option.or_none, UInt64.zero_add]

section Rebase

variable [DecidableEq ι] {G : DIGraph ι} {fuel : ℕ}

/-- The only way to another base type is that of a node with the name of the composite. -/
lemma matchBase_cases {n m : ι} {c c' : DICompositeType ι} {tbaa tbaa' : TBAAHandle}
    (h : matchBase G fuel n c tbaa = .ok (some ((m, c'), tbaa'))) :
    tbaa' = tbaa ∨ c.structName ≠ tbaa.baseName ∧
      ∃ newBase offset, tbaaSubNodeMatchesName c.structName tbaa.baseTy = (some newBase, offset) ∧
        tbaa' = (tbaa.resetBase newBase).subtractOffset offset := by
  rw [matchBase] at h
  split at h
  · next hname =>
    obtain ⟨result, -, h⟩ := bind_eq_ok.mp h
    cases result with
    | some r =>
      obtain ⟨n', c''⟩ := r
      simp only at h
      split at h
      · cases h
      · cases h
        exact .inl rfl
    | none =>
      simp only at h
      split at h
      · cases h
      · next newBase offset hfound =>
        cases h
        exact .inr ⟨hname.1, newBase, offset, hfound, rfl⟩
  · cases h
    exact .inl rfl

lemma tbaaResolver_cases {root : Option ι} {n : ι} {c : DICompositeType ι} {tbaa : TBAAHandle}
    (hroot : G.LeadsTo (fun _ => false) root (some n)) (hn : G.node n = .compositeType c)
    (hrebased : (tbaaResolver G fuel root tbaa).2.baseTy ≠ tbaa.baseTy) :
    ∃ newBase, (tbaa.baseTy.firstFields c.structName).getLast?.map Prod.fst = some newBase ∧
      (tbaaResolver G fuel root tbaa).2 = (tbaa.resetBase newBase).subtractOffset
        (offsetSum (tbaa.baseTy.firstFields c.structName)) := by
  rw [tbaaResolver] at hrebased ⊢
  cases hfind : G.findNonDerivedType fuel root with
  | error e =>
    rw [hfind] at hrebased
    exact absurd rfl hrebased
  | ok type =>
    obtain rfl : type = some n := (DIGraph.leadsTo_of_find hfind).unique hroot
    have hcomposite : (some n).bind G.composite = some (n, c) := by
      simp [DIGraph.composite, hn, DINode.asComposite]
    simp only [hfind, hcomposite] at hrebased ⊢
    cases hmatch : matchBase G fuel n c tbaa with
    | error e =>
      rw [hmatch] at hrebased
      exact absurd rfl hrebased
    | ok result =>
      cases result with
      | none =>
        rw [hmatch] at hrebased
        exact absurd rfl hrebased
      | some result =>
        obtain ⟨⟨m, c'⟩, tbaa'⟩ := result
        simp only [hmatch] at hrebased ⊢
        rcases matchBase_cases hmatch with rfl | ⟨hname, newBase, offset, hfound, rfl⟩
        · exact absurd rfl hrebased
        · rw [tbaaSubNodeMatchesName_eq hname] at hfound
          obtain ⟨hbase, rfl⟩ := Prod.mk.inj hfound
          exact ⟨newBase, hbase, rfl⟩

/-- Subtraction is exact for one number only. -/
lemma toNat_sub_eq_iff {a b : UInt64} {d : ℕ} (hd : d ≤ a.toNat) :
    (a - b).toNat = a.toNat - d ↔ b.toNat = d := by
  have ha := a.toNat_lt
  have hb := b.toNat_lt
  rw [UInt64.toNat_sub]
  omega

/-- A new base keeps the access at the same byte exactly if the type that is found last occurs
around the access at the sum of the offsets of the first fields of its name, each of which counts
from the record that it is in. -/
theorem rebase_same_byte_iff {root : Option ι} {n : ι} {c : DICompositeType ι} {tbaa : TBAAHandle}
    (hroot : G.LeadsTo (fun _ => false) root (some n)) (hn : G.node n = .compositeType c)
    (hrebased : (tbaaResolver G fuel root tbaa).2.baseTy ≠ tbaa.baseTy) :
    (∃ d, tbaa.baseTy.OccursAt d (tbaaResolver G fuel root tbaa).2.baseTy ∧
        d ≤ tbaa.offsetValue.toNat ∧ tbaa.offsetValue.toNat < d + c.sizeInBits.toNat / 8 ∧
        (tbaaResolver G fuel root tbaa).2.offsetValue.toNat = tbaa.offsetValue.toNat - d) ↔
      ∃ d t, (tbaa.baseTy.firstFields c.structName).getLast?.map Prod.fst = some t ∧
        tbaa.baseTy.OccursAt d t ∧
        d ≤ tbaa.offsetValue.toNat ∧ tbaa.offsetValue.toNat < d + c.sizeInBits.toNat / 8 ∧
        (offsetSum (tbaa.baseTy.firstFields c.structName)).toNat = d := by
  obtain ⟨newBase, hlast, hresult⟩ := tbaaResolver_cases hroot hn hrebased
  rw [hresult]
  constructor
  · rintro ⟨d, hoccurs, hle, hlt, hoffset⟩
    exact ⟨d, newBase, hlast, hoccurs, hle, hlt, (toNat_sub_eq_iff hle).mp hoffset⟩
  · rintro ⟨d, t, ht, hoccurs, hle, hlt, hsum⟩
    obtain rfl : newBase = t := Option.some.inj (hlast.symm.trans ht)
    exact ⟨d, hoccurs, hle, hlt, (toNat_sub_eq_iff hle).mpr hsum⟩

end Rebase

/-! ### A record in a record in the base type -/

def innerComposite : DICompositeType (Fin 4) :=
  { tag := .structureType, name := "Inner", sizeInBits := 64, elements := [1] }

/-- `struct Inner { int *p; };` -/
def innerRecord : DIGraph (Fin 4) where
  node
    | 0 => .compositeType innerComposite
    | 1 => .derivedType { tag := .member, name := "p", sizeInBits := 64, baseType := some 2 }
    | 2 => .derivedType { tag := .pointerType, sizeInBits := 64, baseType := some 3 }
    | 3 => .basicType { name := "int", sizeInBits := 32, encoding := .signed }

/-- A scalar type is a field of the type that it refines. -/
def scalarNode (name : String) : TBAANode :=
  ⟨name, [(⟨"omnipotent char", [(⟨"Simple C/C++ TBAA", []⟩, 0)]⟩, 0)]⟩

def innerNode : TBAANode := ⟨"Inner", [(scalarNode "any pointer", 0)]⟩

/-- `struct Outer { int i; struct Mid { long l; struct Inner inner; } mid; };` -/
def outerNode : TBAANode :=
  ⟨"Outer", [(scalarNode "int", 0), (⟨"Mid", [(scalarNode "long", 0), (innerNode, 8)]⟩, 8)]⟩

/-- An access to `outer.mid.inner.p`. -/
def nestedAccess : TBAAHandle := ⟨outerNode, scalarNode "any pointer", 16, false⟩

lemma tbaaResolver_nestedAccess :
    (tbaaResolver innerRecord 6 (some 0) nestedAccess).2 =
      ⟨innerNode, scalarNode "any pointer", 8, false⟩ := rfl

lemma rebased_nestedAccess :
    (tbaaResolver innerRecord 6 (some 0) nestedAccess).2.baseTy ≠ nestedAccess.baseTy := by
  rw [tbaaResolver_nestedAccess]
  intro h
  exact absurd (congrArg TBAANode.name h) (by decide)

theorem rebase_same_byte_iff_nestedAccess :
    (∃ d, nestedAccess.baseTy.OccursAt d
          (tbaaResolver innerRecord 6 (some 0) nestedAccess).2.baseTy ∧
        d ≤ nestedAccess.offsetValue.toNat ∧
        nestedAccess.offsetValue.toNat < d + innerComposite.sizeInBits.toNat / 8 ∧
        (tbaaResolver innerRecord 6 (some 0) nestedAccess).2.offsetValue.toNat =
          nestedAccess.offsetValue.toNat - d) ↔
      ∃ d t, (nestedAccess.baseTy.firstFields "Inner").getLast?.map Prod.fst = some t ∧
        nestedAccess.baseTy.OccursAt d t ∧ d ≤ nestedAccess.offsetValue.toNat ∧
        nestedAccess.offsetValue.toNat < d + innerComposite.sizeInBits.toNat / 8 ∧
        (offsetSum (nestedAccess.baseTy.firstFields "Inner")).toNat = d :=
  rebase_same_byte_iff (.other rfl) rfl rebased_nestedAccess

/-- Only the offset of `inner` in `Mid` is subtracted, not that of `mid` in `Outer`. -/
theorem not_same_byte : ¬ ∀ (G : DIGraph (Fin 4)) (fuel : ℕ) (root : Option (Fin 4)) (n : Fin 4)
    (c : DICompositeType (Fin 4)) (tbaa : TBAAHandle), tbaa.accessIsPtr = true →
    G.LeadsTo (fun _ => false) root (some n) → G.node n = .compositeType c →
    (tbaaResolver G fuel root tbaa).2.baseTy ≠ tbaa.baseTy →
    ∃ d, tbaa.baseTy.OccursAt d (tbaaResolver G fuel root tbaa).2.baseTy ∧
      d ≤ tbaa.offsetValue.toNat ∧ tbaa.offsetValue.toNat < d + c.sizeInBits.toNat / 8 ∧
      (tbaaResolver G fuel root tbaa).2.offsetValue.toNat = tbaa.offsetValue.toNat - d := by
  intro h
  obtain ⟨d, hoccurs, hle, -, hoffset⟩ := h innerRecord 6 (some 0) 0 _ nestedAccess rfl
    (.other rfl) rfl rebased_nestedAccess
  rw [tbaaResolver_nestedAccess] at hoccurs hoffset
  have hoffset : 8 = 16 - d := hoffset
  -- the only occurrence is at 16
  have hplace : d = 16 := by
    simpa [nestedAccess, outerNode, innerNode, scalarNode, TBAANode.occursAt_cons_iff,
      TBAANode.not_occursAt_nil] using hoccurs
  omega

end Dimeta
