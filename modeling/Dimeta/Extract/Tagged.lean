import Dimeta.DI.Closed
import Dimeta.Dataflow.Shapes
import Dimeta.Extract.Accesses

/-!
# The type walk with access tags

Where the library is built with `DIMETA_USE_TBAA`, the walk asks the tag of a load for the record
that it loads, and in the end the tag of the store that the path starts with. The pointer to the
virtual functions of a record is not taken for what is stored then; the tag says what is.

The type of a place stays the same: a tag that counts from the record of the field leads back to the
field.
-/

set_option autoImplicit false

namespace Dimeta

variable {ι ν : Type}

/-! ### The walk -/

namespace WithTBAA

section

variable (G : DIGraph ι) (M : IRModule ι ν) (tags : ν → Option TBAAHandle)

def isVptr (member : ι) : Bool := startsWithAnyOf (G.node member).name ["_vptr"]

variable [DecidableEq ι]

/-- The first member of the composite behind the type, if it is taken for what is stored. -/
def storedFirstMember (fuel : ℕ) (t : ι) (pointer : ν) :
    Except Fault (Option (StructMember ι)) := do
  match ← G.desugar fuel t with
  | none        =>
    let _ ← isNonPointerMember G t
    return none
  | some (n, c) =>
    if (← isNonPointerMember G t) || storeToArrayGep M pointer ||
        accessTo M LLValue.isArgument pointer || accessTo M LLValue.isLoad pointer then
      G.memberAt fuel n c 0
    else return none

/-- The pointer to the virtual functions is left to the tag. -/
def storeToFirstMember (fuel : ℕ) (t : ι) (pointer : ν) : Except Fault (Option ι) := do
  return (← storedFirstMember G M fuel t pointer).map fun m =>
    if isVptr G m.member then t else m.typeOfMember

def resetStoreRelatedBasic (fuel : ℕ) (type : Option ι) (pointer : ν) :
    Except Fault (Option ι) := do
  if accessTo M LLValue.isSlot pointer then return type
  else
    let t ← deref type
    if (G.node t).isArray then return (G.node t).typeRef
    else
      let arrayMember ← G.isArrayMember t
      match ← (if arrayMember then .ok none else storeToFirstMember G M fuel t pointer) with
      | some resolved => return some resolved
      | none =>
        match (G.node t).asDerived with
        | none   => return some t
        | some d =>
          match ← (if arrayMember then storeToArrayMember G d else .ok none) with
          | some resolved => return some resolved
          | none =>
            if (G.node t).isNonStaticMember then return d.baseType
            else storeToPointer G t d

/-- What is behind a pointer: the type by the tag, if that is a record. -/
def loadFrom (fuel : ℕ) (d : DIDerivedType ι) (load : ν) : Except Fault (Option ι) := do
  let base ← deref d.baseType
  if (G.node base).asComposite.isSome then
    return (← resolveTbaa G fuel (some base) (tags load)).getD (some base)
  else return some base

variable [DecidableEq ν]

def resetLoadRelatedBasic (fuel : ℕ) (path : ValuePath ν) (type : Option ι) (load pointer : ν) :
    Except Fault (Option ι) := do
  if accessTo M LLValue.isSlot pointer then return type
  else if loadOfDescriptor M pointer then return type
  else
    let t ← deref type
    match ← arrayMemberElement G t with
    | some underlyingType => return some underlyingType
    | none =>
      let first ← if loadsFirstMember G M path t load pointer then tryResolveToFirstMember G fuel t
        else .ok none
      match first with
      | some resolved => return some resolved
      | none =>
        match (G.node t).asDerived with
        | some d => loadFrom G tags fuel d load
        | none   => return some t

def resetDitype (fuel : ℕ) (path : ValuePath ν) (type : Option ι) (v : ν) :
    Except Fault (Option ι) :=
  match M.value v with
  | .load pointer    => resetLoadRelatedBasic G M tags fuel path type v pointer
  | .store _ pointer => resetStoreRelatedBasic G M fuel type pointer
  | _                => Dimeta.resetDitype G M fuel path type v

def resetAlong (fuel : ℕ) (path : ValuePath ν) (type : Option ι) (vs : List ν) :
    Except Fault (Option ι) :=
  vs.foldlM (resetDitype G M tags fuel path) type

/-- The type of a path whose root has the given type; the tag of the store that the path starts with
is asked last. -/
def typeOfPath (fuel : ℕ) (path : ValuePath ν) (root : ι) : Except Fault (Option ι) := do
  let type ← resetAlong G M tags fuel path (some root) path.pathToValue.reverse
  let start ← deref path.startValue
  match M.value start with
  | .store _ _ => return (← resolveTbaa G fuel type (tags start)).getD type
  | _          => return type

end

/-! ### Steps that no tag is asked for -/

section Steps

variable [DecidableEq ι] {G : DIGraph ι} {M : IRModule ι ν} {tags : ν → Option TBAAHandle}
  {fuel : ℕ} {t : ι} {pointer : ν}

lemma storeToFirstMember_eq_map : Dimeta.storeToFirstMember G M fuel t pointer =
    (storedFirstMember G M fuel t pointer).map (·.map (·.typeOfMember)) := by
  rw [Dimeta.storeToFirstMember, storedFirstMember]
  cases G.desugar fuel t with
  | error e => rfl
  | ok found =>
    cases found with
    | none =>
      rw [ok_bind, ok_bind]
      cases isNonPointerMember G t <;> rfl
    | some x =>
      rw [ok_bind, ok_bind]
      dsimp only
      cases isNonPointerMember G t with
      | error e => rfl
      | ok nonPointer =>
        rw [ok_bind, ok_bind]
        split
        · cases G.memberAt fuel x.1 x.2 0 <;> rfl
        · rfl

/-- Any other first member is stored to as in the walk without tags. -/
lemma storeToFirstMember_eq
    (h : ∀ m, storedFirstMember G M fuel t pointer = .ok (some m) → isVptr G m.member = false) :
    storeToFirstMember G M fuel t pointer = Dimeta.storeToFirstMember G M fuel t pointer := by
  rw [storeToFirstMember_eq_map, storeToFirstMember]
  cases hstored : storedFirstMember G M fuel t pointer with
  | error e => rfl
  | ok found =>
    cases found with
    | none => rfl
    | some m =>
      rw [ok_bind, Option.map_some, h m hstored]
      rfl

lemma resetStore_eq
    (h : ∀ m, storedFirstMember G M fuel t pointer = .ok (some m) → isVptr G m.member = false) :
    resetStoreRelatedBasic G M fuel (some t) pointer =
      Dimeta.resetStoreRelatedBasic G M fuel (some t) pointer := by
  rw [resetStoreRelatedBasic, Dimeta.resetStoreRelatedBasic]
  cases accessTo M LLValue.isSlot pointer with
  | true => rfl
  | false =>
    show (if (G.node t).isArray = true then _ else G.isArrayMember t >>= _) =
      if (G.node t).isArray = true then _ else G.isArrayMember t >>= _
    refine if_congr Iff.rfl rfl (bind_congr fun arrayMember => ?_)
    cases arrayMember with
    | true => rfl
    | false => exact congrArg (· >>= _) (storeToFirstMember_eq h)

lemma loadFrom_eq {d : DIDerivedType ι} {load : ν} {s : ι} (hbase : d.baseType = some s)
    (hs : (G.node s).asComposite = none) : loadFrom G tags fuel d load = .ok (some s) := by
  rw [loadFrom, hbase, deref, ok_bind, hs]
  rfl

variable [DecidableEq ν]

/-- Behind a load of anything else than a record no tag is asked. -/
lemma resetLoad_eq {path : ValuePath ν} {load : ν} {s : ι}
    (h : Dimeta.resetLoadRelatedBasic G M fuel path (some t) load pointer = .ok (some s))
    (hs : (G.node s).asComposite = none) :
    resetLoadRelatedBasic G M tags fuel path (some t) load pointer = .ok (some s) := by
  rw [Dimeta.resetLoadRelatedBasic] at h
  rw [resetLoadRelatedBasic]
  split
  · next hslot => rwa [if_pos hslot] at h
  · next hslot =>
    rw [if_neg hslot] at h
    split
    · next hdescriptor => rwa [if_pos hdescriptor] at h
    · next hdescriptor =>
      rw [if_neg hdescriptor] at h
      obtain ⟨t', ht', h⟩ := bind_eq_ok.mp h
      obtain rfl : t = t' := Except.ok.inj ht'
      obtain ⟨element, helement, h⟩ := bind_eq_ok.mp h
      rw [ht', ok_bind, helement, ok_bind]
      cases element with
      | some underlyingType => exact h
      | none =>
        dsimp only at h ⊢
        split at h
        · next hloads =>
          rw [if_pos hloads]
          obtain ⟨first, hfirst, h⟩ := bind_eq_ok.mp h
          rw [hfirst, ok_bind]
          cases first with
          | some resolved => exact h
          | none =>
            cases hd : (G.node t).asDerived with
            | none => rwa [hd] at h
            | some d =>
              rw [hd] at h
              exact loadFrom_eq (Except.ok.inj h) hs
        · next hloads =>
          rw [if_neg hloads]
          cases hd : (G.node t).asDerived with
          | none => rwa [hd] at h
          | some d =>
            rw [hd] at h
            exact loadFrom_eq (Except.ok.inj h) hs

end Steps

/-! ### The walk to a place -/

section Walks

variable [DecidableEq ι] [DecidableEq ν] {G : LayoutGraph ι} {M : IRModule ι ν}
  {tags : ν → Option TBAAHandle} {root : ν} {t : ι}

lemma resetAlong_append (fuel : ℕ) (path : ValuePath ν) (type : Option ι) (vs ws : List ν) :
    resetAlong G.toDIGraph M tags fuel path type (vs ++ ws) =
      resetAlong G.toDIGraph M tags fuel path type vs >>= fun type =>
        resetAlong G.toDIGraph M tags fuel path type ws := by
  rw [resetAlong, List.foldlM_append]
  rfl

lemma resetAlong_snoc (fuel : ℕ) (path : ValuePath ν) (type : Option ι) (vs : List ν) (v : ν) :
    resetAlong G.toDIGraph M tags fuel path type (vs ++ [v]) =
      resetAlong G.toDIGraph M tags fuel path type vs >>= fun type =>
        resetDitype G.toDIGraph M tags fuel path type v := by
  rw [resetAlong_append]
  congr
  funext type
  exact bind_pure _

lemma resetAlong_singleton (fuel : ℕ) (path : ValuePath ν) (type : Option ι) (v : ν) :
    resetAlong G.toDIGraph M tags fuel path type [v] =
      resetDitype G.toDIGraph M tags fuel path type v :=
  resetAlong_snoc fuel path type [] v

/-- The addresses of fields are walked as without tags. -/
lemma resetAlong_of_fieldBehind {w g : ν} {vs : List ν} {s q : ι}
    (h : FieldBehind G M s w g vs q) (fuel : ℕ) (path : ValuePath ν) (type : Option ι) :
    resetAlong G.toDIGraph M tags fuel path type vs.reverse =
      Dimeta.resetAlong G.toDIGraph M fuel path type vs.reverse := by
  cases h with
  | first => rfl
  | gep hv _ _ =>
    have hreset : resetDitype G.toDIGraph M tags fuel path type g =
        Dimeta.resetDitype G.toDIGraph M fuel path type g := by
      rw [resetDitype]
      rcases hv.value with hv | hv <;> rw [hv]
    rw [List.reverse_singleton, resetAlong_singleton, Dimeta.resetAlong_singleton, hreset]

lemma resetDitype_root (h : IsRoot M root) (fuel : ℕ) (path : ValuePath ν) :
    resetDitype G.toDIGraph M tags fuel path (some t) root = .ok (some t) := by
  rw [← h.resetDitype (G := G) fuel path, resetDitype]
  rcases h with ⟨_, _, _, hv⟩ | hslot
  · rw [hv]
  · cases hv : M.value root with
    | load _ | store _ _ => rw [hv] at hslot; cases hslot
    | _ => rfl

variable (tags) in
/-- No tag is asked on the way to a pointer, as no record is loaded. -/
lemma resetAlong_of_pointerFrom {w : ν} {ws : List ν} {s : ι} (h : PointerFrom G M root t w ws s)
    (hroot : IsRoot M root) :
    ∃ fuel, ∀ fuel', fuel ≤ fuel' → ∀ path : ValuePath ν,
      (∀ v, path.startValue = some v → (M.value v).isLoad = false) →
      resetAlong G.toDIGraph M tags fuel' path (some t) ws.reverse = .ok (some s) := by
  induction h with
  | root =>
    refine ⟨0, fun fuel' _ path _ => ?_⟩
    exact (resetAlong_singleton fuel' path (some t) root).trans (resetDitype_root hroot fuel' path)
  | @slot v hslot hv =>
    refine ⟨0, fun fuel' _ path _ => ?_⟩
    have hload : resetDitype G.toDIGraph M tags fuel' path (some t) v = .ok (some t) := by
      rw [resetDitype, hv]
      show resetLoadRelatedBasic G.toDIGraph M tags fuel' path (some t) v root = _
      rw [resetLoadRelatedBasic, accessTo_isSlot_of_isSlot hslot]
      rfl
    simp only [resetAlong, List.reverse_cons, List.reverse_nil, List.nil_append,
      List.cons_append, List.foldlM_cons, List.foldlM_nil, resetDitype_root hroot, ok_bind, hload]
    rfl
  | @field v w g vs ws s q _ hg hv ih =>
    obtain ⟨fuel, hfuel⟩ := ih
    obtain ⟨u, fuel₁, hfuel₁⟩ := hg.load
    obtain ⟨e, d, he⟩ := hg.exists_pointerField
    refine ⟨max fuel fuel₁, fun fuel' hle path hstart => ?_⟩
    have hne : path.startValue ≠ some v := by
      intro heq
      have hload := hstart v heq
      rw [hv] at hload
      cases hload
    obtain ⟨hvalues, hload⟩ := hfuel₁ fuel' (le_of_max_le_right hle) path
    have hplain := hload v hv hne
    rw [Dimeta.resetDitype, hv] at hplain
    have hnode : (G.node q).asComposite = none := by
      cases hq : G.node q with
      | compositeType c => exact absurd hq (he.not_composite c)
      | _ => rfl
    rw [List.reverse_cons, List.reverse_append, resetAlong_snoc, resetAlong_append,
      hfuel fuel' (le_of_max_le_left hle) path hstart, ok_bind, resetAlong_of_fieldBehind hg,
      hvalues, ok_bind, resetDitype, hv]
    exact resetLoad_eq hplain hnode

end Walks

/-! ### Records by their names -/

section Names

variable [DecidableEq ι] {G : DIGraph ι} {name : String}

/-- What is found is a composite of that name. -/
def IsNamed (G : DIGraph ι) (name : String) (found : Option (ι × DICompositeType ι)) : Prop :=
  ∀ n c, found = some (n, c) → G.node n = .compositeType c ∧ c.structName = name

omit [DecidableEq ι] in
lemma IsNamed.visitCompositeType {n : ι} {c : DICompositeType ι} (hn : G.node n = .compositeType c)
    {found : Option (ι × DICompositeType ι)} (h : IsNamed G name found) :
    IsNamed G name ((FindMatchingMember.visitor name).visitCompositeType n c found).2 := by
  simp only [FindMatchingMember.visitor]
  split
  · next hname =>
    intro n' c' heq
    obtain ⟨rfl, rfl⟩ := Prod.mk.inj (Option.some.inj heq)
    exact ⟨hn, hname⟩
  · exact h

omit [DecidableEq ι] in
lemma keepsAt_isNamed (G : DIGraph ι) (name : String) :
    (FindMatchingMember.visitor name).KeepsAt G Set.univ (IsNamed G name) where
  visitCompositeType _ _ _ hn _ h := h.visitCompositeType hn

/-- The search for a name comes to an end. -/
lemma exists_findCompositeWithName [Fintype ι] (hG : G.CyclesPassRecords) (name : String) {n : ι}
    {c : DICompositeType ι} (hn : G.node n = .compositeType c) :
    ∃ found, IsNamed G name found ∧
      ∃ fuel, ∀ fuel', fuel ≤ fuel' → findCompositeWithName G fuel' name n c = .ok found := by
  obtain ⟨fuel, w, hw⟩ := DIGraph.hasWalk_of_cyclesPassRecords hG ∅ n
  have hnone : IsNamed G name none := fun _ _ h => by cases h
  have hnamed := (keepsAt_isNamed G name).invokeIfAny DIGraph.closed_univ fuel n trivial
    ⟨∅, none⟩ _ hnone (DINodeVisitor.invokeIfAny_eq_run _ hw none)
  refine ⟨_, hnamed, fuel, fun fuel' hle => ?_⟩
  have hinvoke := DINodeVisitor.invokeIfAny_eq_run (FindMatchingMember.visitor name)
    (DIGraph.walk_mono (hle.trans (Nat.le_succ fuel')) hw) none
  simp only [DINodeVisitor.invokeIfAny, hn] at hinvoke
  rw [findCompositeWithName]
  simp only [hinvoke]

end Names

/-! ### The tag of a store -/

section Tags

variable [DecidableEq ι]

/-- Composites with a name are told apart by it. -/
def NamesIdentify (G : DIGraph ι) : Prop :=
  ∀ n n' c c', G.node n = .compositeType c → G.node n' = .compositeType c' →
    c.structName = c'.structName → c.structName ≠ "" → n = n'

/-- The byte `x` of the record `n` is in a field of type `q`. -/
def FieldOfType (G : DIGraph ι) (q n : ι) (x : ℕ) : Prop :=
  G.LaidOut n ∧ G.StrayFree n x ∧ ∃ ks b e d, G.FieldAt 0 n ks b e d ∧ G.PointerField e q d ∧
    b ≤ x ∧ x < b + d.byteSize

/-- The byte `x` is behind the end of the record `n`. -/
def BehindEnd (G : DIGraph ι) (n : ι) (x : ℕ) : Prop :=
  G.LaidOut n ∧ G.StrayFree n x ∧ ∀ c, G.node n = .compositeType c → c.byteSize ≤ x

/-- The tag of a store to a field of type `q`: there is none, or that of any pointer, or one that
counts from the record that the field is in. Where that record has a part with the name of the
record behind `q`, the access must not seem to be to another field of the latter. -/
inductive FieldTag (G : DIGraph ι) (q : ι) : Option TBAAHandle → Prop
  | untagged : FieldTag G q none
  | pointer {tbaa : TBAAHandle}
      (hsame : (tbaa.baseTy.same tbaa.accessTy && tbaa.accessIsPtr) = true) :
      FieldTag G q (some tbaa)
  | field {tbaa : TBAAHandle} {n : ι} {c : DICompositeType ι} (hn : G.node n = .compositeType c)
      (hname : c.structName = tbaa.baseName) (hnamed : tbaa.baseName ≠ "")
      (hfield : FieldOfType G q n tbaa.offsetValue.toNat)
      (hpart : ∀ m c' part offset, G.LeadsTo (fun _ => false) (some q) (some m) →
        G.node m = .compositeType c' →
        tbaaSubNodeMatchesName c'.structName tbaa.baseTy = (some part, offset) →
        FieldOfType G q m (tbaa.offsetValue - offset).toNat ∨
          BehindEnd G m (tbaa.offsetValue - offset).toNat) :
      FieldTag G q (some tbaa)

/-- A chain of types that can be walked leads somewhere. -/
lemma exists_leadsTo_of_walk {G : DIGraph ι} {fuel : ℕ} {visited : Finset ι} {n : ι} {w : Walk ι}
    (hw : G.walk fuel visited n = some w) : ∃ r, G.LeadsTo (fun _ => false) (some n) r := by
  induction fuel generalizing n w with
  | zero => cases hw
  | succ fuel ih =>
    cases hnode : G.node n with
    | derivedType d =>
      obtain ⟨base, -, hbase⟩ := DIGraph.walk_derived hnode hw
      cases hd : d.baseType with
      | none => exact ⟨none, .step hnode rfl (by rw [hd]; exact .null)⟩
      | some s =>
        rw [hd] at hbase
        obtain ⟨r, hr⟩ := ih hbase.of_some
        exact ⟨r, .step hnode rfl (by rw [hd]; exact hr)⟩
    | _ => exact ⟨some n, .other (by rw [hnode]; rfl)⟩

variable {G : LayoutGraph ι} {q n : ι} {c : DICompositeType ι}

lemma memberAt_of_fieldOfType {x : UInt64} (hn : G.node n = .compositeType c)
    (h : FieldOfType G.toDIGraph q n x.toNat) :
    ∃ e fuel, ∀ fuel', fuel ≤ fuel' → G.memberAt fuel' n c x = .ok (some ⟨e, q⟩) := by
  obtain ⟨hlaid, hstray, ks, b, e, d, hfield, he, hx⟩ := h
  have hinnermost := hfield.innermost hlaid he.base hx fun c hc => absurd hc (he.not_composite c)
  exact ⟨e, G.memberAt_of_innermost hlaid hn hstray hinnermost⟩

/-- What is found in a record is of the type, if anything is. -/
def OfType (q : ι) (found : Option (StructMember ι)) : Prop := ∀ m ∈ found, m.typeOfMember = q

lemma exists_memberAt {x : UInt64} (hn : G.node n = .compositeType c)
    (h : FieldOfType G.toDIGraph q n x.toNat ∨ BehindEnd G.toDIGraph n x.toNat) :
    ∃ found, OfType q found ∧
      ∃ fuel, ∀ fuel', fuel ≤ fuel' → G.memberAt fuel' n c x = .ok found := by
  rcases h with h | ⟨hlaid, hstray, hle⟩
  · obtain ⟨e, hmember⟩ := memberAt_of_fieldOfType hn h
    refine ⟨_, fun m hm => ?_, hmember⟩
    obtain rfl := Option.some.inj hm
    rfl
  · have hnone : OfType q none := fun m hm => by cases hm
    exact ⟨none, hnone, G.memberAt_of_le hlaid hn hstray (hle c hn)⟩

/-- The type at the tag, if there is any, and the type before. -/
lemma typeAtTag_eq {fuel : ℕ} {tbaa : TBAAHandle} {found : Option (StructMember ι)}
    (hmember : G.memberAt fuel n c tbaa.offsetValue = .ok found) (hfound : OfType q found)
    (name : String) :
    ∃ r, typeAtTag G.toDIGraph fuel (some q) name n c tbaa = .ok r ∧ r.getD (some q) = some q := by
  rw [typeAtTag]
  split
  · exact ⟨_, rfl, rfl⟩
  · rw [hmember]
    refine ⟨_, rfl, ?_⟩
    cases found with
    | none => rfl
    | some m => exact congrArg some (hfound m rfl)

/-- The composite that the tag refers to has a field of type `q` at the tag, or nothing. -/
lemma exists_matchBase [Fintype ι] (hnames : NamesIdentify G.toDIGraph) {tbaa : TBAAHandle}
    (hn : G.node n = .compositeType c) (hname : c.structName = tbaa.baseName)
    (hnamed : tbaa.baseName ≠ "") (hfield : FieldOfType G.toDIGraph q n tbaa.offsetValue.toNat)
    {m : ι} {c' : DICompositeType ι} (hm : G.node m = .compositeType c')
    (hpart : ∀ part offset, tbaaSubNodeMatchesName c'.structName tbaa.baseTy = (some part, offset) →
      FieldOfType G.toDIGraph q m (tbaa.offsetValue - offset).toNat ∨
        BehindEnd G.toDIGraph m (tbaa.offsetValue - offset).toNat) :
    ∃ fuel, ∀ fuel', fuel ≤ fuel' → ∃ base, matchBase G.toDIGraph fuel' m c' tbaa = .ok base ∧
      ∀ m' c'' tbaa', base = some ((m', c''), tbaa') →
        ∃ found, OfType q found ∧ G.memberAt fuel' m' c'' tbaa'.offsetValue = .ok found := by
  obtain ⟨e, fuel, hfuel⟩ := memberAt_of_fieldOfType hn hfield
  have hmember : OfType q (some ⟨e, q⟩) := fun x hx => by
    obtain rfl := Option.some.inj hx
    rfl
  have hidentify : ∀ m' c'', G.node m' = .compositeType c'' → c''.structName = tbaa.baseName →
      m' = n ∧ c'' = c := by
    intro m' c'' hm' hname'
    obtain rfl := hnames m' n c'' c hm' hn (hname'.trans hname.symm) (hname' ▸ hnamed)
    exact ⟨rfl, DINode.compositeType.inj (hm'.symm.trans hn)⟩
  by_cases hrefers : c'.structName = tbaa.baseName
  · -- the record behind `q` is that of the field
    obtain ⟨rfl, rfl⟩ := hidentify m c' hm hrefers
    refine ⟨fuel, fun fuel' hle => ⟨_, if_neg fun h => h.1 hrefers, ?_⟩⟩
    rintro m' c'' tbaa' ⟨⟩
    exact ⟨_, hmember, hfuel fuel' hle⟩
  · obtain ⟨found, hfound, fuel₁, hfuel₁⟩ :=
      exists_findCompositeWithName G.cycles_pass_records tbaa.baseName hm
    cases found with
    | some x =>
      -- the record of the field is somewhere behind `q`
      obtain ⟨hx, hxname⟩ := hfound x.1 x.2 rfl
      obtain ⟨hxn, hxc⟩ := hidentify x.1 x.2 hx hxname
      refine ⟨max fuel fuel₁, fun fuel' hle => ?_⟩
      rw [matchBase, if_pos ⟨hrefers, hnamed⟩, hfuel₁ fuel' (le_of_max_le_right hle), ok_bind]
      dsimp only
      split
      · exact ⟨none, rfl, fun _ _ _ h => by cases h⟩
      · refine ⟨_, rfl, ?_⟩
        rintro m' c'' tbaa' ⟨⟩
        rw [hxn, hxc]
        exact ⟨_, hmember, hfuel fuel' (le_of_max_le_left hle)⟩
    | none =>
      obtain ⟨⟨part, offset⟩, hsub⟩ : ∃ x, tbaaSubNodeMatchesName c'.structName tbaa.baseTy = x :=
        ⟨_, rfl⟩
      cases part with
      | none =>
        refine ⟨fuel₁, fun fuel' hle => ⟨none, ?_, fun _ _ _ h => by cases h⟩⟩
        rw [matchBase, if_pos ⟨hrefers, hnamed⟩, hfuel₁ fuel' hle, ok_bind]
        dsimp only
        rw [hsub]
        rfl
      | some part =>
        -- a part of the record of the field has the name of the record behind `q`
        obtain ⟨found, hfound, fuel₂, hfuel₂⟩ := exists_memberAt hm (hpart part offset hsub)
        refine ⟨max fuel₁ fuel₂, fun fuel' hle => ?_⟩
        rw [matchBase, if_pos ⟨hrefers, hnamed⟩, hfuel₁ fuel' (le_of_max_le_left hle), ok_bind]
        dsimp only
        rw [hsub]
        refine ⟨_, rfl, ?_⟩
        rintro m' c'' tbaa' ⟨⟩
        exact ⟨found, hfound, hfuel₂ fuel' (le_of_max_le_right hle)⟩

/-- The tag of a store to a field leads back to the type of the field, or it says nothing. -/
lemma resolveTbaa_of_fieldTag [Fintype ι] (hnames : NamesIdentify G.toDIGraph)
    {tag : Option TBAAHandle} (htag : FieldTag G.toDIGraph q tag) :
    ∃ fuel, ∀ fuel', fuel ≤ fuel' → ∃ r,
      resolveTbaa G.toDIGraph fuel' (some q) tag = .ok r ∧ r.getD (some q) = some q := by
  cases htag with
  | untagged => exact ⟨0, fun fuel' _ => ⟨_, rfl, rfl⟩⟩
  | pointer hsame => exact ⟨0, fun fuel' _ => ⟨_, if_pos hsame, rfl⟩⟩
  | @field tbaa n c hn hname hnamed hfield hpart =>
    by_cases hsame : (tbaa.baseTy.same tbaa.accessTy && tbaa.accessIsPtr) = true
    · exact ⟨0, fun fuel' _ => ⟨_, if_pos hsame, rfl⟩⟩
    obtain ⟨_, w, hw⟩ := DIGraph.hasWalk_of_cyclesPassRecords G.cycles_pass_records ∅ q
    obtain ⟨r, hleads⟩ := exists_leadsTo_of_walk hw
    obtain ⟨fuel, hfuel⟩ := hleads.find
    cases hcomposite : r.bind G.composite with
    | none =>
      refine ⟨fuel, fun fuel' hle => ⟨some (some q), ?_, rfl⟩⟩
      have hfind : G.findNonDerivedType fuel' (some q) = .ok r := hfuel fuel' hle
      simp only [resolveTbaa, if_neg hsame, tbaaResolver, hfind, hcomposite]
    | some x =>
      obtain ⟨m, c'⟩ := x
      obtain ⟨m', rfl, hm'⟩ := Option.bind_eq_some_iff.mp hcomposite
      obtain ⟨hm, rfl⟩ : G.node m' = .compositeType c' ∧ m' = m := by
        simp only [DIGraph.composite, Option.map_eq_some_iff, Prod.mk.injEq] at hm'
        obtain ⟨c, hc, rfl, rfl⟩ := hm'
        cases hnode : G.node m' <;> rw [hnode] at hc <;> cases hc
        exact ⟨rfl, rfl⟩
      obtain ⟨fuel₁, hfuel₁⟩ := exists_matchBase hnames hn hname hnamed hfield hm
        fun part offset hsub => hpart m' c' part offset hleads hm hsub
      refine ⟨max fuel fuel₁, fun fuel' hle => ?_⟩
      have hfind : G.findNonDerivedType fuel' (some q) = .ok (some m') :=
        hfuel fuel' (le_of_max_le_left hle)
      obtain ⟨base, hbase, hmember⟩ := hfuel₁ fuel' (le_of_max_le_right hle)
      simp only [resolveTbaa, if_neg hsame, tbaaResolver, hfind, hcomposite, hbase]
      cases base with
      | none => exact ⟨_, rfl, rfl⟩
      | some x =>
        obtain ⟨⟨n', c''⟩, tbaa'⟩ := x
        obtain ⟨found, hfound, hat⟩ := hmember n' c'' tbaa' rfl
        exact typeAtTag_eq hat hfound c'.structName

end Tags

/-! ### Stores to places -/

section Stores

variable [DecidableEq ι] [DecidableEq ν] {G : LayoutGraph ι} {M : IRModule ι ν}
  {tags : ν → Option TBAAHandle} {root store value g : ν} {t q : ι} {vs : List ν}

omit [DecidableEq ν] in
/-- The first member that is stored to is the one that is looked up. -/
lemma isVptr_of_stored {fuel : ℕ} {u : ι} {m : StructMember ι}
    (hvptr : ∀ e d, G.PointerField e q d → isVptr G.toDIGraph e = false)
    (h : Dimeta.storeToFirstMember G.toDIGraph M fuel u g = .ok none ∨
      ∃ n c e d, G.desugar fuel u = .ok (some (n, c)) ∧
        G.memberAt fuel n c 0 = .ok (some ⟨e, q⟩) ∧ G.PointerField e q d)
    (hm : storedFirstMember G.toDIGraph M fuel u g = .ok (some m)) :
    isVptr G.toDIGraph m.member = false := by
  rcases h with hnone | ⟨n, c, e, d, hdesugar, hmember, he⟩
  · rw [storeToFirstMember_eq_map, hm] at hnone
    cases hnone
  · rw [storedFirstMember, hdesugar, ok_bind] at hm
    obtain ⟨nonPointer, -, hm⟩ := bind_eq_ok.mp hm
    split at hm
    · obtain rfl := Option.some.inj (Except.ok.inj (hmember.symm.trans hm))
      exact hvptr e d he
    · cases hm

/-- A tag that says nothing leaves the type of the walk. -/
lemma typeOfPath_of_store {fuel : ℕ} {type : Option ι} {r : Option (Option ι)}
    (hstore : M.value store = .store value g)
    (hwalk : resetAlong G.toDIGraph M tags fuel ⟨store :: vs⟩ (some t) (store :: vs).reverse =
      .ok type)
    (hr : resolveTbaa G.toDIGraph fuel type (tags store) = .ok r) :
    typeOfPath G.toDIGraph M tags fuel ⟨store :: vs⟩ t = .ok (r.getD type) := by
  rw [typeOfPath, hwalk, ok_bind, ValuePath.startValue, List.head?_cons, deref, ok_bind, hstore]
  show (resolveTbaa G.toDIGraph fuel type (tags store) >>= _) = _
  rw [hr]
  rfl

/-- The walk with tags from the root of a place to a store to it ends at the declared type as well,
however long the chain of pointers is. -/
theorem tagged_walk_agrees [Fintype ι] (hplace : Place G M root t g vs q) (hroot : IsRoot M root)
    (hstore : M.value store = .store value g) (hnames : NamesIdentify G.toDIGraph)
    (hvptr : ∀ e d, G.PointerField e q d → isVptr G.toDIGraph e = false)
    (htag : FieldTag G.toDIGraph q (tags store)) :
    ∃ fuel, ∀ fuel', fuel ≤ fuel' →
      Dimeta.typeOfPath G.toDIGraph M fuel' ⟨store :: vs⟩ t = .ok (some q) ∧
        typeOfPath G.toDIGraph M tags fuel' ⟨store :: vs⟩ t =
          Dimeta.typeOfPath G.toDIGraph M fuel' ⟨store :: vs⟩ t := by
  have hwalk : ∃ fuel, ∀ fuel', fuel ≤ fuel' →
      resetAlong G.toDIGraph M tags fuel' ⟨store :: vs⟩ (some t) (store :: vs).reverse =
        .ok (some q) := by
    cases hplace with
    | slot hslot =>
      refine ⟨0, fun fuel' _ => ?_⟩
      have hreset : resetDitype G.toDIGraph M tags fuel' ⟨[store, root]⟩ (some t) store =
          .ok (some t) := by
        rw [resetDitype, hstore]
        show resetStoreRelatedBasic G.toDIGraph M fuel' (some t) root = _
        rw [resetStoreRelatedBasic, accessTo_isSlot_of_isSlot hslot]
        rfl
      have halong : resetAlong G.toDIGraph M tags fuel' ⟨[store, root]⟩ (some t) [root] =
          .ok (some t) :=
        (resetAlong_singleton fuel' _ (some t) root).trans (resetDitype_root hroot fuel' _)
      rw [List.reverse_cons, resetAlong_snoc, List.reverse_singleton, halong, ok_bind]
      exact hreset
    | @field w _ vs ws s _ hw hg =>
      obtain ⟨fuel, hfuel⟩ := resetAlong_of_pointerFrom tags hw hroot
      obtain ⟨u, fuel₁, hfuel₁⟩ := hg.store
      refine ⟨max fuel fuel₁, fun fuel' hle => ?_⟩
      obtain ⟨hvalues, hreset, hfirst⟩ := hfuel₁ fuel' (le_of_max_le_right hle)
      rw [List.reverse_cons, List.reverse_append, resetAlong_snoc, resetAlong_append,
        hfuel fuel' (le_of_max_le_left hle) _ (isLoad_startValue hstore _), ok_bind,
        resetAlong_of_fieldBehind hg, hvalues, ok_bind, resetDitype, hstore]
      exact (resetStore_eq fun m hm => isVptr_of_stored hvptr hfirst hm).trans hreset
  obtain ⟨fuel, hfuel⟩ := hplace.type_of_store hroot hstore
  obtain ⟨fuel₁, hfuel₁⟩ := hwalk
  obtain ⟨fuel₂, hfuel₂⟩ := resolveTbaa_of_fieldTag hnames htag
  refine ⟨max fuel (max fuel₁ fuel₂), fun fuel' hle => ?_⟩
  have hplain := hfuel fuel' (le_of_max_le_left hle)
  refine ⟨hplain, ?_⟩
  obtain ⟨r, hr, hget⟩ := hfuel₂ fuel' (le_of_max_le_right (le_of_max_le_right hle))
  rw [hplain, typeOfPath_of_store hstore
    (hfuel₁ fuel' (le_of_max_le_left (le_of_max_le_right hle))) hr, hget]

/-- Where a record starts with the pointer to its virtual functions, a store through a pointer to
the record is taken for one to that pointer; with tags it is one to the field that the tag says. -/
theorem tagged_store_behind_vptr [Fintype ι] {n s q₀ e₀ : ι} {w : ν} {ws : List ν} {direct : Bool}
    {c : DICompositeType ι} {d₀ : DIDerivedType ι} {ks : List UInt64} {tbaa : TBAAHandle}
    (hw : PointerFrom G M root t w ws s) (hroot : IsRoot M root) (hplain : IsPlain M w)
    (hs : G.PointsTo n 1 direct s) (hrecord : G.RecordRoot s n c) (hlaid : G.LaidOut n)
    (hfirst : G.FieldAt 0 n ks 0 e₀ d₀) (hsize : 0 < d₀.byteSize) (hstray : G.StrayFree n 0)
    (he₀ : G.PointerField e₀ q₀ d₀) (hvptr : isVptr G.toDIGraph e₀ = true)
    (hstore : M.value store = .store value w) (htag : tags store = some tbaa)
    (hname : c.structName = tbaa.baseName) (hnamed : c.structName ≠ "")
    (haccess : (tbaa.baseTy.same tbaa.accessTy && tbaa.accessIsPtr) = false)
    (hfield : FieldOfType G.toDIGraph q n tbaa.offsetValue.toNat) :
    ∃ fuel, ∀ fuel', fuel ≤ fuel' →
      Dimeta.typeOfPath G.toDIGraph M fuel' ⟨store :: ws⟩ t = .ok (some q₀) ∧
        typeOfPath G.toDIGraph M tags fuel' ⟨store :: ws⟩ t = .ok (some q) := by
  have hplace : Place G M root t w ([] ++ ws) q₀ :=
    .field hw (.first hplain hs hrecord.node hlaid hfirst hsize hstray he₀)
  obtain ⟨fuel, hfuel⟩ := hplace.type_of_store hroot hstore
  obtain ⟨fuel₁, hfuel₁⟩ := resetAlong_of_pointerFrom tags hw hroot
  obtain ⟨fuel₂, hfuel₂⟩ := hs.memberAt_first hrecord.node hlaid hfirst hsize hstray he₀
  obtain ⟨e, hmember⟩ := memberAt_of_fieldOfType hrecord.node hfield
  obtain ⟨fuel₃, hfuel₃⟩ := resolveTbaa_of_member hrecord hname hnamed haccess hmember
  refine ⟨max (max fuel fuel₁) (max fuel₂ fuel₃), fun fuel' hle => ⟨hfuel fuel' (by omega), ?_⟩⟩
  obtain ⟨hdesugar, hmember⟩ := hfuel₂ fuel' (by omega)
  obtain ⟨hnotMember, hnotArray, hnonstatic⟩ := hs.not_member one_ne_zero
  -- without tags the store is to the first member, the pointer to the virtual functions
  have hstored : storedFirstMember G.toDIGraph M fuel' s w = .ok (some ⟨e₀, q₀⟩) := by
    have hnonPointer : isNonPointerMember G.toDIGraph s = .ok false := by
      rw [isNonPointerMember, hnonstatic]
      rfl
    rw [storedFirstMember, hdesugar, ok_bind]
    simp only [hnonPointer, ok_bind]
    rw [Bool.false_or, Bool.or_assoc, hplain.accessTo_isArgument_or_isLoad, Bool.or_true,
      if_pos rfl]
    exact hmember
  -- with tags the type is left to the tag
  have hleft : storeToFirstMember G.toDIGraph M fuel' s w = .ok (some s) := by
    rw [storeToFirstMember, hstored, ok_bind, Option.map_some, if_pos hvptr]
    rfl
  have harrayMember : G.isArrayMember s = .ok false := by
    rw [DIGraph.isArrayMember, hnotMember]
    rfl
  have hreset : resetStoreRelatedBasic G.toDIGraph M fuel' (some s) w = .ok (some s) := by
    rw [resetStoreRelatedBasic, hplain.accessTo_isSlot]
    simp only [Bool.false_eq_true, if_false, deref, ok_bind, hnotArray, harrayMember, hleft]
    rfl
  have hwalk : resetAlong G.toDIGraph M tags fuel' ⟨store :: ws⟩ (some t) (store :: ws).reverse =
      .ok (some s) := by
    rw [List.reverse_cons, resetAlong_snoc, hfuel₁ fuel' (by omega) _ (isLoad_startValue hstore _),
      ok_bind, resetDitype, hstore]
    exact hreset
  have hresolve := hfuel₃ fuel' (by omega)
  rw [← htag] at hresolve
  rw [typeOfPath_of_store hstore hwalk hresolve]
  rfl

end Stores

/-! ### A tag of a linked record -/

/-- `node->next = p` -/
def storeToNext : IRModule (Fin 10) (Fin 4) where
  value
    | 0 => .argument { name := "f", subprogram := none } 0 false
    | 1 => .getElementPtr { sourceElementType := .struct [.integer 32,
                              .struct [.integer 32, .pointer], .pointer]
                            pointerOperand := 0
                            indices := [some 0, some 2]
                            dynamicOperands := [] }
    | 2 => .argument { name := "f", subprogram := none } 1 false
    | 3 => .store 2 1
  users
    | 0 => [1]
    | 1 => [3]
    | 2 => [3]
    | 3 => []
  mem_users := by decide
  debugLoc _ := none
  dbgRecords := []

def nextTag : TBAAHandle := { nodeTag with offsetValue := 24 }

/-- The member `next`. -/
def nextField : DIDerivedType (Fin 10) :=
  { tag := .member, name := "next", sizeInBits := 64, offsetInBits := 192, baseType := some 5 }

lemma fieldAt_next : linked.FieldAt 0 9 [2] 24 2 nextField := by
  have hnext : linked.FieldAt 0 9 [2] (0 + nextField.byteOffset) 2 nextField :=
    .field rfl plainRecord_linked.1 rfl rfl
  exact hnext

lemma pointerField_next : linked.PointerField 2 5 nextField := ⟨rfl, rfl, rfl, rfl, by decide⟩

lemma fieldOfType_next : FieldOfType linked 5 9 24 :=
  ⟨laidOut_linked, ⟨9, _, rfl, by decide⟩, _, _, _, _, fieldAt_next, pointerField_next, by decide,
    by decide⟩

lemma fieldTag_next : FieldTag linked 5 (some nextTag) := by
  refine .field (n := 9) rfl rfl (by decide) fieldOfType_next ?_
  intro m c part offset hleads hm hpart
  have hnode : linked.LeadsTo (fun _ => false) (some 5) (some 9) := .step rfl rfl (.other rfl)
  obtain rfl : (9 : Fin 10) = m := Option.some.inj (hnode.unique hleads)
  obtain rfl := DINode.compositeType.inj hm
  obtain ⟨-, rfl⟩ := Prod.mk.inj hpart
  exact .inl fieldOfType_next

theorem tagged_walk_agrees_next : ∃ fuel, ∀ fuel', fuel ≤ fuel' →
    Dimeta.typeOfPath linked storeToNext fuel' ⟨[3, 1, 0]⟩ 5 = .ok (some 5) ∧
      typeOfPath linked storeToNext (fun _ => some nextTag) fuel' ⟨[3, 1, 0]⟩ 5 =
        Dimeta.typeOfPath linked storeToNext fuel' ⟨[3, 1, 0]⟩ 5 := by
  have hpath : linked.MemberPath nodeRecord (([2] : List ℤ).map UInt64.ofInt) 2 5 :=
    fieldAt_next.memberPath ⟨_, rfl, .stop rfl rfl⟩ rfl
  have haddresses : Addresses linkedGraph storeToNext 5 1 _ 2 :=
    .numbers recordRoot_linked hpath
      ⟨.inl rfl, ⟨rfl, by simp, ⟨_, rfl⟩, rfl⟩, rfl⟩
  have hplace : Place linkedGraph storeToNext 0 5 1 ([1] ++ [0]) 5 :=
    .field .root (.gep haddresses rfl pointerField_next)
  refine tagged_walk_agrees hplace (.inl ⟨_, _, _, rfl⟩) rfl ?_ ?_ fieldTag_next
  · intro n n' c c' hn hn' hname _
    fin_cases n <;> cases hn <;> fin_cases n' <;> cases hn' <;>
      first | rfl | exact absurd hname (by decide)
  · have hvptr : ∀ e, isVptr linked e = false := by decide
    exact fun e _ _ => hvptr e

/-! ### A record with virtual functions -/

def tapeRecord : DICompositeType (Fin 9) :=
  { tag := .structureType, name := "Tape", sizeInBits := 128, elements := [0, 1] }

def vptrField : DIDerivedType (Fin 9) :=
  { tag := .member, name := "_vptr$Tape", sizeInBits := 64, baseType := some 3 }

def adjointsField : DIDerivedType (Fin 9) :=
  { tag := .member, name := "adjoints", sizeInBits := 64, offsetInBits := 64, baseType := some 5 }

/-- `struct Tape { virtual void f(); double *adjoints; };` -/
def tape : DIGraph (Fin 9) where
  node
    | 0 => .derivedType vptrField
    | 1 => .derivedType adjointsField
    | 2 => .derivedType { tag := .pointerType, sizeInBits := 64, baseType := some 8 }
    | 3 => .derivedType { tag := .pointerType, sizeInBits := 64, baseType := some 4 }
    | 4 => .derivedType { tag := .pointerType, name := "__vtbl_ptr_type", sizeInBits := 64,
                          baseType := some 6 }
    | 5 => .derivedType { tag := .pointerType, sizeInBits := 64, baseType := some 7 }
    | 6 => .subroutineType
    | 7 => .basicType { name := "double", sizeInBits := 64, encoding := .float }
    | 8 => .compositeType tapeRecord

def tapeGraph : LayoutGraph (Fin 9) where
  toDIGraph := tape
  well_typed :=
    { refers_to_types := by
        intro n t h
        fin_cases n <;> simp [tape, tapeRecord, vptrField, adjointsField, DINode.typeRef] at h <;>
          subst h <;> decide
      members_have_types := by decide }
  members_owned := by
    intro n n' c c' e h h' _ he he'
    fin_cases n <;> simp [tape] at h
    fin_cases n' <;> simp [tape] at h'
    rfl
  cycles_pass_records := by
    refine DIGraph.cyclesPassRecords_of_lt fun a b h => ?_
    fin_cases a <;>
      simp [DIGraph.PlainStep, tape, tapeRecord, vptrField, adjointsField] at h <;>
      subst h <;> decide

lemma laidOut_tape : tape.LaidOut 8 := by
  refine .record rfl rfl rfl ?_ ?_
  · refine .field (e := 0) (t := 3) rfl rfl rfl (.inl rfl) (by decide) (by decide) ?_
    exact .field (e := 1) (t := 5) rfl rfl rfl (.inl rfl) (by decide) (by decide) .nil
  · rintro t ⟨c, e, d, c', hc, he, hd, ht, hc', -⟩
    obtain rfl := DINode.compositeType.inj hc
    rcases (by simpa [tapeRecord] using he : e = 0 ∨ e = 1) with rfl | rfl <;>
    · obtain rfl := DINode.derivedType.inj hd
      obtain rfl := Option.some.inj ht
      cases hc'

lemma fieldAt_tape :
    tape.FieldAt 0 8 [0] 0 0 vptrField ∧ tape.FieldAt 0 8 [1] 8 1 adjointsField := by
  have hplain : tape.PlainRecord tapeRecord [0, 1] := by
    refine ⟨⟨[], rfl, fun e he => by cases he⟩, fun e he => ?_, ?_⟩
    · fin_cases he <;> exact ⟨_, rfl, rfl⟩
    · simp [tape, vptrField, adjointsField]
  have hvptr : tape.FieldAt 0 8 [0] (0 + vptrField.byteOffset) 0 vptrField :=
    .field rfl hplain rfl rfl
  have hadjoints : tape.FieldAt 0 8 [1] (0 + adjointsField.byteOffset) 1 adjointsField :=
    .field rfl hplain rfl rfl
  exact ⟨hvptr, hadjoints⟩

lemma strayFree_tape : tape.StrayFree 8 0 ∧ tape.StrayFree 8 8 :=
  ⟨⟨9, _, rfl, by decide⟩, ⟨9, _, rfl, by decide⟩⟩

/-- `*this = p`, where the GEP to `adjoints` is missing. -/
def storeToThis : IRModule (Fin 9) (Fin 3) where
  value
    | 0 => .argument { name := "resize", subprogram := none } 0 false
    | 1 => .argument { name := "resize", subprogram := none } 1 false
    | 2 => .store 1 0
  users
    | 0 => [2]
    | 1 => [2]
    | 2 => []
  mem_users := by decide
  debugLoc _ := none
  dbgRecords := []

/-- The tag of an access to `adjoints`. -/
def adjointsTag : TBAAHandle where
  baseTy := ⟨"Tape", [(scalarNode "vtable pointer", 0), (scalarNode "any pointer", 8)]⟩
  accessTy := scalarNode "any pointer"
  offsetValue := 8
  globPointerPattern := false

theorem tagged_store_behind_vptr_adjoints : ∃ fuel, ∀ fuel', fuel ≤ fuel' →
    Dimeta.typeOfPath tape storeToThis fuel' ⟨[2, 0]⟩ 2 = .ok (some 3) ∧
      typeOfPath tape storeToThis (fun _ => some adjointsTag) fuel' ⟨[2, 0]⟩ 2 = .ok (some 5) := by
  have hroot : tape.RecordRoot 2 8 tapeRecord :=
    { leads := .step rfl rfl (.other rfl), node := rfl, complete := rfl, record := rfl }
  have hadjoints : FieldOfType tape 5 8 8 :=
    ⟨laidOut_tape, strayFree_tape.2, _, _, _, _, fieldAt_tape.2, ⟨rfl, rfl, rfl, rfl, by decide⟩,
      by decide, by decide⟩
  have hthis : tape.PointsTo 8 1 true 2 := .pointer rfl rfl (by decide) rfl (.record rfl)
  exact tagged_store_behind_vptr (G := tapeGraph) .root (.inl ⟨_, _, _, rfl⟩)
    (.inl ⟨_, _, _, rfl⟩) hthis hroot laidOut_tape fieldAt_tape.1 (by decide) strayFree_tape.1
    ⟨rfl, rfl, rfl, rfl, by decide⟩ (by decide) rfl rfl rfl (by decide) rfl hadjoints

end WithTBAA

end Dimeta
