import Dimeta.Extract.Bytes

/-!
# Places behind pointers

A place is a variable, or a field that is reached through a chain of pointers, each of them a field
of the record that the one before it points to. A field is addressed by numbers or by bytes, or it
is the first one and needs no GEP at all. The type walk from the root of the chain to an access of
the place ends at the type that the place is declared with.
-/

set_option autoImplicit false

namespace Dimeta

variable {ι ν : Type}

namespace DIGraph

/-- The field `e` is declared as a pointer, of type `q`. -/
structure PointerField (G : DIGraph ι) (e q : ι) (d : DIDerivedType ι) : Prop where
  node : G.node e = .derivedType d
  isField : d.isField = true
  base : d.baseType = some q
  pointer : (G.node q).isPointerLike = true
  not_array : (G.node q).tag ≠ .arrayType

namespace PointerField

variable {G : DIGraph ι} {e q : ι} {d : DIDerivedType ι}

lemma isMember (h : G.PointerField e q d) : (G.node e).isMember = true := by
  have htag : d.tag = .member := by simpa using (Bool.and_eq_true_iff.mp h.isField).1
  rw [h.node, DINode.isMember, DINode.tag, htag]
  rfl

lemma not_composite (h : G.PointerField e q d) (c : DICompositeType ι) :
    G.node q ≠ .compositeType c := by
  intro hq
  have hpointer := h.pointer
  rw [hq] at hpointer
  cases hpointer

lemma isArrayMember (h : G.PointerField e q d) : G.isArrayMember e = .ok false := by
  rw [DIGraph.isArrayMember, if_pos h.isMember, h.node]
  show (deref d.baseType >>= _) = _
  rw [h.base]
  exact congrArg Except.ok (beq_eq_false_iff_ne.mpr h.not_array)

lemma isNonPointerMember (h : G.PointerField e q d) : isNonPointerMember G e = .ok false := by
  have hnonstatic : (G.node e).isNonStaticMember = true := by
    rw [h.node]
    exact DIDerivedType.isNonStaticMember_of_isField h.isField
  rw [Dimeta.isNonPointerMember, if_pos hnonstatic, h.node]
  show (deref d.baseType >>= _) = _
  rw [h.base]
  show Except.ok (!(G.node q).isPointerLike) = _
  rw [h.pointer]
  rfl

end PointerField

/-- The loop of `desugar` ends on a chain that can be walked. -/
lemma desugarLoop_of_walk [DecidableEq ι] {G : DIGraph ι} {fuel : ℕ} {visited : Finset ι} {n : ι}
    {w : Walk ι} (hw : G.walk fuel visited n = some w) (level reached : ℕ) :
    ∀ fuel', fuel < fuel' → ∃ u, G.desugarLoop level fuel' reached (some n) = .ok u := by
  induction fuel generalizing visited n w reached with
  | zero => cases hw
  | succ fuel ih =>
    intro fuel' hlt
    obtain ⟨fuel', rfl⟩ := Nat.exists_eq_succ_of_ne_zero (by omega : fuel' ≠ 0)
    cases hnode : G.node n with
    | derivedType d =>
      simp only [desugarLoop, hnode]
      split
      · exact ⟨_, rfl⟩
      · obtain ⟨base, -, hbase⟩ := DIGraph.walk_derived hnode hw
        cases hd : d.baseType with
        | none =>
          obtain ⟨fuel', rfl⟩ := Nat.exists_eq_succ_of_ne_zero (by omega : fuel' ≠ 0)
          exact ⟨none, rfl⟩
        | some s =>
          rw [hd] at hbase
          exact ih hbase.of_some _ fuel' (by omega)
    | _ =>
      simp only [desugarLoop, hnode]
      exact ⟨_, rfl⟩

end DIGraph

/-! ### Addresses of fields -/

section

variable [DecidableEq ι] (G : LayoutGraph ι) (M : IRModule ι ν)

/-- The GEP `v`, on a pointer to a record or on a record of type `t`, addresses the field `e`. -/
inductive Addresses (t : ι) (v : ν) (gep : GEPOperator ν) (e : ι) : Prop
  | numbers {n r : ι} {c : DICompositeType ι} {is : List ℤ} (hroot : G.RecordRoot t n c)
      (hpath : G.MemberPath c (is.map UInt64.ofInt) e r) (hgep : FieldGep M v gep is)
  | bytes {n : ι} {c : DICompositeType ι} {d : DIDerivedType ι} {ks : List UInt64} {b : ℕ} {k : ℤ}
      (hroot : G.RecordRoot t n c) (hdirect : G.baseIsPointer t = .ok false) (hlaid : G.LaidOut n)
      (hfield : G.FieldAt 0 n ks b e d)
      (hbyte : b ≤ (UInt64.ofInt k).toNat ∧ (UInt64.ofInt k).toNat < b + d.byteSize)
      (hstray : G.StrayFree n (UInt64.ofInt k).toNat) (hgep : ByteGep M v gep k)

/-- Behind the pointer `w` of type `t`, the address `g` is that of a field of type `q`. The values
are what is computed from the pointer to the address, latest first; the address of the first field
of a record is that of the record. -/
inductive FieldBehind (t : ι) (w : ν) : ν → List ν → ι → Prop
  | gep {v : ν} {gep : GEPOperator ν} {e q : ι} {d : DIDerivedType ι}
      (hv : Addresses G M t v gep e) (hoperand : gep.pointerOperand = w)
      (he : G.PointerField e q d) : FieldBehind t w v [v] q
  | first {n e q : ι} {c : DICompositeType ι} {d : DIDerivedType ι} {ks : List UInt64}
      {direct : Bool} (hw : IsPlain M w) (ht : G.PointsTo n 1 direct t)
      (hn : G.node n = .compositeType c) (hlaid : G.LaidOut n) (hfield : G.FieldAt 0 n ks 0 e d)
      (hsize : 0 < d.byteSize) (hstray : G.StrayFree n 0) (he : G.PointerField e q d) :
      FieldBehind t w w [] q

/-- The pointer `w`, of type `s`, is computed from the root by the values `ws`, latest first. The
address of a variable counts as a pointer of the type of the variable. -/
inductive PointerFrom (root : ν) (t : ι) : ν → List ν → ι → Prop
  | root : PointerFrom root t root [root] t
  | slot {v : ν} (hroot : (M.value root).isSlot = true) (hv : M.value v = .load root) :
      PointerFrom root t v [v, root] t
  | field {v w g : ν} {vs ws : List ν} {s q : ι} (hw : PointerFrom root t w ws s)
      (hg : FieldBehind G M s w g vs q) (hv : M.value v = .load g) :
      PointerFrom root t v (v :: (vs ++ ws)) q

/-- The address `g` is that of a place declared with type `q`: the variable that the root is, or a
field behind a pointer from the root. -/
inductive Place (root : ν) (t : ι) : ν → List ν → ι → Prop
  | slot (hroot : (M.value root).isSlot = true) : Place root t root [root] t
  | field {w g : ν} {vs ws : List ν} {s q : ι} (hw : PointerFrom G M root t w ws s)
      (hg : FieldBehind G M s w g vs q) : Place root t g (vs ++ ws) q

end

section Addresses

variable [DecidableEq ι] [DecidableEq ν] {G : LayoutGraph ι} {M : IRModule ι ν} {t e q : ι} {v : ν}
  {gep : GEPOperator ν} {d : DIDerivedType ι}

omit [DecidableEq ν] in
lemma Addresses.value (h : Addresses G M t v gep e) :
    M.value v = .getElementPtr gep ∨ M.value v = .constantGEP gep := by
  cases h with
  | numbers _ _ hgep => exact hgep.value
  | bytes _ _ _ _ _ _ hgep => exact hgep.value

omit [DecidableEq ν] in
lemma Addresses.not_descriptor (h : Addresses G M t v gep e) :
    isFortranDescriptor gep.sourceElementType = false := by
  cases h with
  | numbers _ _ hgep => exact hgep.descriptor
  | bytes _ _ _ _ _ _ hgep =>
    rw [hgep.byte]
    rfl

omit [DecidableEq ν] in
lemma Addresses.constIndices (h : Addresses G M t v gep e) : gep.hasNonConstIndices = false := by
  cases h with
  | numbers _ _ hgep =>
    rw [GEPOperator.hasNonConstIndices, hgep.struct.index_eq]
    simp
  | bytes _ _ _ _ _ _ hgep =>
    rw [GEPOperator.hasNonConstIndices, hgep.index_eq]
    rfl

/-- The walk is at the field after the GEP. -/
lemma Addresses.resetDitype (h : Addresses G M t v gep e) (he : G.PointerField e q d) :
    ∃ fuel, ∀ fuel', fuel ≤ fuel' → ∀ path,
      resetDitype G.toDIGraph M fuel' path (some t) v = .ok (some e) := by
  cases h with
  | numbers hroot hpath hgep =>
    obtain ⟨fuel, hfuel⟩ := extract_of_path hroot hgep hpath
    exact ⟨fuel, fun fuel' hle => (hfuel fuel' hle).2⟩
  | bytes hroot hdirect hlaid hfield hbyte hstray hgep =>
    obtain rfl := DINode.derivedType.inj (he.node.symm.trans hfield.node)
    have hinnermost := hfield.innermost hlaid he.base hbyte
      fun c hc => absurd hc (he.not_composite c)
    obtain ⟨fuel, hfuel⟩ := extract_of_byteGep hroot hdirect hgep
      (G.memberAt_of_innermost hlaid hroot.node hstray hinnermost)
    exact ⟨fuel, fun fuel' hle => (hfuel fuel' hle).2⟩

omit [DecidableEq ν] in
/-- A GEP is nothing but a GEP. -/
lemma Addresses.accessTo (h : Addresses G M t v gep e) (kind : LLValue ι ν → Bool)
    (hgep : kind (.getElementPtr gep) = false) (hconstant : kind (.constantGEP gep) = false) :
    accessTo M kind v = false := by
  rw [Dimeta.accessTo, getOperandTo]
  rcases h.value with hv | hv
  · rw [hv, hgep]
    rfl
  · rw [hv, hconstant]
    rfl

/-- A load of the field is of its declared type. -/
lemma Addresses.resetLoad (h : Addresses G M t v gep e) (he : G.PointerField e q d) (fuel : ℕ)
    {path : ValuePath ν} {load : ν} (hstart : path.startValue ≠ some load) :
    resetLoadRelatedBasic G.toDIGraph M fuel path (some e) load v = .ok (some q) := by
  have hdescriptor : loadOfDescriptor M v = false := by
    rw [loadOfDescriptor, getOperandTo]
    rcases h.value with hv | hv
    · rw [hv]
      exact h.not_descriptor
    · rw [hv]
      rfl
  have helement : arrayMemberElement G.toDIGraph e = .ok none := by
    rw [arrayMemberElement, he.isArrayMember]
    rfl
  have hloads : loadsFirstMember G.toDIGraph M path e load v = false := by
    rw [loadsFirstMember, he.isMember, beq_eq_false_iff_ne.mpr hstart]
    rfl
  rw [resetLoadRelatedBasic, h.accessTo LLValue.isSlot rfl rfl, hdescriptor]
  show (arrayMemberElement G.toDIGraph e >>= _) = _
  rw [helement, ok_bind, hloads, he.node]
  exact congrArg Except.ok he.base

omit [DecidableEq ν] in
/-- Whatever is behind the field, a store to it is none to the first member of that. -/
lemma Addresses.storeToFirstMember [Fintype ι] (h : Addresses G M t v gep e)
    (he : G.PointerField e q d) : ∃ fuel, ∀ fuel', fuel ≤ fuel' →
      storeToFirstMember G.toDIGraph M fuel' e v = .ok none := by
  obtain ⟨fuel, w, hw⟩ := DIGraph.hasWalk_of_cyclesPassRecords G.cycles_pass_records ∅ e
  refine ⟨fuel + 1, fun fuel' hle => ?_⟩
  have hnonconst : storeToArrayGep M v = false := by
    rw [storeToArrayGep, getOperandTo]
    rcases h.value with hv | hv
    · rw [hv]
      exact h.constIndices
    · rw [hv]
      rfl
  obtain ⟨u, hu⟩ := DIGraph.desugarLoop_of_walk hw 1 0 fuel' (by omega)
  rw [Dimeta.storeToFirstMember, DIGraph.desugar, hu, ok_bind]
  show (Except.ok (u.bind G.composite) >>= _) = _
  cases hcomposite : u.bind G.composite with
  | none =>
    rw [ok_bind]
    simp only [he.isNonPointerMember, ok_bind]
    rfl
  | some x =>
    rw [ok_bind]
    simp only [he.isNonPointerMember, ok_bind, hnonconst, h.accessTo LLValue.isArgument rfl rfl,
      h.accessTo LLValue.isLoad rfl rfl]
    rfl

omit [DecidableEq ν] in
/-- A store to the field is of its declared type. -/
lemma Addresses.resetStore (h : Addresses G M t v gep e) (he : G.PointerField e q d) {fuel : ℕ}
    (hfirst : Dimeta.storeToFirstMember G.toDIGraph M fuel e v = .ok none) :
    resetStoreRelatedBasic G.toDIGraph M fuel (some e) v = .ok (some q) := by
  have hnonstatic : (G.node e).isNonStaticMember = true := by
    rw [he.node]
    exact DIDerivedType.isNonStaticMember_of_isField he.isField
  rw [resetStoreRelatedBasic, h.accessTo LLValue.isSlot rfl rfl]
  simp only [Bool.false_eq_true, if_false, deref, ok_bind, he.isArrayMember, hfirst, he.node,
    DINode.asDerived]
  rw [he.node] at hnonstatic
  rw [if_pos hnonstatic]
  exact congrArg Except.ok he.base

end Addresses

/-! ### Accesses -/

section Accesses

variable [DecidableEq ι] [DecidableEq ν] {G : LayoutGraph ι} {M : IRModule ι ν} {t q : ι} {w g : ν}
  {vs : List ν}

/-- The first field of a record is found behind a pointer to the record. -/
lemma DIGraph.PointsTo.memberAt_first {n e : ι} {c : DICompositeType ι} {d : DIDerivedType ι}
    {ks : List UInt64} {direct : Bool} (ht : G.PointsTo n 1 direct t)
    (hn : G.node n = .compositeType c) (hlaid : G.LaidOut n) (hfield : G.FieldAt 0 n ks 0 e d)
    (hsize : 0 < d.byteSize) (hstray : G.StrayFree n 0) (he : G.PointerField e q d) :
    ∃ fuel, ∀ fuel', fuel ≤ fuel' → G.desugar fuel' t = .ok (some (n, c)) ∧
      G.memberAt fuel' n c 0 = .ok (some ⟨e, q⟩) := by
  obtain ⟨fuel, hdesugar⟩ := ht.desugar hn
  have hinnermost := hfield.innermost hlaid he.base (x := 0) ⟨le_rfl, by omega⟩
    fun c hc => absurd hc (he.not_composite c)
  obtain ⟨fuel₁, hmember⟩ := G.memberAt_of_innermost hlaid hn (b := 0) hstray hinnermost
  refine ⟨max fuel fuel₁, fun fuel' hle => ⟨?_, hmember fuel' (le_of_max_le_right hle)⟩⟩
  rw [hdesugar fuel' (le_of_max_le_left hle)]
  rfl

lemma resetAlong_singleton (fuel : ℕ) (path : ValuePath ν) (type : Option ι) (v : ν) :
    resetAlong G.toDIGraph M fuel path type [v] =
      resetDitype G.toDIGraph M fuel path type v :=
  resetAlong_snoc G.toDIGraph M fuel path type [] v

omit [DecidableEq ν] in
lemma FieldBehind.exists_pointerField (h : FieldBehind G M t w g vs q) :
    ∃ e d, G.PointerField e q d := by
  cases h with
  | gep _ _ he => exact ⟨_, _, he⟩
  | first _ _ _ _ _ _ _ he => exact ⟨_, _, he⟩

/-- A load of a field behind a pointer is of the declared type of the field. -/
lemma FieldBehind.load (h : FieldBehind G M t w g vs q) :
    ∃ u fuel, ∀ fuel', fuel ≤ fuel' → ∀ path : ValuePath ν,
      resetAlong G.toDIGraph M fuel' path (some t) vs.reverse = .ok (some u) ∧
        ∀ load, M.value load = .load g → path.startValue ≠ some load →
          resetDitype G.toDIGraph M fuel' path (some u) load = .ok (some q) := by
  cases h with
  | @gep v gep e _ d hv hoperand he =>
    obtain ⟨fuel, hfuel⟩ := hv.resetDitype he
    refine ⟨e, fuel, fun fuel' hle path => ⟨?_, fun load hload hstart => ?_⟩⟩
    · exact (resetAlong_singleton fuel' path (some t) g).trans (hfuel fuel' hle path)
    · rw [resetDitype, hload]
      exact hv.resetLoad he fuel' hstart
  | first hw ht hn hlaid hfield hsize hstray he =>
    obtain ⟨fuel, hfuel⟩ := ht.memberAt_first hn hlaid hfield hsize hstray he
    refine ⟨t, fuel, fun fuel' hle path => ⟨rfl, fun load hload _ => ?_⟩⟩
    obtain ⟨hdesugar, hmember⟩ := hfuel fuel' hle
    have hfirst : tryResolveToFirstMember G.toDIGraph fuel' t = .ok (some q) := by
      rw [tryResolveToFirstMember, hdesugar]
      show (G.memberAt fuel' _ _ 0 >>= _) = _
      rw [hmember]
      rfl
    rw [resetDitype, hload]
    exact resetLoad_of_plain (ht.not_member one_ne_zero).1 hfirst hw path load

/-- A store to a field behind a pointer is of the declared type of the field: the pointer is taken
for one to the first member, or the field is addressed itself. -/
lemma FieldBehind.store [Fintype ι] (h : FieldBehind G M t w g vs q) :
    ∃ u fuel, ∀ fuel', fuel ≤ fuel' →
      (∀ path : ValuePath ν,
        resetAlong G.toDIGraph M fuel' path (some t) vs.reverse = .ok (some u)) ∧
      resetStoreRelatedBasic G.toDIGraph M fuel' (some u) g = .ok (some q) ∧
      (storeToFirstMember G.toDIGraph M fuel' u g = .ok none ∨
        ∃ n c e d, G.desugar fuel' u = .ok (some (n, c)) ∧
          G.memberAt fuel' n c 0 = .ok (some ⟨e, q⟩) ∧ G.PointerField e q d) := by
  cases h with
  | @gep v gep e _ d hv hoperand he =>
    obtain ⟨fuel, hfuel⟩ := hv.resetDitype he
    obtain ⟨fuel₁, hfuel₁⟩ := hv.storeToFirstMember he
    refine ⟨e, max fuel fuel₁, fun fuel' hle => ?_⟩
    have hfirst := hfuel₁ fuel' (le_of_max_le_right hle)
    refine ⟨fun path => ?_, hv.resetStore he hfirst, .inl hfirst⟩
    exact (resetAlong_singleton fuel' path (some t) g).trans
      (hfuel fuel' (le_of_max_le_left hle) path)
  | first hw ht hn hlaid hfield hsize hstray he =>
    obtain ⟨fuel, hfuel⟩ := ht.memberAt_first hn hlaid hfield hsize hstray he
    refine ⟨t, fuel, fun fuel' hle => ?_⟩
    obtain ⟨hdesugar, hmember⟩ := hfuel fuel' hle
    obtain ⟨hnotMember, hnotArray, hnonstatic⟩ := ht.not_member one_ne_zero
    have hnonPointer : isNonPointerMember G.toDIGraph t = .ok false := by
      rw [isNonPointerMember, hnonstatic]
      rfl
    have hfirst : storeToFirstMember G.toDIGraph M fuel' t w = .ok (some q) := by
      have haccess := hw.accessTo_isArgument_or_isLoad
      rw [storeToFirstMember, hdesugar, ok_bind]
      simp only [hnonPointer, ok_bind]
      rw [Bool.false_or, Bool.or_assoc, haccess, Bool.or_true, if_pos rfl]
      show (G.memberAt fuel' _ _ 0 >>= _) = _
      rw [hmember]
      rfl
    exact ⟨fun path => rfl, resetStore_of_plain hnotMember hnotArray hfirst hw,
      .inr ⟨_, _, _, _, hdesugar, hmember, he⟩⟩

end Accesses

/-! ### Walks from the root -/

section Walks

variable [DecidableEq ι] [DecidableEq ν] {G : LayoutGraph ι} {M : IRModule ι ν} {root : ν} {t : ι}

/-- A root whose type is declared and is not reset: an argument, or the slot of a variable. -/
def IsRoot (M : IRModule ι ν) (root : ν) : Prop :=
  (∃ parent argNo structRet, M.value root = .argument parent argNo structRet) ∨
    (M.value root).isSlot = true

lemma IsRoot.resetDitype (h : IsRoot M root) (fuel : ℕ) (path : ValuePath ν) :
    resetDitype G.toDIGraph M fuel path (some t) root = .ok (some t) := by
  rw [Dimeta.resetDitype]
  rcases h with ⟨_, _, _, hv⟩ | hslot
  · rw [hv]
  · cases hv : M.value root with
    | getElementPtr _ | constantGEP _ | load _ | store _ _ => rw [hv] at hslot; cases hslot
    | _ => rfl

lemma resetAlong_append (fuel : ℕ) (path : ValuePath ν) (type : Option ι) (vs ws : List ν) :
    resetAlong G.toDIGraph M fuel path type (vs ++ ws) =
      resetAlong G.toDIGraph M fuel path type vs >>= fun type =>
        resetAlong G.toDIGraph M fuel path type ws := by
  rw [resetAlong, List.foldlM_append]
  rfl

/-- Up to a pointer, the walk is at the type of the pointer. -/
lemma PointerFrom.resetAlong {w : ν} {ws : List ν} {s : ι} (h : PointerFrom G M root t w ws s)
    (hroot : IsRoot M root) :
    ∃ fuel, ∀ fuel', fuel ≤ fuel' → ∀ path : ValuePath ν,
      (∀ v, path.startValue = some v → (M.value v).isLoad = false) →
      resetAlong G.toDIGraph M fuel' path (some t) ws.reverse = .ok (some s) := by
  induction h with
  | root =>
    refine ⟨0, fun fuel' _ path _ => ?_⟩
    exact (resetAlong_singleton fuel' path (some t) root).trans (hroot.resetDitype fuel' path)
  | @slot v hslot hv =>
    refine ⟨0, fun fuel' _ path _ => ?_⟩
    have hload : Dimeta.resetDitype G.toDIGraph M fuel' path (some t) v = .ok (some t) := by
      rw [Dimeta.resetDitype, hv]
      show resetLoadRelatedBasic G.toDIGraph M fuel' path (some t) v root = _
      rw [resetLoadRelatedBasic, accessTo_isSlot_of_isSlot hslot]
      rfl
    simp only [Dimeta.resetAlong, List.reverse_cons, List.reverse_nil, List.nil_append,
      List.cons_append, List.foldlM_cons, List.foldlM_nil, hroot.resetDitype, ok_bind, hload]
    rfl
  | @field v w g vs ws s q _ hg hv ih =>
    obtain ⟨fuel, hfuel⟩ := ih
    obtain ⟨u, fuel₁, hfuel₁⟩ := hg.load
    refine ⟨max fuel fuel₁, fun fuel' hle path hstart => ?_⟩
    have hne : path.startValue ≠ some v := by
      intro heq
      have hload := hstart v heq
      rw [hv] at hload
      cases hload
    obtain ⟨hvalues, hload⟩ := hfuel₁ fuel' (le_of_max_le_right hle) path
    rw [List.reverse_cons, List.reverse_append, resetAlong_snoc, resetAlong_append,
      hfuel fuel' (le_of_max_le_left hle) path hstart, ok_bind, hvalues, ok_bind]
    exact hload v hv hne

omit [DecidableEq ι] [DecidableEq ν] in
/-- A path that starts with a store does not start with a load. -/
lemma isLoad_startValue {store value g : ν} (hstore : M.value store = .store value g)
    (vs : List ν) :
    ∀ v, (ValuePath.mk (store :: vs)).startValue = some v → (M.value v).isLoad = false := by
  intro v hv
  obtain rfl := Option.some.inj hv
  rw [hstore]
  rfl

/-- The walk from the root of a place to a store to it ends at the type that the place is declared
with, however long the chain of pointers is. -/
lemma Place.type_of_store [Fintype ι] {g : ν} {vs : List ν} {q : ι} (h : Place G M root t g vs q)
    (hroot : IsRoot M root) {store value : ν} (hstore : M.value store = .store value g) :
    ∃ fuel, ∀ fuel', fuel ≤ fuel' →
      typeOfPath G.toDIGraph M fuel' ⟨store :: vs⟩ t = .ok (some q) := by
  cases h with
  | slot hslot =>
    refine ⟨0, fun fuel' _ => ?_⟩
    have hreset : Dimeta.resetDitype G.toDIGraph M fuel' ⟨[store, root]⟩ (some t) store =
        .ok (some t) := by
      rw [resetDitype, hstore]
      show resetStoreRelatedBasic G.toDIGraph M fuel' (some t) root = _
      rw [resetStoreRelatedBasic, accessTo_isSlot_of_isSlot hslot]
      rfl
    simp only [typeOfPath, resetAlong, List.reverse_cons, List.reverse_nil, List.nil_append,
      List.cons_append, List.foldlM_cons, List.foldlM_nil, hroot.resetDitype, ok_bind, hreset]
    rfl
  | @field w _ vs ws s _ hw hg =>
    obtain ⟨fuel, hfuel⟩ := hw.resetAlong hroot
    obtain ⟨u, fuel₁, hfuel₁⟩ := hg.store
    refine ⟨max fuel fuel₁, fun fuel' hle => ?_⟩
    obtain ⟨hvalues, hreset, -⟩ := hfuel₁ fuel' (le_of_max_le_right hle)
    rw [typeOfPath, List.reverse_cons, List.reverse_append, resetAlong_snoc, resetAlong_append,
      hfuel fuel' (le_of_max_le_left hle) _ (isLoad_startValue hstore _), ok_bind, hvalues, ok_bind,
      resetDitype, hstore]
    exact hreset

end Walks

end Dimeta
