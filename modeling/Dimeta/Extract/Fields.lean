import Mathlib.Tactic.FinCases
import Dimeta.DI.Search
import Dimeta.Extract.Chains

/-!
# Fields and elements

The fields of an LLVM struct are numbered without static members, the elements of a composite with
them. A field index is applied to the elements, and static members are passed from there on.
-/

set_option autoImplicit false

namespace Dimeta

variable {ι : Type} {G : DIGraph ι}

/-! ### Numbering the elements that satisfy a predicate -/

section Numbering

variable {α : Type} (p : α → Bool)

/-- The first element behind a prefix that satisfies the predicate is numbered by those in the
prefix. -/
lemma List.find?_drop_eq (xs : List α) (k : ℕ) :
    (xs.drop k).find? p = (xs.filter p)[(xs.take k).countP p]? := by
  have hsplit : xs.filter p = (xs.take k).filter p ++ (xs.drop k).filter p := by
    rw [← List.filter_append, List.take_append_drop]
  rw [hsplit, List.countP_eq_length_filter, List.getElem?_append_right le_rfl, Nat.sub_self,
    ← List.head?_eq_getElem?, List.head?_filter]

/-- At most as many elements satisfy the predicate as there are; only if all do, as many. -/
lemma List.countP_take_eq_iff {xs : List α} {k : ℕ} (hk : k ≤ xs.length) :
    (xs.take k).countP p = k ↔ ∀ x ∈ xs.take k, p x = true := by
  have hlength : (xs.take k).length = k := by rw [List.length_take, Nat.min_eq_left hk]
  constructor
  · intro h
    rw [← List.countP_eq_length, h, hlength]
  · intro h
    rw [List.countP_eq_length.mpr h, hlength]

end Numbering

/-! ### Single indices -/

namespace DIGraph

/-- Passing static members finds the first element that is none. -/
lemma skipStaticMembers_eq (element : ι) (elements : List ι) :
    G.skipStaticMembers element elements =
      ((element :: elements).find? fun e => !G.isStaticMember e).elim (.error .outOfBounds) .ok := by
  induction elements generalizing element with
  | nil =>
    rw [skipStaticMembers, List.find?_cons]
    cases G.isStaticMember element <;> rfl
  | cons next elements ih =>
    rw [skipStaticMembers, List.find?_cons]
    cases G.isStaticMember element with
    | true =>
      simp only [if_true, Bool.not_true]
      exact ih next
    | false => rfl

/-- The GEP indices of `[0, k]`. -/
def fieldIndex (k : UInt64) : GepIndices where
  indices := [k]
  skippedFirst := true
  byteAccess := false
  dynamicAccess := false

/-- A member of a record that a GEP refers to, with its type up to names and qualifiers. -/
def Refers (G : DIGraph ι) (e r : ι) : Prop :=
  ∃ d, G.node e = .derivedType d ∧ G.LeadsTo DINode.isPointerLike d.baseType (some r)

/-- Once the element is found, its member is the result. -/
lemma iterate_of_element {fuel : ℕ} {c : DICompositeType ι} {k : UInt64} {i : ℕ} {e e' r : ι}
    {d : DIDerivedType ι} (he : G.gepElement c.elements k.toNat = .ok (i, e))
    (harray : (G.node e).isArray = false)
    (hskip : G.skipStaticMembers e (c.elements.drop (i + 1)) = .ok e')
    (hd : G.node e' = .derivedType d)
    (hr : G.findNonDerivedTypeUnlessPtr fuel d.baseType = .ok (some r)) :
    G.iterateGepIndex fuel c [k] = .ok { type := some (some r), member := some e' } := by
  have hderived : (G.node e').asDerived = some d := by rw [hd]; rfl
  simp only [iterateGepIndex, he, ok_bind, harray, Bool.false_eq_true, if_false, hskip, hderived,
    hr, deref, List.isEmpty_nil, if_true]
  split <;> rfl

/-- A composite that does not have exactly one member is not skipped. -/
lemma skipFirst_of_countP {n : ι} {c : DICompositeType ι}
    (h : c.elements.countP (fun e => (G.node e).isNonStaticMember) ≠ 1) (fuel : ℕ) :
    G.skipFirstGepAccess (fuel + 1) n c = .ok (n, c) := by
  rw [skipFirstGepAccess, if_neg h]

lemma resolve_of_not_skipped [DecidableEq ι] {fuel : ℕ} {n : ι} {c : DICompositeType ι}
    {gepIndices : GepIndices} {index : UInt64} {indices : List UInt64}
    (hindices : gepIndices.indices = index :: indices) (hbyte : gepIndices.byteAccess = false)
    (h : index = 0 ∨ G.skipFirstGepAccess fuel n c = .ok (n, c)) :
    G.resolveGepIndexToType fuel n c gepIndices = G.iterateGepIndex fuel c (index :: indices) := by
  simp only [resolveGepIndexToType, hindices, hbyte, Bool.false_eq_true, if_false]
  split
  · next hskip =>
    rcases h with rfl | h
    · simp at hskip
    · rw [h]
      rfl
  · rfl

/-- Without base classes there are no empty ones among the elements. -/
lemma eboInheritanceOffset_eq_zero {elements : List ι}
    (h : ∀ e ∈ elements, (G.node e).isInheritance = false) :
    G.eboInheritanceOffset elements = .ok 0 := by
  induction elements with
  | nil => rfl
  | cons e es ih =>
    have he : G.isEboInheritedComposite e = .ok false := by
      have hnode := h e (by simp)
      rw [isEboInheritedComposite]
      split
      · next d hd =>
        rw [hd] at hnode
        rw [hnode]
        rfl
      · rfl
    rw [eboInheritanceOffset, he, ok_bind, ih fun e he => h e (by simp [he])]
    rfl

/-- Index 0 is not moved past base classes. -/
lemma gepElement_zero {elements : List ι} {m : ℕ} (h : G.eboInheritanceOffset elements = .ok m)
    {e : ι} (he : G.selectFirstElement elements = .ok e) : G.gepElement elements 0 = .ok (0, e) := by
  cases elements with
  | nil => cases he
  | cons e' es =>
    rw [gepElement]
    simp only [List.getElem?_cons_zero, Option.elim, ok_bind, if_true, he, h, Nat.lt_irrefl,
      false_and, if_false]
    rfl

/-- The element for any other index, without empty base classes. -/
lemma gepElement_pos {elements : List ι} (h : G.eboInheritanceOffset elements = .ok 0) {k : ℕ}
    (hk : k ≠ 0) {e : ι} (he : elements[k]? = some e) :
    G.gepElement elements k = .ok (k, e) := by
  rw [gepElement, he]
  simp only [Option.elim, ok_bind, hk, if_false, h, Nat.lt_irrefl, and_false]
  rfl

end DIGraph

/-! ### Records with static members -/

/-- A record without base classes: members that have a place, one behind the other, among static
members, which have none; subprograms follow. -/
structure DIGraph.FieldsAndStatics (G : DIGraph ι) (members subprograms : List ι) : Prop where
  subprogram : ∀ e ∈ subprograms, G.node e = .subprogram
  member : ∀ e ∈ members, ∃ d, G.node e = .derivedType d ∧
    (d.isField = true ∨
      (d.tag = .member ∨ d.tag = .var) ∧ d.isStaticMember = true ∧ d.offsetInBits = 0)
  typed : ∀ e ∈ members, ∃ r, G.Refers e r
  increasing : (members.filter fun e => !G.isStaticMember e).Pairwise fun e e' =>
    ∀ d d', G.node e = .derivedType d → G.node e' = .derivedType d' →
      d.offsetInBits < d'.offsetInBits

namespace DIGraph.FieldsAndStatics

variable {members subprograms : List ι}

/-- The fields of the struct. -/
abbrev fields (G : DIGraph ι) (members : List ι) : List ι :=
  members.filter fun e => !G.isStaticMember e

lemma not_static_of_subprogram {e : ι} (h : G.node e = .subprogram) :
    G.isStaticMember e = false := by
  rw [isStaticMember, h]
  rfl

lemma filter_append (h : G.FieldsAndStatics members subprograms) :
    (members ++ subprograms).filter (fun e => !G.isStaticMember e) =
      fields G members ++ subprograms := by
  rw [List.filter_append]
  congr 1
  refine List.filter_eq_self.mpr fun e he => ?_
  rw [not_static_of_subprogram (h.subprogram e he)]
  rfl

lemma kinds (h : G.FieldsAndStatics members subprograms) {e : ι} (he : e ∈ members ++ subprograms) :
    (G.node e).isArray = false ∧ (G.node e).isInheritance = false := by
  rcases List.mem_append.mp he with he | he
  · obtain ⟨d, hd, hkind⟩ := h.member e he
    have htag : d.tag ≠ .inheritance := by
      intro htag
      rcases hkind with hfield | ⟨htag' | htag', -⟩
      · simp [DIDerivedType.isField, htag] at hfield
      · rw [htag] at htag'; cases htag'
      · rw [htag] at htag'; cases htag'
    rw [hd]
    exact ⟨rfl, by simp [DINode.isInheritance, DINode.tag, htag]⟩
  · rw [h.subprogram e he]
    exact ⟨rfl, rfl⟩

/-- Fields are numbered without repetition. -/
lemma fields_inj (h : G.FieldsAndStatics members subprograms) {m k : ℕ} {e : ι}
    (hm : (fields G members)[m]? = some e) (hk : (fields G members)[k]? = some e) : m = k := by
  obtain ⟨hm, heq⟩ := List.getElem?_eq_some_iff.mp hm
  obtain ⟨hk, heq'⟩ := List.getElem?_eq_some_iff.mp hk
  have hmem : e ∈ members := (List.mem_filter.mp (heq ▸ List.getElem_mem hm)).1
  obtain ⟨d, hd, -⟩ := h.member e hmem
  have hlt := List.pairwise_iff_getElem.mp h.increasing
  rcases Nat.lt_trichotomy m k with hmk | hmk | hmk
  · exact absurd (hlt m k hm hk hmk d d (by rw [heq]; exact hd) (by rw [heq']; exact hd))
      (UInt64.lt_irrefl _)
  · exact hmk
  · exact absurd (hlt k m hk hm hmk d d (by rw [heq']; exact hd) (by rw [heq]; exact hd))
      (UInt64.lt_irrefl _)

/-- The index of a field, applied to the elements, hits the field. For index 0 the second element is
preferred if it is at the same offset, for others every element in front counts. -/
def Hits (G : DIGraph ι) (elements : List ι) : ℕ → Prop
  | 0 =>
    match elements with
    | e :: e' :: _ => G.selectNonZeroElement e e' = e ∨ G.isStaticMember e = true
    | _            => True
  | k + 1 => ∀ e ∈ elements.take (k + 1), G.isStaticMember e = false

/-- No element behind the fields is a field. -/
lemma number_inj (h : G.FieldsAndStatics members subprograms) {m k : ℕ} {e : ι}
    (hm : (fields G members ++ subprograms)[m]? = some e)
    (hk : (fields G members)[k]? = some e) : m = k := by
  rcases Nat.lt_or_ge m (fields G members).length with hlt | hge
  · rw [List.getElem?_append_left hlt] at hm
    exact h.fields_inj hm hk
  · rw [List.getElem?_append_right hge] at hm
    have hmem : e ∈ members := (List.mem_filter.mp (List.mem_of_getElem? hk)).1
    obtain ⟨d, hd, -⟩ := h.member e hmem
    rw [h.subprogram e (List.mem_of_getElem? hm)] at hd
    cases hd

/-- What is returned, given what is found for the index. -/
lemma iterate_iff_found (h : G.FieldsAndStatics members subprograms)
    {c : DICompositeType ι} (hc : c.elements = members ++ subprograms) {k : UInt64} {i : ℕ}
    {sel e : ι} (hmem : e ∈ members) (hsel : G.gepElement c.elements k.toNat = .ok (i, sel))
    (hselmem : sel ∈ c.elements) {found : Option ι}
    (hfound : (sel :: c.elements.drop (i + 1)).find? (fun e => !G.isStaticMember e) = found) :
    ∃ fuel r, G.Refers e r ∧ ∀ fuel', fuel ≤ fuel' →
      (G.iterateGepIndex fuel' c [k] = .ok { type := some (some r), member := some e } ↔
        found = some e) := by
  obtain ⟨r, hr⟩ := h.typed e hmem
  have harray : (G.node sel).isArray = false := (h.kinds (hc ▸ hselmem)).1
  have hskip := G.skipStaticMembers_eq sel (c.elements.drop (i + 1))
  rw [hfound] at hskip
  cases hf : found with
  | none =>
    rw [hf] at hskip
    refine ⟨0, r, hr, fun fuel' _ => ⟨fun heq => ?_, fun heq => by cases heq⟩⟩
    rw [iterateGepIndex, hsel] at heq
    simp only [ok_bind, harray, Bool.false_eq_true, if_false, hskip] at heq
    cases heq
  | some e' =>
    rw [hf] at hskip hfound
    have hmem' : e' ∈ members ++ subprograms := by
      have hin := List.mem_of_find?_eq_some hfound
      rcases List.mem_cons.mp hin with rfl | hin
      · exact hc ▸ hselmem
      · exact hc ▸ List.mem_of_mem_drop hin
    rcases List.mem_append.mp hmem' with hmem' | hmem'
    · obtain ⟨r', d', hd', hr'⟩ := h.typed e' hmem'
      obtain ⟨fuel, hfuel⟩ := hr'.find
      refine ⟨fuel, r, hr, fun fuel' hle => ?_⟩
      rw [iterate_of_element hsel harray hskip hd' (hfuel fuel' hle)]
      constructor
      · intro heq
        exact congrArg GepIndexToType.member (Except.ok.inj heq)
      · intro heq
        obtain rfl := Option.some.inj heq
        obtain ⟨d, hd, hr⟩ := hr
        obtain rfl := DINode.derivedType.inj (hd.symm.trans hd')
        obtain rfl := Option.some.inj (hr.unique hr')
        rfl
    · -- a subprogram is no member, and nothing is returned
      have hsub := h.subprogram e' hmem'
      refine ⟨0, r, hr, fun fuel' _ => ⟨fun heq => ?_, fun heq => ?_⟩⟩
      · have hderived : (G.node e').asDerived = none := by rw [hsub]; rfl
        rw [iterateGepIndex, hsel] at heq
        simp only [ok_bind, harray, Bool.false_eq_true, if_false, hskip, hderived, Option.elim,
          iterateGepIndex] at heq
        cases congrArg GepIndexToType.member (Except.ok.inj heq)
      · obtain rfl := Option.some.inj heq
        obtain ⟨d, hd, -⟩ := h.member e' hmem
        rw [hsub] at hd
        cases hd

/-- The second element is preferred over a field only for a static member. -/
lemma found_first_iff (h : G.FieldsAndStatics members subprograms) {e₀ e₁ e : ι} {rest : List ι}
    (hes : members ++ subprograms = e₀ :: e₁ :: rest) (he : (fields G members)[0]? = some e) :
    (G.selectNonZeroElement e₀ e₁ :: e₁ :: rest).find? (fun e => !G.isStaticMember e) = some e ↔
      G.selectNonZeroElement e₀ e₁ = e₀ ∨ G.isStaticMember e₀ = true := by
  have hfilter := h.filter_append
  rw [hes] at hfilter
  have hfirst : (e₀ :: e₁ :: rest).find? (fun e => !G.isStaticMember e) = some e := by
    rw [← List.head?_filter, hfilter, List.head?_append, List.head?_eq_getElem?, he]
    rfl
  by_cases hsel : G.selectNonZeroElement e₀ e₁ = e₀
  · rw [hsel]
    exact iff_of_true hfirst (.inl rfl)
  · have hsel' : G.selectNonZeroElement e₀ e₁ = e₁ := by
      rw [selectNonZeroElement] at hsel ⊢
      split at hsel
      · split at hsel
        · next hoffset => rw [if_pos hoffset]
        · exact absurd rfl hsel
      · exact absurd rfl hsel
    have htwice : (e₁ :: e₁ :: rest).find? (fun e => !G.isStaticMember e) =
        (e₁ :: rest).find? fun e => !G.isStaticMember e := by
      rw [List.find?_cons, List.find?_cons]
      cases G.isStaticMember e₁ <;> rfl
    rw [hsel', htwice]
    cases hstatic : G.isStaticMember e₀ with
    | true =>
      rw [List.find?_cons, hstatic] at hfirst
      exact iff_of_true hfirst (.inr rfl)
    | false =>
      rw [List.find?_cons, hstatic] at hfirst
      obtain rfl := Option.some.inj hfirst
      refine iff_of_false (fun hfound => ?_) fun h => ?_
      · rw [List.filter_cons_of_pos (by simp [hstatic])] at hfilter
        rw [← List.head?_filter, List.head?_eq_getElem?] at hfound
        have hsecond : (fields G members ++ subprograms)[1]? = some e₀ := by
          rw [← hfilter, List.getElem?_cons_succ]
          exact hfound
        exact absurd (h.number_inj hsecond he) (by decide)
      · rcases h with h | h
        · exact hsel (hsel'.trans h)
        · cases h

/-- What is found for an index is the field exactly if the index hits. -/
lemma found_iff_hits (h : G.FieldsAndStatics members subprograms) {c : DICompositeType ι}
    (hc : c.elements = members ++ subprograms) {k : ℕ} {e : ι}
    (he : (fields G members)[k]? = some e) :
    ∃ i sel, G.gepElement c.elements k = .ok (i, sel) ∧ sel ∈ c.elements ∧
      ((sel :: c.elements.drop (i + 1)).find? (fun e => !G.isStaticMember e) = some e ↔
        Hits G c.elements k) := by
  have hzero : G.eboInheritanceOffset c.elements = .ok 0 :=
    eboInheritanceOffset_eq_zero fun e he => (h.kinds (hc ▸ he)).2
  have hlength : k < c.elements.length := by
    have hle : (fields G members).length ≤ members.length := List.length_filter_le _ _
    have hlt := (List.getElem?_eq_some_iff.mp he).1
    rw [hc, List.length_append]
    omega
  cases k with
  | succ k =>
    refine ⟨k + 1, _, gepElement_pos hzero (Nat.succ_ne_zero k) (List.getElem?_eq_getElem hlength),
      List.getElem_mem hlength, ?_⟩
    rw [← List.drop_eq_getElem_cons hlength, List.find?_drop_eq, hc, h.filter_append]
    constructor
    · intro hm e he'
      have hcount := (List.countP_take_eq_iff (fun e => !G.isStaticMember e)
        (hc ▸ hlength.le)).mp (h.number_inj hm he) e he'
      simpa using hcount
    · intro hall
      rw [(List.countP_take_eq_iff _ (hc ▸ hlength.le)).mpr fun e he => by simp [hall e he],
        List.getElem?_append_left (List.getElem?_eq_some_iff.mp he).1, he]
  | zero =>
    rw [hc] at hzero hlength ⊢
    match hes : members ++ subprograms, hlength with
    | [], hlength => exact absurd hlength (Nat.not_lt_zero _)
    | [e₀], _ =>
      rw [hes] at hzero
      refine ⟨0, e₀, gepElement_zero hzero rfl, List.mem_singleton_self e₀, ?_⟩
      have hfilter := h.filter_append
      rw [hes] at hfilter
      refine iff_of_true ?_ trivial
      show [e₀].find? _ = some e
      rw [← List.head?_filter, hfilter, List.head?_append, List.head?_eq_getElem?, he]
      rfl
    | e₀ :: e₁ :: rest, _ =>
      rw [hes] at hzero
      refine ⟨0, G.selectNonZeroElement e₀ e₁, gepElement_zero hzero rfl, ?_, ?_⟩
      · rw [selectNonZeroElement]
        split
        · split <;> simp
        · simp
      · exact h.found_first_iff hes he

/-- A field index is resolved to the field with that number exactly if it hits. -/
theorem resolve_iff_hits [DecidableEq ι] (h : G.FieldsAndStatics members subprograms) (n : ι)
    {c : DICompositeType ι} (hc : c.elements = members ++ subprograms) {k : UInt64} {e : ι}
    (he : (fields G members)[k.toNat]? = some e) :
    ∃ fuel r, G.Refers e r ∧ ∀ fuel', fuel ≤ fuel' →
      (G.resolveGepIndexToType fuel' n c (fieldIndex k) =
          .ok { type := some (some r), member := some e } ↔
        Hits G c.elements k.toNat) := by
  have hmem : e ∈ members := (List.mem_filter.mp (List.mem_of_getElem? he)).1
  obtain ⟨i, sel, hsel, hselmem, hhits⟩ := h.found_iff_hits hc he
  obtain ⟨fuel, r, hr, hiterate⟩ := h.iterate_iff_found hc hmem hsel hselmem rfl
  refine ⟨fuel + 1, r, hr, fun fuel' hle => ?_⟩
  obtain ⟨fuel', rfl⟩ := Nat.exists_eq_succ_of_ne_zero (by omega : fuel' ≠ 0)
  rw [← hhits, ← hiterate (fuel' + 1) (by omega)]
  rw [resolve_of_not_skipped (show (fieldIndex k).indices = [k] from rfl) rfl]
  by_cases hk : k = 0
  · exact .inl hk
  · right
    apply skipFirst_of_countP
    -- a field with another number stands in front of this one
    have hcount : (fields G members).length ≤
        c.elements.countP fun e => (G.node e).isNonStaticMember := by
      rw [hc, List.countP_append, fields, ← List.countP_eq_length_filter]
      refine Nat.le_add_right_of_le (List.countP_mono_left fun e he hstatic => ?_)
      obtain ⟨d, hd, hfield | ⟨-, hd', -⟩⟩ := h.member e he
      · rw [hd]
        exact DIDerivedType.isNonStaticMember_of_isField hfield
      · rw [isStaticMember, hd] at hstatic
        simp [DINode.asDerived, hd'] at hstatic
    have hlt := (List.getElem?_eq_some_iff.mp he).1
    have hpos : k.toNat ≠ 0 := fun h => hk (UInt64.toNat_inj.mp h)
    omega

end DIGraph.FieldsAndStatics

/-! ### A static member behind the first field -/

/-- `struct S { int a; static int s; int b; };` -/
def staticMember : DIGraph (Fin 5) where
  node
    | 0 => .compositeType { tag := .structureType, name := "S", sizeInBits := 64,
                            elements := [1, 2, 3] }
    | 1 => .derivedType { tag := .member, name := "a", sizeInBits := 32, baseType := some 4 }
    | 2 => .derivedType { tag := .member, name := "s", flags := DIFlags.staticMember,
                          baseType := some 4 }
    | 3 => .derivedType { tag := .member, name := "b", sizeInBits := 32, offsetInBits := 32,
                          baseType := some 4 }
    | 4 => .basicType { name := "int", sizeInBits := 32, encoding := .signed }

lemma fieldsAndStatics_staticMember : staticMember.FieldsAndStatics [1, 2, 3] [] where
  subprogram e he := by cases he
  member e he := by
    fin_cases he
    · exact ⟨_, rfl, .inl rfl⟩
    · exact ⟨_, rfl, .inr ⟨.inl rfl, rfl, rfl⟩⟩
    · exact ⟨_, rfl, .inl rfl⟩
  typed e he := by fin_cases he <;> exact ⟨4, _, rfl, .other rfl⟩
  increasing := by
    rw [show [1, 2, 3].filter (fun e => !staticMember.isStaticMember e) = [1, 3] by decide]
    refine List.pairwise_pair.mpr fun d d' hd hd' => ?_
    obtain rfl := DINode.derivedType.inj hd
    obtain rfl := DINode.derivedType.inj hd'
    decide

theorem resolve_iff_hits_staticMember :
    ∃ fuel r, staticMember.Refers 3 r ∧ ∀ fuel', fuel ≤ fuel' →
      (staticMember.resolveGepIndexToType fuel' 0 { tag := .structureType, elements := [1, 2, 3] }
          (DIGraph.fieldIndex 1) = .ok { type := some (some r), member := some 3 } ↔
        DIGraph.FieldsAndStatics.Hits staticMember [1, 2, 3] 1) :=
  fieldsAndStatics_staticMember.resolve_iff_hits 0 rfl (k := 1) rfl

/-- Index 0 is the field `a`, but `s` is at the same offset, and `b` is what is behind `s`. -/
theorem not_resolve_field : ¬ ∀ (G : DIGraph (Fin 5)) (members subprograms : List (Fin 5))
    (n : Fin 5) (c : DICompositeType (Fin 5)) (k : UInt64) (e : Fin 5),
    G.FieldsAndStatics members subprograms → c.elements = members ++ subprograms →
    (DIGraph.FieldsAndStatics.fields G members)[k.toNat]? = some e →
    ∃ fuel r, G.Refers e r ∧ ∀ fuel', fuel ≤ fuel' →
      G.resolveGepIndexToType fuel' n c (DIGraph.fieldIndex k) =
        .ok { type := some (some r), member := some e } := by
  intro h
  obtain ⟨fuel, r, -, hr⟩ := h staticMember [1, 2, 3] [] 0
    { tag := .structureType, elements := [1, 2, 3] } 0 1 fieldsAndStatics_staticMember rfl rfl
  have hb : staticMember.resolveGepIndexToType (fuel + 1) 0
      { tag := .structureType, elements := [1, 2, 3] } (DIGraph.fieldIndex 0) =
        .ok { type := some (some 4), member := some 3 } := rfl
  rw [hr (fuel + 1) (Nat.le_succ fuel)] at hb
  have hmember := congrArg GepIndexToType.member (Except.ok.inj hb)
  exact absurd (Option.some.inj hmember) (by decide)

end Dimeta
