import Dimeta.Parse.Siblings

/-!
# Independence of siblings

Every element of a record is compared with itself in the record that has no other element. Its
entry is the same, unless it is a base class that is met while the metadata still says "member".
-/

set_option autoImplicit false

namespace Dimeta

variable {ι : Type}

/-! ### Records with one element -/

namespace DIGraph

variable [DecidableEq ι] (G : DIGraph ι)

/-- The graph in which a composite has other elements. -/
def withElements (m : ι) (elements : List ι) : DIGraph ι where
  node n :=
    match G.node n with
    | .compositeType c => .compositeType (if n = m then { c with elements } else c)
    | node             => node

variable {G} {m : ι} {elements : List ι}

omit [DecidableEq ι] in
lemma walkType_map {walk : ι → Option (Walk ι)} {f : Walk ι → Walk ι} (hf : f .null = .null)
    (type : Option ι) :
    walkType (fun n => (walk n).map f) type = (walkType walk type).map f := by
  cases type with
  | none => simp [walkType, hf]
  | some n => rfl

omit [DecidableEq ι] in
lemma walkElements_map (walk : ι → Option (Walk ι)) (f : Walk ι → Walk ι) (es : List ι) :
    walkElements (fun n => (walk n).map f) es = (walkElements walk es).map (List.map f) := by
  induction es with
  | nil => rfl
  | cons e es ih =>
    simp only [walkElements, ih]
    cases walk e with
    | none => rfl
    | some w => cases walkElements walk es <;> rfl

/-- While a composite is open, its elements are not visited. -/
lemma walk_withElements {fuel : ℕ} {visited : Finset ι} (hm : m ∈ visited) (n : ι) :
    (G.withElements m elements).walk fuel visited n =
      (G.walk fuel visited n).map (Walk.recast m elements) := by
  induction fuel generalizing visited n with
  | zero => rfl
  | succ fuel ih =>
    have hwalk : ∀ visited, m ∈ visited → (G.withElements m elements).walk fuel visited =
        fun n => (G.walk fuel visited n).map (Walk.recast m elements) :=
      fun visited hm => funext (ih hm)
    cases hn : G.node n with
    | compositeType c =>
      have hn' : (G.withElements m elements).node n =
          .compositeType (if n = m then { c with elements } else c) := by
        simp [withElements, hn]
      simp only [walk, hn, hn']
      by_cases hvisited : n ∈ visited
      · simp [hvisited, Walk.recast]
      · have hne : n ≠ m := fun h => hvisited (h ▸ hm)
        simp only [if_neg hvisited, if_neg hne]
        split
        · rw [hwalk visited hm, walkElements_map, walkType_map rfl]
          cases walkElements (G.walk fuel visited) c.elements with
          | none => rfl
          | some ws =>
            cases walkType (G.walk fuel visited) c.baseType with
            | none => rfl
            | some base => simp [Walk.recast, recastElements_eq_map]
        · rw [hwalk _ (Finset.mem_insert_of_mem hm), walkElements_map, walkType_map rfl]
          cases walkType (G.walk fuel (insert n visited)) c.baseType with
          | none => rfl
          | some base =>
            cases walkElements (G.walk fuel (insert n visited)) c.elements with
            | none => rfl
            | some ws => simp [Walk.recast, recastElements_eq_map]
    | derivedType d =>
      have hn' : (G.withElements m elements).node n = .derivedType d := by simp [withElements, hn]
      simp only [walk, hn, hn', hwalk visited hm, walkType_map (f := Walk.recast m elements) rfl]
      cases walkType (G.walk fuel visited) d.baseType <;> rfl
    | var type =>
      have hn' : (G.withElements m elements).node n = .var type := by simp [withElements, hn]
      simp only [walk, hn, hn', hwalk visited hm, walkType_map (f := Walk.recast m elements) rfl]
      cases walkType (G.walk fuel visited) type <;> rfl
    | basicType b => simp [walk, withElements, hn, Walk.recast]
    | stringType t => simp [walk, withElements, hn, Walk.recast]
    | subroutineType => simp [walk, withElements, hn, Walk.recast]
    | enumerator name => simp [walk, withElements, hn, Walk.recast]
    | subrange count => simp [walk, withElements, hn, Walk.recast]
    | subprogram => simp [walk, withElements, hn, Walk.recast]
    | other => simp [walk, withElements, hn, Walk.recast]

/-- The walk of a record with one of its elements only. -/
lemma walk_withElements_singleton {fuel : ℕ} {visited : Finset ι} {n : ι} {c : DICompositeType ι}
    (hn : G.node n = .compositeType c) (harray : c.tag ≠ .arrayType) (hvisited : n ∉ visited)
    {w : Walk ι} (h : G.walk fuel visited n = some w) (hbase : c.baseType = none) :
    ∃ ws, w = .composite n c .null ws ∧ ws.length = c.elements.length ∧
      ∀ (k : ℕ) (e : ι) (w' : Walk ι), c.elements[k]? = some e → ws[k]? = some w' →
        w'.asDerived = (G.node e).asDerived ∧
        (G.withElements n [e]).walk fuel visited n =
          some (.composite n { c with elements := [e] } .null [w'.recast n [e]]) := by
  cases fuel with
  | zero => cases h
  | succ fuel =>
    obtain ⟨_, ws, rfl, hwbase, hall⟩ := walk_composite hn harray hvisited h
    rw [hbase] at hwbase
    cases hwbase
    refine ⟨ws, rfl, hall.length_eq.symm, fun k e w' he hw' => ?_⟩
    have hwalk : G.walk fuel (insert n visited) e = some w' := by
      obtain ⟨hk, rfl⟩ := List.getElem?_eq_some_iff.mp he
      obtain ⟨hk', rfl⟩ := List.getElem?_eq_some_iff.mp hw'
      exact hall.get hk hk'
    refine ⟨asDerived_of_walk hwalk, ?_⟩
    have hn' : (G.withElements n [e]).node n = .compositeType { c with elements := [e] } := by
      simp [withElements, hn]
    simp [walk, hn', hvisited, harray, hbase, walkType, walkElements,
      walk_withElements (Finset.mem_insert_self n visited), hwalk]

end DIGraph

/-! ### Closed type graphs -/

/-- A type graph in which every chain of derived types ends in a type or in a pointer without one,
and records have no base type. -/
structure ClosedGraph (ι : Type) extends RecordGraph ι where
  derived_base : ∀ n d, node n = .derivedType d → d.baseType = none → d.tag = .pointerType
  array_base : ∀ n c, node n = .compositeType c → c.tag = .arrayType → c.baseType ≠ none
  record_base : ∀ n c, node n = .compositeType c → c.tag ≠ .arrayType →
    c.tag ≠ .enumerationType → c.baseType = none

section Independence

variable [DecidableEq ι]

lemma ClosedGraph.closed_of_walk (G : ClosedGraph ι) {fuel : ℕ} {visited : Finset ι} {n : ι}
    {w : Walk ι} (h : G.walk fuel visited n = some w) : w.Closed := by
  induction fuel generalizing visited n w with
  | zero => cases h
  | succ fuel ih =>
    cases DIGraph.walkStep_of_walk h with
    | node _ _ | skip _ | basic _ | string _ | recurring _ _ | var _ _ => trivial
    | derived hn hbase =>
      next d base =>
      have hclosed : DIEventVisitor.isVoidPointer d = true ∧ base = .null ∨ base.Closed := by
        cases hd : d.baseType with
        | none =>
          rw [hd] at hbase
          cases hbase
          exact .inl ⟨by simp [DIEventVisitor.isVoidPointer, hd, G.derived_base n d hn hd], rfl⟩
        | some b =>
          rw [hd] at hbase
          exact .inr (ih hbase.of_some)
      exact hclosed
    | array hn hmem htag helements hbase =>
      next c base elements =>
      have hclosed : base.Closed := by
        cases hc : c.baseType with
        | none => exact absurd hc (G.array_base n c hn htag)
        | some b =>
          rw [hc] at hbase
          exact ih hbase.of_some
      exact hclosed
    | composite hn hmem htag hbase helements =>
      next c base elements =>
      refine ⟨?_, ?_⟩
      · cases hc : c.baseType with
        | none =>
          rw [hc] at hbase
          cases hbase
          exact .inl rfl
        | some b =>
          rw [hc] at hbase
          refine .inr ⟨?_, ih hbase.of_some⟩
          by_contra henum
          rw [G.record_base n c hn htag henum] at hc
          cases hc
      · clear h
        generalize c.elements = es at helements
        induction helements with
        | nil => trivial
        | cons hw _ ihs => exact ⟨ih hw, ihs⟩

omit [DecidableEq ι] in
lemma closedElements_take {ws : List (Walk ι)} (h : ClosedElements ws) (k : ℕ) :
    ClosedElements (ws.take k) := by
  induction ws generalizing k with
  | nil => simpa using h
  | cons w ws ih =>
    cases k with
    | zero => trivial
    | succ k => exact ⟨h.1, ih h.2 k⟩

omit [DecidableEq ι] in
lemma elementsOk_take {G : DIGraph ι} {ws : List (Walk ι)} (h : ElementsOk G ws) (k : ℕ) :
    ElementsOk G (ws.take k) := by
  induction ws generalizing k with
  | nil => simpa using h
  | cons w ws ih =>
    cases k with
    | zero => trivial
    | succ k => exact ⟨h.1, ih h.2 k⟩

omit [DecidableEq ι] in
lemma elementOk_of_mem {G : DIGraph ι} {ws : List (Walk ι)} (h : ElementsOk G ws)
    (hclosed : ClosedElements ws) {w : Walk ι} (hw : w ∈ ws) : w.ElementOk G ∧ w.Closed := by
  induction ws with
  | nil => cases hw
  | cons w' ws ih =>
    rcases List.mem_cons.mp hw with rfl | hw
    · exact ⟨h.1, hclosed.1⟩
    · exact ih h.2 hclosed.2 hw

/-- What the element at `k` of a record adds to it, if the record is entered in state `p`. -/
def Walk.entriesAt (p : Parse ι) (k : ℕ) : Walk ι → List Entry
  | .composite _ c base elements =>
    let before := parseElements (elements.take k) (parse base (p.enter c))
    (parseElements ((elements.drop k).take 1) before).entries.drop before.entries.length
  | _ => []

/-- Whether the metadata says "member" before the element at `k` of a record. -/
def Walk.memberBefore (k : ℕ) : Walk ι → Bool
  | .composite _ _ base elements => memberAfterElements (elements.take k) (base.memberAfter false)
  | _ => false

lemma Walk.entriesAt_of_getElem? {p : Parse ι} {n : ι} {c : DICompositeType ι} {ws : List (Walk ι)}
    {k : ℕ} {w : Walk ι} (hw : ws[k]? = some w) :
    (Walk.composite n c .null ws).entriesAt p k =
      (parse w (parseElements (ws.take k) (p.enter c))).entries.drop
        (parseElements (ws.take k) (p.enter c)).entries.length := by
  obtain ⟨hk, rfl⟩ := List.getElem?_eq_some_iff.mp hw
  simp only [entriesAt, List.drop_eq_getElem_cons hk, List.take_succ_cons, List.take_zero,
    parseElements, parse]

/-- A base class that is met while the metadata says "member" becomes a member. -/
lemma entry_of_strayed {G : DIGraph ι} {w : Walk ι} (hw : w.ElementOk G) (hclosed : w.Closed)
    {d : DIDerivedType ι} (hd : w.asDerived = some d) (htag : d.isMemberNode = false)
    {p p' : Parse ι} (henum : p.enumData.isEnum = false) (henum' : p'.enumData.isEnum = false)
    (hp : p.current.isMember = true) (hp' : p'.current.isMember = false) {l : List Entry}
    (hl : (parse w p).entries = p.entries ++ l) : (parse w p').entries ≠ p'.entries ++ l := by
  intro hl'
  obtain ⟨o, ho, hentry⟩ := elementEntry_parse hw henum
  obtain ⟨o', ho', hentry'⟩ := elementEntry_parse hw henum'
  rw [hl, List.append_cancel_left_eq] at ho
  rw [hl', List.append_cancel_left_eq] at ho'
  rw [hp] at hentry
  rw [hp'] at hentry'
  obtain rfl : o' = o := by
    cases o <;> cases o' <;> simp_all
  match w with
  | .skip _ => cases hd
  | .null | .basic _ _ | .string _ _ | .node _ _ | .recurring _ _ | .var _ _ | .array _ _ _ _
  | .composite _ _ _ _ => exact hw.elim
  | .derived n d' base =>
    obtain rfl : d' = d := Option.some.inj hd
    have hevent : (Walk.derived n d' base).reachesEvent = true := by
      rcases hclosed with ⟨hvoid, -⟩ | hclosed
      · simp [Walk.reachesEvent, hvoid]
      · simp [Walk.reachesEvent, base.reachesEvent_of_closed hw.2 hclosed]
    cases hentry with
    | member _ h => rw [htag] at h; cases h
    | lost h => rw [htag] at h; cases h
    | strayed _ _ _ ho =>
      obtain ⟨-, t, m, rfl⟩ := ho.resolve_left (by simp [hevent])
      generalize hsome : some (Entry.ofMember t m) = o at hentry'
      cases hentry' with
      | member _ h => rw [htag] at h; cases h
      | lost => cases hsome
      | base x =>
        simp only [Entry.ofMember, Option.some.injEq] at hsome
        split at hsome <;> cases hsome
      | strayed _ _ _ ho' =>
        obtain ⟨rfl, -⟩ := ho'.resolve_right (by simp)
        cases hsome

/-- The entry of one element, after its siblings and in a record of its own, is the same unless the
element is a base class that is met while the metadata says "member". -/
lemma drop_entries_eq_iff {G : DIGraph ι} {w : Walk ι} (hw : w.ElementOk G) (hclosed : w.Closed)
    {s p : Parse ι} {c : DICompositeType ι} (hc : c.tag ≠ .enumerationType)
    (hs : s.current.Residue) (henum : s.enumData.isEnum = false) (n e : ι) :
    (parse w s).entries.drop s.entries.length =
        (parse (w.recast n [e]) (p.enter { c with elements := [e] })).entries ↔
      ((w.asDerived.all fun d => d.isMemberNode) = true ∨ s.current.isMember = false) := by
  have henter : (p.enter c).enumData.isEnum = false := by simp [Parse.enter, hc]
  constructor
  · intro heq
    by_contra hnot
    obtain ⟨hbase, hflag⟩ := not_or.mp hnot
    cases hd : w.asDerived with
    | none => simp [hd] at hbase
    | some d =>
      have hnode : d.isMemberNode = false := by simpa [hd] using hbase
      obtain ⟨o, ho, -⟩ := elementEntry_parse hw henum
      have hsame : Parse.Agrees [] [] (p.enter c) (p.enter { c with elements := [e] }) := .enter rfl
      obtain ⟨l, hl, hl'⟩ := (agrees_parse n [e] w (.inr hw) hsame).entries
      rw [ho, List.drop_left, hl'] at heq
      refine entry_of_strayed hw hclosed hd hnode henum henter (by simpa using hflag) rfl ho ?_
      rw [hl, heq]
      rfl
  · intro hmember
    have hresidue : (p.enter { c with elements := [e] }).current.Residue :=
      MetaData.residue_default
    have hentries : ∃ l, s.entries = s.entries ++ l ∧
        (p.enter { c with elements := [e] }).entries = [] ++ l := ⟨[], by simp, rfl⟩
    obtain ⟨l, hl, hl'⟩ := agrees_element hw hs hresidue (hmember.imp_right fun h => ⟨h, rfl⟩)
      (by rw [henum]; exact henter) hentries n [e]
    rw [hl, hl', List.drop_left, List.nil_append]

/-- Each element of a record, whatever state `p` the record is entered in, is parsed as in the
record without its siblings, exactly if no base class is met while the metadata still says
"member". -/
theorem ClosedGraph.siblings_independent_iff (G : ClosedGraph ι) {fuel : ℕ} {visited : Finset ι}
    {n : ι} {c : DICompositeType ι} {w : Walk ι} (hn : G.node n = .compositeType c)
    (harray : c.tag ≠ .arrayType) (henum : c.tag ≠ .enumerationType) (hvisited : n ∉ visited)
    (h : G.walk fuel visited n = some w) (p : Parse ι) :
    (∀ k e, c.elements[k]? = some e → ∃ w', (G.withElements n [e]).walk fuel visited n = some w' ∧
        w.entriesAt p k = w'.entriesAt p 0) ↔
      ∀ k e d, c.elements[k]? = some e → G.node e = .derivedType d → d.tag = .inheritance →
        w.memberBefore k = false := by
  have hok := (G.walk_ok fuel visited).1 n w h (by rw [hn]; rfl)
  have hclosed := G.closed_of_walk h
  obtain ⟨ws, rfl, hlength, hone⟩ := DIGraph.walk_withElements_singleton hn harray hvisited h
    (G.record_base n c hn harray henum)
  obtain ⟨-, hws⟩ := hok
  rw [if_neg henum] at hws
  -- the state before an element, and the entry of the element in both parses
  have hstate : ∀ k, (parseElements (ws.take k) (p.enter c)).current.Residue ∧
      (parseElements (ws.take k) (p.enter c)).enumData.isEnum = false ∧
      (parseElements (ws.take k) (p.enter c)).current.isMember =
        (Walk.composite n c .null ws).memberBefore k := fun k =>
    ⟨residue_parseElements _ (elementsOk_take hws.1 k) (closedElements_take hclosed.2 k)
        MetaData.residue_default,
      isEnum_parseElements _ (by simp [Parse.enter, henum]),
      isMember_parseElements _ (elementsOk_take hws.1 k) _⟩
  have hentry : ∀ k e, c.elements[k]? = some e → ∃ w' : Walk ι,
      w'.asDerived = (G.node e).asDerived ∧
      (G.withElements n [e]).walk fuel visited n =
        some (.composite n { c with elements := [e] } .null [w'.recast n [e]]) ∧
      ((Walk.composite n c .null ws).entriesAt p k = Walk.entriesAt p 0
          (.composite n { c with elements := [e] } .null [w'.recast n [e]]) ↔
        (w'.asDerived.all fun d => d.isMemberNode) = true ∨
          (Walk.composite n c .null ws).memberBefore k = false) := by
    intro k e he
    obtain ⟨hk, -⟩ := List.getElem?_eq_some_iff.mp he
    have hlt : k < ws.length := by omega
    have hw' : ws[k]? = some ws[k] := List.getElem?_eq_getElem hlt
    obtain ⟨hderived, hwalk⟩ := hone k e _ he hw'
    obtain ⟨hresidue, hisEnum, hflag⟩ := hstate k
    have hmem := elementOk_of_mem hws.1 hclosed.2 (List.mem_of_getElem? hw')
    refine ⟨_, hderived, hwalk, ?_⟩
    rw [Walk.entriesAt_of_getElem? hw', Walk.entriesAt_of_getElem? (k := 0) rfl, ← hflag]
    exact drop_entries_eq_iff hmem.1 hmem.2 henum hresidue hisEnum n e
  constructor
  · intro hall k e d he hnode htag
    obtain ⟨w', hderived, hwalk, hiff⟩ := hentry k e he
    obtain ⟨w'', hw'', heq⟩ := hall k e he
    obtain rfl := Option.some.inj (hwalk.symm.trans hw'')
    refine (hiff.mp heq).resolve_left ?_
    simp [hderived, hnode, DINode.asDerived, DIDerivedType.isMemberNode, htag]
  · intro hcond k e he
    obtain ⟨w', hderived, hwalk, hiff⟩ := hentry k e he
    refine ⟨_, hwalk, hiff.mpr ?_⟩
    rcases G.record_elements n c hn harray henum e (List.mem_of_getElem? he) with
      hnode | ⟨d, hnode, hd⟩
    · exact .inl (by simp [hderived, hnode, DINode.asDerived])
    · cases hmember : d.isMemberNode with
      | true => exact .inl (by simp [hderived, hnode, DINode.asDerived, hmember])
      | false => exact .inr (hcond k e d he hnode (DIDerivedType.tag_of_isElement hd hmember))

end Independence

/-! ### A base class after an enumeration -/

/-- `struct A { enum E { X } e; }; struct B { unsigned y; }; struct D : A, B {};` -/
def enumBase : DIGraph (Fin 10) where
  node
    | 0 => .compositeType { tag := .structureType, name := "D", sizeInBits := 64,
                            elements := [1, 2] }
    | 1 => .derivedType { tag := .inheritance, baseType := some 3 }
    | 2 => .derivedType { tag := .inheritance, offsetInBits := 32, baseType := some 4 }
    | 3 => .compositeType { tag := .structureType, name := "A", sizeInBits := 32, elements := [5] }
    | 4 => .compositeType { tag := .structureType, name := "B", sizeInBits := 32, elements := [6] }
    | 5 => .derivedType { tag := .member, name := "e", sizeInBits := 32, baseType := some 7 }
    | 6 => .derivedType { tag := .member, name := "y", sizeInBits := 32, baseType := some 9 }
    | 7 => .compositeType { tag := .enumerationType, name := "E", sizeInBits := 32,
                            baseType := some 9, elements := [8] }
    | 8 => .enumerator "X"
    | 9 => .basicType { name := "unsigned int", sizeInBits := 32, encoding := .unsigned }

def enumBaseGraph : ClosedGraph (Fin 10) where
  toDIGraph := enumBase
  typeRef_isTypeNode n b h := by
    fin_cases n <;> simp [enumBase, DINode.typeRef] at h <;> subst h <;> rfl
  array_elements n c h htag := by
    fin_cases n <;> simp [enumBase] at h <;> subst h <;> cases htag
  enum_elements n c h htag := by
    fin_cases n <;> simp [enumBase] at h <;> subst h
    all_goals cases htag
    intro e he
    obtain rfl : e = 8 := by simpa using he
    exact ⟨"X", rfl⟩
  enum_base n c h htag _ := by
    fin_cases n <;> simp [enumBase] at h <;> subst h
    all_goals cases htag
    exact .basic rfl
  record_elements n c h _ henum := by
    fin_cases n <;> simp [enumBase] at h <;> subst h
    · intro e he
      right
      fin_cases e <;> simp at he <;> exact ⟨_, rfl, rfl⟩
    · intro e he
      right
      fin_cases e <;> simp at he
      exact ⟨_, rfl, rfl⟩
    · intro e he
      right
      fin_cases e <;> simp at he
      exact ⟨_, rfl, rfl⟩
    · exact absurd rfl henum
  cycles_pass_records := by
    refine DIGraph.cyclesPassRecords_of_lt fun a b h => ?_
    fin_cases a <;> simp [DIGraph.PlainStep, enumBase] at h <;> subst h <;> decide
  derived_base n d h hd := by
    fin_cases n <;> simp [enumBase] at h <;> subst h <;> cases hd
  array_base n c h htag := by
    fin_cases n <;> simp [enumBase] at h <;> subst h <;> cases htag
  record_base n c h _ henum := by
    fin_cases n <;> simp [enumBase] at h <;> subst h <;> first | rfl | exact absurd rfl henum

theorem ClosedGraph.siblings_independent_iff_enumBase :
    ∃ c w, enumBaseGraph.node 0 = .compositeType c ∧ enumBaseGraph.walk 8 ∅ 0 = some w ∧
      ((∀ k e, c.elements[k]? = some e →
          ∃ w', (enumBaseGraph.withElements 0 [e]).walk 8 ∅ 0 = some w' ∧
            w.entriesAt {} k = w'.entriesAt {} 0) ↔
        ∀ k e d, c.elements[k]? = some e → enumBaseGraph.node e = .derivedType d →
          d.tag = .inheritance → w.memberBefore k = false) := by
  obtain ⟨w, hw⟩ := Option.isSome_iff_exists.mp
    (show (enumBaseGraph.walk 8 ∅ 0).isSome = true by decide +kernel)
  exact ⟨_, w, rfl, hw,
    enumBaseGraph.siblings_independent_iff rfl (by decide) (by decide) (by decide) hw {}⟩

/-- The second base class becomes a member named after the enumerator: with its sibling before it,
`B` is parsed as a member, without it as a base class. -/
theorem not_siblings_independent : ¬ ∀ (G : ClosedGraph (Fin 10)) (fuel : ℕ)
    (visited : Finset (Fin 10)) (n : Fin 10) (c : DICompositeType (Fin 10)) (w : Walk (Fin 10)),
    G.node n = .compositeType c → c.tag ≠ .arrayType → c.tag ≠ .enumerationType → n ∉ visited →
    G.walk fuel visited n = some w → ∀ p k e, c.elements[k]? = some e →
    ∃ w', (G.withElements n [e]).walk fuel visited n = some w' ∧
      w.entriesAt p k = w'.entriesAt p 0 := by
  intro h
  have hafter : ((enumBase.walk 8 ∅ 0).map fun w => (w.entriesAt {} 1).map Entry.baseOffset) =
      some [none] := by decide +kernel
  have halone : (((enumBase.withElements 0 [2]).walk 8 ∅ 0).map fun w =>
      (w.entriesAt {} 0).map Entry.baseOffset) = some [some 4] := by decide +kernel
  obtain ⟨w, hw, hafter⟩ := Option.map_eq_some_iff.mp hafter
  obtain ⟨w', hw', heq⟩ := h enumBaseGraph 8 ∅ 0 _ w rfl (by decide) (by decide) (by decide) hw
    {} 1 2 rfl
  rw [show enumBaseGraph.toDIGraph = enumBase from rfl] at hw'
  rw [hw', Option.map_some, ← heq, hafter] at halone
  exact absurd halone (by decide)

end Dimeta
