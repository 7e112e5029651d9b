import Dimeta.Parse.Chain

/-!
# Records and their entries

In a type graph whose record elements are members, static members, base classes and subprograms,
every element makes at most one entry of its record. `Walk.Complete` says when each of them makes
the right one.
-/

set_option autoImplicit false

namespace Dimeta

variable {ι : Type}

/-! ### Type graphs -/

/-- A type other than the elements of records. -/
def DINode.isTypeNode (x : DINode ι) : Bool := x.isType && x.asDerived.all fun d => !d.isElement

/-- A chain of derived types that ends in a basic type. -/
inductive DIGraph.ReachesBasic (G : DIGraph ι) : Option ι → Prop
  | basic {n : ι} {b : DIBasicType} (h : G.node n = .basicType b) : ReachesBasic G (some n)
  | derived {n : ι} {d : DIDerivedType ι} (h : G.node n = .derivedType d)
      (hbase : ReachesBasic G d.baseType) : ReachesBasic G (some n)

/-- A type graph whose record elements are members, static members, base classes and
subprograms; arrays have subranges, enumerations have enumerators over a basic type, and every
cycle passes through a record. -/
structure RecordGraph (ι : Type) extends DIGraph ι where
  typeRef_isTypeNode : ∀ n b, (node n).typeRef = some b → (node b).isTypeNode = true
  array_elements : ∀ n c, node n = .compositeType c → c.tag = .arrayType →
    ∀ e ∈ c.elements, ∃ count, node e = .subrange count
  enum_elements : ∀ n c, node n = .compositeType c → c.tag = .enumerationType →
    ∀ e ∈ c.elements, ∃ name, node e = .enumerator name
  enum_base : ∀ n c, node n = .compositeType c → c.tag = .enumerationType → c.elements ≠ [] →
    toDIGraph.ReachesBasic c.baseType
  record_elements : ∀ n c, node n = .compositeType c → c.tag ≠ .arrayType →
    c.tag ≠ .enumerationType →
    ∀ e ∈ c.elements, node e = .subprogram ∨ ∃ d, node e = .derivedType d ∧ d.isElement = true
  cycles_pass_records : toDIGraph.CyclesPassRecords

section Walk

variable [DecidableEq ι]

lemma asDerived_of_walk {G : DIGraph ι} {fuel : ℕ} {visited : Finset ι} {n : ι} {w : Walk ι}
    (h : G.walk fuel visited n = some w) : w.asDerived = (G.node n).asDerived := by
  cases fuel with
  | zero => cases h
  | succ fuel =>
    cases DIGraph.walkStep_of_walk h with
    | node hn hplain =>
      rw [hn]
      next x => cases x <;> first | rfl | cases hplain
    | skip hn => rcases hn with hn | hn <;> rw [hn] <;> rfl
    | basic hn => rw [hn]; rfl
    | string hn => rw [hn]; rfl
    | var hn => rw [hn]; rfl
    | derived hn => rw [hn]; rfl
    | array hn => rw [hn]; rfl
    | composite hn => rw [hn]; rfl
    | recurring hn => rw [hn]; rfl

lemma endsBasic_of_typeWalk {G : DIGraph ι} {type : Option ι} (h : G.ReachesBasic type) {fuel : ℕ}
    {visited : Finset ι} {w : Walk ι}
    (hw : TypeWalk (fun n w => G.walk fuel visited n = some w) type w) : w.EndsBasic := by
  induction h generalizing fuel w with
  | basic hn =>
    have hw := hw.of_some
    cases fuel with
    | zero => cases hw
    | succ fuel =>
      simp only [DIGraph.walk, hn, Option.some.injEq] at hw
      subst hw
      trivial
  | derived hn _ ih =>
    have hw := hw.of_some
    cases fuel with
    | zero => cases hw
    | succ fuel =>
      obtain ⟨base, rfl, hbase⟩ := DIGraph.walk_derived hn hw
      have hends := ih hbase
      exact hends

namespace RecordGraph

variable {G : RecordGraph ι} {fuel : ℕ} {visited : Finset ι}

/-- Every walk of a type with this much fuel is well formed. -/
def TypesOk (G : RecordGraph ι) (fuel : ℕ) (visited : Finset ι) : Prop :=
  ∀ n w, G.walk fuel visited n = some w → (G.node n).isTypeNode = true → w.TypeOk G.toDIGraph

lemma TypesOk.typeWalk (h : TypesOk G fuel visited) {n : ι} {type : Option ι} {w : Walk ι}
    (hn : (G.node n).typeRef = type)
    (hw : TypeWalk (fun n w => G.walk fuel visited n = some w) type w) :
    w.TypeOk G.toDIGraph := by
  cases hw with
  | null => trivial
  | type hw => exact h _ w hw (G.typeRef_isTypeNode n _ hn)

/-- The walk of an element of a record. -/
lemma TypesOk.elementOk (h : TypesOk G fuel visited) {n : ι} {w : Walk ι}
    (hw : G.walk (fuel + 1) visited n = some w)
    (hn : G.node n = .subprogram ∨ ∃ d, G.node n = .derivedType d ∧ d.isElement = true) :
    w.ElementOk G.toDIGraph := by
  rcases hn with hn | ⟨d, hn, hd⟩
  · simp only [DIGraph.walk, hn, Option.some.injEq] at hw
    subst hw
    trivial
  · obtain ⟨base, rfl, hbase⟩ := DIGraph.walk_derived hn hw
    exact ⟨hd, h.typeWalk (by rw [hn]; rfl) hbase⟩

/-- The nodes that the elements of a record are. -/
def IsElementNode (G : RecordGraph ι) (n : ι) : Prop :=
  G.node n = .subprogram ∨ ∃ d, G.node n = .derivedType d ∧ d.isElement = true

omit [DecidableEq ι] in
lemma elementsOk_of_forall₂ {U : ι → Walk ι → Prop} {es : List ι} {ws : List (Walk ι)}
    (h : List.Forall₂ U es ws) (hok : ∀ e ∈ es, ∀ w, U e w → w.ElementOk G.toDIGraph) :
    ElementsOk G.toDIGraph ws := by
  induction h with
  | nil => trivial
  | cons hw _ ih =>
    exact ⟨hok _ (by simp) _ hw, ih fun e he => hok e (by simp [he])⟩

lemma filterMap_asDerived {es : List ι} {ws : List (Walk ι)}
    (h : List.Forall₂ (fun n w => G.walk fuel visited n = some w) es ws) :
    ws.filterMap Walk.asDerived = es.filterMap fun e => (G.node e).asDerived := by
  induction h with
  | nil => rfl
  | cons hw _ ih =>
    rw [List.filterMap_cons, List.filterMap_cons, asDerived_of_walk hw, ih]

lemma typeOk_composite {n : ι} {c : DICompositeType ι} {base : Walk ι} {elements : List (Walk ι)}
    (hn : G.node n = .compositeType c) (htag : c.tag ≠ .arrayType)
    (htypes : TypesOk G fuel visited)
    (helem : ∀ e, G.IsElementNode e → ∀ w, G.walk fuel visited e = some w →
      w.ElementOk G.toDIGraph)
    (hbase : TypeWalk (fun n w => G.walk fuel visited n = some w) c.baseType base)
    (helements : List.Forall₂ (fun n w => G.walk fuel visited n = some w) c.elements elements) :
    (Walk.composite n c base elements).TypeOk G.toDIGraph := by
  refine ⟨htypes.typeWalk (by rw [hn]; rfl) hbase, ?_⟩
  split
  · next henum =>
    have hnames := G.enum_elements n c hn henum
    refine ⟨fun w hw => ?_, ?_⟩
    · obtain ⟨e, he, rfl⟩ := DIGraph.node_of_forall₂ helements (fun e he => by
        obtain ⟨name, hname⟩ := hnames e he
        rw [hname]
        rfl) w hw
      obtain ⟨name, hname⟩ := hnames e he
      exact ⟨e, name, by rw [hname]⟩
    · by_cases hempty : c.elements = []
      · rw [hempty] at helements
        cases helements
        exact .inl rfl
      · exact .inr (endsBasic_of_typeWalk (G.enum_base n c hn henum hempty) hbase)
  · next henum =>
    have hnodes := G.record_elements n c hn htag henum
    exact ⟨elementsOk_of_forall₂ helements fun e he => helem e (hnodes e he),
      filterMap_asDerived helements⟩

/-- Walks in a record graph are well formed. -/
theorem walk_ok (G : RecordGraph ι) (fuel : ℕ) (visited : Finset ι) :
    TypesOk G fuel visited ∧
      ∀ n, G.IsElementNode n → ∀ w, G.walk fuel visited n = some w → w.ElementOk G.toDIGraph := by
  induction fuel generalizing visited with
  | zero => exact ⟨fun _ _ h => (by cases h), fun _ _ _ h => (by cases h)⟩
  | succ fuel ih =>
    refine ⟨fun n w hw hn => ?_, fun n hn w hw => (ih visited).1.elementOk hw hn⟩
    have htypes := (ih visited).1
    cases DIGraph.walkStep_of_walk hw with
    | basic _ => trivial
    | string _ => trivial
    | node hnode hplain =>
      next x =>
      rw [hnode] at hn
      cases x <;> simp_all [DINode.isPlain, DINode.isTypeNode, DINode.isType, Walk.TypeOk]
    | var hnode _ =>
      rw [hnode] at hn
      cases hn
    | derived hnode hbase =>
      rw [hnode] at hn
      refine ⟨by simpa [DINode.isTypeNode, DINode.isType, DINode.asDerived] using hn, ?_⟩
      exact htypes.typeWalk (by rw [hnode]; rfl) hbase
    | array hnode _ htag helements hbase =>
      have hcounts := G.array_elements _ _ hnode htag
      refine ⟨fun w hw => ?_, htypes.typeWalk (by rw [hnode]; rfl) hbase⟩
      obtain ⟨e, he, rfl⟩ := DIGraph.node_of_forall₂ helements (fun e he => by
        obtain ⟨count, hcount⟩ := hcounts e he
        rw [hcount]
        rfl) w hw
      obtain ⟨count, hcount⟩ := hcounts e he
      exact ⟨e, count, by rw [hcount]⟩
    | composite hnode _ htag hbase helements =>
      exact typeOk_composite hnode htag (ih _).1 (ih _).2 hbase helements
    | recurring _ _ => trivial
    | skip hnode =>
      rcases hnode with hnode | hnode <;> rw [hnode] at hn <;> cases hn

end RecordGraph

end Walk

end Dimeta
