import Dimeta.DI.Util
import Dimeta.Parse.Complete

/-!
# Data members

Which elements of a record count as data members is decided twice: the utilities compare all flags
of a member with the static flag, the event visitor tests the static flag alone. They agree on a
record exactly if no static member has another flag.
-/

set_option autoImplicit false

namespace Dimeta

variable {ι : Type}

/-! ### The members of a composite -/

section Composite

variable (G : DIGraph ι) (c : DICompositeType ι)

/-- `get_num_composite_members` -/
def getNumCompositeMembers : ℕ := c.elements.countP fun e => (G.node e).isNonStaticMember

/-- `get_composite_members` -/
def getCompositeMembers : List ι := c.elements.filter fun e => (G.node e).isNonStaticMember

end Composite

/-! ### Members as the visitor classifies them -/

/-- A `DW_TAG_member` that the event visitor takes for a non-static member. -/
def DINode.visitedAsNonStatic (x : DINode ι) : Bool :=
  x.asDerived.any fun d => d.tag == .member && !(({} : MetaData ι).visitDerived d).isMemberStatic

namespace MetaData

/-- What the visitor noted before makes no difference. -/
lemma isMemberStatic_visitDerived {d : DIDerivedType ι} (htag : d.tag = .member)
    (m : MetaData ι) : (m.visitDerived d).isMemberStatic = d.isStaticMember := by
  rw [visitDerived_of_isMemberNode (by simp [DIDerivedType.isMemberNode, htag])]
  rfl

end MetaData

lemma visitedAsNonStatic_derivedType {d : DIDerivedType ι} (htag : d.tag = .member) :
    (DINode.derivedType d).visitedAsNonStatic = !d.isStaticMember := by
  simp [DINode.visitedAsNonStatic, DINode.asDerived, htag,
    MetaData.isMemberStatic_visitDerived htag]

lemma visitedAsNonStatic_eq_false {x : DINode ι} (htag : x.tag ≠ .member) :
    x.visitedAsNonStatic = false := by
  cases x with
  | derivedType d =>
    have hne : d.tag ≠ .member := htag
    simp [DINode.visitedAsNonStatic, DINode.asDerived, hne]
  | _ => rfl

/-- The only static member flag is the whole flag word. -/
def DIDerivedType.StaticAlone (d : DIDerivedType ι) : Prop :=
  d.isStaticMember = true → d.flags = DIFlags.staticMember

/-- The word and the bit say the same exactly if the bit comes alone. -/
lemma isNonStaticMember_eq_iff {d : DIDerivedType ι} (htag : d.tag = .member) :
    (DINode.derivedType d).isNonStaticMember = (DINode.derivedType d).visitedAsNonStatic ↔
      d.StaticAlone := by
  have hword : (DINode.derivedType d).isNonStaticMember = (d.flags != DIFlags.staticMember) := by
    simp [DINode.isNonStaticMember, DINode.tag, DINode.flags, htag]
  rw [hword, visitedAsNonStatic_derivedType htag, DIDerivedType.StaticAlone]
  cases hstatic : d.isStaticMember with
  | true => simp
  | false =>
    have hne : d.flags ≠ DIFlags.staticMember := by
      intro hflags
      have hbit : d.isStaticMember = true := by
        rw [DIDerivedType.isStaticMember, hflags]
        decide
      rw [hstatic] at hbit
      cases hbit
    simp [hne]

lemma filter_eq_filter_iff {α : Type*} {p q : α → Bool} {l : List α} :
    l.filter p = l.filter q ↔ ∀ a ∈ l, p a = q a := by
  constructor
  · intro h a ha
    have hmem : a ∈ l.filter p ↔ a ∈ l.filter q := by rw [h]
    simp only [List.mem_filter, ha, true_and] at hmem
    exact Bool.eq_iff_iff.mpr hmem
  · intro h
    exact List.filter_congr h

/-- The members of a composite are its elements that the visitor takes for non-static members, in
order, exactly if no static member among them has another flag. -/
theorem composite_members_iff {G : DIGraph ι} {c : DICompositeType ι}
    (hderived : ∀ e ∈ c.elements, (G.node e).tag = .member → ∃ d, G.node e = .derivedType d) :
    (getCompositeMembers G c = c.elements.filter (fun e => (G.node e).visitedAsNonStatic) ∧
        getNumCompositeMembers G c =
          (c.elements.filter fun e => (G.node e).visitedAsNonStatic).length) ↔
      ∀ e ∈ c.elements, ∀ d, G.node e = .derivedType d → d.tag = .member → d.StaticAlone := by
  have hnum : getNumCompositeMembers G c = (getCompositeMembers G c).length :=
    List.countP_eq_length_filter
  rw [hnum, and_iff_left_of_imp (congrArg List.length), getCompositeMembers, filter_eq_filter_iff]
  constructor
  · intro h e he d hd htag
    have heq := h e he
    rw [hd] at heq
    exact (isNonStaticMember_eq_iff htag).mp heq
  · intro h e he
    by_cases htag : (G.node e).tag = .member
    · obtain ⟨d, hd⟩ := hderived e he htag
      rw [hd] at htag ⊢
      exact (isNonStaticMember_eq_iff htag).mpr (h e he d hd htag)
    · rw [visitedAsNonStatic_eq_false htag]
      simp [DINode.isNonStaticMember, htag]

/-! ### A public static member -/

/-- `class C { public: static int s; int i; };`; public members have the flags 3. -/
def publicStatic (flags : DIFlags) : DIGraph (Fin 4) where
  node
    | 0 => .compositeType { tag := .classType, name := "C", sizeInBits := 32, elements := [1, 2] }
    | 1 => .derivedType { tag := .member, name := "s", flags := flags, baseType := some 3 }
    | 2 => .derivedType { tag := .member, name := "i", sizeInBits := 32, flags := 3,
                          baseType := some 3 }
    | 3 => .basicType { name := "int", sizeInBits := 32, encoding := .signed }

/-- The composite `C`. -/
def classC : DICompositeType (Fin 4) :=
  { tag := .classType, name := "C", sizeInBits := 32, elements := [1, 2] }

theorem composite_members_iff_static :
    (getCompositeMembers (publicStatic DIFlags.staticMember) classC = [2] ∧
        getNumCompositeMembers (publicStatic DIFlags.staticMember) classC = 1) ↔
      ∀ e ∈ classC.elements, ∀ d, (publicStatic DIFlags.staticMember).node e = .derivedType d →
        d.tag = .member → d.StaticAlone := by
  apply composite_members_iff
  intro e he _
  have hcases : e = 1 ∨ e = 2 := by simpa [classC] using he
  rcases hcases with rfl | rfl
  · exact ⟨_, rfl⟩
  · exact ⟨_, rfl⟩

/-- With the flags of a public static member, `s` counts as a data member. -/
theorem not_composite_members :
    getCompositeMembers (publicStatic 0x1003) classC = [1, 2] ∧
      classC.elements.filter (fun e => ((publicStatic 0x1003).node e).visitedAsNonStatic) = [2] := by
  decide

end Dimeta
