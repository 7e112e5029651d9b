import Dimeta.DI.Ancestors

/-!
# Traversals inside a closed set

A set of nodes is closed if it contains what its nodes refer to. A traversal from one of its nodes
calls back on its nodes only, however it is cut short, so it keeps what the callbacks keep there.
-/

set_option autoImplicit false

namespace Dimeta

open Relation

variable {ι σ : Type*}

/-- The type is missing or in the set. -/
def Within (S : Set ι) (t : Option ι) : Prop := ∀ n, t = some n → n ∈ S

variable {S : Set ι} {n : ι}

lemma within_none : Within S none := by
  intro n hn
  cases hn

lemma within_some_iff : Within S (some n) ↔ n ∈ S := by
  constructor
  · intro h
    exact h n rfl
  · rintro h _ ⟨⟩
    exact h

lemma join_map_some {α : Type*} (x : Option α) : (x.map some).join = x := by
  cases x <;> rfl

namespace DIGraph

variable (G : DIGraph ι)

/-- The set contains what its nodes refer to. -/
def Closed (S : Set ι) : Prop := ∀ a b, a ∈ S → G.Leads a b → b ∈ S

/-- What can be reached from the nodes of `R`. -/
def reachable (R : Set ι) : Set ι := {b | ∃ a ∈ R, ReflTransGen G.Leads a b}

variable {G}

lemma closed_reachable (R : Set ι) : G.Closed (G.reachable R) := by
  rintro a b ⟨r, hr, hra⟩ hab
  exact ⟨r, hr, hra.tail hab⟩

lemma closed_univ : G.Closed Set.univ := fun _ _ _ _ => trivial

lemma subset_reachable (R : Set ι) : R ⊆ G.reachable R := fun r hr => ⟨r, hr, .refl⟩

lemma Closed.typeRef (hS : G.Closed S) (hn : n ∈ S) : Within S (G.node n).typeRef :=
  fun b hb => hS n b hn (.inl hb)

lemma Closed.derived (hS : G.Closed S) (hn : n ∈ S) {d : DIDerivedType ι}
    (hd : G.node n = .derivedType d) : Within S d.baseType := by
  have h := hS.typeRef hn
  rw [hd] at h
  exact h

lemma Closed.composite (hS : G.Closed S) (hn : n ∈ S) {c : DICompositeType ι}
    (hc : G.node n = .compositeType c) : Within S c.baseType := by
  have h := hS.typeRef hn
  rw [hc] at h
  exact h

lemma Closed.var (hS : G.Closed S) (hn : n ∈ S) {type : Option ι} (htype : G.node n = .var type) :
    Within S type := by
  have h := hS.typeRef hn
  rw [htype] at h
  exact h

lemma Closed.element (hS : G.Closed S) (hn : n ∈ S) {c : DICompositeType ι}
    (hc : G.node n = .compositeType c) {e : ι} (he : e ∈ c.elements) : e ∈ S :=
  hS n e hn (.inr ⟨c, hc, he⟩)

end DIGraph

namespace DINodeVisitor

/-- The callbacks keep a property of the state, at the nodes of a set; those that are not given do
nothing to it. -/
structure KeepsAt (G : DIGraph ι) (S : Set ι) (I : σ → Prop) (V : DINodeVisitor ι σ) : Prop where
  visitType : ∀ n ∈ S, ∀ s, I s → I (V.visitType n s).2 := by exact fun _ _ _ h => h
  visitNode : ∀ n ∈ S, ∀ s, I s → I (V.visitNode n (G.node n) s).2 := by exact fun _ _ _ h => h
  leaveNode : ∀ n ∈ S, ∀ s, I s → I (V.leaveNode n (G.node n) s) := by exact fun _ _ _ h => h
  visitVariable : ∀ n ∈ S, ∀ s, I s → I (V.visitVariable n s).2 := by exact fun _ _ _ h => h
  leaveVariable : ∀ n ∈ S, ∀ s, I s → I (V.leaveVariable n s) := by exact fun _ _ _ h => h
  visitBasicType : ∀ n ∈ S, ∀ b, G.node n = .basicType b → ∀ s, I s →
    I (V.visitBasicType n b s).2 := by exact fun _ _ _ _ _ h => h
  leaveBasicType : ∀ n ∈ S, ∀ b, G.node n = .basicType b → ∀ s, I s →
    I (V.leaveBasicType n b s) := by exact fun _ _ _ _ _ h => h
  visitStringType : ∀ n ∈ S, ∀ x, G.node n = .stringType x → ∀ s, I s →
    I (V.visitStringType n x s).2 := by exact fun _ _ _ _ _ h => h
  leaveStringType : ∀ n ∈ S, ∀ x, G.node n = .stringType x → ∀ s, I s →
    I (V.leaveStringType n x s) := by exact fun _ _ _ _ _ h => h
  visitDerivedType : ∀ n ∈ S, ∀ d, G.node n = .derivedType d → ∀ s, I s →
    I (V.visitDerivedType n d s).2 := by exact fun _ _ _ _ _ h => h
  leaveDerivedType : ∀ n ∈ S, ∀ d, G.node n = .derivedType d → ∀ s, I s →
    I (V.leaveDerivedType n d s) := by exact fun _ _ _ _ _ h => h
  visitCompositeType : ∀ n ∈ S, ∀ c, G.node n = .compositeType c → ∀ s, I s →
    I (V.visitCompositeType n c s).2 := by exact fun _ _ _ _ _ h => h
  leaveCompositeType : ∀ n ∈ S, ∀ c, G.node n = .compositeType c → ∀ s, I s →
    I (V.leaveCompositeType n c s) := by exact fun _ _ _ _ _ h => h
  visitRecurringCompositeType : ∀ n ∈ S, ∀ c, G.node n = .compositeType c → ∀ s, I s →
    I (V.visitRecurringCompositeType n c s).2 := by exact fun _ _ _ _ _ h => h
  leaveRecurringCompositeType : ∀ n ∈ S, ∀ c, G.node n = .compositeType c → ∀ s, I s →
    I (V.leaveRecurringCompositeType n c s) := by exact fun _ _ _ _ _ h => h

variable {V : DINodeVisitor ι σ} {G : DIGraph ι} {I : σ → Prop}
  {invoke : ι → Traversal ι σ → Option (Bool × Traversal ι σ)}

/-- The traversals from the nodes of the set keep the property. -/
def InvokeKeeps (S : Set ι) (I : σ → Prop)
    (invoke : ι → Traversal ι σ → Option (Bool × Traversal ι σ)) : Prop :=
  ∀ n ∈ S, ∀ t r, I t.callback → invoke n t = some r → I r.2.callback

variable {t t' : Traversal ι σ} {r : Bool × Traversal ι σ}

lemma KeepsAt.traverseType (hV : KeepsAt G S I V) (hinvoke : InvokeKeeps S I invoke)
    {type : Option ι} (htype : Within S type) (ht : I t.callback)
    (h : V.traverseType invoke type t = some r) : I r.2.callback := by
  cases type with
  | none =>
    obtain rfl := Option.some.inj h
    exact ht
  | some n =>
    have hn := htype n rfl
    have hvisit := hV.visitType n hn t.callback ht
    simp only [DINodeVisitor.traverseType] at h
    cases hv : V.visitType n t.callback with
    | mk ret st =>
      rw [hv] at h hvisit
      cases ret with
      | false =>
        obtain rfl := Option.some.inj h
        exact hvisit
      | true => exact hinvoke n hn _ r hvisit h

lemma InvokeKeeps.traverseElements (hinvoke : InvokeKeeps S I invoke) {es : List ι}
    (hes : ∀ e ∈ es, e ∈ S) (ht : I t.callback)
    (h : DINodeVisitor.traverseElements invoke es t = some t') : I t'.callback := by
  induction es generalizing t with
  | nil =>
    obtain rfl := Option.some.inj h
    exact ht
  | cons e es ih =>
    obtain ⟨⟨ret, t₁⟩, he, h⟩ := Option.bind_eq_some_iff.mp h
    have ht₁ := hinvoke e (hes e List.mem_cons_self) t _ ht he
    exact ih (fun e he => hes e (List.mem_cons_of_mem _ he)) ht₁ h

lemma KeepsAt.traverseVariable (hV : KeepsAt G S I V) (hS : G.Closed S)
    (hinvoke : InvokeKeeps S I invoke) (hn : n ∈ S) {type : Option ι}
    (hnode : G.node n = .var type) (ht : I t.callback)
    (h : V.traverseVariable invoke n type t = some r) : I r.2.callback := by
  have hvisit := hV.visitVariable n hn t.callback ht
  simp only [DINodeVisitor.traverseVariable] at h
  cases hv : V.visitVariable n t.callback with
  | mk ret st =>
    rw [hv] at h hvisit
    cases ret with
    | false =>
      obtain rfl := Option.some.inj h
      exact hV.leaveVariable n hn _ hvisit
    | true =>
      obtain ⟨r', hr', h⟩ := Option.bind_eq_some_iff.mp h
      obtain rfl := Option.some.inj h
      exact hV.leaveVariable n hn _ (hV.traverseType hinvoke (hS.var hn hnode) hvisit hr')

lemma KeepsAt.traverseDerivedType (hV : KeepsAt G S I V) (hS : G.Closed S)
    (hinvoke : InvokeKeeps S I invoke) (hn : n ∈ S) {d : DIDerivedType ι}
    (hnode : G.node n = .derivedType d) (ht : I t.callback)
    (h : V.traverseDerivedType invoke n d t = some r) : I r.2.callback := by
  have hvisit := hV.visitDerivedType n hn d hnode t.callback ht
  simp only [DINodeVisitor.traverseDerivedType] at h
  cases hv : V.visitDerivedType n d t.callback with
  | mk ret st =>
    rw [hv] at h hvisit
    cases ret with
    | false =>
      obtain rfl := Option.some.inj h
      exact hV.leaveDerivedType n hn d hnode _ hvisit
    | true =>
      obtain ⟨r', hr', h⟩ := Option.bind_eq_some_iff.mp h
      obtain rfl := Option.some.inj h
      have hbase := hV.traverseType hinvoke (hS.derived hn hnode) hvisit hr'
      exact hV.leaveDerivedType n hn d hnode _ hbase

/-- The elements are traversed before the type or after it. -/
lemma KeepsAt.traverseBelow (hV : KeepsAt G S I V) (hS : G.Closed S)
    (hinvoke : InvokeKeeps S I invoke) (hn : n ∈ S) {c : DICompositeType ι}
    (hnode : G.node n = .compositeType c) (ht : I t.callback)
    (h : V.traverseBelow invoke c t = some r) : I r.2.callback := by
  have htype := hS.composite hn hnode
  have helements : ∀ e ∈ c.elements, e ∈ S := fun e he => hS.element hn hnode he
  by_cases htag : c.tag = .arrayType
  · simp only [DINodeVisitor.traverseBelow, htag, if_true, ne_eq, not_true_eq_false, if_false] at h
    obtain ⟨t₁, h₁, h⟩ := Option.bind_eq_some_iff.mp h
    obtain ⟨⟨ret, t₂⟩, h₂, h⟩ := Option.bind_eq_some_iff.mp h
    have ht₁ := hinvoke.traverseElements helements ht h₁
    have ht₂ := hV.traverseType hinvoke htype ht₁ h₂
    cases ret with
    | false | true =>
      obtain rfl := Option.some.inj h
      exact ht₂
  · simp only [DINodeVisitor.traverseBelow, htag, if_false, ne_eq, not_false_eq_true, if_true] at h
    obtain ⟨t₀, h₀, h⟩ := Option.bind_eq_some_iff.mp h
    obtain rfl := Option.some.inj h₀
    obtain ⟨⟨ret, t₁⟩, h₁, h⟩ := Option.bind_eq_some_iff.mp h
    have ht₁ := hV.traverseType hinvoke htype ht h₁
    cases ret with
    | false =>
      obtain rfl := Option.some.inj h
      exact ht₁
    | true =>
      obtain ⟨t₂, h₂, h⟩ := Option.bind_eq_some_iff.mp h
      obtain rfl := Option.some.inj h
      exact hinvoke.traverseElements helements ht₁ h₂

variable [DecidableEq ι]

lemma KeepsAt.traverseCompositeType (hV : KeepsAt G S I V) (hS : G.Closed S)
    (hinvoke : InvokeKeeps S I invoke) (hn : n ∈ S) {c : DICompositeType ι}
    (hnode : G.node n = .compositeType c) (ht : I t.callback)
    (h : V.traverseCompositeType invoke n c t = some r) : I r.2.callback := by
  simp only [DINodeVisitor.traverseCompositeType] at h
  by_cases hvisited : n ∈ t.visited
  · rw [if_pos hvisited] at h
    obtain rfl := Option.some.inj h
    apply hV.leaveRecurringCompositeType n hn c hnode
    exact hV.visitRecurringCompositeType n hn c hnode _ ht
  · rw [if_neg hvisited] at h
    have hvisit := hV.visitCompositeType n hn c hnode t.callback ht
    cases hv : V.visitCompositeType n c t.callback with
    | mk ret st =>
      rw [hv] at h hvisit
      cases ret with
      | false =>
        obtain rfl := Option.some.inj h
        exact hV.leaveCompositeType n hn c hnode _ hvisit
      | true =>
        obtain ⟨r', hr', h⟩ := Option.bind_eq_some_iff.mp h
        obtain rfl := Option.some.inj h
        apply hV.leaveCompositeType n hn c hnode
        exact hV.traverseBelow hS hinvoke hn hnode hvisit hr'

/-- What the callbacks keep at the nodes of a closed set, every traversal from one of them keeps. -/
theorem KeepsAt.invokeIfAny (hV : KeepsAt G S I V) (hS : G.Closed S) (fuel : ℕ) :
    InvokeKeeps S I (V.invokeIfAny G fuel) := by
  induction fuel with
  | zero =>
    intro n _ t r _ h
    cases h
  | succ fuel ih =>
    intro n hn t r ht h
    rw [DINodeVisitor.invokeIfAny] at h
    have hvisit := hV.visitNode n hn t.callback ht
    have hleave := hV.leaveNode n hn _ hvisit
    cases hnode : G.node n with
    | derivedType d =>
      rw [hnode] at h
      exact hV.traverseDerivedType hS ih hn hnode ht h
    | compositeType c =>
      rw [hnode] at h
      exact hV.traverseCompositeType hS ih hn hnode ht h
    | var type =>
      rw [hnode] at h
      exact hV.traverseVariable hS ih hn hnode ht h
    | basicType b =>
      rw [hnode] at h
      obtain rfl := Option.some.inj h
      exact hV.leaveBasicType n hn b hnode _ (hV.visitBasicType n hn b hnode _ ht)
    | stringType x =>
      rw [hnode] at h
      obtain rfl := Option.some.inj h
      exact hV.leaveStringType n hn x hnode _ (hV.visitStringType n hn x hnode _ ht)
    | enumerator | subrange | subroutineType =>
      rw [hnode] at h hleave
      obtain rfl := Option.some.inj h
      exact hleave
    | subprogram | other =>
      rw [hnode] at h
      obtain rfl := Option.some.inj h
      exact ht

end DINodeVisitor

end Dimeta
