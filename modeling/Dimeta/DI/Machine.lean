import Dimeta.DI.Walk

/-!
# The visitor step by step

The traversal as a machine: what it does next, the calls that wait for one they made, the open
composites and the state of the callbacks. A call of the traversal, whatever waits for it, is run by
the machine to its result.
-/

set_option autoImplicit false

namespace Dimeta

open Relation

variable {ι σ : Type*}

namespace DINodeVisitor

/-! ### Configurations -/

/-- What comes next: one of the calls, or the return of the last one. -/
inductive Control (ι : Type*) where
  | node (n : ι)
  | type (type : Option ι)
  | invoke (n : ι)
  | ret (result : Bool)

/-- A call that waits: for its type, or for one of its elements while `rest` is still to come. -/
inductive Frame (ι : Type*) where
  | var (n : ι)
  | derived (n : ι) (d : DIDerivedType ι)
  | base (n : ι) (c : DICompositeType ι)
  | elements (n : ι) (c : DICompositeType ι) (rest : List ι)

/-- The stack of the waiting calls has the last one on top. -/
structure Configuration (ι σ : Type*) where
  control : Control ι
  stack : List (Frame ι)
  traversal : Traversal ι σ

/-- The composite that a call traverses. -/
def Frame.composite : Frame ι → Option (ι × DICompositeType ι)
  | .base n c | .elements n c _   => some (n, c)
  | .var _ | .derived _ _ => none

/-! ### Steps -/

variable [DecidableEq ι] (V : DINodeVisitor ι σ) (G : DIGraph ι)

/-- The composites that are open while `n` is traversed, too. -/
def withOpen (n : ι) (c : DICompositeType ι) (visited : Finset ι) : Finset ι :=
  if c.tag = .arrayType then visited else insert n visited

def leaveComposite (n : ι) (c : DICompositeType ι) (t : Traversal ι σ) : Traversal ι σ :=
  ⟨t.visited.erase n, V.leaveCompositeType n c t.callback⟩

def callVariable (n : ι) (type : Option ι) (stack : List (Frame ι)) (t : Traversal ι σ) :
    Configuration ι σ :=
  match V.visitVariable n t.callback with
  | (false, st) => ⟨.ret false, stack, { t with callback := V.leaveVariable n st }⟩
  | (true, st)  => ⟨.type type, .var n :: stack, { t with callback := st }⟩

def callDerivedType (n : ι) (d : DIDerivedType ι) (stack : List (Frame ι)) (t : Traversal ι σ) :
    Configuration ι σ :=
  match V.visitDerivedType n d t.callback with
  | (false, st) => ⟨.ret false, stack, { t with callback := V.leaveDerivedType n d st }⟩
  | (true, st)  => ⟨.type d.baseType, .derived n d :: stack, { t with callback := st }⟩

/-- What waits is the composite; the elements of an array come first. -/
def callCompositeType (n : ι) (c : DICompositeType ι) (stack : List (Frame ι))
    (t : Traversal ι σ) : Configuration ι σ :=
  if n ∈ t.visited then
    ⟨.ret (V.traverseRecurringCompositeType n c t).1, stack,
      (V.traverseRecurringCompositeType n c t).2⟩
  else
    match V.visitCompositeType n c t.callback with
    | (false, st) => ⟨.ret false, stack, V.leaveComposite n c ⟨withOpen n c t.visited, st⟩⟩
    | (true, st)  =>
      if c.tag = .arrayType then
        ⟨.ret true, .elements n c c.elements :: stack, ⟨withOpen n c t.visited, st⟩⟩
      else ⟨.type c.baseType, .base n c :: stack, ⟨withOpen n c t.visited, st⟩⟩

def callInvoke (n : ι) (stack : List (Frame ι)) (t : Traversal ι σ) : Configuration ι σ :=
  let returns (r : Bool × Traversal ι σ) : Configuration ι σ := ⟨.ret r.1, stack, r.2⟩
  match G.node n with
  | .basicType b     => returns (V.traverseBasicType n b t)
  | .derivedType d   => V.callDerivedType n d stack t
  | .compositeType c => V.callCompositeType n c stack t
  | .stringType s    => returns (V.traverseStringType n s t)
  | .var type        => V.callVariable n type stack t
  | .enumerator s    => returns (V.traverseNodeOnly n (.enumerator s) t)
  | .subrange count  => returns (V.traverseNodeOnly n (.subrange count) t)
  | .subroutineType  => returns (V.traverseNodeOnly n .subroutineType t)
  | .subprogram      => returns (false, t)
  | .other           => returns (false, t)

def callType (type : Option ι) (stack : List (Frame ι)) (t : Traversal ι σ) :
    Configuration ι σ :=
  match type with
  | none   => ⟨.ret true, stack, t⟩
  | some n =>
    match V.visitType n t.callback with
    | (false, st) => ⟨.ret false, stack, { t with callback := st }⟩
    | (true, st)  => ⟨.invoke n, stack, { t with callback := st }⟩

def callNode (n : ι) (stack : List (Frame ι)) (t : Traversal ι σ) : Configuration ι σ :=
  let nodeOnly (node : DINode ι) : Configuration ι σ :=
    ⟨.ret (V.traverseNodeOnly n node t).1, stack, (V.traverseNodeOnly n node t).2⟩
  match G.node n with
  | .var type       => V.callVariable n type stack t
  | .subroutineType => nodeOnly .subroutineType
  | node            => if node.isType then ⟨.type (some n), stack, t⟩ else nodeOnly node

/-- The last call returned to one that waits. -/
def returnTo (result : Bool) (frame : Frame ι) (stack : List (Frame ι)) (t : Traversal ι σ) :
    Configuration ι σ :=
  match frame with
  | .var n       => ⟨.ret result, stack, { t with callback := V.leaveVariable n t.callback }⟩
  | .derived n d => ⟨.ret result, stack, { t with callback := V.leaveDerivedType n d t.callback }⟩
  | .base n c    =>
    if c.tag ≠ .arrayType ∧ result = true then ⟨.ret true, .elements n c c.elements :: stack, t⟩
    else ⟨.ret result, stack, V.leaveComposite n c t⟩
  | .elements n c (e :: rest) => ⟨.invoke e, .elements n c rest :: stack, t⟩
  | .elements n c []          =>
    if c.tag = .arrayType then ⟨.type c.baseType, .base n c :: stack, t⟩
    else ⟨.ret true, stack, V.leaveComposite n c t⟩

def step : Configuration ι σ → Option (Configuration ι σ)
  | ⟨.node n, stack, t⟩                 => some (V.callNode G n stack t)
  | ⟨.type type, stack, t⟩              => some (V.callType type stack t)
  | ⟨.invoke n, stack, t⟩               => some (V.callInvoke G n stack t)
  | ⟨.ret result, frame :: stack, t⟩ => some (V.returnTo result frame stack t)
  | ⟨.ret _, [], _⟩                     => none

def Steps : Configuration ι σ → Configuration ι σ → Prop :=
  ReflTransGen fun s s' => V.step G s = some s'

/-! ### The machine runs the traversal -/

variable {V G}

lemma Steps.of_step {s s' s'' : Configuration ι σ} (h : V.step G s = some s')
    (h' : V.Steps G s' s'') : V.Steps G s s'' :=
  ReflTransGen.head h h'

/-- The machine runs the calls of `invoke` to their results. -/
def Runs (V : DINodeVisitor ι σ) (G : DIGraph ι)
    (invoke : ι → Traversal ι σ → Option (Bool × Traversal ι σ)) : Prop :=
  ∀ n t r stack, invoke n t = some r → V.Steps G ⟨.invoke n, stack, t⟩ ⟨.ret r.1, stack, r.2⟩

variable {invoke : ι → Traversal ι σ → Option (Bool × Traversal ι σ)} {t : Traversal ι σ}
  {r : Bool × Traversal ι σ}

lemma Runs.traverseType (h : Runs V G invoke) {type : Option ι}
    (ht : V.traverseType invoke type t = some r) (stack : List (Frame ι)) :
    V.Steps G ⟨.type type, stack, t⟩ ⟨.ret r.1, stack, r.2⟩ := by
  apply Steps.of_step rfl
  cases type with
  | none =>
    obtain rfl := Option.some.inj ht
    exact .refl
  | some n =>
    simp only [DINodeVisitor.traverseType] at ht
    simp only [callType]
    cases hv : V.visitType n t.callback with
    | mk ret st =>
      rw [hv] at ht
      cases ret with
      | false =>
        obtain rfl := Option.some.inj ht
        exact .refl
      | true => exact h n _ r stack ht

/-- The loop over the elements, with one of the results at its end. -/
lemma Runs.traverseElements (h : Runs V G invoke) {n : ι} {c : DICompositeType ι} {es : List ι}
    {t' : Traversal ι σ} (ht : DINodeVisitor.traverseElements invoke es t = some t')
    (stack : List (Frame ι)) (result : Bool) :
    ∃ result', V.Steps G ⟨.ret result, .elements n c es :: stack, t⟩
      ⟨.ret result', .elements n c [] :: stack, t'⟩ := by
  induction es generalizing t result with
  | nil =>
    obtain rfl := Option.some.inj ht
    exact ⟨result, .refl⟩
  | cons e es ih =>
    simp only [DINodeVisitor.traverseElements, Option.bind_eq_bind, Option.bind_eq_some_iff] at ht
    obtain ⟨⟨ret, t₁⟩, he, hes⟩ := ht
    obtain ⟨result', hsteps⟩ := ih hes ret
    exact ⟨result', .of_step rfl ((h e t _ _ he).trans hsteps)⟩

lemma Runs.traverseVariable (h : Runs V G invoke) {n : ι} {type : Option ι}
    (ht : V.traverseVariable invoke n type t = some r) (stack : List (Frame ι)) :
    V.Steps G (V.callVariable n type stack t) ⟨.ret r.1, stack, r.2⟩ := by
  simp only [DINodeVisitor.traverseVariable] at ht
  simp only [callVariable]
  cases hv : V.visitVariable n t.callback with
  | mk ret st =>
    rw [hv] at ht
    cases ret with
    | false =>
      obtain rfl := Option.some.inj ht
      exact .refl
    | true =>
      obtain ⟨r', hr', hr⟩ := Option.bind_eq_some_iff.mp ht
      obtain rfl := Option.some.inj hr
      exact (h.traverseType hr' _).trans (.single rfl)

lemma Runs.traverseDerivedType (h : Runs V G invoke) {n : ι} {d : DIDerivedType ι}
    (ht : V.traverseDerivedType invoke n d t = some r) (stack : List (Frame ι)) :
    V.Steps G (V.callDerivedType n d stack t) ⟨.ret r.1, stack, r.2⟩ := by
  simp only [DINodeVisitor.traverseDerivedType] at ht
  simp only [callDerivedType]
  cases hv : V.visitDerivedType n d t.callback with
  | mk ret st =>
    rw [hv] at ht
    cases ret with
    | false =>
      obtain rfl := Option.some.inj ht
      exact .refl
    | true =>
      obtain ⟨r', hr', hr⟩ := Option.bind_eq_some_iff.mp ht
      obtain rfl := Option.some.inj hr
      exact (h.traverseType hr' _).trans (.single rfl)

/-- An array: its elements, then its type. -/
lemma Runs.traverseBelow_array (h : Runs V G invoke) {n : ι} {c : DICompositeType ι}
    (htag : c.tag = .arrayType) (ht : V.traverseBelow invoke c t = some r)
    (stack : List (Frame ι)) (result : Bool) :
    V.Steps G ⟨.ret result, .elements n c c.elements :: stack, t⟩
      ⟨.ret r.1, stack, V.leaveComposite n c r.2⟩ := by
  simp only [traverseBelow, htag, if_true, ne_eq, not_true_eq_false, if_false] at ht
  obtain ⟨t₁, helements, ht⟩ := Option.bind_eq_some_iff.mp ht
  obtain ⟨⟨ret, t₂⟩, hbase, ht⟩ := Option.bind_eq_some_iff.mp ht
  have hr : r = (ret, t₂) := by
    cases ret with
    | false => exact (Option.some.inj ht).symm
    | true => exact (Option.some.inj ht).symm
  subst hr
  obtain ⟨result', hloop⟩ := h.traverseElements (n := n) (c := c) helements stack result
  have hend : V.step G ⟨.ret result', .elements n c [] :: stack, t₁⟩ =
      some ⟨.type c.baseType, .base n c :: stack, t₁⟩ := by
    simp [step, returnTo, htag]
  have hleave : V.step G ⟨.ret ret, .base n c :: stack, t₂⟩ =
      some ⟨.ret ret, stack, V.leaveComposite n c t₂⟩ := by
    simp [step, returnTo, htag]
  exact hloop.trans (Steps.of_step hend ((h.traverseType hbase _).trans (.single hleave)))

/-- Another composite: its type, then its elements unless the type stops it. -/
lemma Runs.traverseBelow_composite (h : Runs V G invoke) {n : ι} {c : DICompositeType ι}
    (htag : c.tag ≠ .arrayType) (ht : V.traverseBelow invoke c t = some r)
    (stack : List (Frame ι)) :
    V.Steps G ⟨.type c.baseType, .base n c :: stack, t⟩
      ⟨.ret r.1, stack, V.leaveComposite n c r.2⟩ := by
  simp only [traverseBelow, htag, if_false, ne_eq, not_false_eq_true, if_true] at ht
  obtain ⟨t₀, ht₀, ht⟩ := Option.bind_eq_some_iff.mp ht
  obtain rfl := Option.some.inj ht₀
  obtain ⟨⟨ret, t₁⟩, hbase, ht⟩ := Option.bind_eq_some_iff.mp ht
  refine (h.traverseType hbase _).trans ?_
  cases ret with
  | false =>
    obtain rfl := Option.some.inj ht
    have hleave : V.step G ⟨.ret false, .base n c :: stack, t₁⟩ =
        some ⟨.ret false, stack, V.leaveComposite n c t₁⟩ := by
      simp [step, returnTo]
    exact .single hleave
  | true =>
    obtain ⟨t₂, helements, ht⟩ := Option.bind_eq_some_iff.mp ht
    obtain rfl := Option.some.inj ht
    have hbegin : V.step G ⟨.ret true, .base n c :: stack, t₁⟩ =
        some ⟨.ret true, .elements n c c.elements :: stack, t₁⟩ := by
      simp [step, returnTo, htag]
    obtain ⟨result', hloop⟩ := h.traverseElements (n := n) (c := c) helements stack true
    have hleave : V.step G ⟨.ret result', .elements n c [] :: stack, t₂⟩ =
        some ⟨.ret true, stack, V.leaveComposite n c t₂⟩ := by
      simp [step, returnTo, htag]
    exact Steps.of_step hbegin (hloop.trans (.single hleave))

lemma Runs.traverseCompositeType (h : Runs V G invoke) {n : ι} {c : DICompositeType ι}
    (ht : V.traverseCompositeType invoke n c t = some r) (stack : List (Frame ι)) :
    V.Steps G (V.callCompositeType n c stack t) ⟨.ret r.1, stack, r.2⟩ := by
  simp only [DINodeVisitor.traverseCompositeType] at ht
  simp only [callCompositeType]
  by_cases hvisited : n ∈ t.visited
  · rw [if_pos hvisited] at ht ⊢
    obtain rfl := Option.some.inj ht
    exact .refl
  · rw [if_neg hvisited] at ht ⊢
    cases hv : V.visitCompositeType n c t.callback with
    | mk ret st =>
      rw [hv] at ht
      cases ret with
      | false =>
        obtain rfl := Option.some.inj ht
        exact .refl
      | true =>
        obtain ⟨r', hr', hr⟩ := Option.bind_eq_some_iff.mp ht
        obtain rfl := Option.some.inj hr
        by_cases htag : c.tag = .arrayType
        · simp only [withOpen, htag, if_true] at hr' ⊢
          exact h.traverseBelow_array htag hr' stack true
        · simp only [withOpen, htag, if_false] at hr' ⊢
          exact h.traverseBelow_composite htag hr' stack

variable (V G)

/-- What the traversal returns is what the machine comes to, and the calls that wait are as they
were. -/
theorem runs_invokeIfAny (fuel : ℕ) : Runs V G (V.invokeIfAny G fuel) := by
  induction fuel with
  | zero =>
    intro n t r stack h
    cases h
  | succ fuel ih =>
    intro n t r stack h
    apply Steps.of_step rfl
    rw [invokeIfAny] at h
    rw [callInvoke]
    cases hn : G.node n with
    | derivedType d =>
      rw [hn] at h
      exact ih.traverseDerivedType h stack
    | compositeType c =>
      rw [hn] at h
      exact ih.traverseCompositeType h stack
    | var type =>
      rw [hn] at h
      exact ih.traverseVariable h stack
    | basicType | stringType | enumerator | subrange | subroutineType | subprogram | other =>
      rw [hn] at h
      obtain rfl := Option.some.inj h
      exact .refl

theorem runs_traverseNode {fuel : ℕ} {n : ι} {st : σ} {r : Bool × Traversal ι σ}
    (h : V.traverseNode G fuel n st = some r) :
    V.Steps G ⟨.node n, [], ⟨∅, st⟩⟩ ⟨.ret r.1, [], r.2⟩ := by
  have hruns := runs_invokeIfAny V G fuel
  apply Steps.of_step rfl
  cases hn : G.node n with
  | var type =>
    simp only [traverseNode, callNode, hn] at h ⊢
    exact hruns.traverseVariable h []
  | basicType | stringType | derivedType | compositeType =>
    simp only [traverseNode, callNode, hn, DINode.isType, if_true] at h ⊢
    exact hruns.traverseType h []
  | subroutineType | enumerator | subrange | subprogram | other =>
    simp only [traverseNode, callNode, hn, DINode.isType, Bool.false_eq_true, if_false] at h ⊢
    obtain rfl := Option.some.inj h
    exact .refl

end DINodeVisitor

end Dimeta
