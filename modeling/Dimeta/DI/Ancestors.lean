import Dimeta.DI.Machine

/-!
# Open composites

The composites whose traversal waits are the ancestors of the next node. The visitor keeps those
that are no arrays in its set, so such a composite is reported as recurring exactly below itself,
and whatever is cut off there is expanded elsewhere.
-/

set_option autoImplicit false

namespace Dimeta

open Relation

variable {ι σ : Type*}

namespace DINodeVisitor

/-! ### Composites on the stack -/

/-- The composites whose traversal waits, the last one first. -/
def openComposites (stack : List (Frame ι)) : List (ι × DICompositeType ι) :=
  stack.filterMap Frame.composite

/-- Those of them that are no arrays. -/
def openRecords (stack : List (Frame ι)) : List ι :=
  ((openComposites stack).filter fun x => x.2.tag ≠ .arrayType).map Prod.fst

variable {n m : ι} {c : DICompositeType ι} {stack stack' : List (Frame ι)}

lemma openRecords_congr (h : openComposites stack = openComposites stack') :
    openRecords stack = openRecords stack' := by
  rw [openRecords, openRecords, h]

lemma openRecords_array (htag : c.tag = .arrayType)
    (h : openComposites stack = (n, c) :: openComposites stack') :
    openRecords stack = openRecords stack' := by
  rw [openRecords, openRecords, h, List.filter_cons_of_neg (by simp [htag])]

lemma openRecords_record (htag : c.tag ≠ .arrayType)
    (h : openComposites stack = (n, c) :: openComposites stack') :
    openRecords stack = n :: openRecords stack' := by
  rw [openRecords, openRecords, h, List.filter_cons_of_pos (by simp [htag]), List.map_cons]

lemma mem_openRecords_iff :
    m ∈ openRecords stack ↔ ∃ c, (m, c) ∈ openComposites stack ∧ c.tag ≠ .arrayType := by
  simp [openRecords]

variable {V : DINodeVisitor ι σ} {G : DIGraph ι}

/-- The same composites are open in `s` as are below `stack`, and visited. -/
def SameOpen (s : Configuration ι σ) (stack : List (Frame ι)) (visited : Finset ι) : Prop :=
  openComposites s.stack = openComposites stack ∧ s.traversal.visited = visited

lemma sameOpen_callVariable (n : ι) (type : Option ι) (stack : List (Frame ι))
    (t : Traversal ι σ) : SameOpen (V.callVariable n type stack t) stack t.visited := by
  rw [callVariable]
  split <;> exact ⟨rfl, rfl⟩

lemma sameOpen_callDerivedType (n : ι) (d : DIDerivedType ι) (stack : List (Frame ι))
    (t : Traversal ι σ) : SameOpen (V.callDerivedType n d stack t) stack t.visited := by
  rw [callDerivedType]
  split <;> exact ⟨rfl, rfl⟩

lemma sameOpen_callType (type : Option ι) (stack : List (Frame ι)) (t : Traversal ι σ) :
    SameOpen (V.callType type stack t) stack t.visited := by
  cases type with
  | none => exact ⟨rfl, rfl⟩
  | some n =>
    rw [callType]
    split <;> exact ⟨rfl, rfl⟩

lemma sameOpen_callNode (n : ι) (stack : List (Frame ι)) (t : Traversal ι σ) :
    SameOpen (V.callNode G n stack t) stack t.visited := by
  rw [callNode]
  split
  · exact sameOpen_callVariable n _ stack t
  · exact ⟨rfl, rfl⟩
  · split_ifs <;> exact ⟨rfl, rfl⟩

variable [DecidableEq ι]

/-- A composite that is called is met again, entered, or visited and not entered. -/
lemma callCompositeType_cases (n : ι) (c : DICompositeType ι) (stack : List (Frame ι))
    (t : Traversal ι σ) :
    n ∈ t.visited ∧ SameOpen (V.callCompositeType n c stack t) stack t.visited ∨
      n ∉ t.visited ∧
        (openComposites (V.callCompositeType n c stack t).stack = (n, c) :: openComposites stack ∧
            (V.callCompositeType n c stack t).traversal.visited = withOpen n c t.visited ∨
          SameOpen (V.callCompositeType n c stack t) stack ((withOpen n c t.visited).erase n)) := by
  rw [callCompositeType]
  by_cases hvisited : n ∈ t.visited
  · rw [if_pos hvisited]
    exact .inl ⟨hvisited, rfl, rfl⟩
  · rw [if_neg hvisited]
    refine .inr ⟨hvisited, ?_⟩
    split
    · exact .inr ⟨rfl, rfl⟩
    · split_ifs <;> exact .inl ⟨rfl, rfl⟩

lemma returnTo_cases (result : Bool) (frame : Frame ι) (stack : List (Frame ι))
    (t : Traversal ι σ) :
    SameOpen (V.returnTo result frame stack t) (frame :: stack) t.visited ∨
      ∃ n c, openComposites (frame :: stack) = (n, c) :: openComposites stack ∧
        SameOpen (V.returnTo result frame stack t) stack (t.visited.erase n) := by
  cases frame with
  | var n => exact .inl ⟨rfl, rfl⟩
  | derived n d => exact .inl ⟨rfl, rfl⟩
  | base n c =>
    rw [returnTo]
    split_ifs
    · exact .inl ⟨rfl, rfl⟩
    · exact .inr ⟨n, c, rfl, rfl, rfl⟩
  | elements n c rest =>
    cases rest with
    | nil =>
      rw [returnTo]
      split_ifs
      · exact .inl ⟨rfl, rfl⟩
      · exact .inr ⟨n, c, rfl, rfl, rfl⟩
    | cons e rest => exact .inl ⟨rfl, rfl⟩

variable {s s' : Configuration ι σ}

/-- What a step does to the open composites: nothing, or one is entered, visited and not entered, or
left. -/
lemma step_cases (h : V.step G s = some s') :
    SameOpen s' s.stack s.traversal.visited ∨
      (∃ n c, G.node n = .compositeType c ∧ n ∉ s.traversal.visited ∧
        (openComposites s'.stack = (n, c) :: openComposites s.stack ∧
            s'.traversal.visited = withOpen n c s.traversal.visited ∨
          SameOpen s' s.stack ((withOpen n c s.traversal.visited).erase n))) ∨
      ∃ n c, openComposites s.stack = (n, c) :: openComposites s'.stack ∧
        s'.traversal.visited = s.traversal.visited.erase n := by
  obtain ⟨control, stack, t⟩ := s
  cases control with
  | node n =>
    obtain rfl := Option.some.inj h
    exact .inl (sameOpen_callNode n stack t)
  | type type =>
    obtain rfl := Option.some.inj h
    exact .inl (sameOpen_callType type stack t)
  | invoke n =>
    obtain rfl := Option.some.inj h
    rw [callInvoke]
    cases hn : G.node n with
    | derivedType d => exact .inl (sameOpen_callDerivedType n d stack t)
    | var type => exact .inl (sameOpen_callVariable n type stack t)
    | compositeType c =>
      rcases callCompositeType_cases (V := V) n c stack t with ⟨-, hsame⟩ | ⟨hvisited, hcase⟩
      · exact .inl hsame
      · exact .inr (.inl ⟨n, c, hn, hvisited, hcase⟩)
    | basicType | stringType | enumerator | subrange | subroutineType | subprogram | other =>
      exact .inl ⟨rfl, rfl⟩
  | ret result =>
    cases stack with
    | nil => cases h
    | cons frame stack =>
      obtain rfl := Option.some.inj h
      rcases returnTo_cases (V := V) result frame stack t with
        hsame | ⟨n, c, hopen, hleft, hvisited⟩
      · exact .inl hsame
      · refine .inr (.inr ⟨n, c, ?_, hvisited⟩)
        rw [hleft]
        exact hopen

/-- What holds of each configuration that is reached. -/
structure StackInv (G : DIGraph ι) (s : Configuration ι σ) : Prop where
  nodes : ∀ x ∈ openComposites s.stack, G.node x.1 = .compositeType x.2
  nodup : (openRecords s.stack).Nodup
  visited : s.traversal.visited = (openRecords s.stack).toFinset

lemma stackInv_start (G : DIGraph ι) (control : Control ι) (st : σ) :
    StackInv G ⟨control, [], ⟨∅, st⟩⟩ where
  nodes _ hx := absurd hx List.not_mem_nil
  nodup := List.nodup_nil
  visited := rfl

lemma StackInv.notMem_visited_of_array (h : StackInv G s) (hn : G.node n = .compositeType c)
    (htag : c.tag = .arrayType) : n ∉ s.traversal.visited := by
  rw [h.visited, List.mem_toFinset, mem_openRecords_iff]
  rintro ⟨c', hmem, htag'⟩
  obtain rfl := DINode.compositeType.inj (hn.symm.trans (h.nodes _ hmem))
  exact htag' htag

lemma StackInv.of_sameOpen (h : StackInv G s)
    (hsame : SameOpen s' s.stack s.traversal.visited) : StackInv G s' := by
  obtain ⟨hopen, hvisited⟩ := hsame
  refine ⟨?_, ?_, ?_⟩
  · rw [hopen]
    exact h.nodes
  · rw [openRecords_congr hopen]
    exact h.nodup
  · rw [hvisited, openRecords_congr hopen]
    exact h.visited

lemma StackInv.enter (h : StackInv G s) (hn : G.node n = .compositeType c)
    (hmem : n ∉ s.traversal.visited)
    (hopen : openComposites s'.stack = (n, c) :: openComposites s.stack)
    (hvisited : s'.traversal.visited = withOpen n c s.traversal.visited) : StackInv G s' := by
  refine ⟨?_, ?_, ?_⟩
  · rw [hopen]
    intro x hx
    rcases List.mem_cons.mp hx with rfl | hx
    · exact hn
    · exact h.nodes x hx
  · by_cases htag : c.tag = .arrayType
    · rw [openRecords_array htag hopen]
      exact h.nodup
    · rw [openRecords_record htag hopen, List.nodup_cons, ← List.mem_toFinset, ← h.visited]
      exact ⟨hmem, h.nodup⟩
  · rw [hvisited, withOpen]
    split_ifs with htag
    · rw [openRecords_array htag hopen]
      exact h.visited
    · rw [openRecords_record htag hopen, List.toFinset_cons, h.visited]

lemma StackInv.leave (h : StackInv G s)
    (hopen : openComposites s.stack = (n, c) :: openComposites s'.stack)
    (hvisited : s'.traversal.visited = s.traversal.visited.erase n) : StackInv G s' := by
  have hn : G.node n = .compositeType c := by
    apply h.nodes (n, c)
    rw [hopen]
    exact List.mem_cons_self
  have hnodes : ∀ x ∈ openComposites s'.stack, G.node x.1 = .compositeType x.2 := by
    intro x hx
    apply h.nodes x
    rw [hopen]
    exact List.mem_cons_of_mem _ hx
  have hnodup := h.nodup
  have hset := h.visited
  by_cases htag : c.tag = .arrayType
  · rw [openRecords_array htag hopen] at hnodup hset
    refine ⟨hnodes, hnodup, ?_⟩
    rw [hvisited, Finset.erase_eq_of_notMem (h.notMem_visited_of_array hn htag), hset]
  · rw [openRecords_record htag hopen] at hnodup hset
    obtain ⟨hmem, hnodup⟩ := List.nodup_cons.mp hnodup
    refine ⟨hnodes, hnodup, ?_⟩
    rw [hvisited, hset, List.toFinset_cons, Finset.erase_insert]
    rw [List.mem_toFinset]
    exact hmem

/-- Each step keeps it: the set follows the stack. -/
lemma StackInv.step (h : StackInv G s) (hstep : V.step G s = some s') : StackInv G s' := by
  rcases step_cases hstep with hsame | ⟨n, c, hn, hmem, hcase⟩ | ⟨n, c, hopen, hvisited⟩
  · exact h.of_sameOpen hsame
  · rcases hcase with ⟨hopen, hvisited⟩ | ⟨hopen, hvisited⟩
    · exact h.enter hn hmem hopen hvisited
    · -- visited and not entered: it was inserted and is erased
      apply h.of_sameOpen
      refine ⟨hopen, ?_⟩
      rw [hvisited, withOpen]
      split_ifs
      · exact Finset.erase_eq_of_notMem hmem
      · exact Finset.erase_insert hmem
  · exact h.leave hopen hvisited

lemma StackInv.steps (h : StackInv G s) (hsteps : V.Steps G s s') : StackInv G s' := by
  induction hsteps with
  | refl => exact h
  | tail _ hstep ih => exact ih.step hstep

/-! ### Reports -/

/-- What the visitor is told of a composite: that it is expanded, or that it recurs. -/
inductive Report (ι : Type*) where
  | expanded (n : ι)
  | recurring (n : ι)

omit [DecidableEq ι] in
/-- The same visitor, with the visits of composites recorded in order. -/
def reporting (V : DINodeVisitor ι σ) : DINodeVisitor ι (σ × List (Report ι)) where
  visitType n s := ((V.visitType n s.1).1, (V.visitType n s.1).2, s.2)
  visitNode n x s := ((V.visitNode n x s.1).1, (V.visitNode n x s.1).2, s.2)
  leaveNode n x s := (V.leaveNode n x s.1, s.2)
  visitVariable n s := ((V.visitVariable n s.1).1, (V.visitVariable n s.1).2, s.2)
  leaveVariable n s := (V.leaveVariable n s.1, s.2)
  visitBasicType n b s := ((V.visitBasicType n b s.1).1, (V.visitBasicType n b s.1).2, s.2)
  leaveBasicType n b s := (V.leaveBasicType n b s.1, s.2)
  visitStringType n t s := ((V.visitStringType n t s.1).1, (V.visitStringType n t s.1).2, s.2)
  leaveStringType n t s := (V.leaveStringType n t s.1, s.2)
  visitDerivedType n d s := ((V.visitDerivedType n d s.1).1, (V.visitDerivedType n d s.1).2, s.2)
  leaveDerivedType n d s := (V.leaveDerivedType n d s.1, s.2)
  visitCompositeType n c s :=
    ((V.visitCompositeType n c s.1).1, (V.visitCompositeType n c s.1).2, s.2 ++ [.expanded n])
  leaveCompositeType n c s := (V.leaveCompositeType n c s.1, s.2)
  visitRecurringCompositeType n c s :=
    ((V.visitRecurringCompositeType n c s.1).1, (V.visitRecurringCompositeType n c s.1).2,
      s.2 ++ [.recurring n])
  leaveRecurringCompositeType n c s := (V.leaveRecurringCompositeType n c s.1, s.2)

omit [DecidableEq ι] in
lemma log_callVariable (n : ι) (type : Option ι) (stack : List (Frame ι))
    (t : Traversal ι (σ × List (Report ι))) :
    (V.reporting.callVariable n type stack t).traversal.callback.2 = t.callback.2 := by
  simp only [callVariable, reporting]
  cases (V.visitVariable n t.callback.1).1 <;> rfl

/-- What a configuration reports with its next step. -/
def reports (G : DIGraph ι) (s : Configuration ι σ) : List (Report ι) :=
  match s.control with
  | .invoke n =>
    match G.node n with
    | .compositeType _ =>
      if n ∈ s.traversal.visited then [.recurring n] else [.expanded n]
    | _ => []
  | _ => []

lemma reports_step {s s' : Configuration ι (σ × List (Report ι))}
    (h : V.reporting.step G s = some s') :
    s'.traversal.callback.2 = s.traversal.callback.2 ++ reports G s := by
  obtain ⟨control, stack, t⟩ := s
  cases control with
  | node n =>
    obtain rfl := Option.some.inj h
    simp only [callNode, reports, List.append_nil]
    split
    · exact log_callVariable n _ stack t
    · rfl
    · split_ifs <;> rfl
  | type type =>
    obtain rfl := Option.some.inj h
    cases type with
    | none => simp [callType, reports]
    | some n =>
      simp only [callType, reporting, reports, List.append_nil]
      cases (V.visitType n t.callback.1).1 <;> rfl
  | invoke n =>
    -- only the visit of a composite that is not open reports
    obtain rfl := Option.some.inj h
    simp only [callInvoke, reports]
    cases hn : G.node n with
    | compositeType c =>
      simp only [callCompositeType]
      by_cases hvisited : n ∈ t.visited
      · simp only [if_pos hvisited]
        rfl
      · simp only [if_neg hvisited, reporting]
        cases (V.visitCompositeType n c t.callback.1).1 with
        | false => rfl
        | true => split_ifs <;> rfl
    | derivedType d =>
      simp only [callDerivedType, reporting, List.append_nil]
      cases (V.visitDerivedType n d t.callback.1).1 <;> rfl
    | var type =>
      rw [List.append_nil]
      exact log_callVariable n type stack t
    | basicType | stringType | enumerator | subrange | subroutineType | subprogram | other =>
      exact (List.append_nil _).symm
  | ret result =>
    simp only [reports, List.append_nil]
    cases stack with
    | nil => cases h
    | cons frame stack =>
      obtain rfl := Option.some.inj h
      cases frame with
      | var n => rfl
      | derived n d => rfl
      | base n c =>
        simp only [returnTo]
        split_ifs <;> rfl
      | elements n c rest =>
        cases rest with
        | cons e rest => rfl
        | nil =>
          simp only [returnTo]
          split_ifs <;> rfl

end DINodeVisitor

/-! ### What is below a node -/

namespace DIGraph

/-- The edges of the graph: base types, types of variables, and elements. -/
def Leads (G : DIGraph ι) (a b : ι) : Prop :=
  (G.node a).typeRef = some b ∨ ∃ c, G.node a = .compositeType c ∧ b ∈ c.elements

/-- What is referred to as a type is one. -/
def TypesAreTypes (G : DIGraph ι) : Prop :=
  ∀ a b, (G.node a).typeRef = some b → (G.node b).isType = true

/-- The edges that lead to none of the nodes. -/
def LeadsAround (G : DIGraph ι) (around : Finset ι) (a b : ι) : Prop := G.Leads a b ∧ b ∉ around

variable {G : DIGraph ι} {around around' : Finset ι} {n m : ι}

lemma LeadsAround.mono (h : around ⊆ around') {a b : ι} (hab : G.LeadsAround around' a b) :
    G.LeadsAround around a b :=
  ⟨hab.1, fun hmem => hab.2 (h hmem)⟩

/-- A path goes on from the last time it is at its start. -/
lemma exists_last_of_reflTransGen [DecidableEq ι] (h : ReflTransGen (G.LeadsAround around) n m) :
    m = n ∨ ∃ e, G.LeadsAround (insert n around) n e ∧
      ReflTransGen (G.LeadsAround (insert n around)) e m := by
  induction h with
  | refl => exact .inl rfl
  | @tail b c _ hstep ih =>
    by_cases hc : c = n
    · exact .inl hc
    · have hstep' : G.LeadsAround (insert n around) b c := by
        refine ⟨hstep.1, ?_⟩
        rw [Finset.mem_insert, not_or]
        exact ⟨hc, hstep.2⟩
      rcases ih with rfl | ⟨e, hne, heb⟩
      · exact .inr ⟨c, hstep', .refl⟩
      · exact .inr ⟨e, hne, heb.tail hstep'⟩

/-- A way to a composite from a node without elements is through the type of that node. -/
lemma exists_typeRef_of_reflTransGen [DecidableEq ι] {c : DICompositeType ι}
    (hm : G.node m = .compositeType c) (hn : (G.node n).asComposite = none)
    (h : ReflTransGen (G.LeadsAround around) n m) :
    ∃ e, (G.node n).typeRef = some e ∧ G.LeadsAround (insert n around) n e ∧
      ReflTransGen (G.LeadsAround (insert n around)) e m := by
  rcases exists_last_of_reflTransGen h with rfl | ⟨e, hne, hem⟩
  · rw [hm] at hn
    cases hn
  · rcases hne.1 with hedge | ⟨c', hc', -⟩
    · exact ⟨e, hedge, hne, hem⟩
    · rw [hc'] at hn
      cases hn

/-- From a composite it is through the base type or an element. -/
lemma exists_child_of_reflTransGen [DecidableEq ι] {c : DICompositeType ι}
    (hn : G.node n = .compositeType c) (h : ReflTransGen (G.LeadsAround around) n m) :
    m = n ∨ ∃ e, (c.baseType = some e ∨ e ∈ c.elements) ∧ G.LeadsAround (insert n around) n e ∧
      ReflTransGen (G.LeadsAround (insert n around)) e m := by
  rcases exists_last_of_reflTransGen h with hmn | ⟨e, hne, hem⟩
  · exact .inl hmn
  · refine .inr ⟨e, ?_, hne, hem⟩
    rcases hne.1 with hedge | ⟨c', hc', he⟩
    · rw [hn] at hedge
      exact .inl hedge
    · obtain rfl := DINode.compositeType.inj (hn.symm.trans hc')
      exact .inr he

end DIGraph

namespace DINodeVisitor

/-- All callbacks return true. -/
structure GoesOn (V : DINodeVisitor ι σ) : Prop where
  visitType : ∀ n s, (V.visitType n s).1 = true
  visitNode : ∀ n x s, (V.visitNode n x s).1 = true
  visitVariable : ∀ n s, (V.visitVariable n s).1 = true
  visitBasicType : ∀ n b s, (V.visitBasicType n b s).1 = true
  visitStringType : ∀ n t s, (V.visitStringType n t s).1 = true
  visitDerivedType : ∀ n d s, (V.visitDerivedType n d s).1 = true
  visitCompositeType : ∀ n c s, (V.visitCompositeType n c s).1 = true
  visitRecurringCompositeType : ∀ n c s, (V.visitRecurringCompositeType n c s).1 = true

lemma GoesOn.reporting {V : DINodeVisitor ι σ} (h : V.GoesOn) : V.reporting.GoesOn where
  visitType n s := h.visitType n s.1
  visitNode n x s := h.visitNode n x s.1
  visitVariable n s := h.visitVariable n s.1
  visitBasicType n b s := h.visitBasicType n b s.1
  visitStringType n t s := h.visitStringType n t s.1
  visitDerivedType n d s := h.visitDerivedType n d s.1
  visitCompositeType n c s := h.visitCompositeType n c s.1
  visitRecurringCompositeType n c s := h.visitRecurringCompositeType n c s.1

lemma keeps_report (V : DINodeVisitor ι σ) (x : Report ι) :
    Keeps (fun s : σ × List (Report ι) => x ∈ s.2) V.reporting where
  visitType _ _ h := h
  visitNode _ _ _ h := h
  leaveNode _ _ _ h := h
  visitVariable _ _ h := h
  leaveVariable _ _ h := h
  visitBasicType _ _ _ h := h
  leaveBasicType _ _ _ h := h
  visitStringType _ _ _ h := h
  leaveStringType _ _ _ h := h
  visitDerivedType _ _ _ h := h
  leaveDerivedType _ _ _ h := h
  visitCompositeType _ _ _ h := List.mem_append_left _ h
  leaveCompositeType _ _ _ h := h
  visitRecurringCompositeType _ _ _ h := List.mem_append_left _ h
  leaveRecurringCompositeType _ _ _ h := h

section Run

variable [DecidableEq ι] {V : DINodeVisitor ι σ} {G : DIGraph ι} {fuel : ℕ} {visited : Finset ι}
  {n m : ι} {w : Walk ι}

omit [DecidableEq ι] in
lemma GoesOn.runType_fst (hV : V.GoesOn) {U : ι → Walk ι → Prop} {type : Option ι}
    (hw : TypeWalk U type w) (hrun : ∀ b, type = some b → ∀ s, (V.run w s).1 = true) (s : σ) :
    (V.runType w.root (V.run w) s).1 = true := by
  cases hroot : w.root with
  | none => rfl
  | some k =>
    simp only [runType]
    have hvisit := hV.visitType k s
    cases hv : V.visitType k s with
    | mk ret st =>
      rw [hv] at hvisit
      obtain rfl : ret = true := hvisit
      cases hw with
      | null => cases hroot
      | type _ => exact hrun _ rfl st

/-- The walk below a type returns true. -/
lemma GoesOn.run_fst (hV : V.GoesOn) (hG : G.TypesAreTypes)
    (h : G.walk fuel visited n = some w) (hn : (G.node n).isType = true) (s : σ) :
    (V.run w s).1 = true := by
  induction fuel generalizing visited n w s with
  | zero => cases h
  | succ fuel ih =>
    -- the type below, and the state before it
    have hbelow : ∀ {type : Option ι} {base : Walk ι} {visited : Finset ι},
        TypeWalk (fun n w => G.walk fuel visited n = some w) type base →
          (G.node n).typeRef = type → ∀ s, (V.runType base.root (V.run base) s).1 = true := by
      intro type base visited hbase htype
      apply hV.runType_fst hbase
      rintro b rfl s
      exact ih hbase.of_some (hG n b htype) s
    cases DIGraph.walkStep_of_walk h with
    | basic => exact hV.visitBasicType n _ s
    | string => exact hV.visitStringType n _ s
    | node => exact hV.visitNode n _ s
    | @var type w hnode hw =>
      have hvisit : V.visitVariable n s = (true, (V.visitVariable n s).2) :=
        Prod.ext (hV.visitVariable n s) rfl
      simp only [run]
      rw [hvisit]
      exact hbelow hw (by rw [hnode]; rfl) _
    | @derived d base hnode hbase =>
      have hvisit : V.visitDerivedType n d s = (true, (V.visitDerivedType n d s).2) :=
        Prod.ext (hV.visitDerivedType n d s) rfl
      simp only [run]
      rw [hvisit]
      exact hbelow hbase (by rw [hnode]; rfl) _
    | @array c base elements hnode _ _ _ hbase =>
      have hvisit : V.visitCompositeType n c s = (true, (V.visitCompositeType n c s).2) :=
        Prod.ext (hV.visitCompositeType n c s) rfl
      simp only [run]
      rw [hvisit]
      exact hbelow hbase (by rw [hnode]; rfl) _
    | @composite c base elements hnode _ _ hbase _ =>
      have hvisit : V.visitCompositeType n c s = (true, (V.visitCompositeType n c s).2) :=
        Prod.ext (hV.visitCompositeType n c s) rfl
      have hret := hbelow hbase (by rw [hnode]; rfl) (V.visitCompositeType n c s).2
      simp only [run]
      rw [hvisit]
      dsimp only
      cases hb : V.runType base.root (V.run base) (V.visitCompositeType n c s).2 with
      | mk ret st =>
        rw [hb] at hret
        obtain rfl : ret = true := hret
        rfl
    | recurring => exact hV.visitRecurringCompositeType n _ s
    | skip hnode =>
      rcases hnode with hnode | hnode <;> rw [hnode] at hn <;> cases hn

/-- Whatever was recorded before, the walk records the report. -/
def Reports (V : DINodeVisitor ι σ) (x : Report ι) (w : Walk ι) : Prop :=
  ∀ s, x ∈ (V.reporting.run w s).2.2

/-- The same of the walk below a type reference. -/
def ReportsType (V : DINodeVisitor ι σ) (x : Report ι) (w : Walk ι) : Prop :=
  ∀ s, x ∈ (V.reporting.runType w.root (V.reporting.run w) s).2.2

section Reports

variable {x : Report ι} {b : ι} {base : Walk ι} {elements : List (Walk ι)}
  {c : DICompositeType ι}

omit [DecidableEq ι] in
/-- What one of the elements reports, their loop reports. -/
lemma mem_runElements (hw : w ∈ elements) (h : V.Reports x w) (s : σ × List (Report ι)) :
    x ∈ (V.reporting.runElements elements s).2 := by
  induction elements generalizing s with
  | nil => cases hw
  | cons w' ws ih =>
    rw [runElements]
    rcases List.mem_cons.mp hw with rfl | hw
    · exact (keeps_report V x).runElements ws (h s)
    · exact ih hw _

omit [DecidableEq ι] in
lemma GoesOn.reportsType (hV : V.GoesOn) (hroot : w.root = some b) (h : V.Reports x w) :
    V.ReportsType x w := by
  intro s
  have hvisit : V.reporting.visitType b s = (true, (V.reporting.visitType b s).2) :=
    Prod.ext (hV.visitType b s.1) rfl
  rw [hroot, runType, hvisit]
  exact h _

omit [DecidableEq ι] in
lemma GoesOn.reports_var (hV : V.GoesOn) (h : V.ReportsType x w) : V.Reports x (.var n w) := by
  intro s
  have hvisit : V.reporting.visitVariable n s = (true, (V.reporting.visitVariable n s).2) :=
    Prod.ext (hV.visitVariable n s.1) rfl
  simp only [run]
  rw [hvisit]
  apply (keeps_report V x).leaveVariable
  exact h _

omit [DecidableEq ι] in
lemma GoesOn.reports_derived (hV : V.GoesOn) {d : DIDerivedType ι} (h : V.ReportsType x base) :
    V.Reports x (.derived n d base) := by
  intro s
  have hvisit : V.reporting.visitDerivedType n d s =
      (true, (V.reporting.visitDerivedType n d s).2) :=
    Prod.ext (hV.visitDerivedType n d s.1) rfl
  simp only [run]
  rw [hvisit]
  apply (keeps_report V x).leaveDerivedType
  exact h _

omit [DecidableEq ι] in
/-- An array type reports itself, what its elements report and what its base type does. -/
lemma GoesOn.reports_array (hV : V.GoesOn)
    (h : x = .expanded n ∨ V.ReportsType x base ∨ ∃ w ∈ elements, V.Reports x w) :
    V.Reports x (.array n c elements base) := by
  intro s
  have hkeeps := keeps_report V x
  have hvisit : V.reporting.visitCompositeType n c s =
      (true, (V.reporting.visitCompositeType n c s).2) :=
    Prod.ext (hV.visitCompositeType n c s.1) rfl
  simp only [run]
  rw [hvisit]
  apply hkeeps.leaveCompositeType n c
  rcases h with rfl | hbase | ⟨w, hw, helement⟩
  · apply hkeeps.runType _ fun _ => hkeeps.run base
    apply hkeeps.runElements
    exact List.mem_append_right _ List.mem_cons_self
  · exact hbase _
  · apply hkeeps.runType _ fun _ => hkeeps.run base
    exact mem_runElements hw helement _

omit [DecidableEq ι] in
/-- Another composite does so too: the elements are entered, as the base type returns true. -/
lemma GoesOn.reports_composite (hV : V.GoesOn)
    (hret : ∀ s, (V.reporting.runType base.root (V.reporting.run base) s).1 = true)
    (h : x = .expanded n ∨ V.ReportsType x base ∨ ∃ w ∈ elements, V.Reports x w) :
    V.Reports x (.composite n c base elements) := by
  intro s
  have hkeeps := keeps_report V x
  have hvisit : V.reporting.visitCompositeType n c s =
      (true, (V.reporting.visitCompositeType n c s).2) :=
    Prod.ext (hV.visitCompositeType n c s.1) rfl
  have hbase : ∀ s, V.reporting.runType base.root (V.reporting.run base) s =
      (true, (V.reporting.runType base.root (V.reporting.run base) s).2) :=
    fun s => Prod.ext (hret s) rfl
  simp only [run]
  rw [hvisit]
  dsimp only
  rw [hbase]
  apply hkeeps.leaveCompositeType n c
  rcases h with rfl | hreports | ⟨w, hw, helement⟩
  · apply hkeeps.runElements
    apply hkeeps.runType _ fun _ => hkeeps.run base
    exact List.mem_append_right _ List.mem_cons_self
  · apply hkeeps.runElements
    exact hreports _
  · exact mem_runElements hw helement _

end Reports

/-- The composites below a node are expanded, as far as they are reached around the open ones. The
induction is on the tree; a path is followed from the last time it is at the node. -/
lemma GoesOn.expanded_mem (hV : V.GoesOn) (hG : G.TypesAreTypes) {c : DICompositeType ι}
    (hm : G.node m = .compositeType c) (h : G.walk fuel visited n = some w) (hn : n ∉ visited)
    (hreach : ReflTransGen (G.LeadsAround visited) n m) : V.Reports (.expanded m) w := by
  induction fuel generalizing visited n w with
  | zero => cases h
  | succ fuel ih =>
    -- what the node leads to, with the node open or not
    have hchild : ∀ visited' ⊆ insert n visited, ∀ e w', G.walk fuel visited' e = some w' →
        G.LeadsAround (insert n visited) n e →
        ReflTransGen (G.LeadsAround (insert n visited)) e m → V.Reports (.expanded m) w' := by
      intro visited' hsub e w' hw' hne hem
      refine ih hw' (fun hmem => hne.2 (hsub hmem)) ?_
      have hle : ∀ a b, G.LeadsAround (insert n visited) a b → G.LeadsAround visited' a b :=
        fun _ _ hab => hab.mono hsub
      exact ReflTransGen.mono hle _ _ hem
    have htype : ∀ visited' ⊆ insert n visited, ∀ e base,
        TypeWalk (fun n w => G.walk fuel visited' n = some w) (some e) base →
        G.LeadsAround (insert n visited) n e →
        ReflTransGen (G.LeadsAround (insert n visited)) e m →
          V.ReportsType (.expanded m) base := by
      intro visited' hsub e base hbase hne hem
      exact hV.reportsType (DIGraph.root_of_walk hbase.of_some)
        (hchild visited' hsub e base hbase.of_some hne hem)
    -- a node that is no composite only leads on through its type
    have hthrough : (G.node n).asComposite = none → ∀ base,
        TypeWalk (fun n w => G.walk fuel visited n = some w) (G.node n).typeRef base →
          V.ReportsType (.expanded m) base := by
      intro hnone base hbase
      obtain ⟨e, hedge, hne, hem⟩ := DIGraph.exists_typeRef_of_reflTransGen hm hnone hreach
      rw [hedge] at hbase
      exact htype visited (Finset.subset_insert n visited) e base hbase hne hem
    -- a composite is the one that is looked for, or leads to it over its type or an element
    have hcomposite : ∀ visited' ⊆ insert n visited, ∀ c' base elements,
        G.node n = .compositeType c' →
        TypeWalk (fun n w => G.walk fuel visited' n = some w) c'.baseType base →
        List.Forall₂ (fun n w => G.walk fuel visited' n = some w) c'.elements elements →
          Report.expanded m = .expanded n ∨ V.ReportsType (.expanded m) base ∨
            ∃ w ∈ elements, V.Reports (.expanded m) w := by
      intro visited' hsub c' base elements hnode hbase helements
      rcases DIGraph.exists_child_of_reflTransGen hnode hreach with
        rfl | ⟨e, hedge | he, hne, hem⟩
      · exact .inl rfl
      · rw [hedge] at hbase
        exact .inr (.inl (htype visited' hsub e base hbase hne hem))
      · obtain ⟨w', hw', hwalk⟩ := exists_mem_of_forall₂ helements he
        exact .inr (.inr ⟨w', hw', hchild visited' hsub e w' hwalk hne hem⟩)
    have hleaf : (G.node n).asComposite = none → (G.node n).typeRef = none →
        V.Reports (.expanded m) w := by
      intro hnone htype
      obtain ⟨e, hedge, -⟩ := DIGraph.exists_typeRef_of_reflTransGen hm hnone hreach
      rw [htype] at hedge
      cases hedge
    cases DIGraph.walkStep_of_walk h with
    | basic hnode => exact hleaf (by rw [hnode]; rfl) (by rw [hnode]; rfl)
    | string hnode => exact hleaf (by rw [hnode]; rfl) (by rw [hnode]; rfl)
    | node hnode hplain =>
      next node =>
      cases node with
      | enumerator | subrange | subroutineType =>
        exact hleaf (by rw [hnode]; rfl) (by rw [hnode]; rfl)
      | _ => cases hplain
    | @var type w hnode hw =>
      apply hV.reports_var
      apply hthrough (by rw [hnode]; rfl)
      rw [hnode]
      exact hw
    | @derived d base hnode hbase =>
      apply hV.reports_derived
      apply hthrough (by rw [hnode]; rfl)
      rw [hnode]
      exact hbase
    | @array c base elements hnode _ _ helements hbase =>
      apply hV.reports_array
      exact hcomposite visited (Finset.subset_insert n visited) c base elements hnode hbase
        helements
    | @composite c base elements hnode _ _ hbase helements =>
      have hret : ∀ s, (V.reporting.runType base.root (V.reporting.run base) s).1 = true := by
        refine hV.reporting.runType_fst hbase fun b hb s => ?_
        rw [hb] at hbase
        exact hV.reporting.run_fst hG hbase.of_some (hG n b (by rw [hnode]; exact hb)) s
      apply hV.reports_composite hret
      exact hcomposite _ (Finset.Subset.refl _) c base elements hnode hbase helements
    | recurring _ hvisited => exact absurd hvisited hn
    | skip hnode =>
      rcases hnode with hnode | hnode
      · exact hleaf (by rw [hnode]; rfl) (by rw [hnode]; rfl)
      · exact hleaf (by rw [hnode]; rfl) (by rw [hnode]; rfl)

end Run

/-! ### Whole traversals -/

section Traversal

variable [DecidableEq ι] {V : DINodeVisitor ι σ} {G : DIGraph ι}

/-- A call of `invoke_if_any` returns, with the open composites as they were. -/
lemma returns_invoke [Fintype ι] (hG : G.CyclesPassRecords) (n : ι) (stack : List (Frame ι))
    (t : Traversal ι σ) :
    ∃ result st, V.Steps G ⟨.invoke n, stack, t⟩ ⟨.ret result, stack, ⟨t.visited, st⟩⟩ := by
  obtain ⟨fuel, w, hw⟩ := DIGraph.hasWalk_of_cyclesPassRecords hG t.visited n
  exact ⟨_, _, runs_invokeIfAny V G fuel n t _ stack (invokeIfAny_eq_run V hw t.callback)⟩

lemma returns_type [Fintype ι] (hG : G.CyclesPassRecords) (type : Option ι)
    (stack : List (Frame ι)) (t : Traversal ι σ) :
    ∃ result st, V.Steps G ⟨.type type, stack, t⟩ ⟨.ret result, stack, ⟨t.visited, st⟩⟩ := by
  cases type with
  | none => exact ⟨true, t.callback, .single rfl⟩
  | some n =>
    cases hv : V.visitType n t.callback with
    | mk ret st =>
      cases ret with
      | false =>
        have hstep : V.step G ⟨.type (some n), stack, t⟩ =
            some ⟨.ret false, stack, ⟨t.visited, st⟩⟩ := by
          simp [step, callType, hv]
        exact ⟨false, st, .single hstep⟩
      | true =>
        have hstep : V.step G ⟨.type (some n), stack, t⟩ =
            some ⟨.invoke n, stack, ⟨t.visited, st⟩⟩ := by
          simp [step, callType, hv]
        obtain ⟨result, st', hreturn⟩ := returns_invoke (V := V) hG n stack ⟨t.visited, st⟩
        exact ⟨result, st', Steps.of_step hstep hreturn⟩

lemma returns_node [Fintype ι] (hG : G.CyclesPassRecords) (n : ι) (stack : List (Frame ι))
    (t : Traversal ι σ) :
    ∃ result st, V.Steps G ⟨.node n, stack, t⟩ ⟨.ret result, stack, ⟨t.visited, st⟩⟩ := by
  cases hn : G.node n with
  | var type =>
    cases hv : V.visitVariable n t.callback with
    | mk ret st =>
      cases ret with
      | false =>
        have hstep : V.step G ⟨.node n, stack, t⟩ =
            some ⟨.ret false, stack, ⟨t.visited, V.leaveVariable n st⟩⟩ := by
          simp [step, callNode, hn, callVariable, hv]
        exact ⟨false, _, .single hstep⟩
      | true =>
        have hstep : V.step G ⟨.node n, stack, t⟩ =
            some ⟨.type type, .var n :: stack, ⟨t.visited, st⟩⟩ := by
          simp [step, callNode, hn, callVariable, hv]
        obtain ⟨result, st', hreturn⟩ :=
          returns_type (V := V) hG type (.var n :: stack) ⟨t.visited, st⟩
        exact ⟨result, _, Steps.of_step hstep (hreturn.trans (.single rfl))⟩
  | basicType | stringType | derivedType | compositeType =>
    have hstep : V.step G ⟨.node n, stack, t⟩ = some ⟨.type (some n), stack, t⟩ := by
      simp [step, callNode, hn, DINode.isType]
    obtain ⟨result, st, hreturn⟩ := returns_type (V := V) hG (some n) stack t
    exact ⟨result, st, Steps.of_step hstep hreturn⟩
  | subroutineType | enumerator | subrange | subprogram | other =>
    have hstep : V.step G ⟨.node n, stack, t⟩ = some
        ⟨.ret (V.traverseNodeOnly n (G.node n) t).1, stack,
          (V.traverseNodeOnly n (G.node n) t).2⟩ := by
      simp [step, callNode, hn, DINode.isType]
    exact ⟨_, _, .single hstep⟩

lemma StackInv.mem_visited_iff {s : Configuration ι σ} (h : StackInv G s) {m : ι} :
    m ∈ s.traversal.visited ↔ ∃ c, (m, c) ∈ openComposites s.stack ∧ c.tag ≠ .arrayType := by
  rw [h.visited, List.mem_toFinset, mem_openRecords_iff]

/-- The set holds an open composite unless it is an array. -/
lemma StackInv.mem_visited_iff_of_node {s : Configuration ι σ} (h : StackInv G s) {m : ι}
    {c : DICompositeType ι} (hm : G.node m = .compositeType c) :
    m ∈ s.traversal.visited ↔ c.tag ≠ .arrayType ∧ (m, c) ∈ openComposites s.stack := by
  rw [h.mem_visited_iff]
  constructor
  · rintro ⟨c', hmem, htag⟩
    obtain rfl := DINode.compositeType.inj (hm.symm.trans (h.nodes _ hmem))
    exact ⟨htag, hmem⟩
  · rintro ⟨htag, hmem⟩
    exact ⟨c, hmem, htag⟩

/-- There is a report exactly where a composite is called. -/
lemma reports_eq_singleton_iff {s : Configuration ι σ} {x : Report ι} :
    reports G s = [x] ↔ ∃ m c, s.control = .invoke m ∧ G.node m = .compositeType c ∧
      x = if m ∈ s.traversal.visited then .recurring m else .expanded m := by
  rw [reports]
  constructor
  · intro h
    split at h
    · next m hcontrol =>
      split at h
      · next c hc =>
        refine ⟨m, c, hcontrol, hc, ?_⟩
        split_ifs at h ⊢
        · exact (List.singleton_inj.mp h).symm
        · exact (List.singleton_inj.mp h).symm
      · cases h
    · cases h
  · rintro ⟨m, c, hcontrol, hc, rfl⟩
    rw [hcontrol]
    simp only [hc]
    split_ifs <;> rfl

/-- A composite is reported as recurring where it is called below itself, arrays excepted. -/
lemma StackInv.reports_recurring_iff {s : Configuration ι σ} (h : StackInv G s) {m : ι} :
    reports G s = [.recurring m] ↔ s.control = .invoke m ∧
      ∃ c, G.node m = .compositeType c ∧ c.tag ≠ .arrayType ∧ (m, c) ∈ openComposites s.stack := by
  rw [reports_eq_singleton_iff]
  constructor
  · rintro ⟨k, c, hcontrol, hc, hreport⟩
    split_ifs at hreport with hvisited
    obtain rfl := Report.recurring.inj hreport
    exact ⟨hcontrol, c, hc, (h.mem_visited_iff_of_node hc).mp hvisited⟩
  · rintro ⟨hcontrol, c, hc, hopen⟩
    refine ⟨m, c, hcontrol, hc, ?_⟩
    rw [if_pos ((h.mem_visited_iff_of_node hc).mpr hopen)]

lemma StackInv.reports_expanded_iff {s : Configuration ι σ} (h : StackInv G s) {m : ι} :
    reports G s = [.expanded m] ↔ s.control = .invoke m ∧
      ∃ c, G.node m = .compositeType c ∧
        ¬ (c.tag ≠ .arrayType ∧ (m, c) ∈ openComposites s.stack) := by
  rw [reports_eq_singleton_iff]
  constructor
  · rintro ⟨k, c, hcontrol, hc, hreport⟩
    split_ifs at hreport with hvisited
    obtain rfl := Report.expanded.inj hreport
    exact ⟨hcontrol, c, hc, fun hopen => hvisited ((h.mem_visited_iff_of_node hc).mpr hopen)⟩
  · rintro ⟨hcontrol, c, hc, hopen⟩
    refine ⟨m, c, hcontrol, hc, ?_⟩
    rw [if_neg fun hvisited => hopen ((h.mem_visited_iff_of_node hc).mp hvisited)]

/-- The traversal expands every composite that the node leads to. -/
lemma GoesOn.exists_traverseNode [Fintype ι] (hV : V.GoesOn) (hG : G.CyclesPassRecords)
    (htypes : G.TypesAreTypes) (n : ι) (st : σ) :
    ∃ fuel r, (∀ fuel' ≥ fuel, V.reporting.traverseNode G fuel' n (st, []) = some r) ∧
      ∀ m c, ReflTransGen G.Leads n m → G.node m = .compositeType c →
        .expanded m ∈ r.2.callback.2 := by
  obtain ⟨fuel, hfuel⟩ := traverseNode_ends (σ := σ × List (Report ι)) hG n
  obtain ⟨r, hr⟩ := hfuel V.reporting (st, [])
  refine ⟨fuel, r, hr, fun m c hreach hm => ?_⟩
  obtain ⟨fuel₁, w, hw⟩ := DIGraph.hasWalk_of_cyclesPassRecords hG ∅ n
  have haround : ReflTransGen (G.LeadsAround ∅) n m := by
    refine ReflTransGen.mono (fun a b hab => ?_) _ _ hreach
    exact ⟨hab, Finset.notMem_empty b⟩
  by_cases hn : ((G.node n).isVariable || (G.node n).isType) = true
  · obtain ⟨s', -, hrun⟩ := V.reporting.traverseNode_eq_run_of_visitType
      (DIGraph.walk_mono (Nat.le_max_right fuel fuel₁) hw) hn (hV.reporting.visitType n (st, []))
    rw [hr _ (Nat.le_max_left fuel fuel₁)] at hrun
    obtain rfl := Option.some.inj hrun
    exact hV.expanded_mem htypes hm hw (Finset.notMem_empty n) haround s'
  · -- other nodes lead nowhere
    rcases ReflTransGen.cases_head hreach with rfl | ⟨e, hne | ⟨c', hc', -⟩, -⟩
    · rw [hm] at hn
      exact absurd rfl hn
    · cases hnode : G.node n <;> rw [hnode] at hn hne
      all_goals first | exact absurd rfl hn | cases hne
    · rw [hc'] at hn
      exact absurd rfl hn

/-- In every configuration of a traversal the visited nodes are the open composites that are no
arrays, and each call comes back to them. A composite is reported as recurring exactly where it is
called below itself and is no array, and expanded otherwise; and all composites below the start are
expanded. -/
theorem GoesOn.recurring_iff_open [Fintype ι] (hV : V.GoesOn) (hG : G.CyclesPassRecords)
    (htypes : G.TypesAreTypes) (n : ι) (st : σ) :
    (∀ s, V.reporting.Steps G ⟨.node n, [], ⟨∅, (st, [])⟩⟩ s →
      (∀ m, m ∈ s.traversal.visited ↔
        ∃ c, (m, c) ∈ openComposites s.stack ∧ c.tag ≠ .arrayType) ∧
      ((∀ result, s.control ≠ .ret result) → ∃ result st', V.reporting.Steps G s
        ⟨.ret result, s.stack, ⟨s.traversal.visited, st'⟩⟩) ∧
      ∀ s', V.reporting.step G s = some s' → ∀ m,
        (s'.traversal.callback.2 = s.traversal.callback.2 ++ [.recurring m] ↔
          s.control = .invoke m ∧ ∃ c, G.node m = .compositeType c ∧ c.tag ≠ .arrayType ∧
            (m, c) ∈ openComposites s.stack) ∧
        (s'.traversal.callback.2 = s.traversal.callback.2 ++ [.expanded m] ↔
          s.control = .invoke m ∧ ∃ c, G.node m = .compositeType c ∧
            ¬ (c.tag ≠ .arrayType ∧ (m, c) ∈ openComposites s.stack))) ∧
    ∃ fuel r, (∀ fuel' ≥ fuel, V.reporting.traverseNode G fuel' n (st, []) = some r) ∧
      V.reporting.Steps G ⟨.node n, [], ⟨∅, (st, [])⟩⟩ ⟨.ret r.1, [], r.2⟩ ∧
      ∀ m c, ReflTransGen G.Leads n m → G.node m = .compositeType c →
        .expanded m ∈ r.2.callback.2 := by
  refine ⟨fun s hsteps => ?_, ?_⟩
  · have hinv := (stackInv_start G (.node n) (st, ([] : List (Report ι)))).steps hsteps
    refine ⟨fun m => hinv.mem_visited_iff, fun hcall => ?_, fun s' hstep m => ?_⟩
    · obtain ⟨control, stack, t⟩ := s
      cases control with
      | node k => exact returns_node hG k stack t
      | type type => exact returns_type hG type stack t
      | invoke k => exact returns_invoke hG k stack t
      | ret result => exact absurd rfl (hcall result)
    · rw [reports_step hstep, List.append_cancel_left_eq, List.append_cancel_left_eq]
      exact ⟨hinv.reports_recurring_iff, hinv.reports_expanded_iff⟩
  · obtain ⟨fuel, r, hr, hexpanded⟩ := hV.exists_traverseNode hG htypes n st
    exact ⟨fuel, r, hr, runs_traverseNode _ G (hr fuel (Nat.le_refl fuel)), hexpanded⟩

end Traversal

/-! ### An array below itself -/

lemma typesAreTypes_treeNode : treeNode.TypesAreTypes := by
  intro a b h
  fin_cases a <;> cases h <;> rfl

lemma goesOn_default : ({} : DINodeVisitor (Fin 6) Unit).GoesOn where
  visitType _ _ := rfl
  visitNode _ _ _ := rfl
  visitVariable _ _ := rfl
  visitBasicType _ _ _ := rfl
  visitStringType _ _ _ := rfl
  visitDerivedType _ _ _ := rfl
  visitCompositeType _ _ _ := rfl
  visitRecurringCompositeType _ _ _ := rfl

/-- Several steps in one. -/
def stepN [DecidableEq ι] (V : DINodeVisitor ι σ) (G : DIGraph ι) :
    ℕ → Configuration ι σ → Option (Configuration ι σ)
  | 0, s     => some s
  | k + 1, s => (V.step G s).bind (stepN V G k)

lemma steps_of_stepN [DecidableEq ι] {V : DINodeVisitor ι σ} {G : DIGraph ι} (k : ℕ)
    {s s' : Configuration ι σ} (h : V.stepN G k s = some s') : V.Steps G s s' := by
  induction k generalizing s with
  | zero =>
    obtain rfl := Option.some.inj h
    exact .refl
  | succ k ih =>
    obtain ⟨s₁, hstep, h⟩ := Option.bind_eq_some_iff.mp h
    exact Steps.of_step hstep (ih h)

theorem GoesOn.recurring_iff_open_treeNode :
    (∀ s, ({} : DINodeVisitor (Fin 6) Unit).reporting.Steps treeNode ⟨.node 0, [], ⟨∅, ((), [])⟩⟩ s →
      (∀ m, m ∈ s.traversal.visited ↔
        ∃ c, (m, c) ∈ openComposites s.stack ∧ c.tag ≠ .arrayType) ∧
      ((∀ result, s.control ≠ .ret result) → ∃ result st',
        ({} : DINodeVisitor (Fin 6) Unit).reporting.Steps treeNode s
          ⟨.ret result, s.stack, ⟨s.traversal.visited, st'⟩⟩) ∧
      ∀ s', ({} : DINodeVisitor (Fin 6) Unit).reporting.step treeNode s = some s' → ∀ m,
        (s'.traversal.callback.2 = s.traversal.callback.2 ++ [.recurring m] ↔
          s.control = .invoke m ∧ ∃ c, treeNode.node m = .compositeType c ∧ c.tag ≠ .arrayType ∧
            (m, c) ∈ openComposites s.stack) ∧
        (s'.traversal.callback.2 = s.traversal.callback.2 ++ [.expanded m] ↔
          s.control = .invoke m ∧ ∃ c, treeNode.node m = .compositeType c ∧
            ¬ (c.tag ≠ .arrayType ∧ (m, c) ∈ openComposites s.stack))) ∧
    ∃ fuel r, (∀ fuel' ≥ fuel, ({} : DINodeVisitor (Fin 6) Unit).reporting.traverseNode treeNode
        fuel' 0 ((), []) = some r) ∧
      ({} : DINodeVisitor (Fin 6) Unit).reporting.Steps treeNode ⟨.node 0, [], ⟨∅, ((), [])⟩⟩
        ⟨.ret r.1, [], r.2⟩ ∧
      ∀ m c, ReflTransGen treeNode.Leads 0 m → treeNode.node m = .compositeType c →
        .expanded m ∈ r.2.callback.2 :=
  goesOn_default.recurring_iff_open cyclesPassRecords_treeNode typesAreTypes_treeNode 0 ()

/-- The array 1 is called while it is open itself, and expanded again. -/
theorem not_recurring_iff_open : ¬ ∀ (G : DIGraph (Fin 6)) (V : DINodeVisitor (Fin 6) Unit)
    (n : Fin 6), V.GoesOn → G.CyclesPassRecords → G.TypesAreTypes →
    ∀ s s', V.reporting.Steps G ⟨.node n, [], ⟨∅, ((), [])⟩⟩ s → V.reporting.step G s = some s' →
      ∀ m c, s.control = .invoke m → G.node m = .compositeType c →
        (s'.traversal.callback.2 = s.traversal.callback.2 ++ [.recurring m] ↔
          (m, c) ∈ openComposites s.stack) := by
  intro h
  have hrun : ∃ s, ({} : DINodeVisitor (Fin 6) Unit).reporting.stepN treeNode 19
      ⟨.node 0, [], ⟨∅, ((), [])⟩⟩ = some s ∧ s.control = .invoke 1 ∧
        (openComposites s.stack).map Prod.fst = [5, 1] := ⟨_, rfl, rfl, rfl⟩
  obtain ⟨s, hrun, hcontrol, hopen⟩ := hrun
  have hsteps := steps_of_stepN 19 hrun
  have hinv := (stackInv_start treeNode (.node 0) ((), ([] : List (Report (Fin 6))))).steps hsteps
  have hmem : 1 ∈ (openComposites s.stack).map Prod.fst := by
    rw [hopen]
    decide
  obtain ⟨⟨k, c⟩, hmem, rfl⟩ := List.mem_map.mp hmem
  have hc := hinv.nodes _ hmem
  obtain ⟨s', hstep⟩ : ∃ s', ({} : DINodeVisitor (Fin 6) Unit).reporting.step treeNode s =
      some s' := by
    obtain ⟨control, stack, t⟩ := s
    obtain rfl := hcontrol
    exact ⟨_, rfl⟩
  have hreport := (h treeNode {} 0 goesOn_default cyclesPassRecords_treeNode
    typesAreTypes_treeNode s s' hsteps hstep _ c hcontrol hc).mpr hmem
  rw [reports_step hstep, List.append_cancel_left_eq, hinv.reports_recurring_iff] at hreport
  obtain ⟨-, c', hc', htag, -⟩ := hreport
  obtain rfl := DINode.compositeType.inj (hc'.symm.trans rfl)
  exact htag rfl

end DINodeVisitor

end Dimeta
