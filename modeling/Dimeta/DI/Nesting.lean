import Dimeta.Core.Brackets
import Dimeta.DI.Ancestors

/-!
# Nested visits

Whatever the callbacks return, each visit has its leave: the pairs of a traversal are nested, and a
visit that is open lies directly below the one around it in the graph.
-/

set_option autoImplicit false

namespace Dimeta

open Paren

variable {ι σ : Type*}

/-- The callbacks that come in pairs. -/
inductive CallbackPair where
  | node
  | var
  | basicType
  | stringType
  | derivedType
  | compositeType
  | recurringCompositeType
  deriving DecidableEq

/-- The visit or the leave of a node. -/
abbrev Call (ι : Type*) := Paren (CallbackPair × ι)

namespace DINodeVisitor

variable (V : DINodeVisitor ι σ)

/-- The same visitor, with its visits and leaves recorded in order. -/
def bracketed : DINodeVisitor ι (σ × List (Call ι)) where
  visitType n s := ((V.visitType n s.1).1, (V.visitType n s.1).2, s.2)
  visitNode n x s :=
    ((V.visitNode n x s.1).1, (V.visitNode n x s.1).2, s.2 ++ [.enter (.node, n)])
  leaveNode n x s := (V.leaveNode n x s.1, s.2 ++ [.leave (.node, n)])
  visitVariable n s :=
    ((V.visitVariable n s.1).1, (V.visitVariable n s.1).2, s.2 ++ [.enter (.var, n)])
  leaveVariable n s := (V.leaveVariable n s.1, s.2 ++ [.leave (.var, n)])
  visitBasicType n b s :=
    ((V.visitBasicType n b s.1).1, (V.visitBasicType n b s.1).2, s.2 ++ [.enter (.basicType, n)])
  leaveBasicType n b s := (V.leaveBasicType n b s.1, s.2 ++ [.leave (.basicType, n)])
  visitStringType n t s :=
    ((V.visitStringType n t s.1).1, (V.visitStringType n t s.1).2,
      s.2 ++ [.enter (.stringType, n)])
  leaveStringType n t s := (V.leaveStringType n t s.1, s.2 ++ [.leave (.stringType, n)])
  visitDerivedType n d s :=
    ((V.visitDerivedType n d s.1).1, (V.visitDerivedType n d s.1).2,
      s.2 ++ [.enter (.derivedType, n)])
  leaveDerivedType n d s := (V.leaveDerivedType n d s.1, s.2 ++ [.leave (.derivedType, n)])
  visitCompositeType n c s :=
    ((V.visitCompositeType n c s.1).1, (V.visitCompositeType n c s.1).2,
      s.2 ++ [.enter (.compositeType, n)])
  leaveCompositeType n c s := (V.leaveCompositeType n c s.1, s.2 ++ [.leave (.compositeType, n)])
  visitRecurringCompositeType n c s :=
    ((V.visitRecurringCompositeType n c s.1).1, (V.visitRecurringCompositeType n c s.1).2,
      s.2 ++ [.enter (.recurringCompositeType, n)])
  leaveRecurringCompositeType n c s :=
    (V.leaveRecurringCompositeType n c s.1, s.2 ++ [.leave (.recurringCompositeType, n)])

/-- Recording the calls changes nothing else. -/
lemma commutes_bracketed : Commutes Prod.fst V.bracketed V where
  visitType _ _ := rfl
  visitNode _ _ _ := rfl
  leaveNode _ _ _ := rfl
  visitVariable _ _ := rfl
  leaveVariable _ _ := rfl
  visitBasicType _ _ _ := rfl
  leaveBasicType _ _ _ := rfl
  visitStringType _ _ _ := rfl
  leaveStringType _ _ _ := rfl
  visitDerivedType _ _ _ := rfl
  leaveDerivedType _ _ _ := rfl
  visitCompositeType _ _ _ := rfl
  leaveCompositeType _ _ _ := rfl
  visitRecurringCompositeType _ _ _ := rfl
  leaveRecurringCompositeType _ _ _ := rfl

/-! ### Calls of a run -/

/-- What the callbacks add to the record between two states: nested calls, the outermost of nodes
that satisfy `P`. -/
def Calls (G : DIGraph ι) (P : ι → Prop) (s s' : σ × List (Call ι)) : Prop :=
  ∃ calls, Nested (fun a b => G.Leads a.2 b.2) (fun a => P a.2) calls ∧ s'.2 = s.2 ++ calls

section Calls

variable {G : DIGraph ι} {P Q : ι → Prop} {s s' s'' : σ × List (Call ι)}

lemma Calls.of_eq (P : ι → Prop) (h : s'.2 = s.2) : Calls G P s s' :=
  ⟨[], .nil _, h.trans (List.append_nil _).symm⟩

lemma Calls.trans (h : Calls G P s s') (h' : Calls G P s' s'') : Calls G P s s'' := by
  obtain ⟨calls, hcalls, hs⟩ := h
  obtain ⟨calls', hcalls', hs'⟩ := h'
  exact ⟨calls ++ calls', hcalls.append hcalls', by rw [hs', hs, List.append_assoc]⟩

lemma Calls.mono (h : Calls G P s s') (hPQ : ∀ n, P n → Q n) : Calls G Q s s' := by
  obtain ⟨calls, hcalls, hs⟩ := h
  exact ⟨calls, hcalls.mono fun a => hPQ a.2, hs⟩

/-- A visit and its leave around calls for nodes below. -/
lemma Calls.wrap {t : σ × List (Call ι)} {kind : CallbackPair} {n : ι}
    (hvisit : s'.2 = s.2 ++ [.enter (kind, n)]) (h : Calls G (G.Leads n) s' s'')
    (hleave : t.2 = s''.2 ++ [.leave (kind, n)]) : Calls G (· = n) s t := by
  obtain ⟨calls, hcalls, hs⟩ := h
  refine ⟨_, Nested.single (a := (kind, n)) rfl hcalls, ?_⟩
  rw [hleave, hs, hvisit]
  simp

variable {V} {visited : Finset ι}

/-- The calls for a type that may be null. -/
lemma calls_runType {U : ι → Walk ι → Prop} {type : Option ι} {w : Walk ι} (hw : TypeWalk U type w)
    (hroot : ∀ n w, U n w → w.root = some n)
    (hcalls : ∀ n w s, U n w → Calls G (· = n) s (V.bracketed.run w s).2)
    (s : σ × List (Call ι)) :
    Calls G (fun n => type = some n) s (V.bracketed.runType w.root (V.bracketed.run w) s).2 := by
  cases hw with
  | null => exact .of_eq _ rfl
  | @type n w hw =>
    simp only [hroot n w hw, runType]
    cases hvisit : V.bracketed.visitType n s with
    | mk ret s' =>
      have hkeep : s'.2 = s.2 := (congrArg (fun r => r.2.2) hvisit).symm
      cases ret with
      | false => exact .of_eq _ hkeep
      | true => exact (Calls.of_eq _ hkeep).trans ((hcalls n w s' hw).mono fun m hm => by rw [hm])

lemma calls_runElements {U : ι → Walk ι → Prop} {es : List ι} {ws : List (Walk ι)}
    (hws : List.Forall₂ U es ws)
    (hcalls : ∀ n w s, U n w → Calls G (· = n) s (V.bracketed.run w s).2)
    (s : σ × List (Call ι)) : Calls G (· ∈ es) s (V.bracketed.runElements ws s) := by
  induction hws generalizing s with
  | nil => exact .of_eq _ rfl
  | @cons e w es ws hw _ ih =>
    have hhead : Calls G (· ∈ e :: es) s (V.bracketed.run w s).2 :=
      (hcalls e w s hw).mono fun n hn => by simp [hn]
    exact hhead.trans ((ih _).mono fun n hn => List.mem_cons_of_mem e hn)

variable [DecidableEq ι]

/-- The calls of a visit, whatever the callbacks return. -/
lemma calls_run {fuel : ℕ} {n : ι} {w : Walk ι} (hw : G.walk fuel visited n = some w)
    (s : σ × List (Call ι)) : Calls G (· = n) s (V.bracketed.run w s).2 := by
  induction fuel generalizing visited n w s with
  | zero => cases hw
  | succ fuel ih =>
    -- below a node are the calls for its type and for its elements
    have htype : ∀ {visited : Finset ι} {type : Option ι} {w : Walk ι},
        (G.node n).typeRef = type → TypeWalk (fun n w => G.walk fuel visited n = some w) type w →
        ∀ s, Calls G (G.Leads n) s (V.bracketed.runType w.root (V.bracketed.run w) s).2 :=
      fun hn hw s => (calls_runType hw (fun _ _ => DIGraph.root_of_walk)
        (fun _ _ s hw => ih hw s) s).mono fun m hm => .inl (hn.trans hm)
    have helement : ∀ {visited : Finset ι} {c : DICompositeType ι} {ws : List (Walk ι)},
        G.node n = .compositeType c →
        List.Forall₂ (fun n w => G.walk fuel visited n = some w) c.elements ws →
        ∀ s, Calls G (G.Leads n) s (V.bracketed.runElements ws s) :=
      fun hn hws s => (calls_runElements hws (fun _ _ s hw => ih hw s) s).mono fun m hm =>
        .inr ⟨_, hn, hm⟩
    cases DIGraph.walkStep_of_walk hw with
    | basic hn => exact .wrap rfl (.of_eq _ rfl) rfl
    | string hn => exact .wrap rfl (.of_eq _ rfl) rfl
    | node hn hplain => exact .wrap rfl (.of_eq _ rfl) rfl
    | recurring hn hvisited => exact .wrap rfl (.of_eq _ rfl) rfl
    | skip hn => exact .of_eq _ rfl
    | var hn hbase =>
      next type w =>
      have hbelow := htype (by rw [hn]; rfl) hbase
      simp only [run]
      cases hvisit : V.bracketed.visitVariable n s with
      | mk ret s' =>
        have henter : s'.2 = s.2 ++ [.enter (.var, n)] := (congrArg (fun r => r.2.2) hvisit).symm
        cases ret with
        | false => exact .wrap henter (.of_eq _ rfl) rfl
        | true => exact .wrap henter (hbelow s') rfl
    | derived hn hbase =>
      next d base =>
      have hbelow := htype (by rw [hn]; rfl) hbase
      simp only [run]
      cases hvisit : V.bracketed.visitDerivedType n d s with
      | mk ret s' =>
        have henter : s'.2 = s.2 ++ [.enter (.derivedType, n)] :=
          (congrArg (fun r => r.2.2) hvisit).symm
        cases ret with
        | false => exact .wrap henter (.of_eq _ rfl) rfl
        | true => exact .wrap henter (hbelow s') rfl
    | array hn hvisited htag helements hbase =>
      -- an array has its elements visited first, a record its base type
      next c base elements =>
      have hbelow := htype (by rw [hn]; rfl) hbase
      simp only [run]
      cases hvisit : V.bracketed.visitCompositeType n c s with
      | mk ret s' =>
        have henter : s'.2 = s.2 ++ [.enter (.compositeType, n)] :=
          (congrArg (fun r => r.2.2) hvisit).symm
        cases ret with
        | false => exact .wrap henter (.of_eq _ rfl) rfl
        | true => exact .wrap henter ((helement hn helements s').trans (hbelow _)) rfl
    | composite hn hvisited htag hbase helements =>
      next c base elements =>
      have hbelow := htype (by rw [hn]; rfl) hbase
      simp only [run]
      cases hvisit : V.bracketed.visitCompositeType n c s with
      | mk ret s' =>
        have henter : s'.2 = s.2 ++ [.enter (.compositeType, n)] :=
          (congrArg (fun r => r.2.2) hvisit).symm
        cases ret with
        | false => exact .wrap henter (.of_eq _ rfl) rfl
        | true =>
          have hbelow := hbelow s'
          dsimp only
          cases hrun : V.bracketed.runType base.root (V.bracketed.run base) s' with
          | mk ret s'' =>
            rw [hrun] at hbelow
            cases ret with
            | false => exact .wrap henter hbelow rfl
            | true => exact .wrap henter (hbelow.trans (helement hn helements s'')) rfl

/-! ### Calls of a traversal -/

/-- The traversal from a node, over the tree of the node. -/
def runNode (V : DINodeVisitor ι σ) (G : DIGraph ι) (n : ι) (w : Walk ι) (s : σ) : Bool × σ :=
  match G.node n with
  | .var _ | .subroutineType => V.run w s
  | node =>
    if node.isType then V.runType (some n) (V.run w) s
    else ((V.visitNode n node s).1, V.leaveNode n node (V.visitNode n node s).2)

lemma traverseNode_eq_runNode (V : DINodeVisitor ι σ) {fuel : ℕ} {n : ι} {w : Walk ι}
    (hw : G.walk fuel ∅ n = some w) (s : σ) : V.traverseNode G fuel n s =
      some ((V.runNode G n w s).1, ⟨∅, (V.runNode G n w s).2⟩) := by
  have htype : V.traverseType (V.invokeIfAny G fuel) (some n) ⟨∅, s⟩ = some
      ((V.runType (some n) (V.run w) s).1, ⟨∅, (V.runType (some n) (V.run w) s).2⟩) := by
    simp only [traverseType, runType]
    cases V.visitType n s with
    | mk ret s =>
      cases ret with
      | false => rfl
      | true => exact V.invokeIfAny_eq_run hw s
  cases hnode : G.node n with
  | var type =>
    -- the call of `traverseVariable` does not count as one of `invokeIfAny`
    have hinvoke := V.invokeIfAny_eq_run (DIGraph.walk_mono (Nat.le_succ fuel) hw) s
    simpa [traverseNode, runNode, hnode, invokeIfAny] using hinvoke
  | subroutineType =>
    obtain ⟨fuel, rfl⟩ := DIGraph.exists_fuel_of_walk hw
    have hinvoke := V.invokeIfAny_eq_run hw s
    simpa [traverseNode, runNode, hnode, invokeIfAny] using hinvoke
  | basicType _ | stringType _ | derivedType _ | compositeType _ =>
    simpa [traverseNode, runNode, hnode, DINode.isType] using htype
  | enumerator _ | subrange _ | subprogram | other =>
    simp [traverseNode, runNode, hnode, DINode.isType, traverseNodeOnly]

omit [DecidableEq ι] in
lemma Commutes.runNode {τ : Type*} {f : σ → τ} {V' : DINodeVisitor ι τ} (h : Commutes f V V')
    (n : ι) (w : Walk ι) (s : σ) : V'.runNode G n w (f s) = (V.runNode G n w s).map id f := by
  simp only [DINodeVisitor.runNode]
  cases hnode : G.node n with
  | var type => exact h.run w s
  | subroutineType => exact h.run w s
  | basicType _ | stringType _ | derivedType _ | compositeType _ =>
    simpa [DINode.isType] using h.runType (some n) (h.run w) s
  | enumerator _ | subrange _ | subprogram | other =>
    simp [DINode.isType, h.visitNode, h.leaveNode]

lemma calls_runNode {fuel : ℕ} {n : ι} {w : Walk ι} (hw : G.walk fuel ∅ n = some w)
    (s : σ × List (Call ι)) : Calls G (· = n) s (V.bracketed.runNode G n w s).2 := by
  have htype : Calls G (· = n) s (V.bracketed.runType (some n) (V.bracketed.run w) s).2 := by
    have hcalls := calls_runType (V := V)
      (TypeWalk.type (U := fun n w => G.walk fuel ∅ n = some w) hw)
      (fun _ _ => DIGraph.root_of_walk) (fun _ _ s hw => calls_run hw s) s
    rw [DIGraph.root_of_walk hw] at hcalls
    exact hcalls.mono fun m hm => (Option.some.inj hm).symm
  simp only [DINodeVisitor.runNode]
  cases hnode : G.node n with
  | var type => exact calls_run hw s
  | subroutineType => exact calls_run hw s
  | basicType _ | stringType _ | derivedType _ | compositeType _ => exact htype
  | enumerator _ | subrange _ | subprogram | other => exact .wrap rfl (.of_eq _ rfl) rfl

/-- The visits and leaves of a traversal, whatever its callbacks return: recording them changes
nothing, they are nested, and at each point the open visits are a path from the start. -/
theorem calls_nested [Fintype ι] (V : DINodeVisitor ι σ) (hG : G.CyclesPassRecords) (n : ι)
    (s : σ) : ∃ fuel r calls, ∀ fuel' ≥ fuel,
      V.traverseNode G fuel' n s = some r ∧
        V.bracketed.traverseNode G fuel' n (s, []) =
          some (r.1, ⟨r.2.visited, r.2.callback, calls⟩) ∧
        Nested (fun a b => G.Leads a.2 b.2) (fun a => a.2 = n) calls ∧
        ∀ before after, calls = before ++ after → ∃ stack, opened [] before = some stack ∧
          Stacked (fun a b => G.Leads a.2 b.2) (fun a => a.2 = n) stack := by
  obtain ⟨fuel, w, hw⟩ := DIGraph.hasWalk_of_cyclesPassRecords hG ∅ n
  obtain ⟨calls, hnested, hcalls⟩ := calls_runNode (V := V) hw (s, [])
  have hsame := V.commutes_bracketed.runNode (G := G) n w (s, [])
  refine ⟨fuel, ((V.runNode G n w s).1, ⟨∅, (V.runNode G n w s).2⟩), calls, fun fuel' hle => ?_⟩
  have hw' := DIGraph.walk_mono hle hw
  refine ⟨V.traverseNode_eq_runNode hw' s, ?_, hnested, fun before after hsplit => ?_⟩
  · rw [V.bracketed.traverseNode_eq_runNode hw', hsame, ← List.nil_append calls, ← hcalls]
    rfl
  · obtain ⟨stack, hopened, hstacked⟩ := hnested.stacked hsplit []
    exact ⟨stack, by rw [hopened, List.append_nil], hstacked⟩

/-- A visitor that does not look into members. -/
def skippingMembers : DINodeVisitor (Fin 6) Unit where
  visitDerivedType _ d s := (d.tag != .member, s)

theorem calls_nested_treeNode : ∃ fuel r calls,
    skippingMembers.traverseNode treeNode fuel 5 () = some r ∧
      skippingMembers.bracketed.traverseNode treeNode fuel 5 ((), []) =
        some (r.1, ⟨r.2.visited, r.2.callback, calls⟩) ∧
      Nested (fun a b => treeNode.Leads a.2 b.2) (fun a => a.2 = 5) calls := by
  obtain ⟨fuel, r, calls, h⟩ := skippingMembers.calls_nested cyclesPassRecords_treeNode 5 ()
  obtain ⟨hrun, hcalls, hnested, -⟩ := h fuel le_rfl
  exact ⟨fuel, r, calls, hrun, hcalls, hnested⟩

end Calls

end DINodeVisitor

end Dimeta
