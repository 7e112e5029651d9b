import Dimeta.DI.Visitor
import Mathlib.Data.Fintype.EquivFin
import Mathlib.Data.Fintype.Card
import Mathlib.Data.Finset.Card
import Mathlib.Data.List.Forall2
import Mathlib.Data.Prod.Lex
import Mathlib.Logic.Relation

/-!
# Traversals and their trees

A traversal runs over its tree and leaves the set of open composites as it found it. The tree
exists as soon as every cycle of the graph passes through a composite that is no array.
-/

set_option autoImplicit false

namespace Dimeta

variable {ι σ : Type*} [DecidableEq ι]

/-! ### One level of a tree -/

/-- The walk of a type that may be null. -/
inductive TypeWalk (U : ι → Walk ι → Prop) : Option ι → Walk ι → Prop
  | null : TypeWalk U none .null
  | type {n : ι} {w : Walk ι} (h : U n w) : TypeWalk U (some n) w

/-- The walk of a node, given what the walks below are (`U`, by the open composites). -/
inductive WalkStep (G : DIGraph ι) (U : Finset ι → ι → Walk ι → Prop) (visited : Finset ι) (n : ι) :
    Walk ι → Prop
  | basic {b : DIBasicType} (hn : G.node n = .basicType b) : WalkStep G U visited n (.basic n b)
  | string {s : DIStringType} (hn : G.node n = .stringType s) :
      WalkStep G U visited n (.string n s)
  | node {node : DINode ι} (hn : G.node n = node) (hplain : node.isPlain) :
      WalkStep G U visited n (.node n node)
  | var {type : Option ι} {w : Walk ι} (hn : G.node n = .var type)
      (hw : TypeWalk (U visited) type w) : WalkStep G U visited n (.var n w)
  | derived {d : DIDerivedType ι} {base : Walk ι} (hn : G.node n = .derivedType d)
      (hbase : TypeWalk (U visited) d.baseType base) : WalkStep G U visited n (.derived n d base)
  | array {c : DICompositeType ι} {base : Walk ι} {elements : List (Walk ι)}
      (hn : G.node n = .compositeType c) (hvisited : n ∉ visited) (htag : c.tag = .arrayType)
      (helements : List.Forall₂ (U visited) c.elements elements)
      (hbase : TypeWalk (U visited) c.baseType base) :
      WalkStep G U visited n (.array n c elements base)
  | composite {c : DICompositeType ι} {base : Walk ι} {elements : List (Walk ι)}
      (hn : G.node n = .compositeType c) (hvisited : n ∉ visited) (htag : c.tag ≠ .arrayType)
      (hbase : TypeWalk (U (insert n visited)) c.baseType base)
      (helements : List.Forall₂ (U (insert n visited)) c.elements elements) :
      WalkStep G U visited n (.composite n c base elements)
  | recurring {c : DICompositeType ι} (hn : G.node n = .compositeType c) (hvisited : n ∈ visited) :
      WalkStep G U visited n (.recurring n c)
  | skip (hn : G.node n = .subprogram ∨ G.node n = .other) : WalkStep G U visited n (.skip n)

omit [DecidableEq ι] in
lemma TypeWalk.of_some {U : ι → Walk ι → Prop} {n : ι} {w : Walk ι} (h : TypeWalk U (some n) w) :
    U n w := by
  cases h with
  | type h => exact h

omit [DecidableEq ι] in
lemma TypeWalk.of_walkType {walk : ι → Option (Walk ι)} {type : Option ι} {w : Walk ι}
    (h : DIGraph.walkType walk type = some w) : TypeWalk (fun n w => walk n = some w) type w := by
  cases type with
  | none =>
    obtain rfl : Walk.null = w := by simpa [DIGraph.walkType] using h
    exact .null
  | some n => exact .type h

lemma exists_mem_of_forall₂ {α β : Type*} {R : α → β → Prop} {as : List α} {bs : List β}
    (h : List.Forall₂ R as bs) {a : α} (ha : a ∈ as) : ∃ b ∈ bs, R a b := by
  induction h with
  | nil => cases ha
  | cons hab _ ih =>
    rcases List.mem_cons.mp ha with rfl | ha
    · exact ⟨_, List.mem_cons_self, hab⟩
    · obtain ⟨b, hb, hR⟩ := ih ha
      exact ⟨b, List.mem_cons_of_mem _ hb, hR⟩

omit [DecidableEq ι] in
lemma forall₂_of_walkElements {walk : ι → Option (Walk ι)} {es : List ι} {ws : List (Walk ι)}
    (h : DIGraph.walkElements walk es = some ws) :
    List.Forall₂ (fun n w => walk n = some w) es ws := by
  induction es generalizing ws with
  | nil =>
    obtain rfl : [] = ws := by simpa [DIGraph.walkElements] using h
    exact .nil
  | cons e es ih =>
    simp only [DIGraph.walkElements, Option.pure_def, Option.bind_eq_bind,
      Option.bind_eq_some_iff, Option.some.injEq] at h
    obtain ⟨w, hw, ws', hws', rfl⟩ := h
    exact .cons hw (ih hws')

namespace DIGraph

variable {G : DIGraph ι}

/-- Everything a level of unfolding can be. -/
lemma walkStep_of_walk {fuel : ℕ} {visited : Finset ι} {n : ι} {w : Walk ι}
    (h : G.walk (fuel + 1) visited n = some w) :
    WalkStep G (fun visited n w => G.walk fuel visited n = some w) visited n w := by
  simp only [walk] at h
  split at h
  · next b hn =>
    obtain rfl := Option.some.inj h
    exact .basic hn
  · next d hn =>
    simp only [Option.pure_def, Option.bind_eq_bind, Option.bind_eq_some_iff,
      Option.some.injEq] at h
    obtain ⟨base, hbase, rfl⟩ := h
    exact .derived hn (.of_walkType hbase)
  · next c hn =>
    split_ifs at h with hvisited htag
    · obtain rfl := Option.some.inj h
      exact .recurring hn hvisited
    · simp only [Option.pure_def, Option.bind_eq_bind, Option.bind_eq_some_iff,
        Option.some.injEq] at h
      obtain ⟨elements, helements, base, hbase, rfl⟩ := h
      exact .array hn hvisited htag (forall₂_of_walkElements helements) (.of_walkType hbase)
    · simp only [Option.pure_def, Option.bind_eq_bind, Option.bind_eq_some_iff,
        Option.some.injEq] at h
      obtain ⟨base, hbase, elements, helements, rfl⟩ := h
      exact .composite hn hvisited htag (.of_walkType hbase) (forall₂_of_walkElements helements)
  · next s hn =>
    obtain rfl := Option.some.inj h
    exact .string hn
  · next type hn =>
    simp only [Option.pure_def, Option.bind_eq_bind, Option.bind_eq_some_iff,
      Option.some.injEq] at h
    obtain ⟨w', hw', rfl⟩ := h
    exact .var hn (.of_walkType hw')
  · next s hn =>
    obtain rfl := Option.some.inj h
    exact .node hn rfl
  · next count hn =>
    obtain rfl := Option.some.inj h
    exact .node hn rfl
  · next hn =>
    obtain rfl := Option.some.inj h
    exact .node hn rfl
  · next hn =>
    obtain rfl := Option.some.inj h
    exact .skip (.inl hn)
  · next hn =>
    obtain rfl := Option.some.inj h
    exact .skip (.inr hn)

lemma exists_fuel_of_walk {fuel : ℕ} {visited : Finset ι} {n : ι} {w : Walk ι}
    (h : G.walk fuel visited n = some w) : ∃ fuel', fuel = fuel' + 1 := by
  cases fuel with
  | zero => cases h
  | succ fuel => exact ⟨fuel, rfl⟩

lemma walk_derived {fuel : ℕ} {visited : Finset ι} {n : ι} {d : DIDerivedType ι} {w : Walk ι}
    (hn : G.node n = .derivedType d) (h : G.walk (fuel + 1) visited n = some w) :
    ∃ base, w = .derived n d base ∧
      TypeWalk (fun n w => G.walk fuel visited n = some w) d.baseType base := by
  simp only [walk, hn, Option.pure_def, Option.bind_eq_bind, Option.bind_eq_some_iff,
    Option.some.injEq] at h
  obtain ⟨base, hbase, rfl⟩ := h
  exact ⟨base, rfl, .of_walkType hbase⟩

lemma walk_var {fuel : ℕ} {visited : Finset ι} {n : ι} {type : Option ι} {w : Walk ι}
    (hn : G.node n = .var type) (h : G.walk (fuel + 1) visited n = some w) :
    ∃ base, w = .var n base ∧ TypeWalk (fun n w => G.walk fuel visited n = some w) type base := by
  simp only [walk, hn, Option.pure_def, Option.bind_eq_bind, Option.bind_eq_some_iff,
    Option.some.injEq] at h
  obtain ⟨base, hbase, rfl⟩ := h
  exact ⟨base, rfl, .of_walkType hbase⟩

lemma walk_array {fuel : ℕ} {visited : Finset ι} {n : ι} {c : DICompositeType ι} {w : Walk ι}
    (hn : G.node n = .compositeType c) (htag : c.tag = .arrayType) (hvisited : n ∉ visited)
    (h : G.walk (fuel + 1) visited n = some w) :
    ∃ elements base, w = .array n c elements base ∧
      List.Forall₂ (fun n w => G.walk fuel visited n = some w) c.elements elements ∧
      TypeWalk (fun n w => G.walk fuel visited n = some w) c.baseType base := by
  simp only [walk, hn, if_neg hvisited, if_pos htag, Option.pure_def, Option.bind_eq_bind,
    Option.bind_eq_some_iff, Option.some.injEq] at h
  obtain ⟨elements, helements, base, hbase, rfl⟩ := h
  exact ⟨elements, base, rfl, forall₂_of_walkElements helements, .of_walkType hbase⟩

lemma walk_composite {fuel : ℕ} {visited : Finset ι} {n : ι} {c : DICompositeType ι} {w : Walk ι}
    (hn : G.node n = .compositeType c) (htag : c.tag ≠ .arrayType) (hvisited : n ∉ visited)
    (h : G.walk (fuel + 1) visited n = some w) :
    ∃ base elements, w = .composite n c base elements ∧
      TypeWalk (fun t w => G.walk fuel (insert n visited) t = some w) c.baseType base ∧
      List.Forall₂ (fun e w => G.walk fuel (insert n visited) e = some w) c.elements elements := by
  simp only [walk, hn, if_neg hvisited, if_neg htag, Option.pure_def, Option.bind_eq_bind,
    Option.bind_eq_some_iff, Option.some.injEq] at h
  obtain ⟨base, hbase, elements, helements, rfl⟩ := h
  exact ⟨base, elements, rfl, .of_walkType hbase, forall₂_of_walkElements helements⟩

lemma walk_recurring {fuel : ℕ} {visited : Finset ι} {n : ι} {c : DICompositeType ι} {w : Walk ι}
    (hn : G.node n = .compositeType c) (hvisited : n ∈ visited)
    (h : G.walk (fuel + 1) visited n = some w) : w = .recurring n c := by
  simp only [walk, hn, if_pos hvisited, Option.some.injEq] at h
  exact h.symm

/-- The walks of elements that are visited on their own. -/
lemma node_of_forall₂ {fuel : ℕ} {visited : Finset ι} {es : List ι} {ws : List (Walk ι)}
    (h : List.Forall₂ (fun n w => G.walk fuel visited n = some w) es ws)
    (hplain : ∀ e ∈ es, (G.node e).isPlain = true) :
    ∀ w ∈ ws, ∃ e ∈ es, w = .node e (G.node e) := by
  induction h with
  | nil => simp
  | cons hw hws ih =>
    next e w es ws =>
    have hhead : w = .node e (G.node e) := by
      cases fuel with
      | zero => cases hw
      | succ fuel =>
        have he := hplain e (by simp)
        simp only [DIGraph.walk] at hw
        cases hnode : G.node e <;> simp_all [DINode.isPlain]
    intro w' hw'
    rcases List.mem_cons.mp hw' with rfl | hw'
    · exact ⟨e, by simp, hhead⟩
    · obtain ⟨e', he', rfl⟩ := ih (fun e he => hplain e (by simp [he])) w' hw'
      exact ⟨e', by simp [he'], rfl⟩

lemma root_of_walk {fuel : ℕ} {visited : Finset ι} {n : ι} {w : Walk ι}
    (h : G.walk fuel visited n = some w) : w.root = some n := by
  cases fuel with
  | zero => cases h
  | succ fuel => cases walkStep_of_walk h <;> rfl

end DIGraph

namespace DIGraph

variable {G : DIGraph ι}

/-- Only composites that are no arrays are ever open. -/
def OpenRecords (G : DIGraph ι) (visited : Finset ι) : Prop :=
  ∀ n ∈ visited, ∀ c, G.node n = .compositeType c → c.tag ≠ .arrayType

lemma OpenRecords.insert {visited : Finset ι} {n : ι} {c : DICompositeType ι}
    (h : G.OpenRecords visited) (hn : G.node n = .compositeType c) (htag : c.tag ≠ .arrayType) :
    G.OpenRecords (insert n visited) := by
  intro m hm c' hc'
  rcases Finset.mem_insert.mp hm with rfl | hm
  · obtain rfl : c = c' := DINode.compositeType.inj (hn.symm.trans hc')
    exact htag
  · exact h m hm c' hc'

omit [DecidableEq ι] in
lemma typeWalk_tagged {U : ι → Walk ι → Prop} {type : Option ι} {w : Walk ι}
    (h : TypeWalk U type w) (hU : ∀ n w, U n w → w.Tagged) : w.Tagged := by
  cases h with
  | null => trivial
  | type h => exact hU _ _ h

omit [DecidableEq ι] in
lemma taggedElements_of_forall₂ {U : ι → Walk ι → Prop} {es : List ι} {ws : List (Walk ι)}
    (h : List.Forall₂ U es ws) (hU : ∀ n w, U n w → w.Tagged) : TaggedElements ws := by
  induction h with
  | nil => trivial
  | cons hw _ ih => exact ⟨hU _ _ hw, ih⟩

lemma tagged_of_walk {fuel : ℕ} {visited : Finset ι} (hopen : G.OpenRecords visited) {n : ι}
    {w : Walk ι} (h : G.walk fuel visited n = some w) : w.Tagged := by
  induction fuel generalizing visited n w with
  | zero => cases h
  | succ fuel ih =>
    have ih : ∀ visited, G.OpenRecords visited → ∀ n w, G.walk fuel visited n = some w → w.Tagged :=
      fun visited hopen n w => ih hopen
    cases walkStep_of_walk h with
    | basic _ => trivial
    | string _ => trivial
    | node _ _ => trivial
    | var _ hw =>
      simp only [Walk.Tagged]
      exact typeWalk_tagged hw (ih visited hopen)
    | derived _ hbase =>
      simp only [Walk.Tagged]
      exact typeWalk_tagged hbase (ih visited hopen)
    | array _ _ htag helements hbase =>
      exact ⟨htag, taggedElements_of_forall₂ helements (ih visited hopen),
        typeWalk_tagged hbase (ih visited hopen)⟩
    | composite hn _ htag hbase helements =>
      have hopen := hopen.insert hn htag
      exact ⟨htag, typeWalk_tagged hbase (ih _ hopen), taggedElements_of_forall₂ helements (ih _ hopen)⟩
    | recurring hn hvisited => exact hopen n hvisited _ hn
    | skip _ => trivial

end DIGraph

/-! ### Existence of the tree -/

namespace DIGraph

variable {G : DIGraph ι}

omit [DecidableEq ι] in
lemma walkType_mono {walk walk' : ι → Option (Walk ι)}
    (h : ∀ n w, walk n = some w → walk' n = some w) {type : Option ι} {w : Walk ι}
    (hw : walkType walk type = some w) : walkType walk' type = some w := by
  cases type with
  | none => exact hw
  | some n => exact h n w hw

omit [DecidableEq ι] in
lemma walkElements_mono {walk walk' : ι → Option (Walk ι)}
    (h : ∀ n w, walk n = some w → walk' n = some w) {es : List ι} {ws : List (Walk ι)}
    (hws : walkElements walk es = some ws) : walkElements walk' es = some ws := by
  induction es generalizing ws with
  | nil => exact hws
  | cons e es ih =>
    simp only [walkElements, Option.pure_def, Option.bind_eq_bind, Option.bind_eq_some_iff,
      Option.some.injEq] at hws ⊢
    obtain ⟨w, hw, ws', hws', rfl⟩ := hws
    exact ⟨w, h e w hw, ws', ih hws', rfl⟩

/-- More fuel finds the same tree. -/
lemma walk_mono {fuel fuel' : ℕ} (hle : fuel ≤ fuel') {visited : Finset ι} {n : ι} {w : Walk ι}
    (h : G.walk fuel visited n = some w) : G.walk fuel' visited n = some w := by
  induction fuel generalizing fuel' visited n w with
  | zero => cases h
  | succ fuel ih =>
    obtain ⟨fuel', rfl⟩ : ∃ k, fuel' = k + 1 := ⟨fuel' - 1, by omega⟩
    have hmono : ∀ visited n w, G.walk fuel visited n = some w → G.walk fuel' visited n = some w :=
      fun visited n w => ih (by omega)
    simp only [walk, Option.pure_def, Option.bind_eq_bind] at h ⊢
    split at h
    · exact h
    · next d hn =>
      simp only [Option.bind_eq_some_iff] at h ⊢
      obtain ⟨base, hbase, hw⟩ := h
      exact ⟨base, walkType_mono (hmono visited) hbase, hw⟩
    · next c hn =>
      split_ifs at h ⊢ with hvisited htag
      · exact h
      · simp only [Option.bind_eq_some_iff] at h ⊢
        obtain ⟨elements, helements, base, hbase, hw⟩ := h
        exact ⟨elements, walkElements_mono (hmono visited) helements, base,
          walkType_mono (hmono visited) hbase, hw⟩
      · simp only [Option.bind_eq_some_iff] at h ⊢
        obtain ⟨base, hbase, elements, helements, hw⟩ := h
        exact ⟨base, walkType_mono (hmono _) hbase, elements,
          walkElements_mono (hmono _) helements, hw⟩
    · exact h
    · simp only [Option.bind_eq_some_iff] at h ⊢
      obtain ⟨w', hw', hw⟩ := h
      exact ⟨w', walkType_mono (hmono visited) hw', hw⟩
    all_goals exact h

/-- The tree below a node is `w`. -/
def Unfolds (G : DIGraph ι) (visited : Finset ι) (n : ι) (w : Walk ι) : Prop :=
  ∃ fuel, G.walk fuel visited n = some w

lemma Unfolds.walkType {visited : Finset ι} {type : Option ι} {w : Walk ι}
    (h : TypeWalk (G.Unfolds visited) type w) :
    ∃ fuel, DIGraph.walkType (G.walk fuel visited) type = some w := by
  cases h with
  | null => exact ⟨0, rfl⟩
  | type h => exact h

lemma Unfolds.walkElements {visited : Finset ι} {es : List ι} {ws : List (Walk ι)}
    (h : List.Forall₂ (G.Unfolds visited) es ws) :
    ∃ fuel, DIGraph.walkElements (G.walk fuel visited) es = some ws := by
  induction h with
  | nil => exact ⟨0, rfl⟩
  | cons hw _ ih =>
    obtain ⟨fuel, hw⟩ := hw
    obtain ⟨fuel', hws⟩ := ih
    refine ⟨max fuel fuel', ?_⟩
    have hw := walk_mono (Nat.le_max_left fuel fuel') hw
    have hws := walkElements_mono (fun n w => walk_mono (G := G) (Nat.le_max_right fuel fuel')) hws
    simp [DIGraph.walkElements, hw, hws]

/-- A tree from the trees one level down. -/
lemma Unfolds.of_step {visited : Finset ι} {n : ι} {w : Walk ι}
    (h : WalkStep G G.Unfolds visited n w) : G.Unfolds visited n w := by
  cases h with
  | basic hn => exact ⟨1, by simp [walk, hn]⟩
  | string hn => exact ⟨1, by simp [walk, hn]⟩
  | node hn hplain =>
    refine ⟨1, ?_⟩
    rename_i x
    cases x <;> simp_all [walk, DINode.isPlain]
  | var hn hw =>
    obtain ⟨fuel, hw⟩ := Unfolds.walkType hw
    exact ⟨fuel + 1, by simp [walk, hn, hw]⟩
  | derived hn hbase =>
    obtain ⟨fuel, hbase⟩ := Unfolds.walkType hbase
    exact ⟨fuel + 1, by simp [walk, hn, hbase]⟩
  | array hn hvisited htag helements hbase =>
    obtain ⟨fuel, hbase⟩ := Unfolds.walkType hbase
    obtain ⟨fuel', helements⟩ := Unfolds.walkElements helements
    have hbase := walkType_mono (fun n w => walk_mono (G := G) (Nat.le_max_left fuel fuel')) hbase
    have helements :=
      walkElements_mono (fun n w => walk_mono (G := G) (Nat.le_max_right fuel fuel')) helements
    exact ⟨max fuel fuel' + 1, by simp [walk, hn, hvisited, htag, hbase, helements]⟩
  | composite hn hvisited htag hbase helements =>
    obtain ⟨fuel, hbase⟩ := Unfolds.walkType hbase
    obtain ⟨fuel', helements⟩ := Unfolds.walkElements helements
    have hbase := walkType_mono (fun n w => walk_mono (G := G) (Nat.le_max_left fuel fuel')) hbase
    have helements :=
      walkElements_mono (fun n w => walk_mono (G := G) (Nat.le_max_right fuel fuel')) helements
    exact ⟨max fuel fuel' + 1, by simp [walk, hn, hvisited, htag, hbase, helements]⟩
  | recurring hn hvisited => exact ⟨1, by simp [walk, hn, hvisited]⟩
  | skip hn => rcases hn with hn | hn <;> exact ⟨1, by simp [walk, hn]⟩

/-- The edges of the graph that leave a node other than a non-array composite. -/
def PlainStep (G : DIGraph ι) (a b : ι) : Prop :=
  match G.node a with
  | .derivedType d   => d.baseType = some b
  | .var type        => type = some b
  | .compositeType c => c.tag = .arrayType ∧ (c.baseType = some b ∨ b ∈ c.elements)
  | _                => False

/-- Every cycle passes through a composite that is no array. -/
def CyclesPassRecords (G : DIGraph ι) : Prop := ∀ n, ¬ Relation.TransGen G.PlainStep n n

omit [DecidableEq ι] in
/-- Where plain edges ascend there are no cycles of them. -/
lemma cyclesPassRecords_of_lt [Preorder ι] {G : DIGraph ι}
    (h : ∀ a b, G.PlainStep a b → a < b) : G.CyclesPassRecords := by
  intro n hcycle
  have hlt : ∀ m, Relation.TransGen G.PlainStep n m → n < m := by
    intro m hm
    induction hm with
    | single hm => exact h _ _ hm
    | tail _ hm ih => exact ih.trans (h _ _ hm)
  exact lt_irrefl n (hlt n hcycle)

/-- The tree below a node exists. -/
def HasWalk (G : DIGraph ι) (visited : Finset ι) (n : ι) : Prop :=
  ∃ fuel w, G.walk fuel visited n = some w

lemma HasWalk.of_unfolds {visited : Finset ι} {n : ι} {w : Walk ι} (h : G.Unfolds visited n w) :
    G.HasWalk visited n := by
  obtain ⟨fuel, hw⟩ := h
  exact ⟨fuel, w, hw⟩

lemma HasWalk.typeWalk {visited : Finset ι} {type : Option ι}
    (h : ∀ n, type = some n → G.HasWalk visited n) : ∃ w, TypeWalk (G.Unfolds visited) type w := by
  cases type with
  | none => exact ⟨.null, .null⟩
  | some n =>
    obtain ⟨fuel, w, hw⟩ := h n rfl
    exact ⟨w, .type ⟨fuel, hw⟩⟩

lemma HasWalk.forall₂ {visited : Finset ι} {es : List ι} (h : ∀ e ∈ es, G.HasWalk visited e) :
    ∃ ws, List.Forall₂ (G.Unfolds visited) es ws := by
  induction es with
  | nil => exact ⟨[], .nil⟩
  | cons e es ih =>
    obtain ⟨fuel, w, hw⟩ := h e (by simp)
    obtain ⟨ws, hws⟩ := ih fun e' he' => h e' (by simp [he'])
    exact ⟨w :: ws, .cons ⟨fuel, hw⟩ hws⟩

/-- The tree of a composite, from the trees of its type and its elements. -/
lemma hasWalk_composite {visited visited' : Finset ι} {n : ι} {c : DICompositeType ι}
    (hn : G.node n = .compositeType c)
    (hvisited : visited' = if c.tag = .arrayType then visited else insert n visited)
    (hbase : ∀ b, c.baseType = some b → G.HasWalk visited' b)
    (helements : ∀ e ∈ c.elements, G.HasWalk visited' e) : G.HasWalk visited n := by
  by_cases hmem : n ∈ visited
  · exact .of_unfolds (.of_step (.recurring hn hmem))
  obtain ⟨base, hbase⟩ := HasWalk.typeWalk hbase
  obtain ⟨elements, helements⟩ := HasWalk.forall₂ helements
  subst hvisited
  by_cases htag : c.tag = .arrayType
  · rw [if_pos htag] at hbase helements
    exact .of_unfolds (.of_step (.array hn hmem htag helements hbase))
  · rw [if_neg htag] at hbase helements
    exact .of_unfolds (.of_step (.composite hn hmem htag hbase helements))

omit [DecidableEq ι] in
/-- Plain edges can be followed backwards only so far. -/
lemma CyclesPassRecords.wellFounded [Finite ι] {G : DIGraph ι} (hG : G.CyclesPassRecords) :
    WellFounded (fun b a => Relation.TransGen G.PlainStep a b) := by
  have : Std.Irrefl (fun b a => Relation.TransGen G.PlainStep a b) := ⟨hG⟩
  have : IsTrans ι (fun b a => Relation.TransGen G.PlainStep a b) := ⟨fun _ _ _ h h' => h'.trans h⟩
  exact Finite.wellFounded_of_trans_of_irrefl _

/-- Opening a composite uses up one of the finitely many nodes; between two of them the walk
follows plain edges. -/
theorem hasWalk_of_cyclesPassRecords [Fintype ι] (hG : G.CyclesPassRecords) (visited : Finset ι)
    (n : ι) : G.HasWalk visited n := by
  have hwf := hG.wellFounded
  induction hk : visitedᶜ.card using Nat.strong_induction_on generalizing visited n with
  | _ k ih =>
    induction n using hwf.induction with
    | _ n ihn =>
      have hplain : ∀ m, G.PlainStep n m → G.HasWalk visited m := fun m hm => ihn m (.single hm)
      cases hn : G.node n with
      | derivedType d =>
        simp only [PlainStep, hn] at hplain
        obtain ⟨base, hbase⟩ := HasWalk.typeWalk hplain
        exact .of_unfolds (.of_step (.derived hn hbase))
      | var type =>
        simp only [PlainStep, hn] at hplain
        obtain ⟨w, hw⟩ := HasWalk.typeWalk hplain
        exact .of_unfolds (.of_step (.var hn hw))
      | compositeType c =>
        by_cases htag : c.tag = .arrayType
        · simp only [PlainStep, hn, htag, true_and] at hplain
          exact hasWalk_composite hn (by simp [htag]) (fun b hb => hplain b (.inl hb))
            fun e he => hplain e (.inr he)
        · by_cases hmem : n ∈ visited
          · exact .of_unfolds (.of_step (.recurring hn hmem))
          have hlt : (insert n visited)ᶜ.card < k := by
            rw [← hk]
            exact Finset.card_lt_card (Finset.compl_ssubset_compl.mpr (Finset.ssubset_insert hmem))
          exact hasWalk_composite hn (by simp [htag]) (fun b _ => ih _ hlt _ b rfl)
            fun e _ => ih _ hlt _ e rfl
      | basicType b => exact .of_unfolds (.of_step (.basic hn))
      | stringType s => exact .of_unfolds (.of_step (.string hn))
      | subroutineType => exact .of_unfolds (.of_step (.node hn rfl))
      | enumerator s => exact .of_unfolds (.of_step (.node hn rfl))
      | subrange count => exact .of_unfolds (.of_step (.node hn rfl))
      | subprogram => exact .of_unfolds (.of_step (.skip (.inl hn)))
      | other => exact .of_unfolds (.of_step (.skip (.inr hn)))

end DIGraph

/-! ### The traversal follows its tree -/

namespace DINodeVisitor

variable {V : DINodeVisitor ι σ} {U : ι → Walk ι → Prop} {visited : Finset ι}
  {invoke : ι → Traversal ι σ → Option (Bool × Traversal ι σ)}

/-- `invoke` does what the callbacks do over the trees of `U`, with `visited` open. -/
def Follows (V : DINodeVisitor ι σ) (visited : Finset ι) (U : ι → Walk ι → Prop)
    (invoke : ι → Traversal ι σ → Option (Bool × Traversal ι σ)) : Prop :=
  ∀ n w s, U n w → w.root = some n ∧
    invoke n ⟨visited, s⟩ = some ((V.run w s).1, ⟨visited, (V.run w s).2⟩)

omit [DecidableEq ι] in
lemma Follows.traverseType (h : Follows V visited U invoke) {type : Option ι} {w : Walk ι}
    (hw : TypeWalk U type w) (s : σ) :
    V.traverseType invoke type ⟨visited, s⟩ =
      some ((V.runType w.root (V.run w) s).1, ⟨visited, (V.runType w.root (V.run w) s).2⟩) := by
  cases hw with
  | null => rfl
  | type hn =>
    next n =>
    have hroot := (h n w s hn).1
    simp only [DINodeVisitor.traverseType, DINodeVisitor.runType, hroot]
    cases V.visitType n s with
    | mk ret st =>
      cases ret with
      | false => rfl
      | true => exact (h n w st hn).2

omit [DecidableEq ι] in
lemma Follows.traverseElements (h : Follows V visited U invoke) {es : List ι} {ws : List (Walk ι)}
    (hws : List.Forall₂ U es ws) (s : σ) :
    DINodeVisitor.traverseElements invoke es ⟨visited, s⟩ = some ⟨visited, V.runElements ws s⟩ := by
  induction hws generalizing s with
  | nil => simp [DINodeVisitor.traverseElements, runElements]
  | cons hw _ ih =>
    simp [DINodeVisitor.traverseElements, runElements, (h _ _ s hw).2, ih]

/-- Running over the tree is what the traversal does, and the open composites are restored. -/
theorem invokeIfAny_eq_run (V : DINodeVisitor ι σ) {G : DIGraph ι} {fuel : ℕ} {visited : Finset ι}
    {n : ι} {w : Walk ι} (h : G.walk fuel visited n = some w) (s : σ) :
    V.invokeIfAny G fuel n ⟨visited, s⟩ = some ((V.run w s).1, ⟨visited, (V.run w s).2⟩) := by
  induction fuel generalizing visited n w s with
  | zero => cases h
  | succ fuel ih =>
    have hfollows : ∀ visited, Follows V visited (fun n w => G.walk fuel visited n = some w)
        (V.invokeIfAny G fuel) :=
      fun visited n w s hw => ⟨DIGraph.root_of_walk hw, ih hw s⟩
    cases DIGraph.walkStep_of_walk h with
    | basic hn => simp [invokeIfAny, hn, traverseBasicType, run]
    | string hn => simp [invokeIfAny, hn, traverseStringType, run]
    | node hn hplain =>
      next node =>
      cases node <;> simp_all [DINode.isPlain, invokeIfAny, traverseNodeOnly, run]
    | var hn hw =>
      next type w =>
      simp only [invokeIfAny, hn, traverseVariable, run]
      cases V.visitVariable n s with
      | mk ret st =>
        cases ret with
        | false => rfl
        | true => simp [(hfollows visited).traverseType hw]
    | derived hn hbase =>
      next d base =>
      simp only [invokeIfAny, hn, traverseDerivedType, run]
      cases V.visitDerivedType n d s with
      | mk ret st =>
        cases ret with
        | false => rfl
        | true => simp [(hfollows visited).traverseType hbase]
    | array hn hvisited htag helements hbase =>
      -- the elements of an array come before its type and leave it closed
      next c base elements =>
      simp only [invokeIfAny, hn, traverseCompositeType, hvisited, htag, run, if_true, if_false]
      cases V.visitCompositeType n c s with
      | mk ret st =>
        cases ret with
        | false => simp [hvisited]
        | true =>
          have hel := (hfollows visited).traverseElements helements st
          have hty := (hfollows visited).traverseType hbase (V.runElements elements st)
          cases hret : V.runType base.root (V.run base) (V.runElements elements st) with
          | mk ret' st' =>
            rw [hret] at hty
            cases ret' <;> simp [traverseBelow, htag, hel, hty, hret, hvisited]
    | composite hn hvisited htag hbase helements =>
      -- a record is open while its base type and its elements are traversed
      next c base elements =>
      simp only [invokeIfAny, hn, traverseCompositeType, hvisited, htag, run, if_false]
      cases V.visitCompositeType n c s with
      | mk ret st =>
        cases ret with
        | false => simp [hvisited]
        | true =>
          have hty := (hfollows (insert n visited)).traverseType hbase st
          cases hret : V.runType base.root (V.run base) st with
          | mk ret' st' =>
            rw [hret] at hty
            have hel := (hfollows (insert n visited)).traverseElements helements st'
            cases ret' <;> simp [traverseBelow, htag, hel, hty, hret, hvisited]
    | recurring hn hvisited =>
      simp [invokeIfAny, hn, traverseCompositeType, hvisited, traverseRecurringCompositeType, run]
    | skip hn => rcases hn with hn | hn <;> simp [invokeIfAny, hn, run]

/-- The traversal from a variable or a type runs over the tree of that node, after `visitType` for
most of the types. -/
theorem traverseNode_eq_run_of_visitType (V : DINodeVisitor ι σ) {G : DIGraph ι} {fuel : ℕ} {n : ι}
    {w : Walk ι} (h : G.walk fuel ∅ n = some w)
    (hn : ((G.node n).isVariable || (G.node n).isType) = true) {s : σ}
    (hV : (V.visitType n s).1 = true) :
    ∃ s', (s' = s ∨ s' = (V.visitType n s).2) ∧
      V.traverseNode G fuel n s = some ((V.run w s').1, ⟨∅, (V.run w s').2⟩) := by
  obtain ⟨fuel, rfl⟩ := DIGraph.exists_fuel_of_walk h
  cases hnode : G.node n with
  | var type =>
    -- the fuel of the source's own call of `traverseVariable` is not used up by `invokeIfAny`
    have hstep := DIGraph.walkStep_of_walk (DIGraph.walk_mono (Nat.le_succ _) h)
    refine ⟨s, .inl rfl, ?_⟩
    cases hstep with
    | var hvar hw =>
      next type' w' =>
      obtain rfl : type = type' := DINode.var.inj (hnode.symm.trans hvar)
      have hfollows : Follows V ∅ (fun n w => G.walk (fuel + 1) ∅ n = some w)
          (V.invokeIfAny G (fuel + 1)) :=
        fun n w s hw => ⟨DIGraph.root_of_walk hw, invokeIfAny_eq_run V hw s⟩
      simp only [traverseNode, hnode, traverseVariable, run]
      cases V.visitVariable n s with
      | mk ret st =>
        cases ret with
        | false => rfl
        | true => simp [hfollows.traverseType hw]
    | _ => simp_all [DINode.isPlain]
  | subroutineType =>
    have hinvoke := invokeIfAny_eq_run V h s
    simp only [invokeIfAny, hnode] at hinvoke
    exact ⟨s, .inl rfl, by simpa [traverseNode, hnode] using hinvoke⟩
  | _ =>
    have hinvoke := invokeIfAny_eq_run V h (V.visitType n s).2
    refine ⟨(V.visitType n s).2, .inr rfl, ?_⟩
    cases hvisit : V.visitType n s
    simp_all [traverseNode, traverseType, DINode.isVariable, DINode.isType]

/-- Without a `visitType` of its own the visitor just runs over the tree. -/
theorem traverseNode_eq_run (V : DINodeVisitor ι σ) {G : DIGraph ι} {fuel : ℕ} {n : ι} {w : Walk ι}
    (h : G.walk fuel ∅ n = some w) (hn : ((G.node n).isVariable || (G.node n).isType) = true)
    (hV : ∀ m s, V.visitType m s = (true, s)) (s : σ) :
    V.traverseNode G fuel n s = some ((V.run w s).1, ⟨∅, (V.run w s).2⟩) := by
  obtain ⟨s', hs', hrun⟩ := V.traverseNode_eq_run_of_visitType (s := s) h hn (by rw [hV])
  rw [hV, or_self] at hs'
  rw [hrun, hs']

/-- A type is visited if there is a tree below it. -/
lemma exists_traverseType (V : DINodeVisitor ι σ) {G : DIGraph ι} {fuel : ℕ} {type : Option ι}
    (h : ∀ n, type = some n → ∃ w, G.walk fuel visited n = some w) (s : σ) :
    ∃ r, ∀ fuel' ≥ fuel, V.traverseType (V.invokeIfAny G fuel') type ⟨visited, s⟩ = some r := by
  cases type with
  | none => exact ⟨_, fun _ _ => rfl⟩
  | some n =>
    obtain ⟨w, hw⟩ := h n rfl
    simp only [traverseType]
    cases V.visitType n s with
    | mk ret st =>
      cases ret with
      | false => exact ⟨_, fun _ _ => rfl⟩
      | true => exact ⟨_, fun fuel' hle => invokeIfAny_eq_run V (DIGraph.walk_mono hle hw) st⟩

/-- The visitor terminates on every node, and how deep it goes does not depend on what its
callbacks do. -/
theorem traverseNode_ends [Fintype ι] {G : DIGraph ι} (hG : G.CyclesPassRecords) (n : ι) :
    ∃ fuel, ∀ (V : DINodeVisitor ι σ) (s : σ), ∃ r, ∀ fuel' ≥ fuel,
      V.traverseNode G fuel' n s = some r := by
  obtain ⟨fuel, w, hw⟩ := DIGraph.hasWalk_of_cyclesPassRecords hG ∅ n
  refine ⟨fuel, fun V s => ?_⟩
  have htype : ∃ r, ∀ fuel' ≥ fuel,
      V.traverseType (V.invokeIfAny G fuel') (some n) ⟨∅, s⟩ = some r := by
    apply exists_traverseType
    intro m hm
    obtain rfl := Option.some.inj hm
    exact ⟨w, hw⟩
  cases hnode : G.node n with
  | var type =>
    obtain ⟨fuel, rfl⟩ := DIGraph.exists_fuel_of_walk hw
    obtain ⟨base, rfl, hbase⟩ := DIGraph.walk_var hnode hw
    have hbelow : ∀ m, type = some m → ∃ w, G.walk (fuel + 1) ∅ m = some w := by
      rintro m rfl
      exact ⟨base, DIGraph.walk_mono (Nat.le_succ fuel) hbase.of_some⟩
    simp only [traverseNode, hnode, traverseVariable]
    cases V.visitVariable n s with
    | mk ret st =>
      cases ret with
      | false => exact ⟨_, fun _ _ => rfl⟩
      | true =>
        obtain ⟨r, hr⟩ := exists_traverseType V hbelow st
        refine ⟨(r.1, { r.2 with callback := V.leaveVariable n r.2.callback }), fun fuel' hle => ?_⟩
        simp only [hr fuel' hle]
        rfl
  | subroutineType =>
    refine ⟨V.traverseNodeOnly n .subroutineType ⟨∅, s⟩, fun fuel' hle => ?_⟩
    simp only [traverseNode, hnode]
  | basicType | stringType | derivedType | compositeType =>
    obtain ⟨r, hr⟩ := htype
    refine ⟨r, fun fuel' hle => ?_⟩
    simp only [traverseNode, hnode, DINode.isType, if_true]
    exact hr fuel' hle
  | enumerator | subrange | subprogram | other =>
    refine ⟨V.traverseNodeOnly n (G.node n) ⟨∅, s⟩, fun fuel' hle => ?_⟩
    simp only [traverseNode, hnode, DINode.isType, Bool.false_eq_true, if_false]

/-- `struct TreeNode { typedef TreeNode *Base_ptr; Base_ptr parent[3]; };`: the array 1 is met again
below the record 5. -/
def treeNode : DIGraph (Fin 6) where
  node
    | 0 => .derivedType { tag := .member, name := "parent", sizeInBits := 192, baseType := some 1 }
    | 1 => .compositeType { tag := .arrayType, sizeInBits := 192, baseType := some 3,
                            elements := [2] }
    | 2 => .subrange (some 3)
    | 3 => .derivedType { tag := .typedef, name := "Base_ptr", baseType := some 4 }
    | 4 => .derivedType { tag := .pointerType, sizeInBits := 64, baseType := some 5 }
    | 5 => .compositeType { tag := .structureType, name := "TreeNode", sizeInBits := 192,
                            elements := [0] }

lemma cyclesPassRecords_treeNode : treeNode.CyclesPassRecords := by
  apply DIGraph.cyclesPassRecords_of_lt
  intro a b h
  fin_cases a <;> simp [DIGraph.PlainStep, treeNode] at h
  · subst h
    decide
  · rcases h with rfl | rfl <;> decide
  · subst h
    decide
  · subst h
    decide

theorem traverseNode_ends_treeNode :
    ∃ fuel, ∀ (V : DINodeVisitor (Fin 6) ℕ) (s : ℕ), ∃ r, ∀ fuel' ≥ fuel,
      V.traverseNode treeNode fuel' 5 s = some r :=
  traverseNode_ends cyclesPassRecords_treeNode 5

/-! ### Visitors that do the same -/

variable {τ : Type*}

/-- `V'` does on the image of a state what `V` does on the state. -/
structure Commutes (f : σ → τ) (V : DINodeVisitor ι σ) (V' : DINodeVisitor ι τ) : Prop where
  visitType : ∀ n s, V'.visitType n (f s) = (V.visitType n s).map id f
  visitNode : ∀ n x s, V'.visitNode n x (f s) = (V.visitNode n x s).map id f
  leaveNode : ∀ n x s, V'.leaveNode n x (f s) = f (V.leaveNode n x s)
  visitVariable : ∀ n s, V'.visitVariable n (f s) = (V.visitVariable n s).map id f
  leaveVariable : ∀ n s, V'.leaveVariable n (f s) = f (V.leaveVariable n s)
  visitBasicType : ∀ n b s, V'.visitBasicType n b (f s) = (V.visitBasicType n b s).map id f
  leaveBasicType : ∀ n b s, V'.leaveBasicType n b (f s) = f (V.leaveBasicType n b s)
  visitStringType : ∀ n t s, V'.visitStringType n t (f s) = (V.visitStringType n t s).map id f
  leaveStringType : ∀ n t s, V'.leaveStringType n t (f s) = f (V.leaveStringType n t s)
  visitDerivedType : ∀ n d s, V'.visitDerivedType n d (f s) = (V.visitDerivedType n d s).map id f
  leaveDerivedType : ∀ n d s, V'.leaveDerivedType n d (f s) = f (V.leaveDerivedType n d s)
  visitCompositeType : ∀ n c s,
    V'.visitCompositeType n c (f s) = (V.visitCompositeType n c s).map id f
  leaveCompositeType : ∀ n c s, V'.leaveCompositeType n c (f s) = f (V.leaveCompositeType n c s)
  visitRecurringCompositeType : ∀ n c s,
    V'.visitRecurringCompositeType n c (f s) = (V.visitRecurringCompositeType n c s).map id f
  leaveRecurringCompositeType : ∀ n c s,
    V'.leaveRecurringCompositeType n c (f s) = f (V.leaveRecurringCompositeType n c s)

variable {f : σ → τ} {V : DINodeVisitor ι σ} {V' : DINodeVisitor ι τ}

omit [DecidableEq ι] in
lemma Commutes.runType (h : Commutes f V V') (root : Option ι) {run : σ → Bool × σ}
    {run' : τ → Bool × τ} (hrun : ∀ s, run' (f s) = (run s).map id f) (s : σ) :
    V'.runType root run' (f s) = (V.runType root run s).map id f := by
  cases root with
  | none => rfl
  | some n =>
    simp only [DINodeVisitor.runType, h.visitType]
    cases V.visitType n s with
    | mk ret s => cases ret <;> simp [hrun]

omit [DecidableEq ι] in
mutual
lemma Commutes.run (h : Commutes f V V') (w : Walk ι) (s : σ) :
    V'.run w (f s) = (V.run w s).map id f := by
  match w with
  | .null => rfl
  | .basic n b => simp [DINodeVisitor.run, h.visitBasicType, h.leaveBasicType]
  | .string n t => simp [DINodeVisitor.run, h.visitStringType, h.leaveStringType]
  | .node n x => simp [DINodeVisitor.run, h.visitNode, h.leaveNode]
  | .var n type =>
    have htype := h.runType type.root (Commutes.run h type)
    simp only [DINodeVisitor.run, h.visitVariable]
    cases V.visitVariable n s with
    | mk ret s => cases ret <;> simp [h.leaveVariable, htype]
  | .derived n d base =>
    have hbase := h.runType base.root (Commutes.run h base)
    simp only [DINodeVisitor.run, h.visitDerivedType]
    cases V.visitDerivedType n d s with
    | mk ret s => cases ret <;> simp [h.leaveDerivedType, hbase]
  | .array n c elements base =>
    have hbase := h.runType base.root (Commutes.run h base)
    simp only [DINodeVisitor.run, h.visitCompositeType]
    cases V.visitCompositeType n c s with
    | mk ret s =>
      cases ret <;> simp [h.leaveCompositeType, hbase, Commutes.runElements h elements]
  | .composite n c base elements =>
    have hbase := h.runType base.root (Commutes.run h base)
    simp only [DINodeVisitor.run, h.visitCompositeType]
    cases V.visitCompositeType n c s with
    | mk ret s =>
      cases ret with
      | false => simp [h.leaveCompositeType]
      | true =>
        simp only [Prod.map, id, hbase]
        cases V.runType base.root (V.run base) s with
        | mk ret s =>
          cases ret <;> simp [h.leaveCompositeType, Commutes.runElements h elements]
  | .recurring n c =>
    simp [DINodeVisitor.run, h.visitRecurringCompositeType, h.leaveRecurringCompositeType]
  | .skip n => rfl

lemma Commutes.runElements (h : Commutes f V V') (ws : List (Walk ι)) (s : σ) :
    V'.runElements ws (f s) = f (V.runElements ws s) := by
  match ws with
  | [] => rfl
  | w :: ws =>
    simp only [DINodeVisitor.runElements, Commutes.run h w, Prod.map]
    exact Commutes.runElements h ws _
end

/-! ### What every callback keeps -/

/-- All callbacks keep a property of the state. -/
structure Keeps (I : σ → Prop) (V : DINodeVisitor ι σ) : Prop where
  visitType : ∀ n s, I s → I (V.visitType n s).2
  visitNode : ∀ n x s, I s → I (V.visitNode n x s).2
  leaveNode : ∀ n x s, I s → I (V.leaveNode n x s)
  visitVariable : ∀ n s, I s → I (V.visitVariable n s).2
  leaveVariable : ∀ n s, I s → I (V.leaveVariable n s)
  visitBasicType : ∀ n b s, I s → I (V.visitBasicType n b s).2
  leaveBasicType : ∀ n b s, I s → I (V.leaveBasicType n b s)
  visitStringType : ∀ n t s, I s → I (V.visitStringType n t s).2
  leaveStringType : ∀ n t s, I s → I (V.leaveStringType n t s)
  visitDerivedType : ∀ n d s, I s → I (V.visitDerivedType n d s).2
  leaveDerivedType : ∀ n d s, I s → I (V.leaveDerivedType n d s)
  visitCompositeType : ∀ n c s, I s → I (V.visitCompositeType n c s).2
  leaveCompositeType : ∀ n c s, I s → I (V.leaveCompositeType n c s)
  visitRecurringCompositeType : ∀ n c s, I s → I (V.visitRecurringCompositeType n c s).2
  leaveRecurringCompositeType : ∀ n c s, I s → I (V.leaveRecurringCompositeType n c s)

variable {I : σ → Prop}

omit [DecidableEq ι] in
lemma Keeps.runType (h : Keeps I V) (root : Option ι) {run : σ → Bool × σ}
    (hrun : ∀ s, I s → I (run s).2) {s : σ} (hs : I s) : I (V.runType root run s).2 := by
  cases root with
  | none => exact hs
  | some n =>
    have hvisit := h.visitType n s hs
    simp only [DINodeVisitor.runType]
    cases hv : V.visitType n s with
    | mk ret s' =>
      rw [hv] at hvisit
      cases ret with
      | false => exact hvisit
      | true => exact hrun s' hvisit

omit [DecidableEq ι] in
mutual
/-- What every callback keeps, a whole run keeps. -/
lemma Keeps.run (h : Keeps I V) (w : Walk ι) {s : σ} (hs : I s) : I (V.run w s).2 := by
  match w with
  | .null => exact hs
  | .basic n b => exact h.leaveBasicType n b _ (h.visitBasicType n b s hs)
  | .string n t => exact h.leaveStringType n t _ (h.visitStringType n t s hs)
  | .node n x => exact h.leaveNode n x _ (h.visitNode n x s hs)
  | .var n type =>
    have hvisit := h.visitVariable n s hs
    simp only [DINodeVisitor.run]
    cases hv : V.visitVariable n s with
    | mk ret s' =>
      rw [hv] at hvisit
      cases ret with
      | false => exact h.leaveVariable n _ hvisit
      | true => exact h.leaveVariable n _ (h.runType _ (fun _ => Keeps.run h type) hvisit)
  | .derived n d base =>
    have hvisit := h.visitDerivedType n d s hs
    simp only [DINodeVisitor.run]
    cases hv : V.visitDerivedType n d s with
    | mk ret s' =>
      rw [hv] at hvisit
      cases ret with
      | false => exact h.leaveDerivedType n d _ hvisit
      | true => exact h.leaveDerivedType n d _ (h.runType _ (fun _ => Keeps.run h base) hvisit)
  | .array n c elements base =>
    have hvisit := h.visitCompositeType n c s hs
    simp only [DINodeVisitor.run]
    cases hv : V.visitCompositeType n c s with
    | mk ret s' =>
      rw [hv] at hvisit
      cases ret with
      | false => exact h.leaveCompositeType n c _ hvisit
      | true =>
        have helements := Keeps.runElements h elements hvisit
        exact h.leaveCompositeType n c _ (h.runType _ (fun _ => Keeps.run h base) helements)
  | .composite n c base elements =>
    have hvisit := h.visitCompositeType n c s hs
    simp only [DINodeVisitor.run]
    cases hv : V.visitCompositeType n c s with
    | mk ret s' =>
      rw [hv] at hvisit
      cases ret with
      | false => exact h.leaveCompositeType n c _ hvisit
      | true =>
        have hbase := h.runType base.root (fun _ => Keeps.run h base) hvisit
        dsimp only
        cases hb : V.runType base.root (V.run base) s' with
        | mk ret s'' =>
          rw [hb] at hbase
          cases ret with
          | false => exact h.leaveCompositeType n c _ hbase
          | true => exact h.leaveCompositeType n c _ (Keeps.runElements h elements hbase)
  | .recurring n c =>
    exact h.leaveRecurringCompositeType n c _ (h.visitRecurringCompositeType n c s hs)
  | .skip n => exact hs

lemma Keeps.runElements (h : Keeps I V) (ws : List (Walk ι)) {s : σ} (hs : I s) :
    I (V.runElements ws s) := by
  match ws with
  | [] => exact hs
  | w :: ws => exact Keeps.runElements h ws (Keeps.run h w hs)
end

/-! ### The states of a run -/

/-- A result of a callback, with its state noted. -/
def note (r : Bool × σ) (states : List σ) : Bool × σ × List σ := (r.1, r.2, states ++ [r.2])

/-- The visitor that notes every state its callbacks return. -/
def traced (V : DINodeVisitor ι σ) : DINodeVisitor ι (σ × List σ) where
  visitType n s := note (V.visitType n s.1) s.2
  visitNode n x s := note (V.visitNode n x s.1) s.2
  leaveNode n x s := (note (true, V.leaveNode n x s.1) s.2).2
  visitVariable n s := note (V.visitVariable n s.1) s.2
  leaveVariable n s := (note (true, V.leaveVariable n s.1) s.2).2
  visitBasicType n b s := note (V.visitBasicType n b s.1) s.2
  leaveBasicType n b s := (note (true, V.leaveBasicType n b s.1) s.2).2
  visitStringType n t s := note (V.visitStringType n t s.1) s.2
  leaveStringType n t s := (note (true, V.leaveStringType n t s.1) s.2).2
  visitDerivedType n d s := note (V.visitDerivedType n d s.1) s.2
  leaveDerivedType n d s := (note (true, V.leaveDerivedType n d s.1) s.2).2
  visitCompositeType n c s := note (V.visitCompositeType n c s.1) s.2
  leaveCompositeType n c s := (note (true, V.leaveCompositeType n c s.1) s.2).2
  visitRecurringCompositeType n c s := note (V.visitRecurringCompositeType n c s.1) s.2
  leaveRecurringCompositeType n c s := (note (true, V.leaveRecurringCompositeType n c s.1) s.2).2

omit [DecidableEq ι] in
/-- Noting the states changes nothing else. -/
lemma commutes_traced (V : DINodeVisitor ι σ) : Commutes Prod.fst V.traced V where
  visitType _ _ := rfl
  visitNode _ _ _ := rfl
  leaveNode _ _ _ := rfl
  visitVariable _ _ := rfl
  leaveVariable _ _ := rfl
  visitBasicType _ _ _ := rfl
  leaveBasicType _ _ _ := rfl
  visitStringType _ _ _ := rfl
  leaveStringType _ _ _ := rfl
  visitDerivedType _ _ _ := rfl
  leaveDerivedType _ _ _ := rfl
  visitCompositeType _ _ _ := rfl
  leaveCompositeType _ _ _ := rfl
  visitRecurringCompositeType _ _ _ := rfl
  leaveRecurringCompositeType _ _ _ := rfl

end DINodeVisitor

end Dimeta
