import Mathlib.Data.Finset.Image
import Dimeta.DI.Sugar

/-!
# Searching in lockstep

The search on a graph with typedefs and qualifiers inserted between members and their types goes the
same way as the search on the graph itself, step by step, until it meets a member around the byte
that is hidden by them. From there on the two have parted.
-/

set_option autoImplicit false

namespace Dimeta

variable {ι κ : Type} {f : ι → κ} {G : DIGraph ι} {G' : DIGraph κ} {b : UInt64}

namespace DestructureComposite

/-! ### Records of the steps -/

/-- Recording the steps changes nothing else. -/
lemma commutes_stepped : DINodeVisitor.Commutes Prod.fst (stepped G b) (visitor G b) where
  visitType _ _ := rfl
  visitNode _ _ _ := rfl
  leaveNode _ _ _ := rfl
  visitVariable _ _ := rfl
  leaveVariable _ _ := rfl
  visitBasicType _ _ _ := rfl
  leaveBasicType _ _ _ := rfl
  visitStringType _ _ _ := rfl
  leaveStringType _ _ _ := rfl
  visitDerivedType _ _ _ := rfl
  leaveDerivedType _ _ _ := rfl
  visitCompositeType _ _ _ := rfl
  leaveCompositeType _ _ _ := rfl
  visitRecurringCompositeType _ _ _ := rfl
  leaveRecurringCompositeType _ _ _ := rfl

/-- A step stays in its place. -/
lemma keeps_step (i : ℕ) (x : SearchStep ι) : (stepped G b).Keeps fun s => s.2[i]? = some x where
  visitType _ _ hs := hs
  visitNode _ _ _ hs := hs
  leaveNode _ _ _ hs := hs
  visitVariable _ _ hs := hs
  leaveVariable _ _ hs := hs
  visitBasicType _ _ _ hs := hs
  leaveBasicType _ _ _ hs := hs
  visitStringType _ _ _ hs := hs
  leaveStringType _ _ _ hs := hs
  visitDerivedType _ _ s hs := by
    simp only [stepped, search]
    split
    · obtain ⟨hi, -⟩ := List.getElem?_eq_some_iff.mp hs
      rw [List.getElem?_append_left hi, hs]
    · exact hs
  leaveDerivedType _ _ _ hs := hs
  visitCompositeType _ _ _ hs := hs
  leaveCompositeType _ _ _ hs := hs
  visitRecurringCompositeType _ _ _ hs := hs
  leaveRecurringCompositeType _ _ _ hs := hs

lemma stepped_var (n : ι) (type : Walk ι) (s : Stepped ι) :
    (stepped G b).run (.var n type) s = (stepped G b).run type s :=
  search_var n type s

lemma stepped_derived (n : ι) (d : DIDerivedType ι) (base : Walk ι) (s : Stepped ι) :
    (stepped G b).run (.derived n d base) s =
      if ((stepped G b).visitDerivedType n d s).1 then
        (stepped G b).run base ((stepped G b).visitDerivedType n d s).2
      else (false, ((stepped G b).visitDerivedType n d s).2) :=
  search_derived n d base s

lemma stepped_composite (n : ι) (c : DICompositeType ι) (base : Walk ι)
    (elements : List (Walk ι)) (s : Stepped ι) :
    (stepped G b).run (.composite n c base elements) s =
      if s.1.terminate then (false, s)
      else if ((stepped G b).run base s).1 then
        (true, (stepped G b).runElements elements ((stepped G b).run base s).2)
      else (false, ((stepped G b).run base s).2) :=
  search_composite n c base elements s

lemma stepped_array (n : ι) (c : DICompositeType ι) (elements : List (Walk ι)) (base : Walk ι)
    (s : Stepped ι) :
    (stepped G b).run (.array n c elements base) s =
      if s.1.terminate then (false, s)
      else (stepped G b).run base ((stepped G b).runElements elements s) :=
  search_array n c elements base s

/-- Both searches are at the same place and have come there by the same steps. -/
structure Agree (f : ι → κ) (G' : DIGraph κ) (s : Stepped ι) (s' : Stepped κ) : Prop where
  state : s.1.Same f G' s'.1
  steps : List.Forall₂ (SearchStep.Same f G') s.2 s'.2

/-- Some step of the two searches differs. -/
def Parted (f : ι → κ) (G' : DIGraph κ) (s : Stepped ι) (s' : Stepped κ) : Prop :=
  ∃ (i : ℕ) (x : SearchStep ι) (x' : SearchStep κ), s.2[i]? = some x ∧ s'.2[i]? = some x' ∧
    ¬ x.Same f G' x'

lemma Parted.not_agree {s : Stepped ι} {s' : Stepped κ} (h : Parted f G' s s') :
    ¬ List.Forall₂ (SearchStep.Same f G') s.2 s'.2 := by
  obtain ⟨i, x, x', hx, hx', hnot⟩ := h
  obtain ⟨hi, rfl⟩ := List.getElem?_eq_some_iff.mp hx
  obtain ⟨hi', rfl⟩ := List.getElem?_eq_some_iff.mp hx'
  intro hsteps
  exact hnot (hsteps.get hi hi')

/-- What follows a step that differs does not undo it. -/
lemma Parted.run {s : Stepped ι} {s' : Stepped κ} (h : Parted f G' s s')
    (w : Walk ι) (w' : Walk κ) :
    Parted f G' ((stepped G b).run w s).2 ((stepped G' b).run w' s').2 := by
  obtain ⟨i, x, x', hx, hx', hnot⟩ := h
  exact ⟨i, x, x', (keeps_step i x).run w hx, (keeps_step i x').run w' hx', hnot⟩

lemma Parted.runElements {s : Stepped ι} {s' : Stepped κ} (h : Parted f G' s s')
    (ws : List (Walk ι)) (ws' : List (Walk κ)) :
    Parted f G' ((stepped G b).runElements ws s) ((stepped G' b).runElements ws' s') := by
  obtain ⟨i, x, x', hx, hx', hnot⟩ := h
  exact ⟨i, x, x', (keeps_step i x).runElements ws hx, (keeps_step i x').runElements ws' hx', hnot⟩

lemma Parted.goOn {r : Bool × Stepped ι} {r' : Bool × Stepped κ} (h : Parted f G' r.2 r'.2)
    (w : Walk ι) (w' : Walk κ) :
    Parted f G' (if r.1 then (stepped G b).run w r.2 else (false, r.2)).2
      (if r'.1 then (stepped G' b).run w' r'.2 else (false, r'.2)).2 := by
  obtain ⟨ret, s⟩ := r
  obtain ⟨ret', s'⟩ := r'
  cases ret with
  | false =>
    cases ret' with
    | false => exact h
    | true => exact h.run (G := G) .null w'
  | true =>
    cases ret' with
    | false => exact h.run w .null
    | true => exact h.run w w'

lemma Parted.goOnElements {r : Bool × Stepped ι} {r' : Bool × Stepped κ} (h : Parted f G' r.2 r'.2)
    (ws : List (Walk ι)) (ws' : List (Walk κ)) :
    Parted f G' (if r.1 then (true, (stepped G b).runElements ws r.2) else (false, r.2)).2
      (if r'.1 then (true, (stepped G' b).runElements ws' r'.2) else (false, r'.2)).2 := by
  obtain ⟨ret, s⟩ := r
  obtain ⟨ret', s'⟩ := r'
  cases ret with
  | false =>
    cases ret' with
    | false => exact h
    | true => exact h.runElements (G := G) [] ws'
  | true =>
    cases ret' with
    | false => exact h.runElements ws []
    | true => exact h.runElements ws ws'

/-- A step of both searches that differs. -/
lemma Agree.parted {s : Stepped ι} {s' : Stepped κ} (h : Agree f G' s s')
    {x : SearchStep ι} {x' : SearchStep κ} (hnot : ¬ x.Same f G' x') :
    Parted f G' (x.state, s.2 ++ [x]) (x'.state, s'.2 ++ [x']) := by
  have hlength := h.steps.length_eq
  refine ⟨s.2.length, x, x', ?_, ?_, hnot⟩
  · exact List.getElem?_concat_length
  · rw [hlength]
    exact List.getElem?_concat_length

/-! ### Walks that are searched alike -/

/-- The visits of two walks return the same in the same place, or some step of them differs. -/
inductive Lockstep (f : ι → κ) (G' : DIGraph κ) : Option (Bool × SearchPlace) →
    Bool × Stepped ι → Bool × Stepped κ → Prop
  | agree {ret : Bool} {s : Stepped ι} {s' : Stepped κ} (h : Agree f G' s s') :
      Lockstep f G' (some (ret, s.1.place)) (ret, s) (ret, s')
  | parted {r : Bool × Stepped ι} {r' : Bool × Stepped κ} (h : Parted f G' r.2 r'.2) :
      Lockstep f G' none r r'

inductive LockstepElements (f : ι → κ) (G' : DIGraph κ) : Option SearchPlace →
    Stepped ι → Stepped κ → Prop
  | agree {s : Stepped ι} {s' : Stepped κ} (h : Agree f G' s s') :
      LockstepElements f G' (some s.1.place) s s'
  | parted {s : Stepped ι} {s' : Stepped κ} (h : Parted f G' s s') :
      LockstepElements f G' none s s'

section Alike

variable [DecidableEq κ]

/-- The searches go the same way through both walks, up to the first member that is hidden. -/
def Alike (f : ι → κ) (G : DIGraph ι) (G' : DIGraph κ) (b : UInt64) (w : Walk ι) (w' : Walk κ) :
    Prop :=
  ∀ s s', Agree f G' s s' →
    Lockstep f G' (w.passes (G.hides f G') b s.1.place) ((stepped G b).run w s)
      ((stepped G' b).run w' s')

def AlikeElements (f : ι → κ) (G : DIGraph ι) (G' : DIGraph κ) (b : UInt64) (ws : List (Walk ι))
    (ws' : List (Walk κ)) : Prop :=
  ∀ s s', Agree f G' s s' →
    LockstepElements f G' (passesElements (G.hides f G') b ws s.1.place)
      ((stepped G b).runElements ws s) ((stepped G' b).runElements ws' s')

lemma alikeElements_of_forall₂ {ws : List (Walk ι)} {ws' : List (Walk κ)}
    (h : List.Forall₂ (Alike f G G' b) ws ws') : AlikeElements f G G' b ws ws' := by
  induction h with
  | nil => exact fun s s' hs => .agree hs
  | @cons w w' ws ws' hw _ ih =>
    intro s s' hs
    have hstep := hw s s' hs
    simp only [passesElements, DINodeVisitor.runElements]
    generalize w.passes (G.hides f G') b s.1.place = o at hstep
    generalize (stepped G b).run w s = r at hstep
    generalize (stepped G' b).run w' s' = r' at hstep
    cases hstep with
    | agree h => exact ih _ _ h
    | parted h => exact .parted (h.runElements ws ws')

lemma alike_var {n : ι} {n' : κ} {type : Walk ι} {type' : Walk κ}
    (h : Alike f G G' b type type') : Alike f G G' b (.var n type) (.var n' type') := by
  intro s s' hs
  rw [stepped_var, stepped_var, Walk.passes]
  exact h s s' hs

lemma alike_array {n : ι} {n' : κ} {c : DICompositeType ι} {c' : DICompositeType κ}
    {elements : List (Walk ι)} {elements' : List (Walk κ)} {base : Walk ι} {base' : Walk κ}
    (helements : AlikeElements f G G' b elements elements') (hbase : Alike f G G' b base base') :
    Alike f G G' b (.array n c elements base) (.array n' c' elements' base') := by
  intro s s' hs
  rw [stepped_array, stepped_array, Walk.passes, hs.state.terminate]
  cases hterm : s.1.terminate with
  | true =>
    rw [if_pos (show s.1.place.stopped = true from hterm)]
    exact .agree hs
  | false =>
    have hstep := helements s s' hs
    rw [if_neg (show ¬ s.1.place.stopped = true by simp [place, hterm])]
    generalize passesElements (G.hides f G') b elements s.1.place = o at hstep
    generalize (stepped G b).runElements elements s = r at hstep
    generalize (stepped G' b).runElements elements' s' = r' at hstep
    cases hstep with
    | agree h => exact hbase _ _ h
    | parted h => exact .parted (h.run base base')

lemma alike_composite {n : ι} {n' : κ} {c : DICompositeType ι} {c' : DICompositeType κ}
    {elements : List (Walk ι)} {elements' : List (Walk κ)} {base : Walk ι} {base' : Walk κ}
    (hbase : Alike f G G' b base base') (helements : AlikeElements f G G' b elements elements') :
    Alike f G G' b (.composite n c base elements) (.composite n' c' base' elements') := by
  intro s s' hs
  rw [stepped_composite, stepped_composite, Walk.passes, hs.state.terminate]
  cases hterm : s.1.terminate with
  | true =>
    rw [if_pos (show s.1.place.stopped = true from hterm)]
    exact .agree hs
  | false =>
    have hstep := hbase s s' hs
    rw [if_neg (show ¬ s.1.place.stopped = true by simp [place, hterm])]
    generalize base.passes (G.hides f G') b s.1.place = o at hstep
    generalize (stepped G b).run base s = r at hstep
    generalize (stepped G' b).run base' s' = r' at hstep
    cases hstep with
    | @agree ret s s' h =>
      cases ret with
      | false => exact .agree h
      | true =>
        have hstep := helements s s' h
        simp only [Option.bind_some, if_true, Bool.false_eq_true, if_false]
        generalize passesElements (G.hides f G') b elements s.1.place = o at hstep
        generalize (stepped G b).runElements elements s = r at hstep
        generalize (stepped G' b).runElements elements' s' = r' at hstep
        cases hstep with
        | agree h => exact .agree h
        | parted h => exact .parted h
    | parted h => exact .parted (h.goOnElements elements elements')

/-! ### Walks of members -/

omit [DecidableEq κ] in
lemma stepped_visit_of_not_covers {n : ι} {d : DIDerivedType ι} {s : Stepped ι}
    (h : ((DINode.derivedType d).isNonStaticMember && d.covers s.1.offsetBase b) = false) :
    (stepped G b).visitDerivedType n d s = (true, s) := by
  simp only [stepped, search, visitDerivedType, h]
  cases hd : (DINode.derivedType d).isNonStaticMember with
  | false => rfl
  | true =>
    rw [hd, Bool.true_and] at h
    simp [h]

omit [DecidableEq κ] in
lemma stepped_visit_of_covers {n : ι} {d : DIDerivedType ι} {s : Stepped ι}
    (h : ((DINode.derivedType d).isNonStaticMember && d.covers s.1.offsetBase b) = true) :
    (stepped G b).visitDerivedType n d s =
      ((visitDerivedType G b n d s.1).1, (visitDerivedType G b n d s.1).2,
        s.2 ++ [⟨n, (visitDerivedType G b n d s.1).1, (visitDerivedType G b n d s.1).2⟩]) := by
  simp only [stepped, search, h, if_true]

/-- Names and qualifiers are passed. -/
lemma unfolds_of_names {visited : Finset κ} {t' t : κ} (h : G'.Names t' t) {w : Walk κ}
    (hw : G'.Unfolds visited t w) :
    ∃ w', G'.Unfolds visited t' w' ∧ ∀ s, (stepped G' b).run w' s = (stepped G' b).run w s := by
  induction h with
  | refl => exact ⟨w, hw, fun _ => rfl⟩
  | @sugar n t t' d hn hd hbase _ ih =>
    obtain ⟨w', hw', hrun⟩ := ih hw
    refine ⟨.derived n d w', .of_step (.derived hn ?_), fun s => ?_⟩
    · rw [hbase]
      exact .type hw'
    · have hmember := DIDerivedType.isNonStaticMember_of_isSugar hd
      rw [stepped_derived, stepped_visit_of_not_covers (by rw [hmember]; rfl), if_pos rfl, hrun]

lemma place_visit_of_covers {n t : ι} {d : DIDerivedType ι} {s : DestructureComposite ι}
    (hd : (DINode.derivedType d).isNonStaticMember = true)
    (hcovers : d.covers s.offsetBase b = true) (ht : d.baseType = some t) {base : Walk ι}
    (hstops : ((G.node t).isPointerLike || (G.node t).isArray) = base.stops)
    (hcomposite : (G.node t).asComposite.isSome = base.isComposite) :
    (visitDerivedType G b n d s).1 = !base.stops ∧
      (visitDerivedType G b n d s).2.place =
        if base.stops then { s.place with stopped := true }
        else if base.isComposite then
          { s.place with offsetBase := s.place.offsetBase + d.offsetInBits / 8 }
        else s.place := by
  rw [visitDerivedType_of_covers hd hcovers ht, hstops, hcomposite]
  refine ⟨rfl, ?_⟩
  cases base.stops with
  | true => simp [enter, place]
  | false => cases base.isComposite <;> simp [enter, place]

/-- The step at a member around the byte, whose declared types have the walks `base` and `base'`. -/
lemma lockstep_of_covers (h : G.Sugared f G') {n t : ι} {t' : κ} {d : DIDerivedType ι}
    (hn' : G'.node (f n) = .derivedType (d.withType (some t')))
    (ht : d.baseType = some t) (hnames : G'.Names t' (f t)) {base : Walk ι} {base' : Walk κ}
    (hstops : ((G.node t).isPointerLike || (G.node t).isArray) = base.stops)
    (hcomposite : (G.node t).asComposite.isSome = base.isComposite)
    (hbase : Alike f G G' b base base') {s : Stepped ι} {s' : Stepped κ} (hs : Agree f G' s s')
    (hcovers : ((DINode.derivedType d).isNonStaticMember && d.covers s.1.offsetBase b) = true) :
    Lockstep f G' ((Walk.derived n d base).passes (G.hides f G') b s.1.place)
      ((stepped G b).run (.derived n d base) s)
      ((stepped G' b).run (.derived (f n) (d.withType (some t')) base') s') := by
  have hcovers' : ((DINode.derivedType (d.withType (some t'))).isNonStaticMember &&
      (d.withType (some t')).covers s'.1.offsetBase b) = true := by
    rw [hs.state.offsetBase]
    exact hcovers
  obtain ⟨hd, hb⟩ := Bool.and_eq_true_iff.mp hcovers
  have hsame := visit_same_iff h hn' ht hnames hs.state hd hb
  obtain ⟨hret, hplace⟩ := place_visit_of_covers (n := n) hd hb ht hstops hcomposite
  have haround : ((DINode.derivedType d).isNonStaticMember &&
    d.covers s.1.place.offsetBase b) = true := hcovers
  rw [Walk.passes, haround, if_pos rfl, stepped_derived, stepped_derived,
    stepped_visit_of_covers hcovers, stepped_visit_of_covers hcovers']
  generalize visitDerivedType G b n d s.1 = r at hsame hret hplace ⊢
  generalize visitDerivedType G' b (f n) (d.withType (some t')) s'.1 = r' at hsame ⊢
  cases hhidden : G.hides f G' n d with
  | true =>
    -- the member is hidden: what is compared differs, and the runs part
    refine .parted (Parted.goOn (hs.parted ?_) base base')
    rintro ⟨-, hret, hstate⟩
    have hnot := hsame.mp ⟨hret, hstate⟩
    rw [hhidden] at hnot
    cases hnot
  | false =>
    -- the same is saved, and both runs go on below or stop here
    obtain ⟨hret', hstate⟩ := hsame.mpr hhidden
    obtain ⟨ret, st⟩ := r
    obtain ⟨ret', st'⟩ := r'
    obtain rfl : ret' = ret := hret'
    obtain rfl : ret' = !base.stops := hret
    have hagree : Agree f G' (st, s.2 ++ [⟨n, !base.stops, st⟩])
        (st', s'.2 ++ [⟨f n, !base.stops, st'⟩]) :=
      ⟨hstate, List.rel_append hs.steps (.cons ⟨rfl, rfl, hstate⟩ .nil)⟩
    have hnext := hbase _ _ hagree
    dsimp only at hplace hnext hagree ⊢
    rw [hplace] at hnext
    generalize base.stops = stops at hplace hnext hagree ⊢
    cases stops with
    | true =>
      have hstop : Lockstep f G' (some (false, st.place)) (false, st, _) (false, st', _) :=
        .agree hagree
      rw [hplace] at hstop
      exact hstop
    | false =>
      generalize base.isComposite = composite at hnext ⊢
      cases composite with
      | true => exact hnext
      | false => exact hnext

/-- A member without a type is undefined on both graphs. -/
lemma lockstep_of_null {n : ι} {d : DIDerivedType ι} (ht : d.baseType = none)
    {base' : Walk κ} (hbase : Alike f G G' b .null base')
    {s : Stepped ι} {s' : Stepped κ} (hs : Agree f G' s s')
    (hcovers : ((DINode.derivedType d).isNonStaticMember && d.covers s.1.offsetBase b) = true) :
    Lockstep f G' ((Walk.derived n d .null).passes (G.hides f G') b s.1.place)
      ((stepped G b).run (.derived n d .null) s)
      ((stepped G' b).run (.derived (f n) (d.withType none) base') s') := by
  have hcovers' : ((DINode.derivedType (d.withType (none : Option κ))).isNonStaticMember &&
      (d.withType (none : Option κ)).covers s'.1.offsetBase b) = true := by
    rw [hs.state.offsetBase]
    exact hcovers
  have hvisit := visitDerivedType_of_null (G := G) (n := n) hcovers ht
  have hvisit' := visitDerivedType_of_null (G := G') (n := f n) hcovers' rfl
  have hhides : G.hides f G' n d = false := by rw [DIGraph.hides, ht]
  have hstate : DestructureComposite.Same f G' { s.1 with undefined := true }
      { s'.1 with undefined := true } :=
    ⟨hs.state.offsetBase, hs.state.outermostCandidate, hs.state.terminate, rfl⟩
  have hagree : Agree f G'
      ({ s.1 with undefined := true }, s.2 ++ [⟨n, true, { s.1 with undefined := true }⟩])
      ({ s'.1 with undefined := true }, s'.2 ++ [⟨f n, true, { s'.1 with undefined := true }⟩]) :=
    ⟨hstate, List.rel_append hs.steps (.cons ⟨rfl, rfl, hstate⟩ .nil)⟩
  have haround : ((DINode.derivedType d).isNonStaticMember &&
    d.covers s.1.place.offsetBase b) = true := hcovers
  rw [Walk.passes, haround, if_pos rfl, stepped_derived, stepped_derived,
    stepped_visit_of_covers hcovers, stepped_visit_of_covers hcovers', hvisit, hvisit', hhides]
  exact hbase _ _ hagree

lemma alike_derived (h : G.Sugared f G') {n : ι} {d : DIDerivedType ι} {type' : Option κ}
    (hn' : G'.node (f n) = .derivedType (d.withType type'))
    (htype : Option.Rel (fun t t' => G'.Names t' (f t)) d.baseType type') {base : Walk ι}
    {base' : Walk κ} (hnull : d.baseType = none → base = .null)
    (hheads : ∀ t, d.baseType = some t →
      ((G.node t).isPointerLike || (G.node t).isArray) = base.stops ∧
        (G.node t).asComposite.isSome = base.isComposite)
    (hbase : Alike f G G' b base base') :
    Alike f G G' b (.derived n d base) (.derived (f n) (d.withType type') base') := by
  intro s s' hs
  cases hcovers : (DINode.derivedType d).isNonStaticMember && d.covers s.1.offsetBase b with
  | false =>
    have hcovers' : ((DINode.derivedType (d.withType type')).isNonStaticMember &&
        (d.withType type').covers s'.1.offsetBase b) = false := by
      rw [hs.state.offsetBase]
      exact hcovers
    have hpassed : ((DINode.derivedType d).isNonStaticMember &&
        d.covers s.1.place.offsetBase b) = false := hcovers
    rw [Walk.passes, hpassed, stepped_derived, stepped_derived,
      stepped_visit_of_not_covers hcovers, stepped_visit_of_not_covers hcovers']
    exact hbase s s' hs
  | true =>
    generalize ht : d.baseType = type at htype
    cases htype with
    | none =>
      obtain rfl := hnull ht
      exact lockstep_of_null ht hbase hs hcovers
    | some hnames =>
      obtain ⟨hstops, hcomposite⟩ := hheads _ ht
      exact lockstep_of_covers h hn' ht hnames hstops hcomposite hbase hs hcovers

/-! ### The tree of the other graph -/

lemma alike_rfl {w : Walk ι} {w' : Walk κ} {ret : Bool}
    (hpasses : ∀ p, w.passes (G.hides f G') b p = some (ret, p))
    (hw : ∀ s, (stepped G b).run w s = (ret, s)) (hw' : ∀ s, (stepped G' b).run w' s = (ret, s)) :
    Alike f G G' b w w' := by
  intro s s' hs
  rw [hpasses, hw, hw']
  exact .agree hs

section Lift

variable {U : ι → Walk ι → Prop} {visited : Finset κ}

lemma exists_alike_type {type : Option ι} {w : Walk ι} (h : TypeWalk U type w)
    (hU : ∀ n w, U n w → ∃ w', G'.Unfolds visited (f n) w' ∧ Alike f G G' b w w') :
    ∃ w', TypeWalk (G'.Unfolds visited) (type.map f) w' ∧ Alike f G G' b w w' := by
  cases h with
  | null => exact ⟨.null, .null, alike_rfl (fun _ => rfl) (fun _ => rfl) fun _ => rfl⟩
  | type h =>
    obtain ⟨w', hw', halike⟩ := hU _ _ h
    exact ⟨w', .type hw', halike⟩

lemma exists_alike_elements {es : List ι} {ws : List (Walk ι)} (h : List.Forall₂ U es ws)
    (hU : ∀ n w, U n w → ∃ w', G'.Unfolds visited (f n) w' ∧ Alike f G G' b w w') :
    ∃ ws', List.Forall₂ (G'.Unfolds visited) (es.map f) ws' ∧
      List.Forall₂ (Alike f G G' b) ws ws' := by
  induction h with
  | nil => exact ⟨[], .nil, .nil⟩
  | cons hw _ ih =>
    obtain ⟨w', hw', halike⟩ := hU _ _ hw
    obtain ⟨ws', hws', halikes⟩ := ih
    exact ⟨w' :: ws', .cons hw' hws', .cons halike halikes⟩

/-- The declared type of a member has a walk behind the inserted nodes as well. -/
lemma exists_alike_names {type : Option ι} {type' : Option κ} {w : Walk ι}
    (htype : Option.Rel (fun t t' => G'.Names t' (f t)) type type') (h : TypeWalk U type w)
    (hU : ∀ n w, U n w → ∃ w', G'.Unfolds visited (f n) w' ∧ Alike f G G' b w w') :
    ∃ w', TypeWalk (G'.Unfolds visited) type' w' ∧ Alike f G G' b w w' := by
  obtain ⟨w', hw', halike⟩ := exists_alike_type h hU
  cases htype with
  | none => exact ⟨w', hw', halike⟩
  | some hnames =>
    obtain ⟨w'', hw'', hrun⟩ := unfolds_of_names (b := b) hnames hw'.of_some
    refine ⟨w'', .type hw'', fun s s' hs => ?_⟩
    rw [hrun]
    exact halike s s' hs

end Lift

/-- The tree of a node has a counterpart on the other graph, through which the search goes the same
way. -/
theorem exists_alike [DecidableEq ι] (h : G.Sugared f G') {fuel : ℕ} {visited : Finset ι} {n : ι}
    {w : Walk ι} (hw : G.walk fuel visited n = some w) :
    ∃ w', G'.Unfolds (visited.image f) (f n) w' ∧ Alike f G G' b w w' := by
  induction fuel generalizing visited n w with
  | zero => cases hw
  | succ fuel ih =>
    have ih : ∀ visited n w, G.walk fuel visited n = some w →
        ∃ w', G'.Unfolds (visited.image f) (f n) w' ∧ Alike f G G' b w w' := fun _ _ _ => ih
    cases DIGraph.walkStep_of_walk hw with
    | basic hn =>
      refine ⟨_, .of_step (.basic (h.node_eq hn rfl)), ?_⟩
      exact alike_rfl (fun _ => rfl) (fun _ => rfl) fun _ => rfl
    | string hn =>
      refine ⟨_, .of_step (.string (h.node_eq hn rfl)), ?_⟩
      exact alike_rfl (fun _ => rfl) (fun _ => rfl) fun _ => rfl
    | node hn hplain =>
      next x =>
      refine ⟨_, .of_step (.node (h.node_eq hn ?_) ?_), ?_⟩
      · cases x <;> first | rfl | cases hplain
      · cases x <;> first | rfl | cases hplain
      · exact alike_rfl (fun _ => rfl) (fun _ => rfl) fun _ => rfl
    | var hn htype =>
      obtain ⟨w', hw', halike⟩ := exists_alike_type htype (ih visited)
      exact ⟨_, .of_step (.var (h.node_eq hn rfl) hw'), alike_var halike⟩
    | derived hn hbase =>
      -- only here the graphs differ: the other one leaves out the names in front of the type
      next d base =>
      have hnode := h.node n
      rw [hn] at hnode
      obtain ⟨type', hn', htype⟩ := hnode.derived
      obtain ⟨base', hbase', halike⟩ := exists_alike_names htype hbase (ih visited)
      refine ⟨.derived (f n) (d.withType type') base', .of_step (.derived hn' hbase'), ?_⟩
      refine alike_derived h hn' htype (fun ht => ?_) (fun t ht => ?_) halike
      · rw [ht] at hbase
        cases hbase with
        | null => rfl
      · rw [ht] at hbase
        obtain ⟨hstops, hcomposite, -⟩ := head_of_walk hbase.of_some
        exact ⟨hstops, hcomposite⟩
    | array hn hvisited htag helements hbase =>
      -- the open nodes correspond, as the map is injective
      next c base elements =>
      obtain ⟨elements', helements', halikes⟩ := exists_alike_elements helements (ih visited)
      obtain ⟨base', hbase', halike⟩ := exists_alike_type hbase (ih visited)
      have hopen : f n ∉ visited.image f := by rwa [h.injective.mem_finset_image]
      refine ⟨_, .of_step (.array (h.node_eq hn rfl) hopen htag helements' hbase'), ?_⟩
      exact alike_array (alikeElements_of_forall₂ halikes) halike
    | composite hn hvisited htag hbase helements =>
      next c base elements =>
      obtain ⟨elements', helements', halikes⟩ :=
        exists_alike_elements helements (ih (insert n visited))
      obtain ⟨base', hbase', halike⟩ := exists_alike_type hbase (ih (insert n visited))
      rw [Finset.image_insert] at helements' hbase'
      have hopen : f n ∉ visited.image f := by rwa [h.injective.mem_finset_image]
      refine ⟨_, .of_step (.composite (h.node_eq hn rfl) hopen htag hbase' helements'), ?_⟩
      exact alike_composite halike (alikeElements_of_forall₂ halikes)
    | recurring hn hvisited =>
      have hopen := Finset.mem_image_of_mem f hvisited
      refine ⟨_, .of_step (.recurring (h.node_eq hn rfl) hopen), ?_⟩
      exact alike_rfl (fun _ => rfl) (fun _ => rfl) fun _ => rfl
    | skip hn =>
      refine ⟨.skip (f n), .of_step (.skip (hn.imp (h.node_eq · rfl) (h.node_eq · rfl))), ?_⟩
      exact alike_rfl (fun _ => rfl) (fun _ => rfl) fun _ => rfl

end Alike

end DestructureComposite

open DestructureComposite

/-! ### Resolving -/

/-- What is resolved, and by which steps. -/
lemma steps_of_walk [DecidableEq ι] {n : ι} {c : DICompositeType ι} {fuel : ℕ} {w : Walk ι}
    (hn : G.node n = .compositeType c) (hw : G.walk (fuel + 1) ∅ n = some w) :
    resolveByteOffsetToMemberOf G fuel n c b =
        some ((stepped G b).run w ({}, [])).2.1.outermostCandidate ∧
      searchSteps G fuel n c b = some ((stepped G b).run w ({}, [])).2.2 := by
  have hstepped := DINodeVisitor.invokeIfAny_eq_run (stepped G b) hw ({}, [])
  simp only [DINodeVisitor.invokeIfAny, hn] at hstepped
  constructor
  · rw [resolveByteOffsetToMemberOf, traverse_of_commutes commutes_stepped hn hw []]
    rfl
  · rw [searchSteps, hstepped]
    rfl

/-- On a graph with typedefs and qualifiers between members and their types, the search resolves to
the same member by the same steps exactly if none of the members around the byte is hidden by
them. -/
theorem DIGraph.Sugared.resolves_iff_passes [DecidableEq ι] [Fintype ι] [DecidableEq κ]
    (h : G.Sugared f G') (hG : G.CyclesPassRecords) {n : ι} {c : DICompositeType ι}
    (hn : G.node n = .compositeType c) (b : UInt64) :
    ∃ fuel w r r' steps steps',
      (∀ fuel', fuel ≤ fuel' → G.walk (fuel' + 1) ∅ n = some w ∧
        resolveByteOffsetToMemberOf G fuel' n c b = some r ∧
        resolveByteOffsetToMemberOf G' fuel' (f n) (c.map f) b = some r' ∧
        searchSteps G fuel' n c b = some steps ∧
        searchSteps G' fuel' (f n) (c.map f) b = some steps') ∧
      (Option.Rel (StructMember.Same f G') r r' ∧
          List.Forall₂ (SearchStep.Same f G') steps steps' ↔
        (w.passes (G.hides f G') b {}).isSome = true) := by
  obtain ⟨fuel, w, hw⟩ := DIGraph.hasWalk_of_cyclesPassRecords hG ∅ n
  obtain ⟨w', ⟨fuel', hw'⟩, halike⟩ := exists_alike (b := b) h hw
  have hstart : Agree f G' ({}, []) ({}, []) := ⟨⟨rfl, .none, rfl, rfl⟩, .nil⟩
  have hlockstep := halike _ _ hstart
  refine ⟨max fuel fuel', w, ((stepped G b).run w ({}, [])).2.1.outermostCandidate,
    ((stepped G' b).run w' ({}, [])).2.1.outermostCandidate, ((stepped G b).run w ({}, [])).2.2,
    ((stepped G' b).run w' ({}, [])).2.2, fun k hk => ?_, ?_⟩
  · have hw := DIGraph.walk_mono (show fuel ≤ k + 1 by omega) hw
    have hw' := DIGraph.walk_mono (show fuel' ≤ k + 1 by omega) hw'
    obtain ⟨hr, hsteps⟩ := steps_of_walk (b := b) hn hw
    obtain ⟨hr', hsteps'⟩ := steps_of_walk (b := b) (h.node_eq hn rfl) hw'
    exact ⟨hw, hr, hr', hsteps, hsteps'⟩
  · dsimp only [place] at hlockstep
    generalize w.passes (G.hides f G') b {} = o at hlockstep ⊢
    generalize (stepped G b).run w ({}, []) = q at hlockstep ⊢
    generalize (stepped G' b).run w' ({}, []) = q' at hlockstep ⊢
    cases hlockstep with
    | agree hagree => exact iff_of_true ⟨hagree.state.outermostCandidate, hagree.steps⟩ rfl
    | parted hparted => exact iff_of_false (fun hsame => hparted.not_agree hsame.2) (by decide)

/-! ### A member that is declared by a typedef -/

/-- `struct C { int z; D m; };` with `typedef struct B { int x; } D;` -/
def nestedNamed : DIGraph (Fin 7) where
  node
    | 0 => .compositeType { tag := .structureType, name := "C", sizeInBits := 64,
                            elements := [1, 2] }
    | 1 => .derivedType { tag := .member, name := "z", sizeInBits := 32, baseType := some 5 }
    | 2 => .derivedType { tag := .member, name := "m", sizeInBits := 32, offsetInBits := 32,
                          baseType := some 6 }
    | 3 => .compositeType { tag := .structureType, name := "B", sizeInBits := 32,
                            elements := [4] }
    | 4 => .derivedType { tag := .member, name := "x", sizeInBits := 32, baseType := some 5 }
    | 5 => .basicType { name := "int", sizeInBits := 32, encoding := .signed }
    | 6 => .derivedType { tag := .typedef, name := "D", baseType := some 3 }

lemma sugared_nested : nested.Sugared Fin.castSucc nestedNamed where
  injective := Fin.castSucc_injective 6
  node n := by
    match n with
    | 0 => exact .same (nested.node 0)
    | 1 => exact .same (nested.node 1)
    | 2 => exact .member (t := 3) rfl rfl (.sugar (n := 6) rfl rfl rfl (.refl 3))
    | 3 => exact .same (nested.node 3)
    | 4 => exact .same (nested.node 4)
    | 5 => exact .same (nested.node 5)

theorem DIGraph.Sugared.resolves_iff_passes_nested :
    ∃ fuel w r r' steps steps',
      (∀ fuel', fuel ≤ fuel' → nested.walk (fuel' + 1) ∅ 0 = some w ∧
        resolveByteOffsetToMemberOf nested fuel' 0
          { tag := .structureType, name := "C", sizeInBits := 64, elements := [1, 2] } 0 = some r ∧
        resolveByteOffsetToMemberOf nestedNamed fuel' 0
          { tag := .structureType, name := "C", sizeInBits := 64, elements := [1, 2] } 0 = some r' ∧
        searchSteps nested fuel' 0
          { tag := .structureType, name := "C", sizeInBits := 64, elements := [1, 2] } 0 =
            some steps ∧
        searchSteps nestedNamed fuel' 0
          { tag := .structureType, name := "C", sizeInBits := 64, elements := [1, 2] } 0 =
            some steps') ∧
      (Option.Rel (StructMember.Same Fin.castSucc nestedNamed) r r' ∧
          List.Forall₂ (SearchStep.Same Fin.castSucc nestedNamed) steps steps' ↔
        (w.passes (nested.hides Fin.castSucc nestedNamed) 0 {}).isSome = true) :=
  sugared_nested.resolves_iff_passes nestedGraph.cycles_pass_records rfl 0

/-- The byte 4 is in `x`. With `m` declared by the typedef the offset base stays at `C`, where `x`
does not contain that byte, and `m` is resolved. -/
theorem not_resolves_alike : ¬ ∀ (f : Fin 6 → Fin 7) (G : DIGraph (Fin 6)) (G' : DIGraph (Fin 7))
    (n : Fin 6) (c : DICompositeType (Fin 6)) (b : UInt64), G.Sugared f G' →
    G.CyclesPassRecords → G.node n = .compositeType c →
    ∃ fuel r r', (∀ fuel', fuel ≤ fuel' → resolveByteOffsetToMemberOf G fuel' n c b = some r ∧
        resolveByteOffsetToMemberOf G' fuel' (f n) (c.map f) b = some r') ∧
      Option.Rel (StructMember.Same f G') r r' := by
  intro h
  obtain ⟨fuel, r, r', hr, hsame⟩ := h Fin.castSucc nested nestedNamed 0 _ 4 sugared_nested
    nestedGraph.cycles_pass_records rfl
  have hx : resolveByteOffsetToMemberOf nested 8 0
      { tag := .structureType, name := "C", sizeInBits := 64, elements := [1, 2] } 4 =
        some (some ⟨4, 5⟩) := by decide +kernel
  have hm : resolveByteOffsetToMemberOf nestedNamed 8 0
      { tag := .structureType, name := "C", sizeInBits := 64, elements := [1, 2] } 4 =
        some (some ⟨2, 6⟩) := by decide +kernel
  obtain ⟨hresolve, hresolve'⟩ := hr (max fuel 8) (le_max_left _ _)
  rw [resolve_mono rfl (by decide +kernel) (le_max_right fuel 8), hx] at hresolve
  rw [show Fin.castSucc (0 : Fin 6) = 0 from rfl,
    resolve_mono rfl (by decide +kernel) (le_max_right fuel 8)] at hresolve'
  obtain rfl := Option.some.inj hresolve
  obtain rfl := Option.some.inj (hm.symm.trans hresolve')
  cases hsame with
  | some hmember => exact absurd hmember.member (by decide)

end Dimeta
