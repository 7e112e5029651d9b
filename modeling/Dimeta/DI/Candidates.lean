import Dimeta.DI.Sugar

/-!
# The members that are compared

The visitor that resolves a byte offset compares the members on its way with the byte, each for the
offset base that those in front of it have left. The last member that contains the byte is what the
offset resolves to.
-/

set_option autoImplicit false

namespace Dimeta

variable {ι : Type}

/-! ### Comparisons -/

/-- A member, as it is compared with the byte: its offset counts from the offset base in force. -/
structure Comparison (ι : Type*) where
  member : ι
  derivedType : DIDerivedType ι
  offsetBase : UInt64

namespace Comparison

def contains (b : UInt64) (x : Comparison ι) : Bool := x.derivedType.covers x.offsetBase b

/-- The candidate that the member becomes, if it contains the byte. -/
def candidate (b : UInt64) (x : Comparison ι) : Option (StructMember ι) :=
  if x.contains b then x.derivedType.baseType.map fun t => ⟨x.member, t⟩ else none

/-- The last of the candidates. -/
def last (b : UInt64) (xs : List (Comparison ι)) : Option (StructMember ι) :=
  xs.reverse.findSome? (candidate b)

lemma last_append (b : UInt64) (xs ys : List (Comparison ι)) :
    last b (xs ++ ys) = (last b ys).or (last b xs) := by
  rw [last, List.reverse_append, List.findSome?_append]
  rfl

lemma last_cons (b : UInt64) (x : Comparison ι) (xs : List (Comparison ι)) :
    last b (x :: xs) = (last b xs).or (x.candidate b) := by
  rw [← List.singleton_append, last_append]
  simp [last]

end Comparison

/-- What a walk compares, whether the visit goes on behind it, and where the search is left. -/
structure Comparisons (ι : Type*) where
  members : List (Comparison ι)
  goesOn : Bool
  place : SearchPlace

mutual
/-- The members that are compared with the byte `b`, in order. One that contains the byte moves the
offset base if it is of composite type; a pointer or an array stops the search, so that no composite
is entered any more. -/
def Walk.compared (b : UInt64) : Walk ι → SearchPlace → Comparisons ι
  | .var _ type, p => type.compared b p
  | .derived n d base, p =>
    if (DINode.derivedType d).isNonStaticMember then
      if d.covers p.offsetBase b then
        if base.stops then ⟨[⟨n, d, p.offsetBase⟩], false, { p with stopped := true }⟩
        else
          let r := base.compared b { p with
            offsetBase :=
              if base.isComposite then p.offsetBase + d.offsetInBits / 8 else p.offsetBase }
          { r with members := ⟨n, d, p.offsetBase⟩ :: r.members }
      else
        let r := base.compared b p
        { r with members := ⟨n, d, p.offsetBase⟩ :: r.members }
    else base.compared b p
  | .array _ _ elements base, p =>
    if p.stopped then ⟨[], false, p⟩
    else
      let (xs, p) := comparedElements b elements p
      let r := base.compared b p
      { r with members := xs ++ r.members }
  | .composite _ _ base elements, p =>
    if p.stopped then ⟨[], false, p⟩
    else
      let r := base.compared b p
      if r.goesOn then
        let (xs, p) := comparedElements b elements r.place
        ⟨r.members ++ xs, true, p⟩
      else r
  | .skip _, p => ⟨[], false, p⟩
  | .null, p | .basic _ _, p | .string _ _, p | .node _ _, p | .recurring _ _, p => ⟨[], true, p⟩

def comparedElements (b : UInt64) : List (Walk ι) → SearchPlace → List (Comparison ι) × SearchPlace
  | [], p => ([], p)
  | w :: ws, p =>
    let r := w.compared b p
    let (xs, p) := comparedElements b ws r.place
    (r.members ++ xs, p)
end

namespace DestructureComposite

variable {G : DIGraph ι} {b : UInt64}

/-- The state after the comparisons `xs`, with the search at the place `p`. -/
def after (b : UInt64) (s : DestructureComposite ι) (xs : List (Comparison ι)) (p : SearchPlace) :
    DestructureComposite ι :=
  { s with
      offsetBase := p.offsetBase
      outermostCandidate := (Comparison.last b xs).or s.outermostCandidate
      terminate := p.stopped }

@[simp] lemma after_place (s : DestructureComposite ι) (xs : List (Comparison ι))
    (p : SearchPlace) : (s.after b xs p).place = p := rfl

@[simp] lemma after_nil (s : DestructureComposite ι) : s.after b [] s.place = s := rfl

@[simp] lemma after_after (s : DestructureComposite ι) (xs ys : List (Comparison ι))
    (p q : SearchPlace) : (s.after b xs p).after b ys q = s.after b (xs ++ ys) q := by
  simp [after, Comparison.last_append, Option.or_assoc]

/-- A member that does not contain the byte leaves the state as it is. -/
lemma after_cons_of_not_covers {s : DestructureComposite ι} {x : Comparison ι}
    (hx : x.contains b = false) (xs : List (Comparison ι)) (p : SearchPlace) :
    s.after b (x :: xs) p = s.after b xs p := by
  simp [after, Comparison.last_cons, Comparison.candidate, hx]

/-- The state in which a member that contains the byte is left. -/
lemma visitDerivedType_eq_after {n t : ι} {d : DIDerivedType ι} {base : Walk ι}
    (hreads : (Walk.derived n d base).Reads G) (ht : d.baseType = some t)
    {s : DestructureComposite ι} (hd : (DINode.derivedType d).isNonStaticMember = true)
    (hcovers : d.covers s.offsetBase b = true) :
    visitDerivedType G b n d s = (!base.stops, s.after b [⟨n, d, s.offsetBase⟩]
      (if base.stops then { s.place with stopped := true }
        else { s.place with
          offsetBase :=
            if base.isComposite then s.offsetBase + d.offsetInBits / 8 else s.offsetBase })) := by
  obtain ⟨hstops, hcomposite⟩ := hreads.1 t ht
  have hcandidate : Comparison.last b [⟨n, d, s.offsetBase⟩] = some ⟨n, t⟩ := by
    simp [Comparison.last, Comparison.candidate, Comparison.contains, hcovers, ht]
  rw [visitDerivedType_of_covers hd hcovers ht, hstops, hcomposite, enter, after, hcandidate]
  cases base.stops with
  | true => simp [place]
  | false => simp [place]

mutual
/-- A run does what the comparisons say. -/
lemma run_compared (w : Walk ι) (hreads : w.Reads G) (s : DestructureComposite ι) :
    (visitor G b).run w s = ((w.compared b s.place).goesOn,
      s.after b (w.compared b s.place).members (w.compared b s.place).place) := by
  have hsearch : visitor G b = search (·.terminate) (visitDerivedType G b) := rfl
  match w with
  | .null | .basic _ _ | .string _ _ | .node _ _ | .recurring _ _ | .skip _ => rfl
  | .var n type =>
    rw [hsearch, search_var, ← hsearch]
    exact run_compared type hreads.2 s
  | .derived n d base =>
    rw [hsearch, search_derived, ← hsearch, Walk.compared]
    cases hd : (DINode.derivedType d).isNonStaticMember with
    | false =>
      have hvisit : visitDerivedType G b n d s = (true, s) := by simp [visitDerivedType, hd]
      rw [hvisit, if_pos rfl, if_neg (by decide)]
      exact run_compared base hreads.2.2.2 s
    | true =>
      -- a member is compared, and below it the search goes on unless it stops there
      rw [if_pos rfl]
      cases hcovers : d.covers s.offsetBase b with
      | false =>
        have hvisit : visitDerivedType G b n d s = (true, s) := by
          simp [visitDerivedType, hd, hcovers]
        have hplace : ¬ d.covers s.place.offsetBase b = true := by
          simpa [place] using hcovers
        rw [hvisit, if_pos rfl, if_neg hplace, run_compared base hreads.2.2.2 s]
        simp only [after_cons_of_not_covers (x := ⟨n, d, s.offsetBase⟩) hcovers, place]
      | true =>
        obtain ⟨t, ht⟩ := Option.ne_none_iff_exists'.mp (hreads.2.1 hd)
        have hplace : d.covers s.place.offsetBase b = true := hcovers
        rw [visitDerivedType_eq_after hreads ht hd hcovers, if_pos hplace]
        cases base.stops with
        | true => rfl
        | false =>
          simp only [Bool.not_false, Bool.false_eq_true, if_true, if_false,
            run_compared base hreads.2.2.2, after_after, after_place]
          rfl
  | .array n c elements base =>
    rw [hsearch, search_array, ← hsearch, Walk.compared]
    by_cases hstopped : s.terminate = true
    · have hplace : s.place.stopped = true := hstopped
      rw [if_pos hstopped, if_pos hplace]
      rfl
    · have hplace : ¬ s.place.stopped = true := hstopped
      rw [if_neg hstopped, if_neg hplace, runElements_compared elements hreads.1,
        run_compared base hreads.2.2, after_after]
      rfl
  | .composite n c base elements =>
    rw [hsearch, search_composite, ← hsearch, Walk.compared]
    by_cases hstopped : s.terminate = true
    · have hplace : s.place.stopped = true := hstopped
      rw [if_pos hstopped, if_pos hplace]
      rfl
    · have hplace : ¬ s.place.stopped = true := hstopped
      rw [if_neg hstopped, if_neg hplace, run_compared base hreads.1.2]
      by_cases hret : (base.compared b s.place).goesOn = true
      · rw [if_pos hret, if_pos hret, runElements_compared elements hreads.2, after_after]
        rfl
      · rw [if_neg hret, if_neg hret]
        simp [hret]

lemma runElements_compared (ws : List (Walk ι)) (hreads : ReadsElements G ws)
    (s : DestructureComposite ι) :
    (visitor G b).runElements ws s =
      s.after b (comparedElements b ws s.place).1 (comparedElements b ws s.place).2 := by
  match ws with
  | [] => rfl
  | w :: ws =>
    rw [DINodeVisitor.runElements, run_compared w hreads.1, runElements_compared ws hreads.2,
      after_after]
    rfl
end

end DestructureComposite

mutual
/-- What is compared are the members on the walk. -/
lemma Walk.mem_members_of_compared (b : UInt64) (w : Walk ι) (p : SearchPlace) {x : Comparison ι}
    (h : x ∈ (w.compared b p).members) : (x.member, x.derivedType) ∈ w.members := by
  match w with
  | .null | .basic _ _ | .string _ _ | .node _ _ | .recurring _ _ | .skip _ => cases h
  | .var _ type => exact type.mem_members_of_compared b p h
  | .derived n d base =>
    rw [Walk.compared] at h
    rw [Walk.members]
    cases hd : (DINode.derivedType d).isNonStaticMember with
    | false =>
      rw [hd, if_neg (by decide)] at h
      exact List.mem_append_right _ (base.mem_members_of_compared b p h)
    | true =>
      rw [hd, if_pos rfl] at h
      split at h
      · split at h
        · simp_all
        · rcases List.mem_cons.mp h with rfl | h
          · simp
          · exact List.mem_append_right _ (base.mem_members_of_compared b _ h)
      · rcases List.mem_cons.mp h with rfl | h
        · simp
        · exact List.mem_append_right _ (base.mem_members_of_compared b _ h)
  | .array _ _ elements base =>
    rw [Walk.compared] at h
    split at h
    · cases h
    · rcases List.mem_append.mp h with h | h
      · exact List.mem_append_left _ (mem_membersOf_of_compared b elements p h)
      · exact List.mem_append_right _ (base.mem_members_of_compared b _ h)
  | .composite _ _ base elements =>
    simp only [Walk.compared] at h
    split at h
    · cases h
    · split at h
      · rcases List.mem_append.mp h with h | h
        · exact List.mem_append_left _ (base.mem_members_of_compared b p h)
        · exact List.mem_append_right _ (mem_membersOf_of_compared b elements _ h)
      · exact List.mem_append_left _ (base.mem_members_of_compared b p h)

lemma mem_membersOf_of_compared (b : UInt64) (ws : List (Walk ι)) (p : SearchPlace)
    {x : Comparison ι} (h : x ∈ (comparedElements b ws p).1) :
    (x.member, x.derivedType) ∈ membersOf ws := by
  match ws with
  | [] => cases h
  | w :: ws =>
    rcases List.mem_append.mp h with h | h
    · exact List.mem_append_left _ (w.mem_members_of_compared b p h)
    · exact List.mem_append_right _ (mem_membersOf_of_compared b ws _ h)
end

section OfWalk

variable [DecidableEq ι]

/-- The visitor is left in the state behind all comparisons. -/
lemma DestructureComposite.traverse_of_compared {G : DIGraph ι} {n : ι} {c : DICompositeType ι}
    {fuel : ℕ} {w : Walk ι} (hn : G.node n = .compositeType c)
    (hw : G.walk (fuel + 1) ∅ n = some w) (hreads : w.Reads G) (b : UInt64) :
    DestructureComposite.traverse G fuel n c b =
      some (after b {} (w.compared b {}).members (w.compared b {}).place) := by
  have hrun := DINodeVisitor.invokeIfAny_eq_run (visitor G b) hw ({} : DestructureComposite ι)
  simp only [DINodeVisitor.invokeIfAny, hn] at hrun
  rw [DestructureComposite.traverse, hrun, run_compared w hreads]
  rfl

end OfWalk

/-! ### Comparisons with byte 0 -/

lemma DIDerivedType.offset_of_covers_zero {d : DIDerivedType ι} (h : d.covers 0 0 = true) :
    d.offsetInBits / 8 = 0 := by
  simp only [covers, Bool.and_eq_true, decide_eq_true_eq] at h
  rw [UInt64.zero_add, UInt64.le_iff_toNat_le] at h
  exact UInt64.toNat_inj.mp (Nat.le_zero.mp h.1)

mutual
/-- A member that contains byte 0 begins at the offset base, which stays 0. -/
lemma Walk.offsetBase_compared (w : Walk ι) {p : SearchPlace} (hp : p.offsetBase = 0) :
    (∀ x ∈ (w.compared 0 p).members, x.offsetBase = 0) ∧
      (w.compared 0 p).place.offsetBase = 0 := by
  match w with
  | .null | .basic _ _ | .string _ _ | .node _ _ | .recurring _ _ | .skip _ =>
    exact ⟨by simp [Walk.compared], hp⟩
  | .var _ type => exact type.offsetBase_compared hp
  | .derived n d base =>
    rw [Walk.compared]
    split
    · split
      · next hcovers =>
        rw [hp] at hcovers
        split
        · simp [hp]
        · simp only [hp, d.offset_of_covers_zero hcovers, UInt64.add_zero, ite_self]
          obtain ⟨hmembers, hplace⟩ := base.offsetBase_compared (p := ⟨0, p.stopped⟩) rfl
          exact ⟨by simpa using hmembers, hplace⟩
      · obtain ⟨hmembers, hplace⟩ := base.offsetBase_compared hp
        exact ⟨by simpa [hp] using hmembers, hplace⟩
    · exact base.offsetBase_compared hp
  | .array _ _ elements base =>
    rw [Walk.compared]
    split
    · exact ⟨by simp, hp⟩
    · obtain ⟨helements, hplace⟩ := offsetBase_comparedElements elements hp
      obtain ⟨hbase, hplace'⟩ := base.offsetBase_compared hplace
      refine ⟨fun x hx => ?_, hplace'⟩
      rcases List.mem_append.mp hx with hx | hx
      · exact helements x hx
      · exact hbase x hx
  | .composite _ _ base elements =>
    obtain ⟨hbase, hplace⟩ := base.offsetBase_compared hp
    obtain ⟨helements, hplace'⟩ := offsetBase_comparedElements elements hplace
    simp only [Walk.compared]
    split
    · exact ⟨by simp, hp⟩
    · split
      · refine ⟨fun x hx => ?_, hplace'⟩
        rcases List.mem_append.mp hx with hx | hx
        · exact hbase x hx
        · exact helements x hx
      · exact ⟨hbase, hplace⟩

lemma offsetBase_comparedElements (ws : List (Walk ι)) {p : SearchPlace}
    (hp : p.offsetBase = 0) :
    (∀ x ∈ (comparedElements 0 ws p).1, x.offsetBase = 0) ∧
      (comparedElements 0 ws p).2.offsetBase = 0 := by
  match ws with
  | [] => exact ⟨by simp [comparedElements], hp⟩
  | w :: ws =>
    obtain ⟨hw, hplace⟩ := w.offsetBase_compared hp
    obtain ⟨hws, hplace'⟩ := offsetBase_comparedElements ws hplace
    refine ⟨fun x hx => ?_, hplace'⟩
    rcases List.mem_append.mp hx with hx | hx
    · exact hw x hx
    · exact hws x hx
end

end Dimeta
