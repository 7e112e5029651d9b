import Mathlib.Tactic.FinCases
import Dimeta.DI.Search

/-!
# Resolving a byte offset

The visitor that resolves a byte offset keeps one offset base for the whole walk. On a laid-out
record it saves the members that contain the byte, from the outermost to the innermost, and no
others, exactly if no stray member, off the way to the innermost one, happens to contain the byte
for the base then in force.
-/

set_option autoImplicit false

namespace Dimeta

variable {ι : Type}

/-! ### Offsets as numbers -/

lemma UInt64.toNat_div_eight_lt (x : UInt64) : (x / 8).toNat < 2 ^ 61 := by
  have := x.toNat_lt
  rw [UInt64.toNat_div]
  change _ / 8 < _
  omega

lemma DIDerivedType.toNat_add_byteOffset (d : DIDerivedType ι) {base : UInt64}
    (h : base.toNat < 2 ^ 62) :
    (base + d.offsetInBits / 8).toNat = base.toNat + d.byteOffset := by
  have hoffset : d.byteOffset < 2 ^ 61 := UInt64.toNat_div_eight_lt _
  rw [UInt64.toNat_add, Nat.mod_eq_of_lt]
  · rfl
  · change base.toNat + d.byteOffset < _
    omega

/-- Below the end of the address space, comparing machine offsets is comparing numbers. -/
lemma DIDerivedType.covers_eq_contains (d : DIDerivedType ι) {base b : UInt64}
    (h : base.toNat < 2 ^ 62) : d.covers base b = d.contains base.toNat b.toNat := by
  have hoffset : d.byteOffset < 2 ^ 61 := UInt64.toNat_div_eight_lt _
  have hsize : d.byteSize < 2 ^ 61 := UInt64.toNat_div_eight_lt _
  have hlower := d.toNat_add_byteOffset h
  have hupper : (base + d.offsetInBits / 8 + d.sizeInBits / 8).toNat =
      base.toNat + d.byteOffset + d.byteSize := by
    rw [UInt64.toNat_add, hlower, Nat.mod_eq_of_lt]
    · rfl
    · change base.toNat + d.byteOffset + d.byteSize < _
      omega
  simp only [covers, contains, UInt64.le_iff_toNat_le, UInt64.lt_iff_toNat_lt, hlower, hupper]

namespace DestructureComposite

/-! ### Searches -/

section Search

variable {σ : Type*} {stopped : σ → Bool} {visit : ι → DIDerivedType ι → σ → Bool × σ}

/-- A visitor of derived types that enters no composite once it has stopped. -/
def search (stopped : σ → Bool) (visit : ι → DIDerivedType ι → σ → Bool × σ) :
    DINodeVisitor ι σ where
  visitCompositeType _ _ s := (!stopped s, s)
  visitDerivedType := visit

lemma search_runType (w : Walk ι) (s : σ) :
    (search stopped visit).runType w.root ((search stopped visit).run w) s =
      (search stopped visit).run w s := by
  cases w <;> rfl

lemma search_var (n : ι) (type : Walk ι) (s : σ) :
    (search stopped visit).run (.var n type) s = (search stopped visit).run type s :=
  search_runType type s

lemma search_derived (n : ι) (d : DIDerivedType ι) (base : Walk ι) (s : σ) :
    (search stopped visit).run (.derived n d base) s =
      if (visit n d s).1 then (search stopped visit).run base (visit n d s).2
      else (false, (visit n d s).2) := by
  have hvisit : (search stopped visit).visitDerivedType n d s = visit n d s := rfl
  have hleave : ∀ s, (search stopped visit).leaveDerivedType n d s = s := fun _ => rfl
  simp only [DINodeVisitor.run, hvisit, hleave, search_runType]
  obtain ⟨ret, s⟩ := visit n d s
  cases ret <;> rfl

lemma search_composite (n : ι) (c : DICompositeType ι) (base : Walk ι) (elements : List (Walk ι))
    (s : σ) :
    (search stopped visit).run (.composite n c base elements) s =
      if stopped s then (false, s)
      else if ((search stopped visit).run base s).1 then
        (true, (search stopped visit).runElements elements ((search stopped visit).run base s).2)
      else (false, ((search stopped visit).run base s).2) := by
  have hvisit : (search stopped visit).visitCompositeType n c s = (!stopped s, s) := rfl
  have hleave : ∀ s, (search stopped visit).leaveCompositeType n c s = s := fun _ => rfl
  simp only [DINodeVisitor.run, hvisit, hleave]
  cases stopped s with
  | true => rfl
  | false =>
    simp only [Bool.not_false, Bool.false_eq_true, if_false, search_runType]
    obtain ⟨ret, s⟩ := (search stopped visit).run base s
    cases ret <;> rfl

lemma search_array (n : ι) (c : DICompositeType ι) (elements : List (Walk ι)) (base : Walk ι)
    (s : σ) :
    (search stopped visit).run (.array n c elements base) s =
      if stopped s then (false, s)
      else (search stopped visit).run base ((search stopped visit).runElements elements s) := by
  have hvisit : (search stopped visit).visitCompositeType n c s = (!stopped s, s) := rfl
  have hleave : ∀ s, (search stopped visit).leaveCompositeType n c s = s := fun _ => rfl
  simp only [DINodeVisitor.run, hvisit, hleave]
  cases stopped s with
  | true => rfl
  | false => exact search_runType base _

end Search

/-! ### The members that are saved -/

/-- The visitor, with every member that it saves recorded in order. -/
def logged (G : DIGraph ι) (b : UInt64) :
    DINodeVisitor ι (DestructureComposite ι × List (StructMember ι)) where
  visitCompositeType _ _ s := (!s.1.terminate, s)
  visitDerivedType n d s :=
    let (ret, s') := visitDerivedType G b n d s.1
    (ret, s', if (DINode.derivedType d).isNonStaticMember && d.covers s.1.offsetBase b then
      s.2 ++ (d.baseType.map fun t => ⟨n, t⟩).toList else s.2)

variable {G : DIGraph ι} {b : UInt64}

/-- Recording the members changes nothing else. -/
lemma commutes_logged : DINodeVisitor.Commutes Prod.fst (logged G b) (visitor G b) where
  visitType _ _ := rfl
  visitNode _ _ _ := rfl
  leaveNode _ _ _ := rfl
  visitVariable _ _ := rfl
  leaveVariable _ _ := rfl
  visitBasicType _ _ _ := rfl
  leaveBasicType _ _ _ := rfl
  visitStringType _ _ _ := rfl
  leaveStringType _ _ _ := rfl
  visitDerivedType _ _ _ := rfl
  leaveDerivedType _ _ _ := rfl
  visitCompositeType _ _ _ := rfl
  leaveCompositeType _ _ _ := rfl
  visitRecurringCompositeType _ _ _ := rfl
  leaveRecurringCompositeType _ _ _ := rfl

lemma logged_eq_search (G : DIGraph ι) (b : UInt64) :
    logged G b = search (·.1.terminate) (logged G b).visitDerivedType := rfl

/-- Derived types that are no members, or do not contain the byte, are passed. -/
lemma run_derived_of_not_covers {n : ι} {d : DIDerivedType ι} {base : Walk ι}
    {s : DestructureComposite ι × List (StructMember ι)}
    (h : (DINode.derivedType d).isNonStaticMember = true → d.covers s.1.offsetBase b = false) :
    (logged G b).run (.derived n d base) s = (logged G b).run base s := by
  have hvisit : (logged G b).visitDerivedType n d s = (true, s) := by
    simp only [logged, visitDerivedType]
    cases hd : (DINode.derivedType d).isNonStaticMember with
    | false => rfl
    | true => simp [h hd]
  rw [logged_eq_search, search_derived, ← logged_eq_search, hvisit, if_pos rfl]

/-- The state in which the type of a saved member is visited. -/
def save (n t : ι) (d : DIDerivedType ι) (composite : Bool)
    (s : DestructureComposite ι × List (StructMember ι)) :
    DestructureComposite ι × List (StructMember ι) :=
  ({ s.1 with
      outermostCandidate := some ⟨n, t⟩
      offsetBase := if composite then s.1.offsetBase + d.offsetInBits / 8 else s.1.offsetBase },
    s.2 ++ [⟨n, t⟩])

/-- The state after a member that stops the search is saved. -/
def stopAt (n t : ι) (s : DestructureComposite ι × List (StructMember ι)) :
    DestructureComposite ι × List (StructMember ι) :=
  ({ s.1 with outermostCandidate := some ⟨n, t⟩, terminate := true }, s.2 ++ [⟨n, t⟩])

/-- A member that contains the byte is saved. -/
lemma run_derived_of_covers {n t : ι} {d : DIDerivedType ι} {base : Walk ι}
    {s : DestructureComposite ι × List (StructMember ι)}
    (hreads : (Walk.derived n d base).Reads G)
    (hd : (DINode.derivedType d).isNonStaticMember = true) (ht : d.baseType = some t)
    (h : d.covers s.1.offsetBase b = true) :
    (logged G b).run (.derived n d base) s =
      if base.stops then (false, stopAt n t s)
      else (logged G b).run base (save n t d base.isComposite s) := by
  obtain ⟨hstops, hcomposite⟩ := hreads.1 t ht
  have hvisit : (logged G b).visitDerivedType n d s = if base.stops then (false, stopAt n t s)
      else (true, save n t d base.isComposite s) := by
    simp only [logged, visitDerivedType, hd, h, ht, hstops, hcomposite, save, stopAt]
    cases base.stops with
    | true => rfl
    | false => cases base.isComposite <;> rfl
  rw [logged_eq_search, search_derived, ← logged_eq_search, hvisit]
  cases base.stops <;> rfl

lemma run_var (n : ι) (type : Walk ι) (s : DestructureComposite ι × List (StructMember ι)) :
    (logged G b).run (.var n type) s = (logged G b).run type s := by
  rw [logged_eq_search, search_var]

lemma run_composite (n : ι) (c : DICompositeType ι) (base : Walk ι) (elements : List (Walk ι))
    (s : DestructureComposite ι × List (StructMember ι)) :
    (logged G b).run (.composite n c base elements) s =
      if s.1.terminate then (false, s)
      else match (logged G b).run base s with
        | (false, s) => (false, s)
        | (true, s)  => (true, (logged G b).runElements elements s) := by
  rw [logged_eq_search, search_composite, ← logged_eq_search]
  split
  · rfl
  · obtain ⟨ret, s⟩ := (logged G b).run base s
    cases ret <;> rfl

lemma run_array (n : ι) (c : DICompositeType ι) (elements : List (Walk ι)) (base : Walk ι)
    (s : DestructureComposite ι × List (StructMember ι)) :
    (logged G b).run (.array n c elements base) s =
      if s.1.terminate then (false, s)
      else (logged G b).run base ((logged G b).runElements elements s) := by
  rw [logged_eq_search, search_array]

/-! ### Members that are passed -/

mutual
/-- Where no member contains the byte, nothing changes, and the visit goes on behind types. -/
lemma run_of_quiet (w : Walk ι) {s : DestructureComposite ι × List (StructMember ι)}
    (hs : s.1.offsetBase.toNat < 2 ^ 62) (h : w.quiet b.toNat s.1.offsetBase.toNat = true) :
    ((logged G b).run w s).2 = s := by
  match w with
  | .null | .basic _ _ | .string _ _ | .node _ _ | .recurring _ _ | .skip _ => rfl
  | .var n type =>
    rw [logged_eq_search, search_var]
    exact run_of_quiet type hs h
  | .derived n d base =>
    simp only [Walk.quiet, Walk.members, List.all_append, Bool.and_eq_true] at h
    rw [run_derived_of_not_covers]
    · exact run_of_quiet base hs h.2
    · intro hd
      rw [d.covers_eq_contains hs]
      simpa [hd] using h.1
  | .array n c elements base =>
    simp only [Walk.quiet, Walk.members, List.all_append, Bool.and_eq_true] at h
    rw [run_array]
    split
    · rfl
    · rw [runElements_of_quiet elements hs h.1]
      exact run_of_quiet base hs h.2
  | .composite n c base elements =>
    simp only [Walk.quiet, Walk.members, List.all_append, Bool.and_eq_true] at h
    have hbase := run_of_quiet base hs h.1
    rw [run_composite]
    split
    · rfl
    · cases hrun : (logged G b).run base s with
      | mk ret s' =>
        rw [hrun] at hbase
        obtain rfl : s' = s := hbase
        cases ret with
        | false => rfl
        | true => exact runElements_of_quiet elements hs h.2

lemma runElements_of_quiet (ws : List (Walk ι))
    {s : DestructureComposite ι × List (StructMember ι)} (hs : s.1.offsetBase.toNat < 2 ^ 62)
    (h : (membersOf ws).all (fun m => !m.2.contains s.1.offsetBase.toNat b.toNat) = true) :
    (logged G b).runElements ws s = s := by
  match ws with
  | [] => rfl
  | w :: ws =>
    simp only [membersOf, List.all_append, Bool.and_eq_true] at h
    rw [DINodeVisitor.runElements, run_of_quiet w hs h.1]
    exact runElements_of_quiet ws hs h.2
end

/-- After the search has stopped, no composite is entered any more. -/
lemma run_of_terminate (w : Walk ι) (hreads : w.Reads G) (htype : w.isTypeWalk = true)
    {s : DestructureComposite ι × List (StructMember ι)} (hs : s.1.terminate = true) :
    ((logged G b).run w s).2 = s := by
  match w with
  | .null | .basic _ _ | .string _ _ | .node _ _ | .recurring _ _ => rfl
  | .derived n d base =>
    rw [run_derived_of_not_covers]
    · exact run_of_terminate base hreads.2.2.2 hreads.2.2.1 hs
    · intro hd
      simp [Walk.isTypeWalk, hd] at htype
  | .var _ _ | .skip _ => cases htype
  | .array n c elements base => rw [run_array, if_pos hs]
  | .composite n c base elements => rw [run_composite, if_pos hs]

/-- Fields that begin behind the byte are passed as well. -/
lemma runElements_of_terminate {ws : List (Walk ι)} {lo hi : ℕ} (hfields : FieldsOk lo hi ws)
    (hreads : ReadsElements G ws) {s : DestructureComposite ι × List (StructMember ι)}
    (hs : s.1.terminate = true) (hbase : s.1.offsetBase.toNat < 2 ^ 62)
    (hlo : b.toNat < s.1.offsetBase.toNat + lo) : (logged G b).runElements ws s = s := by
  induction ws generalizing lo with
  | nil => rfl
  | cons w ws ih =>
    match w with
    | .null | .basic _ _ | .string _ _ | .node _ _ | .recurring _ _ | .var _ _ | .array _ _ _ _
    | .composite _ _ _ _ => exact hfields.1.elim
    | .skip n =>
      rw [DINodeVisitor.runElements]
      exact ih hfields.2 hreads.2 hlo
    | .derived n d type =>
      obtain ⟨⟨hd, hle, hhi, htype⟩, hfields⟩ := hfields
      obtain ⟨hreads, hreadsElements⟩ := hreads
      have hrun : ((logged G b).run (.derived n d type) s).2 = s := by
        rw [run_derived_of_not_covers]
        · exact run_of_terminate type hreads.2.2.2 hreads.2.2.1 hs
        · intro _
          rw [d.covers_eq_contains hbase, DIDerivedType.contains, Bool.and_eq_false_iff]
          left
          rw [decide_eq_false_iff_not]
          omega
      rw [DINodeVisitor.runElements, hrun]
      refine ih hfields hreadsElements ?_
      rw [Walk.fieldEnd]
      omega

/-! ### The way is saved -/

/-- The state `s'` is where the search `r` gets from the state `s`. -/
structure Reaches (s s' : DestructureComposite ι × List (StructMember ι)) (r : LayoutSearch ι) :
    Prop where
  base : s'.1.offsetBase.toNat = r.base
  terminate : s'.1.terminate = r.stopped
  candidate : s'.1.outermostCandidate = r.way.getLast?.or s.1.outermostCandidate
  saved : s'.2 = s.2 ++ r.way

/-- What is behind a member that contains the byte is passed: the search has stopped, or nothing
there contains the byte for the base it has left. -/
lemma runElements_after {ws : List (Walk ι)} {lo hi : ℕ} (hfields : FieldsOk lo hi ws)
    (hreads : ReadsElements G ws) {s : DestructureComposite ι × List (StructMember ι)} {last : ℕ}
    {stopped : Bool} (hbase : s.1.offsetBase.toNat = last) (hs : s.1.terminate = stopped)
    (hlast : last < 2 ^ 62) (hlo : b.toNat < last + lo)
    (hafter : (stopped || ws.all (Walk.quiet b.toNat last)) = true) :
    (logged G b).runElements ws s = s := by
  cases stopped with
  | true => exact runElements_of_terminate hfields hreads hs (by omega) (by omega)
  | false =>
    refine runElements_of_quiet ws (by omega) ?_
    rw [hbase, all_quiet]
    simpa using hafter

/-- A member that contains the byte and stops the search. -/
lemma reaches_stop {n : ι} {d : DIDerivedType ι} {type : Walk ι} {ws : List (Walk ι)} {hi : ℕ}
    (hreads : (Walk.derived n d type).Reads G) (hreadsElements : ReadsElements G ws)
    (hd : d.isField = true) (hfields : FieldsOk (d.byteOffset + d.byteSize) hi ws)
    {s : DestructureComposite ι × List (StructMember ι)}
    (hsize : s.1.offsetBase.toNat < 2 ^ 62)
    (hcontains : d.contains s.1.offsetBase.toNat b.toNat = true) (hstops : type.stops = true) :
    Reaches s ((logged G b).runElements ws ((logged G b).run (.derived n d type) s).2)
      { way := (d.baseType.map fun t => ⟨n, t⟩).toList, base := s.1.offsetBase.toNat,
        stopped := true } := by
  have hmember := DIDerivedType.isNonStaticMember_of_isField hd
  obtain ⟨t, ht⟩ := Option.ne_none_iff_exists'.mp (hreads.2.1 hmember)
  have hlt : b.toNat < s.1.offsetBase.toNat + d.byteOffset + d.byteSize := by
    simp only [DIDerivedType.contains, Bool.and_eq_true, decide_eq_true_eq] at hcontains
    exact hcontains.2
  rw [run_derived_of_covers hreads hmember ht (by rw [d.covers_eq_contains hsize, hcontains]),
    if_pos hstops, runElements_after (s := stopAt n t s) hfields hreadsElements rfl rfl hsize
      (by dsimp only [stopAt]; omega) rfl, ht]
  exact ⟨rfl, rfl, rfl, rfl⟩

/-- A member that contains the byte and whose type is a composite. -/
lemma reaches_inside {n : ι} {d : DIDerivedType ι} {type : Walk ι} {ws : List (Walk ι)} {hi : ℕ}
    (hreads : (Walk.derived n d type).Reads G) (hreadsElements : ReadsElements G ws)
    (hd : d.isField = true) (hfields : FieldsOk (d.byteOffset + d.byteSize) hi ws)
    (hhi : d.byteOffset + d.byteSize ≤ hi) (htype : type.FieldType d.byteSize)
    {s : DestructureComposite ι × List (StructMember ι)}
    (hsize : s.1.offsetBase.toNat + hi ≤ 2 ^ 61)
    (hcontains : d.contains s.1.offsetBase.toNat b.toNat = true) (hstops : type.stops = false)
    (hcomposite : type.isComposite = true)
    (hinner : ∀ t, Reaches (save n t d true s) ((logged G b).run type (save n t d true s)).2
      (type.search b.toNat (s.1.offsetBase.toNat + d.byteOffset)))
    (hafter : ((type.search b.toNat (s.1.offsetBase.toNat + d.byteOffset)).stopped ||
      ws.all (Walk.quiet b.toNat
        (type.search b.toNat (s.1.offsetBase.toNat + d.byteOffset)).base)) = true) :
    Reaches s ((logged G b).runElements ws ((logged G b).run (.derived n d type) s).2)
      { type.search b.toNat (s.1.offsetBase.toNat + d.byteOffset) with
        way := (d.baseType.map fun t => ⟨n, t⟩).toList ++
          (type.search b.toNat (s.1.offsetBase.toNat + d.byteOffset)).way } := by
  have hmember := DIDerivedType.isNonStaticMember_of_isField hd
  obtain ⟨t, ht⟩ := Option.ne_none_iff_exists'.mp (hreads.2.1 hmember)
  have hlt : b.toNat < s.1.offsetBase.toNat + d.byteOffset + d.byteSize := by
    simp only [DIDerivedType.contains, Bool.and_eq_true, decide_eq_true_eq] at hcontains
    exact hcontains.2
  have hle := type.search_base b.toNat (s.1.offsetBase.toNat + d.byteOffset) htype
  rw [run_derived_of_covers hreads hmember ht
    (by rw [d.covers_eq_contains (by omega), hcontains]), if_neg (by simp [hstops]), hcomposite,
    runElements_after hfields hreadsElements (hinner t).base (hinner t).terminate (by omega)
      (by omega) hafter, ht]
  refine ⟨(hinner t).base, (hinner t).terminate, ?_, ?_⟩
  · rw [(hinner t).candidate, List.getLast?_append]
    simp [save]
  · rw [(hinner t).saved, save, List.append_assoc]
    rfl

/-- A member that contains the byte and has a scalar type. -/
lemma reaches_scalar {n : ι} {d : DIDerivedType ι} {type : Walk ι} {ws : List (Walk ι)} {hi : ℕ}
    (hreads : (Walk.derived n d type).Reads G) (hreadsElements : ReadsElements G ws)
    (hd : d.isField = true) (hfields : FieldsOk (d.byteOffset + d.byteSize) hi ws)
    {s : DestructureComposite ι × List (StructMember ι)} (hs : s.1.terminate = false)
    (hsize : s.1.offsetBase.toNat < 2 ^ 62)
    (hcontains : d.contains s.1.offsetBase.toNat b.toNat = true) (hstops : type.stops = false)
    (hcomposite : type.isComposite = false)
    (hquiet : type.quiet b.toNat s.1.offsetBase.toNat = true)
    (hafter : ws.all (Walk.quiet b.toNat s.1.offsetBase.toNat) = true) :
    Reaches s ((logged G b).runElements ws ((logged G b).run (.derived n d type) s).2)
      { way := (d.baseType.map fun t => ⟨n, t⟩).toList, base := s.1.offsetBase.toNat } := by
  have hmember := DIDerivedType.isNonStaticMember_of_isField hd
  obtain ⟨t, ht⟩ := Option.ne_none_iff_exists'.mp (hreads.2.1 hmember)
  have hlt : b.toNat < s.1.offsetBase.toNat + d.byteOffset + d.byteSize := by
    simp only [DIDerivedType.contains, Bool.and_eq_true, decide_eq_true_eq] at hcontains
    exact hcontains.2
  have hbase : (save n t d false s).1.offsetBase.toNat = s.1.offsetBase.toNat := rfl
  rw [run_derived_of_covers hreads hmember ht (by rw [d.covers_eq_contains hsize, hcontains]),
    if_neg (by simp [hstops]), hcomposite, run_of_quiet type (by omega) (by rw [hbase]; exact hquiet),
    runElements_after hfields hreadsElements hbase hs hsize (by omega) (by simpa using hafter), ht]
  exact ⟨rfl, hs, rfl, rfl⟩

mutual
/-- The visitor does what the search does, if no stray member is saved. -/
lemma run_search (w : Walk ι) (hreads : w.Reads G) {size : ℕ} (htype : w.FieldType size)
    (hcomposite : w.isComposite = true) {s : DestructureComposite ι × List (StructMember ι)}
    (hs : s.1.terminate = false) {B : ℕ} (hB : s.1.offsetBase.toNat = B)
    (hsize : B + size ≤ 2 ^ 61) (hbefore : w.quietBefore b.toNat B = true)
    (hafter : ((w.search b.toNat B).stopped ||
      w.quietAfter b.toNat B (w.search b.toNat B).base) = true) :
    Reaches s ((logged G b).run w s).2 (w.search b.toNat B) := by
  match w with
  | .basic _ _ | .string _ _ | .derived _ _ _ => cases hcomposite
  | .null | .node _ _ | .recurring _ _ | .skip _ | .var _ _ | .array _ _ _ _ => exact htype.elim
  | .composite n c base elements =>
    rcases htype with ⟨-, hle, rfl, hfields, -⟩ | ⟨-, hbase, hmembers⟩
    · simp only [Walk.quietBefore, Bool.and_eq_true] at hbefore
      rw [run_composite, hs, if_neg (by decide)]
      exact runElements_search elements hreads.2 hfields hs hB (by omega) hbefore.2 hafter
    · rw [run_of_quiet _ (by omega)
        (by rw [Walk.quiet, Walk.members, hbase, hmembers]; rfl), Walk.search,
        searchElements_of_membersOf hmembers]
      exact ⟨hB, hs, rfl, by simp⟩

lemma runElements_search (ws : List (Walk ι)) (hreads : ReadsElements G ws) {lo hi : ℕ}
    (hfields : FieldsOk lo hi ws) {s : DestructureComposite ι × List (StructMember ι)}
    (hs : s.1.terminate = false) {B : ℕ} (hB : s.1.offsetBase.toNat = B) (hsize : B + hi ≤ 2 ^ 61)
    (hbefore : quietBeforeElements b.toNat B ws = true)
    (hafter : ((searchElements b.toNat B ws).stopped ||
      quietAfterElements b.toNat B (searchElements b.toNat B ws).base ws) = true) :
    Reaches s ((logged G b).runElements ws s) (searchElements b.toNat B ws) := by
  match ws with
  | [] => exact ⟨hB, hs, rfl, by simp [searchElements, DINodeVisitor.runElements]⟩
  | .null :: _ | .basic _ _ :: _ | .string _ _ :: _ | .node _ _ :: _ | .recurring _ _ :: _
  | .var _ _ :: _ | .array _ _ _ _ :: _ | .composite _ _ _ _ :: _ => exact hfields.1.elim
  | .skip n :: ws =>
    simp only [quietBeforeElements, Bool.and_eq_true] at hbefore
    exact runElements_search ws hreads.2 hfields.2 hs hB hsize hbefore.2 hafter
  | .derived n d type :: ws =>
    obtain ⟨⟨hd, hlo, hhi, htype⟩, hfields⟩ := hfields
    obtain ⟨hreadsType, hreadsElements⟩ := hreads
    subst hB
    rw [searchElements, hd, Bool.true_and] at hafter ⊢
    rw [quietBeforeElements, hd, Bool.true_and] at hbefore
    rw [quietAfterElements, hd, Bool.true_and] at hafter
    rw [DINodeVisitor.runElements]
    cases hcontains : d.contains s.1.offsetBase.toNat b.toNat with
    | false =>
      simp only [hcontains, Bool.false_eq_true, if_false, Bool.and_eq_true] at hbefore hafter ⊢
      rw [run_of_quiet _ (by omega) hbefore.1]
      exact runElements_search ws hreadsElements hfields hs rfl hsize hbefore.2 hafter
    | true =>
      simp only [hcontains, if_true] at hbefore hafter ⊢
      cases hstops : type.stops with
      | true =>
        simp only [if_true]
        exact reaches_stop hreadsType hreadsElements hd hfields (by omega) hcontains hstops
      | false =>
        have htype := htype.resolve_left (by simp [hstops])
        simp only [hstops, Bool.false_eq_true, if_false, Bool.false_or] at hbefore hafter ⊢
        cases hcomposite : type.isComposite with
        | true =>
          simp only [hcomposite, if_true] at hbefore hafter ⊢
          simp only [Bool.or_eq_true, Bool.and_eq_true] at hafter
          refine reaches_inside hreadsType hreadsElements hd hfields hhi htype hsize hcontains hstops
            hcomposite (fun t => ?_) (by simpa using hafter.imp_right And.right)
          exact run_search (s := save n t d true s) type hreadsType.2.2.2 htype hcomposite hs
            (d.toNat_add_byteOffset (by omega)) (by omega) hbefore
            (by simpa using hafter.imp_right And.left)
        | false =>
          simp only [hcomposite, Bool.false_eq_true, if_false, Bool.false_or, Bool.and_eq_true]
            at hbefore hafter ⊢
          exact reaches_scalar hreadsType hreadsElements hd hfields hs (by omega) hcontains hstops
            hcomposite hbefore hafter.2
end

/-! ### Strays are saved -/

/-- Saved members stay recorded. -/
lemma keeps_saved (saved : List (StructMember ι)) :
    (logged G b).Keeps fun s => saved <+: s.2 where
  visitType _ _ hs := hs
  visitNode _ _ _ hs := hs
  leaveNode _ _ _ hs := hs
  visitVariable _ _ hs := hs
  leaveVariable _ _ hs := hs
  visitBasicType _ _ _ hs := hs
  leaveBasicType _ _ _ hs := hs
  visitStringType _ _ _ hs := hs
  leaveStringType _ _ _ hs := hs
  visitDerivedType _ _ _ hs := by
    simp only [logged]
    split
    · exact hs.trans (List.prefix_append _ _)
    · exact hs
  leaveDerivedType _ _ _ hs := hs
  visitCompositeType _ _ _ hs := hs
  leaveCompositeType _ _ _ hs := hs
  visitRecurringCompositeType _ _ _ hs := hs
  leaveRecurringCompositeType _ _ _ hs := hs

lemma saved_run (w : Walk ι) (s : DestructureComposite ι × List (StructMember ι)) :
    s.2 <+: ((logged G b).run w s).2.2 :=
  (keeps_saved s.2).run w List.prefix_rfl

lemma savedElements_run (ws : List (Walk ι))
    (s : DestructureComposite ι × List (StructMember ι)) :
    s.2 <+: ((logged G b).runElements ws s).2 :=
  (keeps_saved s.2).runElements ws List.prefix_rfl

mutual
/-- The type of a member is never missing. -/
lemma undefined_run (w : Walk ι) (hreads : w.Reads G)
    {s : DestructureComposite ι × List (StructMember ι)} (hs : s.1.undefined = false) :
    ((logged G b).run w s).2.1.undefined = false := by
  match w with
  | .null | .basic _ _ | .string _ _ | .node _ _ | .recurring _ _ | .skip _ => exact hs
  | .var n type =>
    rw [run_var]
    exact undefined_run type hreads.2 hs
  | .derived n d base =>
    have hbase := hreads.2.2.2
    by_cases hcovers : (DINode.derivedType d).isNonStaticMember = true ∧
        d.covers s.1.offsetBase b = true
    · obtain ⟨hd, hcovers⟩ := hcovers
      obtain ⟨t, ht⟩ := Option.ne_none_iff_exists'.mp (hreads.2.1 hd)
      rw [run_derived_of_covers hreads hd ht hcovers]
      split
      · exact hs
      · exact undefined_run base hbase hs
    · rw [run_derived_of_not_covers fun hd => by simpa [hd] using hcovers]
      exact undefined_run base hbase hs
  | .array n c elements base =>
    rw [run_array]
    split
    · exact hs
    · exact undefined_run base hreads.2.2 (undefinedElements_run elements hreads.1 hs)
  | .composite n c base elements =>
    have hbase := undefined_run base hreads.1.2 hs
    rw [run_composite]
    split
    · exact hs
    · generalize (logged G b).run base s = r at hbase ⊢
      obtain ⟨ret, s'⟩ := r
      cases ret with
      | false => exact hbase
      | true => exact undefinedElements_run elements hreads.2 hbase

lemma undefinedElements_run (ws : List (Walk ι)) (hreads : ReadsElements G ws)
    {s : DestructureComposite ι × List (StructMember ι)} (hs : s.1.undefined = false) :
    ((logged G b).runElements ws s).1.undefined = false := by
  match ws with
  | [] => exact hs
  | w :: ws => exact undefinedElements_run ws hreads.2 (undefined_run w hreads.1 hs)
end

/-- The visit of a type goes on, if no member contains the byte. -/
lemma run_fst_of_quiet (w : Walk ι) (hreads : w.Reads G) (htype : w.isTypeWalk = true)
    {s : DestructureComposite ι × List (StructMember ι)} (hterm : s.1.terminate = false)
    (hs : s.1.offsetBase.toNat < 2 ^ 62) (h : w.quiet b.toNat s.1.offsetBase.toNat = true) :
    ((logged G b).run w s).1 = true := by
  match w with
  | .null | .basic _ _ | .string _ _ | .node _ _ | .recurring _ _ => rfl
  | .derived n d base =>
    simp only [Walk.quiet, Walk.members, List.all_append, Bool.and_eq_true] at h
    rw [run_derived_of_not_covers]
    · exact run_fst_of_quiet base hreads.2.2.2 hreads.2.2.1 hterm hs h.2
    · intro hd
      simp [Walk.isTypeWalk, hd] at htype
  | .array n c elements base =>
    simp only [Walk.quiet, Walk.members, List.all_append, Bool.and_eq_true] at h
    rw [run_array, hterm, if_neg (by decide), runElements_of_quiet elements hs h.1]
    exact run_fst_of_quiet base hreads.2.2 hreads.2.1 hterm hs h.2
  | .composite n c base elements =>
    simp only [Walk.quiet, Walk.members, List.all_append, Bool.and_eq_true] at h
    have hfst := run_fst_of_quiet base hreads.1.2 hreads.1.1 hterm hs h.1
    rw [run_composite, hterm, if_neg (by decide)]
    generalize (logged G b).run base s = r at hfst ⊢
    obtain ⟨ret, s'⟩ := r
    obtain rfl : ret = true := hfst
    rfl

mutual
/-- If some member contains the byte, one of the members is saved. -/
lemma saves_of_not_quiet (w : Walk ι) (hreads : w.Reads G)
    {s : DestructureComposite ι × List (StructMember ι)} (hterm : s.1.terminate = false)
    (hs : s.1.offsetBase.toNat < 2 ^ 62) (h : w.quiet b.toNat s.1.offsetBase.toNat = false) :
    ∃ m, (∃ d, (m.member, d) ∈ w.members) ∧ s.2 ++ [m] <+: ((logged G b).run w s).2.2 := by
  match w with
  | .null | .basic _ _ | .string _ _ | .node _ _ | .recurring _ _ | .skip _ => cases h
  | .var n type =>
    rw [run_var]
    exact saves_of_not_quiet type hreads.2 hterm hs h
  | .derived n d base =>
    -- the member itself is saved, or one below it
    by_cases hcovers : (DINode.derivedType d).isNonStaticMember = true ∧
        d.covers s.1.offsetBase b = true
    · obtain ⟨hd, hcovers⟩ := hcovers
      obtain ⟨t, ht⟩ := Option.ne_none_iff_exists'.mp (hreads.2.1 hd)
      refine ⟨⟨n, t⟩, ⟨d, by simp [Walk.members, hd]⟩, ?_⟩
      rw [run_derived_of_covers hreads hd ht hcovers]
      split
      · exact List.prefix_rfl
      · exact saved_run base (save n t d base.isComposite s)
    · have hnot : (DINode.derivedType d).isNonStaticMember = true →
          d.covers s.1.offsetBase b = false := fun hd => by simpa [hd] using hcovers
      have hbase : base.quiet b.toNat s.1.offsetBase.toNat = false := by
        rw [Walk.quiet, Walk.members, List.all_append, Bool.and_eq_false_iff] at h
        refine h.resolve_left ?_
        split
        · next hd => simpa [← d.covers_eq_contains hs] using hnot hd
        · simp
      obtain ⟨m, ⟨d', hm⟩, hsaved⟩ := saves_of_not_quiet base hreads.2.2.2 hterm hs hbase
      exact ⟨m, ⟨d', by simp [Walk.members, hm]⟩, by
        rw [run_derived_of_not_covers hnot]
        exact hsaved⟩
  | .array n c elements base =>
    rw [Walk.quiet, Walk.members, List.all_append, Bool.and_eq_false_iff] at h
    rw [run_array, hterm, if_neg (by decide)]
    -- among the elements, which come first, or in the type of the array
    cases helements : (membersOf elements).all
        (fun m => !m.2.contains s.1.offsetBase.toNat b.toNat) with
    | false =>
      obtain ⟨m, ⟨d, hm⟩, hsaved⟩ := savesElements_of_not_quiet elements hreads.1 hterm hs helements
      exact ⟨m, ⟨d, List.mem_append_left _ hm⟩, hsaved.trans (saved_run base _)⟩
    | true =>
      rw [runElements_of_quiet elements hs helements]
      obtain ⟨m, ⟨d, hm⟩, hsaved⟩ := saves_of_not_quiet base hreads.2.2 hterm hs
        (h.resolve_left (by simp [helements]))
      exact ⟨m, ⟨d, List.mem_append_right _ hm⟩, hsaved⟩
  | .composite n c base elements =>
    rw [Walk.quiet, Walk.members, List.all_append, Bool.and_eq_false_iff] at h
    rw [run_composite, hterm, if_neg (by decide)]
    -- in the base type, which comes first, or among the elements
    cases hbase : base.quiet b.toNat s.1.offsetBase.toNat with
    | false =>
      obtain ⟨m, ⟨d, hm⟩, hsaved⟩ := saves_of_not_quiet base hreads.1.2 hterm hs hbase
      refine ⟨m, ⟨d, List.mem_append_left _ hm⟩, hsaved.trans ?_⟩
      obtain ⟨ret, s'⟩ := (logged G b).run base s
      cases ret with
      | false => exact List.prefix_rfl
      | true => exact savedElements_run elements s'
    | true =>
      have hfst := run_fst_of_quiet base hreads.1.2 hreads.1.1 hterm hs hbase
      have hsnd := run_of_quiet (G := G) base hs hbase
      obtain ⟨m, ⟨d, hm⟩, hsaved⟩ := savesElements_of_not_quiet elements hreads.2 hterm hs
        (h.resolve_left (by rw [Walk.quiet] at hbase; simp [hbase]))
      refine ⟨m, ⟨d, List.mem_append_right _ hm⟩, ?_⟩
      generalize (logged G b).run base s = r at hfst hsnd ⊢
      obtain ⟨ret, s'⟩ := r
      obtain rfl : ret = true := hfst
      obtain rfl : s' = s := hsnd
      exact hsaved

lemma savesElements_of_not_quiet (ws : List (Walk ι)) (hreads : ReadsElements G ws)
    {s : DestructureComposite ι × List (StructMember ι)} (hterm : s.1.terminate = false)
    (hs : s.1.offsetBase.toNat < 2 ^ 62)
    (h : (membersOf ws).all (fun m => !m.2.contains s.1.offsetBase.toNat b.toNat) = false) :
    ∃ m, (∃ d, (m.member, d) ∈ membersOf ws) ∧
      s.2 ++ [m] <+: ((logged G b).runElements ws s).2 := by
  match ws with
  | [] => cases h
  | w :: ws =>
    rw [membersOf, List.all_append, Bool.and_eq_false_iff] at h
    cases hw : w.quiet b.toNat s.1.offsetBase.toNat with
    | false =>
      obtain ⟨m, ⟨d, hm⟩, hsaved⟩ := saves_of_not_quiet w hreads.1 hterm hs hw
      exact ⟨m, ⟨d, List.mem_append_left _ hm⟩, hsaved.trans (savedElements_run ws _)⟩
    | true =>
      obtain ⟨m, ⟨d, hm⟩, hsaved⟩ := savesElements_of_not_quiet ws hreads.2 hterm hs
        (h.resolve_left (by rw [Walk.quiet] at hw; simp [hw]))
      refine ⟨m, ⟨d, List.mem_append_right _ hm⟩, ?_⟩
      rw [DINodeVisitor.runElements, run_of_quiet w hs hw]
      exact hsaved
end

/-- A record whose search is not free of strays saves something off the way. -/
lemma stray_of_before {n : ι} {d : DIDerivedType ι} {type : Walk ι} {ws : List (Walk ι)}
    {elements : List ι} (hreads : (Walk.derived n d type).Reads G)
    (hreadsElements : ReadsElements G ws) (hapart : Apart elements (.derived n d type :: ws))
    {s : DestructureComposite ι × List (StructMember ι)} (hterm : s.1.terminate = false)
    (hs : s.1.offsetBase.toNat < 2 ^ 62)
    (hcontains : d.contains s.1.offsetBase.toNat b.toNat = false)
    (hquiet : (Walk.derived n d type).quiet b.toNat s.1.offsetBase.toNat = false) (B : ℕ) :
    ∃ p, s.2 ++ p <+: ((logged G b).runElements ws ((logged G b).run (.derived n d type) s).2).2 ∧
      ¬ p <+: (searchElements b.toNat B ws).way := by
  have htype : type.quiet b.toNat s.1.offsetBase.toNat = false := by
    rw [Walk.quiet, Walk.members, List.all_append, Bool.and_eq_false_iff] at hquiet
    refine hquiet.resolve_left ?_
    split <;> simp [hcontains]
  obtain ⟨m, ⟨d', hm⟩, hsaved⟩ := saves_of_not_quiet type hreads.2.2.2 hterm hs htype
  refine ⟨[m], ?_, fun hway => ?_⟩
  · rw [run_derived_of_not_covers (fun _ => by rw [d.covers_eq_contains hs, hcontains])]
    exact hsaved.trans (savedElements_run ws _)
  · -- the way begins with an element of the record, the stray member is one of another
    have hhead : (searchElements b.toNat B ws).way.head? = some m := by
      obtain ⟨l, hl⟩ := hway
      rw [← hl]
      rfl
    have hmem := searchElements_head hreadsElements
      (fun n d type hw => hapart n d type (List.mem_cons_of_mem _ hw)) _ _ hhead
    exact (hapart n d type (by simp)).2 _ hm hmem

/-- Behind the members that contain the byte, what contains it for the base that is left is saved
after the way. -/
lemma stray_of_after {ws : List (Walk ι)} (hreads : ReadsElements G ws)
    {s : DestructureComposite ι × List (StructMember ι)} (hterm : s.1.terminate = false)
    (hs : s.1.offsetBase.toNat < 2 ^ 62)
    (hquiet : ws.all (Walk.quiet b.toNat s.1.offsetBase.toNat) = false)
    {saved way : List (StructMember ι)} (hsaved : s.2 = saved ++ way) :
    ∃ p, saved ++ p <+: ((logged G b).runElements ws s).2 ∧ ¬ p <+: way := by
  obtain ⟨m, -, hm⟩ := savesElements_of_not_quiet ws hreads hterm hs (by rw [all_quiet, hquiet])
  refine ⟨way ++ [m], by rw [← List.append_assoc, ← hsaved]; exact hm, fun h => ?_⟩
  have hle := h.length_le
  rw [List.length_append, List.length_singleton] at hle
  omega

/-- In a member that contains the byte and has a composite type, or behind it. -/
lemma stray_inside {n : ι} {d : DIDerivedType ι} {type : Walk ι} {ws : List (Walk ι)} {hi B : ℕ}
    (hreads : (Walk.derived n d type).Reads G) (hreadsElements : ReadsElements G ws)
    (hd : d.isField = true) (hhi : d.byteOffset + d.byteSize ≤ hi)
    (htype : type.FieldType d.byteSize) {s : DestructureComposite ι × List (StructMember ι)}
    (hB : s.1.offsetBase.toNat = B) (hsize : B + hi ≤ 2 ^ 61) (hcontains : d.contains B b.toNat = true)
    (hstops : type.stops = false) (hcomposite : type.isComposite = true) {r : LayoutSearch ι}
    (hr : type.search b.toNat (B + d.byteOffset) = r)
    (hinner : ∀ t, Reaches (save n t d true s) ((logged G b).run type (save n t d true s)).2 r ∧
        r.stopped = false ∧ ws.all (Walk.quiet b.toNat r.base) = false ∨
      ∃ p, (save n t d true s).2 ++ p <+: ((logged G b).run type (save n t d true s)).2.2 ∧
        ¬ p <+: r.way) :
    ∃ p, s.2 ++ p <+: ((logged G b).runElements ws ((logged G b).run (.derived n d type) s).2).2 ∧
      ¬ p <+: (d.baseType.map fun t => (⟨n, t⟩ : StructMember ι)).toList ++ r.way := by
  have hmember := DIDerivedType.isNonStaticMember_of_isField hd
  obtain ⟨t, ht⟩ := Option.ne_none_iff_exists'.mp (hreads.2.1 hmember)
  rw [run_derived_of_covers hreads hmember ht
    (by rw [d.covers_eq_contains (by omega), hB, hcontains]), if_neg (by simp [hstops]), hcomposite,
    ht]
  rcases hinner t with ⟨hreaches, hstopped, hquiet⟩ | ⟨p, hp, hway⟩
  · have hle := type.search_base b.toNat (B + d.byteOffset) htype
    rw [hr] at hle
    rw [← hreaches.base] at hquiet
    refine stray_of_after hreadsElements (hreaches.terminate.trans hstopped)
      (by rw [hreaches.base]; omega) hquiet ?_
    rw [hreaches.saved, save, List.append_assoc]
    rfl
  · refine ⟨⟨n, t⟩ :: p, ?_, fun h => hway (List.cons_prefix_cons.mp h).2⟩
    rw [save, List.append_assoc] at hp
    exact hp.trans (savedElements_run ws _)

/-- Behind a member that contains the byte and has a scalar type. -/
lemma stray_scalar {n : ι} {d : DIDerivedType ι} {type : Walk ι} {ws : List (Walk ι)}
    (hreads : (Walk.derived n d type).Reads G) (hreadsElements : ReadsElements G ws)
    (hd : d.isField = true) {s : DestructureComposite ι × List (StructMember ι)}
    (hs : s.1.terminate = false) (hsize : s.1.offsetBase.toNat < 2 ^ 62)
    (hcontains : d.contains s.1.offsetBase.toNat b.toNat = true) (hstops : type.stops = false)
    (hcomposite : type.isComposite = false)
    (hquiet : type.quiet b.toNat s.1.offsetBase.toNat = true)
    (hafter : ws.all (Walk.quiet b.toNat s.1.offsetBase.toNat) = false) :
    ∃ p, s.2 ++ p <+: ((logged G b).runElements ws ((logged G b).run (.derived n d type) s).2).2 ∧
      ¬ p <+: (d.baseType.map fun t => (⟨n, t⟩ : StructMember ι)).toList := by
  have hmember := DIDerivedType.isNonStaticMember_of_isField hd
  obtain ⟨t, ht⟩ := Option.ne_none_iff_exists'.mp (hreads.2.1 hmember)
  rw [run_derived_of_covers hreads hmember ht (by rw [d.covers_eq_contains hsize, hcontains]),
    if_neg (by simp [hstops]), hcomposite, ht,
    run_of_quiet (s := save n t d false s) type hsize hquiet]
  exact stray_of_after (s := save n t d false s) hreadsElements hs hsize hafter rfl

lemma quiet_of_fieldType {type : Walk ι} {size : ℕ} (h : type.FieldType size)
    (hcomposite : type.isComposite = false) (b B last : ℕ) :
    type.quiet b B = true ∧ type.quietAfter b B last = true := by
  match type with
  | .basic _ _ | .string _ _ => exact ⟨rfl, rfl⟩
  | .derived _ _ _ => exact ⟨by simp [Walk.quiet, Walk.members, h.1, h.2], rfl⟩
  | .composite _ _ _ _ => cases hcomposite
  | .null | .node _ _ | .recurring _ _ | .skip _ | .var _ _ | .array _ _ _ _ => exact h.elim

mutual
/-- If some stray member is saved, what is saved is not the way. -/
lemma run_stray (w : Walk ι) (hreads : w.Reads G) {size : ℕ} (htype : w.FieldType size)
    (hcomposite : w.isComposite = true) {s : DestructureComposite ι × List (StructMember ι)}
    (hs : s.1.terminate = false) {B : ℕ} (hB : s.1.offsetBase.toNat = B)
    (hsize : B + size ≤ 2 ^ 61)
    (hnot : ¬ (w.quietBefore b.toNat B = true ∧ ((w.search b.toNat B).stopped ||
      w.quietAfter b.toNat B (w.search b.toNat B).base) = true)) :
    ∃ p, s.2 ++ p <+: ((logged G b).run w s).2.2 ∧ ¬ p <+: (w.search b.toNat B).way := by
  match w with
  | .basic _ _ | .string _ _ | .derived _ _ _ => cases hcomposite
  | .null | .node _ _ | .recurring _ _ | .skip _ | .var _ _ | .array _ _ _ _ => exact htype.elim
  | .composite n c base elements =>
    rcases htype with ⟨-, hle, rfl, hfields, hapart⟩ | ⟨-, hbase, hmembers⟩
    · rw [run_composite, hs, if_neg (by decide)]
      refine runElements_stray elements hreads.2 hfields hapart hs hB (by omega) fun h => hnot ?_
      exact ⟨by simp [Walk.quietBefore, Walk.quiet, Walk.members, h.1], h.2⟩
    · obtain ⟨hquiet, hafter⟩ := quietElements_of_membersOf hmembers b.toNat B
        (searchElements b.toNat B elements).base
      refine absurd ⟨?_, ?_⟩ hnot
      · simp [Walk.quietBefore, Walk.quiet, hbase, hquiet]
      · rw [Walk.search, Walk.quietAfter, hafter, Bool.or_true]

lemma runElements_stray (ws : List (Walk ι)) (hreads : ReadsElements G ws) {lo hi : ℕ}
    (hfields : FieldsOk lo hi ws) {elements : List ι} (hapart : Apart elements ws)
    {s : DestructureComposite ι × List (StructMember ι)}
    (hs : s.1.terminate = false) {B : ℕ} (hB : s.1.offsetBase.toNat = B) (hsize : B + hi ≤ 2 ^ 61)
    (hnot : ¬ (quietBeforeElements b.toNat B ws = true ∧
      ((searchElements b.toNat B ws).stopped ||
        quietAfterElements b.toNat B (searchElements b.toNat B ws).base ws) = true)) :
    ∃ p, s.2 ++ p <+: ((logged G b).runElements ws s).2 ∧
      ¬ p <+: (searchElements b.toNat B ws).way := by
  match ws with
  | [] => exact absurd ⟨rfl, rfl⟩ hnot
  | .null :: _ | .basic _ _ :: _ | .string _ _ :: _ | .node _ _ :: _ | .recurring _ _ :: _
  | .var _ _ :: _ | .array _ _ _ _ :: _ | .composite _ _ _ _ :: _ => exact hfields.1.elim
  | .skip n :: ws =>
    refine runElements_stray ws hreads.2 hfields.2
      (fun n d type hw => hapart n d type (List.mem_cons_of_mem _ hw)) hs hB hsize fun h => hnot ?_
    exact ⟨by simp [quietBeforeElements, Walk.quiet, Walk.members, h.1], h.2⟩
  | .derived n d type :: ws =>
    obtain ⟨⟨hd, hlo, hhi, htype⟩, hfields⟩ := hfields
    obtain ⟨hreadsType, hreadsElements⟩ := hreads
    have hapartElements : Apart elements ws :=
      fun n d type hw => hapart n d type (List.mem_cons_of_mem _ hw)
    subst hB
    rw [searchElements, quietBeforeElements, quietAfterElements, hd, Bool.true_and] at hnot
    rw [searchElements, hd, Bool.true_and, DINodeVisitor.runElements]
    cases hcontains : d.contains s.1.offsetBase.toNat b.toNat with
    | false =>
      -- the element does not contain the byte: a stray below it, or behind it
      simp only [hcontains, Bool.false_eq_true, if_false, Bool.and_eq_true] at hnot ⊢
      cases hquiet : (Walk.derived n d type).quiet b.toNat s.1.offsetBase.toNat with
      | false =>
        exact stray_of_before hreadsType hreadsElements hapart hs (by omega) hcontains hquiet _
      | true =>
        rw [run_of_quiet _ (by omega) hquiet]
        exact runElements_stray ws hreadsElements hfields hapartElements hs rfl hsize
          fun h => hnot ⟨⟨hquiet, h.1⟩, h.2⟩
    | true =>
      -- it does: the search stops, goes into it, or goes on behind it
      simp only [hcontains, if_true] at hnot ⊢
      cases hstops : type.stops with
      | true => simp [hstops] at hnot
      | false =>
        have htype := htype.resolve_left (by simp [hstops])
        simp only [hstops, Bool.false_eq_true, if_false, Bool.false_or] at hnot ⊢
        cases hcomposite : type.isComposite with
        | true =>
          simp only [hcomposite, if_true] at hnot ⊢
          refine stray_inside hreadsType hreadsElements hd hhi htype rfl hsize hcontains hstops
            hcomposite rfl fun t => ?_
          have hbase : (save n t d true s).1.offsetBase.toNat =
            s.1.offsetBase.toNat + d.byteOffset := d.toNat_add_byteOffset (by omega)
          -- either the inside is searched as it should be, or the stray is there
          by_cases hinner : type.quietBefore b.toNat (s.1.offsetBase.toNat + d.byteOffset) = true ∧
              ((type.search b.toNat (s.1.offsetBase.toNat + d.byteOffset)).stopped ||
                type.quietAfter b.toNat (s.1.offsetBase.toNat + d.byteOffset)
                  (type.search b.toNat (s.1.offsetBase.toNat + d.byteOffset)).base) = true
          · refine .inl ⟨run_search (s := save n t d true s) type hreadsType.2.2.2 htype hcomposite
              hs hbase (by omega) hinner.1 hinner.2, ?_⟩
            obtain ⟨hbefore, hafter⟩ := hinner
            rw [hbefore] at hnot
            cases hstopped : (type.search b.toNat (s.1.offsetBase.toNat + d.byteOffset)).stopped with
            | true => simp [hstopped] at hnot
            | false =>
              rw [hstopped, Bool.false_or] at hafter
              refine ⟨rfl, ?_⟩
              simpa [hstopped, hafter] using hnot
          · exact .inr (run_stray (s := save n t d true s) type hreadsType.2.2.2 htype hcomposite
              hs hbase (by omega) hinner)
        | false =>
          have hquiet := quiet_of_fieldType htype hcomposite b.toNat
          simp only [hcomposite, Bool.false_eq_true, if_false, Bool.false_or,
            (hquiet (s.1.offsetBase.toNat) 0).1, (hquiet _ _).2, true_and, Bool.true_and] at hnot ⊢
          exact stray_scalar hreadsType hreadsElements hd hs (by omega) hcontains hstops hcomposite
            (hquiet _ 0).1 (by simpa using hnot)
end

/-- The members saved in the search for a byte offset, in order. -/
def savedMembers [DecidableEq ι] (G : DIGraph ι) (fuel : ℕ) (n : ι)
    (composite : DICompositeType ι) (offset : UInt64) : Option (List (StructMember ι)) :=
  let visitor := logged G offset
  (visitor.traverseCompositeType (visitor.invokeIfAny G fuel) n composite ⟨∅, {}, []⟩).map
    fun r => r.2.callback.2

end DestructureComposite

open DestructureComposite

/-! ### Resolving -/

/-- A well-typed graph in which every cycle passes through a record. -/
structure SoundGraph (ι : Type) extends DIGraph ι where
  well_typed : toDIGraph.WellTyped
  cycles_pass_records : toDIGraph.CyclesPassRecords

/-- Moreover, no two composites share a member that is not static. -/
structure LayoutGraph (ι : Type) extends SoundGraph ι where
  members_owned : ∀ n n' c c' e, node n = .compositeType c → node n' = .compositeType c' →
    (node e).isNonStaticMember = true → e ∈ c.elements → e ∈ c'.elements → n = n'

lemma LayoutGraph.well_formed (G : LayoutGraph ι) : G.toDIGraph.WellFormed :=
  ⟨G.well_typed, G.members_owned⟩

/-- The traversal runs over the tree, with or without a record of it. -/
lemma traverse_of_commutes [DecidableEq ι] {ρ : Type*} {G : DIGraph ι} {n : ι}
    {c : DICompositeType ι} {fuel : ℕ} {w : Walk ι} {b : UInt64}
    {V : DINodeVisitor ι (DestructureComposite ι × ρ)}
    (hV : DINodeVisitor.Commutes Prod.fst V (visitor G b)) (hn : G.node n = .compositeType c)
    (hw : G.walk (fuel + 1) ∅ n = some w) (record : ρ) :
    DestructureComposite.traverse G fuel n c b = some (V.run w ({}, record)).2.1 := by
  have hplain := DINodeVisitor.invokeIfAny_eq_run (visitor G b) hw ({} : DestructureComposite ι)
  have hcommutes := hV.run w ({}, record)
  rw [hcommutes] at hplain
  simp only [DINodeVisitor.invokeIfAny, hn] at hplain
  rw [DestructureComposite.traverse, hplain]
  rfl

lemma traverse_of_walk [DecidableEq ι] {G : DIGraph ι} {n : ι} {c : DICompositeType ι} {fuel : ℕ}
    {w : Walk ι} (hn : G.node n = .compositeType c) (hw : G.walk (fuel + 1) ∅ n = some w)
    (b : UInt64) :
    DestructureComposite.traverse G fuel n c b = some ((logged G b).run w ({}, [])).2.1 :=
  traverse_of_commutes commutes_logged hn hw []

/-- What is resolved is the last of the members that are saved. -/
lemma resolve_of_walk [DecidableEq ι] {G : DIGraph ι} {n : ι} {c : DICompositeType ι} {fuel : ℕ}
    {w : Walk ι} (hn : G.node n = .compositeType c) (hw : G.walk (fuel + 1) ∅ n = some w)
    (b : UInt64) :
    resolveByteOffsetToMemberOf G fuel n c b =
        some ((logged G b).run w ({}, [])).2.1.outermostCandidate ∧
      savedMembers G fuel n c b = some ((logged G b).run w ({}, [])).2.2 := by
  have hlogged := DINodeVisitor.invokeIfAny_eq_run (logged G b) hw ({}, [])
  simp only [DINodeVisitor.invokeIfAny, hn] at hlogged
  constructor
  · rw [resolveByteOffsetToMemberOf, traverse_of_walk hn hw]
    rfl
  · rw [savedMembers, hlogged]
    rfl

/-- More fuel resolves to the same member. -/
lemma resolve_mono [DecidableEq ι] {G : DIGraph ι} {n : ι} {c : DICompositeType ι}
    {fuel fuel' : ℕ} (hn : G.node n = .compositeType c)
    (hwalk : (G.walk (fuel + 1) ∅ n).isSome = true) (hle : fuel ≤ fuel') (b : UInt64) :
    resolveByteOffsetToMemberOf G fuel' n c b = resolveByteOffsetToMemberOf G fuel n c b := by
  obtain ⟨w, hw⟩ := Option.isSome_iff_exists.mp hwalk
  have hw' := DIGraph.walk_mono (Nat.succ_le_succ hle) hw
  rw [(resolve_of_walk hn hw' b).1, (resolve_of_walk hn hw b).1]

/-- The search saves the members around the byte and resolves to the innermost of them exactly if no
stray member is saved. -/
theorem LayoutGraph.resolves_iff_strayFree [DecidableEq ι] [Fintype ι] (G : LayoutGraph ι) {n : ι}
    (h : G.LaidOut n) (b : UInt64) :
    ∃ fuel c w r saved, G.node n = .compositeType c ∧
      (∀ fuel', fuel ≤ fuel' → G.walk (fuel' + 1) ∅ n = some w ∧
        resolveByteOffsetToMemberOf G.toDIGraph fuel' n c b = some r ∧
        savedMembers G.toDIGraph fuel' n c b = some saved) ∧
      (G.ResolvesTo b.toNat n c r ∧ saved = (w.search b.toNat 0).way ↔
        w.strayFree b.toNat = true) := by
  obtain ⟨fuel, w, hw⟩ := DIGraph.hasWalk_of_cyclesPassRecords G.cycles_pass_records ∅ n
  have haround : G.Around ∅ n := fun v hv => absurd hv (Finset.notMem_empty v)
  obtain ⟨c, ws, hn, hrecord, rfl, hfields, hapart⟩ := h.walk G.well_formed haround hw
  have hreads := reads_of_walk G.well_typed hw
  have hfinds := h.finds (b := b.toNat) haround hn hw 0
  generalize hr : Walk.composite n c .null ws = w at hw hreads hfinds
  have htype : w.FieldType c.byteSize := by
    rw [← hr]
    exact .inl ⟨hrecord, le_rfl, rfl, hfields, hapart⟩
  have hcomposite : w.isComposite = true := by rw [← hr]; rfl
  have hsize : 0 + c.byteSize ≤ 2 ^ 61 := by
    have : c.byteSize < 2 ^ 61 := UInt64.toNat_div_eight_lt _
    omega
  refine ⟨fuel, c, w, ((logged G.toDIGraph b).run w ({}, [])).2.1.outermostCandidate,
    ((logged G.toDIGraph b).run w ({}, [])).2.2, hn, fun fuel' hle => ?_, ?_⟩
  · have hw' := DIGraph.walk_mono (hle.trans (Nat.le_succ fuel')) hw
    exact ⟨hw', resolve_of_walk hn hw' b⟩
  rw [Walk.strayFree, Bool.and_eq_true]
  constructor
  · rintro ⟨-, hsaved⟩
    by_contra hnot
    obtain ⟨p, hp, hway⟩ := run_stray (G := G.toDIGraph) w hreads htype hcomposite (s := ({}, []))
      rfl rfl hsize hnot
    exact hway (hsaved ▸ hp)
  · intro hfree
    have hreaches := run_search (G := G.toDIGraph) w hreads htype hcomposite (s := ({}, [])) rfl rfl
      hsize hfree.1 hfree.2
    refine ⟨?_, hreaches.saved⟩
    have hcandidate : ((logged G.toDIGraph b).run w ({}, [])).2.1.outermostCandidate =
        (w.search b.toNat 0).way.getLast? := hreaches.candidate.trans (Option.or_none)
    rw [hcandidate]
    cases hlast : (w.search b.toNat 0).way.getLast? with
    | some m =>
      rw [hlast] at hfinds
      exact hfinds
    | none =>
      rw [hlast] at hfinds
      rintro ⟨e, he, d, hd, hfield, hcontains⟩
      rw [hfinds e he d hd hfield] at hcontains
      cases hcontains

/-! ### A record that follows a member -/

/-- `struct C { int z; struct B { int x; } m; };` -/
def nested : DIGraph (Fin 6) where
  node
    | 0 => .compositeType { tag := .structureType, name := "C", sizeInBits := 64,
                            elements := [1, 2] }
    | 1 => .derivedType { tag := .member, name := "z", sizeInBits := 32, baseType := some 5 }
    | 2 => .derivedType { tag := .member, name := "m", sizeInBits := 32, offsetInBits := 32,
                          baseType := some 3 }
    | 3 => .compositeType { tag := .structureType, name := "B", sizeInBits := 32,
                            elements := [4] }
    | 4 => .derivedType { tag := .member, name := "x", sizeInBits := 32, baseType := some 5 }
    | 5 => .basicType { name := "int", sizeInBits := 32, encoding := .signed }

def nestedGraph : LayoutGraph (Fin 6) where
  toDIGraph := nested
  well_typed :=
    { refers_to_types := by
        intro n t h
        fin_cases n <;> simp [nested, DINode.typeRef] at h <;> subst h <;> decide
      members_have_types := by decide }
  members_owned := by
    intro n n' c c' e h h' _ he he'
    fin_cases n <;> simp [nested] at h <;> fin_cases n' <;> simp [nested] at h' <;>
      subst h <;> subst h' <;> simp at he he' ⊢
    all_goals omega
  cycles_pass_records := by
    refine DIGraph.cyclesPassRecords_of_lt fun a b h => ?_
    fin_cases a <;> simp [DIGraph.PlainStep, nested] at h <;> subst h <;> decide

lemma laidOut_nested : nested.LaidOut 0 := by
  have hint : nested.Scalar 5 := .basic rfl
  have hB : nested.LaidOut 3 := by
    refine .record rfl rfl rfl ?_ ?_
    · exact .field (e := 4) (t := 5) rfl rfl rfl (.inr (.inl hint)) (by decide) (by decide) .nil
    · rintro t ⟨c, e, d, c', hc, he, hd, ht, hc', -⟩
      obtain rfl := DINode.compositeType.inj hc
      obtain rfl : e = 4 := by simpa using he
      obtain rfl := DINode.derivedType.inj hd
      obtain rfl := Option.some.inj ht
      cases hc'
  refine .record rfl rfl rfl ?_ ?_
  · refine .field (e := 1) (t := 5) rfl rfl rfl (.inr (.inl hint)) (by decide) (by decide) ?_
    exact .field (e := 2) (t := 3) rfl rfl rfl (.inr (.inr ⟨_, rfl, rfl, by decide⟩)) (by decide)
      (by decide) .nil
  · rintro t ⟨c, e, d, c', hc, he, hd, ht, hc', -⟩
    obtain rfl := DINode.compositeType.inj hc
    rcases (by simpa using he : e = 1 ∨ e = 2) with rfl | rfl
    · obtain rfl := DINode.derivedType.inj hd
      obtain rfl := Option.some.inj ht
      cases hc'
    · obtain rfl := DINode.derivedType.inj hd
      obtain rfl := Option.some.inj ht
      exact hB

theorem LayoutGraph.resolves_iff_strayFree_nested :
    ∃ fuel c w r saved, nested.node 0 = .compositeType c ∧
      (∀ fuel', fuel ≤ fuel' → nested.walk (fuel' + 1) ∅ 0 = some w ∧
        resolveByteOffsetToMemberOf nested fuel' 0 c 4 = some r ∧
        savedMembers nested fuel' 0 c 4 = some saved) ∧
      (nested.ResolvesTo 4 0 c r ∧ saved = (w.search 4 0).way ↔ w.strayFree 4 = true) :=
  nestedGraph.resolves_iff_strayFree laidOut_nested 4

/-- The byte 0 is in `z`, but the member `x` of the record behind it, compared with the base of `C`,
contains that byte as well, and is resolved in the end. -/
theorem not_resolves : ¬ ∀ (G : LayoutGraph (Fin 6)) (n : Fin 6) (b : UInt64), G.LaidOut n →
    ∃ fuel c r, G.node n = .compositeType c ∧
      (∀ fuel', fuel ≤ fuel' → resolveByteOffsetToMemberOf G.toDIGraph fuel' n c b = some r) ∧
      G.ResolvesTo b.toNat n c r := by
  intro h
  obtain ⟨fuel, c, r, hn, hr, hto⟩ := h nestedGraph 0 0 laidOut_nested
  obtain rfl := DINode.compositeType.inj hn
  have hx : resolveByteOffsetToMemberOf nested 8 0
      { tag := .structureType, name := "C", sizeInBits := 64, elements := [1, 2] } 0 =
        some (some ⟨4, 5⟩) := by decide +kernel
  have hresolve := hr (max fuel 8) (le_max_left _ _)
  rw [show nestedGraph.toDIGraph = nested from rfl,
    resolve_mono rfl (by decide +kernel) (le_max_right fuel 8), hx] at hresolve
  obtain rfl := Option.some.inj hresolve
  cases hto with
  | here hn' he =>
    obtain rfl := DINode.compositeType.inj hn'
    simp at he
  | inside hn' he hd _ hb ht hc' =>
    obtain rfl := DINode.compositeType.inj hn'
    rcases (by simpa using he) with rfl | rfl
    · obtain rfl := DINode.derivedType.inj hd
      obtain rfl := Option.some.inj ht
      cases hc'
    · obtain rfl := DINode.derivedType.inj hd
      exact absurd hb (by decide)

end Dimeta
