import Dimeta.DI.Layout

/-!
# The search along the layout

What the search for a byte offset does if only the layout counts: it follows the by-value members
that contain the byte from the outermost to the innermost, and stops at a pointer or an array. The
visitor that searches sees more members than these; `Walk.strayFree` says when none of the others,
compared with the offset base then in force, happens to contain the byte.
-/

set_option autoImplicit false

namespace Dimeta

variable {ι : Type}

/-! ### The way to the innermost member -/

/-- Where the search gets: the members that contain the byte, outermost first, the offset base it
leaves, and whether it stopped at a pointer or an array. -/
structure LayoutSearch (ι : Type*) where
  way : List (StructMember ι) := []
  base : ℕ
  stopped : Bool := false

mutual
/-- The search for the byte `b` in a record that starts at byte `B`. -/
def Walk.search (b B : ℕ) : Walk ι → LayoutSearch ι
  | .composite _ _ _ elements => searchElements b B elements
  | _ => { base := B }

def searchElements (b B : ℕ) : List (Walk ι) → LayoutSearch ι
  | [] => { base := B }
  | .derived n d type :: ws =>
    if d.isField && d.contains B b then
      let member := (d.baseType.map fun t => ⟨n, t⟩).toList
      if type.stops then { way := member, base := B, stopped := true }
      else if type.isComposite then
        let inner := type.search b (B + d.byteOffset)
        { inner with way := member ++ inner.way }
      else { way := member, base := B }
    else searchElements b B ws
  | _ :: ws => searchElements b B ws
end

/-! ### Stray members -/

/-- No member met on the walk contains the byte `b`, if compared with base `B`. -/
def Walk.quiet (b B : ℕ) (w : Walk ι) : Bool := w.members.all fun m => !m.2.contains B b

mutual
/-- No stray member is saved before the innermost one: siblings ahead of the members that contain
`b` are compared with the base of their own record. -/
def Walk.quietBefore (b B : ℕ) : Walk ι → Bool
  | .composite _ _ base elements => base.quiet b B && quietBeforeElements b B elements
  | _ => true

def quietBeforeElements (b B : ℕ) : List (Walk ι) → Bool
  | [] => true
  | .derived n d type :: ws =>
    if d.isField && d.contains B b then
      type.stops || if type.isComposite then type.quietBefore b (B + d.byteOffset)
        else type.quiet b B
    else (Walk.derived n d type).quiet b B && quietBeforeElements b B ws
  | w :: ws => w.quiet b B && quietBeforeElements b B ws
end

mutual
/-- No stray member is saved after the innermost one: siblings behind the members that contain `b`
are compared with the base that the search leaves, `last`. -/
def Walk.quietAfter (b B last : ℕ) : Walk ι → Bool
  | .composite _ _ _ elements => quietAfterElements b B last elements
  | _ => true

def quietAfterElements (b B last : ℕ) : List (Walk ι) → Bool
  | [] => true
  | .derived _ d type :: ws =>
    if d.isField && d.contains B b then
      type.quietAfter b (B + d.byteOffset) last && ws.all (Walk.quiet b last)
    else quietAfterElements b B last ws
  | _ :: ws => quietAfterElements b B last ws
end

/-- No stray member is saved in the search for the byte `b`; once the search has stopped, nothing
is saved any more. -/
def Walk.strayFree (b : ℕ) (w : Walk ι) : Bool :=
  w.quietBefore b 0 && ((w.search b 0).stopped || w.quietAfter b 0 (w.search b 0).base)

/-! ### Facts about the search -/

lemma DIDerivedType.isNonStaticMember_of_isField {d : DIDerivedType ι} (hd : d.isField = true) :
    (DINode.derivedType d).isNonStaticMember = true := by
  simp only [isField, Bool.and_eq_true, beq_iff_eq, Bool.not_eq_true'] at hd
  obtain ⟨htag, hstatic⟩ := hd
  have hflags : d.flags ≠ DIFlags.staticMember := by
    intro h
    simp only [isStaticMember, h] at hstatic
    exact absurd hstatic (by decide)
  simp [DINode.isNonStaticMember, DINode.tag, DINode.flags, htag, hflags]

/-- Without members there is nothing to find. -/
lemma searchElements_of_membersOf {ws : List (Walk ι)} (h : membersOf ws = []) (b B : ℕ) :
    searchElements b B ws = { base := B } := by
  induction ws with
  | nil => rfl
  | cons w ws ih =>
    obtain ⟨hw, hws⟩ := List.append_eq_nil_iff.mp h
    match w with
    | .derived n d type =>
      have hd : d.isField = false := by
        cases hd : d.isField with
        | false => rfl
        | true => simp [Walk.members, DIDerivedType.isNonStaticMember_of_isField hd] at hw
      rw [searchElements, hd, Bool.false_and, if_neg (by decide), ih hws]
    | .null | .basic _ _ | .string _ _ | .node _ _ | .recurring _ _ | .skip _ | .var _ _
    | .array _ _ _ _ | .composite _ _ _ _ => exact ih hws

/-- Without members there are no strays. -/
lemma quietElements_of_membersOf {ws : List (Walk ι)} (h : membersOf ws = []) (b B last : ℕ) :
    quietBeforeElements b B ws = true ∧ quietAfterElements b B last ws = true := by
  induction ws with
  | nil => exact ⟨rfl, rfl⟩
  | cons w ws ih =>
    obtain ⟨hw, hws⟩ := List.append_eq_nil_iff.mp h
    obtain ⟨hbefore, hafter⟩ := ih hws
    have hquiet : w.quiet b B = true := by rw [Walk.quiet, hw, List.all_nil]
    match w with
    | .derived n d type =>
      have hd : d.isField = false := by
        cases hd : d.isField with
        | false => rfl
        | true => simp [Walk.members, DIDerivedType.isNonStaticMember_of_isField hd] at hw
      constructor
      · rw [quietBeforeElements, hd, Bool.false_and, if_neg (by decide), hquiet, hbefore]
        rfl
      · rw [quietAfterElements, hd, Bool.false_and, if_neg (by decide), hafter]
    | .null | .basic _ _ | .string _ _ | .node _ _ | .recurring _ _ | .skip _ | .var _ _
    | .array _ _ _ _ | .composite _ _ _ _ =>
      exact ⟨by simp [quietBeforeElements, hquiet, hbefore], hafter⟩

lemma Walk.search_of_members {w : Walk ι} (h : w.members = []) (b B : ℕ) :
    w.search b B = { base := B } := by
  match w with
  | .composite n c base elements =>
    exact searchElements_of_membersOf (List.append_eq_nil_iff.mp h).2 b B
  | .null | .basic _ _ | .string _ _ | .node _ _ | .recurring _ _ | .skip _ | .var _ _
  | .array _ _ _ _ | .derived _ _ _ => rfl

mutual
/-- The base that the search leaves is that of a record inside of the one it starts from. -/
lemma Walk.search_base (b B : ℕ) (w : Walk ι) {size : ℕ} (h : w.FieldType size) :
    B ≤ (w.search b B).base ∧ (w.search b B).base ≤ B + size := by
  match w with
  | .basic _ _ | .string _ _ | .derived _ _ _ =>
    rw [Walk.search]
    · exact ⟨le_rfl, Nat.le_add_right _ _⟩
    all_goals simp
  | .null | .node _ _ | .recurring _ _ | .skip _ | .var _ _ | .array _ _ _ _ => exact h.elim
  | .composite n c base elements =>
    rw [Walk.search]
    rcases h with ⟨-, hsize, -, hfields, -⟩ | ⟨-, -, hmembers⟩
    · obtain ⟨hle, hle'⟩ := searchElements_base b B elements hfields
      exact ⟨hle, by omega⟩
    · rw [searchElements_of_membersOf hmembers]
      exact ⟨le_rfl, Nat.le_add_right _ _⟩

lemma searchElements_base (b B : ℕ) (ws : List (Walk ι)) {lo hi : ℕ} (h : FieldsOk lo hi ws) :
    B ≤ (searchElements b B ws).base ∧ (searchElements b B ws).base ≤ B + hi := by
  match ws with
  | [] => exact ⟨le_rfl, Nat.le_add_right _ _⟩
  | .null :: _ | .basic _ _ :: _ | .string _ _ :: _ | .node _ _ :: _ | .recurring _ _ :: _
  | .var _ _ :: _ | .array _ _ _ _ :: _ | .composite _ _ _ _ :: _ => exact h.1.elim
  | .skip n :: ws =>
    rw [searchElements]
    · exact searchElements_base b B ws h.2
    · simp
  | .derived n d type :: ws =>
    obtain ⟨⟨hd, hlo, hhi, htype⟩, hws⟩ := h
    rw [searchElements]
    split
    · split
      · exact ⟨le_rfl, Nat.le_add_right _ _⟩
      · next hstops =>
        split
        · obtain ⟨hle, hle'⟩ := Walk.search_base b (B + d.byteOffset) type (htype.resolve_left hstops)
          exact ⟨by simp only; omega, by simp only; omega⟩
        · exact ⟨le_rfl, Nat.le_add_right _ _⟩
    · exact searchElements_base b B ws hws
end

lemma all_quiet (b B : ℕ) (ws : List (Walk ι)) :
    (membersOf ws).all (fun m => !m.2.contains B b) = ws.all (Walk.quiet b B) := by
  induction ws with
  | nil => rfl
  | cons w ws ih => rw [membersOf, List.all_append, ih, List.all_cons, Walk.quiet]

/-- The way begins with one of the elements. -/
lemma searchElements_head {G : DIGraph ι} {elements : List ι} {ws : List (Walk ι)}
    (hreads : ReadsElements G ws) (h : Apart elements ws) (b B : ℕ) {m : StructMember ι}
    (hm : (searchElements b B ws).way.head? = some m) : m.member ∈ elements := by
  induction ws with
  | nil => cases hm
  | cons w ws ih =>
    have ih := ih hreads.2 fun n d type hw => h n d type (List.mem_cons_of_mem _ hw)
    match w with
    | .derived n d type =>
      obtain ⟨hn, -⟩ := h n d type (by simp)
      rw [searchElements] at hm
      split at hm
      · next hcond =>
        rw [Bool.and_eq_true] at hcond
        obtain ⟨t, ht⟩ := Option.ne_none_iff_exists'.mp
          (hreads.1.2.1 (DIDerivedType.isNonStaticMember_of_isField hcond.1))
        have hmember : m = ⟨n, t⟩ := by
          rw [ht] at hm
          split at hm
          · simpa [eq_comm] using hm
          · split at hm <;> simpa [eq_comm] using hm
        rw [hmember]
        exact hn
      · exact ih hm
    | .null | .basic _ _ | .string _ _ | .node _ _ | .recurring _ _ | .skip _ | .var _ _
    | .array _ _ _ _ | .composite _ _ _ _ => exact ih hm

/-! ### The search follows the layout -/

section Spec

variable [DecidableEq ι] {G : DIGraph ι} {b : ℕ}

/-- What a search in the record `n` at byte `B` has found: the innermost member, or nothing, and
then none of the elements `es` contains the byte. -/
def DIGraph.Finds (G : DIGraph ι) (b B : ℕ) (n : ι) (es : List ι) :
    Option (StructMember ι) → Prop
  | none   => ∀ e ∈ es, ∀ d, G.node e = .derivedType d → d.isField = true → d.contains B b = false
  | some m => G.Innermost b B n m

omit [DecidableEq ι] in
lemma not_isRecord_of_head {t : ι} {c : DICompositeType ι} (hc : G.node t = .compositeType c)
    (h : ((G.node t).isPointerLike || (G.node t).isArray) = true) : c.isRecord = false := by
  rw [hc] at h
  have htag : c.tag = .arrayType := by simpa [DINode.isPointerLike, DINode.isArray] using h
  simp [DICompositeType.isRecord, htag]

omit [DecidableEq ι] in
/-- An element that does not contain the byte changes nothing. -/
lemma DIGraph.Finds.cons {B : ℕ} {n e : ι} {es : List ι} {r : Option (StructMember ι)}
    (h : G.Finds b B n es r)
    (he : ∀ d, G.node e = .derivedType d → d.isField = true → d.contains B b = false) :
    G.Finds b B n (e :: es) r := by
  cases r with
  | some m => exact h
  | none =>
    intro e' he' d hd hfield
    rcases List.mem_cons.mp he' with rfl | he'
    · exact he d hd hfield
    · exact h e' he' d hd hfield

omit [DecidableEq ι] in
/-- A composite, among the types of fields, that is no record is a scalar. -/
lemma scalar_of_not_isRecord {t : ι} {c : DICompositeType ι} {size : ℕ}
    (hc : G.node t = .compositeType c) (hrecord : c.isRecord = false)
    (hstops : ((G.node t).isPointerLike || (G.node t).isArray) = false)
    (htype : ((G.node t).isPointerLike || (G.node t).isArray) = true ∨ G.Scalar t ∨
      ∃ c, G.node t = .compositeType c ∧ c.isRecord = true ∧ c.byteSize ≤ size) : G.Scalar t := by
  rcases htype with h | h | ⟨c', hc', hrecord', -⟩
  · rw [h] at hstops
    cases hstops
  · exact h
  · obtain rfl := DINode.compositeType.inj (hc.symm.trans hc')
    rw [hrecord] at hrecord'
    cases hrecord'

/-- The field that contains the byte: it is the innermost member, or the innermost one is in the
record that is its type. -/
lemma finds_field {n e t : ι} {c : DICompositeType ι} {d : DIDerivedType ι} {B : ℕ}
    {type : Walk ι} {ws : List (Walk ι)} {es : List ι} (hn : G.node n = .compositeType c)
    (hmem : e ∈ c.elements) (he : G.node e = .derivedType d) (hd : d.isField = true)
    (hbase : d.baseType = some t) (hcontains : d.contains B b = true)
    (htype : ((G.node t).isPointerLike || (G.node t).isArray) = true ∨ G.Scalar t ∨
      ∃ c, G.node t = .compositeType c ∧ c.isRecord = true ∧ c.byteSize ≤ d.byteSize)
    {fuel : ℕ} {visited : Finset ι} (hw : G.walk fuel visited t = some type)
    (hrecords : ∀ c', G.Nests n t → G.node t = .compositeType c' →
      G.Finds b (B + d.byteOffset) t c'.elements (type.search b (B + d.byteOffset)).way.getLast?) :
    G.Finds b B n (e :: es) (searchElements b B (.derived e d type :: ws)).way.getLast? := by
  obtain ⟨hstops, hcomposite, -⟩ := head_of_walk hw
  have hhere : ∀ (hleaf : ∀ c', G.node t = .compositeType c' → c'.isRecord = true →
      ¬ G.Covered (B + d.byteOffset) b c'), G.Innermost b B n ⟨e, t⟩ :=
    fun hleaf => .here hn hmem he hd hcontains hbase hleaf
  rw [searchElements, hd, Bool.true_and, if_pos hcontains, hbase]
  cases hs : type.stops with
  | true =>
    -- a pointer or an array: nothing below it is searched
    refine hhere fun c' hc' hrecord => ?_
    rw [not_isRecord_of_head hc' (hstops.trans hs)] at hrecord
    cases hrecord
  | false =>
    simp only [Bool.false_eq_true, if_false]
    cases hcomp : type.isComposite with
    | false =>
      refine hhere fun c' hc' => ?_
      rw [hc', hcomp] at hcomposite
      cases hcomposite
    | true =>
      obtain ⟨c', hc'⟩ : ∃ c', G.node t = .compositeType c' := by
        rw [hcomp] at hcomposite
        cases hnode : G.node t <;> rw [hnode] at hcomposite <;>
          first | exact ⟨_, rfl⟩ | cases hcomposite
      rw [if_pos rfl]
      cases hrecord : c'.isRecord with
      | false =>
        -- a composite that is no record has no members
        have hscalar := scalar_of_not_isRecord hc' hrecord (hstops.trans hs) htype
        rw [Walk.search_of_members (members_of_scalar hscalar hw)]
        refine hhere fun c'' hc'' hrecord' => ?_
        obtain rfl := DINode.compositeType.inj (hc'.symm.trans hc'')
        rw [hrecord] at hrecord'
        cases hrecord'
      | true =>
        -- a record: what is found inside, or the member itself
        have hinner := hrecords c' ⟨c, e, d, c', hn, hmem, he, hbase, hc', hrecord⟩ hc'
        rw [List.getLast?_append]
        cases hfound : (type.search b (B + d.byteOffset)).way.getLast? with
        | none =>
          rw [hfound] at hinner
          refine hhere fun c'' hc'' _ => ?_
          obtain rfl := DINode.compositeType.inj (hc'.symm.trans hc'')
          rintro ⟨e', he', d', hd', hfield', hcontains'⟩
          rw [hinner e' he' d' hd' hfield'] at hcontains'
          cases hcontains'
        | some m =>
          rw [hfound] at hinner
          exact .inside hn hmem he hd hcontains hbase hc' hrecord hinner

lemma finds_elements {n : ι} {c : DICompositeType ι} (hn : G.node n = .compositeType c) {B : ℕ}
    {lo hi : ℕ} {es : List ι} (hfields : G.Fields lo hi es) {fuel : ℕ} {visited : Finset ι}
    {ws : List (Walk ι)} (hsub : ∀ e ∈ es, e ∈ c.elements)
    (hws : List.Forall₂ (fun n w => G.walk fuel visited n = some w) es ws)
    (hrecords : ∀ t c', G.Nests n t → G.node t = .compositeType c' → ∀ fuel w B,
      G.walk fuel visited t = some w → G.Finds b B t c'.elements (w.search b B).way.getLast?) :
    G.Finds b B n es (searchElements b B ws).way.getLast? := by
  induction hfields generalizing ws with
  | nil =>
    cases hws
    simp [searchElements, DIGraph.Finds]
  | @method _ _ e es he _ ih =>
    cases hws with
    | cons hw hws =>
      cases fuel with
      | zero => cases hw
      | succ fuel =>
        simp only [DIGraph.walk, he, Option.some.injEq] at hw
        subst hw
        have hrest := ih (fun e he => hsub e (by simp [he])) hws
        rw [searchElements]
        · refine hrest.cons fun d hd => ?_
          rw [he] at hd
          cases hd
        · simp
  | @field _ _ e t es d he hd hbase htype hlo hhi _ ih =>
    cases hws with
    | cons hw hws =>
      cases fuel with
      | zero => cases hw
      | succ fuel =>
        obtain ⟨type, rfl, htw⟩ := DIGraph.walk_derived he hw
        rw [hbase] at htw
        cases hcontains : d.contains B b with
        | false =>
          have hrest := ih (fun e he => hsub e (by simp [he])) hws
          rw [searchElements, hcontains, Bool.and_false, if_neg (by decide)]
          refine hrest.cons fun d' hd' _ => ?_
          obtain rfl := DINode.derivedType.inj (he.symm.trans hd')
          exact hcontains
        | true =>
          apply finds_field hn (hsub e (by simp)) he hd hbase hcontains htype htw.of_some
          intro c' hnests hc'
          exact hrecords t c' hnests hc' fuel type _ htw.of_some

/-- The search finds what the layout says. -/
theorem DIGraph.LaidOut.finds {n : ι} (h : G.LaidOut n) {fuel : ℕ} {visited : Finset ι}
    {c : DICompositeType ι} {w : Walk ι} (hvisited : G.Around visited n)
    (hn : G.node n = .compositeType c) (hw : G.walk fuel visited n = some w) (B : ℕ) :
    G.Finds b B n c.elements (w.search b B).way.getLast? := by
  have hself := h.not_nests_self
  induction h generalizing fuel visited c w B with
  | record hn' hrecord hbase hfields hnested ih =>
    next n c' =>
    obtain rfl := DINode.compositeType.inj (hn.symm.trans hn')
    cases fuel with
    | zero => cases hw
    | succ fuel =>
      have hmem : n ∉ visited := fun hmem => hself (hvisited n hmem).1
      obtain ⟨_, ws, rfl, hwbase, hws⟩ :=
        DIGraph.walk_composite hn (DICompositeType.tag_ne_arrayType hrecord) hmem hw
      rw [hbase] at hwbase
      cases hwbase
      refine finds_elements hn hfields (fun _ he => he) hws ?_
      intro t c' hnests hc' fuel' w' B' hw'
      refine ih t hnests ?_ hc' hw' B' (hnested t hnests).not_nests_self
      intro v hv
      rcases Finset.mem_insert.mp hv with rfl | hv
      · exact ⟨.single hnests, c, hn, hrecord⟩
      · exact ⟨(hvisited v hv).1.tail hnests, (hvisited v hv).2⟩

end Spec

end Dimeta
