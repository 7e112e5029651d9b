import Dimeta.Dataflow.Paths
import Dimeta.Dataflow.Targets
import Dimeta.Dataflow.Shapes
import Dimeta.TypeFor.Anchors

/-!
# What the dataflow queries find

The queries are searches whose answers depend on values only, so what they collect is told by
reachability: backward along the pointers that an access goes through, forward along the users that
an allocation is handed to. A query that cancels finds one of the values that it looks for if and
only if one is reachable.
-/

set_option autoImplicit false

namespace Dimeta

open Relation

/-! ### Searches that collect or cancel -/

namespace DefUseChain

variable {ν σ : Type*} [DecidableEq ν]

/-- A search whose callbacks answer as those of a value-determined search on the paths from the
start. -/
lemma doTraverse_eq_ofValues [Fintype ν] {f : Search ν σ} {answer : ν → ν → MatchResult}
    {effect : ValuePath ν → σ → σ} {dir : ν → Option (List ν)} {start : ν}
    (hmatch : ∀ p st v, p.startValue = some start → p.value = some v →
      f.matchFn p st = (answer start v, effect p st))
    (hshould : ∀ p st, f.shouldSearch p st = (true, st))
    (hsearch : ∀ p st v, p.value = some v → f.search p st = (dir v, st)) (st : σ) :
    doTraverse f start st = doTraverse (.ofValues answer effect dir) start st := by
  refine loop_congr (P := FromStart start) ?_ (fun c c' hc h => hc.iterate h) _
    (fromStart_init start st)
  intro c hc
  rw [DefUseChain.iterate, DefUseChain.iterate]
  cases hw : c.workingSet with
  | nil => rfl
  | cons user rest =>
    obtain ⟨hstart, hvalue⟩ := hc user (by simp [hw])
    obtain ⟨v, hv⟩ := Option.ne_none_iff_exists'.mp hvalue
    simp only [hv, hmatch user c.callback v hstart hv, Search.ofValues, hstart]
    cases answer start v with
    | kContinue => simp [applySearchDirection, hshould, hsearch user _ v hv, hv]
    | kCancel => rfl
    | kSkip => rfl

/-- The effect of a match callback that collects some of the paths. -/
def collecting (collects : ValuePath ν → Bool) (p : ValuePath ν) (paths : List (ValuePath ν)) :
    List (ValuePath ν) :=
  if collects p then paths ++ [p] else paths

omit [DecidableEq ν] in
lemma foldl_collecting (collects : ValuePath ν → Bool) (log paths : List (ValuePath ν)) :
    log.foldl (fun st p => collecting collects p st) paths = paths ++ log.filter collects := by
  induction log generalizing paths with
  | nil => simp
  | cons p log ih =>
    rw [List.foldl_cons, ih, collecting]
    split_ifs with hp
    · rw [List.filter_cons_of_pos hp, List.append_assoc, List.singleton_append]
    · rw [List.filter_cons_of_neg hp]

/-- All calls are made along genuine paths; all reachable values are matched, unless the search was
cancelled at one that was. -/
lemma matchCalls_ofValues_cases [Fintype ν] (answer : ν → ν → MatchResult)
    (effect : ValuePath ν → σ → σ) (dir : ν → Option (List ν)) (start : ν) (st : σ) :
    (∀ p ∈ matchCalls (.ofValues answer effect dir) start st,
        ∃ v, GenuinePath (SearchEdge (answer start) dir) start v p) ∧
      ((∀ v, ReflTransGen (SearchEdge (answer start) dir) start v →
          ∃ p ∈ matchCalls (.ofValues answer effect dir) start st, p.value = some v) ∨
        ∃ p ∈ matchCalls (.ofValues answer effect dir) start st, ∃ v, p.value = some v ∧
          answer start v = .kCancel) := by
  refine loop_induction (P := ExploreInv (SearchEdge (answer start) dir) start)
    (Q := fun log => (∀ p ∈ log.1, ∃ v, GenuinePath (SearchEdge (answer start) dir) start v p) ∧
      ((∀ v, ReflTransGen (SearchEdge (answer start) dir) start v →
          ∃ p ∈ log.1, p.value = some v) ∨
        ∃ p ∈ log.1, ∃ v, p.value = some v ∧ answer start v = .kCancel))
    (fun c c' hinv h => hinv.iterate h) ?_ _ (exploreInv_init _ start st)
  intro c log hinv hdone
  rcases iterate_logged_done hdone with ⟨hempty, rfl⟩ | ⟨user, rest, hw, hlog, hcancel⟩
  · refine ⟨hinv.matched, .inl fun v hreach => ?_⟩
    rw [← hinv.seen_iff]
    induction hreach with
    | refl => simpa [hempty] using hinv.start_mem
    | tail _ hab ih => simpa [hempty] using hinv.closed _ ih _ hab
  · obtain ⟨v, hgen⟩ := hinv.pending user (by simp [hw])
    rw [hlog]
    refine ⟨fun p hp => ?_, .inr ⟨user, by simp, v, hgen.value, ?_⟩⟩
    · rcases List.mem_append.mp hp with hp | hp
      · exact hinv.matched p hp
      · obtain rfl : p = user := by simpa using hp
        exact ⟨v, hgen⟩
    · simpa [Search.ofValues, hgen.startValue, hgen.value] using hcancel

variable {answer : ν → ν → MatchResult} {effect : ValuePath ν → σ → σ} {dir : ν → Option (List ν)}
  {start : ν} {st : σ}

lemma exists_genuinePath [Fintype ν] {p : ValuePath ν}
    (hp : p ∈ matchCalls (.ofValues answer effect dir) start st) :
    ∃ v, GenuinePath (SearchEdge (answer start) dir) start v p :=
  (matchCalls_ofValues_cases answer effect dir start st).1 p hp

lemma reachable_of_mem_matchCalls [Fintype ν] {p : ValuePath ν} {v : ν}
    (hp : p ∈ matchCalls (.ofValues answer effect dir) start st) (hv : p.value = some v) :
    ReflTransGen (SearchEdge (answer start) dir) start v := by
  obtain ⟨w, hgen⟩ := exists_genuinePath hp
  obtain rfl : w = v := Option.some.inj (hgen.value.symm.trans hv)
  exact hgen.reachable

/-- A value that is reachable is matched, if no reachable value cancels the search. -/
lemma exists_mem_matchCalls [Fintype ν]
    (hcancel : ∀ v, ReflTransGen (SearchEdge (answer start) dir) start v →
      answer start v ≠ .kCancel) {v : ν}
    (hreach : ReflTransGen (SearchEdge (answer start) dir) start v) :
    ∃ p ∈ matchCalls (.ofValues answer effect dir) start st, p.value = some v := by
  rcases (matchCalls_ofValues_cases answer effect dir start st).2 with
    hall | ⟨p, hp, w, hw, hanswer⟩
  · exact hall v hreach
  · exact absurd hanswer (hcancel w (reachable_of_mem_matchCalls hp hw))

/-- A search is cancelled if and only if a reachable value cancels it. -/
lemma cancelled_iff_reachable [Fintype ν] :
    (∃ p ∈ matchCalls (.ofValues answer effect dir) start st, ∃ v, p.value = some v ∧
        answer start v = .kCancel) ↔
      ∃ v, ReflTransGen (SearchEdge (answer start) dir) start v ∧ answer start v = .kCancel := by
  constructor
  · rintro ⟨p, hp, v, hv, hanswer⟩
    exact ⟨v, reachable_of_mem_matchCalls hp hv, hanswer⟩
  · rintro ⟨v, hreach, hanswer⟩
    rcases (matchCalls_ofValues_cases answer effect dir start st).2 with hall | hcancelled
    · obtain ⟨p, hp, hv⟩ := hall v hreach
      exact ⟨p, hp, v, hv, hanswer⟩
    · exact hcancelled

/-- The paths that a value-determined search matches repeat no value. -/
lemma nodup_of_mem_matchCalls [Fintype ν] {p : ValuePath ν}
    (hp : p ∈ matchCalls (.ofValues answer effect dir) start st) : p.pathToValue.Nodup := by
  obtain ⟨before, after, hsplit⟩ := List.append_of_mem hp
  exact (grown_matchCalls _ start st before p after hsplit).nodup

end DefUseChain

namespace IRModule

variable {ι ν : Type} [DecidableEq ν] (M : IRModule ι ν)

/-! ### Fortran runtime calls -/

/-- A call of a Fortran runtime function other than the one that prints text. -/
def isFortranHelperCall (v : ν) : Bool :=
  match M.value v with
  | .call _ callee _ _ =>
    match callee.calledFunction with
    | none   => false
    | some f => startsWithAnyOf f.name ["_FortranA"] && f.name != "_FortranAioOutputAscii"
  | _ => false

/-- `fortran::passed_to_fortran_helper` -/
def passedToFortranHelper [Fintype ν] (start : ν) : Bool :=
  DefUseChain.traverse M.users start
    (fun path passed =>
      if path.value.any M.isFortranHelperCall then (.kCancel, true) else (.kContinue, passed))
    (fun _ st => (true, st)) false

/-- The users of values, as a relation. -/
def Uses (v user : ν) : Prop := user ∈ M.users v

def helperAnswer (_ v : ν) : MatchResult := if M.isFortranHelperCall v then .kCancel else .kContinue

omit [DecidableEq ν] in
/-- Up to the first helper call the search follows all users. -/
lemma exists_helper_of_uses {start u : ν} (h : ReflTransGen M.Uses start u)
    (hu : M.isFortranHelperCall u = true) :
    ∃ v, ReflTransGen (SearchEdge (M.helperAnswer start) fun v => some (M.users v)) start v ∧
      M.helperAnswer start v = .kCancel := by
  have hanswer : ∀ v, M.isFortranHelperCall v = true → M.helperAnswer start v = .kCancel :=
    fun v hv => if_pos hv
  have hhead : ∀ a, ReflTransGen M.Uses a u →
      ∃ v, ReflTransGen (SearchEdge (M.helperAnswer start) fun v => some (M.users v)) a v ∧
        M.helperAnswer start v = .kCancel := by
    intro a ha
    induction ha using ReflTransGen.head_induction_on with
    | refl => exact ⟨u, .refl, hanswer u hu⟩
    | @head a b hab _ ih =>
      by_cases hhelper : M.isFortranHelperCall a = true
      · exact ⟨a, .refl, hanswer a hhelper⟩
      · obtain ⟨v, hbv, hv⟩ := ih
        exact ⟨v, .head ⟨if_neg hhelper, _, rfl, hab⟩ hbv, hv⟩
  exact hhead start h

/-- A value is passed to a Fortran runtime function if and only if one of the calls among its
users, their users and so on is a call of one. -/
theorem passed_to_helper_iff [Fintype ν] (start : ν) :
    M.passedToFortranHelper start = true ↔
      ∃ call, ReflTransGen M.Uses start call ∧ M.isFortranHelperCall call = true := by
  have hvalues : M.passedToFortranHelper start = DefUseChain.doTraverse
      (.ofValues M.helperAnswer (fun p passed => p.value.any M.isFortranHelperCall || passed)
        fun v => some (M.users v)) start false := by
    refine DefUseChain.doTraverse_eq_ofValues (fun p st v _ hv => ?_) (fun _ _ => rfl)
      (fun p st v hv => by simp [hv]) false
    by_cases hhelper : M.isFortranHelperCall v = true <;>
      simp [hv, hhelper, helperAnswer]
  have hany : ∀ (log : List (ValuePath ν)) (passed : Bool),
      log.foldl (fun st p => p.value.any M.isFortranHelperCall || st) passed =
        (passed || log.any fun p => p.value.any M.isFortranHelperCall) := by
    intro log
    induction log with
    | nil => simp
    | cons p log ih =>
      intro passed
      rw [List.foldl_cons, ih, List.any_cons]
      cases passed <;> simp
  rw [hvalues, DefUseChain.ofValues_eq_foldl, hany, Bool.false_or, List.any_eq_true]
  have hcancel : ∀ v, M.helperAnswer start v = .kCancel ↔ M.isFortranHelperCall v = true := by
    intro v
    rw [helperAnswer]
    split_ifs with h <;> simp [h]
  constructor
  · rintro ⟨p, hp, hhelper⟩
    obtain ⟨v, hv, hhelper⟩ := (Option.any_eq_true _ _).mp hhelper
    refine ⟨v, ?_, hhelper⟩
    refine ReflTransGen.mono ?_ _ _ (DefUseChain.reachable_of_mem_matchCalls hp hv)
    rintro a b ⟨-, vals, hvals, hb⟩
    cases hvals
    exact hb
  · rintro ⟨call, hreach, hhelper⟩
    obtain ⟨p, hp, v, hv, hanswer⟩ :=
      DefUseChain.cancelled_iff_reachable.mpr (M.exists_helper_of_uses hreach hhelper)
    exact ⟨p, hp, by simp [hv, (hcancel v).mp hanswer]⟩

/-! ### Backward -/

/-- One step back from an access or an address to the pointer that it goes through. -/
@[mk_iff]
inductive PointerFlow : ν → ν → Prop
  | store {v value pointer : ν} : M.value v = .store value pointer → PointerFlow v pointer
  | load {v pointer : ν} : M.value v = .load pointer → PointerFlow v pointer
  | gep {v : ν} {gep : GEPOperator ν} : (M.value v).gepOperator = some gep →
      PointerFlow v gep.pointerOperand
  | bitCast {v value : ν} : M.value v = .bitCast value → PointerFlow v value
  | constantBitCast {v value : ν} : M.value v = .constantBitCast value → PointerFlow v value
  | sext {v value : ν} : M.value v = .sext value → PointerFlow v value
  | phi {v value : ν} {incoming : List ν} : M.value v = .phi incoming → value ∈ incoming →
      PointerFlow v value
  | memcpy {v dest : ν} {callee : Callee ι ν} {args : List ν} {heapallocsite : Option ι} :
      M.value v = .call .call callee (dest :: args) heapallocsite → (M.value v).isMemCpy = true →
      PointerFlow v dest

/-- Values that have a declared type: allocas, arguments, globals, and calls of functions. -/
def isTarget (v : ν) : Bool :=
  !(M.value v).isIntrinsicInst && ((M.value v).isAlloca || (M.value v).isArgument ||
    (M.value v).isGlobalVariable || (M.value v).isCallBase)

def targetAnswer (_ v : ν) : MatchResult :=
  if (M.value v).isIntrinsicInst then if (M.value v).isMemCpy then .kContinue else .kSkip
  else if M.isTarget v then .kSkip else .kContinue

def endsInTarget (p : ValuePath ν) : Bool := p.value.any M.isTarget

omit [DecidableEq ν] in
/-- The target matcher looks at the current value only. -/
lemma mallocTargetMatcher_eq {p : ValuePath ν} {v : ν} (start : ν) (hv : p.value = some v)
    (paths : List (ValuePath ν)) : M.mallocTargetMatcher p paths =
      (M.targetAnswer start v, DefUseChain.collecting M.endsInTarget p paths) := by
  cases hvalue : M.value v with
  | call opcode callee args heapallocsite =>
    cases callee with
    | intrinsic id =>
      cases opcode <;> cases id <;>
        simp [mallocTargetMatcher, targetAnswer, DefUseChain.collecting, endsInTarget, isTarget, hv,
          hvalue, LLValue.isIntrinsicInst, LLValue.isMemCpy, LLValue.isCallBase]
    | _ =>
      simp [mallocTargetMatcher, targetAnswer, DefUseChain.collecting, endsInTarget, isTarget, hv,
        hvalue, LLValue.isIntrinsicInst, LLValue.isCallBase]
  | _ =>
    simp [mallocTargetMatcher, targetAnswer, DefUseChain.collecting, endsInTarget, isTarget, hv,
      hvalue, LLValue.isIntrinsicInst, LLValue.isAlloca, LLValue.isArgument,
      LLValue.isGlobalVariable, LLValue.isCallBase]

/-- The values that the backward search leads to. -/
def backDir (v : ν) : Option (List ν) := M.mallocBacktrackSearch (.ofStart v)

omit [DecidableEq ν] in
/-- The search leads back exactly along the pointers. -/
lemma backEdge_iff (start v w : ν) :
    SearchEdge (M.targetAnswer start) M.backDir v w ↔ M.PointerFlow v w := by
  rw [pointerFlow_iff, SearchEdge]
  cases hvalue : M.value v with
  | call opcode callee args heapallocsite =>
    cases callee with
    | intrinsic id =>
      cases opcode <;> cases id <;> cases args <;>
        simp [targetAnswer, isTarget, backDir, mallocBacktrackSearch, hvalue,
          LLValue.isIntrinsicInst, LLValue.isMemCpy, LLValue.gepOperator, LLValue.isCallBase,
          eq_comm]
    | _ =>
      cases opcode <;>
        simp [targetAnswer, isTarget, backDir, mallocBacktrackSearch, hvalue,
          LLValue.isIntrinsicInst, LLValue.isMemCpy, LLValue.gepOperator, LLValue.isCallBase]
  | _ =>
    simp [targetAnswer, isTarget, backDir, mallocBacktrackSearch, hvalue, LLValue.isIntrinsicInst,
      LLValue.isAlloca, LLValue.isArgument, LLValue.isGlobalVariable, LLValue.isCallBase,
      LLValue.gepOperator, LLValue.isMemCpy, eq_comm]

/-- The searches of the targets: the calls of the target matcher. -/
def targetCalls [Fintype ν] (start : ν) : List (ValuePath ν) :=
  DefUseChain.matchCalls
    (.ofValues M.targetAnswer (DefUseChain.collecting M.endsInTarget) M.backDir) start []

lemma backtrack_eq_filter [Fintype ν] (start : ν) :
    M.backtrack start [] = (M.targetCalls start).filter M.endsInTarget := by
  have hvalues := DefUseChain.doTraverse_eq_ofValues (f := ⟨M.mallocTargetMatcher,
      fun _ st => (true, st), fun path st => (M.mallocBacktrackSearch path, st)⟩)
    (fun p st v _ hv => M.mallocTargetMatcher_eq start hv st) (fun _ _ => rfl)
    (fun p st v hv => show _ = (M.backDir v, st) by simp [mallocBacktrackSearch, backDir, hv]) []
  rw [DefUseChain.ofValues_eq_foldl, DefUseChain.foldl_collecting, List.nil_append] at hvalues
  exact hvalues

/-- What the backward search finds from a value. -/
structure FindsTargets [Fintype ν] (start : ν) (paths : List (ValuePath ν)) : Prop where
  found_iff : ∀ v, (∃ p ∈ paths, p.value = some v) ↔
    M.isTarget v = true ∧ ReflTransGen M.PointerFlow start v
  genuine : ∀ p ∈ paths, ∃ v, GenuinePath M.PointerFlow start v p
  nodup : ∀ p ∈ paths, p.pathToValue.Nodup

lemma findsTargets_backtrack [Fintype ν] (start : ν) :
    M.FindsTargets start (M.backtrack start []) := by
  have hedges : SearchEdge (M.targetAnswer start) M.backDir = M.PointerFlow := by
    funext v w
    exact propext (M.backEdge_iff start v w)
  have hnever : ∀ v, M.targetAnswer start v ≠ .kCancel := by
    intro v
    rw [targetAnswer]
    split_ifs <;> simp
  rw [backtrack_eq_filter]
  refine ⟨fun v => ?_, fun p hp => ?_, fun p hp => ?_⟩
  · constructor
    · rintro ⟨p, hp, hv⟩
      obtain ⟨hcall, htarget⟩ := List.mem_filter.mp hp
      have hreach := DefUseChain.reachable_of_mem_matchCalls hcall hv
      rw [hedges] at hreach
      exact ⟨by simpa [endsInTarget, hv] using htarget, hreach⟩
    · rintro ⟨htarget, hreach⟩
      rw [← hedges] at hreach
      obtain ⟨p, hp, hv⟩ := DefUseChain.exists_mem_matchCalls (fun v _ => hnever v) hreach
      exact ⟨p, List.mem_filter.mpr ⟨hp, by simpa [endsInTarget, hv] using htarget⟩, hv⟩
  · have hgen := DefUseChain.exists_genuinePath (List.mem_of_mem_filter hp)
    rwa [hedges] at hgen
  · exact DefUseChain.nodup_of_mem_matchCalls (List.mem_of_mem_filter hp)

/-- The paths from a value end in exactly the allocas, arguments, globals and calls that its pointer
comes from, and each of them follows the pointers without going in circles. -/
theorem path_from_value_targets [Fintype ν] (start : ν) :
    M.FindsTargets start (M.pathFromValue start) :=
  M.findsTargets_backtrack start

/-! ### Forward -/

def isReturn (v : ν) : Bool :=
  match M.value v with
  | .ret _ _ => true
  | _        => false

/-- A value whose users get the allocation from it. -/
def passesOn (v : ν) : Bool :=
  !(M.value v).isIntrinsicInst &&
    match M.value v with
    | .alloca | .load _ | .bitCast _ | .sext _ | .phi _ | .call _ _ _ _ | .instruction _ => true
    | _ => false

/-- Memory is copied to or from the pointer. -/
def isCopied (pointer : ν) : Bool := (M.users pointer).any fun user => (M.value user).isMemIntrinsic

/-- One step forward from an allocation: to the users of a value, or of a slot that the allocation
is stored in and that is copied. -/
@[mk_iff]
inductive UseFlow (call : ν) : ν → ν → Prop
  | slot {v value pointer user : ν} : M.value v = .store value pointer → pointer ≠ call →
      M.isCopied pointer = true → user ∈ M.users pointer → UseFlow call v user
  | user {v user : ν} : M.passesOn v = true → user ∈ M.users v → UseFlow call v user

/-- The target of the value is looked for backward: a store to a slot that is not copied, or a
copy. -/
def isBacktracked (call v : ν) : Bool :=
  (M.value v).isMemIntrinsic ||
    match M.value v with
    | .store _ pointer => pointer ≠ call && !M.isCopied pointer
    | _                => false

/-- The allocation is returned or passed to a function. -/
def isHandedOn (call v : ν) : Bool :=
  M.isReturn v || ((M.value v).isCallBase && !(M.value v).isIntrinsicInst && v ≠ call)

def anchorAnswer (start v : ν) : MatchResult :=
  if M.isReturn v then .kCancel
  else if M.passesOn v then .kContinue
  else match M.value v with
    | .store _ pointer => if pointer ≠ start && M.isCopied pointer then .kContinue else .kSkip
    | _                => .kSkip

/-- The paths that the anchor matcher collects. -/
def endsInAnchor (start : ν) (p : ValuePath ν) : Bool :=
  p.value.any fun v => M.isBacktracked start v || M.isReturn v ||
    ((M.value v).isCallBase && !(M.value v).isIntrinsicInst && !p.onlyStart)

omit [DecidableEq ν] in
lemma exists_of_isIntrinsicInst {v : ν} (h : (M.value v).isIntrinsicInst = true) :
    ∃ id args heapallocsite, M.value v = .call .call (.intrinsic id) args heapallocsite := by
  cases hvalue : M.value v with
  | call opcode callee args heapallocsite =>
    cases callee with
    | intrinsic id =>
      cases opcode with
      | call => exact ⟨id, args, heapallocsite, rfl⟩
      | _ => simp [hvalue, LLValue.isIntrinsicInst] at h
    | _ => simp [hvalue, LLValue.isIntrinsicInst] at h
  | _ => simp [hvalue, LLValue.isIntrinsicInst] at h

/-- The anchor matcher looks at the start and the current value, and at whether they are all of the
path. -/
lemma mallocAnchorMatcher_eq {p : ValuePath ν} {start v : ν} (hstart : p.startValue = some start)
    (hv : p.value = some v) (anchors : List (ValuePath ν)) : M.mallocAnchorMatcher p anchors =
      (M.anchorAnswer start v, DefUseChain.collecting (M.endsInAnchor start) p anchors) := by
  by_cases hintrinsic : (M.value v).isIntrinsicInst = true
  · obtain ⟨id, args, heapallocsite, hvalue⟩ := M.exists_of_isIntrinsicInst hintrinsic
    rw [hvalue] at hintrinsic
    cases hmem : (M.value v).isMemIntrinsic <;> rw [hvalue] at hmem <;>
      simp [mallocAnchorMatcher, anchorAnswer, DefUseChain.collecting, endsInAnchor, isReturn,
        passesOn, isBacktracked, hv, hvalue, hintrinsic, hmem, LLValue.isInstruction]
  · have hmem : (M.value v).isMemIntrinsic = false := by
      by_contra hmem
      exact hintrinsic (LLValue.isIntrinsicInst_of_isMemIntrinsic (by simpa using hmem))
    cases hvalue : M.value v with
    | call opcode callee args heapallocsite =>
      rw [hvalue] at hintrinsic hmem
      cases honly : p.onlyStart <;>
        simp [mallocAnchorMatcher, anchorAnswer, DefUseChain.collecting, endsInAnchor, isReturn,
          passesOn, isBacktracked, hv, hvalue, honly, hintrinsic, hmem, LLValue.isInstruction,
          LLValue.isCallBase]
    | store value pointer =>
      rw [hvalue] at hmem
      have hcopied : ((M.users pointer).any fun user => (M.value user).isMemIntrinsic) =
        M.isCopied pointer := rfl
      rcases eq_or_ne pointer start with rfl | hpointer
      · simp [mallocAnchorMatcher, anchorAnswer, DefUseChain.collecting, endsInAnchor, isReturn,
          passesOn, isBacktracked, hv, hvalue, hstart, hmem, LLValue.isInstruction,
          LLValue.isIntrinsicInst, LLValue.isCallBase]
      · cases h : M.isCopied pointer <;>
          simp [mallocAnchorMatcher, anchorAnswer, DefUseChain.collecting, endsInAnchor, isReturn,
            passesOn, isBacktracked, hv, hvalue, hstart, hpointer, hmem, hcopied, h,
            LLValue.isInstruction, LLValue.isIntrinsicInst, LLValue.isCallBase]
    | _ =>
      simp [mallocAnchorMatcher, anchorAnswer, DefUseChain.collecting, endsInAnchor, isReturn,
        passesOn, isBacktracked, hv, hvalue, LLValue.isInstruction, LLValue.isIntrinsicInst,
        LLValue.isMemIntrinsic, LLValue.isCallBase]

def useDir (v : ν) : Option (List ν) := M.heapCallSearch (.ofStart v)

lemma useEdge_iff (call v w : ν) :
    SearchEdge (M.anchorAnswer call) M.useDir v w ↔ M.UseFlow call v w := by
  rw [useFlow_iff, SearchEdge]
  cases hvalue : M.value v with
  | store value pointer =>
    simp [anchorAnswer, isReturn, passesOn, useDir, heapCallSearch, hvalue,
      LLValue.isIntrinsicInst, and_assoc]
  | _ =>
    simp [anchorAnswer, isReturn, passesOn, useDir, heapCallSearch, hvalue,
      LLValue.isIntrinsicInst]

lemma useEdge_eq (call : ν) : SearchEdge (M.anchorAnswer call) M.useDir = M.UseFlow call := by
  funext v w
  exact propext (M.useEdge_iff call v w)

section Anchors

variable [Fintype ν]

/-- The calls of the anchor matcher from an allocation. -/
def anchorCalls (call : ν) : List (ValuePath ν) :=
  DefUseChain.matchCalls
    (.ofValues M.anchorAnswer (DefUseChain.collecting (M.endsInAnchor call)) M.useDir) call []

lemma forwardAnchors_eq_filter (call : ν) :
    M.forwardAnchors call = (M.anchorCalls call).filter (M.endsInAnchor call) := by
  have hvalues := DefUseChain.doTraverse_eq_ofValues (f := ⟨M.mallocAnchorMatcher,
      fun _ st => (true, st), fun path st => (M.heapCallSearch path, st)⟩)
    (fun p st v (hstart : _ = some call) hv => M.mallocAnchorMatcher_eq hstart hv st)
    (fun _ _ => rfl)
    (fun p st v hv => show _ = (M.useDir v, st) by simp [heapCallSearch, useDir, hv]) []
  rw [DefUseChain.ofValues_eq_foldl, DefUseChain.foldl_collecting, List.nil_append] at hvalues
  exact hvalues

/-- A path of the search is its start only if it ends in it. -/
lemma onlyStart_iff {call v : ν} {p : ValuePath ν} (hp : p ∈ M.anchorCalls call)
    (hv : p.value = some v) : p.onlyStart = true ↔ v = call := by
  obtain ⟨w, hgen⟩ := DefUseChain.exists_genuinePath hp
  have hnodup := DefUseChain.nodup_of_mem_matchCalls hp
  have hstart := hgen.startValue
  obtain ⟨l⟩ := p
  simp only [ValuePath.startValue, ValuePath.value, ValuePath.onlyStart, beq_iff_eq] at hv hstart ⊢
  cases l with
  | nil => cases hv
  | cons a l =>
    obtain rfl : a = call := by simpa using hstart
    cases l with
    | nil => simpa [eq_comm] using hv
    | cons b l =>
      refine iff_of_false (by simp) ?_
      rintro rfl
      rw [List.getLast?_cons_cons] at hv
      exact (List.nodup_cons.mp hnodup).1 (List.mem_of_getLast? hv)

/-- The anchors are the matched paths to values that are backtracked from or handed on. -/
lemma mem_forwardAnchors {call v : ν} {p : ValuePath ν} (hv : p.value = some v) :
    p ∈ M.forwardAnchors call ↔
      p ∈ M.anchorCalls call ∧ (M.isBacktracked call v = true ∨ M.isHandedOn call v = true) := by
  rw [forwardAnchors_eq_filter, List.mem_filter]
  refine and_congr_right fun hp => ?_
  have honly : (!p.onlyStart) = decide (v ≠ call) := by
    rw [Bool.eq_iff_iff, Bool.not_eq_true', Bool.eq_false_iff, ne_eq, M.onlyStart_iff hp hv,
      decide_eq_true_eq]
  simp only [endsInAnchor, isHandedOn, hv, Option.any_some, honly, Bool.or_eq_true]
  tauto

/-- What an anchor contributes. -/
lemma freshPaths_eq {call v : ν} {p : ValuePath ν} (hv : p.value = some v)
    (hanchor : M.isBacktracked call v = true ∨ M.isHandedOn call v = true) :
    M.freshPaths call p = if M.isBacktracked call v then M.backtrack v [] else [p] := by
  simp only [freshPaths, hv]
  cases hvalue : M.value v with
  | store value pointer =>
    have hback : M.isBacktracked call v = true := by
      refine hanchor.resolve_right ?_
      simp [isHandedOn, isReturn, hvalue, LLValue.isCallBase]
    rw [if_pos hback]
    have hpointer : pointer ≠ call := by
      simp only [isBacktracked, hvalue, LLValue.isMemIntrinsic, Bool.false_or, Bool.and_eq_true,
        decide_eq_true_eq] at hback
      exact hback.1
    simp [hpointer]
  | _ => simp [isBacktracked, hvalue]

omit [Fintype ν] in
/-- A value that is backtracked from is neither returned nor passed on. -/
lemma isHandedOn_eq_false {call v : ν} (h : M.isBacktracked call v = true) :
    M.isHandedOn call v = false := by
  cases hvalue : M.value v with
  | call opcode callee args heapallocsite =>
    have hmem : (M.value v).isMemIntrinsic = true := by simpa [isBacktracked, hvalue] using h
    have hintrinsic := LLValue.isIntrinsicInst_of_isMemIntrinsic hmem
    rw [hvalue] at hintrinsic
    simp [isHandedOn, isReturn, hintrinsic, hvalue]
  | ret parent returnValue => simp [isBacktracked, hvalue, LLValue.isMemIntrinsic] at h
  | _ => simp [isHandedOn, isReturn, hvalue, LLValue.isCallBase]

/-- The paths of all anchors. -/
lemma mem_typeForHeapCall {call : ν} {p : ValuePath ν} :
    p ∈ M.typeForHeapCall call ↔ ∃ q ∈ M.anchorCalls call, ∃ v, q.value = some v ∧
      ((M.isBacktracked call v = true ∧ p ∈ M.backtrack v []) ∨
        (M.isHandedOn call v = true ∧ p = q)) := by
  have hinv := IRModule.sharedInv_pathsOfAnchors (M := M) call (M.forwardAnchors call)
  rw [show p ∈ M.typeForHeapCall call ↔ _ from hinv.mem p, List.mem_flatMap]
  constructor
  · rintro ⟨q, hq, hp⟩
    have hcall : q ∈ M.anchorCalls call := by
      rw [forwardAnchors_eq_filter] at hq
      exact List.mem_of_mem_filter hq
    obtain ⟨v, hgen⟩ := DefUseChain.exists_genuinePath hcall
    have hanchor := ((M.mem_forwardAnchors hgen.value).mp hq).2
    rw [M.freshPaths_eq hgen.value hanchor] at hp
    refine ⟨q, hcall, v, hgen.value, ?_⟩
    split_ifs at hp with hback
    · exact .inl ⟨hback, hp⟩
    · exact .inr ⟨hanchor.resolve_left hback, List.mem_singleton.mp hp⟩
  · rintro ⟨q, hcall, v, hv, hp⟩
    have hanchor : M.isBacktracked call v = true ∨ M.isHandedOn call v = true :=
      hp.imp And.left And.left
    refine ⟨q, (M.mem_forwardAnchors hv).mpr ⟨hcall, hanchor⟩, ?_⟩
    rw [M.freshPaths_eq hv hanchor]
    rcases hp with ⟨hback, hp⟩ | ⟨hhanded, rfl⟩
    · rwa [if_pos hback]
    · have hback : ¬ M.isBacktracked call v = true := by
        intro hback
        rw [M.isHandedOn_eq_false hback] at hhanded
        cases hhanded
      rw [if_neg hback]
      exact List.mem_singleton_self p

/-- How the search for an allocation goes on from a value that it reaches: the value is handed on,
or a target is found backward from it. -/
def LeadsTo (call v target : ν) : Prop :=
  (M.isHandedOn call v = true ∧ target = v) ∨
    (M.isBacktracked call v = true ∧ M.isTarget target = true ∧
      ReflTransGen M.PointerFlow v target)

/-- The paths for an allocation. -/
structure FindsAllocation (call : ν) (paths : List (ValuePath ν)) : Prop where
  genuine : ∀ p ∈ paths, ∃ v, ReflTransGen (M.UseFlow call) call v ∧
    ((M.isHandedOn call v = true ∧ GenuinePath (M.UseFlow call) call v p) ∨
      (M.isBacktracked call v = true ∧ ∃ target, M.isTarget target = true ∧
        GenuinePath M.PointerFlow v target p))
  nodup : ∀ p ∈ paths, p.pathToValue.Nodup
  complete : (∀ v, ReflTransGen (M.UseFlow call) call v → M.isReturn v = false) →
    ∀ v target, ReflTransGen (M.UseFlow call) call v → M.LeadsTo call v target →
      ∃ p ∈ paths, p.value = some target
  returned_iff : (∃ p ∈ paths, ∃ v, p.value = some v ∧ M.isReturn v = true) ↔
    ∃ v, ReflTransGen (M.UseFlow call) call v ∧ M.isReturn v = true

omit [DecidableEq ν] [Fintype ν] in
lemma isReturn_eq_false_of_isTarget {v : ν} (h : M.isTarget v = true) : M.isReturn v = false := by
  cases hvalue : M.value v with
  | ret parent returnValue =>
    simp [isTarget, hvalue, LLValue.isAlloca, LLValue.isArgument, LLValue.isGlobalVariable,
      LLValue.isCallBase] at h
  | _ => simp [isReturn, hvalue]

omit [Fintype ν] in
lemma anchorAnswer_eq_kCancel_iff {call v : ν} :
    M.anchorAnswer call v = .kCancel ↔ M.isReturn v = true := by
  cases hvalue : M.value v with
  | _ =>
    simp only [anchorAnswer, isReturn, passesOn, hvalue]
    split_ifs <;> simp_all

lemma findsAllocation_typeForHeapCall (call : ν) :
    M.FindsAllocation call (M.typeForHeapCall call) := by
  have hreach : ∀ {p v}, p ∈ M.anchorCalls call → p.value = some v →
      ReflTransGen (M.UseFlow call) call v := by
    intro p v hp hv
    rw [← useEdge_eq]
    exact DefUseChain.reachable_of_mem_matchCalls hp hv
  refine ⟨fun p hp => ?_, fun p hp => ?_, fun hnone v target hv hleads => ?_, ?_⟩
  · obtain ⟨q, hq, v, hv, ⟨hback, hp⟩ | ⟨hhanded, rfl⟩⟩ := M.mem_typeForHeapCall.mp hp
    · have hfinds := M.findsTargets_backtrack v
      obtain ⟨target, hgen⟩ := hfinds.genuine p hp
      have htarget := ((hfinds.found_iff target).mp ⟨p, hp, hgen.value⟩).1
      exact ⟨v, hreach hq hv, .inr ⟨hback, target, htarget, hgen⟩⟩
    · obtain ⟨w, hgen⟩ := DefUseChain.exists_genuinePath hq
      obtain rfl : w = v := Option.some.inj (hgen.value.symm.trans hv)
      rw [useEdge_eq] at hgen
      exact ⟨w, hgen.reachable, .inl ⟨hhanded, hgen⟩⟩
  · obtain ⟨q, hq, v, hv, ⟨-, hp⟩ | ⟨-, rfl⟩⟩ := M.mem_typeForHeapCall.mp hp
    · exact (M.findsTargets_backtrack v).nodup p hp
    · exact DefUseChain.nodup_of_mem_matchCalls hq
  · obtain ⟨q, hq, hqv⟩ : ∃ q ∈ M.anchorCalls call, q.value = some v := by
      refine DefUseChain.exists_mem_matchCalls (fun w hw => ?_) ?_
      · rw [useEdge_eq] at hw
        rw [ne_eq, anchorAnswer_eq_kCancel_iff, hnone w hw]
        exact Bool.false_ne_true
      · rwa [useEdge_eq]
    rcases hleads with ⟨hhanded, rfl⟩ | ⟨hback, htarget, hflow⟩
    · exact ⟨q, M.mem_typeForHeapCall.mpr ⟨q, hq, target, hqv, .inr ⟨hhanded, rfl⟩⟩, hqv⟩
    · obtain ⟨p, hp, hpt⟩ := ((M.findsTargets_backtrack v).found_iff target).mpr ⟨htarget, hflow⟩
      exact ⟨p, M.mem_typeForHeapCall.mpr ⟨q, hq, v, hqv, .inl ⟨hback, hp⟩⟩, hpt⟩
  · constructor
    · rintro ⟨p, hp, w, hw, hreturn⟩
      obtain ⟨q, hq, v, hv, ⟨-, hp⟩ | ⟨-, rfl⟩⟩ := M.mem_typeForHeapCall.mp hp
      · have htarget := ((M.findsTargets_backtrack v).found_iff w).mp ⟨p, hp, hw⟩
        rw [M.isReturn_eq_false_of_isTarget htarget.1] at hreturn
        cases hreturn
      · exact ⟨w, hreach hq hw, hreturn⟩
    · rintro ⟨v, hv, hreturn⟩
      rw [← useEdge_eq] at hv
      obtain ⟨q, hq, w, hqw, hcancel⟩ := DefUseChain.cancelled_iff_reachable.mpr
        ⟨v, hv, M.anchorAnswer_eq_kCancel_iff.mpr hreturn⟩
      have hret := M.anchorAnswer_eq_kCancel_iff.mp hcancel
      have hhanded : M.isHandedOn call w = true := by rw [isHandedOn, hret, Bool.true_or]
      exact ⟨q, M.mem_typeForHeapCall.mpr ⟨q, hq, w, hqw, .inr ⟨hhanded, rfl⟩⟩, w, hqw, hret⟩

/-- The paths for an allocation lead forward to where it is handed on, or backward from where it is
stored or copied, without going in circles; all such ends are found unless a return is met, and a
return is found if the allocation reaches one. -/
theorem type_for_heap_call_finds (call : ν) :
    M.FindsAllocation call (M.typeForHeapCall call) :=
  M.findsAllocation_typeForHeapCall call

end Anchors

end IRModule

end Dimeta
