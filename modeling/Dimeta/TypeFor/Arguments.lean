import Dimeta.TypeFor.Root

/-!
# Arguments and parameters

A parameter is looked up in the type array of its subprogram from two sides: from the argument in
the callee, and from the position of a value in a call. Both take the position of the parameter
among the parameters of the IR function, which is the one in the source only without an `sret`
parameter.
-/

set_option autoImplicit false

namespace Dimeta

open Recursion

variable {ι ν : Type}

/-! ### Signatures -/

/-- The parameters of a function in the source, and whether the IR function has a leading `sret`
parameter for what it returns. -/
structure Signature (ι : Type) where
  ret : Option ι
  params : List ι
  variadic : Bool
  sret : Bool
  ret_isSome : sret = true → ret.isSome = true

namespace Signature

variable (S : Signature ι)

/-- The type array of the subprogram; null at the end stands for a variadic tail. -/
def types : List (Option ι) := S.ret :: S.params.map some ++ if S.variadic then [none] else []

/-- The number of IR parameters. -/
def numParams : ℕ := S.params.length + S.sret.toNat

/-- The declared type of an IR parameter. -/
def declared (k : ℕ) : Option ι :=
  if S.sret then
    match k with
    | 0     => S.ret
    | i + 1 => S.params[i]?
  else S.params[k]?

/-- Both sides find the declared type of each IR parameter, for a call with these arguments. -/
def Maps [DecidableEq ν] (f : LLFunction ι) (args : List ν) : Prop :=
  ∀ k < S.numParams, ∃ type, S.declared k = some type ∧
    typeOfArgument f k (S.sret && k == 0) = .ok (some (some type)) ∧
      ∀ path : ValuePath ν, path.previousValue = args[k]? →
        typeOfCallArgument path f args = .ok (some (some type))

variable {S}

lemma types_succ (k : ℕ) : S.types[k + 1]? =
    if k < S.params.length then S.params[k]?.map some
    else if S.variadic && k == S.params.length then some none else none := by
  rw [types, List.cons_append, List.getElem?_cons_succ]
  by_cases hk : k < S.params.length
  · rw [if_pos hk, List.getElem?_append_left (by rwa [List.length_map]), List.getElem?_map]
  · rw [if_neg hk, List.getElem?_append_right (by rw [List.length_map]; exact not_lt.mp hk),
      List.length_map]
    cases S.variadic with
    | false => rfl
    | true =>
      by_cases heq : k = S.params.length
      · subst heq
        simp
      · have hlt : S.params.length < k := lt_of_le_of_ne (not_lt.mp hk) (Ne.symm heq)
        have hsub : k - S.params.length ≠ 0 := (Nat.sub_pos_of_lt hlt).ne'
        simp [heq, hsub]

/-- Behind the parameters there is no type. -/
lemma typeAt_types_ne {k : ℕ} (hk : S.params.length ≤ k) (type : ι) :
    typeAt S.types (k + 1) ≠ .ok (some (some type)) := by
  rw [typeAt, types_succ, if_neg (not_lt.mpr hk)]
  split_ifs
  · simp
  · simp

lemma typeAt_types {k : ℕ} {type : ι} (h : S.params[k]? = some type) :
    typeAt S.types (k + 1) = .ok (some (some type)) := by
  have hlt : k < S.params.length := (List.getElem?_eq_some_iff.mp h).1
  rw [typeAt, types_succ, if_pos hlt, h]
  rfl

end Signature

/-! ### The position of a value in a call -/

section Position

variable [DecidableEq ν]

/-- The position that is found is the first one of the value. -/
lemma exists_findIdx? {args : List ν} {v : ν} {k : ℕ} (h : args[k]? = some v) :
    ∃ j ≤ k, args[j]? = some v ∧ args.findIdx? (· = v) = some j := by
  obtain ⟨hk, hv⟩ := List.getElem?_eq_some_iff.mp h
  have hmem : ∃ x ∈ args, decide (x = v) = true := ⟨v, List.mem_of_getElem? h, by simp⟩
  have hfind := List.findIdx?_eq_some_of_exists hmem
  obtain ⟨hj, hjv, hfirst⟩ := List.findIdx?_eq_some_iff_getElem.mp hfind
  refine ⟨_, ?_, ?_, hfind⟩
  · by_contra hlt
    exact hfirst k (not_le.mp hlt) (by simpa using hv)
  · rw [List.getElem?_eq_getElem hj]
    exact congrArg some (by simpa using hjv)

variable {f : LLFunction ι} {s : DISubprogram ι} {path : ValuePath ν} {args : List ν}

lemma typeOfCallArgument_eq (hs : f.subprogram = some s) {v : ν} {j : ℕ}
    (hpath : path.previousValue = some v) (hj : args.findIdx? (· = v) = some j) :
    typeOfCallArgument path f args = typeAt s.typeArray (j + 1) := by
  simp only [typeOfCallArgument, hpath, Option.bind_some, hj, hs]

omit [DecidableEq ν] in
lemma previousValue_pair (v w : ν) : (⟨[v, w]⟩ : ValuePath ν).previousValue = some v := rfl

omit [DecidableEq ν] in
lemma typeOfArgument_eq (hs : f.subprogram = some s) (k : ℕ) (structRet : Bool) :
    typeOfArgument f k structRet = typeAt s.typeArray (if structRet then k else k + 1) := by
  simp only [typeOfArgument, hs]

end Position

/-! ### Both sides -/

namespace Signature

variable [DecidableEq ν] {S : Signature ι} {f : LLFunction ι} {s : DISubprogram ι} {args : List ν}

/-- An `sret` parameter shifts the others by one, on either side. -/
lemma not_maps_of_sret (hs : f.subprogram = some s) (htypes : s.typeArray = S.types)
    (hargs : S.numParams ≤ args.length) (hsret : S.sret = true) : ¬ S.Maps f args := by
  intro h
  have hnum : S.numParams = S.params.length + 1 := by
    rw [numParams, hsret]
    rfl
  obtain ⟨type, -, hcallee, hcall⟩ := h S.params.length (by rw [hnum]; exact Nat.lt_succ_self _)
  by_cases hparams : S.params.length = 0
  · -- the call side looks behind the type of the returned value
    have hlt : 0 < args.length := by
      rw [hnum] at hargs
      exact Nat.lt_of_lt_of_le (Nat.succ_pos _) hargs
    rw [hparams, List.getElem?_eq_getElem hlt] at hcall
    obtain ⟨j, hj, -, hfind⟩ := exists_findIdx? (List.getElem?_eq_getElem hlt)
    have htype := hcall ⟨[args[0], args[0]]⟩ (previousValue_pair _ _)
    rw [typeOfCallArgument_eq hs (previousValue_pair _ _) hfind, htypes] at htype
    exact typeAt_types_ne (hparams.trans_le (Nat.zero_le j)) type htype
  · -- the last parameter is looked for behind the type array
    rw [typeOfArgument_eq hs, htypes, hsret, Bool.true_and, if_neg (by simpa using hparams)]
      at hcallee
    exact typeAt_types_ne le_rfl type hcallee

/-- Both sides find the declared types exactly if there is no `sret` parameter and values that are
passed more than once are passed for parameters of one type. -/
theorem maps_iff (hs : f.subprogram = some s) (htypes : s.typeArray = S.types)
    (hargs : S.numParams ≤ args.length) :
    S.Maps f args ↔ S.sret = false ∧ ∀ j k, j < S.params.length → k < S.params.length →
      args[j]? = args[k]? → S.params[j]? = S.params[k]? := by
  cases hsret : S.sret with
  | true =>
    have hnot := not_maps_of_sret hs htypes hargs hsret
    simp [hnot]
  | false =>
    have hnum : S.numParams = S.params.length := by
      rw [numParams, hsret]
      rfl
    have hdeclared : ∀ k, S.declared k = S.params[k]? := by
      intro k
      simp only [declared, hsret, Bool.false_eq_true, if_false]
    have harg : ∀ k < S.params.length, ∃ v, args[k]? = some v := by
      intro k hk
      exact ⟨_, List.getElem?_eq_getElem (hk.trans_le (hnum ▸ hargs))⟩
    simp only [true_and]
    constructor
    · intro h j k hj hk heq
      obtain ⟨t, ht, -, hcall⟩ := h j (hnum.symm ▸ hj)
      obtain ⟨t', ht', -, hcall'⟩ := h k (hnum.symm ▸ hk)
      obtain ⟨v, hv⟩ := harg k hk
      have hpath : (⟨[v, v]⟩ : ValuePath ν).previousValue = args[k]? := by
        rw [hv]
        rfl
      have htype := hcall' _ hpath
      rw [hcall _ (hpath.trans heq.symm)] at htype
      cases htype
      rw [← hdeclared j, ht, ← hdeclared k, ht']
    · intro h k hk
      rw [hnum] at hk
      have htype : S.params[k]? = some S.params[k] := List.getElem?_eq_getElem hk
      refine ⟨_, (hdeclared k).trans htype, ?_, ?_⟩
      · rw [typeOfArgument_eq hs, htypes, hsret, Bool.false_and, if_neg Bool.false_ne_true]
        exact typeAt_types htype
      · intro path hpath
        obtain ⟨v, hv⟩ := harg k hk
        obtain ⟨j, hj, hjv, hfind⟩ := exists_findIdx? hv
        rw [typeOfCallArgument_eq hs (hpath.trans hv) hfind, htypes]
        apply typeAt_types
        rw [← htype]
        exact h j k (hj.trans_lt hk) hk (hjv.trans hv.symm)

end Signature

/-! ### A function that returns a record -/

/-- `void g(int *, int *)`, over the type `int *`. -/
def twoPointers : Signature (Fin 2) := ⟨none, [1, 1], false, false, nofun⟩

/-- `struct S f(int *)`, over the types `struct S` and `int *`. -/
def returnsRecord : Signature (Fin 2) := ⟨some 0, [1], false, true, fun _ => rfl⟩

theorem maps_iff_twoPointers :
    twoPointers.Maps ⟨"g", some ⟨[none, some 1, some 1]⟩⟩ [true, true] ↔
      false = false ∧ ∀ j k, j < 2 → k < 2 →
        [true, true][j]? = [true, true][k]? → [(1 : Fin 2), 1][j]? = [(1 : Fin 2), 1][k]? :=
  Signature.maps_iff rfl rfl (by decide)

/-- The parameter of `f` is the second one in the IR and is looked for behind the type array. -/
theorem not_maps_returnsRecord :
    ¬ returnsRecord.Maps ⟨"f", some ⟨[some 0, some 1]⟩⟩ [true, false] := by
  intro h
  obtain ⟨type, -, hcallee, -⟩ := h 1 (by decide)
  cases hcallee

end Dimeta
