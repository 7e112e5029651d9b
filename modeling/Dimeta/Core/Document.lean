import Mathlib.Data.List.Basic
import Mathlib.Data.Nat.Notation
import Mathlib.Tactic

/-!
# Documents and two-way mappings

A document is a tree of scalars, sequences and mappings. One description of a record serves both
directions: a mapping visits the keys of the record in order, and each visit either writes the
field or reads it into the object at hand. Sequences of an optional key may be elided when they
are empty, keys of the document that no visit asked for are an error.

The main notion is `Codec.Sound`: what one codec writes, another reads back. Two codecs occur
because a recursive type is described level by level, and the writing and the reading level need
not be the same.
-/

set_option autoImplicit false

namespace Document

universe u

variable {α β : Type u}

/-! ### Nodes -/

inductive Node where
  | scalar (text : String)
  | seq (elements : List Node)
  | map (entries : List (String × Node))

mutual
/-- Nesting depth of sequences and mappings. -/
def Node.depth : Node → ℕ
  | .scalar _   => 0
  | .seq ns     => depthSeq ns + 1
  | .map es     => depthMap es + 1

def depthSeq : List Node → ℕ
  | []      => 0
  | n :: ns => max n.depth (depthSeq ns)

def depthMap : List (String × Node) → ℕ
  | []           => 0
  | (_, n) :: es => max n.depth (depthMap es)
end

lemma Node.depth_lt_of_mem_seq {n : Node} {ns : List Node} (h : n ∈ ns) :
    n.depth < (Node.seq ns).depth := by
  have hle : n.depth ≤ depthSeq ns := by
    induction ns with
    | nil => cases h
    | cons m ns ih =>
      simp only [depthSeq]
      rcases List.mem_cons.mp h with rfl | h
      · exact Nat.le_max_left _ _
      · exact Nat.le_trans (ih h) (Nat.le_max_right _ _)
  simp only [Node.depth]
  omega

lemma Node.depth_lt_of_mem_map {e : String × Node} {es : List (String × Node)} (h : e ∈ es) :
    e.2.depth < (Node.map es).depth := by
  have hle : e.2.depth ≤ depthMap es := by
    induction es with
    | nil => cases h
    | cons m es ih =>
      simp only [depthMap]
      rcases List.mem_cons.mp h with rfl | h
      · exact Nat.le_max_left _ _
      · exact Nat.le_trans (ih h) (Nat.le_max_right _ _)
  simp only [Node.depth]
  omega

lemma mem_of_lookup {key : String} {n : Node} {es : List (String × Node)}
    (h : es.lookup key = some n) : (key, n) ∈ es := by
  obtain ⟨l₁, l₂, rfl, -⟩ := List.lookup_eq_some_iff.mp h
  simp

/-! ### Codecs -/

/-- How a type is written, and how a node is read into an existing object. -/
structure Codec (α : Type*) where
  output : α → Node
  input : Node → α → Option α

/-- The values of `P` that `y` writes as nodes of depth below `b` are read back by `y'`, into the
object `d`. -/
def Codec.Sound (P : α → Prop) (b : ℕ) (y y' : Codec α) (d : α) : Prop :=
  ∀ v, P v → (y.output v).depth < b → y'.input (y.output v) d = some v

lemma Codec.Sound.mono {P Q : α → Prop} {b : ℕ} {y y' : Codec α} {d : α}
    (h : Codec.Sound P b y y' d) (hPQ : ∀ v, Q v → P v) : Codec.Sound Q b y y' d :=
  fun v hv => h v (hPQ v hv)

lemma Codec.Sound.of_le {P : α → Prop} {b b' : ℕ} {y y' : Codec α} {d : α}
    (h : Codec.Sound P b y y' d) (hb : b' ≤ b) : Codec.Sound P b' y y' d :=
  fun v hv hlt => h v hv (by omega)

/-! ### Scalars -/

/-- A type of scalars: a scalar is read back as it was written. -/
class ScalarTraits (α : Type*) where
  output : α → String
  input : String → Option α
  input_output : ∀ v, input (output v) = some v

instance : ScalarTraits String := ⟨id, some, fun _ => rfl⟩

instance : ScalarTraits Bool where
  output b := if b then "true" else "false"
  input s := if s = "true" then some true else if s = "false" then some false else none
  input_output := by decide

/-- Numbers below a bound, in decimal. -/
def readBelow (bound : ℕ) (s : String) : Option ℕ :=
  if s.toList.all Char.isDigit && !s.toList.isEmpty then
    (some (Nat.ofDigitChars 10 s.toList 0)).filter (· < bound)
  else none

lemma readBelow_repr {bound n : ℕ} (h : n < bound) : readBelow bound n.repr = some n := by
  have hdigits : ∀ c ∈ Nat.toDigits 10 n, c.isDigit := fun c hc =>
    Nat.isDigit_of_mem_toDigits (by decide) (by decide) hc
  have hne : (Nat.toDigits 10 n).isEmpty = false := by simp [Nat.toDigits_ne_nil]
  simp only [readBelow, Nat.toList_repr, List.all_eq_true.mpr hdigits, hne]
  simp [h]

instance : ScalarTraits UInt64 where
  output n := n.toNat.repr
  input s := (readBelow UInt64.size s).map UInt64.ofNat
  input_output n := by simp [readBelow_repr n.toNat_lt_size]

instance : ScalarTraits UInt32 where
  output n := n.toNat.repr
  input s := (readBelow UInt32.size s).map UInt32.ofNat
  input_output n := by simp [readBelow_repr n.toNat_lt_size]

namespace Codec

def scalar [ScalarTraits α] : Codec α where
  output v := .scalar (ScalarTraits.output v)
  input n _ :=
    match n with
    | .scalar s => ScalarTraits.input s
    | _         => none

lemma scalar_sound [ScalarTraits α] (P : α → Prop) (b : ℕ) (d : α) : Sound P b scalar scalar d :=
  fun v _ _ => ScalarTraits.input_output v

/-- An enumeration by its cases, each tried in turn. -/
def enumeration [DecidableEq α] (cases : List (String × α)) : Codec α where
  output v := .scalar ((cases.find? fun c => c.2 = v).elim "" Prod.fst)
  input n _ :=
    match n with
    | .scalar s => cases.lookup s
    | _         => none

/-- Every value has a case, and reading its name finds that case again. -/
def CasesCover [DecidableEq α] (cases : List (String × α)) : Prop :=
  ∀ v, ∃ s, (cases.find? fun c => c.2 = v) = some (s, v) ∧ cases.lookup s = some v

lemma enumeration_sound [DecidableEq α] {cases : List (String × α)} (h : CasesCover cases)
    (P : α → Prop) (b : ℕ) (d : α) : Sound P b (enumeration cases) (enumeration cases) d := by
  intro v _ _
  obtain ⟨s, hfind, hlookup⟩ := h v
  simp [enumeration, hfind, hlookup]

/-! ### Sequences -/

/-- Read nodes one after the other, each into the element in its place, or into a fresh one where
the list has ended. -/
def readAt (y : Codec α) (fresh : α) : List Node → List α → Option (List α)
  | [], old           => some old
  | n :: ns, []       => do return (← y.input n fresh) :: (← readAt y fresh ns [])
  | n :: ns, a :: old => do return (← y.input n a) :: (← readAt y fresh ns old)

/-- A sequence whose element `i` is overwritten in place. -/
def seqIndex (y : Codec α) (fresh : α) : Codec (List α) where
  output vs := .seq (vs.map y.output)
  input n old :=
    match n with
    | .seq ns => readAt y fresh ns old
    | _       => none

/-- A sequence whose elements are appended as they are read. -/
def seqAppend (y : Codec α) (fresh : α) : Codec (List α) where
  output vs := .seq (vs.map y.output)
  input n old :=
    match n with
    | .seq ns => (readAt y fresh ns []).map (old ++ ·)
    | _       => none

lemma readAt_output {y y' : Codec α} {fresh : α} {vs : List α}
    (h : ∀ v ∈ vs, y'.input (y.output v) fresh = some v) :
    readAt y' fresh (vs.map y.output) [] = some vs := by
  induction vs with
  | nil => rfl
  | cons v vs ih =>
    have hv := h v (by simp)
    have hvs := ih fun w hw => h w (by simp [hw])
    simp [readAt, hv, hvs]

lemma Sound.readAt {P : α → Prop} {b : ℕ} {y y' : Codec α} {fresh : α}
    (h : Sound P b y y' fresh) {vs : List α} (hP : ∀ v ∈ vs, P v)
    (hb : (Node.seq (vs.map y.output)).depth < b) :
    Codec.readAt y' fresh (vs.map y.output) [] = some vs := by
  refine readAt_output fun v hv => h v (hP v hv) ?_
  have hlt := Node.depth_lt_of_mem_seq (List.mem_map_of_mem hv (f := y.output))
  omega

lemma Sound.seqIndex {P : α → Prop} {b : ℕ} {y y' : Codec α} {fresh : α}
    (h : Sound P b y y' fresh) :
    Sound (fun vs => ∀ v ∈ vs, P v) b (y.seqIndex fresh) (y'.seqIndex fresh) [] :=
  fun _ hP hb => h.readAt hP hb

lemma Sound.seqAppend {P : α → Prop} {b : ℕ} {y y' : Codec α} {fresh : α}
    (h : Sound P b y y' fresh) :
    Sound (fun vs => ∀ v ∈ vs, P v) b (y.seqAppend fresh) (y'.seqAppend fresh) [] := by
  intro vs hP hb
  have hread := h.readAt hP hb
  simp [Codec.seqAppend, hread]

end Codec

/-! ### Mappings -/

/-- The two directions of a mapping: what was written so far, or the entries to read from and the
keys that were asked for. -/
inductive Io where
  | output (written : List (String × Node))
  | input (entries : List (String × Node)) (validKeys : List String)

namespace Io

def outputting : Io → Bool
  | .output _  => true
  | .input _ _ => false

/-- Visit a key that has to be there. -/
def mapRequired (key : String) (y : Codec α) : Io → α → Option (Io × α)
  | .output written, v => some (.output (written ++ [(key, y.output v)]), v)
  | .input entries validKeys, v =>
    match entries.lookup key with
    | none   => none
    | some n => (y.input n v).map (.input entries (validKeys ++ [key]), ·)

/-- Visit a key that may be absent: the object then stays as it is. -/
def mapOptional (key : String) (y : Codec α) : Io → α → Option (Io × α)
  | .output written, v => some (.output (written ++ [(key, y.output v)]), v)
  | .input entries validKeys, v =>
    match entries.lookup key with
    | none   => some (.input entries (validKeys ++ [key]), v)
    | some n => (y.input n v).map (.input entries (validKeys ++ [key]), ·)

/-- Visit an optional key with a sequence; `canElide` says where the writer leaves an empty one
out. -/
def mapOptionalSeq (canElide : List (String × Node) → Bool) (key : String)
    (y : Codec (List α)) : Io → List α → Option (Io × List α)
  | .output written, [] =>
    if canElide written then some (.output written, [])
    else mapOptional key y (.output written) []
  | io, vs => mapOptional key y io vs

end Io

/-- The entries of a mapping whose keys are written where a node is given. -/
def fields (l : List (String × Option Node)) : List (String × Node) :=
  l.filterMap fun e => e.2.map (e.1, ·)

@[simp] lemma fields_nil : fields [] = [] := rfl

@[simp] lemma fields_cons_some (k : String) (n : Node) (l : List (String × Option Node)) :
    fields ((k, some n) :: l) = (k, n) :: fields l := rfl

@[simp] lemma fields_cons_none (k : String) (l : List (String × Option Node)) :
    fields ((k, none) :: l) = fields l := rfl

lemma fields_append (l l' : List (String × Option Node)) :
    fields (l ++ l') = fields l ++ fields l' := List.filterMap_append

lemma key_mem_of_mem_fields {l : List (String × Option Node)} {e : String × Node}
    (h : e ∈ fields l) : e.1 ∈ l.map Prod.fst := by
  obtain ⟨⟨k, o⟩, hmem, ho⟩ := List.mem_filterMap.mp h
  obtain ⟨n, -, rfl⟩ := Option.map_eq_some_iff.mp ho
  exact List.mem_map_of_mem hmem

/-- Distinct keys are found where they are written. -/
lemma lookup_fields {l : List (String × Option Node)} (hl : (l.map Prod.fst).Nodup)
    {e : String × Option Node} (he : e ∈ l) : (fields l).lookup e.1 = e.2 := by
  induction l with
  | nil => cases he
  | cons e' l ih =>
    obtain ⟨k, o⟩ := e'
    simp only [List.map_cons, List.nodup_cons] at hl
    rcases List.mem_cons.mp he with rfl | hmem
    · cases o with
      | some n => simp
      | none =>
        rw [fields_cons_none, List.lookup_eq_none_iff]
        intro p hp
        have hne : k ≠ p.1 := fun h => hl.1 (h ▸ key_mem_of_mem_fields hp)
        simpa using hne
    · have hne : (e.1 == k) = false :=
        beq_eq_false_iff_ne.mpr fun h => hl.1 (h ▸ List.mem_map_of_mem hmem)
      cases o with
      | some n => simp [List.lookup_cons, hne, ih hl.2 hmem]
      | none => simp [ih hl.2 hmem]

/-- The codec of a type that is described by a mapping. -/
def Codec.ofMapping (mapping : Io → α → Option (Io × α)) : Codec α where
  output v :=
    match mapping (.output []) v with
    | some (.output written, _) => .map written
    | _                         => .map []
  input n d :=
    match n with
    | .map entries =>
      match mapping (.input entries []) d with
      | some (.input _ validKeys, v) =>
        if entries.all fun e => e.1 ∈ validKeys then some v else none
      | _ => none
    | _ => none

/-! ### Rules for mappings

A mapping is run twice: on the value, to write it, and on a fresh object, to read it back. -/

/-- Run for writing, `f` yields `v` and adds fields under `keys`; run for reading on entries of
depth at most `b` that hold these fields, `f'` yields `v` too and has asked for `keys`. -/
def Transfers (b : ℕ) (f f' : Io → Option (Io × α)) (keys : List String) (v : α) : Prop :=
  ∀ written, ∃ l : List (String × Option Node), l.map Prod.fst = keys ∧
    f (.output written) = some (.output (written ++ fields l), v) ∧
    ∀ entries validKeys, (Node.map entries).depth ≤ b →
      (∀ e ∈ l, entries.lookup e.1 = e.2) →
      f' (.input entries validKeys) = some (.input entries (validKeys ++ keys), v)

lemma Transfers.pure (b : ℕ) (v : α) :
    Transfers b (fun io => some (io, v)) (fun io => some (io, v)) [] v :=
  fun _ => ⟨[], rfl, by simp, by simp⟩

lemma Transfers.bind {b : ℕ} {f f' : Io → Option (Io × α)} {g g' : Io × α → Option (Io × β)}
    {keys keys' : List String} {x : α} {v : β} (hf : Transfers b f f' keys x)
    (hg : Transfers b (fun io => g (io, x)) (fun io => g' (io, x)) keys' v) :
    Transfers b (fun io => f io >>= g) (fun io => f' io >>= g') (keys ++ keys') v := by
  intro written
  obtain ⟨l, rfl, hout, hin⟩ := hf written
  obtain ⟨l', rfl, hout', hin'⟩ := hg (written ++ fields l)
  refine ⟨l ++ l', List.map_append, ?_, fun entries validKeys hb hl => ?_⟩
  · simp [hout, hout', fields_append]
  · have hfst := hin entries validKeys hb fun e he => hl e (List.mem_append_left _ he)
    have hsnd := hin' entries (validKeys ++ l.map Prod.fst) hb fun e he =>
      hl e (List.mem_append_right _ he)
    simp [hfst, hsnd]

/-- A field that is left out has the value of the fresh object, any other is read back. -/
lemma Transfers.of_field {b : ℕ} {f f' : Io → Option (Io × α)} {key : String} {v : α}
    (y' : Codec α) (d : α) (o : List (String × Node) → Option Node)
    (hout : ∀ written, f (.output written) = some (.output (written ++ fields [(key, o written)]), v))
    (hnone : ∀ written, o written = none → v = d ∧ ∀ entries validKeys,
      entries.lookup key = none →
      f' (.input entries validKeys) = some (.input entries (validKeys ++ [key]), d))
    (hsome : ∀ written n, o written = some n → (n.depth < b → y'.input n d = some v) ∧
      ∀ entries validKeys, entries.lookup key = some n →
      f' (.input entries validKeys) =
        (y'.input n d).map (.input entries (validKeys ++ [key]), ·)) :
    Transfers b f f' [key] v := by
  intro written
  refine ⟨[(key, o written)], rfl, hout written, fun entries validKeys hb hl => ?_⟩
  have hlookup : entries.lookup key = o written := hl (key, o written) (by simp)
  cases ho : o written with
  | none =>
    obtain ⟨rfl, hread⟩ := hnone written ho
    exact hread entries validKeys (hlookup.trans ho)
  | some n =>
    obtain ⟨hv, hread⟩ := hsome written n ho
    have hdepth : n.depth < (Node.map entries).depth :=
      Node.depth_lt_of_mem_map (mem_of_lookup (hlookup.trans ho))
    rw [hread entries validKeys (hlookup.trans ho), hv (by omega)]
    rfl

namespace Codec.Sound

variable {P : α → Prop} {b : ℕ} {y y' : Codec α} {d v : α}

lemma mapRequired (h : Sound P b y y' d) (key : String) (hv : P v) :
    Transfers b (fun io => io.mapRequired key y v) (fun io => io.mapRequired key y' d) [key] v := by
  refine .of_field y' d (fun _ => some (y.output v)) (fun _ => rfl) (by simp) ?_
  rintro _ n ⟨⟩
  exact ⟨h v hv, fun entries validKeys hn => by simp [Io.mapRequired, hn]⟩

lemma mapOptional (h : Sound P b y y' d) (key : String) (hv : P v) :
    Transfers b (fun io => io.mapOptional key y v) (fun io => io.mapOptional key y' d) [key] v := by
  refine .of_field y' d (fun _ => some (y.output v)) (fun _ => rfl) (by simp) ?_
  rintro _ n ⟨⟩
  exact ⟨h v hv, fun entries validKeys hn => by simp [Io.mapOptional, hn]⟩

lemma mapOptionalSeq {y y' : Codec (List α)} {P : List α → Prop} {v : List α}
    (h : Sound P b y y' []) (canElide : List (String × Node) → Bool) (key : String) (hv : P v) :
    Transfers b (fun io => io.mapOptionalSeq canElide key y v)
      (fun io => io.mapOptionalSeq canElide key y' []) [key] v := by
  refine .of_field y' [] (fun written => if v = [] ∧ canElide written then none else some (y.output v))
    (fun written => ?_) (fun written hnone => ?_) (fun written n hsome => ?_)
  · cases v with
    | nil => by_cases he : canElide written <;> simp [Io.mapOptionalSeq, Io.mapOptional, he]
    | cons a v => simp [Io.mapOptionalSeq, Io.mapOptional]
  · obtain ⟨rfl, -⟩ : v = [] ∧ canElide written := by simpa using hnone
    exact ⟨rfl, fun entries validKeys hn => by simp [Io.mapOptionalSeq, Io.mapOptional, hn]⟩
  · obtain ⟨-, rfl⟩ : ¬(v = [] ∧ canElide written) ∧ y.output v = n := by simpa using hsome
    exact ⟨h v hv, fun entries validKeys hn => by simp [Io.mapOptionalSeq, Io.mapOptional, hn]⟩

/-- A mapping with distinct keys gives a codec that reads back what it writes. -/
lemma ofMapping {f f' : Io → α → Option (Io × α)} (keys : List String) (hkeys : keys.Nodup)
    (h : ∀ v, P v → Transfers b (fun io => f io v) (fun io => f' io d) keys v) :
    Sound P (b + 1) (.ofMapping f) (.ofMapping f') d := by
  intro v hv hb
  obtain ⟨l, rfl, hout, hin⟩ := h v hv []
  have hnode : (Codec.ofMapping f).output v = .map (fields l) := by
    simp [Codec.ofMapping, hout]
  rw [hnode] at hb ⊢
  have hread := hin (fields l) [] (by omega) fun e he => lookup_fields hkeys he
  have hasked : ((fields l).all fun e => e.1 ∈ l.map Prod.fst) = true := by
    simpa using fun k n hmem => List.mem_map.mp (key_mem_of_mem_fields hmem)
  simp only [Codec.ofMapping, hread, List.nil_append]
  rw [if_pos hasked]

end Codec.Sound

end Document
