import Dimeta.Serial.Mapping

/-!
# YAML round trip

What `emit` writes, `input` reads back. A field that is left out holds the value it has in a
fresh object; the recursion through members and bases is an induction on the level of records.
-/

set_option autoImplicit false

namespace Dimeta

open Document Codec

variable {α : Type}

lemma mapOptionalNotEmpty_transfers {P : α → Prop} {b : ℕ} {y y' : Codec α} {d v : α}
    {isEmpty : α → Bool} (h : Sound P b y y' d) (hempty : isEmpty v = true → v = d)
    (key : String) (hv : P v) :
    Transfers b (fun io => mapOptionalNotEmpty key y isEmpty io v)
      (fun io => mapOptionalNotEmpty key y' isEmpty io d) [key] v := by
  refine .of_field y' d (fun _ => if isEmpty v then none else some (y.output v))
    (fun written => ?_) (fun written hnone => ?_) (fun written n hsome => ?_)
  · by_cases he : isEmpty v <;> simp [mapOptionalNotEmpty, Io.outputting, Io.mapOptional, he]
  · have he : isEmpty v = true := by simpa using hnone
    exact ⟨hempty he, fun entries validKeys hn => by
      simp [mapOptionalNotEmpty, Io.outputting, Io.mapOptional, hn]⟩
  · obtain ⟨-, rfl⟩ : isEmpty v = false ∧ y.output v = n := by simpa using hsome
    exact ⟨h v hv, fun entries validKeys hn => by
      simp [mapOptionalNotEmpty, Io.outputting, Io.mapOptional, hn]⟩

/-! ### Scalars, enumerations and their sequences -/

lemma tag_sound (b : ℕ) (d : CompoundType.Tag) :
    Sound (fun _ => True) b (.enumeration CompoundType.Tag.enumeration)
      (.enumeration CompoundType.Tag.enumeration) d :=
  enumeration_sound (fun v => by cases v <;> exact ⟨_, rfl, rfl⟩) _ b d

lemma encoding_sound (b : ℕ) (d : FundamentalType.Encoding) :
    Sound (fun _ => True) b (.enumeration FundamentalType.Encoding.enumeration)
      (.enumeration FundamentalType.Encoding.enumeration) d :=
  enumeration_sound (fun v => by cases v <;> exact ⟨_, rfl, rfl⟩) _ b d

lemma qualifiers_sound (b : ℕ) : Sound (fun _ => True) b qualifiers qualifiers [] :=
  (enumeration_sound (fun v => by cases v <;> exact ⟨_, rfl, rfl⟩)
    (fun _ => True) b _).seqIndex.mono (by simp)

lemma uint64List_sound (b : ℕ) : Sound (fun _ => True) b uint64List uint64List [] :=
  (scalar_sound (fun _ => True) b 0).seqIndex.mono (by simp)

lemma eq_empty_of_isEmpty {s : String} (h : s.isEmpty = true) : s = "" := by simpa using h

/-! ### One level of each type -/

lemma FundamentalType.mapping_transfers (b : ℕ) (v : FundamentalType) :
    Transfers b (FundamentalType.mapping · v) (FundamentalType.mapping · default)
      ["Name", "Extent", "Encoding"] v :=
  ((scalar_sound (fun _ => True) b _).mapRequired "Name" trivial).bind <|
    ((scalar_sound (fun _ => True) b _).mapOptional "Extent" trivial).bind <|
    ((encoding_sound b _).mapRequired "Encoding" trivial).bind <| .pure b v

lemma fundamentalType_sound (b : ℕ) :
    Sound (fun _ => True) b (.ofMapping FundamentalType.mapping)
      (.ofMapping FundamentalType.mapping) default :=
  (Sound.ofMapping (b := b) _ (by decide) fun v _ =>
    FundamentalType.mapping_transfers b v).of_le b.le_succ

/-- The keys a qualified type has besides its type. -/
def qualtypeKeys : List String :=
  ["Array", "Qualifiers", "Typedef", "Vector", "VectorSize", "ForwardDecl", "Recurring"]

lemma mapQualtypeFields_transfers {T : Type} [Inhabited T] (b : ℕ) (v : QualType T) :
    Transfers b (mapQualtypeFields · v)
      (mapQualtypeFields · { (default : QualType T) with type := v.type }) qualtypeKeys v := by
  have hscalar : ∀ {β : Type} [ScalarTraits β] (d : β), Sound (fun _ => True) b scalar scalar d :=
    fun d => scalar_sound _ b d
  exact (mapOptionalNotEmpty_transfers (uint64List_sound b) (by simp) "Array" trivial).bind <|
    (mapOptionalNotEmpty_transfers (qualifiers_sound b) (by simp) "Qualifiers" trivial).bind <|
    (mapOptionalNotEmpty_transfers (hscalar "") eq_empty_of_isEmpty "Typedef" trivial).bind <|
    (mapOptionalNotEmpty_transfers (hscalar false) (by simp) "Vector" trivial).bind <|
    (mapOptionalNotEmpty_transfers (hscalar 0) (by simp) "VectorSize" trivial).bind <|
    (mapOptionalNotEmpty_transfers (hscalar false) (by simp) "ForwardDecl" trivial).bind <|
    (mapOptionalNotEmpty_transfers (hscalar false) (by simp) "Recurring" trivial).bind <|
    .pure b v

lemma mapQualType_transfers {T : Type} [Inhabited T] {P : T → Prop} {b : ℕ} {y y' : Codec T}
    (h : Sound P b y y' default) (key : String) {v : QualType T} (hv : P v.type) :
    Transfers b (mapQualType key y · v) (mapQualType key y' · default) (key :: qualtypeKeys) v :=
  (h.mapRequired key hv).bind (mapQualtypeFields_transfers b v)

lemma qualifiedFundamental_sound (b : ℕ) :
    Sound (fun _ => True) b (.ofMapping QualifiedFundamental.mapping)
      (.ofMapping QualifiedFundamental.mapping) default :=
  (Sound.ofMapping (b := b) _ (by decide) fun _ _ =>
    mapQualType_transfers (fundamentalType_sound b) "Fundamental" trivial).of_le b.le_succ

section Record

variable {P : CompoundType → Prop} {b : ℕ} {nested nested' : Codec CompoundType}

lemma qualifiedCompound_sound (h : Sound P b nested nested' default) :
    Sound (fun v : QualifiedCompound => P v.type) b (.ofMapping (QualifiedCompound.mapping nested))
      (.ofMapping (QualifiedCompound.mapping nested')) default :=
  (Sound.ofMapping (b := b) _ (by decide) fun _ hv =>
    mapQualType_transfers h "Compound" hv).of_le b.le_succ

/-- The records in a qualified type. -/
def QualifiedType.All (P : CompoundType → Prop) : QualifiedType → Prop
  | .compound info => P info.type
  | .fundamental _ => True

/-- The alternative that `Builtin` selects is the one that was written. -/
lemma mapQualifiedType_transfers (h : Sound P b nested nested' default) {v : QualifiedType}
    (hv : v.All P) (d : QualifiedType) :
    Transfers b (mapQualifiedType nested · v) (mapQualifiedType nested' · d) ["Builtin", "Type"]
      v := by
  intro written
  cases v with
  | fundamental info =>
    have hbuiltin := (scalar_sound (fun _ => True) b false).mapRequired "Builtin"
      (v := true) trivial
    have htype := (qualifiedFundamental_sound b).mapRequired "Type" (v := info) trivial
    obtain ⟨l, hkeys, hout, hin⟩ := hbuiltin written
    obtain ⟨l', hkeys', hout', hin'⟩ := htype (written ++ fields l)
    refine ⟨l ++ l', by simp [hkeys, hkeys'], ?_, fun entries validKeys hb hl => ?_⟩
    · simp [mapQualifiedType, Io.outputting, hout, hout', fields_append]
    · have hfst := hin entries validKeys hb fun e he => hl e (List.mem_append_left _ he)
      have hsnd := hin' entries (validKeys ++ ["Builtin"]) hb fun e he =>
        hl e (List.mem_append_right _ he)
      simp [mapQualifiedType, Io.outputting, hfst, hsnd]
  | compound info =>
    have hbuiltin := (scalar_sound (fun _ => True) b false).mapRequired "Builtin"
      (v := false) trivial
    have htype := (qualifiedCompound_sound h).mapRequired "Type" (v := info) hv
    obtain ⟨l, hkeys, hout, hin⟩ := hbuiltin written
    obtain ⟨l', hkeys', hout', hin'⟩ := htype (written ++ fields l)
    refine ⟨l ++ l', by simp [hkeys, hkeys'], ?_, fun entries validKeys hb hl => ?_⟩
    · simp [mapQualifiedType, Io.outputting, hout, hout', fields_append]
    · have hfst := hin entries validKeys hb fun e he => hl e (List.mem_append_left _ he)
      have hsnd := hin' entries (validKeys ++ ["Builtin"]) hb fun e he =>
        hl e (List.mem_append_right _ he)
      simp [mapQualifiedType, Io.outputting, hfst, hsnd]

lemma memberList_sound (h : Sound P b nested nested' default) :
    Sound (fun vs : List Member => ∀ v ∈ vs, v.member.All P) b (memberList nested)
      (memberList nested') [] := by
  have hscalar := scalar_sound (α := String) (fun _ => True) b ""
  have hmember : Sound (fun v : Member => v.member.All P) (b + 1)
      (.ofMapping (Member.mapping nested)) (.ofMapping (Member.mapping nested')) default := by
    refine .ofMapping ["Name", "Builtin", "Type"] (by decide) fun v hv => ?_
    obtain ⟨name, member⟩ := v
    exact (hscalar.mapRequired "Name" trivial).bind <|
      (mapQualifiedType_transfers h hv default).bind <| .pure b _
  exact (hmember.of_le b.le_succ).seqAppend

lemma baseList_sound (h : Sound P b nested nested' default) :
    Sound (fun vs : List BaseClass => ∀ v ∈ vs, P v.base.type) b (baseList nested)
      (baseList nested') [] := by
  have hbase : Sound (fun v : BaseClass => P v.base.type) (b + 1)
      (.ofMapping (BaseClass.mapping nested)) (.ofMapping (BaseClass.mapping nested')) default := by
    refine .ofMapping ["BaseClass", "Offset", "EBO"] (by decide) fun v hv => ?_
    obtain ⟨base, offset, isEmpty⟩ := v
    exact ((qualifiedCompound_sound h).mapRequired "BaseClass" hv).bind <|
      (mapOptionalNotEmpty_transfers (scalar_sound (fun _ => True) b 0) (by simp)
        "Offset" trivial).bind <|
      (mapOptionalNotEmpty_transfers (scalar_sound (fun _ => True) b false) (by simp)
        "EBO" trivial).bind <| .pure b _
  exact (hbase.of_le b.le_succ).seqAppend

/-- `P` holds of the records directly nested in one. -/
structure CompoundType.AllNested (P : CompoundType → Prop) (c : CompoundType) : Prop where
  bases : ∀ v ∈ c.bases, P v.base.type
  members : ∀ v ∈ c.members, v.member.All P
  staticMembers : ∀ v ∈ c.staticMembers, v.member.All P

variable (canElide : List (String × Node) → Bool)

lemma CompoundType.mapping_sound (h : Sound P b nested nested' default) :
    Sound (CompoundType.AllNested P) (b + 1) (.ofMapping (CompoundType.mapping nested canElide))
      (.ofMapping (CompoundType.mapping nested' canElide)) default := by
  have hstring := scalar_sound (α := String) (fun _ => True) b ""
  refine .ofMapping ["Name", "Identifier", "Type", "Extent", "Sizes", "Offsets", "Base", "Members",
    "Static_Members"] (by decide) fun v hv => ?_
  obtain ⟨name, identifier, type, extent, offsets, sizes, bases, members, staticMembers⟩ := v
  exact (hstring.mapRequired "Name" trivial).bind <|
    (mapOptionalNotEmpty_transfers hstring eq_empty_of_isEmpty "Identifier" trivial).bind <|
    ((tag_sound b _).mapRequired "Type" trivial).bind <|
    ((scalar_sound (fun _ => True) b _).mapRequired "Extent" trivial).bind <|
    ((uint64List_sound b).mapOptionalSeq canElide "Sizes" trivial).bind <|
    ((uint64List_sound b).mapOptionalSeq canElide "Offsets" trivial).bind <|
    (mapOptionalNotEmpty_transfers (baseList_sound h) (by simp) "Base" hv.bases).bind <|
    ((memberList_sound h).mapOptionalSeq canElide "Members" hv.members).bind <|
    ((memberList_sound h).mapOptionalSeq canElide "Static_Members" hv.staticMembers).bind <|
    .pure b _

end Record

/-! ### All levels -/

section Emit

variable (canElide : List (String × Node) → Bool)

lemma QualifiedType.all_of_depth_le {v : QualifiedType} {level : ℕ} (h : v.depth ≤ level) :
    v.All fun c => c.depth ≤ level := by
  cases v with
  | compound info => exact h
  | fundamental info => trivial

/-- The records directly nested in one are a level below it. -/
lemma CompoundType.allNested_of_depth_le {c : CompoundType} {level : ℕ}
    (h : c.depth ≤ level + 1) : c.AllNested fun c => c.depth ≤ level := by
  refine ⟨fun v hv => ?_, fun v hv => ?_, fun v hv => ?_⟩
  · have hlt : v.base.type.depth < c.depth := depth_base_lt hv
    omega
  · have hlt : v.member.depth < c.depth := depth_member_lt (.inl hv)
    exact QualifiedType.all_of_depth_le (by omega)
  · have hlt : v.member.depth < c.depth := depth_member_lt (.inr hv)
    exact QualifiedType.all_of_depth_le (by omega)

/-- Records up to a level, in documents up to a depth. -/
lemma compoundType_sound (level b : ℕ) :
    Sound (fun c => c.depth ≤ level) b (compoundType canElide level) (compoundType canElide b)
      default := by
  induction level generalizing b with
  | zero =>
    intro c hc
    rw [c.depth_eq] at hc
    omega
  | succ level ih =>
    cases b with
    | zero =>
      intro c _ hlt
      omega
    | succ b =>
      have hlevel := CompoundType.mapping_sound canElide (ih b)
      exact hlevel.mono fun c hc => CompoundType.allNested_of_depth_le hc

/-- What a type with a sound codec emits is read back into a fresh object. -/
lemma Serial.input_emit {s : Serial α} {d : α}
    (h : ∀ level b, Sound (fun v => s.depth v ≤ level) (b + 1) (s.codec level) (s.codec b) d)
    (v : α) : s.input (s.emit v) d = some v :=
  h (s.depth v) (s.emit v).depth v (Nat.le_refl _) (Nat.lt_succ_self _)

lemma qualifiedFundamental_input_emit (v : QualifiedFundamental) :
    qualifiedFundamental.input (qualifiedFundamental.emit v) default = some v :=
  Serial.input_emit (fun _ b => (qualifiedFundamental_sound (b + 1)).mono fun _ _ => trivial) v

lemma qualifiedCompound_input_emit (v : QualifiedCompound) :
    (qualifiedCompound canElide).input ((qualifiedCompound canElide).emit v) default = some v := by
  refine Serial.input_emit (fun level b => ?_) v
  exact .ofMapping _ (by decide) fun _ hv =>
    mapQualType_transfers (compoundType_sound canElide level b) "Compound" hv

lemma locatedType_input_emit (v : LocatedType) :
    (locatedType canElide).input ((locatedType canElide).emit v) default = some v := by
  refine Serial.input_emit (fun level b => ?_) v
  have hstring := scalar_sound (α := String) (fun _ => True) b ""
  have hlocation : Sound (fun _ => True) (b + 1) (.ofMapping SourceLocation.mapping)
      (.ofMapping SourceLocation.mapping) default := by
    refine .ofMapping ["File", "Function", "Line"] (by decide) fun v _ => ?_
    exact (hstring.mapRequired "File" trivial).bind <|
      (hstring.mapOptional "Function" trivial).bind <|
      ((scalar_sound (fun _ => True) b _).mapRequired "Line" trivial).bind <| .pure b v
  refine .ofMapping ["SourceLoc", "Builtin", "Type"] (by decide) fun v hv => ?_
  exact ((hlocation.of_le b.le_succ).mapRequired "SourceLoc" trivial).bind <|
    (mapQualifiedType_transfers (compoundType_sound canElide level b)
      (QualifiedType.all_of_depth_le hv) default).bind <| .pure b v

lemma compileUnitTypes_sound (level b : ℕ) :
    Sound (fun v => CompileUnitTypes.depth v ≤ level) (b + 1)
      ((compileUnitTypes canElide).codec level) ((compileUnitTypes canElide).codec b) default := by
  have htype : Sound (fun v => QualifiedType.depth v ≤ level) (b + 1)
      (.ofMapping (mapQualifiedType (compoundType canElide level)))
      (.ofMapping (mapQualifiedType (compoundType canElide b))) default :=
    .ofMapping _ (by decide) fun v hv => mapQualifiedType_transfers
      (compoundType_sound canElide level b) (QualifiedType.all_of_depth_le hv) default
  have htypes := (htype.of_le b.le_succ).seqIndex
  refine .ofMapping ["CUName", "Types"] (by decide) fun v hv => ?_
  have hall : ∀ t ∈ v.types, t.depth ≤ level := fun t ht =>
    Nat.le_trans (depth_le_depthTypes ht) hv
  exact ((scalar_sound (fun _ => True) b _).mapRequired "CUName" trivial).bind <|
    (htypes.mapOptionalSeq canElide "Types" hall).bind <| .pure b v

lemma compileUnitTypes_input_emit (v : CompileUnitTypes) :
    (compileUnitTypes canElide).input ((compileUnitTypes canElide).emit v) default = some v :=
  Serial.input_emit (compileUnitTypes_sound canElide) v

lemma compileUnitTypeList_input_emit (v : CompileUnitTypeList) :
    (compileUnitTypeList canElide).input ((compileUnitTypeList canElide).emit v) [] = some v := by
  refine Serial.input_emit (fun level b => ?_) v
  refine (compileUnitTypes_sound canElide level b).seqIndex.mono fun vs hvs => ?_
  intro v hv
  exact Nat.le_trans (le_foldr_max (List.mem_map_of_mem hv)) hvs

/-- Reading back what was emitted gives the same object, and emitting that the same document. -/
def Serial.RoundTrips (s : Serial α) (fresh : α) : Prop :=
  ∀ obj, s.input (s.emit obj) fresh = some obj ∧
    (s.input (s.emit obj) fresh).map s.emit = some (s.emit obj)

lemma Serial.roundTrips_of_input_emit {s : Serial α} {fresh : α}
    (h : ∀ obj, s.input (s.emit obj) fresh = some obj) : s.RoundTrips fresh := by
  intro obj
  rw [h obj]
  exact ⟨rfl, rfl⟩

/-- The YAML round trip, wherever empty sequences are left out. -/
theorem yaml_round_trip :
    (locatedType canElide).RoundTrips default ∧ (qualifiedCompound canElide).RoundTrips default ∧
      qualifiedFundamental.RoundTrips default ∧ (compileUnitTypes canElide).RoundTrips default ∧
      (compileUnitTypeList canElide).RoundTrips [] :=
  ⟨Serial.roundTrips_of_input_emit (locatedType_input_emit canElide),
    Serial.roundTrips_of_input_emit (qualifiedCompound_input_emit canElide),
    Serial.roundTrips_of_input_emit qualifiedFundamental_input_emit,
    Serial.roundTrips_of_input_emit (compileUnitTypes_input_emit canElide),
    Serial.roundTrips_of_input_emit (compileUnitTypeList_input_emit canElide)⟩

end Emit

end Dimeta
