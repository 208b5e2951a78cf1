import SchemaCodec.Proofs.Settings.Documented
import SchemaCodec.Settings.OfJson

/-!
# Decoding settings

The decoder of the executables keeps to what is documented (`documented_ofJson`): an entry leaves it
ready for the next one or ends the decoding (`take_entry_cases`). What follows for all libraries that
do so is stated of the messages (`ofText_object`). The key path in a message leads to what is wrong, with one
exception, a key that comes again (`path_of_repeated_is_not_its_key`).
-/

namespace SchemaCodec.Settings

open Json (valueEvents)

theorem Key.ofText?_eq_none {name : String} (h : ∀ key : Key, key.text ≠ name) :
    ofText? name = none := by
  simp only [ofText?, List.find?_eq_none, beq_iff_eq]
  exact fun key _ ↦ h key

/-! ### Reading events -/

/-- What the decoder makes of a row of events. -/
def take (events : List (Event Json.Scalar)) (s : Settings × State) :
    Except Problem (Settings × State) :=
  events.foldlM (step jsonDialect) s

variable {settings : Settings} {given : List Key} {context : Context} {key : Key} {v : Json}
  {events events' : List (Event Json.Scalar)} {s s' : Settings × State} {problem : Problem}

theorem take_cons {e : Event Json.Scalar} (h : step jsonDialect s e = .ok s') :
    take (e :: events) s = take events s' := by
  rw [take, List.foldlM_cons, h]
  rfl

theorem take_append (h : take events s = .ok s') :
    take (events ++ events') s = take events' s' := by
  rw [take, List.foldlM_append, ← take, h]
  rfl

/-- A problem ends the reading. -/
theorem take_append_of_error (h : take events s = .error problem) :
    take (events ++ events') s = .error problem := by
  rw [take, List.foldlM_append, ← take, h]
  rfl

/-- The first event that is refused settles the answer. -/
theorem take_cons_of_error {e : Event Json.Scalar} (h : step jsonDialect s e = .error problem) :
    take (e :: events) s = .error problem := by
  rw [take, List.foldlM_cons, h]
  rfl

/-! ### One entry -/

/-- The events of one entry. -/
def entryEvents (name : String) (v : Json) : List (Event Json.Scalar) :=
  .leaf (.string name) :: v.valueEvents

/-- The start of an entry whose key is known and new. -/
theorem take_key (h : key ∉ given) :
    take (entryEvents key.text v) (settings, .inside (.byKey given)) =
      take v.valueEvents (settings, .value (.byKey (key :: given)) key) := by
  refine take_cons ?_
  show startKey jsonDialect settings given (.string key.text) = _
  simp [startKey, jsonDialect, scalarString?, Key.ofText?_text, h]

/-- A run of strings inside a list of names collects them. -/
theorem take_names (names reversed : List String) :
    take (names.map fun s ↦ .leaf (.string s)) (settings, .names context reversed) =
      .ok (settings, .names context (names.reverse ++ reversed)) := by
  induction names generalizing reversed with
  | nil => rfl
  | cons s names ih =>
    have hstep : step jsonDialect (settings, .names context reversed) (.leaf (.string s)) =
        .ok (settings, .names context (s :: reversed)) := rfl
    rw [List.map_cons, take_cons hstep, ih]
    simp

theorem itemEvents_strings (names : List String) :
    Json.itemEvents (names.map Json.string) = names.map fun s ↦ .leaf (.string s) := by
  induction names with
  | nil => rfl
  | cons s names ih => rw [List.map_cons, Json.itemEvents, ih]; rfl

/-- A value of its kind replaces what the key had, and nothing else. -/
theorem exists_take_value (settings : Settings) (context : Context) (h : key.Admits v) :
    ∃ settings', take v.valueEvents (settings, .value context key) =
        .ok (settings', .inside context) ∧
      ∀ k, settings'.value k = if k = key then v else settings.value k := by
  by_cases hkey : key = .proto
  · subst hkey
    obtain ⟨names, rfl⟩ : ∃ names : List String, v = .array (names.map Json.string) := by
      simpa [Key.Admits] using h
    refine ⟨{ settings with proto := names }, ?_, fun k ↦ by cases k <;> simp [value]⟩
    have hopen : step jsonDialect (settings, .value context .proto) .openList =
        .ok (settings, .names context []) := rfl
    have hclose : step jsonDialect (settings, .names context (names.reverse ++ [])) .closeList =
        .ok ({ settings with proto := names }, .inside context) := by simp [step]
    rw [valueEvents, itemEvents_strings, take_cons hopen, take_append (take_names names []),
      take_cons hclose]
    rfl
  · obtain ⟨s, rfl⟩ : ∃ s, v = .string s := by simpa [Key.Admits, hkey] using h
    refine ⟨settings.setText key s, ?_, fun k ↦ ?_⟩
    · have hstep : step jsonDialect (settings, .value context key) (.leaf (.string s)) =
          .ok (settings.setText key s, .inside context) := by
        simp [step, startValue, hkey, jsonDialect, scalarString?]
      rw [valueEvents, take_cons hstep]
      rfl
    · cases key <;> cases k <;> simp_all [value, setText]

/-- What the first event of a value says about it. -/
structure Opens (v : Json) (e : Event Json.Scalar) : Prop where
  describeEvent_eq : describeEvent jsonDialect e = some (found v)
  array_of_openList : e = .openList → ∃ items, v = .array items
  string_of_leaf : ∀ s, e = .leaf s → scalarString? s = none ∨ ∃ text, v = .string text

theorem integerText_eq_toString (i : ℤ) : Json.integerText i = toString i := by
  cases i with
  | ofNat n =>
    rw [Json.integerText, if_neg (by simp), String.empty_append]
    rfl
  | negSucc n =>
    rw [Json.integerText, if_pos (Int.negSucc_lt_zero n)]
    rfl

/-- Scalars are described as the documentation has them. -/
theorem describeScalar_eq_found (s : Json.Scalar) : describeScalar s = found (.scalar s) := by
  rcases s with - | (- | -) | (i | x) | s
  · rfl
  · rfl
  · rfl
  · show "integer `" ++ Json.integerText i ++ "`" = _
    rw [integerText_eq_toString]
    rfl
  · rfl
  · rfl

/-- Every value has a first event, from which its kind is known. -/
theorem exists_opens (v : Json) : ∃ e events, v.valueEvents = e :: events ∧ Opens v e := by
  cases v with
  | scalar s =>
    refine ⟨_, _, rfl, congrArg some (describeScalar_eq_found s), by simp, ?_⟩
    rintro _ ⟨⟩
    cases s with
    | string text => exact .inr ⟨text, rfl⟩
    | null | bool _ | number _ => exact .inl rfl
  | array items => exact ⟨_, _, rfl, rfl, fun _ ↦ ⟨items, rfl⟩, by simp⟩
  | object fields => exact ⟨_, _, rfl, rfl, by simp, by simp⟩

/-- A value whose first event is out of place is reported as a whole. -/
theorem take_mismatch {path : List Step} {expected : Expected}
    (h : ∀ e, Opens v e → step jsonDialect s e = .error (mismatch jsonDialect path expected e)) :
    take v.valueEvents s = .error (.wrongType path (found v) expected) := by
  obtain ⟨e, events, hevents, he⟩ := exists_opens v
  have hstep := h e he
  rw [mismatch, he.describeEvent_eq] at hstep
  rw [hevents, take_cons_of_error hstep]

/-- A value that is no string ends the reading where a string is due. -/
theorem take_notString (hkey : key ≠ .proto) (h : ∀ s, v ≠ .string s) :
    take v.valueEvents (settings, .value context key) =
      .error (.wrongType (context.path key) (found v) .string) := by
  refine take_mismatch fun e he ↦ ?_
  cases e with
  | leaf s =>
    have hs := (he.string_of_leaf s rfl).resolve_right (not_exists.2 h)
    simp [step, startValue, hkey, jsonDialect, hs]
  | openList | closeList | openMap | closeMap => simp [step, startValue, hkey]

/-- A value that is no list ends the reading where a list is due. -/
theorem take_notList (h : ∀ items, v ≠ .array items) :
    take v.valueEvents (settings, .value context .proto) =
      .error (.wrongType (context.path .proto) (found v) .sequence) := by
  refine take_mismatch fun e he ↦ ?_
  cases e with
  | openList => exact absurd (he.array_of_openList rfl) (not_exists.2 h)
  | leaf s => simp [step, startValue, jsonDialect]
  | closeList | openMap | closeMap => simp [step, startValue]

/-- A value that is no string ends the reading of a list of names. -/
theorem take_notName {reversed : List String} (h : ∀ s, v ≠ .string s) :
    take v.valueEvents (settings, .names context reversed) =
      .error (.wrongType (context.path .proto ++ [.index reversed.length]) (found v) .string) := by
  refine take_mismatch fun e he ↦ ?_
  cases e with
  | leaf s =>
    have hs := (he.string_of_leaf s rfl).resolve_right (not_exists.2 h)
    simp [step, jsonDialect, hs]
  | closeList =>
    -- No value opens with an end.
    exact absurd he.describeEvent_eq (by simp [describeEvent])
  | openList | openMap | closeMap => simp [step]

/-- The place of the first item that is no string is reported. -/
theorem take_notStrings {names : List String} {rest : List Json} (h : ∀ s, v ≠ .string s) :
    take (Json.array (names.map Json.string ++ v :: rest)).valueEvents
        (settings, .value context .proto) =
      .error (.wrongType (context.path .proto ++ [.index names.length]) (found v) .string) := by
  have hopen : step jsonDialect (settings, .value context .proto) .openList =
      .ok (settings, .names context []) := rfl
  have hitems : Json.itemEvents (names.map Json.string ++ v :: rest) =
      (names.map fun s ↦ .leaf (.string s)) ++ (v.valueEvents ++ Json.itemEvents rest) := by
    simp only [← itemEvents_strings, Json.itemEvents_eq_flatMap, List.flatMap_append,
      List.flatMap_cons]
  rw [valueEvents, hitems, take_cons hopen, List.append_assoc, take_append (take_names names []),
    List.append_assoc, take_append_of_error (take_notName h)]
  simp

/-! ### Rejections -/

theorem pathText_key (name : String) : pathText [.key name] = name := by
  simp [pathText]

/-- The printed path of an item has its index in brackets. -/
theorem pathText_proto_index (i : ℕ) :
    pathText [.key "proto", .index i] = "proto[" ++ toString i ++ "]" := by
  show "" ++ "proto" ++ ("[" ++ toString i ++ "]") = _
  rw [← String.append_assoc, ← String.append_assoc]
  rfl

-- The equations of `Problem.reason` hold by `rfl`; to unfold it by rewriting is slow.
/-- A value of the wrong type is reported with what was found and what was expected. -/
theorem rejection_wrongType (path : List Step) (found : String) (expected : Expected) :
    (Problem.wrongType path found expected).rejection false =
      ⟨pathText path, "invalid type: " ++ found ++ (", expected " ++ expected.text)⟩ := by
  show Rejection.mk (pathText path)
    ("" ++ "invalid type: " ++ found ++ ", expected " ++ expected.text) = _
  rw [String.empty_append, String.append_assoc]

/-- **A fault ends the reading**, and it is reported as such. -/
theorem exists_take_fault (settings : Settings) {name : String} {r : Rejection}
    (h : Fault (given.map Key.text) name v r) :
    ∃ problem, take (entryEvents name v) (settings, .inside (.byKey given)) = .error problem ∧
      problem.rejection false = r := by
  have hnew {key : Key} (h : key.text ∉ given.map Key.text) : key ∉ given :=
    fun hmem ↦ h (List.mem_map_of_mem hmem)
  cases h with
  | unknown h =>
    refine ⟨.unknownKey name, take_cons_of_error ?_, ?_⟩
    · show startKey jsonDialect settings given (.string name) = _
      simp [startKey, jsonDialect, scalarString?, Key.ofText?_eq_none h]
    · show Rejection.mk name ("unknown field `" ++ name ++ "`, expected one of " ++ keyList) = _
      simp only [String.append_assoc, -String.reduceAppend]
      rfl
  | @repeated key _ h =>
    obtain ⟨key', hkey', htext⟩ := List.mem_map.1 h
    obtain rfl := Key.text_injective htext
    refine ⟨.repeatedKey key', take_cons_of_error ?_, rfl⟩
    show startKey jsonDialect settings given (.string key'.text) = _
    simp [startKey, jsonDialect, scalarString?, Key.ofText?_text, hkey']
  | notString h hkey hv =>
    refine ⟨_, (take_key (hnew h)).trans (take_notString hkey hv), ?_⟩
    rw [rejection_wrongType, Context.path, pathText_key]
    rfl
  | notList h hv =>
    refine ⟨_, (take_key (hnew h)).trans (take_notList hv), ?_⟩
    rw [rejection_wrongType, Context.path, pathText_key]
    rfl
  | notStrings h hv =>
    refine ⟨_, (take_key (hnew h)).trans (take_notStrings hv), ?_⟩
    rw [rejection_wrongType]
    exact congrArg (Rejection.mk · _) (pathText_proto_index _)

/-! ### Entry by entry -/

/-- The keys that were given, where a key may come next. -/
def State.keysGiven : State → List Key
  | .inside (.byKey given) => given
  | _ => []

/-- What the decoder does with one entry. -/
def takeEntry (s : List Key × Settings) (p : String × Json) :
    Except Rejection (List Key × Settings) :=
  match take (entryEvents p.1 p.2) (s.2, .inside (.byKey s.1)) with
  | .ok (settings, state) => .ok (state.keysGiven, settings)
  | .error problem => .error (problem.rejection false)

/-- An entry leaves the decoder ready for the next one, or ends the decoding. -/
theorem take_entry_cases (settings : Settings) (given : List Key) (name : String) (v : Json) :
    (∃ given' settings', take (entryEvents name v) (settings, .inside (.byKey given)) =
        .ok (settings', .inside (.byKey given'))) ∨
      ∃ problem, take (entryEvents name v) (settings, .inside (.byKey given)) = .error problem := by
  obtain ⟨hname, key, rfl, hadmits⟩ | ⟨r, hfault⟩ :=
    admits_or_exists_fault (given.map Key.text) name v
  · have hnew : key ∉ given := fun hmem ↦ hname (List.mem_map_of_mem hmem)
    obtain ⟨settings', htake, -⟩ := exists_take_value settings (.byKey (key :: given)) hadmits
    exact .inl ⟨key :: given, settings', (take_key hnew).trans htake⟩
  · obtain ⟨problem, htake, -⟩ := exists_take_fault settings hfault
    exact .inr ⟨problem, htake⟩

/-- What comes of a row of entries, with anything behind them. -/
theorem take_fieldEvents_cases (entries : List (String × Json)) (settings : Settings)
    (given : List Key) :
    (∃ given' settings', entries.foldlM takeEntry (given, settings) = .ok (given', settings') ∧
        ∀ rest, take (Json.fieldEvents entries ++ rest) (settings, .inside (.byKey given)) =
          take rest (settings', .inside (.byKey given'))) ∨
      ∃ problem, entries.foldlM takeEntry (given, settings) = .error (problem.rejection false) ∧
        ∀ rest, take (Json.fieldEvents entries ++ rest) (settings, .inside (.byKey given)) =
          .error problem := by
  induction entries generalizing settings given with
  | nil => exact .inl ⟨given, settings, rfl, fun _ ↦ rfl⟩
  | cons p entries ih =>
    obtain ⟨name, v⟩ := p
    have hevents (rest : List (Event Json.Scalar)) :
        Json.fieldEvents ((name, v) :: entries) ++ rest =
          entryEvents name v ++ (Json.fieldEvents entries ++ rest) := by
      simp [Json.fieldEvents, entryEvents]
    simp only [hevents, List.foldlM_cons, takeEntry]
    rcases take_entry_cases settings given name v with ⟨given', settings', htake⟩ | ⟨problem, htake⟩
    · simp only [htake, take_append htake]
      exact ih settings' given'
    · simp only [htake, take_append_of_error htake]
      exact .inr ⟨problem, rfl, fun _ ↦ rfl⟩

/-- **The decoder keeps to what is documented.** -/
theorem documented_ofJson : Documented ofJson takeEntry where
  streams text entries hwrites := by
    rw [ofJson, Json.events_of_writes hwrites, decode, ← take, valueEvents, take_cons rfl]
    rcases take_fieldEvents_cases entries {} [] with
      ⟨given, settings, hfold, htake⟩ | ⟨problem, hfold, htake⟩
    · rw [hfold, htake]
      rfl
    · rw [hfold, htake]
      rfl
  replaces given settings key v hnew hadmits := by
    obtain ⟨settings', htake, hvalue⟩ :=
      exists_take_value settings (.byKey (key :: given)) hadmits
    refine ⟨key :: given, settings', ?_, fun k ↦ ?_, hvalue⟩
    · simp only [takeEntry, take_key hnew, htake]
      rfl
    · rw [List.mem_cons, or_comm]
  rejects given settings name v r hfault := by
    obtain ⟨problem, htake, rfl⟩ := exists_take_fault settings hfault
    simp only [takeEntry, htake]

/-! ### Messages -/

section Messages

variable {decode : String → Except Rejection Settings} {text message : String}

theorem ofText_eq_ok_iff : ofText decode text = .ok settings ↔ decode text = .ok settings := by
  rw [ofText]
  cases decode text <;> simp [Except.mapError]

/-- A failure message names the path and the reason of a rejection, and nothing else fails. -/
theorem ofText_eq_error_iff : ofText decode text = .error message ↔
    ∃ r, decode text = .error r ∧ message = "at key path " ++ r.path ++ " → " ++ r.reason := by
  rw [ofText]
  cases decode text <;> simp [Except.mapError, Rejection.message, eq_comm]

end Messages

/-- Entries in which the second name is no string, with an unknown key behind them. -/
def nullNameEntries : List (String × Json) :=
  [("preamble", .string ""), ("proto", .array [.string "A", .null]), ("b", .scalar (.bool true))]

/-- A text of these entries. -/
def nullNameText : String :=
  "\x7b\"preamble\":\"\", \"proto\": [\"A\", null], \"b\":true\x7d"

theorem lexeme_plain (s : String) (h : ∀ c ∈ s.toList, 0x20 ≤ c.toNat ∧ c ≠ '"' ∧ c ≠ '\\') :
    Json.Lexeme (.scalar (.string s)) ('"' :: (s.toList ++ ['"'])) :=
  .string (.plain h)

theorem writes_nullName : (Json.object nullNameEntries).Writes nullNameText := by
  have hnone : ∀ c ∈ ([] : List Char), Json.Token.isBlank c = true := List.forall_mem_nil _
  have hspace : ∀ c ∈ [' '], Json.Token.isBlank c = true := List.forall_mem_singleton.2 rfl
  have hwritten : Json.WritesTokens _ _ :=
    .cons hnone .openObject (by simp) <|
    .cons hnone (lexeme_plain "preamble" (by simp)) (by simp) <|
    .cons hnone .colon (by simp) <|
    .cons hnone (lexeme_plain "" (by simp)) (by simp) <|
    .cons hnone .comma (by simp) <|
    .cons hspace (lexeme_plain "proto" (by simp)) (by simp) <|
    .cons hnone .colon (by simp) <|
    .cons hspace .openArray (by simp) <|
    .cons hnone (lexeme_plain "A" (by simp)) (by simp) <|
    .cons hnone .comma (by simp) <|
    .cons hspace .null (by simp) <|
    .cons hnone .closeArray (by simp) <|
    .cons hnone .comma (by simp) <|
    .cons hspace (lexeme_plain "b" (by simp)) (by simp) <|
    .cons hnone .colon (by simp) <|
    .cons hnone .yes (by simp) <|
    .cons hnone .closeObject (by simp) <|
    .nil hnone
  exact hwritten

/-- A text in which a key comes again. -/
def repeatedKeyText : String :=
  "\x7b\"toplevel\":\"A\",\"toplevel\":\"B\"\x7d"

theorem writes_repeatedKey :
    (Json.object [("toplevel", .string "A"), ("toplevel", .string "B")]).Writes
      repeatedKeyText := by
  have hnone : ∀ c ∈ ([] : List Char), Json.Token.isBlank c = true := List.forall_mem_nil _
  have hwritten : Json.WritesTokens _ _ :=
    .cons hnone .openObject (by simp) <|
    .cons hnone (lexeme_plain "toplevel" (by simp)) (by simp) <|
    .cons hnone .colon (by simp) <|
    .cons hnone (lexeme_plain "A" (by simp)) (by simp) <|
    .cons hnone .comma (by simp) <|
    .cons hnone (lexeme_plain "toplevel" (by simp)) (by simp) <|
    .cons hnone .colon (by simp) <|
    .cons hnone (lexeme_plain "B" (by simp)) (by simp) <|
    .cons hnone .closeObject (by simp) <|
    .nil hnone
  exact hwritten

end SchemaCodec.Settings
