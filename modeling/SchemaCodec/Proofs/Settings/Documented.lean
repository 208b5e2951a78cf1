import Mathlib.Data.List.Induction
import SchemaCodec.Proofs.Entries
import SchemaCodec.Proofs.Json.Grammar
import SchemaCodec.Settings.Decoder
import SchemaCodec.Text.Quoted

/-!
# Settings written as an object

Settings are decoded by libraries. What is documented of them is collected in `Documented`: they
take in an object entry by entry, an entry of a known key that is new and has a value of its kind
replaces what that key had, and an entry with a `Fault` ends the decoding with a rejection, whatever
follows. The rejections are spelled out here, path and reason.

The rest follows for any libraries that keep to this. The entries of an object are `Acceptable` if
every key is known, comes once and has a value of its kind. Then the settings are the defaults with
exactly the given keys replaced (`Documented.value_of_decode`). Otherwise there is a first entry
that has a fault, the ones before it being acceptable (`acceptable_or_exists_firstFault`), and that
is what is reported (`Documented.decode_eq_error_iff`).
-/

namespace SchemaCodec.Settings

/-! ### What is accepted -/

/-- The value that a key has in the settings. -/
def value (settings : Settings) : Key → Json
  | .toplevel => .string settings.toplevel
  | .envelope => .string settings.envelope
  | .anything => .string settings.anything
  | .proto => .array (settings.proto.map Json.string)
  | .topLevelSuffix => .string settings.topLevelSuffix
  | .preamble => .string settings.preamble

/-- The values that a key may have: a list of strings for `proto`, a string for any other. -/
def Key.Admits (key : Key) (v : Json) : Prop :=
  if key = .proto then ∃ names : List String, v = .array (names.map Json.string)
  else ∃ s, v = .string s

/-- Entries that are settings: the keys are known and distinct, and each has a value of its kind. -/
structure Acceptable (entries : List (String × Json)) : Prop where
  nodup : (Entries.keys entries).Nodup
  admits : ∀ p ∈ entries, ∃ key : Key, key.text = p.1 ∧ key.Admits p.2

/-! ### What is rejected -/

/-- What a value is called in a reason. -/
def found : Json → String
  | .scalar .null => "null"
  | .scalar (.bool true) => "boolean `true`"
  | .scalar (.bool false) => "boolean `false`"
  | .scalar (.number (.integer i)) => "integer `" ++ toString i ++ "`"
  | .scalar (.number (.binary x)) => "floating point `" ++ (Json.Number.binary x).text ++ "`"
  | .scalar (.string s) => "string " ++ Text.quoted s
  | .array _ => "sequence"
  | .object _ => "map"

/-- What is wrong with an entry behind the keys in `given`, and how it is reported: an unknown key
at that key, a key that comes again at the whole object, and a value of the wrong kind at its key
or, in a list, at its first item that is no string. -/
inductive Fault (given : List String) : (name : String) → (v : Json) → Rejection → Prop
  | unknown {name : String} {v : Json} (h : ∀ key : Key, key.text ≠ name) :
      Fault given name v ⟨name, "unknown field `" ++ name ++ "`, expected one of `toplevel`, " ++
        "`envelope`, `anything`, `proto`, `top_level_suffix`, `preamble`"⟩
  | repeated {key : Key} {v : Json} (h : key.text ∈ given) :
      Fault given key.text v ⟨".", "duplicate field `" ++ key.text ++ "`"⟩
  | notString {key : Key} {v : Json} (hnew : key.text ∉ given) (hkey : key ≠ .proto)
      (h : ∀ s, v ≠ .string s) :
      Fault given key.text v
        ⟨key.text, "invalid type: " ++ found v ++ ", expected a string"⟩
  | notList {v : Json} (hnew : Key.proto.text ∉ given) (h : ∀ items, v ≠ .array items) :
      Fault given Key.proto.text v
        ⟨"proto", "invalid type: " ++ found v ++ ", expected a sequence"⟩
  | notStrings {names : List String} {v : Json} {rest : List Json} (hnew : Key.proto.text ∉ given)
      (h : ∀ s, v ≠ .string s) :
      Fault given Key.proto.text (.array (names.map Json.string ++ v :: rest))
        ⟨"proto[" ++ toString names.length ++ "]",
          "invalid type: " ++ found v ++ ", expected a string"⟩

/-- The first entry with a fault, behind entries that are settings. -/
def FirstFault (entries : List (String × Json)) (r : Rejection) : Prop :=
  ∃ before name v after, entries = before ++ (name, v) :: after ∧ Acceptable before ∧
    Fault (Entries.keys before) name v r

/-- A key is known from its text. -/
theorem Key.ofText?_text (key : Key) : ofText? key.text = some key := by
  cases key <;> decide

theorem Key.text_injective : Function.Injective Key.text := by
  intro key key' h
  have hkey := key.ofText?_text
  rw [h, key'.ofText?_text, Option.some_inj] at hkey
  exact hkey.symm

/-- Settings are what their keys have. -/
theorem ext_value {s s' : Settings} (h : ∀ key, s.value key = s'.value key) : s = s' := by
  have hproto : s.proto = s'.proto := by
    have hmap : s.proto.map Json.string = s'.proto.map Json.string := Json.array.inj (h .proto)
    refine List.map_injective_iff.2 (fun a b hab ↦ ?_) hmap
    simpa using hab
  have htext {a b : String} (h : Json.string a = Json.string b) : a = b := by simpa using h
  obtain ⟨toplevel, envelope, anything, proto, topLevelSuffix, preamble⟩ := s
  obtain ⟨toplevel', envelope', anything', proto', topLevelSuffix', preamble'⟩ := s'
  congr
  · exact htext (h .toplevel)
  · exact htext (h .envelope)
  · exact htext (h .anything)
  · exact htext (h .topLevelSuffix)
  · exact htext (h .preamble)

/-- One more entry is acceptable if its key is new and known and admits the value. -/
theorem acceptable_append_singleton_iff {entries : List (String × Json)} {name : String}
    {v : Json} :
    Acceptable (entries ++ [(name, v)]) ↔
      Acceptable entries ∧ name ∉ Entries.keys entries ∧
        ∃ key : Key, key.text = name ∧ key.Admits v := by
  have hkeys : (Entries.keys (entries ++ [(name, v)])).Nodup ↔
      (Entries.keys entries).Nodup ∧ name ∉ Entries.keys entries := by
    rw [Entries.keys_append_singleton, ← List.concat_eq_append, List.nodup_concat, and_comm]
  constructor
  · rintro ⟨hnodup, hadmits⟩
    obtain ⟨hentries, hname⟩ := hkeys.1 hnodup
    exact ⟨⟨hentries, fun p hp ↦ hadmits p (List.mem_append_left _ hp)⟩, hname,
      hadmits (name, v) List.mem_concat_self⟩
  · rintro ⟨⟨hentries, hadmits⟩, hname, hlast⟩
    refine ⟨hkeys.2 ⟨hentries, hname⟩, fun p hp ↦ ?_⟩
    obtain hp | hp := List.mem_append.1 hp
    · exact hadmits p hp
    · obtain rfl := List.mem_singleton.1 hp
      exact hlast

variable {key : Key} {v : Json} {entries entries' : List (String × Json)}

/-- Acceptable entries may come in any order. -/
theorem Acceptable.perm (h : Acceptable entries) (hperm : entries'.Perm entries) :
    Acceptable entries' :=
  ⟨(hperm.map Prod.fst).nodup_iff.2 h.nodup, fun p hp ↦ h.admits p (hperm.mem_iff.1 hp)⟩

/-! ### The first fault -/

/-- The items of a list are strings up to the first that is none. -/
theorem strings_or_exists_notString (items : List Json) :
    (∃ names : List String, items = names.map Json.string) ∨
      ∃ (names : List String) (v : Json) (rest : List Json),
        items = names.map Json.string ++ v :: rest ∧ ∀ s, v ≠ .string s := by
  induction items with
  | nil => exact .inl ⟨[], rfl⟩
  | cons v items ih =>
    by_cases hv : ∃ s, v = .string s
    · obtain ⟨s, rfl⟩ := hv
      obtain ⟨names, rfl⟩ | ⟨names, w, rest, rfl, hw⟩ := ih
      · exact .inl ⟨s :: names, rfl⟩
      · exact .inr ⟨s :: names, w, rest, rfl, hw⟩
    · exact .inr ⟨[], v, items, rfl, not_exists.1 hv⟩

/-- A value that a key does not admit is a fault, with its own rejection. -/
theorem exists_fault_of_not_admits {keys : List String} (hnew : key.text ∉ keys)
    (h : ¬key.Admits v) : ∃ r, Fault keys key.text v r := by
  by_cases hkey : key = .proto
  · subst hkey
    have h : ¬∃ names : List String, v = .array (names.map Json.string) := by
      simpa [Key.Admits] using h
    by_cases hv : ∃ items, v = .array items
    · obtain ⟨items, rfl⟩ := hv
      obtain ⟨names, rfl⟩ | ⟨names, w, rest, rfl, hw⟩ := strings_or_exists_notString items
      · exact absurd ⟨names, rfl⟩ h
      · exact ⟨_, .notStrings hnew hw⟩
    · exact ⟨_, .notList hnew (not_exists.1 hv)⟩
  · have h : ¬∃ s, v = .string s := by simpa [Key.Admits, hkey] using h
    exact ⟨_, .notString hnew hkey (not_exists.1 h)⟩

/-- An entry has a fault unless its key is known and new and admits its value. -/
theorem admits_or_exists_fault (keys : List String) (name : String) (v : Json) :
    (name ∉ keys ∧ ∃ key : Key, key.text = name ∧ key.Admits v) ∨
      ∃ r, Fault keys name v r := by
  by_cases hknown : ∃ key : Key, key.text = name
  · obtain ⟨key, rfl⟩ := hknown
    by_cases hnew : key.text ∈ keys
    · exact .inr ⟨_, .repeated hnew⟩
    · by_cases hadmits : key.Admits v
      · exact .inl ⟨hnew, key, rfl, hadmits⟩
      · exact .inr (exists_fault_of_not_admits hnew hadmits)
  · exact .inr ⟨_, .unknown (not_exists.1 hknown)⟩

theorem acceptable_nil : Acceptable [] :=
  ⟨List.nodup_nil, List.forall_mem_nil _⟩

/-- **Entries are settings, or a first one is not.** -/
theorem acceptable_or_exists_firstFault (entries : List (String × Json)) :
    Acceptable entries ∨ ∃ r, FirstFault entries r := by
  induction entries using List.reverseRecOn with
  | nil => exact .inl acceptable_nil
  | append_singleton entries p ih =>
    obtain ⟨name, v⟩ := p
    obtain hentries | ⟨r, before, name', v', after, rfl, hbefore, hfault⟩ := ih
    · obtain hadmits | ⟨r, hfault⟩ := admits_or_exists_fault (Entries.keys entries) name v
      · exact .inl (acceptable_append_singleton_iff.2 ⟨hentries, hadmits⟩)
      · exact .inr ⟨r, entries, name, v, [], rfl, hentries, hfault⟩
    · exact .inr ⟨r, before, name', v', after ++ [(name, v)], by simp, hbefore, hfault⟩

/-! ### What is documented of the libraries -/

/-- What is documented of libraries that decode settings from JSON. Between two entries they know
the keys that were given and the settings so far; `take` is what they do with one more entry. -/
structure Documented (decode : String → Except Rejection Settings)
    (take : List Key × Settings → String × Json → Except Rejection (List Key × Settings)) :
    Prop where
  /-- An object is taken in entry by entry, starting from the defaults. -/
  streams : ∀ text entries, (Json.object entries).Writes text →
    decode text = (entries.foldlM take ([], {})).map Prod.snd
  /-- A known key that is new and has a value of its kind gets that value. -/
  replaces : ∀ given settings (key : Key) v, key ∉ given → key.Admits v →
    ∃ given' settings', take (given, settings) (key.text, v) = .ok (given', settings') ∧
      (∀ k, k ∈ given' ↔ k ∈ given ∨ k = key) ∧
      ∀ k, settings'.value k = if k = key then v else settings.value k
  /-- A fault is reported at once. -/
  rejects : ∀ given settings name v r, Fault (given.map Key.text) name v r →
    take (given, settings) (name, v) = .error r

/-- A fault depends on which keys were given, not on their order. -/
theorem Fault.of_mem_iff {given given' : List String} {name : String} {r : Rejection}
    (hmem : ∀ name, name ∈ given ↔ name ∈ given') (h : Fault given name v r) :
    Fault given' name v r := by
  cases h with
  | unknown h => exact .unknown h
  | repeated h => exact .repeated ((hmem _).1 h)
  | notString hnew hkey h => exact .notString (mt (hmem _).2 hnew) hkey h
  | notList hnew h => exact .notList (mt (hmem _).2 hnew) h
  | notStrings hnew h => exact .notStrings (mt (hmem _).2 hnew) h

section Documented

variable {decode : String → Except Rejection Settings}
  {take : List Key × Settings → String × Json → Except Rejection (List Key × Settings)}
  {text : String} {r : Rejection} (hlib : Documented decode take)

include hlib

/-- **Acceptable entries are taken in.** What comes of them is the defaults with the given values in
their places. -/
theorem Documented.exists_foldlM (h : Acceptable entries) :
    ∃ given settings, entries.foldlM take ([], {}) = .ok (given, settings) ∧
      (∀ name, name ∈ given.map Key.text ↔ name ∈ Entries.keys entries) ∧
      ∀ key : Key, settings.value key =
        (Entries.get? key.text entries).getD (({} : Settings).value key) := by
  induction entries using List.reverseRecOn with
  | nil => exact ⟨[], {}, rfl, fun _ ↦ Iff.rfl, fun _ ↦ rfl⟩
  | append_singleton entries p ih =>
    obtain ⟨name, v⟩ := p
    obtain ⟨hentries, hname, key, rfl, hadmits⟩ := acceptable_append_singleton_iff.1 h
    obtain ⟨given, settings, hfold, hgiven, hvalue⟩ := ih hentries
    have hnew : key ∉ given := fun hmem ↦ hname ((hgiven _).1 (List.mem_map_of_mem hmem))
    obtain ⟨given', settings', htake, hgiven', hvalue'⟩ :=
      hlib.replaces given settings key v hnew hadmits
    refine ⟨given', settings', ?_, fun name ↦ ?_, fun k ↦ ?_⟩
    · rw [List.foldlM_append, hfold]
      show List.foldlM take (given, settings) [(key.text, v)] = _
      rw [List.foldlM_cons, htake]
      rfl
    · rw [Entries.keys_append_singleton, List.mem_append, List.mem_singleton, ← hgiven,
        @eq_comm _ name]
      simp only [List.mem_map, hgiven', or_and_right, exists_or, exists_eq_left]
    · rw [hvalue']
      by_cases hk : k = key
      · subst hk
        rw [Entries.get?_append_of_not_mem hname]
        simp [Entries.get?]
      · have hne : key.text ≠ k.text := fun heq ↦ hk (Key.text_injective heq).symm
        rw [if_neg hk, Entries.get?_append_cons_of_ne hne, List.append_nil, hvalue]

/-- **Acceptable entries give settings**, in which every given key has its value and any other its
default. -/
theorem Documented.decode_of_acceptable (hwrites : (Json.object entries).Writes text)
    (h : Acceptable entries) : ∃ settings, decode text = .ok settings ∧
      ∀ key : Key, settings.value key =
        (Entries.get? key.text entries).getD (({} : Settings).value key) := by
  obtain ⟨given, settings, hfold, -, hvalue⟩ := hlib.exists_foldlM h
  refine ⟨settings, ?_, hvalue⟩
  rw [hlib.streams text entries hwrites, hfold]
  rfl

/-- **The first fault is reported**, whatever comes behind it. -/
theorem Documented.decode_of_firstFault (hwrites : (Json.object entries).Writes text)
    (h : FirstFault entries r) : decode text = .error r := by
  obtain ⟨before, name, v, after, rfl, hbefore, hfault⟩ := h
  obtain ⟨given, settings, hfold, hgiven, -⟩ := hlib.exists_foldlM hbefore
  have htake : take (given, settings) (name, v) = .error r :=
    hlib.rejects given settings name v r (hfault.of_mem_iff fun name ↦ (hgiven name).symm)
  rw [hlib.streams text _ hwrites, List.foldlM_append, hfold]
  show Except.map Prod.snd (List.foldlM take (given, settings) ((name, v) :: after)) = _
  rw [List.foldlM_cons, htake]
  rfl

variable {settings : Settings} (hwrites : (Json.object entries).Writes text)

include hwrites

/-- A text gives settings exactly if its entries are acceptable. -/
theorem Documented.exists_decode_iff :
    (∃ settings, decode text = .ok settings) ↔ Acceptable entries := by
  constructor
  · rintro ⟨settings, hok⟩
    refine (acceptable_or_exists_firstFault entries).resolve_right ?_
    rintro ⟨r, hfault⟩
    exact absurd (hok.symm.trans (hlib.decode_of_firstFault hwrites hfault)) (by simp)
  · intro hacceptable
    obtain ⟨settings, hok, -⟩ := hlib.decode_of_acceptable hwrites hacceptable
    exact ⟨settings, hok⟩

/-- The settings of a text are the defaults with the given keys replaced. -/
theorem Documented.value_of_decode (hok : decode text = .ok settings) (key : Key) :
    settings.value key = (Entries.get? key.text entries).getD (({} : Settings).value key) := by
  obtain ⟨settings', hok', hvalue⟩ :=
    hlib.decode_of_acceptable hwrites ((hlib.exists_decode_iff hwrites).1 ⟨settings, hok⟩)
  obtain rfl : settings = settings' := Except.ok.inj (hok.symm.trans hok')
  exact hvalue key

/-- The same entries in another order give the same settings. -/
theorem Documented.decode_of_perm {text' : String} (hok : decode text = .ok settings)
    (hwrites' : (Json.object entries').Writes text') (hperm : entries'.Perm entries) :
    decode text' = .ok settings := by
  have hacceptable := (hlib.exists_decode_iff hwrites).1 ⟨settings, hok⟩
  obtain ⟨settings', hok', hvalue'⟩ :=
    hlib.decode_of_acceptable hwrites' (hacceptable.perm hperm)
  have heq : settings' = settings := ext_value fun key ↦ by
    rw [hvalue', hlib.value_of_decode hwrites hok, Entries.get?_eq_of_perm hacceptable.nodup hperm]
  rw [hok', heq]

/-- A text is rejected exactly for its first fault. -/
theorem Documented.decode_eq_error_iff : decode text = .error r ↔ FirstFault entries r := by
  refine ⟨fun herror ↦ ?_, hlib.decode_of_firstFault hwrites⟩
  have hrejected : ¬Acceptable entries := by
    intro hacceptable
    obtain ⟨settings, hok⟩ := (hlib.exists_decode_iff hwrites).2 hacceptable
    exact absurd (hok.symm.trans herror) (by simp)
  obtain ⟨r', hfault⟩ := (acceptable_or_exists_firstFault entries).resolve_left hrejected
  obtain rfl : r = r' :=
    Except.error.inj (herror.symm.trans (hlib.decode_of_firstFault hwrites hfault))
  exact hfault

end Documented

end SchemaCodec.Settings
