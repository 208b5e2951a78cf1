import SchemaCodec.Proofs.Text.Decomposition
import SchemaCodec.TypeExpr.OfSchema

/-!
# How a schema node is read

The rules by which a node is read, stated on the node itself. Five keywords are looked at in a fixed
order (`keywordRules`), and a node that all of them pass over is read by its `type`; what no rule
claims is a plain string. A keyword whose value has the wrong kind is as good as missing.

`ReadsAs node t` says that one of the rules gives the node the type `t`, its parts being left to
`TypeExpr.ofSchema`. Every node has the reading that `ofSchema` computes and no other
(`readsAs_ofSchema`, `ReadsAs.eq`), so whatever is known of a node's type can be turned into what
its keywords say, and back.
-/

namespace SchemaCodec

/-- What a shape denotes, its children being schema nodes. -/
def Shape.type : Shape → TypeExpr
  | .reference name => .named name
  | .const value => .literal value
  | .anyOf arms => .union (arms.map .ofSchema)
  | .allOf arms => .intersection (arms.map .ofSchema)
  | .record values => .record (.ofSchema values)
  | .object properties required =>
    .interface ((properties.getD []).map fun p ↦
      ⟨p.1, .ofSchema p.2, !required.contains p.1⟩)
  | .array none => .array .string
  | .array (some items) => .array (.ofSchema items)
  | .number => .number
  | .integer => .number
  | .null => .null
  | .boolean => .boolean
  | .stringEnum values => .union (values.map fun s ↦ .literal (.string s))
  | .plainString => .string

/-- The type of a schema is the type of its shape. -/
theorem ofSchema_eq (node : Json) : TypeExpr.ofSchema node = (Shape.ofJson node).type := by
  rw [TypeExpr.ofSchema]
  split
  case h_6 properties required h =>
    have htype := congrArg Shape.type h
    refine Eq.trans ?_ htype.symm
    exact congrArg TypeExpr.interface (List.attach_map_val
      (f := fun p : String × Json ↦
        (⟨p.1, TypeExpr.ofSchema p.2, !required.contains p.1⟩ : Field TypeExpr)))
  all_goals simp_all [Shape.type]

namespace Schema

/-- `name` is what follows the last slash of `target`, or all of it if there is no slash. -/
def LastSegment (target name : String) : Prop :=
  '/' ∉ name.toList ∧ (target = name ∨ ∃ init, target = init ++ "/" ++ name)

/-- The rules that look for a keyword, in order of precedence. -/
def keywordRules : List (Json → Prop) :=
  [fun node ↦ ∃ target, node.field? "$ref" = some (.string target),
   fun node ↦ ∃ value, node.field? "const" = some value,
   fun node ↦ ∃ arms, node.field? "anyOf" = some (.array arms),
   fun node ↦ ∃ arms, node.field? "allOf" = some (.array arms),
   fun node ↦ node.field? "properties" = none ∧
     ∃ fields, node.field? "additionalProperties" = some (.object fields)]

/-- None of the first `count` keyword rules applies. -/
def PassesOver (count : ℕ) (node : Json) : Prop :=
  ∀ rule ∈ keywordRules.take count, ¬rule node

/-- No keyword rule applies, and `type` is the given word. -/
def HasType (node : Json) (type : String) : Prop :=
  PassesOver 5 node ∧ node.field? "type" = some (.string type)

/-- A string type whose `enum` lists strings only. -/
def HasEnum (node : Json) (values : List String) : Prop :=
  HasType node "string" ∧ node.field? "enum" = some (.array (values.map Json.string))

/-- No rule applies. -/
structure IsPlain (node : Json) : Prop where
  passesOver : PassesOver 5 node
  not_hasType : ∀ type ∈ ["object", "array", "number", "integer", "null", "boolean"],
    ¬HasType node type
  not_hasEnum : ∀ values, ¬HasEnum node values

/-- `key` is listed among the properties, with the schema `child`. -/
def ListsProperty (node : Json) (key : String) (child : Json) : Prop :=
  ∃ properties, node.field? "properties" = some (.object properties) ∧ (key, child) ∈ properties

/-- `key` is listed as required. -/
def Requires (node : Json) (key : String) : Prop :=
  ∃ names, node.field? "required" = some (.array names) ∧ Json.string key ∈ names

/-! ### The name in a reference -/

/-- A reference names the last segment of its target. -/
theorem referenceName_eq_iff {target name : String} :
    Shape.referenceName target = name ↔ LastSegment target name := by
  rw [Shape.referenceName, ← String.toList_inj, String.toList_ofList, List.reverse_eq_iff,
    Text.takeWhile_ne_eq_iff, List.mem_reverse, LastSegment]
  refine and_congr_right fun _ ↦ or_congr ?_ ?_
  · rw [List.reverse_inj, String.toList_inj]
  · -- the target is read backwards, so what comes last is found first
    constructor
    · rintro ⟨rest, hrest⟩
      refine ⟨String.ofList rest.reverse, ?_⟩
      rw [← String.toList_inj, ← List.reverse_inj, hrest]
      simp
    · rintro ⟨init, rfl⟩
      exact ⟨init.toList.reverse, by simp⟩

/-! ### Keywords, as they are looked up -/

section Keywords

variable {o : Option Json} {node : Json}

theorem bind_string?_eq_some_iff {s : String} :
    o.bind Json.string? = some s ↔ o = some (.string s) := by
  rcases o with - | (s | items | fields)
  · simp
  · cases s <;> simp [Json.string?]
  · simp [Json.string?]
  · simp [Json.string?]

theorem bind_items?_eq_some_iff {items : List Json} :
    o.bind Json.items? = some items ↔ o = some (.array items) := by
  rcases o with - | (s | items | fields) <;> simp [Json.items?]

theorem bind_fields?_eq_some_iff {fields : Entries String Json} :
    o.bind Json.fields? = some fields ↔ o = some (.object fields) := by
  rcases o with - | (s | items | fields) <;> simp [Json.fields?]

theorem bind_string?_eq_none_iff : o.bind Json.string? = none ↔ ¬∃ s, o = some (.string s) := by
  rw [Option.eq_none_iff_forall_ne_some, not_exists]
  exact forall_congr' fun _ ↦ not_congr bind_string?_eq_some_iff

theorem bind_items?_eq_none_iff : o.bind Json.items? = none ↔ ¬∃ items, o = some (.array items) := by
  rw [Option.eq_none_iff_forall_ne_some, not_exists]
  exact forall_congr' fun _ ↦ not_congr bind_items?_eq_some_iff

/-- A list of JSON values holds strings only when it is read back from them. -/
theorem mapM_string?_eq_some_iff {items : List Json} {values : List String} :
    items.mapM Json.string? = some values ↔ items = values.map Json.string := by
  induction items generalizing values with
  | nil => cases values <;> simp
  | cons x items ih =>
    rw [List.mapM_cons]
    constructor
    · intro h
      obtain ⟨s, hs, h⟩ := Option.bind_eq_some_iff.1 h
      obtain ⟨rest, hrest, h⟩ := Option.bind_eq_some_iff.1 h
      obtain rfl := Option.some_inj.1 h
      obtain rfl : x = .string s := Option.some_inj.1 (bind_string?_eq_some_iff.1 hs)
      rw [ih.1 hrest, List.map_cons]
    · intro h
      cases values with
      | nil => exact absurd h (List.cons_ne_nil _ _)
      | cons s values =>
        obtain ⟨rfl, rfl⟩ := List.cons.inj h
        simp [Json.string?, ih.2 rfl]

/-- An enumeration is one of strings if every value is a string. -/
theorem enumStrings?_eq_some_iff {fields : Entries String Json} {values : List String} :
    Shape.enumStrings? fields = some values ↔
      fields.get? "enum" = some (.array (values.map Json.string)) := by
  rw [Shape.enumStrings?]
  constructor
  · intro h
    obtain ⟨items, hitems, h⟩ := Option.bind_eq_some_iff.1 h
    rw [bind_items?_eq_some_iff.1 hitems, mapM_string?_eq_some_iff.1 h]
  · intro h
    rw [bind_items?_eq_some_iff.2 h]
    exact mapM_string?_eq_some_iff.2 rfl

theorem isObject_iff : node.isObject = true ↔ ∃ fields, node = .object fields := by
  cases node <;> simp [Json.isObject, Json.fields?]

/-- A record is an object without listed properties whose further properties have a schema. -/
theorem recordValues?_eq_some_iff {fields : Entries String Json} {values : Json} :
    Shape.recordValues? fields = some values ↔
      fields.get? "properties" = none ∧ fields.get? "additionalProperties" = some values ∧
        ∃ entries, values = .object entries := by
  rw [Shape.recordValues?]
  rcases fields.get? "properties" with - | properties
  · simp [Option.filter_eq_some_iff, isObject_iff]
  · simp

end Keywords

/-! ### The rules -/

/-- The members that the properties of a node give an interface. -/
def members (node : Json) : List (Field TypeExpr) :=
  (((node.field? "properties").bind Json.fields?).getD []).map fun p ↦
    ⟨p.1, .ofSchema p.2, !((node.fields?.map Shape.requiredNames).getD []).contains p.1⟩

/-- The type that the rules give a node. -/
inductive ReadsAs : Json → TypeExpr → Prop
  | reference {node : Json} {target name : String} (h : node.field? "$ref" = some (.string target))
      (hname : LastSegment target name) : ReadsAs node (.named name)
  | const {node wanted : Json} (hpass : PassesOver 1 node) (h : node.field? "const" = some wanted) :
      ReadsAs node (.literal wanted)
  | anyOf {node : Json} {arms : List Json} (hpass : PassesOver 2 node)
      (h : node.field? "anyOf" = some (.array arms)) : ReadsAs node (.union (arms.map .ofSchema))
  | allOf {node : Json} {arms : List Json} (hpass : PassesOver 3 node)
      (h : node.field? "allOf" = some (.array arms)) :
      ReadsAs node (.intersection (arms.map .ofSchema))
  | record {node : Json} {fields : List (String × Json)} (hpass : PassesOver 4 node)
      (hnone : node.field? "properties" = none)
      (h : node.field? "additionalProperties" = some (.object fields)) :
      ReadsAs node (.record (.ofSchema (.object fields)))
  | object {node : Json} (h : HasType node "object") : ReadsAs node (.interface (members node))
  | arrayOf {node : Json} {fields : List (String × Json)} (h : HasType node "array")
      (hitems : node.field? "items" = some (.object fields)) :
      ReadsAs node (.array (.ofSchema (.object fields)))
  | arrayOfStrings {node : Json} (h : HasType node "array")
      (hitems : ∀ fields, node.field? "items" ≠ some (.object fields)) :
      ReadsAs node (.array .string)
  | number {node : Json} (h : HasType node "number" ∨ HasType node "integer") :
      ReadsAs node .number
  | null {node : Json} (h : HasType node "null") : ReadsAs node .null
  | boolean {node : Json} (h : HasType node "boolean") : ReadsAs node .boolean
  | stringEnum {node : Json} {values : List String} (h : HasEnum node values) :
      ReadsAs node (.union (values.map fun s ↦ .literal (.string s)))
  | plainString {node : Json} (h : IsPlain node) : ReadsAs node .string

section Object

variable {fields : Entries String Json}

/-- A keyword of an object node is an entry of the object. -/
theorem field?_object {key : String} : Json.field? (.object fields) key = fields.get? key :=
  rfl

theorem passesOver_one_iff :
    PassesOver 1 (.object fields) ↔ (fields.get? "$ref").bind Json.string? = none := by
  rw [bind_string?_eq_none_iff]
  simp [PassesOver, keywordRules, field?_object]

theorem passesOver_two_iff :
    PassesOver 2 (.object fields) ↔
      PassesOver 1 (.object fields) ∧ fields.get? "const" = none := by
  simp [PassesOver, keywordRules, field?_object, Option.eq_none_iff_forall_ne_some]

theorem passesOver_three_iff :
    PassesOver 3 (.object fields) ↔
      PassesOver 2 (.object fields) ∧ (fields.get? "anyOf").bind Json.items? = none := by
  rw [bind_items?_eq_none_iff]
  simp [PassesOver, keywordRules, field?_object, and_assoc]

theorem passesOver_four_iff :
    PassesOver 4 (.object fields) ↔
      PassesOver 3 (.object fields) ∧ (fields.get? "allOf").bind Json.items? = none := by
  rw [bind_items?_eq_none_iff]
  simp [PassesOver, keywordRules, field?_object, and_assoc]

theorem recordValues?_eq_none_iff :
    Shape.recordValues? fields = none ↔
      ¬(fields.get? "properties" = none ∧
        ∃ values, fields.get? "additionalProperties" = some (.object values)) := by
  rw [Option.eq_none_iff_forall_ne_some]
  simp only [ne_eq, recordValues?_eq_some_iff, not_and, not_exists]
  constructor
  · intro h hnone entries hvalues
    exact h _ hnone hvalues entries rfl
  · rintro h values hnone hvalues entries rfl
    exact h hnone entries hvalues

/-- The first five rules are passed over one after the other, like the four before. -/
theorem passesOver_five_iff :
    PassesOver 5 (.object fields) ↔
      PassesOver 4 (.object fields) ∧ Shape.recordValues? fields = none := by
  rw [recordValues?_eq_none_iff]
  simp [PassesOver, keywordRules, field?_object, and_assoc]

/-- A node that passes over all keywords has the shape of its type. -/
theorem ofFields_eq_ofType (h : PassesOver 5 (.object fields)) :
    Shape.ofFields fields = Shape.ofType fields := by
  obtain ⟨h, hrecord⟩ := passesOver_five_iff.1 h
  obtain ⟨h, hall⟩ := passesOver_four_iff.1 h
  obtain ⟨h, hany⟩ := passesOver_three_iff.1 h
  obtain ⟨h, hconst⟩ := passesOver_two_iff.1 h
  have href := passesOver_one_iff.1 h
  simp only [Shape.ofFields, href, hconst, hany, hall, hrecord]

end Object

/-! ### The rules cover every node, and each node once -/

/-- What is no object has no keywords. -/
theorem field?_eq_none {node : Json} (h : ¬∃ fields, node = .object fields) (key : String) :
    node.field? key = none := by
  cases node with
  | object fields => exact absurd ⟨fields, rfl⟩ h
  | scalar s => rfl
  | array items => rfl

theorem isPlain_of_not_object {node : Json} (h : ¬∃ fields, node = .object fields) :
    IsPlain node where
  passesOver := by simp [PassesOver, keywordRules, field?_eq_none h]
  not_hasType := by simp [HasType, field?_eq_none h]
  not_hasEnum := by simp [HasEnum, field?_eq_none h]

/-- What is no object is read as a string type. -/
theorem ofSchema_of_not_object {node : Json} (h : ¬∃ fields, node = .object fields) :
    TypeExpr.ofSchema node = .string := by
  rw [ofSchema_eq]
  cases node with
  | object fields => exact absurd ⟨fields, rfl⟩ h
  | scalar s => rfl
  | array items => rfl

/-- Behind the first five rules, the type keyword decides. -/
theorem readsAs_ofType {fields : Entries String Json} (hpass : PassesOver 5 (.object fields)) :
    ReadsAs (.object fields) (Shape.ofType fields).type := by
  have hnot : ∀ type type', type ≠ type' → fields.get? "type" = some (.string type) →
      ¬HasType (.object fields) type' := by
    rintro type type' hne htype ⟨-, htype'⟩
    rw [field?_object, htype] at htype'
    simp [hne] at htype'
  unfold Shape.ofType
  split
  · next hnone =>
    have hno : ∀ type, ¬HasType (.object fields) type := fun type h ↦
      bind_string?_eq_none_iff.1 hnone ⟨type, h.2⟩
    exact .plainString ⟨hpass, fun type _ ↦ hno type, fun values h ↦ hno _ h.1⟩
  · next type hsome =>
    have htype := bind_string?_eq_some_iff.1 hsome
    have hhas : HasType (.object fields) type := ⟨hpass, htype⟩
    split
    · next heq => exact .object (heq ▸ hhas)
    split
    · next heq =>
      rcases hitems : fields.get? "items" with - | items
      · exact .arrayOfStrings (heq ▸ hhas) fun values h ↦ by simp [field?_object, hitems] at h
      · show ReadsAs _ (.array (.ofSchema items))
        by_cases hobject : ∃ values, items = .object values
        · obtain ⟨values, rfl⟩ := hobject
          exact .arrayOf (heq ▸ hhas) hitems
        · rw [ofSchema_of_not_object hobject]
          refine .arrayOfStrings (heq ▸ hhas) fun values h ↦ hobject ⟨values, ?_⟩
          exact Option.some_inj.1 (hitems.symm.trans h)
    split
    · next heq => exact .number (.inl (heq ▸ hhas))
    split
    · next heq => exact .number (.inr (heq ▸ hhas))
    split
    · next heq => exact .null (heq ▸ hhas)
    split
    · next heq => exact .boolean (heq ▸ hhas)
    split
    · next heq =>
      split
      · next values henum =>
        exact .stringEnum ⟨heq ▸ hhas, enumStrings?_eq_some_iff.1 henum⟩
      · next henum =>
        refine .plainString ⟨hpass, fun other hother ↦ ?_, fun values h ↦ ?_⟩
        · refine hnot type other ?_ htype
          rintro rfl
          simp [heq] at hother
        · exact absurd (enumStrings?_eq_some_iff.2 h.2) (by simp [henum])
    · next hstring =>
      -- an unknown type is as good as none
      refine .plainString ⟨hpass, fun other hother ↦ hnot type other ?_ htype, fun values h ↦ ?_⟩
      · rintro rfl
        simp_all
      · exact hnot type "string" hstring htype h.1

/-- **Every node has a reading.** -/
theorem readsAs_ofSchema (node : Json) : ReadsAs node (.ofSchema node) := by
  by_cases hobject : ∃ fields, node = .object fields
  · obtain ⟨fields, rfl⟩ := hobject
    rw [ofSchema_eq]
    show ReadsAs _ (Shape.ofFields fields).type
    unfold Shape.ofFields
    split
    · next target href =>
      exact .reference (bind_string?_eq_some_iff.1 href) (referenceName_eq_iff.1 rfl)
    · next href =>
      have hone := passesOver_one_iff.2 href
      split
      · next value hconst => exact .const hone hconst
      · next hconst =>
        have htwo := passesOver_two_iff.2 ⟨hone, hconst⟩
        split
        · next arms hany => exact .anyOf htwo (bind_items?_eq_some_iff.1 hany)
        · next hany =>
          have hthree := passesOver_three_iff.2 ⟨htwo, hany⟩
          split
          · next arms hall => exact .allOf hthree (bind_items?_eq_some_iff.1 hall)
          · next hall =>
            have hfour := passesOver_four_iff.2 ⟨hthree, hall⟩
            split
            · next values hrecord =>
              obtain ⟨hnone, hvalues, entries, rfl⟩ := recordValues?_eq_some_iff.1 hrecord
              exact .record hfour hnone hvalues
            · next hrecord => exact readsAs_ofType (passesOver_five_iff.2 ⟨hfour, hrecord⟩)
  · rw [ofSchema_of_not_object hobject]
    exact .plainString (isPlain_of_not_object hobject)

/-- Where the type keyword decides, the shape is that of the type keyword. -/
theorem ofFields_of_hasType {fields : Entries String Json} {type : String}
    (h : HasType (.object fields) type) :
    Shape.ofFields fields = Shape.ofType fields ∧
      (fields.get? "type").bind Json.string? = some type :=
  ⟨ofFields_eq_ofType h.1, bind_string?_eq_some_iff.2 h.2⟩

/-- Where no rule applies, a string type is left. -/
theorem ofFields_of_isPlain {fields : Entries String Json} (h : IsPlain (.object fields)) :
    Shape.ofFields fields = .plainString := by
  rw [ofFields_eq_ofType h.passesOver, Shape.ofType]
  split
  · rfl
  · next type hsome =>
    have hhas : HasType (.object fields) type := ⟨h.passesOver, bind_string?_eq_some_iff.1 hsome⟩
    have hne : ∀ other ∈ ["object", "array", "number", "integer", "null", "boolean"],
        type ≠ other := by
      rintro other hother rfl
      exact h.not_hasType _ hother hhas
    simp only [List.forall_mem_cons] at hne
    simp only [hne, if_false]
    split
    · next heq =>
      split
      · next values henum =>
        exact absurd ⟨heq ▸ hhas, enumStrings?_eq_some_iff.1 henum⟩ (h.not_hasEnum values)
      · rfl
    · rfl

/-- **A node has only one reading.** -/
theorem ReadsAs.eq {node : Json} {t : TypeExpr} (h : ReadsAs node t) : .ofSchema node = t := by
  by_cases hobject : ∃ fields, node = .object fields
  · obtain ⟨fields, rfl⟩ := hobject
    rw [ofSchema_eq]
    show (Shape.ofFields fields).type = t
    -- each rule says of all keywords before its own that they are passed over
    cases h with
    | reference h hname =>
      have href := bind_string?_eq_some_iff.2 h
      rw [field?_object] at href
      rw [Shape.ofFields, href]
      exact congrArg TypeExpr.named (referenceName_eq_iff.2 hname)
    | const hpass h =>
      rw [passesOver_one_iff] at hpass
      rw [field?_object] at h
      simp only [Shape.ofFields, hpass, h, Shape.type]
    | anyOf hpass h =>
      have hany := bind_items?_eq_some_iff.2 h
      rw [field?_object] at hany
      simp only [passesOver_two_iff, passesOver_one_iff] at hpass
      simp only [Shape.ofFields, hpass, hany, Shape.type]
    | allOf hpass h =>
      have hall := bind_items?_eq_some_iff.2 h
      rw [field?_object] at hall
      simp only [passesOver_three_iff, passesOver_two_iff, passesOver_one_iff] at hpass
      simp only [Shape.ofFields, hpass, hall, Shape.type]
    | record hpass hnone h =>
      have hrecord := recordValues?_eq_some_iff.2 ⟨hnone, h, _, rfl⟩
      simp only [passesOver_four_iff, passesOver_three_iff, passesOver_two_iff,
        passesOver_one_iff] at hpass
      simp only [Shape.ofFields, hpass, hrecord, Shape.type]
    | plainString h =>
      rw [ofFields_of_isPlain h]
      rfl
    | stringEnum h =>
      obtain ⟨hshape, htype⟩ := ofFields_of_hasType h.1
      have henum := enumStrings?_eq_some_iff.2 h.2
      simp [hshape, Shape.ofType, htype, henum, Shape.type]
    | arrayOf h hitems =>
      obtain ⟨hshape, htype⟩ := ofFields_of_hasType h
      rw [field?_object] at hitems
      simp [hshape, Shape.ofType, htype, hitems, Shape.type]
    | arrayOfStrings h hitems =>
      obtain ⟨hshape, htype⟩ := ofFields_of_hasType h
      simp only [field?_object] at hitems
      simp only [hshape, Shape.ofType, htype]
      rcases hget : Entries.get? "items" fields with - | items
      · rfl
      · show TypeExpr.array (.ofSchema items) = _
        rw [ofSchema_of_not_object]
        rintro ⟨values, rfl⟩
        exact hitems values hget
    | number h =>
      rcases h with h | h
      all_goals
        obtain ⟨hshape, htype⟩ := ofFields_of_hasType h
        simp [hshape, Shape.ofType, htype, Shape.type]
    | object h | null h | boolean h =>
      obtain ⟨hshape, htype⟩ := ofFields_of_hasType h
      simp [hshape, Shape.ofType, htype, Shape.type, members, field?_object, Json.fields?]
  · rw [ofSchema_of_not_object hobject]
    -- without keywords, only the last rule is left
    cases h <;> simp_all [HasType, HasEnum, field?_eq_none hobject]

/-! ### The members of an interface -/

/-- The required names are the strings in the list of required names. -/
theorem contains_requiredNames_iff {fields : Entries String Json} {key : String} :
    (Shape.requiredNames fields).contains key = true ↔ Requires (.object fields) key := by
  rw [List.contains_iff_mem, Shape.requiredNames, Requires]
  simp only [field?_object]
  split
  · next hnone =>
    rw [bind_items?_eq_none_iff] at hnone
    simp only [List.not_mem_nil, false_iff]
    rintro ⟨names, hnames, -⟩
    exact hnone ⟨names, hnames⟩
  · next names hsome =>
    rw [bind_items?_eq_some_iff] at hsome
    simp only [hsome, List.mem_eraseDups, List.mem_filterMap]
    constructor
    · rintro ⟨value, hmem, hvalue⟩
      obtain rfl : value = .string key := Option.some_inj.1 (bind_string?_eq_some_iff.1 hvalue)
      exact ⟨names, rfl, hmem⟩
    · rintro ⟨names', hnames, hmem⟩
      obtain rfl : names = names' := by simpa using hnames
      exact ⟨_, hmem, rfl⟩

/-- The listed properties are the fields of the object of properties. -/
theorem listsProperty_iff {node : Json} {key : String} {child : Json} :
    ListsProperty node key child ↔
      (key, child) ∈ ((node.field? "properties").bind Json.fields?).getD [] := by
  simp only [ListsProperty, ← bind_fields?_eq_some_iff]
  cases (node.field? "properties").bind Json.fields? <;> simp

/-- A member is a listed property, optional unless it is required. -/
theorem mem_members_iff {node : Json} {m : Field TypeExpr} :
    m ∈ members node ↔
      ∃ child, ListsProperty node m.name child ∧ .ofSchema child = m.type ∧
        (m.optional = true ↔ ¬Requires node m.name) := by
  by_cases hobject : ∃ fields, node = .object fields
  · obtain ⟨fields, rfl⟩ := hobject
    simp only [listsProperty_iff, ← contains_requiredNames_iff]
    obtain ⟨key, type, optional⟩ := m
    simp only [members, List.mem_map, Prod.exists, Field.mk.injEq]
    constructor
    · rintro ⟨key, child, hmem, rfl, rfl, rfl⟩
      exact ⟨child, hmem, rfl, by simp [Json.fields?]⟩
    · rintro ⟨child, hmem, rfl, hoptional⟩
      refine ⟨key, child, hmem, rfl, rfl, ?_⟩
      rw [Bool.eq_iff_iff, hoptional]
      simp [Json.fields?]
  · have hnone := field?_eq_none hobject
    simp [members, listsProperty_iff, hnone]

/-- Every listed property has its member. -/
theorem exists_member_of_listsProperty {node : Json} {key : String} {child : Json}
    (h : ListsProperty node key child) :
    ∃ optional, ⟨key, .ofSchema child, optional⟩ ∈ members node ∧
      (optional = true ↔ ¬Requires node key) := by
  classical
  refine ⟨decide (¬Requires node key), mem_members_iff.2 ⟨child, h, rfl, ?_⟩, ?_⟩
  · exact decide_eq_true_iff
  · exact decide_eq_true_iff

end Schema

end SchemaCodec
