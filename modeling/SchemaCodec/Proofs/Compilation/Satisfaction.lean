import SchemaCodec.Proofs.Acceptance.Guard
import SchemaCodec.Proofs.Compilation.Collection
import SchemaCodec.Proofs.Schema.Reading

/-!
# A compilation keeps the meaning of its document

`Satisfies settings document target v` is the meaning of a schema document, with no compilation in
it: the least relation in which a declared name asks for what it stands for, and a node for what its
keywords say. A reference that only leads back to itself is satisfied by nothing.

Compiling keeps this meaning. One direction follows the rules of satisfaction and turns each node
into its type by `ReadsAs.eq` (`accepts_of_satisfies`); the other follows a derivation of acceptance
and turns each type back into the node it was read from by `readsAs_ofSchema`
(`satisfies_of_accepts`). With the exactness of the guarded test this gives
`check?_decides_satisfaction`: the answers of a compilation are those of the document.
-/

namespace SchemaCodec

open Declaration Document Schema

/-- The values that satisfy a name, a node or an enveloped definition of a document. -/
inductive Satisfies (settings : Settings) (document : Json) : Target → Json → Prop
  | named {name : String} {target : Target} {v : Json}
      (hdeclares : Declares settings document name target)
      (h : Satisfies settings document target v) : Satisfies settings document (.named name) v
  | enveloped {definition : String} {v : Json}
      (hdefinition : Satisfies settings document (.named definition) v)
      (henvelope : Satisfies settings document (.named settings.envelope) v) :
      Satisfies settings document (.enveloped definition) v
  /-- A reference asks for the declaration that it names. -/
  | reference {node : Json} {target name : String} {v : Json}
      (href : node.field? "$ref" = some (.string target)) (hname : LastSegment target name)
      (h : Satisfies settings document (.named name) v) :
      Satisfies settings document (.schema node) v
  | const {node wanted v : Json} (hpass : PassesOver 1 node)
      (hconst : node.field? "const" = some wanted) (h : wanted.Matches v) :
      Satisfies settings document (.schema node) v
  | anyOf {node arm v : Json} {arms : List Json} (hpass : PassesOver 2 node)
      (hany : node.field? "anyOf" = some (.array arms)) (hmem : arm ∈ arms)
      (h : Satisfies settings document (.schema arm) v) :
      Satisfies settings document (.schema node) v
  | allOf {node v : Json} {arms : List Json} (hpass : PassesOver 3 node)
      (hall : node.field? "allOf" = some (.array arms))
      (h : ∀ arm ∈ arms, Satisfies settings document (.schema arm) v) :
      Satisfies settings document (.schema node) v
  /-- A dictionary: every value is of the one schema. -/
  | record {node : Json} {values fields : List (String × Json)} (hpass : PassesOver 4 node)
      (hnone : node.field? "properties" = none)
      (hvalues : node.field? "additionalProperties" = some (.object values))
      (h : ∀ p ∈ fields, Satisfies settings document (.schema (.object values)) p.2) :
      Satisfies settings document (.schema node) (.object fields)
  /-- A listed property is satisfied where it is present, and present if it is required. -/
  | object {node : Json} {fields : List (String × Json)} (htype : HasType node "object")
      (hrequired : ∀ key child, ListsProperty node key child → Requires node key →
        Entries.get? key fields ≠ none)
      (h : ∀ key child x, ListsProperty node key child → Entries.get? key fields = some x →
        Satisfies settings document (.schema child) x) :
      Satisfies settings document (.schema node) (.object fields)
  | arrayOf {node : Json} {item : List (String × Json)} {items : List Json}
      (htype : HasType node "array") (hitems : node.field? "items" = some (.object item))
      (h : ∀ x ∈ items, Satisfies settings document (.schema (.object item)) x) :
      Satisfies settings document (.schema node) (.array items)
  /-- Without a schema for its items, an array holds strings. -/
  | arrayOfStrings {node : Json} {items : List Json} (htype : HasType node "array")
      (hitems : ∀ item, node.field? "items" ≠ some (.object item))
      (h : ∀ x ∈ items, ∃ s, x = .string s) :
      Satisfies settings document (.schema node) (.array items)
  | number {node : Json} (htype : HasType node "number" ∨ HasType node "integer")
      (n : Json.Number) : Satisfies settings document (.schema node) (.scalar (.number n))
  | null {node : Json} (htype : HasType node "null") :
      Satisfies settings document (.schema node) .null
  | boolean {node : Json} (htype : HasType node "boolean") (b : Bool) :
      Satisfies settings document (.schema node) (.scalar (.bool b))
  | stringEnum {node : Json} {values : List String} {s : String} (henum : HasEnum node values)
      (hmem : s ∈ values) : Satisfies settings document (.schema node) (.string s)
  | plainString {node : Json} (hplain : IsPlain node) (s : String) :
      Satisfies settings document (.schema node) (.string s)

variable {settings : Settings} {document : Json} {c : Compilation} {target : Target} {v : Json}

theorem matches_string_iff {s : String} : (Json.string s).Matches v ↔ v = .string s := by
  constructor
  · rintro ⟨⟨⟩⟩
    rfl
  · rintro rfl
    exact .scalar (.equal _)

/-! ### From the document to its types -/

/-- A declared name accepts what the type of its target accepts. -/
theorem accepts_named_of_declares (hc : compile settings document = .ok c) {name : String}
    (hdeclares : Declares settings document name target)
    (h : Accepts c.declarations (target.type settings) v) :
    Accepts c.declarations (.named name) v := by
  obtain ⟨i, hi, htype⟩ := typeOf?_eq_some_iff.1 ((typeOf?_compile_iff hc).2 ⟨_, hdeclares, rfl⟩)
  exact .named hi (htype ▸ h)

/-- A node accepts what the type it is read as accepts. -/
theorem accepts_schema_of_readsAs {ds : List Declaration} {node : Json} {t : TypeExpr}
    (hread : ReadsAs node t) (h : Accepts ds t v) :
    Accepts ds (Target.type settings (.schema node)) v := by
  show Accepts ds (.ofSchema node) v
  rwa [hread.eq]

/-- **Soundness of the types.** -/
theorem accepts_of_satisfies (hc : compile settings document = .ok c)
    (h : Satisfies settings document target v) :
    Accepts c.declarations (target.type settings) v := by
  induction h with
  | named hdeclares _ ih => exact accepts_named_of_declares hc hdeclares ih
  | enveloped _ _ ihdefinition ihenvelope =>
    refine .intersection fun arm harm ↦ ?_
    rcases List.mem_pair.1 harm with rfl | rfl
    · exact ihdefinition
    · exact ihenvelope
  | reference href hname _ ih => exact accepts_schema_of_readsAs (.reference href hname) ih
  | const hpass hconst h => exact accepts_schema_of_readsAs (.const hpass hconst) (.literal h)
  | anyOf hpass hany hmem _ ih =>
    exact accepts_schema_of_readsAs (.anyOf hpass hany) (.union (List.mem_map_of_mem hmem) ih)
  | allOf hpass hall _ ih =>
    exact accepts_schema_of_readsAs (.allOf hpass hall) (.intersection (List.forall_mem_map.2 ih))
  | record hpass hnone hvalues _ ih =>
    exact accepts_schema_of_readsAs (.record hpass hnone hvalues) (.record ih)
  | @object node fields htype hrequired _ ih =>
    refine accepts_schema_of_readsAs (.object htype) (.interface ?_ ?_)
    · intro m hm x hx
      obtain ⟨child, hlists, htype, -⟩ := mem_members_iff.1 hm
      exact htype ▸ ih m.name child x hlists hx
    · intro m hm hx
      obtain ⟨child, hlists, -, hoptional⟩ := mem_members_iff.1 hm
      exact hoptional.2 fun hreq ↦ hrequired m.name child hlists hreq hx
  | arrayOf htype hitems _ ih => exact accepts_schema_of_readsAs (.arrayOf htype hitems) (.array ih)
  | arrayOfStrings htype hitems h =>
    refine accepts_schema_of_readsAs (.arrayOfStrings htype hitems) (.array fun x hx ↦ ?_)
    obtain ⟨s, rfl⟩ := h x hx
    exact .string s
  | number htype n => exact accepts_schema_of_readsAs (.number htype) (.number n)
  | null htype => exact accepts_schema_of_readsAs (.null htype) .null
  | boolean htype b => exact accepts_schema_of_readsAs (.boolean htype) (.boolean b)
  | stringEnum henum hmem =>
    refine accepts_schema_of_readsAs (.stringEnum henum) (.union (List.mem_map_of_mem hmem) ?_)
    exact .literal (matches_string_iff.2 rfl)
  | plainString hplain s => exact accepts_schema_of_readsAs (.plainString hplain) (.string s)

/-! ### From the types back to the document -/

/-- Where a type comes from: a name and an enveloped definition show it, a node is read. -/
inductive Origin (settings : Settings) : Target → TypeExpr → Prop
  | named (name : String) : Origin settings (.named name) (.named name)
  | schema {node : Json} {t : TypeExpr} (h : ReadsAs node t) : Origin settings (.schema node) t
  | enveloped (definition : String) :
      Origin settings (.enveloped definition)
        (.intersection [.named definition, .named settings.envelope])

/-- The type of a target originates from that target. -/
theorem origin_type (target : Target) : Origin settings target (target.type settings) := by
  cases target with
  | named name => exact .named name
  | schema node => exact .schema (readsAs_ofSchema node)
  | enveloped definition => exact .enveloped definition

/-- **Completeness of the types.** -/
theorem satisfies_of_accepts (hc : compile settings document = .ok c) {t : TypeExpr}
    (h : Accepts c.declarations t v) (horigin : Origin settings target t) :
    Satisfies settings document target v := by
  -- along the derivation: each type gives away the rule by which its node was read
  induction h generalizing target with
  | null =>
    cases horigin with
    | schema hread => cases hread with
      | null htype => exact .null htype
  | boolean b =>
    cases horigin with
    | schema hread => cases hread with
      | boolean htype => exact .boolean htype b
  | number n =>
    cases horigin with
    | schema hread => cases hread with
      | number htype => exact .number htype n
  | string s =>
    cases horigin with
    | schema hread => cases hread with
      | plainString hplain => exact .plainString hplain s
  | literal h =>
    cases horigin with
    | schema hread => cases hread with
      | const hpass hconst => exact .const hpass hconst h
  | @named name i v hi _ ih =>
    have hname : Satisfies settings document (.named name) v := by
      obtain ⟨target, hdeclares, htype⟩ :=
        (typeOf?_compile_iff hc).1 (typeOf?_eq_some_iff.2 ⟨i, hi, rfl⟩)
      exact .named hdeclares (ih (htype ▸ origin_type target))
    cases horigin with
    | named => exact hname
    | schema hread => cases hread with
      | reference href hlast => exact .reference href hlast hname
  | array h ih =>
    cases horigin with
    | schema hread => cases hread with
      | arrayOf htype hitems =>
        exact .arrayOf htype hitems fun x hx ↦ ih x hx (origin_type (.schema _))
      | arrayOfStrings htype hitems =>
        refine .arrayOfStrings htype hitems fun x hx ↦ ?_
        cases h x hx with
        | string s => exact ⟨s, rfl⟩
  | record _ ih =>
    cases horigin with
    | schema hread => cases hread with
      | record hpass hnone hvalues =>
        exact .record hpass hnone hvalues fun p hp ↦ ih p hp (origin_type (.schema _))
  | interface _ habsent ih =>
    cases horigin with
    | schema hread => cases hread with
      | object htype =>
        refine .object htype (fun key child hlists hrequired hnone ↦ ?_) ?_
        · obtain ⟨optional, hmem, hoptional⟩ := exists_member_of_listsProperty hlists
          exact hoptional.1 (habsent _ hmem hnone) hrequired
        · intro key child x hlists hx
          obtain ⟨optional, hmem, -⟩ := exists_member_of_listsProperty hlists
          exact ih _ hmem x hx (origin_type (.schema child))
  | union hmem h ih =>
    cases horigin with
    | schema hread => cases hread with
      | anyOf hpass hany =>
        obtain ⟨arm, harm, rfl⟩ := List.mem_map.1 hmem
        exact .anyOf hpass hany harm (ih (origin_type (.schema arm)))
      | stringEnum henum =>
        obtain ⟨s, hs, rfl⟩ := List.mem_map.1 hmem
        cases h with
        | literal h =>
          obtain rfl := matches_string_iff.1 h
          exact .stringEnum henum hs
  | intersection _ ih =>
    cases horigin with
    | schema hread => cases hread with
      | allOf hpass hall =>
        refine .allOf hpass hall fun arm harm ↦ ?_
        exact ih _ (List.mem_map_of_mem harm) (origin_type (.schema arm))
    | enveloped definition =>
      exact .enveloped (ih _ (by simp) (.named definition)) (ih _ (by simp) (.named _))

/-! ### The answers of a compilation -/

/-- A target is satisfied by what its type accepts over the compiled declarations. -/
theorem satisfies_iff_accepts (hc : compile settings document = .ok c) :
    Satisfies settings document target v ↔ Accepts c.declarations (target.type settings) v :=
  ⟨accepts_of_satisfies hc, fun h ↦ satisfies_of_accepts hc h (origin_type target)⟩

/-- A compilation has the names that the document declares. -/
theorem mem_names_iff_declares (hc : compile settings document = .ok c) {name : String} :
    name ∈ c.names ↔ ∃ target, Declares settings document name target := by
  have hdeclared : name ∈ c.names ↔ ∃ t, typeOf? c.declarations name = some t := by
    rw [← Option.ne_none_iff_exists', ne_eq, typeOf?_eq_none_iff, Compilation.names]
    simp
  rw [hdeclared]
  simp only [typeOf?_compile_iff hc]
  constructor
  · rintro ⟨t, target, htarget, -⟩
    exact ⟨target, htarget⟩
  · rintro ⟨target, htarget⟩
    exact ⟨_, target, htarget, rfl⟩

/-- No tree is a string: a tree is a tree, or an array of trees. -/
theorem check?_treeCompilation_string :
    treeCompilation.check? "Tree" (.string "leaf") = some false := by
  show some (accepts _ ["Tree"] (.union [.named "Tree", .array (.named "Tree")]) _) = _
  rw [Option.some_inj, Bool.eq_false_iff, ne_eq, accepts_union_iff]
  rintro ⟨arm, harm, h⟩
  rcases List.mem_pair.1 harm with rfl | rfl
  -- the first arm is cut short, the second one asks for an array
  · exact (accepts_named_iff.1 h).1 List.mem_cons_self
  · obtain ⟨items, hitems, -⟩ := accepts_array_iff.1 h
    exact absurd hitems (by simp)

/-- **A compilation keeps the meaning of its document.** Whenever a document compiles, the declared
names are those that the document declares, and for each of them and for every value there is an
answer, which is positive if the value satisfies the name in the document and negative otherwise. -/
theorem check?_decides_satisfaction (hc : compile settings document = .ok c) (name : String) :
    (name ∈ c.names ↔ ∃ target, Declares settings document name target) ∧
      (name ∈ c.names → ∀ v, ∃ answer, c.check? name v = some answer ∧
        (answer = true ↔ Satisfies settings document (.named name) v)) := by
  refine ⟨mem_names_iff_declares hc, fun hname v ↦ ?_⟩
  obtain ⟨d, hd, rfl⟩ := List.mem_map.1 hname
  obtain ⟨i, hi⟩ := exists_denotes_of_mem hd
  refine ⟨accepts c.declarations [] (.named d.name) v, check?_eq_some_accepts hi, ?_⟩
  rw [satisfies_iff_accepts hc, accepts_nil_iff]
  rfl

theorem not_satisfies_treeDocument_string :
    "Tree" ∈ treeCompilation.names ∧
      ¬Satisfies {} treeDocument (.named "Tree") (.string "leaf") := by
  have hname : "Tree" ∈ treeCompilation.names := by decide
  obtain ⟨-, hanswers⟩ := check?_decides_satisfaction compile_treeDocument "Tree"
  obtain ⟨answer, hanswer, hiff⟩ := hanswers hname (.string "leaf")
  refine ⟨hname, fun h ↦ ?_⟩
  rw [hiff.2 h, check?_treeCompilation_string] at hanswer
  exact absurd hanswer (by decide)

end SchemaCodec
