import SchemaCodec.Proofs.Compilation.Outcome
import SchemaCodec.Proofs.Acceptance.Guard

/-!
# The envelope

For every definition that is not scaffolding a declaration is synthesized which merges it with the
envelope. What it accepts is what both accept. This is not read off its type: the three checks
start with different names in their guards, and any of the three declarations may lead back to
another one on the same value. But a check answers by derivations, in which there is no guard
(`check?_eq_some_true_iff`), and so the answer for an intersection of names is made of the answers
for the names (`check?_intersection_named`).

Nothing is asked of the suffix and of the names here: a synthesized declaration may stand in the
place of a definition, and with an empty suffix every definition is synthesized from itself.
-/

namespace SchemaCodec

open Declaration Document

namespace Declaration

variable {ds : List Declaration} {name : String} {v : Json}

/-- A check is positive exactly if the name has a derivation. -/
theorem check?_eq_some_true_iff : check? ds name v = some true ↔ Accepts ds (.named name) v := by
  rw [check?_eq_some_iff]
  constructor
  · rintro ⟨i, hi, haccepts⟩
    exact .named hi (haccepts.1 rfl)
  · intro h
    cases h with
    | named hi haccepts => exact ⟨_, hi, iff_of_true rfl haccepts⟩

/-- **A name that stands for an intersection of names accepts what each of them accepts.** -/
theorem check?_intersection_named (names : List String)
    (h : typeOf? ds name = some (.intersection (names.map .named))) (v : Json) :
    check? ds name v = some (names.all fun n ↦ decide (check? ds n v = some true)) := by
  obtain ⟨i, hi, htype⟩ := typeOf?_eq_some_iff.1 h
  refine check?_eq_some_iff.2 ⟨i, hi, ?_⟩
  rw [htype, List.all_eq_true]
  constructor
  · intro hall
    refine .intersection (List.forall_mem_map.2 fun n hn ↦ ?_)
    exact check?_eq_some_true_iff.1 (of_decide_eq_true (hall n hn))
  · intro haccepts n hn
    cases haccepts with
    | intersection harms =>
      exact decide_eq_true (check?_eq_some_true_iff.2 (harms _ (List.mem_map_of_mem hn)))

end Declaration

variable {settings : Settings} {document : Json} {c : Compilation} {definition : String}

/-- There is a check for each declared name. -/
theorem exists_check?_of_mem_names {name : String} (h : name ∈ c.names) (v : Json) :
    ∃ answer, c.check? name v = some answer := by
  obtain ⟨d, hd, rfl⟩ := List.mem_map.1 h
  exact Option.ne_none_iff_exists'.1 fun hnone ↦ check?_eq_none_iff.1 hnone d hd rfl

/-- What is synthesized for a definition. -/
theorem typeOf?_topLevelName (hc : compile settings document = .ok c)
    (hdefinition : definition ∈ definitionNames document)
    (hreserved : settings.isReserved definition = false) :
    typeOf? c.declarations (settings.topLevelName definition) =
      some (enveloped settings definition) := by
  obtain ⟨ds, hcollect, -⟩ := compile_eq_ok hc
  obtain ⟨root, written, rfl, hwritten, -⟩ := collect_eq_ok hcollect
  rw [definitionNames_eq_keys hwritten, ← exists_defines_iff hwritten] at hdefinition
  exact (typeOf?_compile_iff hc).2
    ⟨.enveloped definition, .synthesized ⟨hdefinition, hreserved, rfl⟩, rfl⟩

/-- **The envelope law.** Whenever a document compiles, there is an answer for every definition that
is not scaffolding, for the envelope, and for the declaration synthesized from the two; and the last
of them accepts a value exactly if the other two do, however the three refer to each other. -/
theorem check?_topLevelName (hc : compile settings document = .ok c)
    (hdefinition : definition ∈ definitionNames document)
    (hreserved : settings.isReserved definition = false) (v : Json) :
    ∃ own envelope : Bool, c.check? definition v = some own ∧
      c.check? settings.envelope v = some envelope ∧
      c.check? (settings.topLevelName definition) v = some (own && envelope) := by
  have htype := typeOf?_topLevelName hc hdefinition hreserved
  -- the synthesized declaration mentions both names, and nothing dangles
  have hmem := (typeOf?_eq_some_iff_mem (nodup_names_compile hc)).1 htype
  have hnames : ∀ name ∈ [definition, settings.envelope], name ∈ c.names :=
    fun name hname ↦ mem_names_of_named hc hmem hname
  obtain ⟨own, hown⟩ := exists_check?_of_mem_names (hnames definition (by simp)) v
  obtain ⟨envelope, henvelope⟩ := exists_check?_of_mem_names (hnames settings.envelope (by simp)) v
  have hboth := check?_intersection_named [definition, settings.envelope] htype v
  refine ⟨own, envelope, hown, henvelope, ?_⟩
  rw [Compilation.check?] at hown henvelope ⊢
  simp [hboth, hown, henvelope]

/-! ### A definition that is written and synthesized -/

/-- A node for arrays, or for what has one of the names. -/
def arrayOrNode (names : List String) : Json :=
  .object [("anyOf", .array (.object [("type", .string "array")] ::
    names.map fun name ↦ .object [("$ref", .string name)]))]

/-- An array of strings or one of several definitions, as a type. -/
theorem ofSchema_arrayOrNode (names : List String) :
    TypeExpr.ofSchema (arrayOrNode names) =
      .union (.array .string :: names.map fun name ↦ .named (Shape.referenceName name)) := by
  have hname : ∀ name, TypeExpr.ofSchema (.object [("$ref", .string name)]) =
      .named (Shape.referenceName name) := fun name ↦ ofSchema_eq _
  have harray : TypeExpr.ofSchema (.object [("type", .string "array")]) = .array .string :=
    ofSchema_eq _
  refine (ofSchema_eq _).trans ?_
  show TypeExpr.union (List.map _ (_ :: List.map _ names)) = _
  rw [List.map_cons, List.map_map, harray]
  simp only [Function.comp_def, hname]

/-- `A` refers to what is synthesized from it, which is also written as a definition; the envelope
refers to itself as well. -/
def wrappedDocument : Json :=
  .object [("definitions", .object [("A", arrayOrNode ["ATopLevel"]),
    ("ATopLevel", .object [("type", .string "null")]),
    ("JSSTTopLevel", arrayOrNode ["JSSTTopLevel", "ATopLevel"])])]

/-- What the document declares. -/
def wrappedDeclarations : List Declaration :=
  [⟨"A", .union [.array .string, .named "ATopLevel"]⟩,
    ⟨"ATopLevel", .intersection [.named "A", .named "JSSTTopLevel"]⟩,
    ⟨"JSSTTopLevel", .union [.array .string, .named "JSSTTopLevel", .named "ATopLevel"]⟩,
    ⟨"ATopLevelTopLevel", .intersection [.named "ATopLevel", .named "JSSTTopLevel"]⟩,
    ⟨"JSONSchemaObject", .string⟩]

theorem collect_wrappedDocument : collect {} wrappedDocument = .ok wrappedDeclarations := by
  have hbody : TypeExpr.ofSchema (.object []) = .string := ofSchema_eq _
  show Except.ok [(⟨"A", .ofSchema (arrayOrNode ["ATopLevel"])⟩ : Declaration), _,
    ⟨"JSSTTopLevel", .ofSchema (arrayOrNode ["JSSTTopLevel", "ATopLevel"])⟩, _,
    ⟨"JSONSchemaObject", .ofSchema (.object [])⟩] = _
  rw [ofSchema_arrayOrNode, ofSchema_arrayOrNode, hbody]
  rfl

theorem compile_wrappedDocument :
    compile {} wrappedDocument = .ok ⟨sort wrappedDeclarations⟩ :=
  compile_of_resolve_ok collect_wrappedDocument rfl

/-- An empty array passes wherever arrays of strings are an arm. -/
theorem check?_emptyArray {ds : List Declaration} {name : String} (arms : List TypeExpr)
    (h : typeOf? ds name = some (.union (.array .string :: arms))) :
    check? ds name (.array []) = some true := by
  obtain ⟨i, hi, htype⟩ := typeOf?_eq_some_iff.1 h
  refine check?_eq_some_true_iff.2 (.named hi ?_)
  rw [htype]
  exact .union List.mem_cons_self (.array (List.forall_mem_nil _))

/-- The empty array is accepted by `A` and by the envelope, hence by what is synthesized from `A`,
and hence by what is synthesized from that. -/
theorem check?_wrappedDeclarations :
    "A" ∈ definitionNames wrappedDocument ∧ "ATopLevel" ∈ definitionNames wrappedDocument ∧
      check? (sort wrappedDeclarations) "ATopLevelTopLevel" (.array []) = some true := by
  have hwritten : "A" ∈ definitionNames wrappedDocument := by decide
  have hreplaced : "ATopLevel" ∈ definitionNames wrappedDocument := by decide
  have htype : ∀ name, typeOf? (sort wrappedDeclarations) name = typeOf? wrappedDeclarations name :=
    fun name ↦ (typeOf?_eq_of_perm (sort_perm _).symm (by decide)).symm
  have hA : check? (sort wrappedDeclarations) "A" (.array []) = some true :=
    check?_emptyArray [.named "ATopLevel"] (htype "A")
  have hJ : check? (sort wrappedDeclarations) "JSSTTopLevel" (.array []) = some true :=
    check?_emptyArray [.named "JSSTTopLevel", .named "ATopLevel"] (htype "JSSTTopLevel")
  obtain ⟨own, envelope, hown, henvelope, honce⟩ :=
    check?_topLevelName compile_wrappedDocument hwritten (by decide) (.array [])
  obtain ⟨own', envelope', hown', henvelope', htwice⟩ :=
    check?_topLevelName compile_wrappedDocument hreplaced (by decide) (.array [])
  obtain rfl := Option.some_inj.1 (hown.symm.trans hA)
  obtain rfl := Option.some_inj.1 (henvelope.symm.trans hJ)
  obtain rfl := Option.some_inj.1 (henvelope'.symm.trans hJ)
  obtain rfl := Option.some_inj.1 (hown'.symm.trans honce)
  exact ⟨hwritten, hreplaced, htwice⟩

end SchemaCodec
