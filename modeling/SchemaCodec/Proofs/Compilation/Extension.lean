import Mathlib.Data.List.Indexes
import SchemaCodec.Proofs.Acceptance.Guard
import SchemaCodec.Proofs.Compilation.Outcome
import SchemaCodec.Proofs.Dependency.Restriction
import SchemaCodec.Proofs.Module.Initialization
import SchemaCodec.Proofs.TypeExpr.Names

/-!
# Adding a definition that nothing uses

A definition with a fresh name adds its own declaration and the one synthesized from it, and leaves
everything else as it was. In the collection this is a matter of places
(`Separates.filter_collected`). Sorting then meets the new declarations at any point, but nothing
old names them, so the old ones come out in the old order (`Declaration.sort_filter`) and each
refers forward exactly when it did before (`bindings_filter`). What a declaration accepts depends on
what it leads to, and that is old (`Declaration.check?_eq_of_agree`).
-/

namespace SchemaCodec

open Declaration Document

/-! ### Acceptance -/

namespace Declaration

variable {ds es : List Declaration} {known : String → Prop}

/-- On the known names, what is declared in `ds` is declared in `es` in the same way, and leads to
known names only. -/
def Agree (known : String → Prop) (ds es : List Declaration) : Prop :=
  ∀ name t, known name → typeOf? ds name = some t →
    typeOf? es name = some t ∧ ∀ n ∈ t.names, known n

/-- Lists that agree on the known names accept the same data for types that name no others. -/
theorem Agree.accepts {t : TypeExpr} {v : Json} (h : Agree known ds es)
    (hknown : ∀ n ∈ t.names, known n) (haccepts : Accepts ds t v) : Accepts es t v := by
  induction haccepts with
  | null => exact .null
  | boolean b => exact .boolean b
  | number n => exact .number n
  | string s => exact .string s
  | literal hmatch => exact .literal hmatch
  | @named name i v hi _ ih =>
    obtain ⟨htype, hnames⟩ := h name _ (hknown name List.mem_cons_self)
      (typeOf?_eq_some_iff.2 ⟨i, hi, rfl⟩)
    obtain ⟨j, hj, hsame⟩ := typeOf?_eq_some_iff.1 htype
    refine .named hj ?_
    rw [hsame]
    exact ih hnames
  | array _ ih => exact .array fun x hx ↦ ih x hx hknown
  | record _ ih => exact .record fun p hp ↦ ih p hp hknown
  | interface _ habsent ih =>
    refine .interface (fun m hm x hx ↦ ih m hm x hx fun n hn ↦ ?_) habsent
    exact hknown n (TypeExpr.mem_namesFields_iff.2 ⟨m, hm, hn⟩)
  | union hmem _ ih =>
    exact .union hmem (ih fun n hn ↦ hknown n (TypeExpr.mem_namesList_iff.2 ⟨_, hmem, hn⟩))
  | intersection _ ih =>
    refine .intersection fun arm hmem ↦ ih arm hmem fun n hn ↦ ?_
    exact hknown n (TypeExpr.mem_namesList_iff.2 ⟨arm, hmem, hn⟩)

/-- Declarations that agree give the same answers. -/
theorem check?_eq_of_agree (h : Agree known ds es) (h' : Agree known es ds) {name : String}
    (hname : known name) (v : Json) : check? ds name v = check? es name v := by
  have htypes : ∀ t, typeOf? ds name = some t ↔ typeOf? es name = some t :=
    fun t ↦ ⟨fun ht ↦ (h name t hname ht).1, fun ht ↦ (h' name t hname ht).1⟩
  rcases htype : typeOf? ds name with - | t
  · have htype' : typeOf? es name = none := by
      rwa [← Option.ext fun t ↦ htypes t]
    rw [check?, check?, htype, htype']
    rfl
  · obtain ⟨i, hi, -⟩ := typeOf?_eq_some_iff.1 htype
    obtain ⟨j, hj, -⟩ := typeOf?_eq_some_iff.1 ((htypes t).1 htype)
    have hknown : ∀ n ∈ (TypeExpr.named name).names, known n := by
      simpa [TypeExpr.names] using hname
    rw [check?_eq_some_accepts hi, check?_eq_some_accepts hj, Option.some_inj, Bool.eq_iff_iff,
      accepts_nil_iff, accepts_nil_iff]
    exact ⟨h.accepts hknown, h'.accepts hknown⟩

end Declaration

/-! ### Bindings -/

section Bindings

variable {c : Compilation}

/-- The bindings of a compilation, place by place. -/
theorem bindings_eq_map (c : Compilation) :
    c.bindings = (List.finRange c.declarations.length).map (bindingAt c) := by
  rw [Compilation.bindings, Binding.ofDeclarations, List.mapIdx_eq_ofFn, List.ofFn_eq_map]
  rfl

/-- **A part is emitted as if it were alone**, provided that it names nothing outside. -/
theorem bindings_filter (keep : String → Bool) (hnd : c.names.Nodup)
    (hclosed : KeptClosed (fun d ↦ keep d.name) c.declarations) :
    Compilation.bindings ⟨c.declarations.filter fun d ↦ keep d.name⟩ =
      c.bindings.filter fun b ↦ keep b.name := by
  obtain ⟨e, he, hrange, hpart⟩ := exists_isPart hnd hclosed
  have hbinding : ∀ i, bindingAt ⟨c.declarations.filter fun d ↦ keep d.name⟩ i =
      bindingAt c (e i) := by
    intro i
    have hdeferred : Binding.refersForward (c.declarations.filter fun d ↦ keep d.name) i
        ((c.declarations.filter fun d ↦ keep d.name).get i).type =
          Binding.refersForward c.declarations (e i) (c.declarations.get (e i)).type := by
      rw [Bool.eq_iff_iff, Binding.refersForward_iff, Binding.refersForward_iff]
      constructor
      · rintro ⟨j, hij, hle⟩
        exact ⟨e j, (hpart.step_iff i j).1 hij, e.le_iff_le.2 hle⟩
      · rintro ⟨k, hik, hle⟩
        obtain ⟨j, rfl⟩ := hpart.closed i k hik
        exact ⟨j, (hpart.step_iff i j).2 hik, e.le_iff_le.1 hle⟩
    rw [bindingAt, bindingAt, Binding.mk.injEq]
    exact ⟨congrArg Declaration.name (he i), congrArg Declaration.type (he i), hdeferred⟩
  rw [bindings_eq_map, bindings_eq_map, List.filter_map]
  calc (List.finRange _).map (bindingAt ⟨c.declarations.filter fun d ↦ keep d.name⟩)
      = ((List.finRange _).map e).map (bindingAt c) := by
        rw [List.map_map]
        exact List.map_congr_left fun i _ ↦ hbinding i
    _ = _ := by
        rw [map_finRange_eq_filter]
        congr 1
        refine List.filter_congr fun k _ ↦ ?_
        rw [Bool.eq_iff_iff, decide_eq_true_iff, hrange]
        rfl

end Bindings

/-! ### Collection -/

/-- `document'` is `document` with one more definition, at any place among those that are there. -/
inductive Document.InsertsDefinition (name : String) (node : Json) : Json → Json → Prop
  | insert {front back before after : Entries String Json} (h : "definitions" ∉ front.keys) :
      InsertsDefinition name node
        (.object (front ++ ("definitions", .object (before ++ after)) :: back))
        (.object (front ++ ("definitions", .object (before ++ (name, node) :: after)) :: back))
  /-- The first definition of a document that has none. -/
  | create {front back : Entries String Json} (h : "definitions" ∉ Entries.keys (front ++ back)) :
      InsertsDefinition name node (.object (front ++ back))
        (.object (front ++ ("definitions", .object [(name, node)]) :: back))

section Collection

variable {settings : Settings} {document document' : Json} {name : String} {node : Json}
  {root root' before after : Entries String Json} {keep : String → Bool}

/-- The definitions of a document that has them in the middle. -/
theorem definitions_append_cons {front back fields : Entries String Json}
    (h : "definitions" ∉ front.keys) :
    definitions (front ++ ("definitions", .object fields) :: back) = .ok fields := by
  rw [definitions, Entries.get?_append_of_not_mem h, Entries.get?, if_pos rfl]

/-- What inserting a definition does to the two parts of a document: the definitions gain an entry
and the body stays. -/
theorem Document.InsertsDefinition.exists_definitions
    (h : InsertsDefinition name node document document') :
    ∃ root root' before after, document = .object root ∧ document' = .object root' ∧
      definitions root = .ok (before ++ after) ∧
        definitions root' = .ok (before ++ (name, node) :: after) ∧
          body (.object root') = body (.object root) := by
  cases h with
  | @insert front back before after h =>
    refine ⟨_, _, before, after, rfl, rfl, definitions_append_cons h, definitions_append_cons h, ?_⟩
    simp [body]
  | @create front back h =>
    have hnone : Entries.get? "definitions" (front ++ back) = none := by
      rwa [← Option.not_isSome_iff_eq_none, Entries.get?_isSome_iff]
    have hfront : "definitions" ∉ front.keys := fun hmem ↦ h (by
      rw [Entries.keys, List.map_append]
      exact List.mem_append_left _ hmem)
    refine ⟨_, _, [], [], rfl, rfl, ?_, definitions_append_cons hfront, ?_⟩
    · rw [definitions, hnone]
      rfl
    · simp [body]

/-- `keep` tells what `definitions` declare, and the top-level name, from what a definition called
`name` adds. -/
structure Separates (settings : Settings) (keep : String → Bool) (name : String)
    (definitions : Entries String Json) : Prop where
  new : keep name = false
  new_synthesized : keep (settings.topLevelName name) = false
  old : ∀ p ∈ definitions, keep p.1 = true
  old_synthesized : ∀ p ∈ definitions, settings.isReserved p.1 = false →
    keep (settings.topLevelName p.1) = true
  toplevel : keep settings.toplevel = true

/-- The old definitions and what is synthesized from them, once the new ones are left out. -/
theorem Separates.filter_definedTypes (h : Separates settings keep name (before ++ after))
    (node : Json) :
    (definedTypes settings (before ++ (name, node) :: after)).filter (fun p ↦ keep p.1) =
      definedTypes settings (before ++ after) := by
  have hwritten : (before ++ (name, node) :: after).filter (fun p ↦ keep p.1) =
      before ++ after :=
    (filter_append_cons (by simp [h.new])).trans (List.filter_eq_self.2 h.old)
  have hnames : ((Entries.keys (before ++ (name, node) :: after)).filter
      fun n ↦ !settings.isReserved n).filter (fun n ↦ keep (settings.topLevelName n)) =
        (Entries.keys (before ++ after)).filter fun n ↦ !settings.isReserved n := by
    rw [List.filter_comm, Entries.keys, List.map_append, List.map_cons,
      filter_append_cons (by simp [h.new_synthesized]), ← List.map_append, List.filter_comm]
    refine List.filter_eq_self.2 fun n hn ↦ ?_
    obtain ⟨hmem, hreserved⟩ := List.mem_filter.1 hn
    obtain ⟨p, hp, rfl⟩ := List.mem_map.1 hmem
    exact h.old_synthesized p hp (by simpa using hreserved)
  rw [definedTypes, Entries.filter_foldl_insert, hnames, Entries.filter_foldl_insert, hwritten]
  rfl

/-- **A new definition leaves the old collection in place.** -/
theorem Separates.filter_collected (h : Separates settings keep name (before ++ after))
    (node : Json) (hbody : body (.object root') = body (.object root)) :
    (collected settings root' (before ++ (name, node) :: after)).filter (fun d ↦ keep d.name) =
      collected settings root (before ++ after) := by
  rw [collected, List.filter_map, collected, ← hbody, ← h.filter_definedTypes node]
  congr 1
  exact (Entries.filter_insert keep).trans (if_pos h.toplevel)

end Collection

/-! ### Compilation -/

section Compilation

variable {settings : Settings} {document document' : Json} {name : String} {node : Json}
  {c c' : Compilation}

/-- The names that a new definition adds. -/
theorem mem_declaredNames_insert_iff (h : InsertsDefinition name node document document')
    {n : String} :
    n ∈ declaredNames settings document' ↔
      n ∈ declaredNames settings document ∨ n = name ∨
        settings.isReserved name = false ∧ n = name ++ settings.topLevelSuffix := by
  obtain ⟨root, root', before, after, rfl, rfl, hdefinitions, hdefinitions', -⟩ :=
    h.exists_definitions
  simp only [declaredNames, synthesizedNames, definitionNames_eq_keys hdefinitions,
    definitionNames_eq_keys hdefinitions', Entries.keys, List.map_append, List.map_cons,
    List.mem_append, List.mem_cons, List.mem_map, List.mem_filter, Bool.not_eq_true']
  grind

/-- The names of a compilation tell it apart from what a fresh definition adds. -/
theorem separates_names {root old : Entries String Json} (hdefinitions : definitions root = .ok old)
    (hc : compile settings (.object root) = .ok c) (hname : name ∉ c.names)
    (hsynthesized : name ++ settings.topLevelSuffix ∉ c.names) :
    Separates settings (fun n ↦ decide (n ∈ c.names)) name old := by
  have hmem (n : String) : n ∈ c.names ↔ n ∈ declaredNames settings (.object root) :=
    mem_names_iff_mem_declaredNames hc
  have hdefined : ∀ p ∈ old, p.1 ∈ definitionNames (.object root) := by
    intro p hp
    rw [definitionNames_eq_keys hdefinitions]
    exact List.mem_map_of_mem hp
  refine ⟨decide_eq_false hname, decide_eq_false hsynthesized, fun p hp ↦ decide_eq_true ?_,
    fun p hp hreserved ↦ decide_eq_true ?_, decide_eq_true ?_⟩
  · exact (hmem _).2 (List.mem_append_left _ (hdefined p hp))
  · refine (hmem _).2 (List.mem_append_right _ (List.mem_append_left _ ?_))
    exact List.mem_map.2 ⟨p.1, List.mem_filter.2 ⟨hdefined p hp, by simp [hreserved]⟩, rfl⟩
  · exact (hmem _).2 (by simp [declaredNames])

/-- The old declarations among the new ones. -/
theorem declarations_filter (h : InsertsDefinition name node document document')
    (hc : compile settings document = .ok c) (hc' : compile settings document' = .ok c')
    (hname : name ∉ c.names) (hsynthesized : name ++ settings.topLevelSuffix ∉ c.names) :
    c'.declarations.filter (fun d ↦ decide (d.name ∈ c.names)) = c.declarations := by
  obtain ⟨root, root', before, after, rfl, rfl, hdefinitions, hdefinitions', hbody⟩ :=
    h.exists_definitions
  obtain ⟨-, hsort⟩ := compile_object_eq_ok hdefinitions hc
  obtain ⟨hcollect', hsort'⟩ := compile_object_eq_ok hdefinitions' hc'
  have hfilter := (separates_names hdefinitions hc hname hsynthesized).filter_collected node hbody
  have hclosed : KeptClosed (fun d ↦ decide (d.name ∈ c.names))
      (collected settings root' (before ++ (name, node) :: after)) := by
    intro d hd hold e _ hnamed
    have hmem : d ∈ c.declarations := by
      rw [hsort, (sort_perm _).mem_iff, ← hfilter]
      exact List.mem_filter.2 ⟨hd, hold⟩
    exact decide_eq_true (mem_names_of_named hc hmem hnamed)
  rw [hsort', ← sort_filter (nodup_names_collect hcollect') hclosed, hfilter, hsort]

/-- **Adding a definition that nothing uses.** If a document compiles before and after a definition
is inserted, and neither the name of the definition nor the name synthesized from it was declared
before, then the old declarations are found among the new ones unchanged and in the same order, and
so are their bindings, which make up the texts of constants and aliases. Besides them there are the
definition and, if it is not scaffolding, what is synthesized from it. Every old name accepts what
it did. -/
theorem compile_insertsDefinition (h : InsertsDefinition name node document document')
    (hc : compile settings document = .ok c) (hc' : compile settings document' = .ok c')
    (hname : name ∉ c.names) (hsynthesized : name ++ settings.topLevelSuffix ∉ c.names) :
    c'.declarations.filter (fun d ↦ decide (d.name ∈ c.names)) = c.declarations ∧
      c'.bindings.filter (fun b ↦ decide (b.name ∈ c.names)) = c.bindings ∧
      (∀ n, n ∈ c'.names ↔ n ∈ c.names ∨ n = name ∨
        settings.isReserved name = false ∧ n = name ++ settings.topLevelSuffix) ∧
      ∀ n ∈ c.names, ∀ v, c'.check? n v = c.check? n v := by
  have hfilter := declarations_filter h hc hc' hname hsynthesized
  have hmem : ∀ d, d ∈ c'.declarations ∧ d.name ∈ c.names ↔ d ∈ c.declarations := by
    intro d
    rw [← hfilter, List.mem_filter, decide_eq_true_iff]
  have hnd := nodup_names_compile hc
  have hnd' := nodup_names_compile hc'
  refine ⟨hfilter, ?_, fun n ↦ ?_, fun n hn v ↦ check?_eq_of_agree ?_ ?_ hn v⟩
  · rw [← bindings_filter (fun n ↦ decide (n ∈ c.names)) hnd', hfilter]
    exact fun d hd hold e _ hnamed ↦
      decide_eq_true (mem_names_of_named hc ((hmem d).1 ⟨hd, of_decide_eq_true hold⟩) hnamed)
  · rw [mem_names_iff_mem_declaredNames hc', mem_names_iff_mem_declaredNames hc,
      mem_declaredNames_insert_iff h]
  · intro n t hn ht
    have hold := (hmem ⟨n, t⟩).1 ⟨(typeOf?_eq_some_iff_mem hnd').1 ht, hn⟩
    exact ⟨(typeOf?_eq_some_iff_mem hnd).2 hold, fun m hm ↦ mem_names_of_named hc hold hm⟩
  · intro n t _ ht
    have hold := (typeOf?_eq_some_iff_mem hnd).1 ht
    exact ⟨(typeOf?_eq_some_iff_mem hnd').2 ((hmem _).2 hold).1,
      fun m hm ↦ mem_names_of_named hc hold hm⟩

end Compilation

/-! ### A ring of references, and another one before it -/

/-- A node that refers to a definition. -/
def refNode (name : String) : Json :=
  .object [("$ref", .string ("#/definitions/" ++ name))]

/-- `A` and `B` refer to each other. -/
def ringDefinitions : Entries String Json :=
  [("JSSTTopLevel", refNode "B"), ("A", refNode "B"), ("B", refNode "A")]

/-- A document with these definitions. -/
def ringDocument : Json :=
  .object [("definitions", .object ringDefinitions), ("$ref", .string "#/definitions/A")]

/-- The document with a definition in front that refers to what is synthesized from it. -/
def extendedRingDocument : Json :=
  .object [("definitions", .object (("X", refNode "XTopLevel") :: ringDefinitions)),
    ("$ref", .string "#/definitions/A")]

/-- What the document declares. -/
def ringDeclarations : List Declaration :=
  [⟨"JSSTTopLevel", .named "B"⟩, ⟨"A", .named "B"⟩, ⟨"B", .named "A"⟩,
    ⟨"ATopLevel", .intersection [.named "A", .named "JSSTTopLevel"]⟩,
    ⟨"BTopLevel", .intersection [.named "B", .named "JSSTTopLevel"]⟩,
    ⟨"JSONSchemaObject", .named "A"⟩]

/-- What the extended document declares. -/
def extendedRingDeclarations : List Declaration :=
  [⟨"X", .named "XTopLevel"⟩, ⟨"JSSTTopLevel", .named "B"⟩, ⟨"A", .named "B"⟩, ⟨"B", .named "A"⟩,
    ⟨"XTopLevel", .intersection [.named "X", .named "JSSTTopLevel"]⟩,
    ⟨"ATopLevel", .intersection [.named "A", .named "JSSTTopLevel"]⟩,
    ⟨"BTopLevel", .intersection [.named "B", .named "JSSTTopLevel"]⟩,
    ⟨"JSONSchemaObject", .named "A"⟩]

theorem ofSchema_refNode (name : String) :
    TypeExpr.ofSchema (refNode name) = .named (Shape.referenceName ("#/definitions/" ++ name)) :=
  ofSchema_eq _

theorem compile_ringDocument : compile {} ringDocument = .ok ⟨sort ringDeclarations⟩ := by
  refine compile_of_resolve_ok ?_ rfl
  show Except.ok [(⟨_, .ofSchema (refNode "B")⟩ : Declaration), ⟨_, .ofSchema (refNode "B")⟩,
    ⟨_, .ofSchema (refNode "A")⟩, _, _, ⟨_, .ofSchema (refNode "A")⟩] = _
  simp only [ofSchema_refNode]
  rfl

theorem compile_extendedRingDocument :
    compile {} extendedRingDocument = .ok ⟨sort extendedRingDeclarations⟩ := by
  refine compile_of_resolve_ok ?_ rfl
  show Except.ok [(⟨_, .ofSchema (refNode "XTopLevel")⟩ : Declaration),
    ⟨_, .ofSchema (refNode "B")⟩, ⟨_, .ofSchema (refNode "B")⟩, ⟨_, .ofSchema (refNode "A")⟩, _, _,
      _, ⟨_, .ofSchema (refNode "A")⟩] = _
  simp only [ofSchema_refNode]
  rfl

/-- Nothing is ready in either document, and the new ring is broken first; the old one is broken as
before. -/
theorem extendedRing_filter :
    InsertsDefinition "X" (refNode "XTopLevel") ringDocument extendedRingDocument ∧
      (sort extendedRingDeclarations).filter
          (fun d ↦ decide (d.name ∈ (sort ringDeclarations).map Declaration.name)) =
        sort ringDeclarations := by
  have hinsert : InsertsDefinition "X" (refNode "XTopLevel") ringDocument extendedRingDocument :=
    @InsertsDefinition.insert _ _ [] [("$ref", .string "#/definitions/A")] [] ringDefinitions
      List.not_mem_nil
  have hfresh : ∀ n, n ∉ declaredNames {} ringDocument →
      n ∉ (⟨sort ringDeclarations⟩ : Compilation).names :=
    fun n hn hmem ↦ hn ((mem_names_iff_mem_declaredNames compile_ringDocument).1 hmem)
  exact ⟨hinsert, (compile_insertsDefinition hinsert compile_ringDocument
    compile_extendedRingDocument (hfresh _ (by decide)) (hfresh _ (by decide))).1⟩

end SchemaCodec
