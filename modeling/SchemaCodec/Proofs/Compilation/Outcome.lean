import SchemaCodec.Proofs.Compilation.Listing

/-!
# How a compilation ends

A compilation fails for one of four kinds of reason, and it looks for them in a fixed order: the
document must be an object with proper definitions (`WellShaped`), the top-level name must be free
(`ToplevelTaken`), every declared name must be one that can be bound, and every name that a
declaration mentions must be declared (`Dangles`). All of these are said of the document and not of
the passes that find them.

`CompileOutcome settings document result` says which result the conditions call for, and
`outcome_compile` that a compilation has it. What is reported is always the first culprit in the
order of `declaredNames`, and of a declaration the first name in its type. A definition that a
synthesized declaration replaces is not looked at, since `Declares` passes it over.
-/

namespace SchemaCodec

/-- The kinds of failure. -/
inductive CompileError.Kind where
  | invalidDocument
  | duplicate
  | invalidName
  | unresolved
deriving DecidableEq

/-- The kind of a failure. -/
def CompileError.kind : CompileError → CompileError.Kind
  | .rootNotObject _ => .invalidDocument
  | .definitionsNotObject _ => .invalidDocument
  | .duplicate _ => .duplicate
  | .invalidName _ => .invalidName
  | .unresolved _ _ => .unresolved

namespace Document

/-- An object whose definitions, if it has any, are an object as well. -/
structure WellShaped (document : Json) : Prop where
  isObject : document.isObject = true
  isObject_definitions : ∀ value, document.field? "definitions" = some value →
    value.isObject = true

/-- The top-level name is also the name of a definition, or synthesized for one. -/
def ToplevelTaken (settings : Settings) (document : Json) : Prop :=
  settings.toplevel ∈ definitionNames document ∨
    ∃ definition ∈ definitionNames document, settings.isReserved definition = false ∧
      settings.toplevel = definition ++ settings.topLevelSuffix

/-- What `declaration` stands for mentions `name`, and nothing declares it. -/
def Dangles (settings : Settings) (document : Json) (declaration name : String) : Prop :=
  ∃ target, Declares settings document declaration target ∧
    name ∈ (target.type settings).names ∧ name ∉ declaredNames settings document

/-- The first declaration that mentions anything undeclared, and the first such name in its type. -/
structure FirstDangling (settings : Settings) (document : Json) (declaration name : String) :
    Prop where
  declaration_first : IsFirst (fun d ↦ ∃ n, Dangles settings document d n)
    (declaredNames settings document) declaration
  name_first : ∃ target, Declares settings document declaration target ∧
    IsFirst (· ∉ declaredNames settings document) (target.type settings).names name

end Document

open Declaration Document

/-- The result that a document calls for. -/
inductive CompileOutcome (settings : Settings) (document : Json) :
    Except CompileError Compilation → Prop
  | invalidDocument {e : CompileError} (hshape : ¬WellShaped document)
      (hkind : e.kind = .invalidDocument) : CompileOutcome settings document (.error e)
  | duplicate (hshape : WellShaped document) (htaken : ToplevelTaken settings document) :
      CompileOutcome settings document (.error (.duplicate settings.toplevel))
  | invalidName {name : String} (hshape : WellShaped document)
      (hfree : ¬ToplevelTaken settings document)
      (hfirst : IsFirst (Identifier.isDeclarationName · = false)
        (declaredNames settings document) name) :
      CompileOutcome settings document (.error (.invalidName name))
  | unresolved {name referencedBy : String} (hshape : WellShaped document)
      (hfree : ¬ToplevelTaken settings document)
      (hvalid : ∀ n ∈ declaredNames settings document, Identifier.isDeclarationName n = true)
      (hfirst : FirstDangling settings document referencedBy name) :
      CompileOutcome settings document (.error (.unresolved name referencedBy))
  | compiled {c : Compilation} (hshape : WellShaped document)
      (hfree : ¬ToplevelTaken settings document)
      (hvalid : ∀ n ∈ declaredNames settings document, Identifier.isDeclarationName n = true)
      (hresolved : ∀ d n, ¬Dangles settings document d n) :
      CompileOutcome settings document (.ok c)

variable {settings : Settings} {document : Json} {root written : Entries String Json}
  {ds : List Declaration} {c : Compilation} {name : String}

/-! ### The shape of the document -/

/-- The definitions of a well-shaped document can be read. -/
theorem Document.WellShaped.exists_definitions (h : WellShaped document) :
    ∃ root written, document = .object root ∧ definitions root = .ok written := by
  obtain ⟨root, rfl⟩ := Schema.isObject_iff.1 h.isObject
  refine ⟨root, ?_⟩
  rcases hget : Entries.get? "definitions" root with - | value
  · exact ⟨[], rfl, by rw [definitions, hget]⟩
  · obtain ⟨fields, rfl⟩ := Schema.isObject_iff.1 (h.isObject_definitions value hget)
    exact ⟨fields, rfl, by rw [definitions, hget]⟩

/-- A document of another shape is refused as such. -/
theorem collect_of_not_wellShaped (h : ¬WellShaped document) :
    ∃ e, collect settings document = .error e ∧ e.kind = .invalidDocument := by
  by_cases hobject : ∃ root, document = .object root
  · obtain ⟨root, rfl⟩ := hobject
    have hbad : ∃ value, Entries.get? "definitions" root = some value ∧
        ¬value.isObject = true := by
      by_contra hno
      refine h ⟨rfl, fun value hvalue ↦ ?_⟩
      by_contra hvalue'
      exact hno ⟨value, hvalue, hvalue'⟩
    obtain ⟨value, hvalue, hkind⟩ := hbad
    refine ⟨.definitionsNotObject value.kind, ?_, rfl⟩
    cases value with
    | object fields => exact absurd rfl hkind
    | scalar s => simp [collect, definitions, hvalue]
    | array items => simp [collect, definitions, hvalue]
  · refine ⟨.rootNotObject document.kind, ?_, rfl⟩
    cases document with
    | object root => exact absurd ⟨root, rfl⟩ hobject
    | scalar s => rfl
    | array items => rfl

/-! ### Collection -/

/-- The top-level name is taken if it is among the names of the definitions, written or
synthesized. -/
theorem toplevelTaken_iff (h : definitions root = .ok written) :
    ToplevelTaken settings (.object root) ↔
      settings.toplevel ∈ (definedTypes settings written).keys := by
  rw [keys_definedTypes h, List.mem_eraseDups, List.mem_append, ToplevelTaken, synthesizedNames]
  simp only [List.mem_map, List.mem_filter, Bool.not_eq_true', and_assoc,
    eq_comm (a := settings.toplevel)]

/-- A taken top-level name is reported as a duplicate, before any type is looked at. -/
theorem collect_of_taken (h : definitions root = .ok written)
    (htaken : ToplevelTaken settings (.object root)) :
    collect settings (.object root) = .error (.duplicate settings.toplevel) := by
  rw [toplevelTaken_iff h, ← Entries.get?_isSome_iff] at htaken
  simp only [collect, h, htaken, if_true]

/-- With the top-level name free, only a name that cannot be bound stops a collection. -/
theorem collect_of_free (h : definitions root = .ok written)
    (hfree : ¬ToplevelTaken settings (.object root)) :
    collect settings (.object root) =
      match (collected settings root written).find? fun d ↦
        !Identifier.isDeclarationName d.name with
      | some d => .error (.invalidName d.name)
      | none => .ok (collected settings root written) := by
  rw [toplevelTaken_iff h, ← Entries.get?_isSome_iff] at hfree
  simp only [collect, h, hfree]
  rfl

/-- With a free top-level name, exactly the declared names are collected, each where it comes
first. -/
theorem names_collected_of_free (h : definitions root = .ok written)
    (hfree : ¬ToplevelTaken settings (.object root)) :
    (collected settings root written).map Declaration.name =
      (declaredNames settings (.object root)).eraseDups :=
  names_collected h (mt (toplevelTaken_iff h).2 hfree)

theorem mem_names_collected_iff (h : definitions root = .ok written)
    (hfree : ¬ToplevelTaken settings (.object root)) :
    name ∈ (collected settings root written).map Declaration.name ↔
      name ∈ declaredNames settings (.object root) := by
  rw [names_collected_of_free h hfree, List.mem_eraseDups]

/-- The first declaration with a property of its name bears the first name with that property. -/
theorem isFirst_declaredNames (h : definitions root = .ok written)
    (hfree : ¬ToplevelTaken settings (.object root)) {p : Declaration → Prop} {q : String → Prop}
    (hp : ∀ d ∈ collected settings root written, p d ↔ q d.name) {d : Declaration}
    (hd : IsFirst p (collected settings root written) d) :
    IsFirst q (declaredNames settings (.object root)) d.name := by
  have hnames := hd.map hp
  rwa [names_collected_of_free h hfree, isFirst_eraseDups_iff] at hnames

/-! ### Resolution -/

/-- Resolution succeeds if every name is declared; otherwise it reports the first undeclared name of
the first declaration that has one. -/
theorem resolve_cases (ds : List Declaration) :
    (resolve ds = .ok () ∧ ∀ d ∈ ds, ∀ n ∈ d.type.names, n ∈ ds.map Declaration.name) ∨
      ∃ d n, resolve ds = .error (.unresolved n d.name) ∧
        IsFirst (fun d ↦ ∃ n ∈ d.type.names, n ∉ ds.map Declaration.name) ds d ∧
          IsFirst (· ∉ ds.map Declaration.name) d.type.names n := by
  rcases hfound : unresolved? ds with - | ⟨n, referencedBy⟩
  · have hok : resolve ds = .ok () := by rw [resolve, hfound]
    refine .inl ⟨hok, fun d hd n hn ↦ ?_⟩
    obtain ⟨e, he, rfl⟩ := resolve_eq_ok_iff.1 hok d hd n hn
    exact List.mem_map_of_mem he
  · have herror : resolve ds = .error (.unresolved n referencedBy) := by rw [resolve, hfound]
    rw [unresolved?, List.findSome?_eq_some_iff] at hfound
    obtain ⟨before, d, after, hsplit, hmap, hbefore⟩ := hfound
    obtain ⟨n', hn, heq⟩ := Option.map_eq_some_iff.1 hmap
    obtain ⟨rfl, rfl⟩ := Prod.mk.inj heq
    have hundeclared : ∀ m, (!ds.any fun e ↦ e.name == m) =
        decide (m ∉ ds.map Declaration.name) := by
      intro m
      rw [Bool.eq_iff_iff]
      simp
    -- the first name is searched among the references, which are the names without repetitions
    simp only [hundeclared, TypeExpr.references, ← isFirst_iff_find?_eq_some,
      isFirst_eraseDups_iff] at hn
    refine .inr ⟨d, n', herror, ⟨before, after, hsplit, ⟨n', hn.mem, hn.holds⟩, ?_⟩, hn⟩
    rintro e he ⟨m, hm, hmnot⟩
    have hnone := hbefore e he
    rw [Option.map_eq_none_iff, List.find?_eq_none] at hnone
    have := hnone m (mem_references_iff.2 hm)
    rw [hundeclared] at this
    exact this (decide_eq_true hmnot)

/-- In a collection, what a declaration stands for has the type of the declaration. -/
theorem exists_declares_iff (h : collect settings document = .ok ds) {d : Declaration}
    (hd : d ∈ ds) {p : TypeExpr → Prop} :
    (∃ target, Declares settings document d.name target ∧ p (target.type settings)) ↔
      p d.type := by
  have htype : typeOf? ds d.name = some d.type :=
    (typeOf?_eq_some_iff_mem (nodup_names_collect h)).2 hd
  constructor
  · rintro ⟨target, hdeclares, hp⟩
    have hsame := htype.symm.trans ((typeOf?_collect_iff h).2 ⟨target, hdeclares, rfl⟩)
    rwa [Option.some_inj.1 hsame]
  · intro hp
    obtain ⟨target, hdeclares, heq⟩ := (typeOf?_collect_iff h).1 htype
    exact ⟨target, hdeclares, heq ▸ hp⟩

/-- What a document declares is collected with its type. -/
theorem exists_mem_of_declares (h : collect settings document = .ok ds) {target : Target}
    (hdeclares : Declares settings document name target) :
    ⟨name, target.type settings⟩ ∈ ds :=
  (typeOf?_eq_some_iff_mem (nodup_names_collect h)).1
    ((typeOf?_collect_iff h).2 ⟨target, hdeclares, rfl⟩)

/-! ### Compilation -/

theorem compile_of_collect_error {e : CompileError} (h : collect settings document = .error e) :
    compile settings document = .error e := by
  rw [compile, h]
  rfl

theorem compile_of_resolve_error {e : CompileError} (h : collect settings document = .ok ds)
    (hresolve : resolve ds = .error e) : compile settings document = .error e := by
  simp [compile, h, hresolve, bind, Except.bind]

/-- Collected and resolved declarations are sorted, and nothing fails any more. -/
theorem compile_of_resolve_ok (h : collect settings document = .ok ds)
    (hresolve : resolve ds = .ok ()) : compile settings document = .ok ⟨sort ds⟩ := by
  simp [compile, h, hresolve, bind, Except.bind, pure, Except.pure]

/-- The empty document declares its top level only. -/
theorem compile_emptyObject (hname : Identifier.isDeclarationName settings.toplevel = true) :
    compile settings (.object []) = .ok ⟨[⟨settings.toplevel, .string⟩]⟩ := by
  have hbody : TypeExpr.ofSchema (.object []) = .string := ofSchema_eq _
  have hcollect : collect settings (.object []) = .ok [⟨settings.toplevel, .string⟩] := by
    show (match List.find? _ [(⟨settings.toplevel, .ofSchema (.object [])⟩ : Declaration)] with
      | some d => _ | none => _) = _
    rw [List.find?_cons_of_neg (by simpa using hname), List.find?_nil]
    exact congrArg (fun t ↦ Except.ok [(⟨settings.toplevel, t⟩ : Declaration)]) hbody
  rw [compile_of_resolve_ok hcollect rfl, List.perm_singleton.1 (sort_perm _)]

/-- A collection with proper names ends in resolution. -/
theorem outcome_of_collect (hwritten : definitions root = .ok written)
    (hfree : ¬ToplevelTaken settings (.object root)) (hshape : WellShaped (.object root))
    (hvalid : ∀ n ∈ declaredNames settings (.object root),
      Identifier.isDeclarationName n = true)
    (hcollect : collect settings (.object root) = .ok (collected settings root written)) :
    CompileOutcome settings (.object root) (compile settings (.object root)) := by
  rcases resolve_cases (collected settings root written) with
    ⟨hok, hall⟩ | ⟨d, n, herror, hd, hn⟩
  · rw [compile_of_resolve_ok hcollect hok]
    refine .compiled hshape hfree hvalid ?_
    rintro d n ⟨target, hdeclares, hn, hnot⟩
    have hmem := hall _ (exists_mem_of_declares hcollect hdeclares) n hn
    exact hnot ((mem_names_collected_iff hwritten hfree).1 hmem)
  · rw [compile_of_resolve_error hcollect herror]
    simp only [mem_names_collected_iff hwritten hfree] at hd hn
    refine .unresolved hshape hfree hvalid ⟨isFirst_declaredNames hwritten hfree ?_ hd, ?_⟩
    · intro e he
      refine exists_congr fun n ↦ ?_
      exact (exists_declares_iff hcollect he
        (p := fun t ↦ n ∈ t.names ∧ n ∉ declaredNames settings (.object root))).symm
    · exact (exists_declares_iff hcollect hd.mem
        (p := fun t ↦ IsFirst (· ∉ declaredNames settings (.object root)) t.names n)).2 hn

/-- **A compilation ends as its document calls for.** -/
theorem outcome_compile (settings : Settings) (document : Json) :
    CompileOutcome settings document (compile settings document) := by
  by_cases hshape : WellShaped document
  · obtain ⟨root, written, rfl, hwritten⟩ := hshape.exists_definitions
    by_cases htaken : ToplevelTaken settings (.object root)
    · rw [compile_of_collect_error (collect_of_taken hwritten htaken)]
      exact .duplicate hshape htaken
    · have hcollect := collect_of_free hwritten htaken
      rcases hbad : (collected settings root written).find? fun d ↦
          !Identifier.isDeclarationName d.name with - | d
      · rw [hbad] at hcollect
        refine outcome_of_collect hwritten htaken hshape (fun n hn ↦ ?_) hcollect
        obtain ⟨d, hd, rfl⟩ := List.mem_map.1 ((mem_names_collected_iff hwritten htaken).2 hn)
        simpa using List.find?_eq_none.1 hbad d hd
      · rw [hbad] at hcollect
        rw [compile_of_collect_error hcollect]
        have hfirst : IsFirst (fun d ↦ Identifier.isDeclarationName d.name = false)
            (collected settings root written) d := by
          rw [isFirst_iff_find?_eq_some, ← hbad]
          congr 1
          funext e
          cases Identifier.isDeclarationName e.name <;> rfl
        exact .invalidName hshape htaken
          (isFirst_declaredNames hwritten htaken (fun _ _ ↦ Iff.rfl) hfirst)
  · have hfailed : ∃ e, collect settings document = .error e ∧ e.kind = .invalidDocument :=
      collect_of_not_wellShaped hshape
    obtain ⟨e, he, hkind⟩ := hfailed
    rw [compile_of_collect_error he]
    exact .invalidDocument hshape hkind

/-! ### Kinds of failure -/

/-- The condition under which a document fails in a given way. -/
def Document.Fails (settings : Settings) (document : Json) : CompileError.Kind → Prop
  | .invalidDocument => ¬WellShaped document
  | .duplicate => WellShaped document ∧ ToplevelTaken settings document
  | .invalidName =>
    WellShaped document ∧ ¬ToplevelTaken settings document ∧
      ∃ n ∈ declaredNames settings document, Identifier.isDeclarationName n = false
  | .unresolved =>
    WellShaped document ∧ ¬ToplevelTaken settings document ∧
      (∀ n ∈ declaredNames settings document, Identifier.isDeclarationName n = true) ∧
        ∃ d n, Dangles settings document d n

/-- A document fails in one way at most, since each way excludes the ones before it. -/
theorem Document.Fails.unique {k k' : CompileError.Kind} (h : Fails settings document k)
    (h' : Fails settings document k') : k = k' := by
  cases k <;> cases k' <;> first | rfl | (simp only [Fails] at h h'; grind)

/-- A reported error is a way in which the document fails. -/
theorem fails_of_compile_eq_error {e : CompileError} (h : compile settings document = .error e) :
    Fails settings document e.kind := by
  have houtcome := outcome_compile settings document
  rw [h] at houtcome
  cases houtcome with
  | invalidDocument hshape hkind =>
    rw [hkind]
    exact hshape
  | duplicate hshape htaken => exact ⟨hshape, htaken⟩
  | invalidName hshape hfree hfirst => exact ⟨hshape, hfree, _, hfirst.mem, hfirst.holds⟩
  | unresolved hshape hfree hvalid hfirst =>
    exact ⟨hshape, hfree, hvalid, _, hfirst.declaration_first.holds⟩

/-- A document that compiles fails in no way. -/
theorem not_fails_of_compile_eq_ok (h : compile settings document = .ok c)
    (k : CompileError.Kind) : ¬Fails settings document k := by
  have houtcome := outcome_compile settings document
  rw [h] at houtcome
  cases houtcome with
  | compiled hshape hfree hvalid hresolved =>
    cases k <;> simp only [Fails] <;> grind

/-- **The kind of failure is determined by the document.** -/
theorem exists_compile_eq_error_iff {k : CompileError.Kind} :
    (∃ e, compile settings document = .error e ∧ e.kind = k) ↔ Fails settings document k := by
  constructor
  · rintro ⟨e, he, rfl⟩
    exact fails_of_compile_eq_error he
  · intro hk
    rcases hresult : compile settings document with e | c
    · exact ⟨e, rfl, (fails_of_compile_eq_error hresult).unique hk⟩
    · exact absurd hk (not_fails_of_compile_eq_ok hresult k)

/-- **A document that fails in no way compiles.** -/
theorem exists_compile_eq_ok_iff :
    (∃ c, compile settings document = .ok c) ↔ ∀ k, ¬Fails settings document k := by
  constructor
  · rintro ⟨c, hc⟩
    exact not_fails_of_compile_eq_ok hc
  · intro hnone
    rcases hresult : compile settings document with e | c
    · exact absurd (fails_of_compile_eq_error hresult) (hnone e.kind)
    · exact ⟨c, rfl⟩

/-! ### What a successful compilation declares -/

/-- A compilation sorts what is collected from the definitions of its document. -/
theorem compile_object_eq_ok (hwritten : definitions root = .ok written)
    (h : compile settings (.object root) = .ok c) :
    collect settings (.object root) = .ok (collected settings root written) ∧
      c.declarations = sort (collected settings root written) := by
  obtain ⟨ds, hcollect, -, hsort⟩ := compile_eq_ok h
  obtain ⟨_, _, hroot, hwritten', -, hds⟩ := collect_eq_ok hcollect
  obtain rfl := Json.object.inj hroot
  obtain rfl := Except.ok.inj (hwritten.symm.trans hwritten')
  obtain rfl : ds = collected settings root written := hds
  exact ⟨hcollect, hsort⟩

theorem not_toplevelTaken_of_collect (h : collect settings document = .ok ds) :
    ¬ToplevelTaken settings document := by
  obtain ⟨root, written, rfl, hwritten, hfree, -⟩ := collect_eq_ok h
  rw [toplevelTaken_iff hwritten, ← Entries.get?_isSome_iff, hfree]
  simp

/-- A compilation has exactly the declared names. -/
theorem mem_names_iff_mem_declaredNames (h : compile settings document = .ok c) :
    name ∈ c.names ↔ name ∈ declaredNames settings document := by
  obtain ⟨ds, hcollect, -, hsort⟩ := compile_eq_ok h
  have hfree := not_toplevelTaken_of_collect hcollect
  obtain ⟨root, written, rfl, hwritten, -, hds⟩ := collect_eq_ok hcollect
  rw [Compilation.names, hsort, ((sort_perm ds).map _).mem_iff, hds]
  exact mem_names_collected_iff hwritten hfree

theorem isDeclarationName_of_compile (h : compile settings document = .ok c)
    (hname : name ∈ c.names) : Identifier.isDeclarationName name = true := by
  have houtcome := outcome_compile settings document
  rw [h] at houtcome
  cases houtcome with
  | compiled _ _ hvalid => exact hvalid name ((mem_names_iff_mem_declaredNames h).1 hname)

/-- What a compiled type names is declared. -/
theorem mem_names_of_named (h : compile settings document = .ok c) {d : Declaration}
    (hd : d ∈ c.declarations) (hname : name ∈ d.type.names) : name ∈ c.names := by
  obtain ⟨i, hi⟩ := exists_denotes_of_compile h hd hname
  exact List.mem_map.2 ⟨_, c.declarations.get_mem i, hi.name_eq⟩

/-- Bindings have the names of the declarations, in the same order. -/
theorem map_name_bindings (c : Compilation) : c.bindings.map Binding.name = c.names := by
  refine List.ext_getElem? fun i ↦ ?_
  simp only [Compilation.bindings, Binding.ofDeclarations, Compilation.names, List.getElem?_map,
    List.getElem?_mapIdx, Option.map_map]
  rfl

/-! ### The exact conditions -/

/-- A document with proper names has something to resolve. -/
theorem exists_collect_eq_ok (hshape : WellShaped document)
    (hfree : ¬ToplevelTaken settings document)
    (hvalid : ∀ n ∈ declaredNames settings document, Identifier.isDeclarationName n = true) :
    ∃ ds, collect settings document = .ok ds := by
  obtain ⟨root, written, rfl, hwritten⟩ := hshape.exists_definitions
  refine ⟨collected settings root written, ?_⟩
  have hnone : (collected settings root written).find?
      (fun d ↦ !Identifier.isDeclarationName d.name) = none := by
    refine List.find?_eq_none.2 fun d hd ↦ ?_
    have hname := (mem_names_collected_iff hwritten hfree).1 (List.mem_map_of_mem hd)
    simp [hvalid _ hname]
  rw [collect_of_free hwritten hfree, hnone]

/-- In such a document, there is one first declaration that dangles, and one first name in it. -/
theorem Document.FirstDangling.unique {name' referencedBy referencedBy' : String}
    (hcollect : collect settings document = .ok ds)
    (h : FirstDangling settings document referencedBy name)
    (h' : FirstDangling settings document referencedBy' name') :
    name = name' ∧ referencedBy = referencedBy' := by
  obtain rfl := h.declaration_first.unique h'.declaration_first
  obtain ⟨target, hdeclares, hfirst⟩ := h.name_first
  obtain ⟨target', hdeclares', hfirst'⟩ := h'.name_first
  have htype : target.type settings = target'.type settings :=
    Option.some_inj.1 (((typeOf?_collect_iff hcollect).2 ⟨_, hdeclares, rfl⟩).symm.trans
      ((typeOf?_collect_iff hcollect).2 ⟨_, hdeclares', rfl⟩))
  rw [htype] at hfirst
  exact ⟨hfirst.unique hfirst', rfl⟩

/-- Behind the shape of the document, a failure is called for alone. -/
theorem CompileOutcome.eq_error {e : CompileError} {result : Except CompileError Compilation}
    (h : CompileOutcome settings document (.error e)) (hkind : e.kind ≠ .invalidDocument)
    (h' : CompileOutcome settings document result) : result = .error e := by
  cases h with
  | invalidDocument _ h => exact absurd h hkind
  | duplicate hshape htaken =>
    cases h' with
    | duplicate => rfl
    | invalidDocument hnot => exact absurd hshape hnot
    | invalidName _ hfree | unresolved _ hfree | compiled _ hfree => exact absurd htaken hfree
  | invalidName hshape hfree hfirst =>
    cases h' with
    | invalidName _ _ hfirst' => rw [hfirst.unique hfirst']
    | invalidDocument hnot => exact absurd hshape hnot
    | duplicate _ htaken => exact absurd htaken hfree
    | unresolved _ _ hvalid | compiled _ _ hvalid =>
      have hbound := hvalid _ hfirst.mem
      rw [hfirst.holds] at hbound
      exact absurd hbound (by decide)
  | unresolved hshape hfree hvalid hfirst =>
    cases h' with
    | unresolved _ _ _ hfirst' =>
      obtain ⟨ds, hcollect⟩ := exists_collect_eq_ok hshape hfree hvalid
      obtain ⟨rfl, rfl⟩ := hfirst.unique hcollect hfirst'
      rfl
    | invalidDocument hnot => exact absurd hshape hnot
    | duplicate _ htaken => exact absurd htaken hfree
    | invalidName _ _ hfirst' =>
      have hbound := hvalid _ hfirst'.mem
      rw [hfirst'.holds] at hbound
      exact absurd hbound (by decide)
    | compiled _ _ _ hresolved =>
      obtain ⟨n, hn⟩ := hfirst.declaration_first.holds
      exact absurd hn (hresolved _ n)

/-- A compilation ends in a failure, its document being well-shaped, if and only if that failure is
called for. -/
theorem compile_eq_error_iff {e : CompileError} (hkind : e.kind ≠ .invalidDocument) :
    compile settings document = .error e ↔ CompileOutcome settings document (.error e) := by
  constructor
  · intro h
    rw [← h]
    exact outcome_compile settings document
  · intro h
    exact h.eq_error hkind (outcome_compile settings document)

/-- **When and how a compilation fails.** The document is refused exactly if it is no object or has
definitions that are none; otherwise the top-level name is reported as a duplicate exactly if it is
also the name of a definition or synthesized for one; otherwise the first declared name that cannot
be bound is reported, if there is one; otherwise the first declaration that mentions an undeclared
name is reported, with the first such name in its type, if there is one. In every other case there
is a compilation, and its bindings have the names of its declarations, one by one. -/
theorem compile_outcome_iff (settings : Settings) (document : Json) :
    ((∃ e, compile settings document = .error e ∧ e.kind = .invalidDocument) ↔
      ¬WellShaped document) ∧
    (∀ name, compile settings document = .error (.duplicate name) ↔
      WellShaped document ∧ ToplevelTaken settings document ∧ name = settings.toplevel) ∧
    (∀ name, compile settings document = .error (.invalidName name) ↔
      WellShaped document ∧ ¬ToplevelTaken settings document ∧
        IsFirst (Identifier.isDeclarationName · = false)
          (declaredNames settings document) name) ∧
    (∀ name referencedBy,
      compile settings document = .error (.unresolved name referencedBy) ↔
        WellShaped document ∧ ¬ToplevelTaken settings document ∧
          (∀ n ∈ declaredNames settings document, Identifier.isDeclarationName n = true) ∧
            FirstDangling settings document referencedBy name) ∧
    ((∃ c, compile settings document = .ok c ∧
        c.bindings.map Binding.name = c.declarations.map Declaration.name) ↔
      WellShaped document ∧ ¬ToplevelTaken settings document ∧
        (∀ n ∈ declaredNames settings document, Identifier.isDeclarationName n = true) ∧
          ∀ d n, ¬Dangles settings document d n) := by
  refine ⟨exists_compile_eq_error_iff, fun name ↦ ?_, fun name ↦ ?_, fun name referencedBy ↦ ?_, ?_⟩
  · rw [compile_eq_error_iff (e := .duplicate name) nofun]
    constructor
    · rintro (⟨-, ⟨⟩⟩ | ⟨hshape, htaken⟩)
      exact ⟨hshape, htaken, rfl⟩
    · rintro ⟨hshape, htaken, rfl⟩
      exact .duplicate hshape htaken
  · rw [compile_eq_error_iff (e := .invalidName name) nofun]
    constructor
    · rintro (⟨-, ⟨⟩⟩ | - | ⟨hshape, hfree, hfirst⟩)
      exact ⟨hshape, hfree, hfirst⟩
    · rintro ⟨hshape, hfree, hfirst⟩
      exact .invalidName hshape hfree hfirst
  · rw [compile_eq_error_iff (e := .unresolved name referencedBy) nofun]
    constructor
    · rintro (⟨-, ⟨⟩⟩ | - | - | ⟨hshape, hfree, hvalid, hfirst⟩)
      exact ⟨hshape, hfree, hvalid, hfirst⟩
    · rintro ⟨hshape, hfree, hvalid, hfirst⟩
      exact .unresolved hshape hfree hvalid hfirst
  · constructor
    · rintro ⟨c, hc, -⟩
      have houtcome := outcome_compile settings document
      rw [hc] at houtcome
      cases houtcome with
      | compiled hshape hfree hvalid hresolved => exact ⟨hshape, hfree, hvalid, hresolved⟩
    · rintro ⟨hshape, hfree, hvalid, hresolved⟩
      have hnone : ∀ k, ¬Fails settings document k := by
        intro k
        cases k <;> simp only [Fails] <;> grind
      obtain ⟨c, hc⟩ := exists_compile_eq_ok_iff.2 hnone
      exact ⟨c, hc, map_name_bindings c⟩

end SchemaCodec
