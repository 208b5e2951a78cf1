import SchemaCodec.Proofs.Compilation.Outcome
import SchemaCodec.Proofs.Compilation.Satisfaction
import SchemaCodec.Proofs.Schema.Reordering

/-!
# The order of keys does not matter

The order of keys shows in nearly everything that a compilation produces: where declarations are
collected, how they are sorted and where a cycle is broken, the order of fields, which of several
bad names is reported. Neither the decision between success and failure nor the answers of the
checkers depend on it (`compile_reordered`).

None of the passes has to be followed for this. Whether and how a document fails is said by `Fails`
in terms of the names it declares and mentions, and what a name accepts by `Satisfies` in terms of
keywords; both are told of a document and pass to a reordered one.
-/

namespace SchemaCodec

open Declaration Document Json Schema

variable {settings : Settings} {document document' : Json} {name definition : String} {node : Json}

namespace Document

/-- Targets whose nodes differ in the order of keys only. -/
inductive Target.Reordered : Target → Target → Prop
  | named (name : String) : Reordered (.named name) (.named name)
  | schema {node node' : Json} (h : Json.Reordered node node') :
      Reordered (.schema node) (.schema node')
  | enveloped (definition : String) : Reordered (.enveloped definition) (.enveloped definition)

/-- A schema corresponds to a schema. -/
theorem Target.Reordered.exists_schema {target : Target}
    (h : (Target.schema node).Reordered target) :
    ∃ node', target = .schema node' ∧ Json.Reordered node node' := by
  cases h with
  | schema h => exact ⟨_, rfl, h⟩

/-- Corresponding targets name the same declarations. -/
theorem Target.Reordered.mem_names {target target' : Target} (h : target.Reordered target')
    (hname : name ∈ (target.type settings).names) : name ∈ (target'.type settings).names := by
  cases h with
  | named => exact hname
  | schema h => exact mem_names_ofSchema_iff.2 ((mem_names_ofSchema_iff.1 hname).reordered h)
  | enveloped => exact hname

/-! ### What a document declares -/

/-- The body of a reordered document is the body, reordered. -/
theorem body_reordered (h : Json.Reordered document document') :
    Json.Reordered (body document) (body document') := by
  cases h with
  | scalar s => exact .scalar s
  | array hlen hitems => exact .array hlen hitems
  | @object fs gs hdistinct hkeys hvalues =>
    have hfilter : ∀ fs : Entries String Json,
        Entries.keys (fs.filter fun p ↦ p.1 != "definitions") =
          (Entries.keys fs).filter (· != "definitions") := by
      intro fs
      rw [Entries.keys, Entries.keys, List.filter_map]
      rfl
    refine .object ?_ ?_ fun key x y hx hy ↦ ?_
    · rw [hfilter]
      exact hdistinct.filter _
    · rw [hfilter, hfilter]
      exact hkeys.filter _
    · exact hvalues key x y (List.mem_of_mem_filter hx) (List.mem_of_mem_filter hy)

/-- Reordering moves the definitions about. -/
theorem definitionNames_perm (h : Json.Reordered document document') :
    (definitionNames document).Perm (definitionNames document') := by
  unfold definitionNames
  rcases hfield : document.field? "definitions" with - | value
  · rw [h.field?_eq_none hfield]
  · obtain ⟨value', hfield', hvalue⟩ := h.exists_field? hfield
    rw [hfield']
    cases hvalue with
    | scalar => exact .refl _
    | array => exact .refl _
    | object _ hkeys => exact hkeys

/-- Reordering moves the declared names about, and neither adds nor drops any. -/
theorem declaredNames_perm (h : Json.Reordered document document') :
    (declaredNames settings document).Perm (declaredNames settings document') := by
  have hnames := definitionNames_perm h
  exact hnames.append (((hnames.filter _).map _).append_right _)

/-- What a document defines, its reordering defines with fields moved. -/
theorem Defines.exists_reordered (h : Defines document name node)
    (hdocument : Json.Reordered document document') :
    ∃ node', Defines document' name node' ∧ Json.Reordered node node' := by
  obtain ⟨before, after, hfield, -⟩ := h
  obtain ⟨written', hfield', hwritten⟩ := hdocument.field?_object hfield
  obtain ⟨node', hmem, hnode⟩ := hwritten.exists_mem_fields
    (List.mem_append_right before List.mem_cons_self)
  obtain ⟨before', after', rfl⟩ := List.append_of_mem hmem
  refine ⟨node', ⟨before', after', hfield', fun p hp heq ↦ ?_⟩, hnode⟩
  -- a second entry with this name would be a second key
  have hnodup := hwritten.symm.nodup_keys
  rw [Entries.keys, List.map_append, List.map_cons] at hnodup
  exact (List.nodup_cons.1 (List.nodup_append.1 hnodup).2.1).1 (List.mem_map.2 ⟨p, hp, heq⟩)

theorem Synthesizes.reordered (h : Synthesizes settings document definition name)
    (hdocument : Json.Reordered document document') :
    Synthesizes settings document' definition name where
  defined := by
    obtain ⟨node, hnode⟩ := h.defined
    obtain ⟨node', hnode', -⟩ := hnode.exists_reordered hdocument
    exact ⟨node', hnode'⟩
  not_reserved := h.not_reserved
  name_eq := h.name_eq

/-- **A reordered document declares the same names, for reordered targets.** -/
theorem Declares.exists_reordered {target : Target} (h : Declares settings document name target)
    (hdocument : Json.Reordered document document') :
    ∃ target', Declares settings document' name target' ∧ target.Reordered target' := by
  cases h with
  | toplevel => exact ⟨_, .toplevel, .schema (body_reordered hdocument)⟩
  | synthesized h => exact ⟨_, .synthesized (h.reordered hdocument), .enveloped _⟩
  | written h hnot =>
    obtain ⟨node', hnode', hreordered⟩ := h.exists_reordered hdocument
    refine ⟨_, .written hnode' fun definition hsynthesizes ↦ ?_, .schema hreordered⟩
    exact hnot definition (hsynthesizes.reordered hdocument.symm)

/-! ### How a document fails -/

theorem WellShaped.reordered (h : WellShaped document)
    (hdocument : Json.Reordered document document') : WellShaped document' where
  isObject := by
    obtain ⟨fields, rfl⟩ := isObject_iff.1 h.isObject
    obtain ⟨fields', rfl⟩ := hdocument.exists_object
    rfl
  isObject_definitions value' hvalue' := by
    obtain ⟨value, hvalue, hreordered⟩ := hdocument.symm.exists_field? hvalue'
    obtain ⟨fields, rfl⟩ := isObject_iff.1 (h.isObject_definitions value hvalue)
    obtain ⟨fields', rfl⟩ := hreordered.symm.exists_object
    rfl

theorem ToplevelTaken.reordered (h : ToplevelTaken settings document)
    (hdocument : Json.Reordered document document') : ToplevelTaken settings document' := by
  have hmem (n : String) : n ∈ definitionNames document ↔ n ∈ definitionNames document' :=
    (definitionNames_perm hdocument).mem_iff
  rcases h with h | ⟨definition, h, htaken⟩
  · exact .inl ((hmem _).1 h)
  · exact .inr ⟨definition, (hmem _).1 h, htaken⟩

theorem Dangles.reordered (h : Dangles settings document definition name)
    (hdocument : Json.Reordered document document') :
    Dangles settings document' definition name := by
  obtain ⟨target, hdeclares, hname, hundeclared⟩ := h
  obtain ⟨target', hdeclares', htarget⟩ := hdeclares.exists_reordered hdocument
  refine ⟨target', hdeclares', htarget.mem_names hname, ?_⟩
  rwa [← (declaredNames_perm hdocument).mem_iff]

/-- **A reordered document fails in the same way.** -/
theorem Fails.reordered {k : CompileError.Kind} (h : Fails settings document k)
    (hdocument : Json.Reordered document document') : Fails settings document' k := by
  have hfree (hfree : ¬ToplevelTaken settings document) : ¬ToplevelTaken settings document' :=
    fun htaken ↦ hfree (htaken.reordered hdocument.symm)
  have hmem (n : String) :
      n ∈ declaredNames settings document ↔ n ∈ declaredNames settings document' :=
    (declaredNames_perm hdocument).mem_iff
  cases k with
  | invalidDocument => exact fun hshape ↦ h (hshape.reordered hdocument.symm)
  | duplicate => exact ⟨h.1.reordered hdocument, h.2.reordered hdocument⟩
  | invalidName =>
    obtain ⟨hshape, hnot, n, hn, hbad⟩ := h
    exact ⟨hshape.reordered hdocument, hfree hnot, n, (hmem n).1 hn, hbad⟩
  | unresolved =>
    obtain ⟨hshape, hnot, hvalid, d, n, hdangles⟩ := h
    exact ⟨hshape.reordered hdocument, hfree hnot, fun n hn ↦ hvalid n ((hmem n).2 hn), d, n,
      hdangles.reordered hdocument⟩

end Document

/-! ### What a name accepts -/

/-- **Satisfaction does not depend on the order of keys**, in the document or in the value. -/
theorem Satisfies.reordered {target target' : Target} {v v' : Json}
    (h : Satisfies settings document target v) (hdocument : Json.Reordered document document')
    (htarget : target.Reordered target') (hv : Json.Reordered v v') :
    Satisfies settings document' target' v' := by
  -- a rule that asks for some part is given its counterpart; one that asks something of every part
  -- is asked about a part of the reordered node or value, which is traced back by symmetry
  induction h generalizing target' v' with
  | named hdeclares _ ih =>
    cases htarget
    obtain ⟨target', hdeclares', htarget⟩ := hdeclares.exists_reordered hdocument
    exact .named hdeclares' (ih htarget hv)
  | enveloped _ _ ihdefinition ihenvelope =>
    cases htarget
    exact .enveloped (ihdefinition (.named _) hv) (ihenvelope (.named _) hv)
  | reference href hname _ ih =>
    obtain ⟨node', rfl, hnode⟩ := htarget.exists_schema
    exact .reference (hnode.field?_string href) hname (ih (.named _) hv)
  | const hpass hconst h =>
    obtain ⟨node', rfl, hnode⟩ := htarget.exists_schema
    obtain ⟨wanted', hconst', hwanted⟩ := hnode.exists_field? hconst
    exact .const (hpass.reordered hnode) hconst' (h.reordered hwanted hv)
  | anyOf hpass hany hmem _ ih =>
    obtain ⟨node', rfl, hnode⟩ := htarget.exists_schema
    obtain ⟨arms', hany', harms⟩ := hnode.field?_array hany
    obtain ⟨arm', hmem', harm⟩ := harms.exists_mem_items hmem
    exact .anyOf (hpass.reordered hnode) hany' hmem' (ih (.schema harm) hv)
  | allOf hpass hall _ ih =>
    obtain ⟨node', rfl, hnode⟩ := htarget.exists_schema
    obtain ⟨arms', hall', harms⟩ := hnode.field?_array hall
    refine .allOf (hpass.reordered hnode) hall' fun arm' hmem' ↦ ?_
    obtain ⟨arm, hmem, harm⟩ := harms.symm.exists_mem_items hmem'
    exact ih arm hmem (.schema harm.symm) hv
  | record hpass hnone hvalues _ ih =>
    obtain ⟨node', rfl, hnode⟩ := htarget.exists_schema
    obtain ⟨values', hvalues', hreordered⟩ := hnode.field?_object hvalues
    obtain ⟨fields', rfl⟩ := hv.exists_object
    refine .record (hpass.reordered hnode) (hnode.field?_eq_none hnone) hvalues' fun p hp ↦ ?_
    obtain ⟨x, hx, hpx⟩ := hv.symm.exists_mem_fields hp
    exact ih _ hx (.schema hreordered) hpx.symm
  | object htype hrequired _ ih =>
    obtain ⟨node', rfl, hnode⟩ := htarget.exists_schema
    obtain ⟨fields', rfl⟩ := hv.exists_object
    refine .object (htype.reordered hnode) (fun key child' hlists' hrequires' hnone' ↦ ?_)
      fun key child' x' hlists' hget' ↦ ?_
    · obtain ⟨child, hlists, -⟩ := hlists'.exists_reordered hnode.symm
      exact hrequired key child hlists (hrequires'.reordered hnode.symm)
        (hv.symm.get?_eq_none hnone')
    · obtain ⟨child, hlists, hchild⟩ := hlists'.exists_reordered hnode.symm
      obtain ⟨x, hget, hx⟩ := hv.symm.exists_get? hget'
      exact ih key child x hlists hget (.schema hchild.symm) hx.symm
  | arrayOf htype hitems _ ih =>
    obtain ⟨node', rfl, hnode⟩ := htarget.exists_schema
    obtain ⟨item', hitems', hreordered⟩ := hnode.field?_object hitems
    obtain ⟨xs', rfl⟩ := hv.exists_array
    refine .arrayOf (htype.reordered hnode) hitems' fun x' hx' ↦ ?_
    obtain ⟨x, hx, hxx'⟩ := hv.symm.exists_mem_items hx'
    exact ih x hx (.schema hreordered) hxx'.symm
  | arrayOfStrings htype hitems h =>
    obtain ⟨node', rfl, hnode⟩ := htarget.exists_schema
    obtain ⟨xs', rfl⟩ := hv.exists_array
    refine .arrayOfStrings (htype.reordered hnode) (fun item' hitem' ↦ ?_) fun x' hx' ↦ ?_
    · obtain ⟨item, hitem, -⟩ := hnode.symm.field?_object hitem'
      exact hitems item hitem
    · obtain ⟨x, hx, hxx'⟩ := hv.symm.exists_mem_items hx'
      obtain ⟨s, rfl⟩ := h x hx
      exact ⟨s, hxx'.symm.eq_scalar⟩
  | number htype n =>
    obtain ⟨node', rfl, hnode⟩ := htarget.exists_schema
    obtain rfl := hv.eq_scalar
    exact .number (htype.imp (·.reordered hnode) (·.reordered hnode)) n
  | null htype =>
    obtain ⟨node', rfl, hnode⟩ := htarget.exists_schema
    obtain rfl := hv.eq_scalar
    exact .null (htype.reordered hnode)
  | boolean htype b =>
    obtain ⟨node', rfl, hnode⟩ := htarget.exists_schema
    obtain rfl := hv.eq_scalar
    exact .boolean (htype.reordered hnode) b
  | stringEnum henum hmem =>
    obtain ⟨node', rfl, hnode⟩ := htarget.exists_schema
    obtain rfl := hv.eq_scalar
    exact .stringEnum (henum.reordered hnode) hmem
  | plainString hplain s =>
    obtain ⟨node', rfl, hnode⟩ := htarget.exists_schema
    obtain rfl := hv.eq_scalar
    exact .plainString (hplain.reordered hnode) s

/-! ### Compilation -/

section Compilation

variable {c c' : Compilation}

/-- The answer of a compilation to a declared name is whether the value satisfies the name. -/
theorem exists_check?_eq_some (hc : compile settings document = .ok c) (hname : name ∈ c.names)
    (v : Json) : ∃ answer, c.check? name v = some answer ∧
      (answer = true ↔ Satisfies settings document (.named name) v) := by
  obtain ⟨d, hd, rfl⟩ := List.mem_map.1 hname
  obtain ⟨i, hi⟩ := exists_denotes_of_mem hd
  refine ⟨_, check?_eq_some_accepts hi, ?_⟩
  rw [satisfies_iff_accepts hc, accepts_nil_iff]
  rfl

/-- Compilations of reordered documents give the same answers to reordered values. -/
theorem check?_reordered (hdocument : Json.Reordered document document')
    (hc : compile settings document = .ok c) (hc' : compile settings document' = .ok c')
    (hnames : name ∈ c.names ↔ name ∈ c'.names) {v v' : Json} (hv : Json.Reordered v v') :
    c.check? name v = c'.check? name v' := by
  by_cases hname : name ∈ c.names
  · obtain ⟨answer, hanswer, hiff⟩ := exists_check?_eq_some hc hname v
    obtain ⟨answer', hanswer', hiff'⟩ := exists_check?_eq_some hc' (hnames.1 hname) v'
    rw [hanswer, hanswer', Option.some_inj, Bool.eq_iff_iff, hiff, hiff']
    exact ⟨fun h ↦ h.reordered hdocument (.named name) hv,
      fun h ↦ h.reordered hdocument.symm (.named name) hv.symm⟩
  · have hnone : ∀ {c : Compilation} {v : Json}, name ∉ c.names → c.check? name v = none :=
      fun hnot ↦ check?_eq_none_iff.2 fun d hd heq ↦ hnot (List.mem_map.2 ⟨d, hd, heq⟩)
    rw [hnone hname, hnone fun hmem ↦ hname (hnames.2 hmem)]

/-- **The order of keys never changes a verdict.** Of two documents that differ in the order of keys
only, either both compile or both fail, and then with the same kind of error. If they compile, they
declare the same names, and each name gives the same answer to any two values that differ in the
order of keys only. -/
theorem compile_reordered (settings : Settings) (hdocument : Json.Reordered document document') :
    (∃ c c', compile settings document = .ok c ∧ compile settings document' = .ok c' ∧
        (∀ name, name ∈ c.names ↔ name ∈ c'.names) ∧
          ∀ name v v', Json.Reordered v v' → c.check? name v = c'.check? name v') ∨
      ∃ e e', compile settings document = .error e ∧ compile settings document' = .error e' ∧
        e.kind = e'.kind := by
  rcases hresult : compile settings document with e | c
  · obtain ⟨e', he', hkind⟩ :=
      exists_compile_eq_error_iff.2 ((fails_of_compile_eq_error hresult).reordered hdocument)
    exact .inr ⟨e, e', rfl, he', hkind.symm⟩
  · obtain ⟨c', hc'⟩ := exists_compile_eq_ok_iff.2 fun k hk ↦
      not_fails_of_compile_eq_ok hresult k (hk.reordered hdocument.symm)
    have hnames : ∀ name, name ∈ c.names ↔ name ∈ c'.names := by
      intro name
      rw [mem_names_iff_mem_declaredNames hresult, mem_names_iff_mem_declaredNames hc',
        (declaredNames_perm hdocument).mem_iff]
    exact .inl ⟨c, c', rfl, hc', hnames,
      fun name _ _ hv ↦ check?_reordered hdocument hresult hc' (hnames name) hv⟩

end Compilation

/-! ### The document of trees, reordered -/

/-- The document of trees with all keys in reverse order. -/
def reversedTreeDocument : Json :=
  .object [("$ref", .string "#/definitions/Tree"),
    ("definitions", .object [
      ("Tree", .object [("anyOf", .array [treeNode,
        .object [("items", treeNode), ("type", .string "array")]])]),
      ("JSSTTopLevel", .object [("type", .string "array")])])]

theorem reordered_treeDocument : Json.Reordered treeDocument reversedTreeDocument := by
  have hstring (key s : String) :
      Json.Reordered (.object [(key, .string s)]) (.object [(key, .string s)]) :=
    .singleton (.scalar _)
  have harms : Json.Reordered
      (.array [treeNode, .object [("type", .string "array"), ("items", treeNode)]])
      (.array [treeNode, .object [("items", treeNode), ("type", .string "array")]]) := by
    refine .array rfl fun i x y hx hy ↦ ?_
    match i with
    | 0 =>
      obtain rfl := Option.some_inj.1 hx
      obtain rfl := Option.some_inj.1 hy
      exact hstring _ _
    | 1 =>
      obtain rfl := Option.some_inj.1 hx
      obtain rfl := Option.some_inj.1 hy
      exact .swap (by decide) (.scalar _) (hstring _ _)
    | i + 2 => exact absurd hx (by simp)
  exact .swap (by decide) (.swap (by decide) (hstring _ _) (.singleton harms)) (.scalar _)

/-- The reversed document compiles like the original one, with the same answers. -/
theorem compile_reversedTreeDocument :
    Json.Reordered treeDocument reversedTreeDocument ∧
      ∃ c, compile {} reversedTreeDocument = .ok c ∧
        (∀ name, name ∈ treeCompilation.names ↔ name ∈ c.names) ∧
          ∀ name v v', Json.Reordered v v' → treeCompilation.check? name v = c.check? name v' := by
  refine ⟨reordered_treeDocument, ?_⟩
  rcases compile_reordered {} reordered_treeDocument with
    ⟨c, c', hc, hc', hanswers⟩ | ⟨e, e', he, -⟩
  · obtain rfl := Except.ok.inj (compile_treeDocument.symm.trans hc)
    exact ⟨c', hc', hanswers⟩
  · exact absurd (compile_treeDocument.symm.trans he) (by simp)

end SchemaCodec
