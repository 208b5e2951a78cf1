import SchemaCodec.Proofs.Compilation.Collection

/-!
# Initialization of the emitted module

A constant that is built at once must find everything it names on earlier lines: otherwise the
module fails when it is loaded. One that is built on first use need not, at the price of a wrapper
that should not be there without a reason.

Behind the preamble, the constant of the declaration at position `i` stands on line `i + 1`
(`lines_toModule`), in one of two forms that cannot be taken for each other (`EagerAt`, `LazyAt`).
Which one depends on whether the declaration names itself or a later one (`lazyAt_iff`), and sorting
lets that happen only on a cycle (`Declaration.transGen_of_names_forward`). Since nothing dangles in
a compilation, the module can be loaded (`constants_initialized_in_order`).
-/

namespace SchemaCodec

open Declaration Relation

namespace Module

/-- On line `k`, the constant of `d` is built at once. -/
def EagerAt (m : Module) (k : ℕ) (d : Declaration) : Prop :=
  m.lines[k]? = some ("export const " ++ d.name ++ " = " ++ (CodecExpr.ofType d.type).text ++ ";")

/-- On line `k`, the constant of `d` is declared with its type and built on first use. -/
def LazyAt (m : Module) (k : ℕ) (d : Declaration) : Prop :=
  m.lines[k]? = some ("export const " ++ d.name ++ ": t.Type<" ++ d.name ++ "> = t.recursion(" ++
    Json.quote d.name ++ ", () => " ++ (CodecExpr.ofType d.type).text ++ ");")

/-- The two forms part right behind the name. -/
theorem EagerAt.not_lazyAt {m : Module} {k : ℕ} {d : Declaration} (h : m.EagerAt k d) :
    ¬m.LazyAt k d := by
  intro hlazy
  have htext := Option.some_inj.1 (h.symm.trans hlazy)
  rw [← String.toList_inj] at htext
  simp only [String.toList_append, List.append_assoc, List.append_cancel_left_eq] at htext
  exact absurd (congrArg List.head? htext) (by simp)

end Module

namespace Binding

variable {ds : List Declaration}

/-- A declaration refers forward if it names itself or a later one. -/
theorem refersForward_iff {i : Fin ds.length} :
    refersForward ds i (ds.get i).type = true ↔ ∃ j, Names ds i j ∧ i ≤ j := by
  simp only [refersForward, List.any_eq_true, Option.any_eq_true, mem_references_iff,
    position?_eq_some_iff, decide_eq_true_eq, Names]
  constructor
  · rintro ⟨name, hname, j, hj, hle⟩
    exact ⟨j, ⟨name, hname, hj⟩, hle⟩
  · rintro ⟨j, ⟨name, hname, hj⟩, hle⟩
    exact ⟨name, hname, j, hj, hle⟩

end Binding

variable {settings : Settings} {document : Json} {c : Compilation} {preamble : String}
  {i : Fin c.declarations.length}

/-! ### The lines of constants -/

/-- The binding of the declaration at a position. -/
def bindingAt (c : Compilation) (i : Fin c.declarations.length) : Binding :=
  ⟨(c.declarations.get i).name, (c.declarations.get i).type,
    Binding.refersForward c.declarations i (c.declarations.get i).type⟩

/-- Behind the preamble, the constants stand in the order of the declarations. -/
theorem lines_toModule :
    (c.toModule preamble).lines[i.val + 1]? = some ("export " ++ (bindingAt c i).constant) := by
  have hbinding : c.bindings[i.val]? = some (bindingAt c i) := by
    rw [Compilation.bindings, Binding.ofDeclarations, List.getElem?_mapIdx,
      List.getElem?_eq_getElem i.isLt]
    rfl
  obtain ⟨hlt, -⟩ := List.getElem?_eq_some_iff.1 hbinding
  show (preamble :: (c.bindings.map _ ++ _))[i.val + 1]? = _
  rw [List.getElem?_cons_succ, List.getElem?_append_left (by simpa using hlt), List.getElem?_map,
    hbinding]
  rfl

theorem lazyAt_of_deferred (h : (bindingAt c i).deferred = true) :
    (c.toModule preamble).LazyAt (i + 1) (c.declarations.get i) := by
  rw [Module.LazyAt, lines_toModule, Binding.constant, if_pos h, Option.some_inj,
    ← String.toList_inj]
  simp [String.toList_append, bindingAt, Binding.codec]

theorem eagerAt_of_not_deferred (h : ¬(bindingAt c i).deferred = true) :
    (c.toModule preamble).EagerAt (i + 1) (c.declarations.get i) := by
  rw [Module.EagerAt, lines_toModule, Binding.constant, if_neg h, Option.some_inj,
    ← String.toList_inj]
  simp [String.toList_append, bindingAt, Binding.codec]

/-- A constant is built on first use exactly when it names itself or a later one. -/
theorem lazyAt_iff :
    (c.toModule preamble).LazyAt (i + 1) (c.declarations.get i) ↔
      ∃ j, Names c.declarations i j ∧ i ≤ j := by
  rw [← Binding.refersForward_iff]
  refine ⟨fun h ↦ ?_, lazyAt_of_deferred⟩
  by_contra hnot
  exact (eagerAt_of_not_deferred hnot).not_lazyAt h

/-- A constant is built at once exactly when all it names stands on earlier lines. -/
theorem eagerAt_iff :
    (c.toModule preamble).EagerAt (i + 1) (c.declarations.get i) ↔
      ∀ j, Names c.declarations i j → j < i := by
  have hforward : (∀ j, Names c.declarations i j → j < i) ↔
      ¬∃ j, Names c.declarations i j ∧ i ≤ j := by
    simp only [not_exists, not_and, not_le]
  rw [hforward, ← Binding.refersForward_iff]
  exact ⟨fun h hfwd ↦ h.not_lazyAt (lazyAt_of_deferred hfwd), eagerAt_of_not_deferred⟩

/-! ### The order of initialization -/

/-- What is built on first use is on a cycle, because the order only breaks cycles. -/
theorem transGen_of_lazyAt (hc : compile settings document = .ok c)
    (h : (c.toModule preamble).LazyAt (i + 1) (c.declarations.get i)) :
    TransGen (Names c.declarations) i i := by
  -- a compilation is a sorted collection, and a collection has distinct names
  obtain ⟨ds, hcollect, -, hsort⟩ := compile_eq_ok hc
  obtain ⟨declarations⟩ := c
  obtain rfl : declarations = sort ds := hsort
  obtain ⟨j, hij, hle⟩ := lazyAt_iff.1 h
  exact transGen_of_names_forward (nodup_names_collect hcollect) hij hle

/-- **The emitted module can be loaded.** Whenever a document compiles, the constants stand one
below the other behind the preamble, each built at once or on first use. One that is built at once
names only declarations with an earlier line; one that is built on first use lies on a cycle of
references. A declaration on no cycle is thus built at once, after everything it names. -/
theorem constants_initialized_in_order (hc : compile settings document = .ok c)
    (preamble : String) (i : Fin c.declarations.length) :
    ((c.toModule preamble).EagerAt (i + 1) (c.declarations.get i) ∨
        (c.toModule preamble).LazyAt (i + 1) (c.declarations.get i)) ∧
      ((c.toModule preamble).EagerAt (i + 1) (c.declarations.get i) →
        ∀ name ∈ (c.declarations.get i).type.names, ∃ j < i, Denotes c.declarations name j) ∧
      ((c.toModule preamble).LazyAt (i + 1) (c.declarations.get i) →
        TransGen (Names c.declarations) i i) ∧
      (¬TransGen (Names c.declarations) i i →
        (c.toModule preamble).EagerAt (i + 1) (c.declarations.get i) ∧
          ∀ j, Names c.declarations i j → j < i) := by
  have hform : (c.toModule preamble).EagerAt (i + 1) (c.declarations.get i) ∨
      (c.toModule preamble).LazyAt (i + 1) (c.declarations.get i) := by
    by_cases hdeferred : (bindingAt c i).deferred = true
    · exact .inr (lazyAt_of_deferred hdeferred)
    · exact .inl (eagerAt_of_not_deferred hdeferred)
  refine ⟨hform, fun heager name hname ↦ ?_, transGen_of_lazyAt hc, fun hcycle ↦ ?_⟩
  · obtain ⟨j, hj⟩ := exists_denotes_of_compile hc (c.declarations.get_mem i) hname
    exact ⟨j, eagerAt_iff.1 heager j ⟨name, hname, hj⟩, hj⟩
  · have heager := hform.resolve_right fun hlazy ↦ hcycle (transGen_of_lazyAt hc hlazy)
    exact ⟨heager, eagerAt_iff.1 heager⟩

/-- `Tree` names itself, so it waits for its first use; what comes behind it finds it there. -/
theorem treeCompilation_initialized_in_order :
    TransGen (Names treeCompilation.declarations) ⟨1, by decide⟩ ⟨1, by decide⟩ ∧
      ∃ j < (⟨2, by decide⟩ : Fin treeCompilation.declarations.length),
        Denotes treeCompilation.declarations "Tree" j := by
  obtain ⟨-, -, hlazy, -⟩ :=
    constants_initialized_in_order compile_treeDocument "" ⟨1, by decide⟩
  obtain ⟨-, heager, -⟩ :=
    constants_initialized_in_order compile_treeDocument "" ⟨2, by decide⟩
  exact ⟨hlazy rfl, heager rfl "Tree" (by decide)⟩

end SchemaCodec
