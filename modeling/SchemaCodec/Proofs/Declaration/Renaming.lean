import SchemaCodec.Proofs.Acceptance.Guard
import SchemaCodec.Proofs.TypeExpr.Names
import SchemaCodec.Proofs.Dependency.Relabelling
import SchemaCodec.Proofs.Module.Initialization

/-!
# Renaming declarations

A name matters only by what it is equal to. Replace every name of a list of declarations, both where
it is declared and where it is mentioned, in such a way that different names stay different: then
each name denotes the declaration it did before (`denotes_rename_iff`), and declarations name each
other as before (`names_rename_iff`). So they are sorted alike (`sort_rename`), the same ones are
deferred (`ofDeclarations_rename`), and every name accepts what its old name did (`check?_rename`).

Names may be repeated, and names that nothing declares are renamed too. The payloads of literals and
the names of fields stay as they are.
-/

namespace SchemaCodec

variable {r : String → String}

namespace TypeExpr

mutual

/-- A type under other names. -/
def rename (r : String → String) : TypeExpr → TypeExpr
  | .null => .null
  | .boolean => .boolean
  | .number => .number
  | .string => .string
  | .named name => .named (r name)
  | .literal value => .literal value
  | .array item => .array (item.rename r)
  | .record values => .record (values.rename r)
  | .interface fields => .interface (renameFields r fields)
  | .union arms => .union (renameList r arms)
  | .intersection arms => .intersection (renameList r arms)

/-- A list of types under other names. -/
def renameList (r : String → String) : List TypeExpr → List TypeExpr
  | [] => []
  | t :: rest => t.rename r :: renameList r rest

/-- Fields under other names of their types. -/
def renameFields (r : String → String) : List (Field TypeExpr) → List (Field TypeExpr)
  | [] => []
  | ⟨name, t, optional⟩ :: rest => ⟨name, t.rename r, optional⟩ :: renameFields r rest

end

theorem renameList_eq_map (arms : List TypeExpr) : renameList r arms = arms.map (rename r) := by
  induction arms with
  | nil => rfl
  | cons t arms ih => rw [renameList, ih, List.map_cons]

theorem renameFields_eq_map (fields : List (Field TypeExpr)) :
    renameFields r fields = fields.map fun f ↦ ⟨f.name, f.type.rename r, f.optional⟩ := by
  induction fields with
  | nil => rfl
  | cons f fields ih => rw [renameFields, ih, List.map_cons]

mutual

/-- The names in a type are renamed one by one. -/
theorem names_rename (r : String → String) : ∀ t : TypeExpr, (t.rename r).names = t.names.map r
  | .null => rfl
  | .boolean => rfl
  | .number => rfl
  | .string => rfl
  | .named _ => rfl
  | .literal _ => rfl
  | .array item => names_rename r item
  | .record values => names_rename r values
  | .interface fields => namesFields_renameFields r fields
  | .union arms => namesList_renameList r arms
  | .intersection arms => namesList_renameList r arms

theorem namesList_renameList (r : String → String) :
    ∀ arms : List TypeExpr, namesList (renameList r arms) = (namesList arms).map r
  | [] => rfl
  | t :: rest => by
    rw [renameList, namesList, namesList, List.map_append, names_rename, namesList_renameList]

theorem namesFields_renameFields (r : String → String) :
    ∀ fields : List (Field TypeExpr), namesFields (renameFields r fields) = (namesFields fields).map r
  | [] => rfl
  | ⟨_, t, _⟩ :: rest => by
    rw [renameFields, namesFields, namesFields, List.map_append, names_rename,
      namesFields_renameFields]

end

end TypeExpr

/-- A binding under other names; whether it is deferred does not change. -/
def Binding.rename (r : String → String) (b : Binding) : Binding :=
  ⟨r b.name, b.type.rename r, b.deferred⟩

namespace Declaration

variable {ds : List Declaration} {name : String}

/-- A declaration under other names. -/
def rename (r : String → String) (d : Declaration) : Declaration :=
  ⟨r d.name, d.type.rename r⟩

/-- The name is declared or mentioned. -/
def Occurs (ds : List Declaration) (name : String) : Prop :=
  ∃ d ∈ ds, name = d.name ∨ name ∈ d.type.names

/-- Sorting neither adds nor drops names. -/
theorem occurs_sort_iff : Occurs (sort ds) name ↔ Occurs ds name := by
  simp only [Occurs, (sort_perm ds).mem_iff]

theorem occurs_of_mem_names {i : Fin ds.length} (h : name ∈ (ds.get i).type.names) :
    Occurs ds name :=
  ⟨ds.get i, ds.get_mem i, .inr h⟩

theorem Denotes.occurs {i : Fin ds.length} (h : Denotes ds name i) : Occurs ds name :=
  ⟨ds.get i, ds.get_mem i, .inl h.name_eq.symm⟩

/-- The position of a renamed declaration before it was renamed. -/
def unrenamed (i : Fin (ds.map (rename r)).length) : Fin ds.length :=
  i.cast (List.length_map _)

theorem get_map_rename (i : Fin (ds.map (rename r)).length) :
    (ds.map (rename r)).get i = (ds.get (unrenamed i)).rename r :=
  List.getElem_map _

/-! ### What names denote -/

/-- Renaming keeps what a name denotes, if the name is not confused with a declared one. -/
theorem denotes_rename_iff (hname : ∀ d ∈ ds, r d.name = r name → d.name = name)
    {i : Fin (ds.map (rename r)).length} :
    Denotes (ds.map (rename r)) (r name) i ↔ Denotes ds name (unrenamed i) := by
  have hiff (k : Fin (ds.map (rename r)).length) :
      ((ds.map (rename r)).get k).name = r name ↔ (ds.get (unrenamed k)).name = name := by
    rw [get_map_rename]
    exact ⟨hname _ (ds.get_mem _), congrArg r⟩
  constructor
  · intro h
    refine ⟨(hiff i).1 h.name_eq, fun j hij hj ↦ ?_⟩
    exact h.last (j.cast (List.length_map _).symm) hij ((hiff _).2 hj)
  · intro h
    exact ⟨(hiff i).2 h.name_eq, fun j hij hj ↦ h.last (unrenamed j) hij ((hiff j).1 hj)⟩

variable (hr : Set.InjOn r {name | Occurs ds name})

include hr

/-- A renaming that is injective on the occurring names confuses none of them. -/
theorem Occurs.eq_of_rename_eq (hname : Occurs ds name) :
    ∀ d ∈ ds, r d.name = r name → d.name = name :=
  fun d hd heq ↦ hr ⟨d, hd, .inl rfl⟩ hname heq

/-- After renaming, the same declarations name each other. -/
theorem names_rename_iff {i j : Fin (ds.map (rename r)).length} :
    Names (ds.map (rename r)) i j ↔ Names ds (unrenamed i) (unrenamed j) := by
  rw [Names, get_map_rename, rename, TypeExpr.names_rename]
  constructor
  · rintro ⟨_, hmem, hj⟩
    obtain ⟨name, hname, rfl⟩ := List.mem_map.1 hmem
    exact ⟨name, hname,
      (denotes_rename_iff ((occurs_of_mem_names hname).eq_of_rename_eq hr)).1 hj⟩
  · rintro ⟨name, hname, hj⟩
    exact ⟨r name, List.mem_map_of_mem hname,
      (denotes_rename_iff ((occurs_of_mem_names hname).eq_of_rename_eq hr)).2 hj⟩

/-! ### The order and the bindings -/

/-- The renamed dependency graph is a copy of the graph. -/
theorem isCopy_unrenamed : IsCopy unrenamed (Names (ds.map (rename r))) (Names ds) where
  injective := Fin.cast_injective (List.length_map _)
  step_iff _ _ := names_rename_iff hr
  closed _ k _ := ⟨k.cast (List.length_map _).symm, rfl⟩

/-- Sorting commutes with renaming: only the graph counts, not the names on it. -/
theorem sort_rename : sort (ds.map (rename r)) = (sort ds).map (rename r) := by
  have hread : Schedule (Names ds) []
      (((graph ds).order.map (Fin.cast (List.length_map (rename r)).symm)).map unrenamed) := by
    rw [List.map_map]
    exact (List.map_id _).symm ▸ schedule_order_graph ds
  have hschedule : Schedule (Names (ds.map (rename r))) []
      ((graph ds).order.map (Fin.cast (List.length_map (rename r)).symm)) :=
    (isCopy_unrenamed hr).schedule hread (by simp) (List.pairwise_of_forall fun _ _ hle ↦ hle)
  rw [sort, ← hschedule.unique (schedule_order_graph _), sort, List.map_map, List.map_map]
  exact List.map_congr_left fun k _ ↦ get_map_rename _

/-- Renaming keeps which declarations refer forward. -/
theorem refersForward_rename (i : Fin (ds.map (rename r)).length) :
    Binding.refersForward (ds.map (rename r)) i ((ds.map (rename r)).get i).type =
      Binding.refersForward ds i (ds.get (unrenamed i)).type := by
  have hold : Binding.refersForward ds i (ds.get (unrenamed i)).type = true ↔
      ∃ j, Names ds (unrenamed i) j ∧ unrenamed i ≤ j :=
    Binding.refersForward_iff
  rw [Bool.eq_iff_iff, Binding.refersForward_iff, hold]
  constructor
  · rintro ⟨j, hij, hle⟩
    exact ⟨unrenamed j, (names_rename_iff hr).1 hij, hle⟩
  · rintro ⟨j, hij, hle⟩
    exact ⟨j.cast (List.length_map _).symm, (names_rename_iff hr).2 hij, hle⟩

/-- The same declarations are deferred. -/
theorem ofDeclarations_rename :
    Binding.ofDeclarations (ds.map (rename r)) =
      (Binding.ofDeclarations ds).map (Binding.rename r) := by
  refine List.ext_getElem (by simp [Binding.ofDeclarations]) fun k hk hk' ↦ ?_
  have hlt : k < (ds.map (rename r)).length := by simpa [Binding.ofDeclarations] using hk
  have hforward := refersForward_rename hr ⟨k, hlt⟩
  rw [get_map_rename] at hforward
  simp only [Binding.ofDeclarations, List.getElem_mapIdx, List.getElem_map, Binding.rename, rename]
  exact congrArg (Binding.mk _ _) hforward

/-! ### Acceptance -/

/-- One step of the test after another: a renamed name is in the renamed guard exactly when the name
is in the guard, and what is entered is the renamed declaration. -/
theorem accepts_rename_iff {guard : List String} {t : TypeExpr} {v : Json}
    (hguard : ∀ name ∈ guard, Occurs ds name) (ht : ∀ name ∈ t.names, Occurs ds name) :
    accepts (ds.map (rename r)) (guard.map r) (t.rename r) v = true ↔
      accepts ds guard t v = true := by
  induction guard, t, v using accepts_induction ds with
  | null guard v => rw [TypeExpr.rename, accepts_null_iff, accepts_null_iff]
  | boolean guard v => rw [TypeExpr.rename, accepts_boolean_iff, accepts_boolean_iff]
  | number guard v => rw [TypeExpr.rename, accepts_number_iff, accepts_number_iff]
  | string guard v => rw [TypeExpr.rename, accepts_string_iff, accepts_string_iff]
  | literal guard wanted v => rw [TypeExpr.rename, accepts_literal_iff, accepts_literal_iff]
  | named guard name v ih =>
    have hname : Occurs ds name := ht name (List.mem_singleton_self name)
    have hmem : r name ∈ guard.map r ↔ name ∈ guard := by
      refine ⟨fun h ↦ ?_, List.mem_map_of_mem⟩
      obtain ⟨other, hother, heq⟩ := List.mem_map.1 h
      rwa [← hr (hguard other hother) hname heq]
    have hguard' : ∀ other ∈ name :: guard, Occurs ds other :=
      List.forall_mem_cons.2 ⟨hname, hguard⟩
    rw [TypeExpr.rename, accepts_named_iff, accepts_named_iff, hmem]
    refine and_congr_right fun hg ↦ ?_
    constructor
    · rintro ⟨i, hi, hv⟩
      rw [denotes_rename_iff (hname.eq_of_rename_eq hr)] at hi
      rw [get_map_rename] at hv
      exact ⟨unrenamed i, hi, (ih _ hi hg hguard' fun _ ↦ occurs_of_mem_names).1 hv⟩
    · rintro ⟨i, hi, hv⟩
      refine ⟨i.cast (List.length_map _).symm,
        (denotes_rename_iff (hname.eq_of_rename_eq hr)).2 hi, ?_⟩
      rw [get_map_rename]
      exact (ih i hi hg hguard' fun _ ↦ occurs_of_mem_names).2 hv
  -- parts of the value start with an empty guard
  | array guard item v ih =>
    rw [TypeExpr.rename, accepts_array_iff, accepts_array_iff]
    refine exists_congr fun items ↦ and_congr_right fun hv ↦ forall₂_congr fun x hx ↦ ?_
    exact ih items hv x hx (List.forall_mem_nil _) ht
  | record guard values v ih =>
    rw [TypeExpr.rename, accepts_record_iff, accepts_record_iff]
    refine exists_congr fun fields ↦ and_congr_right fun hv ↦ forall₂_congr fun p hp ↦ ?_
    exact ih fields hv p hp (List.forall_mem_nil _) ht
  | interface guard members v ih =>
    rw [TypeExpr.rename, TypeExpr.renameFields_eq_map, accepts_interface_iff, accepts_interface_iff]
    simp only [List.forall_mem_map]
    refine exists_congr fun fields ↦ and_congr_right fun hv ↦ and_congr_left fun _ ↦
      forall₂_congr fun m hm ↦ forall₂_congr fun x hx ↦ ?_
    exact ih fields hv m hm x hx (List.forall_mem_nil _) fun other hother ↦
      ht other (TypeExpr.mem_namesFields_iff.2 ⟨m, hm, hother⟩)
  | union guard arms v ih =>
    rw [TypeExpr.rename, TypeExpr.renameList_eq_map, accepts_union_iff, accepts_union_iff]
    simp only [List.mem_map, exists_exists_and_eq_and]
    refine exists_congr fun arm ↦ and_congr_right fun harm ↦ ?_
    exact ih arm harm hguard fun other hother ↦
      ht other (TypeExpr.mem_namesList_iff.2 ⟨arm, harm, hother⟩)
  | intersection guard arms v ih =>
    rw [TypeExpr.rename, TypeExpr.renameList_eq_map, accepts_intersection_iff,
      accepts_intersection_iff, List.forall_mem_map]
    refine forall₂_congr fun arm harm ↦ ?_
    exact ih arm harm hguard fun other hother ↦
      ht other (TypeExpr.mem_namesList_iff.2 ⟨arm, harm, hother⟩)

/-- A name that occurs, or whose new name no declaration gets, accepts what its new name does. -/
theorem check?_rename (hname : Occurs ds name ∨ ∀ d ∈ ds, r d.name ≠ r name) (v : Json) :
    check? (ds.map (rename r)) (r name) v = check? ds name v := by
  have hkept : ∀ d ∈ ds, r d.name = r name → d.name = name :=
    hname.elim (·.eq_of_rename_eq hr) fun hnone d hd heq ↦ absurd heq (hnone d hd)
  by_cases hdeclared : ∃ i, Denotes ds name i
  · obtain ⟨i, hi⟩ := hdeclared
    have hi' : Denotes (ds.map (rename r)) (r name) (i.cast (List.length_map _).symm) :=
      (denotes_rename_iff hkept).2 hi
    have hnames : ∀ other ∈ (TypeExpr.named name).names, Occurs ds other :=
      List.forall_mem_singleton.2 hi.occurs
    rw [check?_eq_some_accepts hi, check?_eq_some_accepts hi', Option.some_inj, Bool.eq_iff_iff]
    exact accepts_rename_iff hr (List.forall_mem_nil _) hnames
  · have hnone : ∀ d ∈ ds, d.name ≠ name := by
      rintro d hd rfl
      exact hdeclared (exists_denotes_of_mem hd)
    rw [check?_eq_none_iff.2 hnone, check?_eq_none_iff, List.forall_mem_map]
    exact fun d hd heq ↦ hnone d hd (hkept d hd heq)

omit hr

/-- **Only the equality of names matters.** Under a renaming that keeps apart all names declared or
mentioned, the declarations are sorted into the same order and the same ones of them are deferred. A
name accepts under its new name what it accepted before, if it occurs at all; if it does not, both
are unknown, unless some declaration happens to get its new name. -/
theorem sort_bindings_check?_rename (r : String → String) (ds : List Declaration)
    (hr : Set.InjOn r {name | Occurs ds name}) :
    sort (ds.map (rename r)) = (sort ds).map (rename r) ∧
      Binding.ofDeclarations (sort (ds.map (rename r))) =
        (Binding.ofDeclarations (sort ds)).map (Binding.rename r) ∧
      ∀ name, (Occurs ds name ∨ ∀ d ∈ ds, r d.name ≠ r name) →
        ∀ v, check? (ds.map (rename r)) (r name) v = check? ds name v := by
  have hsorted : Set.InjOn r {name | Occurs (sort ds) name} := by
    simpa only [occurs_sort_iff] using hr
  refine ⟨sort_rename hr, ?_, fun name hname v ↦ check?_rename hr hname v⟩
  rw [sort_rename hr, ofDeclarations_rename hsorted]

/-- `A` is declared twice, and its last declaration is on a cycle with `B`. It is also the payload
of a literal and the name of a field, which are not renamed. -/
def shadowed : List Declaration :=
  [⟨"Uses", .named "A"⟩, ⟨"A", .null⟩, ⟨"A", .union [.named "B", .literal (.string "A")]⟩,
    ⟨"B", .interface [⟨"A", .named "A", true⟩]⟩]

theorem check?_shadowed : check? shadowed "A" (.string "A") = some true := by
  have hlast : Denotes shadowed "A" ⟨2, by decide⟩ := position?_eq_some_iff.1 rfl
  have hliteral : Accepts shadowed (.literal (.string "A")) (.string "A") :=
    .literal (Json.isMatch_iff_matches.1 rfl)
  have hunion : Accepts shadowed (.union [.named "B", .literal (.string "A")]) (.string "A") :=
    .union (by simp) hliteral
  exact check?_eq_some_iff.2 ⟨_, hlast, iff_of_true rfl hunion⟩

/-- With `A` and `B` exchanged, the names come in the opposite order of the alphabet, but the
declarations come in the same. -/
theorem sort_bindings_check?_swap_shadowed :
    Set.InjOn (Equiv.swap "A" "B") {name | Occurs shadowed name} ∧
      sort (shadowed.map (rename (Equiv.swap "A" "B"))) =
        (sort shadowed).map (rename (Equiv.swap "A" "B")) ∧
      (Binding.ofDeclarations (sort (shadowed.map (rename (Equiv.swap "A" "B"))))).map
          Binding.deferred = (Binding.ofDeclarations (sort shadowed)).map Binding.deferred ∧
      check? (shadowed.map (rename (Equiv.swap "A" "B"))) "B" (.string "A") = some true := by
  have hinj : Set.InjOn (Equiv.swap "A" "B") {name | Occurs shadowed name} :=
    (Equiv.swap "A" "B").injective.injOn
  obtain ⟨hsort, hbindings, hcheck⟩ := sort_bindings_check?_rename (Equiv.swap "A" "B") shadowed hinj
  refine ⟨hinj, hsort, ?_, ?_⟩
  · rw [hbindings, List.map_map]
    rfl
  · have hname : Occurs shadowed "A" := ⟨⟨"A", .null⟩, by simp [shadowed], .inl rfl⟩
    rw [← check?_shadowed, ← hcheck "A" (.inl hname) (.string "A"), Equiv.swap_apply_left]

end Declaration

end SchemaCodec
