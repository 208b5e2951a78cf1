import SchemaCodec.Proofs.Declaration.Denotation
import SchemaCodec.Proofs.Dependency.Progress
import SchemaCodec.Proofs.Lists

/-!
# Sorting declarations

`Names ds i j` says that the type of the declaration at `i` mentions a name that denotes the
declaration at `j`. The dependency graph is this relation without its diagonal
(`edge_graph_iff`), so sorting emits declarations by the rule of `Schedule` for `Names`: the
counters, the queue and the search for cycles leave no trace in the result. What a declaration names
comes before it, unless the declaration lies on a cycle (`transGen_of_names_forward`).
-/

namespace SchemaCodec

namespace Declaration

open Relation

variable {ds : List Declaration} {i j : Fin ds.length}

/-- The declaration at `i` names the one at `j`. -/
def Names (ds : List Declaration) (i j : Fin ds.length) : Prop :=
  ∃ name ∈ (ds.get i).type.names, Denotes ds name j

theorem mem_references_iff {t : TypeExpr} {name : String} :
    name ∈ t.references ↔ name ∈ t.names :=
  List.mem_eraseDups

/-- A declaration depends on the others that it names. -/
theorem mem_dependencies_iff : j ∈ dependencies ds i ↔ Names ds i j ∧ j ≠ i := by
  simp only [dependencies, List.mem_filter, List.mem_filterMap, mem_references_iff,
    position?_eq_some_iff, bne_iff_ne]
  rfl

theorem dependencies_graph : (graph ds).dependencies i = dependencies ds i := by
  show (Vector.ofFn (dependencies ds))[i.val] = _
  rw [Vector.getElem_ofFn]

/-- The dependency graph has the named declarations as edges, loops apart. -/
theorem edge_graph_iff : (graph ds).Edge i j ↔ Names ds i j ∧ j ≠ i := by
  rw [Graph.Edge, dependencies_graph, mem_dependencies_iff]

/-- References are listed once each, and different names denote different declarations. -/
theorem nodup_dependencies (ds : List Declaration) (i : Fin ds.length) :
    (dependencies ds i).Nodup := by
  refine List.Nodup.filter _ (List.Nodup.filterMap ?_ (nodup_eraseDups _))
  intro a b k ha hb
  rw [← (denotes_of_position?_eq_some ha).name_eq, (denotes_of_position?_eq_some hb).name_eq]

/-- Dependencies are listed once and never include the node itself. -/
theorem simple_graph (ds : List Declaration) : (graph ds).Simple where
  nodup i := by
    rw [dependencies_graph]
    exact nodup_dependencies ds i
  irrefl i h := by
    rw [dependencies_graph, mem_dependencies_iff] at h
    exact h.2 rfl

/-- The computed order is a schedule for the relation of naming. -/
theorem schedule_order_graph (ds : List Declaration) : Schedule (Names ds) [] (graph ds).order := by
  refine (Progress.schedule_order (simple_graph ds)).congr fun i j hne ↦ ?_
  rw [edge_graph_iff]
  exact and_iff_left hne

/-- Sorting loses nothing and repeats nothing. -/
theorem sort_perm (ds : List Declaration) : (sort ds).Perm ds := by
  have hperm := (schedule_order_graph ds).perm_finRange.map ds.get
  rwa [List.map_get_finRange] at hperm

/-- Declarations that only name earlier ones, or themselves, stay where they are. -/
theorem sort_eq_self (h : ∀ i, ∀ j ∈ dependencies ds i, j < i) : sort ds = ds := by
  have hschedule : Schedule (Names ds) [] (List.finRange ds.length) :=
    Schedule.drop_finRange (fun i j hij hne ↦ h i j (mem_dependencies_iff.2 ⟨hij, hne⟩))
      (Nat.zero_le _) (by simp)
  rw [sort, ← hschedule.unique (schedule_order_graph ds), List.map_get_finRange]

/-- **Sorting is the schedule.** The sorted list is a permutation of the declarations, and its order
is the only one in which each declaration is the lowest remaining one whose other named declarations
are all emitted, or, where there is none, the lowest on a cycle of at least two remaining ones. -/
theorem sort_eq_schedule (ds : List Declaration) :
    (sort ds).Perm ds ∧
      ∃ order : List (Fin ds.length), sort ds = order.map ds.get ∧
        order.Perm (List.finRange ds.length) ∧
          ∀ other, Schedule (Names ds) [] other ↔ other = order := by
  have hschedule := schedule_order_graph ds
  refine ⟨sort_perm ds, (graph ds).order, rfl, hschedule.perm_finRange, fun other ↦ ?_⟩
  constructor
  · exact fun h ↦ h.unique hschedule
  · rintro rfl
    exact hschedule

/-! ### Where declarations go -/

theorem length_sort (ds : List Declaration) : (sort ds).length = (graph ds).order.length :=
  List.length_map _

/-- The position of a declaration after sorting. -/
def sortedPosition (ds : List Declaration) (k : Fin ds.length) : Fin (sort ds).length :=
  ⟨(graph ds).order.idxOf k, by
    rw [length_sort]
    exact List.idxOf_lt_length_of_mem ((schedule_order_graph ds).mem_iff.2 List.not_mem_nil)⟩

/-- A declaration is found at its sorted position. -/
theorem get_sortedPosition (k : Fin ds.length) : (sort ds).get (sortedPosition ds k) = ds.get k := by
  simp only [List.get_eq_getElem, sort, sortedPosition, List.getElem_map, List.getElem_idxOf]

/-- Every place of the sorted list is the place of a declaration. -/
theorem sortedPosition_surjective (ds : List Declaration) :
    Function.Surjective (sortedPosition ds) := by
  intro i
  have hlt : i.val < (graph ds).order.length := lt_of_lt_of_eq i.isLt (length_sort ds)
  refine ⟨(graph ds).order[i.val], Fin.ext ?_⟩
  exact (schedule_order_graph ds).nodup.idxOf_getElem i.val hlt

/-- Sorting keeps which declarations name each other, if names are distinct. -/
theorem names_sortedPosition_iff (hnd : (ds.map Declaration.name).Nodup) :
    Names (sort ds) (sortedPosition ds i) (sortedPosition ds j) ↔ Names ds i j := by
  have hnd' : ((sort ds).map Declaration.name).Nodup := ((sort_perm ds).map _).nodup_iff.2 hnd
  simp only [Names, denotes_iff_of_nodup hnd, denotes_iff_of_nodup hnd', get_sortedPosition]

/-- **Sorting only breaks cycles.** After sorting, a declaration that names itself or a later one
lies on a cycle. -/
theorem transGen_of_names_forward (hnd : (ds.map Declaration.name).Nodup)
    {i j : Fin (sort ds).length} (hij : Names (sort ds) i j) (hle : i ≤ j) :
    TransGen (Names (sort ds)) i i := by
  rcases hle.eq_or_lt with rfl | hlt
  · exact .single hij
  · obtain ⟨k, rfl⟩ := sortedPosition_surjective ds i
    obtain ⟨l, rfl⟩ := sortedPosition_surjective ds j
    have hcycle := (schedule_order_graph ds).transGen_of_idxOf_lt
      ((names_sortedPosition_iff hnd).1 hij) hlt
    exact hcycle.lift (sortedPosition ds) fun _ _ h ↦ (names_sortedPosition_iff hnd).2 h

end Declaration

end SchemaCodec
