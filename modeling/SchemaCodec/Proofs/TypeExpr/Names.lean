import SchemaCodec.TypeExpr.Basic

/-!
# The names in a type

A type is built from the types of its arms and fields, and its names are theirs. Both are stated
here with arms and fields as members of lists, for proofs that follow the structure of a type
(`TypeExpr.inductionOn`).
-/

namespace SchemaCodec.TypeExpr

/-- Structural induction, with the arms and fields of a type as members of lists. -/
@[elab_as_elim]
theorem inductionOn {motive : TypeExpr → Prop} (null : motive .null)
    (boolean : motive .boolean) (number : motive .number) (string : motive .string)
    (named : ∀ name, motive (.named name)) (literal : ∀ value, motive (.literal value))
    (array : ∀ item, motive item → motive (.array item))
    (record : ∀ values, motive values → motive (.record values))
    (interface : ∀ fields : List (Field TypeExpr), (∀ f ∈ fields, motive f.type) →
      motive (.interface fields))
    (union : ∀ arms : List TypeExpr, (∀ arm ∈ arms, motive arm) → motive (.union arms))
    (intersection : ∀ arms : List TypeExpr, (∀ arm ∈ arms, motive arm) →
      motive (.intersection arms)) (t : TypeExpr) : motive t :=
  @TypeExpr.rec motive (fun fields ↦ ∀ f ∈ fields, motive f.type)
    (fun arms ↦ ∀ arm ∈ arms, motive arm) (fun f ↦ motive f.type)
    null boolean number string named literal array record interface union intersection
    (fun _ h ↦ absurd h List.not_mem_nil)
    (fun _ _ hf hfields ↦ List.forall_mem_cons.2 ⟨hf, hfields⟩)
    (fun _ h ↦ absurd h List.not_mem_nil)
    (fun _ _ harm harms ↦ List.forall_mem_cons.2 ⟨harm, harms⟩)
    (fun _ _ _ h ↦ h) t

/-- The names of arms are the names of each. -/
theorem mem_namesList_iff {arms : List TypeExpr} {name : String} :
    name ∈ namesList arms ↔ ∃ t ∈ arms, name ∈ t.names := by
  induction arms with
  | nil => simp [namesList]
  | cons t arms ih => simp [namesList, ih]

/-- The names of fields are the names of their types. -/
theorem mem_namesFields_iff {fields : List (Field TypeExpr)} {name : String} :
    name ∈ namesFields fields ↔ ∃ f ∈ fields, name ∈ f.type.names := by
  induction fields with
  | nil => simp [namesFields]
  | cons f fields ih => simp [namesFields, ih]

end SchemaCodec.TypeExpr
