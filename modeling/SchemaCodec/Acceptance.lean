import SchemaCodec.Declaration.Basic

/-!
# Acceptance of JSON values

`Declaration.check?` tells whether a JSON value is accepted by a declaration. A name that is entered
again on the same value, without having descended into a part of it, accepts nothing there: that is
what cuts cyclic declarations short. A part of the value starts afresh.
-/

namespace SchemaCodec

namespace Json

/-- Whether a scalar equals the wanted one; numbers are compared by value. -/
def Scalar.isMatch : Scalar → Scalar → Bool
  | .number m, .number n => m.sameValue n
  | a, b => decide (a = b)

mutual

/-- Whether a value matches the wanted one: arrays item by item, objects in the wanted fields, other
fields being ignored. -/
def isMatch : (wanted value : Json) → Bool
  | .scalar a, .scalar b => a.isMatch b
  | .array ws, .array vs => isMatchItems ws vs
  | .object ws, .object vs => isMatchFields ws vs
  | _, _ => false

/-- Whether arrays have the same length and match item by item. -/
def isMatchItems : List Json → List Json → Bool
  | [], [] => true
  | w :: ws, v :: vs => w.isMatch v && isMatchItems ws vs
  | _, _ => false

/-- Whether every wanted field is present and matches. -/
def isMatchFields : List (String × Json) → Entries String Json → Bool
  | [], _ => true
  | (key, w) :: ws, vs =>
    (match vs.get? key with
      | some v => w.isMatch v
      | none => false) && isMatchFields ws vs

end

end Json

namespace Declaration

/-- How many declarations have a name outside `guard`. -/
def unguarded (ds : List Declaration) (guard : List String) : Nat :=
  (ds.filter fun d ↦ !guard.contains d.name).length

theorem unguarded_cons_lt {ds : List Declaration} {guard : List String} {name : String}
    {t : TypeExpr} (h : typeOf? ds name = some t) (hg : name ∉ guard) :
    unguarded ds (name :: guard) < unguarded ds guard := by
  obtain ⟨d, hd, rfl⟩ := exists_mem_of_typeOf? h
  have hsub : ds.filter (fun e ↦ !(d.name :: guard).contains e.name) =
      (ds.filter fun e ↦ !guard.contains e.name).filter fun e ↦ e.name != d.name := by
    rw [List.filter_filter]
    refine List.filter_congr fun e _ ↦ ?_
    by_cases he : e.name = d.name <;> simp [he]
  unfold unguarded
  rw [hsub]
  refine List.length_filter_lt_length_iff_exists.2 ⟨d, ?_, by simp⟩
  simpa [hd] using hg

/-- Whether a value is accepted by a type. `guard` holds the names entered on this very value. -/
def accepts (ds : List Declaration) (guard : List String) (t : TypeExpr) (v : Json) : Bool :=
  match t with
  | .null => match v with
    | .scalar .null => true
    | _ => false
  | .boolean => match v with
    | .scalar (.bool _) => true
    | _ => false
  | .number => match v with
    | .scalar (.number _) => true
    | _ => false
  | .string => match v with
    | .scalar (.string _) => true
    | _ => false
  | .literal wanted => wanted.isMatch v
  | .named name =>
    match h : typeOf? ds name with
    | none => false
    | some t' =>
      if hg : name ∈ guard then false
      else
        have := unguarded_cons_lt h hg
        accepts ds (name :: guard) t' v
  | .array item => match v with
    | .array items => items.attach.all fun x ↦
      have := List.sizeOf_lt_of_mem x.2
      accepts ds [] item x.1
    | _ => false
  | .record values => match v with
    | .object fields => fields.attach.all fun p ↦
      have := Json.sizeOf_lt_of_mem_fields p.2
      accepts ds [] values p.1.2
    | _ => false
  | .interface members => match v with
    | .object fields => members.all fun m ↦
      match h : Entries.get? m.name fields with
      | some x =>
        have := Json.sizeOf_lt_of_get? h
        accepts ds [] m.type x
      | none => m.optional
    | _ => false
  | .union arms => arms.attach.any fun arm ↦
    have := List.sizeOf_lt_of_mem arm.2
    accepts ds guard arm.1 v
  | .intersection arms => arms.attach.all fun arm ↦
    have := List.sizeOf_lt_of_mem arm.2
    accepts ds guard arm.1 v
termination_by (sizeOf v, unguarded ds guard, sizeOf t)

/-- Whether the declaration with this name accepts a value; `none` if there is none. -/
def check? (ds : List Declaration) (name : String) (v : Json) : Option Bool :=
  (typeOf? ds name).map fun t ↦ accepts ds [name] t v

end Declaration

end SchemaCodec
