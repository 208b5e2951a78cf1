import Mathlib.Data.List.Basic
import SchemaCodec.Files.Tree
import SchemaCodec.Proofs.Entries

/-!
# The contents of a tree

The files of a tree are seen through `content?`: names lead to the content of a file, or to nothing.
Putting something at a place where no directory stands changes what is seen there
(`at?_insert_concat`) and nowhere else (`content?_insert_of_ne`), since what lies below such a place
is nothing before and afterwards. Directories stay directories (`exists_directory_insert`).
-/

namespace SchemaCodec.FileTree

variable {tree tree' new : FileTree} {names other : List String}

/-! ### Files -/

/-- The content of the file that names lead to. -/
def content? (tree : FileTree) (names : List String) : Option ByteArray :=
  match tree.at? names with
  | some (.file bytes) => some bytes
  | _ => none

/-- No directory stands where names lead to. -/
def NoDirectoryAt (tree : FileTree) (names : List String) : Prop :=
  ∀ entries, tree.at? names ≠ some (.directory entries)

/-- A way in two parts is followed part by part. -/
theorem at?_append (names rest : List String) :
    tree.at? (names ++ rest) = (tree.at? names).bind (·.at? rest) := by
  induction names generalizing tree with
  | nil => simp [at?]
  | cons name names ih =>
    cases tree with
    | file bytes => rfl
    | directory entries =>
      rw [List.cons_append, at?, at?]
      cases Entries.get? name entries with
      | none => rfl
      | some below => exact ih

theorem at?_directory_cons (entries : List (String × FileTree)) (name : String)
    (rest : List String) :
    (directory entries).at? (name :: rest) = (Entries.get? name entries).bind (·.at? rest) := by
  rw [at?]
  cases Entries.get? name entries <;> rfl

theorem content?_congr (h : tree.at? names = tree'.at? other) :
    tree.content? names = tree'.content? other := by
  rw [content?, content?, h]

/-- An empty directory holds no file. -/
theorem content?_directory_nil (names : List String) : (directory []).content? names = none := by
  cases names <;> rfl

/-! ### Putting something into a tree -/

/-- Names that go the same way as an insertion find the rest of it there. -/
theorem at?_insert_cons (entries : List (String × FileTree)) (name : String)
    (rest other : List String) :
    (insert new (.directory entries) (name :: rest)).at? (name :: other) =
      (insert new ((Entries.get? name entries).getD (.directory [])) rest).at? other := by
  rw [insert, at?, Entries.get?_insert, if_pos rfl]

/-- Inserting below one entry leaves the others. -/
theorem at?_insert_cons_of_ne {entries : List (String × FileTree)} {name name' : String}
    (h : name ≠ name') (rest other : List String) :
    (insert new (.directory entries) (name :: rest)).at? (name' :: other) =
      (directory entries).at? (name' :: other) := by
  rw [insert, at?, Entries.get?_insert, if_neg h, at?]

/-- What is put into a directory that exists stands there. -/
theorem at?_insert_concat {entries : List (String × FileTree)} {last : String}
    (h : tree.at? names = some (.directory entries)) :
    (insert new tree (names ++ [last])).at? (names ++ [last]) = some new := by
  induction names generalizing tree with
  | nil =>
    obtain rfl := Option.some_inj.1 h
    rw [List.nil_append, at?_insert_cons]
    rfl
  | cons name names ih =>
    cases tree with
    | file bytes => exact absurd h (by simp [at?])
    | directory entries' =>
      rw [at?_directory_cons] at h
      obtain ⟨below, hbelow, hat⟩ := Option.bind_eq_some_iff.1 h
      rw [List.cons_append, at?_insert_cons, hbelow]
      exact ih hat

/-- **Nothing changes elsewhere.** Where no directory stands, something without files below it can
be put in without a change to any other file. -/
theorem content?_insert_of_ne (hspot : tree.NoDirectoryAt names)
    (hnew : ∀ name rest, new.content? (name :: rest) = none) (hne : other ≠ names) :
    (insert new tree names).content? other = tree.content? other := by
  induction names generalizing tree other with
  | nil =>
    obtain ⟨name, rest, rfl⟩ := List.exists_cons_of_ne_nil hne
    cases tree with
    | file bytes => exact hnew name rest
    | directory entries => exact absurd rfl (hspot entries)
  | cons name rest ih =>
    cases tree with
    | file bytes => rfl
    | directory entries =>
      cases other with
      | nil => rfl
      | cons name' other =>
        by_cases hname : name = name'
        · subst hname
          have hrest : other ≠ rest := fun h ↦ hne (h ▸ rfl)
          rw [content?_congr (at?_insert_cons entries name rest other)]
          rcases hget : Entries.get? name entries with - | below
          -- the way there is built anew, and leads to what is put in and to nothing else
          · have hnone : (directory entries).content? (name :: other) = none := by
              simp [content?, at?_directory_cons, hget]
            rw [hnone]
            cases rest with
            | nil =>
              obtain ⟨name', rest', rfl⟩ := List.exists_cons_of_ne_nil hrest
              exact hnew name' rest'
            | cons name' rest =>
              refine (ih (fun _ h ↦ ?_) hrest).trans ?_
              · exact absurd h (by simp [at?_directory_cons, Entries.get?])
              · cases other <;> simp [content?, at?, Entries.get?]
          · have hbelow : ∀ names, (directory entries).at? (name :: names) = below.at? names := by
              intro names
              rw [at?_directory_cons, hget]
              rfl
            rw [content?_congr (hbelow other)]
            exact ih (fun entries' h ↦ hspot entries' ((hbelow rest).trans h)) hrest
        · exact content?_congr (at?_insert_cons_of_ne hname rest other)

/-- Where no directory stands, something can be put in without a change to any directory. -/
theorem exists_directory_insert {entries : List (String × FileTree)}
    (hspot : tree.NoDirectoryAt names) (h : tree.at? other = some (.directory entries)) :
    ∃ entries', (insert new tree names).at? other = some (.directory entries') := by
  induction names generalizing tree other with
  | nil =>
    cases tree with
    | file bytes => cases other <;> simp [at?] at h
    | directory entries => exact absurd rfl (hspot entries)
  | cons name rest ih =>
    cases tree with
    | file bytes => exact ⟨entries, h⟩
    | directory entries' =>
      cases other with
      | nil => exact ⟨_, rfl⟩
      | cons name' other =>
        by_cases hname : name = name'
        · subst hname
          rw [at?_directory_cons] at h
          obtain ⟨below, hbelow, hat⟩ := Option.bind_eq_some_iff.1 h
          rw [at?_insert_cons, hbelow]
          refine ih (fun entries'' hdir ↦ hspot entries'' ?_) hat
          rw [at?_directory_cons, hbelow]
          exact hdir
        · exact ⟨entries, (at?_insert_cons_of_ne hname rest other).trans h⟩

end SchemaCodec.FileTree
