import SchemaCodec.Entries
import SchemaCodec.Files.Path

/-!
# File trees

A tree is a file or a directory with its entries.
-/

namespace SchemaCodec

/-- A file, or a directory with its entries. -/
inductive FileTree where
  | file (bytes : ByteArray)
  | directory (entries : List (String × FileTree))

namespace FileTree

instance : Inhabited FileTree :=
  ⟨.directory []⟩

/-- What stands where names lead to. -/
def at? : FileTree → List String → Option FileTree
  | tree, [] => some tree
  | .file _, _ :: _ => none
  | .directory entries, name :: rest =>
    match Entries.get? name entries with
    | none => none
    | some below => below.at? rest

/-- Puts a tree where names lead to, with the directories above it. Nothing can be put below a
file. -/
def insert (new : FileTree) : FileTree → List String → FileTree
  | _, [] => new
  | .file bytes, _ :: _ => .file bytes
  | .directory entries, name :: rest =>
    let old := (Entries.get? name entries).getD (.directory [])
    .directory (Entries.insert name (insert new old rest) entries)

/-- Adds a file or directory with the directories above it; a directory that exists stays. -/
def add (tree : FileTree) (path : String) (new : FileTree) : FileTree :=
  match new, tree.at? (Path.parts path) with
  | .directory _, some (.directory _) => tree
  | _, _ => insert new tree (Path.parts path)

mutual

/-- The files of a tree, with the names that lead to them; `above` holds those that lead to the
tree, the last one first. -/
def files (above : List String) : FileTree → List (List String × ByteArray)
  | .file bytes => [(above.reverse, bytes)]
  | .directory entries => filesBelow above entries

/-- The files below the entries of a directory. -/
def filesBelow (above : List String) : List (String × FileTree) → List (List String × ByteArray)
  | [] => []
  | (name, below) :: rest => below.files (name :: above) ++ filesBelow above rest

end

/-- The files that are new or have changed since `before`, with their contents. -/
def changedFiles (before after : FileTree) : List (String × ByteArray) :=
  (after.files []).filterMap fun p ↦
    match before.at? p.1 with
    | some (.file old) =>
      if old.data = p.2.data then none else some ("/".intercalate p.1, p.2)
    | _ => some ("/".intercalate p.1, p.2)

end FileTree

end SchemaCodec
