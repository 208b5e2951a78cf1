import SchemaCodec.Files.Access
import SchemaCodec.Files.Tree

/-!
# File systems in memory

All files stand in one tree, and a directory of it is the one that the program works in. A path that
starts with a slash leads down from the root of the tree, any other from the working directory. It
is followed step by step, and every step but the last has to lead to a directory; above the root is
the root itself.
-/

namespace SchemaCodec

/-- The files of a machine. -/
structure FileSystem where
  /-- Everything that there is. -/
  root : FileTree
  /-- The names that lead from the root to the working directory. -/
  workingDirectory : List String

/-- A place that a path leads to. -/
structure Place where
  /-- The names that lead to it, the last one first, each with the directory it was looked up in. -/
  trail : List (String × FileTree)
  /-- What stands there. -/
  here : Option FileTree

namespace Place

/-- The names that lead to a place from the root. -/
def names (place : Place) : List String :=
  (place.trail.map Prod.fst).reverse

/-- Takes one step down a path, from a directory. -/
def enter (place : Place) (part : String) : Except FileFault Place :=
  match place.here with
  | none => .error .notFound
  | some (.file _) => .error .notDirectory
  | some (.directory entries) =>
    if part = "." then .ok place
    else if 255 < part.utf8ByteSize then .error .nameTooLong
    else if part = ".." then
      match place.trail with
      | [] => .ok place
      | (_, parent) :: trail => .ok ⟨trail, some parent⟩
    else .ok ⟨(part, .directory entries) :: place.trail, Entries.get? part entries⟩

/-- Follows parts down from a place. -/
def follow (place : Place) (parts : List String) : Except FileFault Place :=
  parts.foldlM enter place

end Place

namespace FileSystem

/-- Follows a way down from where a path starts. -/
def follow (fs : FileSystem) (path : String) (way : List String) : Except FileFault Place :=
  Place.follow ⟨[], some fs.root⟩
    ((if Path.isAbsolute path then [] else fs.workingDirectory) ++ way)

/-- The place a path leads to; the way there has to exist, and a path that ends in a slash asks for
a directory. -/
def locate (fs : FileSystem) (path : String) : Except FileFault Place :=
  match FileFault.ofPath? path with
  | some fault => .error fault
  | none => fs.follow path (Path.steps path ++ if Path.endsInSlash path then ["."] else [])

/-- Whether a path leads to a directory. -/
def isDirectory (fs : FileSystem) (path : String) : Bool :=
  match fs.locate path with
  | .ok ⟨_, some (.directory _)⟩ => true
  | _ => false

/-- The text of a file. -/
def read (fs : FileSystem) (path : String) : Except FileFault String :=
  match fs.locate path with
  | .error e => .error e
  | .ok place =>
    match place.here with
    | none => .error .notFound
    | some (.directory _) => .error .isDirectory
    | some (.file bytes) =>
      match String.fromUTF8? bytes with
      | some text => .ok text
      | none => .error .notText

/-- The names of the entries of a directory. -/
def list (fs : FileSystem) (path : String) : Except FileFault (List String) :=
  match fs.locate path with
  | .error e => .error e
  | .ok place =>
    match place.here with
    | none => .error .notFound
    | some (.file _) => .error .notDirectory
    | some (.directory entries) => .ok (entries.map Prod.fst)

/-- The directory from which a path takes its last step, with that step. A path without steps stays
where it starts. -/
def split (fs : FileSystem) (path : String) : Except FileFault (Place × String) :=
  match FileFault.ofPath? path with
  | some fault => .error fault
  | none =>
    match fs.follow path ((Path.steps path).dropLast ++ ["."]) with
    | .error e => .error e
    | .ok place => .ok (place, (Path.steps path).getLastD ".")

/-- Puts a tree at a place. -/
def insert (fs : FileSystem) (place : Place) (new : FileTree) : FileSystem :=
  { fs with root := FileTree.insert new fs.root place.names }

/-- Creates a directory in one that exists. -/
def makeDirectory (fs : FileSystem) (path : String) : Except FileFault FileSystem :=
  match fs.split path with
  | .error e => .error e
  | .ok (place, last) =>
    match place.enter last with
    | .error e => .error e
    | .ok target =>
      match target.here with
      | none => .ok (fs.insert target (.directory []))
      | some _ => .error .alreadyExists

/-- Makes sure that a directory exists, creating up to `fuel` directories above it. -/
def createDirectories : Nat → FileSystem → String → Except FileFault FileSystem
  | 0, _, _ => .error .notFound
  | fuel + 1, fs, path =>
    if path.isEmpty then .ok fs
    else
      match fs.makeDirectory path with
      | .ok fs => .ok fs
      | .error .notFound =>
        match Path.parent? path with
        | none => .error .notFound
        | some above =>
          match createDirectories fuel fs above with
          | .error e => .error e
          | .ok fs =>
            match fs.makeDirectory path with
            | .ok fs => .ok fs
            | .error e => if fs.isDirectory path then .ok fs else .error e
      | .error e => if fs.isDirectory path then .ok fs else .error e

/-- Makes sure that a directory exists. -/
def createDirectory (fs : FileSystem) (path : String) : Except FileFault FileSystem :=
  createDirectories (path.toList.length + 1) fs path

/-- Replaces or creates a file in a directory that exists. -/
def write (fs : FileSystem) (path text : String) : Except FileFault FileSystem :=
  match fs.split path with
  | .error e => .error e
  | .ok (place, last) =>
    if Path.endsInSlash path then .error .isDirectory
    else
      match place.enter last with
      | .error e => .error e
      | .ok target =>
        match target.here with
        | some (.directory _) => .error .isDirectory
        | _ => .ok (fs.insert target (.file text.toUTF8))

/-- The operations on files in memory. -/
def access : FileAccess (StateM FileSystem) where
  read path := return (← StateT.get).read path
  list path := return (← StateT.get).list path
  createDirectory path := do
    match (← StateT.get).createDirectory path with
    | .ok fs => StateT.set fs; return .ok ()
    | .error e => return .error e
  write path text := do
    match (← StateT.get).write path text with
    | .ok fs => StateT.set fs; return .ok ()
    | .error e => return .error e

end FileSystem

end SchemaCodec
