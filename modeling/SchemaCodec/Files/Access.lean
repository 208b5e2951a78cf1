/-!
# Access to files

What the program needs of a file system: to read a text, to list a directory, to create a directory
with those above it, and to write a text. The operations belong to a monad, so that the same program
runs on the files of the machine and on a tree in memory.
-/

namespace SchemaCodec

/-- Why an operation on files fails. -/
inductive FileFault where
  | notFound
  | alreadyExists
  | notDirectory
  | isDirectory
  /-- A name on the path, or the path itself, has too many bytes. -/
  | nameTooLong
  /-- The path holds the character that ends every path. -/
  | nulInPath
  /-- The content is not text. -/
  | notText
  /-- Any other failure of the machine, with its wording. -/
  | other (text : String)
deriving DecidableEq

/-- The wording of a failure. -/
def FileFault.message : FileFault → String
  | .notFound => "No such file or directory (os error 2)"
  | .alreadyExists => "File exists (os error 17)"
  | .notDirectory => "Not a directory (os error 20)"
  | .isDirectory => "Is a directory (os error 21)"
  | .nameTooLong => "File name too long (os error 36)"
  | .nulInPath => "file name contained an unexpected NUL byte"
  | .notText => "stream did not contain valid UTF-8"
  | .other text => text

/-- What is wrong with a path that no file can have, whatever files there are. -/
def FileFault.ofPath? (path : String) : Option FileFault :=
  if path.toList.contains '\x00' then some .nulInPath
  else if path.isEmpty then some .notFound
  else if 4096 ≤ path.utf8ByteSize then some .nameTooLong
  else none

/-- The operations of a file system. -/
structure FileAccess (m : Type → Type) where
  /-- The text of a file. -/
  read : (path : String) → m (Except FileFault String)
  /-- The names of the entries of a directory. -/
  list : (path : String) → m (Except FileFault (List String))
  /-- Makes sure that a directory exists. -/
  createDirectory : (path : String) → m (Except FileFault Unit)
  /-- Replaces or creates a file. -/
  write : (path text : String) → m (Except FileFault Unit)

end SchemaCodec
