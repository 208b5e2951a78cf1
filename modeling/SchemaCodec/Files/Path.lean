/-!
# Paths

A path is a text whose parts are separated by slashes. Empty parts and full stops inside it say
nothing, but a full stop at the very front is a part of its own.
-/

namespace SchemaCodec.Path

/-- Whether a part names a file or directory, or the directory above. -/
def isNaming (part : List Char) : Bool :=
  part != [] && part != ['.']

/-- The front of a path that no part of it can remove: a slash, or a full stop of its own. -/
def lead : List Char → List Char × List Char
  | '/' :: rest => (['/'], rest)
  | '.' :: '/' :: rest => (['.'], '/' :: rest)
  | ['.'] => (['.'], [])
  | cs => ([], cs)

/-- Whether a path starts at the root of all directories. -/
def isAbsolute (path : String) : Bool :=
  path.toList.head? == some '/'

/-- Whether a path ends in a slash, which asks for a directory. -/
def endsInSlash (path : String) : Bool :=
  path.toList.getLast? == some '/'

/-- The naming parts of a path. -/
def parts (path : String) : List String :=
  ((path.toList.splitOn '/').filter isNaming).map String.ofList

/-- The steps that a path asks for: its parts and its full stops. -/
def steps (path : String) : List String :=
  ((path.toList.splitOn '/').filter (· != [])).map String.ofList

/-- The path one part up; `none` if there is nothing to take off. -/
def parent? (path : String) : Option String :=
  let (front, body) := lead path.toList
  let trailing := (body.splitOn '/').reverse.dropWhile (!isNaming ·)
  match trailing with
  | _ :: above =>
    let kept := (above.dropWhile (!isNaming ·)).reverse
    some (String.ofList (front ++ ['/'].intercalate kept))
  | [] => if front = ['.'] then some "" else none

/-- The last part of a path, unless that is the directory above. -/
def fileName? (path : String) : Option String :=
  (parts path).getLast?.filter (· != "..")

/-- What follows the last full stop of the file name, if something stands before it. -/
def extension? (path : String) : Option String :=
  (fileName? path).bind fun name ↦
    let after := name.toList.reverse.takeWhile (· != '.')
    let before := name.toList.reverse.drop after.length
    match before with
    | '.' :: _ :: _ => some (String.ofList after.reverse)
    | _ => none

/-- Whether the extension says that a file is JSON, in letters of either case. -/
def isJson (path : String) : Bool :=
  (extension? path).any fun e ↦ e.toList.map Char.toLower == ['j', 's', 'o', 'n']

/-- The path of an entry of a directory. -/
def join (directory name : String) : String :=
  if directory.isEmpty || endsInSlash directory then directory ++ name
  else directory ++ "/" ++ name

end SchemaCodec.Path
