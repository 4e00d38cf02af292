/-!
# Files

Programs read modules from files.  What a path leads to is a function of its text.  A file tree is
one such function: it walks the parts of the path through directories, which exist if something is
in them.

Paths are joined and split by their text alone.
-/

namespace TwoPhase

/-- What a path leads to. -/
inductive FileStatus where
  | text (content : String)
  /-- A file that is not text. -/
  | invalidText
  | directory
  | missing
  /-- A path that cannot be followed, and the reason. -/
  | unreadable (reason : String)
  deriving DecidableEq, Inhabited, Repr

namespace FileStatus

/-- The status of a file with the given bytes, which should be UTF-8. -/
def ofBytes (bytes : ByteArray) : FileStatus :=
  match String.fromUTF8? bytes with
  | some content => text content
  | none => invalidText

def isADirectory : String := "Is a directory (os error 21)"

def notADirectory : String := "Not a directory (os error 20)"

def nameTooLong : String := "File name too long (os error 36)"

end FileStatus

namespace Path

/-- The parts of a path between separators. -/
def parts (path : String) : List String :=
  let (first, more) := path.toList.foldr (fun c (part, more) =>
    if c = '/' then ([], String.ofList part :: more) else (c :: part, more)) ([], [])
  String.ofList first :: more

/-- A path inside a directory; an absolute path is inside none. -/
def join (dir path : String) : String :=
  if path.startsWith "/" || dir = "" then path
  else if dir.endsWith "/" then dir ++ path
  else dir ++ "/" ++ path

/-- Drops separators and parts that stay in place from the end of a path, last character first. -/
def trimReversed : List Char → List Char
  | ['/'] => ['/']
  | '/' :: cs => trimReversed cs
  | ['.', '/'] => ['/']
  | '.' :: '/' :: cs => trimReversed cs
  | cs => cs

/-- The directory that a path names a file of; the current one if the path says nothing of it. -/
def parent (path : String) : String :=
  let dir := (path.toList.reverse).dropWhile (· != '/')
  match dir with
  | [] => "."
  | _ => String.ofList (trimReversed dir).reverse

/-- The last part of a path that names something; none if that is a way up. -/
def fileName? (path : String) : Option String :=
  match ((parts path).filter fun part => part != "" && part != ".").getLast? with
  | some ".." => none
  | name => name

/-- What follows the last dot of the file name; a dot at the start does not count. -/
def extension? (path : String) : Option String := do
  let name ← fileName? path
  let (tail, stem) := name.toList.reverse.span (· != '.')
  if stem.length ≤ 1 then none else return String.ofList tail.reverse

/-- Writes every `::` of a name as a separator, behind what is written already, last character
first. -/
def slashed (written : List Char) : List Char → List Char
  | ':' :: ':' :: cs => slashed ('/' :: written) cs
  | c :: cs => slashed (c :: written) cs
  | [] => written.reverse

/-- The file that a module is kept in, inside one of the module directories. -/
def ofModule (name : String) : String := String.ofList (slashed [] name.toList) ++ ".kn"

end Path

/-- Files and directories by their parts from the top. -/
structure FileTree where
  files : List (List String × FileStatus)
  deriving Inhabited

namespace FileTree

/-- A tree of files and directories with relative paths; a later one takes the place of an earlier
one at the same path. -/
def ofList (files : List (String × FileStatus)) : FileTree :=
  ⟨files.reverse.map fun (path, status) =>
    ((Path.parts path).filter fun part => part != "" && part != ".", status)⟩

/-- What stands at a place in the tree. -/
def at? (t : FileTree) (place : List String) : FileStatus :=
  match t.files.lookup place with
  | some status => status
  | none => if t.files.any fun (path, _) => place.isPrefixOf path then .directory else .missing

/-- The longest part of a path that can be looked up. -/
def maxPartLength : Nat := 255

/-- The longest path that can be looked up. -/
def maxPathLength : Nat := 4095

/-- Follows the parts of a path from a directory of the tree, given innermost part first, or from a
directory outside, given as `none`.  A trailing separator leaves an empty last part. -/
def follow (t : FileTree) : Option (List String) → List String → FileStatus
  | _, [] => .directory
  | place, part :: more =>
    if part = "" || part = "." then t.follow place more
    else if part = ".." then
      match place with
      | some (_ :: outer) => t.follow (some outer) more
      | _ => t.follow none more
    else if maxPartLength < part.utf8ByteSize then .unreadable FileStatus.nameTooLong
    else match place with
      | none => .missing
      | some place =>
        match t.at? (part :: place).reverse with
        | .directory => t.follow (some (part :: place)) more
        | .missing => .missing
        | status => if more.isEmpty then status else .unreadable FileStatus.notADirectory

/-- What a path leads to, from the top of the tree. -/
def lookup (t : FileTree) (path : String) : FileStatus :=
  if path = "" then .missing
  else if maxPathLength < path.utf8ByteSize then .unreadable FileStatus.nameTooLong
  else t.follow (if path.startsWith "/" then none else some []) (Path.parts path)

end FileTree

end TwoPhase
