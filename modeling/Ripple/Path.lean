import Ripple.Text.Blank

/-!
# File Paths

Paths are texts with forward slashes. What matters of a path is its
segments: empty ones and single dots carry no meaning, and two dots take back
the segment before them.

A file of a project is known by its path below the project. `relative?` gives
that path, whether the file is named from the root of the file system or from
the project, and has no answer for what lies outside.
-/

namespace Ripple.Path

variable (path : String)

/-- The segments of a path, without empty ones and single dots. -/
def segments : List String :=
  (splitText '/' path).filter fun s => s ≠ "" && s ≠ "."

def fileName? : Option String :=
  match (segments path).getLast? with
  | some ".." => none
  | name => name

/-- What follows the last dot of the file name; a dot in front of the whole name does not count. -/
def extension? : Option String :=
  match fileName? path with
  | none => none
  | some name =>
    match (splitText '.' name).reverse with
    | last :: stem => if stem.all (· = "") && stem.length ≤ 1 then none else some last
    | [] => none

def ofSegments (parts : List String) : String := String.intercalate "/" parts

/-- Follows segments from a directory; the directory is given with its last segment first. -/
def follow : List String → List String → Option (List String)
  | parts, [] => some parts
  | parts, segment :: rest =>
    if segment = "" || segment = "." then follow parts rest
    else if segment = ".." then
      match parts with
      | [] => none
      | _ :: parts => follow parts rest
    else follow (segment :: parts) rest

/-- Whether a path begins at the root of the file system. -/
def isAbsolute : Bool := path.toList.head? = some '/'

/-- A path read against a directory. -/
def join (directory path : String) : String :=
  if isAbsolute path then path
  else if directory = "" || finishesWith directory "/" then directory ++ path
  else directory ++ "/" ++ path

/-- What follows the items at the front of a list. -/
def stripSegments? : List String → List String → Option (List String)
  | [], parts => some parts
  | _ :: _, [] => none
  | a :: front, b :: parts => if a = b then stripSegments? front parts else none

/-- The segments of a path that may begin at the root, seen from a directory. -/
def segmentsBelow? (root path : String) : Option (List String) :=
  if !isAbsolute path then some (segments path)
  else if isAbsolute root then stripSegments? (segments root) (segments path)
  else none

/-- The path below a directory that a path means, unless it means none. -/
def relative? (root path : String) : Option String :=
  match (segmentsBelow? root path).bind (follow []) with
  | none | some [] => none
  | some parts => some (ofSegments parts.reverse)

end Ripple.Path
