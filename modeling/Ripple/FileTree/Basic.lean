import Ripple.Path

/-!
# Trees of Files

A file system as far as the library sees it: directories, and files with
their content and the time of their last change. The entries of a directory
are kept in the order of their names, so that a walk from top to bottom meets
files in the order of their paths, segment by segment.

A path is followed one segment at a time. Two dots lead back to the directory
above, but only from a directory that is there; a path that ends with a slash
means a directory. `trace` keeps what it passes, so that both the place and
the node there can be read off.
-/

namespace Ripple

inductive FileFault where
  | missing
  | busy
  | present
  | notDirectory
  | isDirectory
  | nameTooLong
  | notText
  | zeroByte
deriving DecidableEq, Repr

def FileFault.message : FileFault → String
  | missing => "No such file or directory (os error 2)"
  | busy => "Device or resource busy (os error 16)"
  | present => "File exists (os error 17)"
  | notDirectory => "Not a directory (os error 20)"
  | isDirectory => "Is a directory (os error 21)"
  | nameTooLong => "File name too long (os error 36)"
  | notText => "stream did not contain valid UTF-8"
  | zeroByte => "file name contained an unexpected NUL byte"

/-- A file, or a directory with its entries in the order of their names. -/
inductive FileTree where
  | file (content : ByteArray) (modified : Int64)
  | directory (entries : List (String × FileTree))
deriving Inhabited

namespace FileTree

def empty : FileTree := directory []

def isDirectory : FileTree → Bool
  | directory _ => true
  | file _ _ => false

def isFile : FileTree → Bool
  | file _ _ => true
  | directory _ => false

def maxNameSize : Nat := 255

def maxPathSize : Nat := 4095

def entry? (entries : List (String × FileTree)) (name : String) : Except FileFault FileTree :=
  match entries.find? fun e => e.1 = name with
  | some e => .ok e.2
  | none => .error (if name.utf8ByteSize > maxNameSize then .nameTooLong else .missing)

/-- A way from the top of a tree: the names and nodes on it, the last one first. -/
abbrev Way := List (String × FileTree)

variable (top : FileTree)

def Way.node (way : Way) : FileTree :=
  match way with
  | [] => top
  | step :: _ => step.2

def Way.names (way : Way) : List String := (way.map Prod.fst).reverse

/-- Follows segments from the end of a way. -/
def trace (top : FileTree) : Way → List String → Except FileFault Way
  | way, [] => .ok way
  | way, segment :: rest =>
    match way.node top with
    | file _ _ => .error .notDirectory
    | directory entries =>
      if segment = "" || segment = "." then trace top way rest
      else if segment = ".." then trace top way.tail rest
      else
        match entry? entries segment with
        | .ok child => trace top ((segment, child) :: way) rest
        | .error fault => .error fault

variable (path : String)

/-- Checks that a path can be looked for at all. -/
def checked : Except FileFault (List String) :=
  if path.toList.contains '\x00' then .error .zeroByte
  else if path = "" then .error .missing
  else if path.utf8ByteSize > maxPathSize then .error .nameTooLong
  else .ok ((splitText '/' path).dropWhile (· = ""))

def at? : Except FileFault FileTree := do
  let segments ← checked path
  return (← trace top [] segments).node top

/-- The path from the top without dots, if there is something at a path. -/
def canonical? : Option String :=
  match (checked path).bind (trace top []) with
  | .ok way => some ("/" ++ Path.ofSegments way.names)
  | .error _ => none

def isFileAt : Bool :=
  match top.at? path with
  | .ok node => node.isFile
  | .error _ => false

def read : Except FileFault ByteArray := do
  match ← top.at? path with
  | file content _ => return content
  | directory _ => .error .isDirectory

def fileNames : Except FileFault (List String) := do
  match ← top.at? path with
  | file _ _ => .error .notDirectory
  | directory entries => return (entries.filter fun e => e.2.isFile).map Prod.fst

end FileTree

end Ripple
