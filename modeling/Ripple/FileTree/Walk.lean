import Ripple.FileTree.Basic
import Ripple.Ignore
import Ripple.Outline.Source
import Ripple.Text.Utf8

/-!
# The Files of a Project

A walk over a tree finds the files of a project. It enters no hidden and no
ignored directory, so it never looks at most of what is not part of the
project. What it meets is looked at file by file, and what is part of the
project is listed in the order of the paths.
-/

namespace Ripple

structure TreeFile where
  path : String
  content : ByteArray
  modified : Int64

structure TreeEntry where
  names : List String
  node : FileTree

namespace FileTree

mutual

/-- The nodes from a place on that a walk meets. -/
def visitFrom (passes : List String → Bool → Bool) (names : List String) : FileTree → List TreeEntry
  | file content modified => [⟨names, file content modified⟩]
  | directory entries => ⟨names, directory entries⟩ :: visitEntries passes names entries

/-- The nodes from some entries on that a walk meets. It passes over what is hidden and over what
    does not pass a test, and over all that is below. -/
def visitEntries (passes : List String → Bool → Bool) (above : List String) :
    List (String × FileTree) → List TreeEntry
  | [] => []
  | (name, node) :: rest =>
    let here := above ++ [name]
    (if !IgnoreRules.isHidden name && passes here node.isDirectory then
      visitFrom passes here node else []) ++ visitEntries passes above rest

end

def visit (passes : List String → Bool → Bool) (top : FileTree) : List TreeEntry :=
  visitFrom passes [] top

end FileTree

namespace TreeFile

def segments (f : TreeFile) : List String := splitText '/' f.path

def insertByPath (f : TreeFile) : List TreeFile → List TreeFile
  | [] => [f]
  | first :: rest =>
    if (compare f.segments first.segments).isLE then f :: first :: rest
    else first :: insertByPath f rest

def sortByPath (files : List TreeFile) : List TreeFile := files.foldr insertByPath []

end TreeFile

namespace FileWalker

variable (w : FileWalker)

def passes (names : List String) (isDirectory : Bool) : Bool :=
  !w.rules.ignores (Path.ofSegments names) isDirectory

/-- The file of a project at a node, if it is one. The top itself has no path. -/
def file? (e : TreeEntry) : Option TreeFile :=
  match e.node with
  | .file content modified =>
    let path := Path.ofSegments e.names
    if !e.names.isEmpty && w.tracks path then some ⟨path, content, modified⟩ else none
  | .directory _ => none

/-- The files of a project among the nodes that were met, in the order of their paths. -/
def collect (met : List TreeEntry) : List TreeFile :=
  TreeFile.sortByPath (met.filterMap w.file?)

def walk (top : FileTree) : List TreeFile := w.collect (top.visit w.passes)

end FileWalker

namespace FileTree

def walk (rules : IgnoreRules) (top : FileTree) : List TreeFile :=
  (FileWalker.standard rules).walk top

def readText (top : FileTree) (path : String) : Except FileFault String := do
  match strictText? (← top.read path) with
  | some text => return text
  | none => .error .notText

/-- The time of the last change of a file, in milliseconds; before 1970 it is zero. -/
def timeOf (modified : Int64) : Int64 := if modified < 0 then 0 else modified

def file? (top : FileTree) (path : String) : Option (ByteArray × Int64) :=
  match top.at? path with
  | .ok (file content modified) => some (content, timeOf modified)
  | _ => none

end FileTree

/-- The rules of some more directories and of the list that a project keeps. -/
def IgnoreRules.ofTree (directories : List String) (tree : FileTree) : IgnoreRules :=
  match tree.readText ".gitignore" with
  | .ok list => ofList directories list
  | .error _ => ofList directories ""

def Outline.ofTreeFile (tree : FileTree) (path hash : String) : Outline :=
  match tree.readText path with
  | .ok source => ofSource path hash source
  | .error fault => unread path hash ("Failed to read file: " ++ fault.message)

end Ripple
