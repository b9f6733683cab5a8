import Ripple.Language
import Ripple.Text.Wildcard

/-!
# Ignored Files

Some files of a project are passed over: those below certain directories,
those that a list of patterns names, and hidden ones. A line of the list is
taken as it stands, or as a wildcard pattern if it has a star or a question
mark in it; comments, exceptions and malformed patterns are dropped.

The same rules serve a walk over all directories, which enters no ignored
directory, and the question about one file, which looks at all directories
above it.
-/

namespace Ripple

/-- What a line of a list names. -/
inductive IgnoreTarget where
  | literal (text : String)
  | wildcard (pattern : Wildcard)
deriving DecidableEq, Repr

structure IgnorePattern where
  target : IgnoreTarget
  onlyDirectories : Bool
deriving DecidableEq, Repr

structure IgnoreRules where
  directories : List String
  patterns : List IgnorePattern
deriving DecidableEq, Repr

/-- The directories that are passed over in every project. -/
def standardIgnored : List String :=
  ["node_modules", ".git", ".hg", ".svn", "dist", "build", "out", "coverage", ".next", ".nuxt",
    ".cache", ".turbo", "target", ".code-impact"]

namespace IgnorePattern

/-- The pattern of a line, unless the line means none. -/
def ofLine? (line : String) : Option IgnorePattern :=
  let line := trimText line
  if line = "" || beginsWith line "#" || beginsWith line "!" then none
  else
    let text := String.ofList (trimWhere (· = '/') line.toList)
    let onlyDirectories := finishesWith line "/"
    if text = "" then none
    else if text.toList.any fun c => c = '*' || c = '?' then
      (Wildcard.ofText? text).map fun pattern => ⟨.wildcard pattern, onlyDirectories⟩
    else some ⟨.literal text, onlyDirectories⟩

def names (p : IgnorePattern) (path : String) (isDirectory : Bool) : Bool :=
  let segments := splitText '/' path
  match p.target with
  | .literal text =>
    if p.onlyDirectories && !isDirectory then segments.dropLast.contains text
    else if text.toList.contains '/' then path = text || beginsWith path (text ++ "/")
    else segments.contains text
  | .wildcard pattern =>
    if p.onlyDirectories && !isDirectory then false
    else pattern.accepted (segments.getLastD "") || pattern.accepted path

end IgnorePattern

namespace IgnoreRules

def ofList (directories : List String) (list : String) : IgnoreRules :=
  ⟨standardIgnored ++ directories, (textLines list).filterMap IgnorePattern.ofLine?⟩

def ignores (r : IgnoreRules) (path : String) (isDirectory : Bool) : Bool :=
  (splitText '/' path).any r.directories.contains ||
    r.patterns.any fun p => p.names path isDirectory

/-- The paths of the directories above a file, the topmost first. -/
def ancestors (segments : List String) : List String :=
  (List.range' 1 (segments.length - 1)).map fun n => Path.ofSegments (segments.take n)

def isHidden (segment : String) : Bool := beginsWith segment "."

/-- Whether a file is passed over, for itself or for what is above it. -/
def excludes (r : IgnoreRules) (path : String) : Bool :=
  let segments := splitText '/' path
  segments.any isHidden || (ancestors segments).any (fun d => r.ignores d true) ||
    r.ignores path false

end IgnoreRules

/-- What makes a file part of a project. -/
structure FileWalker where
  registry : LanguageRegistry
  rules : IgnoreRules

namespace FileWalker

/-- Files of all languages that are read. -/
def standard (rules : IgnoreRules) : FileWalker := ⟨.standard, rules⟩

def tracks (w : FileWalker) (path : String) : Bool :=
  (w.registry.forFile? path).isSome && !w.rules.excludes path

end FileWalker

def IgnoreRules.tracks (r : IgnoreRules) (path : String) : Bool :=
  (FileWalker.standard r).tracks path

end Ripple
