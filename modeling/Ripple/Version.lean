import Ripple.Error
import Ripple.Json.Basic
import Ripple.Snapshot.Basic

/-!
# Version Control

What `git` says about a project. Commands are answered by a function from
their arguments to a reply, so nothing here runs a program.
-/

namespace Ripple

structure GitReply where
  out : String
  complaint : String
  /-- The code with which it ended; zero is success. -/
  code : Int
deriving DecidableEq, Repr

/-- How the commands of version control are answered. -/
abbrev Git := List String → GitReply

inductive FileStatus where
  | added | modified | deleted | renamed
deriving DecidableEq, Repr

structure ChangedFile where
  path : String
  status : FileStatus
deriving DecidableEq, Repr

namespace FileStatus

def text : FileStatus → String
  | added => "added"
  | modified => "modified"
  | deleted => "deleted"
  | renamed => "renamed"

/-- The status that a letter means; a letter that is not known means a modification. -/
def ofLetters? (letters : String) : Option FileStatus :=
  letters.toList.head?.map fun c =>
    if c = 'A' || c = '?' then added
    else if c = 'D' then deleted
    else if c = 'R' then renamed
    else modified

/-- The status that two letters mean, one for what is staged and one for what is not. -/
def ofPair (first second : Char) : FileStatus :=
  if first = 'A' || second = 'A' || first = '?' then added
  else if first = 'D' || second = 'D' then deleted
  else if first = 'R' then renamed
  else modified

end FileStatus

namespace ChangedFile

def toJson (f : ChangedFile) : Json :=
  .object [("path", .text f.path), ("status", .text f.status.text)]

instance : ToJson ChangedFile := ⟨ChangedFile.toJson⟩

/-- The file of a line with a status and a path, or two paths, cut by tabs. -/
def ofStatusLine? (line : String) : Option ChangedFile :=
  match splitText '\t' line with
  | letters :: path :: more =>
    (FileStatus.ofLetters? letters).map fun status =>
      ⟨trimText ((path :: more).getLastD ""), status⟩
  | _ => none

/-- The text after the first occurrence of another. -/
def after? (part : List Char) : List Char → Option (List Char)
  | [] => none
  | c :: cs =>
    if part.isPrefixOf (c :: cs) then some ((c :: cs).drop part.length) else after? part cs

/-- The file of a status and a path that may say what it was called before. -/
def ofShortPath? (status : FileStatus) (path : List Char) : Option ChangedFile :=
  if path.isEmpty then none
  else
    let path := trim path
    some ⟨String.ofList ((after? " -> ".toList path).getD path), status⟩

/-- The file of a line with a status of two bytes, a gap of one byte and a path. -/
def ofShortLine? (line : String) : Option ChangedFile :=
  match line.toList with
  | first :: second :: rest =>
    if first.utf8Size = 2 && second.utf8Size = 1 then ofShortPath? .modified rest
    else
      match rest with
      | gap :: rest =>
        if first.utf8Size = 1 && second.utf8Size = 1 && gap.utf8Size = 1 then
          ofShortPath? (.ofPair first second) rest
        else none
      | [] => none
  | _ => none

/-- Keeps the first of the files with the same path. -/
def distinct (files : List ChangedFile) : List ChangedFile :=
  (files.foldl
    (fun (found : List String × List ChangedFile) f =>
      if found.1.contains f.path then found else (f.path :: found.1, f :: found.2))
    ([], [])).2.reverse

end ChangedFile

def Commit.ofLine? (line : String) : Option Commit :=
  match splitText '\x1f' line with
  | hash :: author :: time :: more =>
    if hash = "" then none
    else (int64OfText? time.toList).map fun time => ⟨hash, more.headD "", author, time⟩
  | _ => none

namespace Git

def absent : Git := fun _ => ⟨"", "fatal: not a git repository", 128⟩

variable (g : Git)

def run (arguments : List String) : Except Error String :=
  let reply := g arguments
  if reply.code = 0 then .ok reply.out
  else .error (.commandFailed (String.intercalate " " arguments) (trimText reply.complaint))

def check : Except Error Unit := do
  let inside ← g.run ["rev-parse", "--is-inside-work-tree"]
  if trimText inside = "true" then return () else .error .notRepository

def isPresent : Bool := g.check.toBool

def topDirectory : Except Error String :=
  (g.run ["rev-parse", "--show-toplevel"]).map trimText

def changedSince (base : String) : Except Error (List ChangedFile) := do
  let tracked ← g.run ["diff", "--name-status", base]
  let untracked ← g.run ["ls-files", "--full-name", "--others", "--exclude-standard"]
  let added := ((textLines untracked).map trimText).filter (· ≠ "")
  return ChangedFile.distinct
    ((textLines tracked).filterMap ChangedFile.ofStatusLine? ++
      added.map fun path => ⟨path, .added⟩)

def uncommitted : Except Error (List ChangedFile) := do
  let lines ← g.run ["status", "--porcelain", "--untracked-files=all"]
  return ChangedFile.distinct ((textLines lines).filterMap ChangedFile.ofShortLine?)

/-- The files that differ from a revision, or from the last commit if none is named. -/
def changedFiles (base : Option String) : Except Error (List ChangedFile) :=
  match base with
  | some base => g.changedSince base
  | none => g.uncommitted

def fileDiff (path : String) (base : Option String) : Except Error String :=
  g.run ["diff", base.getD "HEAD", "--", path]

def headCommit : Except Error Commit := do
  let line ← g.run ["log", "-1", "--format=%H%x1f%an%x1f%at%x1f%s"]
  match Commit.ofLine? (trimText line) with
  | some c => return c
  | none => .error .unexpectedLog

end Git

end Ripple
