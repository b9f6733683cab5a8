import Ripple.FileTree.Edit
import Ripple.Store.Basic

/-!
# Stores in a Directory

A store whose values are files below a directory, each at the path that its
key is. A value is first written next to its place under a name of its own
and then moved over the earlier one, so that no one ever reads half a value;
such names are passed over when keys are listed. A key never leads out of the
directory.
-/

namespace Ripple

structure DirectoryStore where
  disk : FileTree
  root : String
  /-- What tells the unfinished files of this program from those of others. -/
  writer : String
  /-- The time, in milliseconds. -/
  now : Int64

namespace DirectoryStore

variable (s : DirectoryStore) (key : String)

def pathOf : Except Error String :=
  if key = "" || (splitText '/' key).contains ".." || beginsWith key "/" then
    .error (.invalidKey key)
  else .ok (Path.join s.root key)

/-- The name without its extension; a dot in front of the whole name begins none. -/
def stem (name : String) : String :=
  match (splitText '.' name).reverse with
  | [] | [_] => name
  | _ :: front =>
    if front.all (· = "") && front.length ≤ 1 then name
    else String.intercalate "." front.reverse

/-- The mark in the names of unfinished files. -/
def unfinishedMark : String := ".tmp-"

/-- The path at which a file is written before it is moved to its place. -/
def unfinishedPath (path : String) : String :=
  match Path.fileName? path with
  | none => path
  | some name => Path.join (FileTree.parentOf path) (stem name ++ unfinishedMark ++ s.writer)

def occursIn (part : List Char) : List Char → Bool
  | [] => part.isEmpty
  | c :: cs => part.isPrefixOf (c :: cs) || occursIn part cs

def get : Except Error (Option ByteArray) := do
  let path ← s.pathOf key
  match s.disk.read path with
  | .ok bytes => return some bytes
  | .error .missing => return none
  | .error fault => .error (.file fault)

/-- Puts bytes at a path by way of an unfinished file. -/
def putAt (path : String) (bytes : ByteArray) : Except Error Unit × DirectoryStore :=
  let (made, disk) := s.disk.makeDirectories (FileTree.parentOf path)
  let s := { s with disk := disk }
  match made with
  | .error fault => (.error (.file fault), s)
  | .ok () =>
    match s.disk.writeFile (s.unfinishedPath path) bytes s.now with
    | .error fault => (.error (.file fault), s)
    | .ok disk =>
      match disk.moveFile (s.unfinishedPath path) path with
      | .error fault => (.error (.file fault), { s with disk := disk })
      | .ok disk => (.ok (), { s with disk := disk })

def put (bytes : ByteArray) : Except Error Unit × DirectoryStore :=
  match s.pathOf key with
  | .error e => (.error e, s)
  | .ok path => s.putAt path bytes

/-- A text cut at its last slash. -/
def splitKey : String × String :=
  let segments := splitText '/' key
  (Path.ofSegments segments.dropLast, segments.getLastD "")

/-- The keys in one directory that begin with a text. -/
def list (front : String) : Except Error (List String) := do
  let (directory, start) := splitKey front
  let path ← if directory = "" then .ok s.root else s.pathOf directory
  match s.disk.fileNames path with
  | .error .missing => return []
  | .error fault => .error (.file fault)
  | .ok names =>
    let names := names.filter fun name =>
      !occursIn unfinishedMark.toList name.toList && beginsWith name start
    return names.map fun name => if directory = "" then name else directory ++ "/" ++ name

def delete : Except Error Bool × DirectoryStore :=
  match s.pathOf key with
  | .error e => (.error e, s)
  | .ok path =>
    match s.disk.removeFile path with
    | .ok disk => (.ok true, { s with disk := disk })
    | .error .missing => (.ok false, s)
    | .error fault => (.error (.file fault), s)

instance : BlobStore DirectoryStore where
  get := get
  put := put
  list := list
  delete := delete

/-- The store in a directory, which is made if it is missing. -/
def openAt (disk : FileTree) (root writer : String) (now : Int64) :
    Except Error Unit × DirectoryStore :=
  let (made, disk) := disk.makeDirectories root
  (match made with
    | .ok () => .ok ()
    | .error fault => .error (.file fault),
    ⟨disk, root, writer, now⟩)

end DirectoryStore

end Ripple
