import Ripple.FileTree.Basic

/-!
# Changes to Trees of Files

Writing and removing files, and making directories. An operation that fails
leaves the tree alone, except that directories made on the way to one that
cannot be made stay.
-/

namespace Ripple.FileTree

def setEntry (name : String) (node : FileTree) : List (String × FileTree) → List (String × FileTree)
  | [] => [(name, node)]
  | e :: rest =>
    match compare name e.1 with
    | .lt => (name, node) :: e :: rest
    | .eq => (name, node) :: rest
    | .gt => e :: setEntry name node rest

def alterEntry (change : Option FileTree → Option FileTree) (name : String)
    (entries : List (String × FileTree)) : List (String × FileTree) :=
  match change ((entries.find? fun e => e.1 = name).map Prod.snd) with
  | some node => setEntry name node entries
  | none => entries.filter fun e => e.1 ≠ name

/-- Changes the node at the end of some names. -/
def alter (change : Option FileTree → Option FileTree) : List String → FileTree → FileTree
  | _, file content modified => file content modified
  | [], directory entries => directory entries
  | [name], directory entries => directory (alterEntry change name entries)
  | name :: next :: rest, directory entries =>
    directory (entries.map fun e =>
      if e.1 = name then (e.1, alter change (next :: rest) e.2) else e)

def node? : FileTree → List String → Option FileTree
  | node, [] => some node
  | file _ _, _ :: _ => none
  | directory entries, name :: rest =>
    match entries.find? fun e => e.1 = name with
    | some e => node? e.2 rest
    | none => none

/-- Whether a segment means a directory whatever it follows. -/
def isDots (segment : String) : Bool := segment = "" || segment = "." || segment = ".."

/-- The place of a file: the names above it, its own name, and what is there now. -/
structure Place where
  above : List String
  name : String
  node : Option FileTree

def Place.names (p : Place) : List String := p.above ++ [p.name]

variable (top : FileTree) (path : String)

/-- The place that a path means, if it can be the place of a file. -/
def place : Except FileFault Place := do
  let segments ← checked path
  let name := segments.getLastD ""
  let way ← trace top [] segments.dropLast
  if isDots name then
    let _ ← trace top way [name]
    .error .isDirectory
  else
    match way.node top with
    | file _ _ => .error .notDirectory
    | directory entries =>
      match entry? entries name with
      | .ok node => return ⟨way.names, name, some node⟩
      | .error .missing => return ⟨way.names, name, none⟩
      | .error fault => .error fault

def writeFile (content : ByteArray) (now : Int64) : Except FileFault FileTree := do
  let p ← top.place path
  match p.node with
  | some (directory _) => .error .isDirectory
  | _ => return top.alter (fun _ => some (file content now)) p.names

def setModified (modified : Int64) : Except FileFault FileTree := do
  let p ← top.place path
  match p.node with
  | none => .error .missing
  | some (directory _) => .error .isDirectory
  | some (file content _) => return top.alter (fun _ => some (file content modified)) p.names

def removeFile : Except FileFault FileTree := do
  let p ← top.place path
  match p.node with
  | none => .error .missing
  | some (directory _) => .error .isDirectory
  | some (file _ _) => return top.alter (fun _ => none) p.names

/-- Moves a file to another place, over a file that is there. -/
def moveFile (source target : String) : Except FileFault FileTree := do
  let p ← top.place source
  match p.node with
  | none => .error .missing
  | some (directory _) => .error .isDirectory
  | some node =>
    let last := (splitText '/' target).getLastD ""
    if last = "" then .error .notDirectory
    else if isDots last then .error .busy
    else
      let q ← top.place target
      match q.node with
      | some (directory _) => .error .isDirectory
      | _ => return (top.alter (fun _ => none) p.names).alter (fun _ => some node) q.names

/-- Makes directories one below another; the names made so far come last one first. -/
def makeBelow (top : FileTree) : List String → List String → Except FileFault Unit × FileTree
  | _, [] => (.ok (), top)
  | made, segment :: rest =>
    if segment = ".." then makeBelow top made.tail rest
    else
      let names := (segment :: made).reverse
      match top.node? names with
      | some (directory _) => makeBelow top (segment :: made) rest
      | some (file _ _) => (.error (if rest.isEmpty then .present else .notDirectory), top)
      | none =>
        if segment.utf8ByteSize > maxNameSize then (.error .nameTooLong, top)
        else makeBelow (top.alter (fun _ => some empty) names) (segment :: made) rest

/-- Makes a directory and those above it. -/
def makeDirectories : Except FileFault Unit × FileTree :=
  match checked path with
  | .error fault => (.error fault, top)
  | .ok _ => makeBelow top [] (Path.segments path)

def parentOf : String :=
  let front := Path.ofSegments (Path.segments path).dropLast
  if Path.isAbsolute path then "/" ++ front else front

/-- Writes the content of a file, and makes the directories above it. -/
def writeNewFile (content : ByteArray) (now : Int64) : Except FileFault Unit × FileTree :=
  let (made, top) :=
    if parentOf path = "" then (.ok (), top) else top.makeDirectories (parentOf path)
  match made with
  | .error fault => (.error fault, top)
  | .ok () =>
    match top.writeFile path content now with
    | .ok top => (.ok (), top)
    | .error fault => (.error fault, top)

mutual

def allFiles (above : List String) : FileTree → List (List String)
  | file _ _ => [above]
  | directory entries => allFilesOf above entries

/-- The paths of all files below some entries. -/
def allFilesOf (above : List String) : List (String × FileTree) → List (List String)
  | [] => []
  | (name, node) :: rest => node.allFiles (above ++ [name]) ++ allFilesOf above rest

end

end Ripple.FileTree
