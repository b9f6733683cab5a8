import Ripple.Engine
import Ripple.Store.Directory

/-!
# Projects on Disk

A project whose store is a directory: its settings are in a file of the
project, and the settings say where the store is.
-/

namespace Ripple

namespace Config

def fileName : String := ".code-impact.toml"

def load (disk : FileTree) (path : String) : Except Error Config :=
  match disk.readText path with
  | .error fault => .error (.file fault)
  | .ok text =>
    match ofToml? text with
    | some c => .ok c
    | none => .error .badConfig

def discover (tree : FileTree) : Except Error Config :=
  if tree.isFileAt fileName then load tree fileName else .ok standard

end Config

/-- All that a project on disk depends on. -/
structure Surroundings where
  disk : FileTree
  git : Git
  now : Int64
  /-- What tells apart the ids of snapshots of one time. -/
  salt : String
  /-- What tells the unfinished files of this program from those of others. -/
  writer : String

namespace Surroundings

/-- The node of a directory, which is taken as empty if it is missing. -/
def treeAt (disk : FileTree) (root : String) : FileTree :=
  match disk.at? root with
  | .ok node => node
  | .error _ => .empty

/-- What a project sees of its surroundings. -/
def scene (s : Surroundings) (root : String) : Scene :=
  ⟨treeAt s.disk root, s.git, s.now, s.salt⟩

def openProject (s : Surroundings) (root : String) (config : Config) :
    Except Error Engine × DirectoryStore :=
  let (opened, store) := DirectoryStore.openAt s.disk (config.storagePath root) s.writer s.now
  (opened.map fun () => Engine.ofStore (s.scene root) store root config, store)

end Surroundings

end Ripple
