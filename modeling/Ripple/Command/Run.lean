import Ripple.Command.Arguments
import Ripple.Property.Codec
import Ripple.Workspace

/-!
# Commands

Each command asks the engine of a project one thing and prints the answer as
JSON. Commands that only store something print nothing.
-/

namespace Ripple

open Json

/-- What the program prints, and the code with which it ends. -/
structure CommandOutput where
  /-- The code; zero is success. -/
  code : Nat
  out : String
  complaint : String
deriving DecidableEq, Repr

namespace CommandOutput

def success (out : String) : CommandOutput := ⟨0, out, ""⟩

def failure (message : String) : CommandOutput := ⟨1, "", "Error: " ++ message ++ "\n"⟩

/-- A command line that means nothing. -/
def misuse (usage : String) : CommandOutput := ⟨2, "", usage⟩

end CommandOutput

def versionText : String := "code-impact 0.1.0\n"

def usageText : String :=
  "Usage: code-impact [--root <ROOT>] [--config <CONFIG>] <COMMAND>\n\nCommands:\n" ++
    String.join (commandShapes.map fun s => "  " ++ s.name ++ "\n")

def printed {α : Type} [ToJson α] (a : α) : String := (Json.of a).pretty ++ "\n"

/-- An operation on files as a job on a store in a directory. -/
def onDisk (change : FileTree → Except FileFault Unit × FileTree) :
    Job (Engine × DirectoryStore) Unit := fun (e, s) =>
  let (result, disk) := change s.disk
  (result.mapError Error.file, (e, { s with disk := disk }))

/-- The content of a file as a job on a store in a directory. -/
def readFile (path : String) : Job (Engine × DirectoryStore) ByteArray :=
  Engine.look fun s => (s.disk.read path).mapError Error.file

def runGraph (a : Arguments) : Job (Engine × DirectoryStore) Json := do
  if a.has "cycles" then return of (← Engine.importGraph).cycles
  else if a.has "sccs" then return of (← Engine.importGraph).components
  else if a.has "clusters" then return of (← Engine.clusters)
  else return of (← Engine.importGraph)

/-- Runs a command of an engine; relative paths of files are read against a directory. -/
def runCommand (scene : Scene) (directory name : String) (a : Arguments) :
    Job (Engine × DirectoryStore) String := do
  let engine := (← get).1
  match name with
  | "health" => return printed (← Engine.look engine.health)
  | "scan" =>
    let _ ← Engine.scan scene
    return ""
  | "snapshot" =>
    let _ ← Engine.createSnapshot scene
    return ""
  | "analyze" => return printed (← Engine.analyze scene a.values)
  | "impact" => return printed (← Engine.impact [a.value 0] (a.has "dfs"))
  | "graph" => return printed (← runGraph a)
  | "breaking" =>
    let reports ← Engine.look (engine.breakingChanges scene)
    if a.has "advise" then
      return printed (← Engine.annotate .rules scene.now reports)
    else return printed reports
  | "compare" =>
    return printed (← Engine.look fun s => engine.compare s (a.value 0) (a.value 1))
  | "history" =>
    let page ← Engine.look fun s =>
      History.page s (a.count "offset" 0) (a.count "limit" 20) (a.option? "tag")
    return printed page
  | "show" => return printed (← Engine.look fun s => History.load s (a.value 0))
  | "trend" => return printed (← Engine.look fun s => Engine.trend s)
  | "tag" =>
    let notes ← Job.onSecond (History.tag (a.value 0) (a.values.drop 1) (a.option? "description"))
    return printed notes
  | "export" =>
    let path := a.value 1
    let content ← Engine.look fun s => History.exported s (a.value 0) path scene.now
    onDisk fun disk => disk.writeNewFile (Path.join directory path) content scene.now
    return "Exported " ++ a.value 0 ++ " to " ++ path ++ "\n"
  | "import" =>
    let content ← readFile (Path.join directory (a.value 0))
    let id ← Job.onSecond (History.importFrom (a.value 0) content)
    return "Imported snapshot " ++ id ++ "\n"
  | "maintain" => return printed (← Engine.maintain scene)
  | "restore" =>
    return printed (← Engine.look fun s => engine.restorePreview scene s (a.value 0))
  | "advisories" =>
    return printed (← Engine.look fun s => .ok (Engine.advisories s (a.option? "file")))
  | "callers" => return printed ((← Engine.propertyGraph).callers (a.value 0))
  | "callees" => return printed ((← Engine.propertyGraph).callees (a.value 0))
  | "paths" =>
    let g ← Engine.propertyGraph
    return printed (g.paths (a.value 0) (a.value 1) (a.count "max-depth" 6))
  | "changed" =>
    let files ← Engine.look fun _ =>
      Engine.changedFiles engine.root scene.git (a.option? "base")
    if a.has "analyze" then
      return printed (← Engine.analyze scene (files.map (·.path)))
    else return printed files
  | "diff" => Engine.look fun _ => Engine.fileDiff scene.git (a.value 0) (a.option? "base")
  | _ => return ""

def runIn (s : Surroundings) (directory name : String) (a : Arguments) : CommandOutput × FileTree :=
  let path := (a.option? "root").getD "."
  match s.disk.canonical? (Path.join directory path) with
  | none => (.failure ("Project root " ++ path ++ " not found"), s.disk)
  | some root =>
    let config := match a.option? "config" with
      | some path => Config.load s.disk (Path.join directory path)
      | none => Config.discover (Surroundings.treeAt s.disk root)
    match config with
    | .error e => (.failure e.message, s.disk)
    | .ok config =>
      let (opened, store) := s.openProject root config
      match opened with
      | .error e => (.failure e.message, store.disk)
      | .ok engine =>
        let (result, _, store) := runCommand (s.scene root) directory name a (engine, store)
        match result with
        | .ok out => (.success out, store.disk)
        | .error e => (.failure e.message, store.disk)

/-- Runs the program in a directory, and gives what becomes of the files. -/
def runProgram (s : Surroundings) (directory : String) (arguments : List String) :
    CommandOutput × FileTree :=
  match Request.ofArguments arguments with
  | .version => (.success versionText, s.disk)
  | .help => (.success usageText, s.disk)
  | .misuse => (.misuse usageText, s.disk)
  | .command name a => runIn s directory name a

end Ripple
