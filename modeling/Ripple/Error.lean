import Ripple.FileTree.Basic

/-!
# Errors

What can go wrong, by its cause, and what is said about it.
-/

namespace Ripple

inductive Error where
  | file (fault : FileFault)
  /-- A text is not the stored form of what it should be. -/
  | malformed
  | badConfig
  | unsupportedLanguage (path : String)
  | fileNotFound (path : String)
  | snapshotNotFound (id : String)
  | invalidKey (key : String)
  | undecodable
  | unreadableSnapshot (id : String)
  | snapshotExists (id : String)
  | unknownVersion (version : UInt32)
  | wrongBase (expected found : String)
  | commandFailed (command reason : String)
  | notRepository
  | unexpectedLog
deriving DecidableEq, Repr

def Error.message : Error → String
  | file fault => "IO error: " ++ fault.message
  | malformed => "JSON error"
  | badConfig => "Config error"
  | unsupportedLanguage path => "Language not supported: " ++ path
  | fileNotFound path => "File not found: " ++ path
  | snapshotNotFound id => "Snapshot not found: " ++ id
  | invalidKey key => "Storage error: Invalid key: " ++ key
  | undecodable => "Storage error: gzip decode failed"
  | unreadableSnapshot id => "Storage error: Snapshot " ++ id ++ " is unreadable"
  | snapshotExists id => "Storage error: Snapshot " ++ id ++ " already exists"
  | unknownVersion version =>
    "Storage error: Unsupported export format version " ++ toString version.toNat
  | wrongBase expected found =>
    "Storage error: Delta expects base " ++ expected ++ ", got " ++ found
  | commandFailed command reason => "Git error: git " ++ command ++ " failed: " ++ reason
  | notRepository => "Git error: Not a git repository"
  | unexpectedLog => "Git error: Unexpected git log output"

/-- A computation on a state that may fail; what it changed until then stays changed. -/
abbrev Job (σ α : Type) := ExceptT Error (StateM σ) α

namespace Job

def on {σ α : Type} (job : Job σ α) (s : σ) : Except Error α × σ := job s

def inspect {σ α : Type} (look : σ → Except Error α) : Job σ α := fun s => (look s, s)

/-- A job on the second part of a state. -/
def onSecond {ρ σ α : Type} (job : Job σ α) : Job (ρ × σ) α := fun (r, s) =>
  let (result, s) := job s
  (result, (r, s))

/-- A job on a part of the first part of a state. -/
def inside {ρ π σ α : Type} (part : ρ → π) (put : ρ → π → ρ) (job : Job (π × σ) α) :
    Job (ρ × σ) α := fun (r, s) =>
  let (result, p, s) := job (part r, s)
  (result, (put r p, s))

/-- A job whose failure is passed over. -/
def ignoringFailure {σ : Type} (job : Job σ Unit) : Job σ Unit := fun s => (.ok (), (job s).2)

end Job

end Ripple
