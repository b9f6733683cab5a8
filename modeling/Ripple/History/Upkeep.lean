import Ripple.History.Basic

/-!
# Upkeep of the History

Old snapshots are removed and others are packed. The newest snapshot is
always kept. Snapshots are looked at from the newest to the oldest: one with a
tag may be exempt, and one that is too old, or that comes after enough kept
ones, is removed. What is older than some hours is packed; the packed form is
there before the plain one goes.

Times are 64-bit words, and so are their differences and products.
-/

namespace Ripple

structure UpkeepReport where
  deleted : List String
  compressed : List String
deriving DecidableEq, Repr

def UpkeepReport.toJson (r : UpkeepReport) : Json :=
  .object [("deleted", Json.ofTexts r.deleted), ("compressed", Json.ofTexts r.compressed)]

instance : ToJson UpkeepReport := ⟨UpkeepReport.toJson⟩

def hourMs : Int64 := 3600000

def dayMs : Int64 := 86400000

/-- The age of a snapshot by its id; one without a time is new. -/
def snapshotAge (now : Int64) (id : String) : Int64 := now - (Snapshot.idTime? id).getD now

def Retention.tooOld (r : Retention) (now : Int64) (id : String) : Bool :=
  match r.maxAgeDays with
  | some days => snapshotAge now id > days * dayMs
  | none => false

def Retention.full (r : Retention) (kept : Nat) : Bool :=
  match r.maxCount with
  | some count => count.toNat ≤ kept
  | none => false

namespace History

variable {σ : Type} [BlobStore σ]

/-- Whether a snapshot is exempt for its tags. -/
def isProtected (r : Retention) (store : σ) (id : String) : Bool :=
  r.keepTagged && !(notes store id).tags.isEmpty

/-- Removes old snapshots after a number of kept ones; the newest come first. -/
def enforceFrom (r : Retention) (now : Int64) : Nat → List String → Job σ (List String)
  | _, [] => return []
  | kept, id :: rest => do
    if ← Job.inspect fun s => .ok (isProtected r s id) then enforceFrom r now kept rest
    else if r.tooOld now id || r.full kept then
      let _ ← remove id
      return id :: (← enforceFrom r now kept rest)
    else enforceFrom r now (kept + 1) rest

def enforce (r : Retention) (now : Int64) : Job σ (List String) := do
  match (← Job.inspect fun s => ids s).reverse with
  | [] => return []
  | _ :: older => enforceFrom r now 1 older

/-- Whether a snapshot is old enough to be packed. -/
def isAged (afterHours now : Int64) (id : String) : Bool :=
  match Snapshot.idTime? id with
  | none => false
  | some time => afterHours * hourMs ≤ now - time

/-- Packs a snapshot if it is plain, and says whether it was. -/
def pack (id : String) : Job σ Bool := do
  match ← Store.get (Keys.snapshot id false) with
  | none => return false
  | some bytes =>
    Store.put (Keys.snapshot id true) (Packing.gzip bytes)
    let _ ← Store.delete (Keys.snapshot id false)
    return true

/-- Packs those of some snapshots that are plain, and says which. -/
def packAll : List String → Job σ (List String)
  | [] => return []
  | id :: rest => do
    let done ← pack id
    let others ← packAll rest
    return if done then id :: others else others

def compress (afterHours now : Int64) : Job σ (List String) := do
  packAll ((← Job.inspect fun s => ids s).filter (isAged afterHours now))

def maintain (r : Retention) (afterHours now : Int64) : Job σ UpkeepReport := do
  let deleted ← enforce r now
  let compressed ← compress afterHours now
  return ⟨deleted, compressed⟩

end History

end Ripple
