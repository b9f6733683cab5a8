import Ripple.Text.Blank

/-!
# Keys

Where things are kept in a store. The path of a file becomes a single segment
of a key: slashes are written as tildes, and tildes, percent signs and what
file names should not hold are written as percent signs with two digits, so
that different files have different keys.
-/

namespace Ripple.Keys

/-- Where the digests of files are kept. -/
def hashes : String := "index/hashes.json"

def files : String := "index/files.json"

def times : String := "index/mtime-cache.json"

def graph : String := "index/deps/graph.json"

def advice : String := "reports/ai-analysis.json"

/-- What the keys of snapshots begin with. -/
def snapshots : String := "history/snapshots/"

/-- The characters that are written with digits. -/
def escaped : List Char := ['~', '%', '\\', ':', '*', '?', '\x22', '<', '>', '|']

def upperDigit (n : Nat) : Char := if n < 10 then Char.ofNat (48 + n) else Char.ofNat (55 + n)

/-- A character of a path in a key. -/
def sanitizeChar (c : Char) : List Char :=
  if c = '/' then ['~']
  else if escaped.contains c then ['%', upperDigit (c.toNat / 16), upperDigit (c.toNat % 16)]
  else [c]

def sanitize (path : String) : String := String.ofList (path.toList.flatMap sanitizeChar)

def outline (path : String) : String := "index/ast/" ++ sanitize path ++ ".json"

def snapshot (id : String) (packed : Bool) : String :=
  snapshots ++ id ++ if packed then ".json.gz" else ".json"

def notes (id : String) : String := "history/metadata/" ++ id ++ ".json"

def snapshotOfKey? (key : String) : Option String :=
  (stripFront? snapshots key).bind fun name =>
    match stripTail? ".json.gz" name with
    | some id => some id
    | none => stripTail? ".json" name

end Ripple.Keys
