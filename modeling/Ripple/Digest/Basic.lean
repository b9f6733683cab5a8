import Ripple.Digest.Sha256
import Ripple.Digest.Xxh3

/-!
# Digests

The digests that content is told apart by.
-/

namespace Ripple

inductive DigestKind where
  | sha256 | xxh3
deriving DecidableEq, Repr

namespace DigestKind

def text : DigestKind → String
  | sha256 => "sha256"
  | xxh3 => "xxh3"

def ofText? (s : String) : Option DigestKind := [sha256, xxh3].find? fun k => k.text = s

def digest : DigestKind → ByteArray → String
  | sha256 => Digest.sha256
  | xxh3 => Digest.xxh3

end DigestKind

end Ripple
