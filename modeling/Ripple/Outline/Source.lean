import Ripple.Grammar.Recovery
import Ripple.Language
import Ripple.Outline.Extract

/-!
# Outlines of Source Text

The outline of a file from its path and its text. A file in no known
language has an outline without content that says so.
-/

namespace Ripple

def sourceTree? (path source : String) : Option Tree :=
  (Dialect.ofPath? path).map fun dialect => Grammar.parse dialect.hasMarkup source.toList

def Fault.placeless (message : String) : Fault := ⟨message, 0, 0⟩

namespace Outline

/-- The outline of a file that could not be looked into. -/
def unread (path hash message : String) : Outline :=
  { empty path hash with faults := [.placeless message] }

def ofSource (path hash source : String) : Outline :=
  match sourceTree? path source with
  | none => unread path hash ("No parser available for " ++ path)
  | some tree => ofTree path hash source.toList tree

end Outline

end Ripple
