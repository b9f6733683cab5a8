import Ripple.Path

/-!
# Import Resolution

A module name in an import is matched with the files of the project. The
name is read against the directory of the importing file, and failing that
against the root of the project; a name that climbs above the root matches
nothing. At each place the name is tried as written, with its compiled
extension replaced by the source extension, with each extension added, and
as a directory with an index file.
-/

namespace Ripple

/-- The extensions that an import may leave out, in the order in which they are tried. -/
def resolveExtensions : List String := ["ts", "tsx", "js", "jsx", "mts", "cts", "mjs", "cjs"]

/-- A relative path read against a directory, unless it leaves the root. -/
def normalize? (directory relative : String) : Option String :=
  let parts := (splitText '/' directory).filter (· ≠ "")
  (Path.follow parts.reverse (splitText '/' relative)).map fun found =>
    Path.ofSegments found.reverse

/-- The source extensions that a compiled extension stands for. -/
def sourceExtensions (extension : String) : List String :=
  match extension with
  | "js" => ["ts", "tsx"]
  | "jsx" => ["tsx"]
  | "mjs" => ["mts"]
  | "cjs" => ["cts"]
  | _ => []

/-- The text before and after the last occurrence of a character. -/
def splitLast? (cut : Char) (text : String) : Option (String × String) :=
  let back := text.toList.reverse
  match back.dropWhile (· ≠ cut) with
  | [] => none
  | _ :: front =>
    some (String.ofList front.reverse, String.ofList (back.takeWhile (· ≠ cut)).reverse)

/-- The files that a place may stand for, in the order in which they are tried. -/
def candidatesAt (base : String) : List String :=
  let swapped := match splitLast? '.' base with
    | some (stem, extension) => (sourceExtensions extension).map fun e => stem ++ "." ++ e
    | none => []
  base :: swapped ++ resolveExtensions.map (fun e => base ++ "." ++ e) ++
    resolveExtensions.map (fun e => base ++ "/index." ++ e)

/-- The known file that a place stands for. -/
def probe? (isKnown : String → Bool) (base : String) : Option String :=
  if base = "" then none else (candidatesAt base).find? isKnown

def directoryOf (path : String) : String :=
  match splitLast? '/' path with
  | some (directory, _) => directory
  | none => ""

/-- The known file that an import means. -/
def resolveImport? (isKnown : String → Bool) (importer source : String) : Option String :=
  let rooted := source.toList.head? = some '/'
  let near := if rooted then none else normalize? (directoryOf importer) source
  let far := normalize? "" (String.ofList (source.toList.dropWhile (· = '/')))
  (near.toList ++ far.toList).findSome? (probe? isKnown)

end Ripple
