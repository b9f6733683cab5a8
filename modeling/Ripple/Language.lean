import Ripple.Path

/-!
# Languages

Which files are read, by their extension, in which dialect, and under which
name of a language they are listed. Languages are registered one after the
other; an extension leads to the name of the last language that was registered
for it, and the name to the last language that was registered under it.
-/

namespace Ripple

inductive Dialect where
  | typescript
  | tsx
deriving DecidableEq, Repr

namespace Dialect

def name : Dialect → String
  | typescript => "typescript"
  | tsx => "tsx"

def all : List Dialect := [typescript, tsx]

def extensions : Dialect → List String
  | typescript => ["ts", "mts", "cts", "js", "mjs", "cjs"]
  | tsx => ["tsx", "jsx"]

/-- Whether markup elements may stand in expressions. -/
def hasMarkup : Dialect → Bool
  | typescript => false
  | tsx => true

end Dialect

/-- The language that files with an extension are listed under. -/
def tagOfExtension (extension : String) : String :=
  if ["js", "mjs", "cjs", "jsx"].contains extension then "javascript" else "typescript"

structure Language where
  name : String
  extensions : List String
  /-- What its files are listed under, by their extension. -/
  tag : String → String
  dialect : Dialect

def Dialect.language (d : Dialect) : Language := ⟨d.name, d.extensions, tagOfExtension, d⟩

/-- The languages whose files are read. A language takes the place of those that were registered
    before it, under its name and for its extensions. -/
structure LanguageRegistry where
  /-- The languages, the last one registered first. -/
  languages : List Language

namespace LanguageRegistry

def empty : LanguageRegistry := ⟨[]⟩

variable (r : LanguageRegistry)

def register (l : Language) : LanguageRegistry := ⟨l :: r.languages⟩

def standard : LanguageRegistry := (Dialect.all.map Dialect.language).foldl register empty

def byName? (name : String) : Option Language :=
  r.languages.find? fun l => l.name = name

/-- The language of files with a given extension, which is known by its name. -/
def byExtension? (extension : String) : Option Language :=
  (r.languages.find? fun l => l.extensions.contains extension).bind fun l => r.byName? l.name

def forFile? (path : String) : Option Language :=
  (Path.extension? path).bind r.byExtension?

def tag? (path : String) : Option String :=
  (Path.extension? path).bind fun extension =>
    (r.byExtension? extension).map fun l => l.tag extension

def extensions (r : LanguageRegistry) : List String := r.languages.flatMap Language.extensions

end LanguageRegistry

namespace Dialect

def ofName? (text : String) : Option Dialect :=
  (LanguageRegistry.standard.byName? text).map Language.dialect

def ofExtension? (extension : String) : Option Dialect :=
  (LanguageRegistry.standard.byExtension? extension).map Language.dialect

def ofPath? (path : String) : Option Dialect :=
  (LanguageRegistry.standard.forFile? path).map Language.dialect

end Dialect

/-- The language that a file is listed under, if files of its kind are read. -/
def languageTag? (path : String) : Option String := LanguageRegistry.standard.tag? path

def supportedExtensions : List String := LanguageRegistry.standard.extensions

end Ripple
