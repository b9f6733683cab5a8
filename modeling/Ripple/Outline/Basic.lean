import Ripple.Dict
import Ripple.Source.Tree

/-!
# Outlines

The outline of a source file at one revision: what it declares, what it
takes from other modules, what it offers to them, and where its text is
faulty. A declaration is known by its key, its kind with its name; several
declarations may share one key, as overloads do.
-/

namespace Ripple

inductive DeclarationKind where
  | function | classType | interface | typeAlias | value | enumeration
deriving DecidableEq, Repr

namespace DeclarationKind

def all : List DeclarationKind :=
  [function, classType, interface, typeAlias, value, enumeration]

def rank : DeclarationKind → Nat
  | function => 0
  | classType => 1
  | interface => 2
  | typeAlias => 3
  | value => 4
  | enumeration => 5

theorem rank_injective {a b : DeclarationKind} (h : a.rank = b.rank) : a = b := by
  cases a <;> cases b <;> first | rfl | cases h

def text : DeclarationKind → String
  | function => "function"
  | classType => "class"
  | interface => "interface"
  | typeAlias => "type"
  | value => "variable"
  | enumeration => "enum"

/-- Whether a kind exists at the level of types only. -/
def isTypeLike : DeclarationKind → Bool
  | interface | typeAlias => true
  | _ => false

end DeclarationKind

/-- What a declaration is known by. -/
structure DeclarationKey where
  kind : DeclarationKind
  name : String
deriving DecidableEq, Repr

namespace DeclarationKey

instance : Ord DeclarationKey :=
  ⟨compareLex (compareOn fun key => key.kind.rank) (compareOn fun key => key.name)⟩

instance : Std.TransOrd DeclarationKey :=
  inferInstanceAs (Std.TransCmp (compareLex (compareOn fun key : DeclarationKey => key.kind.rank)
    (compareOn fun key : DeclarationKey => key.name)))

instance : Std.LawfulEqOrd DeclarationKey where
  eq_of_compare := by
    intro a b h
    obtain ⟨hkind, hname⟩ := compareLex_eq_eq.mp h
    have hk := DeclarationKind.rank_injective (Std.LawfulEqOrd.eq_of_compare hkind)
    have hn : a.name = b.name := Std.LawfulEqOrd.eq_of_compare hname
    cases a; cases b; cases hk; cases hn; rfl

def text (key : DeclarationKey) : String := key.kind.text ++ ":" ++ key.name

end DeclarationKey

structure Parameter where
  name : String
  type : Option String
  /-- Whether a caller may leave it out. -/
  optional : Bool
  defaultValue : Option String
deriving DecidableEq, Repr

namespace Parameter

/-- A required parameter without a type. -/
def plain (name : String) : Parameter := ⟨name, none, false, none⟩

def render (p : Parameter) : String :=
  p.name ++ (if p.optional && p.defaultValue.isNone then "?" else "") ++
    (match p.type with
      | some type => ": " ++ type
      | none => "") ++
    (match p.defaultValue with
      | some value => " = " ++ value
      | none => "")

end Parameter

structure Location where
  startOffset : UInt64
  endOffset : UInt64
  /-- Its first line, counted from one. -/
  line : UInt64
  /-- Its last line, counted from one. -/
  endLine : UInt64
deriving DecidableEq, Repr

/-- The place of a declaration of which nothing is known. -/
def Location.unknown : Location := ⟨0, 0, 0, 0⟩

structure Declaration where
  kind : DeclarationKind
  name : String
  /-- Its head in a normal form. -/
  signature : Option String
  parameters : Option (List Parameter)
  /-- Its result type, or the type of a variable. -/
  returnType : Option String
  /-- The names under which it is exported. -/
  exports : Option (List String)
  location : Location
  calls : List String
deriving DecidableEq, Repr

namespace Declaration

/-- A declaration of which only kind and name are known. -/
def bare (kind : DeclarationKind) (name : String) : Declaration :=
  ⟨kind, name, none, none, none, none, .unknown, []⟩

variable (d : Declaration)

def key : DeclarationKey := ⟨d.kind, d.name⟩

def exportNames : List String := d.exports.getD []

/-- Marks the declaration as exported under one more name. -/
def addExport (name : String) : Declaration :=
  let names := d.exportNames
  { d with exports := some (if names.contains name then names else names ++ [name]) }

def isExported : Bool := !d.exportNames.isEmpty

end Declaration

/-- Whether a module name points outside of the project. -/
def isExternalSpecifier (source : String) : Bool :=
  !(beginsWithDot source.toList)
where
  /-- Names inside the project start with a dot or a slash. -/
  beginsWithDot : List Char → Bool
    | '.' :: _ => true
    | '/' :: _ => true
    | _ => false

/-- What a module takes from another one. -/
structure Import where
  source : String
  names : List String
  /-- Whether the other module is outside of the project. -/
  isExternal : Bool
  isTypeOnly : Bool
deriving DecidableEq, Repr

def Import.of (source : String) (names : List String) (isTypeOnly : Bool) : Import :=
  ⟨source, names, isExternalSpecifier source, isTypeOnly⟩

inductive ExportKind where
  | declared (kind : DeclarationKind)
  | default
  /-- A name of another module, or one that nothing is known of. -/
  | reExport
deriving DecidableEq, Repr

structure Export where
  name : String
  kind : ExportKind
  isTypeOnly : Bool
deriving DecidableEq, Repr

structure Outline where
  path : String
  /-- The digest of the text that the outline describes. -/
  hash : String
  /-- What the file declares, in the order of the text. -/
  declarations : List Declaration
  imports : List Import
  exports : List Export
  faults : List Fault
deriving DecidableEq, Repr

namespace Outline

def empty (path hash : String) : Outline := ⟨path, hash, [], [], [], []⟩

/-- Every name that a file offers, from its export list and its marked declarations. -/
def exportNames (o : Outline) : List String :=
  sortedSet (o.exports.map (·.name) ++ o.declarations.flatMap Declaration.exportNames)

def exportedSymbols (o : Outline) : List String :=
  sortedSet ((o.declarations.filter Declaration.isExported).map (·.name))

def hasExports (o : Outline) : Bool :=
  !o.exports.isEmpty || o.declarations.any Declaration.isExported

def find? (o : Outline) (key : DeclarationKey) : Option Declaration :=
  o.declarations.find? fun d => d.key = key

end Outline

end Ripple
