import Ripple.Text.Blank
import Ripple.Text.Digits

/-!
# Command Lines

The arguments of the program. First comes what concerns the whole program,
then the name of a command, then its own arguments; what concerns the whole
program may also stand among those, and then counts before what stands
earlier. An option takes its value after an equals sign or from the next
argument, and stands once at most. After two dashes everything is a value.
-/

namespace Ripple

inductive ValueKind where
  | text
  /-- The path of a file; it is not empty. -/
  | path
  | count
deriving DecidableEq, Repr

structure CommandShape where
  name : String
  flags : List String
  options : List (String × ValueKind)
  values : List ValueKind
  /-- The kind of further values, if there has to be at least one. -/
  more : Option ValueKind
deriving DecidableEq, Repr

structure Arguments where
  flags : List String
  options : List (String × String)
  values : List String
deriving DecidableEq, Repr

inductive Request where
  | command (name : String) (arguments : Arguments)
  | version
  | help
  | misuse
deriving DecidableEq, Repr

def ValueKind.admits (kind : ValueKind) (value : String) : Bool :=
  match kind with
  | text => true
  | path => value ≠ ""
  | count => (uint64OfText? value.toList).isSome

namespace Arguments

def empty : Arguments := ⟨[], [], []⟩

variable (a : Arguments)

def has (flag : String) : Bool := a.flags.contains flag

def option? (name : String) : Option String :=
  (a.options.find? fun o => o.1 = name).map Prod.snd

def count (name : String) (fallback : Nat) : Nat :=
  (((a.option? name).bind fun s => uint64OfText? s.toList).map UInt64.toNat).getD fallback

def value (place : Nat) : String := a.values.getD place ""

end Arguments

/-- The options that concern the whole program. -/
def globalOptions : List (String × ValueKind) := [("root", .path), ("config", .path)]

def commandShapes : List CommandShape :=
  [⟨"health", [], [], [], none⟩, ⟨"scan", [], [], [], none⟩, ⟨"snapshot", [], [], [], none⟩,
    ⟨"analyze", [], [], [], some .path⟩, ⟨"impact", ["dfs"], [], [.text], none⟩,
    ⟨"graph", ["cycles", "sccs", "clusters"], [], [], none⟩,
    ⟨"breaking", ["advise"], [], [], none⟩, ⟨"compare", [], [], [.text, .text], none⟩,
    ⟨"history", [], [("offset", .count), ("limit", .count), ("tag", .text)], [], none⟩,
    ⟨"show", [], [], [.text], none⟩, ⟨"trend", [], [], [], none⟩,
    ⟨"tag", [], [("description", .text)], [.text], some .text⟩,
    ⟨"export", [], [], [.text, .path], none⟩, ⟨"import", [], [], [.path], none⟩,
    ⟨"maintain", [], [], [], none⟩, ⟨"restore", [], [], [.text], none⟩,
    ⟨"advisories", [], [("file", .text)], [], none⟩, ⟨"callers", [], [], [.text], none⟩,
    ⟨"callees", [], [], [.text], none⟩,
    ⟨"paths", [], [("max-depth", .count)], [.text, .text], none⟩,
    ⟨"changed", ["analyze"], [("base", .text)], [], none⟩,
    ⟨"diff", [], [("base", .text)], [.text], none⟩]

/-- The arguments of the program before the name of a command. -/
def programShape : CommandShape := ⟨"", [], globalOptions, [], none⟩

namespace CommandShape

def optionKind? (shape : CommandShape) (name : String) : Option ValueKind :=
  ((shape.options ++ globalOptions).find? fun o => o.1 = name).map Prod.snd

def valueKind? (shape : CommandShape) (place : Nat) : Option ValueKind :=
  match shape.values[place]? with
  | some kind => some kind
  | none => shape.more

def isComplete (shape : CommandShape) (a : Arguments) : Bool :=
  shape.values.length + (if shape.more.isSome then 1 else 0) ≤ a.values.length

end CommandShape

/-- The name of an option and the value that stands with it. -/
def splitOption (argument : String) : String × Option String :=
  let body := argument.toList.drop 2
  match body.dropWhile (· ≠ '=') with
  | [] => (String.ofList body, none)
  | _ :: value => (String.ofList (body.takeWhile (· ≠ '=')), some (String.ofList value))

def isOption (argument : String) : Bool := beginsWith argument "-" && argument ≠ "-"

def Arguments.setOption? (a : Arguments) (kind : ValueKind) (name value : String) :
    Option Arguments :=
  if kind.admits value && (a.option? name).isNone then
    some { a with options := a.options ++ [(name, value)] }
  else none

def Arguments.setFlag? (a : Arguments) (name : String) : Option Arguments :=
  if a.has name then none else some { a with flags := a.flags ++ [name] }

def Arguments.addValue? (a : Arguments) (shape : CommandShape) (value : String) :
    Option Arguments :=
  match shape.valueKind? a.values.length with
  | some kind => if kind.admits value then some { a with values := a.values ++ [value] } else none
  | none => none

/-- What is made of the arguments of a command. -/
inductive Reading where
  | complete (arguments : Arguments)
  | help
  | misuse

def readArguments (shape : CommandShape) : Bool → Arguments → List String → Reading
  | _, a, [] => if shape.isComplete a then .complete a else .misuse
  | true, a, argument :: rest =>
    match a.addValue? shape argument with
    | some a => readArguments shape true a rest
    | none => .misuse
  | false, a, argument :: rest =>
    if argument = "--" then readArguments shape true a rest
    else if beginsWith argument "--" then
      match splitOption argument, rest with
      | ("help", none), _ => .help
      | (name, none), rest =>
        if shape.flags.contains name then
          match a.setFlag? name with
          | some a => readArguments shape false a rest
          | none => .misuse
        else
          match shape.optionKind? name, rest with
          | some kind, value :: rest =>
            if isOption value then .misuse
            else
              match a.setOption? kind name value with
              | some a => readArguments shape false a rest
              | none => .misuse
          | _, _ => .misuse
      | (name, some value), rest =>
        match shape.optionKind? name with
        | none => .misuse
        | some kind =>
          match a.setOption? kind name value with
          | some a => readArguments shape false a rest
          | none => .misuse
    else if isOption argument then if beginsWith argument "-h" then .help else .misuse
    else
      match a.addValue? shape argument with
      | some a => readArguments shape false a rest
      | none => .misuse

namespace Request

/-- Reads what follows the name of a command; options before it count if they are not repeated. -/
def ofCommand (before : Arguments) (name : String) (rest : List String) : Request :=
  match commandShapes.find? fun s => s.name = name with
  | none => if name = "help" then help else misuse
  | some shape =>
    match readArguments shape false .empty rest with
    | .complete a => command name { a with options := a.options ++ before.options }
    | .help => help
    | .misuse => misuse

/-- Reads a command line after some options for the whole program. -/
def ofArgumentsAfter (before : Arguments) : List String → Request
  | [] => misuse
  | argument :: rest =>
    if argument = "--version" || beginsWith argument "-V" then version
    else if argument = "--help" || beginsWith argument "-h" then help
    else if beginsWith argument "--" then
      match splitOption argument, rest with
      | (name, none), value :: rest =>
        match programShape.optionKind? name with
        | none => misuse
        | some kind =>
          if isOption value then misuse
          else
            match before.setOption? kind name value with
            | some before => ofArgumentsAfter before rest
            | none => misuse
      | (_, none), [] => misuse
      | (name, some value), rest =>
        match programShape.optionKind? name with
        | none => misuse
        | some kind =>
          match before.setOption? kind name value with
          | some before => ofArgumentsAfter before rest
          | none => misuse
    else if isOption argument then misuse
    else ofCommand before argument rest

def ofArguments (arguments : List String) : Request := ofArgumentsAfter .empty arguments

end Request

end Ripple
