import Ripple.Toml.Lexeme

/-!
# TOML Documents

A document is read line by line into a tree of tables. A table may be opened
once by its header, and by keys with points only as long as no header names
it; tables that only lie on the way to others stay open. What is written
between braces or brackets is closed.
-/

namespace Ripple.Toml

mutual

/-- What stands under a key while the document is read. -/
inductive Node where
  | closed (value : Toml)
  | single (table : Table)
  | many (tables : List Table)

inductive Table where
  /-- Whether it only lies on the way to another, whether a key with points made it, and what it
  holds. -/
  | mk (implicit dotted : Bool) (entries : List (String × Node))

end

namespace Table

def implicit : Table → Bool
  | mk i _ _ => i

/-- Whether a key with points made a table. -/
def dotted : Table → Bool
  | mk _ d _ => d

def entries : Table → List (String × Node)
  | mk _ _ es => es

def fresh (implicit dotted : Bool) : Table := mk implicit dotted []

def find? (t : Table) (key : String) : Option Node := t.entries.lookup key

def put (t : Table) (key : String) (node : Node) : Table :=
  mk t.implicit t.dotted
    (if (t.find? key).isSome then
      t.entries.map fun entry => if entry.1 = key then (key, node) else entry
    else t.entries ++ [(key, node)])

/-- Changes the table at a path, making tables on the way; a key with points opens no table that a
header opened. -/
def changeAt? (dotted : Bool) (change : Table → Option Table) : List String → Table → Option Table
  | [], t => change t
  | key :: path, t =>
    match t.find? key with
    | none => do
      let inner ← changeAt? dotted change path (fresh true dotted)
      return t.put key (.single inner)
    | some (.closed _) => none
    | some (.single inner) =>
      if dotted && !inner.implicit then none
      else do
        let inner ← changeAt? dotted change path inner
        return t.put key (.single inner)
    | some (.many tables) => do
      let last ← tables.getLast?
      let inner ← changeAt? dotted change path last
      return t.put key (.many (tables.dropLast ++ [inner]))

def add? (path : List String) (key : String) (value : Toml) (t : Table) : Option Table :=
  t |> changeAt? true
    (fun t =>
      if t.dotted = path.isEmpty || (t.find? key).isSome then none
      else some (t.put key (.closed value)))
    path

def openAt? (path : List String) (key : String) (root : Table) : Option Table :=
  root |> changeAt? false
    (fun t =>
      match t.find? key with
      | none => some (t.put key (.single (fresh false false)))
      | some (.single inner) =>
        if inner.implicit && !inner.dotted then
          some (t.put key (.single (mk false false inner.entries)))
        else none
      | _ => none)
    path

/-- Adds a table to the list that a header names. -/
def appendAt? (path : List String) (key : String) (root : Table) : Option Table :=
  root |> changeAt? false
    (fun t =>
      match t.find? key with
      | none => some (t.put key (.many [fresh false false]))
      | some (.many tables) => some (t.put key (.many (tables ++ [fresh false false])))
      | _ => none)
    path

end Table

mutual

def Node.toToml : Node → Toml
  | .closed value => value
  | .single inner => .table inner.fields
  | .many inner => .array (tablesToToml inner)

def Table.fields : Table → List (String × Toml)
  | .mk _ _ entries => entriesToToml entries

def tablesToToml : List Table → List Toml
  | [] => []
  | t :: rest => .table t.fields :: tablesToToml rest

def entriesToToml : List (String × Node) → List (String × Toml)
  | [] => []
  | (key, node) :: rest => (key, node.toToml) :: entriesToToml rest

end

/-- A key with a value after it. -/
def pair? (value : Step Toml) : Step ((List String × String) × Toml) := fun cs => do
  let (key, rest) ← key? cs
  let rest ← char? '=' (skipBlanks rest)
  let (v, rest) ← value (skipBlanks rest)
  return ((key, v), rest)

/-- The items of an array up to its closing bracket; those read come last first. -/
def arrayItems? (value : Step Toml) : Nat → List Toml → Step (List Toml)
  | 0, _, _ => none
  | fuel + 1, found, cs =>
    match skipLines cs.length cs with
    | ']' :: rest => some (found.reverse, rest)
    | cs => do
      let (item, rest) ← value cs
      match skipLines rest.length rest with
      | ',' :: rest => arrayItems? value fuel (item :: found) rest
      | ']' :: rest => return ((item :: found).reverse, rest)
      | _ => none

/-- The fields of a table between braces, from the first one on. -/
def inlineFields? (value : Step Toml) : Nat → Table → Step Table
  | 0, _, _ => none
  | fuel + 1, t, cs => do
    let (((path, key), v), rest) ← pair? value (skipBlanks cs)
    let t ← t.add? path key v
    match skipBlanks rest with
    | ',' :: rest => inlineFields? value fuel t rest
    | '\x7d' :: rest => return (t, rest)
    | _ => none

/-- A value, nested to a depth. -/
def value? : Nat → Step Toml
  | 0, _ => none
  | depth + 1, cs =>
    match cs with
    | '[' :: rest =>
      (arrayItems? (value? depth) (rest.length + 1) [] rest).map fun (items, rest) =>
        (.array items, rest)
    | '\x7b' :: rest =>
      match skipBlanks rest with
      | '\x7d' :: rest => some (.table [], rest)
      | rest =>
        (inlineFields? (value? depth) (rest.length + 1) (.fresh false false) rest).map
          fun (t, rest) => (.table t.fields, rest)
    | _ => scalar? cs

/-- The document so far: its table and where the next values go. -/
structure Reading where
  root : Table
  /-- The path of the table that is open. -/
  current : List String

def header? (state : Reading) (cs : List Char) : Option (Reading × List Char) :=
  match cs with
  | '[' :: '[' :: rest => do
    let ((path, key), rest) ← key? (skipBlanks rest)
    let rest ← char? ']' (skipBlanks rest)
    let rest ← char? ']' rest
    return (⟨← state.root.appendAt? path key, path ++ [key]⟩, rest)
  | '[' :: rest => do
    let ((path, key), rest) ← key? (skipBlanks rest)
    let rest ← char? ']' (skipBlanks rest)
    return (⟨← state.root.openAt? path key, path ++ [key]⟩, rest)
  | _ => none

def setting? (state : Reading) (cs : List Char) : Option (Reading × List Char) := do
  let (((path, key), v), rest) ← pair? (value? maxDepth) cs
  let root ← state.root.changeAt? false (Table.add? path key v) state.current
  return (⟨root, state.current⟩, rest)

def lines? : Nat → Reading → List Char → Option Table
  | 0, _, _ => none
  | fuel + 1, state, cs =>
    match skipBlanks cs with
    | [] => some state.root
    | '#' :: rest => do lines? fuel state (← endLine? ('#' :: rest))
    | '[' :: rest => do
      let (state, rest) ← header? state ('[' :: rest)
      lines? fuel state (← endLine? rest)
    | cs =>
      match lineEnd? cs with
      | some rest => lines? fuel state rest
      | none => do
        let (state, rest) ← setting? state cs
        lines? fuel state (← endLine? rest)

def document? (source : String) : Option Toml :=
  let cs := match source.toList with
    | '\uFEFF' :: rest => rest
    | cs => cs
  (lines? (cs.length + 1) ⟨.fresh false false, []⟩ cs).map fun t => .table t.fields

end Ripple.Toml
