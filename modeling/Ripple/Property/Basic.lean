import Ripple.Outline.Basic

/-!
# Property Graphs

Files and declarations as the nodes of one graph, joined by what they
contain, follow, mention, call, import and export. A node is known by its
id: a file by its path, a declaration by its path, kind and name.
-/

namespace Ripple

/-- What a node of a property graph stands for. -/
inductive NodeKind where
  | file | function | classType | value | type
deriving DecidableEq, Repr

namespace NodeKind

def all : List NodeKind := [file, function, classType, value, type]

def text : NodeKind → String
  | file => "file"
  | function => "function"
  | classType => "class"
  | value => "variable"
  | type => "type"

/-- The kind of node that stands for a kind of declaration. -/
def ofDeclaration : DeclarationKind → NodeKind
  | .function => function
  | .classType => classType
  | .value => value
  | .interface | .typeAlias | .enumeration => type

end NodeKind

/-- How one node is joined to another. -/
inductive Relation where
  | contains
  /-- A declaration comes before the next one of its file. -/
  | precedes
  | mentions
  | calls
  | imports
  | exports
deriving DecidableEq, Repr

namespace Relation

def all : List Relation := [contains, precedes, mentions, calls, imports, exports]

def rank : Relation → Nat
  | contains => 0
  | precedes => 1
  | mentions => 2
  | calls => 3
  | imports => 4
  | exports => 5

theorem rank_injective {a b : Relation} (h : a.rank = b.rank) : a = b := by
  cases a <;> cases b <;> first | rfl | cases h

def text : Relation → String
  | contains => "syntax"
  | precedes => "control_flow"
  | mentions => "data_flow"
  | calls => "call"
  | imports => "import"
  | exports => "export"

end Relation

structure Link where
  source : String
  target : String
  relation : Relation
deriving DecidableEq, Repr

namespace Link

def order : Link → Link → Ordering :=
  compareLex (compareOn fun l => l.source)
    (compareLex (compareOn fun l => l.target) (compareOn fun l => l.relation.rank))

instance : Ord Link := ⟨order⟩

instance : Std.TransOrd Link :=
  inferInstanceAs (Std.TransCmp (compareLex (compareOn fun l : Link => l.source)
    (compareLex (compareOn fun l : Link => l.target) (compareOn fun l : Link => l.relation.rank))))

instance : Std.LawfulEqOrd Link where
  eq_of_compare := by
    intro a b h
    obtain ⟨hsource, hrest⟩ := compareLex_eq_eq.mp h
    obtain ⟨htarget, hrelation⟩ := compareLex_eq_eq.mp hrest
    have hs : a.source = b.source := Std.LawfulEqOrd.eq_of_compare hsource
    have ht : a.target = b.target := Std.LawfulEqOrd.eq_of_compare htarget
    have hr := Relation.rank_injective (Std.LawfulEqOrd.eq_of_compare hrelation)
    cases a; cases b; cases hs; cases ht; cases hr; rfl

end Link

/-- A file or a declaration. -/
structure PropertyNode where
  id : String
  kind : NodeKind
  /-- The path of the file, or the name of the declaration. -/
  name : String
  /-- The file that it is or belongs to. -/
  file : String
  line : UInt64
  exported : Bool
deriving DecidableEq, Repr

/-- Files and declarations with what joins them. -/
structure PropertyGraph where
  nodes : Dict String PropertyNode
  links : List Link
  /-- The ids of each file and of its declarations. -/
  fileIndex : Dict String (List String)
deriving DecidableEq

def fileId (path : String) : String := "file:" ++ path

def declarationId (path : String) (d : Declaration) : String := path ++ "#" ++ d.key.text

end Ripple
