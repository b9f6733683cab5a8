import Ripple.Grammar.Semicolon

/-!
# Nonterminals

The rules of the grammar call each other in circles. Each rule that is part
of a circle has a name here, and every other rule is written over a way to
read the named ones. The circle is closed once, at the end, by a bound on
the depth of the calls.
-/

namespace Ripple.Grammar

/-- Where an expression stands. -/
structure Context where
  /-- What kind of statement may end after the expression. -/
  ending : Ending
  /-- Whether a colon after a parameter list may begin the result type of an arrow function. -/
  typedArrow : Bool
deriving DecidableEq, Repr

def Context.inside : Context := ⟨.closed, true⟩

def Context.topLevel : Context := ⟨.expression, true⟩

/-- The names of the recursive rules. -/
inductive Nonterminal where
  | statement
  | block (ending : Ending)
  | expression (context : Context)
  | sequence (context : Context)
  | operand (context : Context)
  | binary (context : Context) (level : Nat)
  | construction
  | type (ending : Ending)
  | typeOperand (ending : Ending)
  | objectType (whole : Construct)
  | pattern
  | parameters
  | classBody
  | template
  | templateType
  | jsx
deriving DecidableEq, Repr

/-- A way to read every nonterminal, for one dialect. -/
structure Rules where
  jsx : Bool
  read : Nonterminal → Parser

namespace Rules

def expression (g : Rules) (context : Context) : Parser := g.read (.expression context)

def inner (g : Rules) : Parser := g.read (.expression .inside)

/-- An expression that may hold commas. -/
def sequence (g : Rules) (context : Context) : Parser := g.read (.sequence context)

def type (g : Rules) (ending : Ending) : Parser := g.read (.type ending)

def statement (g : Rules) : Parser := g.read .statement

def block (g : Rules) (ending : Ending) : Parser := g.read (.block ending)

def pattern (g : Rules) : Parser := g.read .pattern

end Rules

end Ripple.Grammar
