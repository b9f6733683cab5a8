import Ripple.Grammar.Statements

/-!
# Programs

The circle of rules is closed by a bound on how deep they call each other. A
text of a given length cannot need more than a fixed multiple of it, so the
bound is taken from the text.
-/

namespace Ripple.Grammar

/-- The rule of each nonterminal. -/
def rule (g : Rules) : Nonterminal → Parser
  | .statement => statementRule g
  | .block ending => blockRule g ending
  | .expression context => expressionRule g context
  | .sequence context => sequenceRule g context
  | .operand context => operandRule g context
  | .binary context level => binaryRule g context level
  | .construction => constructionRule g
  | .type ending => typeRule g ending
  | .typeOperand ending => typeOperandRule g ending
  | .objectType whole => objectTypeRule g whole
  | .pattern => patternRule g
  | .parameters => parametersRule g
  | .classBody => classBodyRule g
  | .template => templateRule g
  | .templateType => templateTypeRule g
  | .jsx => markupRule g

/-- Reads every nonterminal, with calls nested up to a depth. -/
def reader (jsx : Bool) : Nat → Nonterminal → Parser
  | 0, _ => Parser.refuse
  | depth + 1, nonterminal => fun c => rule ⟨jsx, reader jsx depth⟩ nonterminal c

/-- How many nested calls one character of text can cause. -/
def depthPerChar : Nat := 16

/-- A way to read every nonterminal in a text of a given length. -/
def rules (jsx : Bool) (length : Nat) : Rules := ⟨jsx, reader jsx (depthPerChar * (length + 4))⟩

inductive Reading where
  | complete (tree : Tree)
  | stuck (reached : Nat)

def programTree (items : Items) (final : Position) : Tree :=
  ⟨.construct .program, none, (items.head?.map (·.start)).getD .origin, final,
    items.any (·.hasError), items⟩

def readProgram (jsx : Bool) (source : List Char) (repairs : List Repair) : Reading :=
  let g := rules jsx source.length
  match programRule g (Cursor.start source repairs) with
  | .fail reached => .stuck reached
  | .ok items after =>
    if after.atEnd then .complete (programTree (items ++ after.leading) after.here)
    else .stuck (max after.reached after.here.offset)

end Ripple.Grammar
