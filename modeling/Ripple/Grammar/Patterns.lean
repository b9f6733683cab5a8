import Ripple.Grammar.Types

/-!
# Patterns and Parameters

Patterns bind names to parts of a value; they stand on the left of
declarations and assignments and in parameter lists.
-/

namespace Ripple.Grammar

open Parser

variable (g : Rules)

/-- A value after an equals sign. -/
def initializer (context : Context) : Parser :=
  punct "=" ++ labelled .value (g.expression context)

/-- A pattern, with a value to fall back on or without one. -/
def patternOrDefault : Parser :=
  extended g.pattern fun items =>
    node .assignmentPattern (givenAs .left items ++ punct "=" ++ labelled .right g.inner)

def restPattern (g : Rules) : Parser := node .restPattern (punct "..." ++ g.pattern)

/-- A name that stands for the member of the same name. -/
def shorthandPattern : Parser := nameAs .shorthandPattern []

def objectPatternMember : Parser :=
  restPattern g <|>
    node .pairPattern
      (propertyName g ++ punct ":" ++ labelled .value (patternOrDefault g)) <|>
    node .objectAssignmentPattern
      (labelled .left shorthandPattern ++ punct "=" ++ labelled .right g.inner) <|>
    shorthandPattern

def objectPattern (g : Rules) : Parser :=
  node .objectPattern
    (between "\x7b" "\x7d" (sepBy (opt (objectPatternMember g)) comma))

def arrayPattern (g : Rules) : Parser :=
  node .arrayPattern
    (between "[" "]"
      (sepBy (opt (restPattern g <|> patternOrDefault g)) comma))

def destructuring : Parser := choose fun c =>
  if c.peek = '{' then objectPattern g else if c.peek = '[' then arrayPattern g else refuse

/-- A name, or a member reached from one. -/
def targetChain : Parser :=
  chain (wordAs .thisName "this" <|> identifierOrUndefined) fun items =>
    node .memberExpression
        (givenAs .object items ++ punct "." ++ labelled .property (privateName <|> memberWord)) <|>
      node .subscriptExpression
        (givenAs .object items ++ between "[" "]" (g.sequence .inside)) <|>
      node .nonNullExpression
        (given items ++ onlyIf (fun c => (strip? ['!', '='] c.rest).isNone) (punct "!"))

def patternRule : Parser := choose fun c =>
  if c.peek = '{' || c.peek = '[' then destructuring g else targetChain g

def binding : Parser := destructuring g <|> anyName

def decorator (g : Rules) : Parser :=
  let path : Parser := dotted .memberExpression anyName
  let arguments := opt (typeArguments g) ++
    labelled .arguments
      (node .arguments (between "(" ")"
        (sepBy (opt (node .spreadElement (punct "..." ++ g.inner) <|> g.inner)) comma)))
  node .decorator
    (punct "@" ++
      (node .parenthesizedExpression (between "(" ")" (g.sequence .inside)) <|>
        chain path fun items =>
          node .callExpression (givenAs .function items ++ arguments) <|>
            node .memberExpression (given items ++ punct "." ++ memberWord)))

/-- A keyword in front of a parameter, where a parameter still follows. -/
def parameterModifier (construct : Option Construct) (texts : List String) : Parser := fun c =>
  match texts.find? (atWord · c) with
  | none => refuse c
  | some text =>
    let read := match construct with
      | some k => wordAs k text
      | none => word text
    match read c with
    | .fail reached => .fail reached
    | .ok items after =>
      if (scanName after.rest).isSome || after.peek = '{' || after.peek = '[' then .ok items after
      else refuse c

/-- What stands in front of a parameter's pattern. -/
def parameterHead : Parser :=
  many (decorator g) ++
    opt (parameterModifier (some .accessibilityModifier) ["public", "private", "protected"]) ++
    opt (parameterModifier (some .overrideModifier) ["override"]) ++
    opt (parameterModifier none ["readonly"]) ++
    labelled .pattern (restPattern g <|> wordAs .thisName "this" <|> g.pattern)

/-- What stands after a parameter's pattern. -/
def parameterTail : Parser :=
  opt (labelled .type (colonType g .closed)) ++ opt (initializer g .inside)

def parameter : Parser := fun c =>
  match parameterHead g c with
  | .fail reached => .fail reached
  | .ok head after =>
    (node .optionalParameter (given head ++ punct "?" ++ parameterTail g) <|>
      node .requiredParameter (given head ++ parameterTail g)) after

def parametersRule : Parser :=
  node .formalParameters
    (between "(" ")" (sepBy (parameter g) comma ++ opt comma))

end Ripple.Grammar
