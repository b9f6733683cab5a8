import Ripple.Grammar.Expressions

/-!
# Imports and Exports

The statements by which a module names what it takes from others and what it
offers. Any word may name an export, so a keyword such as `default` is a name
where a name is asked for.
-/

namespace Ripple.Grammar

open Parser

/-- The name of an export: any word, or text. -/
def exportName : Parser := quoted <|> nameAs .identifier []

def fromClause : Parser := word "from" ++ labelled .source quoted

def typeMark : Parser := anyWord ["type", "typeof"]

def importSpecifier : Parser :=
  let renamed := labelled .name exportName ++ word "as" ++ labelled .alias anyName
  let plain := labelled .name (nameAs .identifier [])
  node .importSpecifier
    ((typeMark ++ renamed) <|> renamed <|> (typeMark ++ plain) <|> plain)

def namedImports : Parser :=
  node .namedImports
    (between "\x7b" "\x7d" (sepBy importSpecifier comma ++ opt comma))

def namespaceImport : Parser :=
  node .namespaceImport (punct "*" ++ word "as" ++ anyName)

def importClause : Parser :=
  node .importClause
    (namespaceImport <|> namedImports <|>
      (anyName ++ opt (comma ++ (namespaceImport <|> namedImports))))

/-- A module taken under a name by a call. -/
def importRequire : Parser :=
  node .importRequireClause
    (anyName ++ punct "=" ++ word "require" ++ between "(" ")" (labelled .source quoted))

def importAttribute (g : Rules) : Parser :=
  node .importAttribute ((word "with" <|> word "assert") ++ objectLiteral g)

def importStatement (g : Rules) : Parser :=
  let taken := (importClause ++ fromClause) <|> importRequire <|> labelled .source quoted
  node .importStatement
    (word "import" ++ ((typeMark ++ taken) <|> taken) ++ opt (continuing .type (importAttribute g)) ++
      semicolon .type)

def dottedName : Parser := dotted .nestedIdentifier anyName

/-- A short name for a dotted one. -/
def importAlias : Parser :=
  node .importAlias (word "import" ++ anyName ++ punct "=" ++ dottedName ++ semicolon .type)

def exportSpecifier : Parser :=
  let renamed := labelled .name exportName ++ word "as" ++ labelled .alias exportName
  let plain := labelled .name exportName
  node .exportSpecifier
    ((typeMark ++ renamed) <|> renamed <|> (typeMark ++ plain) <|> plain)

def exportClause : Parser :=
  node .exportClause (between "\x7b" "\x7d" (sepBy exportSpecifier comma ++ opt comma))

def namespaceExport : Parser :=
  node .namespaceExport (punct "*" ++ word "as" ++ exportName)

/-- Names of another module, or of this one. -/
def reexport : Parser :=
  ((namespaceExport ++ fromClause) <|> (punct "*" ++ fromClause) <|>
      (exportClause ++ continuing .type fromClause) <|> exportClause) ++
    semicolon .type

def defaultExport (g : Rules) (declaration : Parser) : Parser :=
  word "default" ++
    (labelled .declaration declaration <|>
      (labelled .value (g.expression .topLevel) ++ semicolon .expression))

/-- What follows the word `export`, given the rule for declarations. -/
def exported (g : Rules) (declaration : Parser) : Parser :=
  reexport <|> defaultExport g declaration <|>
    (word "type" ++ exportClause ++ opt (continuing .type fromClause) ++ semicolon .type) <|>
    (onlyIf (atWord "import") importAlias) <|>
    (punct "=" ++ g.expression .topLevel ++ semicolon .expression) <|>
    (word "as" ++ word "namespace" ++ anyName ++ semicolon .type) <|>
    labelled .declaration declaration

def exportStatement (g : Rules) (declaration : Parser) : Parser :=
  node .exportStatement
    (many (decorator g) ++ softWord "export" ++ exported g declaration)

end Ripple.Grammar
