/-!
# Lexemes

The character classes of TypeScript source and the scanners for its atoms:
blank space, comments, names, numbers, quoted text and regular expressions.
A scanner takes the remaining characters and answers how many of them the
atom covers, split off as a list, with what follows it.
-/

namespace Ripple.Grammar

variable (c : Char)

/-- Space separators beyond ASCII. -/
def isWideSpace : Bool :=
  let n := c.toNat
  n = 0xA0 || n = 0x1680 || (0x2000 ≤ n && n ≤ 0x200B) || n = 0x2028 || n = 0x2029 || n = 0x202F ||
    n = 0x205F || n = 0x2060 || n = 0x3000 || n = 0xFEFF

def isPlainSpace : Bool :=
  c = ' ' || c = '\n' || c = '\t' || c = '\r' || c = '\x0b' || c = '\x0c'

/-- Characters that only separate tokens. -/
def isBlank : Bool := isPlainSpace c || isWideSpace c

/-- Marks that belong to no name. -/
def isMark : Bool :=
  match c with
  | ':' | ';' | '\x60' | '\x22' | '\x27' | '@' | '#' | '.' | ',' | '|' | '^' | '&' | '<' | '=' | '>'
  | '+' | '-' | '*' | '/' | '\\' | '%' | '?' | '!' | '~' | '(' | ')' | '[' | ']' | '{' | '}' => true
  | _ => false

def isNameChar : Bool := 0x20 ≤ c.toNat && !isMark c && !isBlank c

def isNameStart : Bool := isNameChar c && !c.isDigit

def isHexDigit : Bool :=
  c.isDigit || ('a' ≤ c && c ≤ 'f') || ('A' ≤ c && c ≤ 'F')

/-- A character escape inside a name: four digits, or any number in braces. -/
def scanNameEscape : List Char → Option (List Char × List Char)
  | '\\' :: 'u' :: '{' :: rest =>
    let digits := rest.takeWhile isHexDigit
    match digits, rest.dropWhile isHexDigit with
    | _ :: _, '}' :: after => some ('\\' :: 'u' :: '{' :: digits ++ ['}'], after)
    | _, _ => none
  | '\\' :: 'u' :: a :: b :: c :: d :: after =>
    if isHexDigit a && isHexDigit b && isHexDigit c && isHexDigit d then
      some (['\\', 'u', a, b, c, d], after)
    else none
  | _ => none

/-- The rest of a name, bounded by a count of steps. -/
def scanNameTail : Nat → List Char → List Char × List Char
  | 0, cs => ([], cs)
  | fuel + 1, cs =>
    let plain := cs.takeWhile isNameChar
    match scanNameEscape (cs.dropWhile isNameChar) with
    | none => (plain, cs.dropWhile isNameChar)
    | some (escape, after) =>
      let (more, rest) := scanNameTail fuel after
      (plain ++ escape ++ more, rest)

def nameEscapes : Nat := 256

variable (cs : List Char)

def scanName : Option (List Char × List Char) :=
  match cs with
  | [] => none
  | c :: _ =>
    if isNameStart c then some (scanNameTail nameEscapes cs)
    else if c = '\\' then
      match scanNameEscape cs with
      | some _ => some (scanNameTail nameEscapes cs)
      | none => none
    else none

/-- Whether a name could go on here. -/
def continuesName : List Char → Bool
  | c :: _ => isNameChar c
  | [] => false

/-- Splits off a run of digits that single underscores may divide. -/
def scanDigits (isDigit : Char → Bool) (cs : List Char) : List Char × List Char :=
  (cs.takeWhile fun c => isDigit c || c = '_', cs.dropWhile fun c => isDigit c || c = '_')

def scanExponent : List Char × List Char :=
  match cs with
  | e :: rest =>
    if e = 'e' || e = 'E' then
      let (sign, rest) := match rest with
        | '+' :: r => (['+'], r)
        | '-' :: r => (['-'], r)
        | r => ([], r)
      let (digits, after) := scanDigits Char.isDigit rest
      if digits.isEmpty then ([], cs) else (e :: sign ++ digits, after)
    else ([], cs)
  | [] => ([], [])

/-- The mark of a big integer, if it follows. -/
def scanBig : List Char → List Char × List Char
  | 'n' :: rest => (['n'], rest)
  | cs => ([], cs)

/-- A number with a base mark such as `0x`. -/
def scanBased (mark : Char) (isDigit : Char → Bool) (lead : Char) (cs : List Char) :
    List Char × List Char :=
  let (digits, rest) := scanDigits isDigit cs
  let (big, after) := scanBig rest
  (lead :: mark :: digits ++ big, after)

def scanDecimal : List Char × List Char :=
  let (whole, rest) := scanDigits Char.isDigit cs
  match rest with
  | '.' :: after =>
    let (fraction, rest) := scanDigits Char.isDigit after
    let (exponent, rest) := scanExponent rest
    (whole ++ '.' :: fraction ++ exponent, rest)
  | 'n' :: after => (whole ++ ['n'], after)
  | _ =>
    let (exponent, rest) := scanExponent rest
    (whole ++ exponent, rest)

def scanNumber : Option (List Char × List Char) :=
  match cs with
  | '0' :: 'x' :: rest => some (scanBased 'x' isHexDigit '0' rest)
  | '0' :: 'X' :: rest => some (scanBased 'X' isHexDigit '0' rest)
  | '0' :: 'b' :: rest => some (scanBased 'b' (fun c => c = '0' || c = '1') '0' rest)
  | '0' :: 'B' :: rest => some (scanBased 'B' (fun c => c = '0' || c = '1') '0' rest)
  | '0' :: 'o' :: rest => some (scanBased 'o' (fun c => '0' ≤ c && c ≤ '7') '0' rest)
  | '0' :: 'O' :: rest => some (scanBased 'O' (fun c => '0' ≤ c && c ≤ '7') '0' rest)
  | '.' :: c :: _ => if c.isDigit then some (scanDecimal cs) else none
  | c :: _ => if c.isDigit then some (scanDecimal cs) else none
  | [] => none

/-- Whether a character ends a line for a line comment. -/
def isLineEnd : Bool := c = '\n' || c = '\r' || c.toNat = 0x2028 || c.toNat = 0x2029

/-- The inside of a block comment up to and with its closing mark. -/
def scanBlockBody : List Char → Option (List Char × List Char)
  | '*' :: '/' :: rest => some (['*', '/'], rest)
  | c :: rest => (scanBlockBody rest).map fun (body, after) => (c :: body, after)
  | [] => none

/-- A comment at the front, if there is a complete one. -/
def scanComment : List Char → Option (List Char × List Char)
  | '/' :: '/' :: rest =>
    some ('/' :: '/' :: rest.takeWhile (!isLineEnd ·), rest.dropWhile (!isLineEnd ·))
  | '/' :: '*' :: rest => (scanBlockBody rest).map fun (body, after) => ('/' :: '*' :: body, after)
  | _ => none

/-- The body of a regular expression, up to its closing slash; a slash inside brackets belongs
to the body. -/
def scanRegexBody (inBrackets : Bool) : List Char → Option (List Char × List Char)
  | [] => none
  | '\\' :: c :: rest =>
    if isLineEnd c then none
    else (scanRegexBody inBrackets rest).map fun (body, after) => ('\\' :: c :: body, after)
  | c :: rest =>
    if isLineEnd c then none
    else if c = '/' && !inBrackets then some ([], c :: rest)
    else
      let inside := if c = '[' then true else if c = ']' then false else inBrackets
      (scanRegexBody inside rest).map fun (body, after) => (c :: body, after)

/-- What follows blank space and comments; an unfinished comment swallows the rest. -/
def afterTrivia : List Char → List Char
  | [] => []
  | '/' :: '/' :: rest => afterLineComment rest
  | '/' :: '*' :: rest => afterBlockComment rest
  | c :: rest => if isPlainSpace c then afterTrivia rest else c :: rest
where
  /-- Goes on after the end of the line. -/
  afterLineComment : List Char → List Char
    | [] => []
    | c :: rest => if isLineEnd c then afterTrivia rest else afterLineComment rest
  /-- Goes on after the closing mark. -/
  afterBlockComment : List Char → List Char
    | [] => []
    | '*' :: '/' :: rest => afterTrivia rest
    | _ :: rest => afterBlockComment rest

end Ripple.Grammar
