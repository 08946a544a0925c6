import StyleGate.Token
import StyleGate.Text.Blank
import StyleGate.Lexeme.Numeric
import StyleGate.Lexeme.Quoted
import StyleGate.Lexeme.Url

/-!
# Lexemes

A stylesheet is cut into lexemes: comments, and what is to become a token. `Lexeme.read` reads the
one at the front of a text, `lexemes` all of them, each with its source text; put together again the
source texts are the stylesheet (`flatMap_source_lexemes`). What a lexeme is depends on nothing
before it, so groups and positions play no role here.
-/

namespace StyleGate

open Text

/-- What a stylesheet is cut into. -/
inductive Lexeme where
  | comment
  | token (kind : TokenKind) (value : List Char)
deriving DecidableEq, Repr

namespace Lexeme

/-- The length of a comment after its opening `/*`, with its end. -/
def commentLength : List Char → Nat
  | '*' :: '/' :: _ => 2
  | _ :: rest => 1 + commentLength rest
  | [] => 0

/-- The number, percentage or dimension at the front of a text, and its length. -/
def numeric (text : List Char) : Lexeme × Nat :=
  let (n, taken) := numeral text
  let rest := text.drop taken
  if rest.head? == some '%' then (.token .percentage (n.percentageText ++ ['%']), taken + 1)
  else if startsName rest then
    let (unit, m) := name rest
    (.token .dimension (n.numberText ++ unitText unit), taken + m)
  else (.token .number n.numberText, taken)

/-- The identifier, function or url at the front of a text, and its length. -/
def identLike (text : List Char) : Lexeme × Nat :=
  let (value, taken) := name text
  match text.drop taken with
  | '(' :: rest =>
    if value.map foldChar == ['u', 'r', 'l'] then
      match urlContent rest with
      | .quoted => (.token .function value, taken + 1)
      | .plain url n => (.token .url url, taken + 1 + n)
      | .spoilt source n => (.token .badUrl source, taken + 1 + n)
    else (.token .function value, taken + 1)
  | _ => (.token .ident value, taken)

/-- The string after an opening quote, and its length with that quote. -/
def string (quote : Char) (rest : List Char) : Lexeme × Nat :=
  let (value, broken, taken) := quoted quote rest
  (.token (if broken then .badString else .string) value, 1 + taken)

/-- The hash after a `#`, and its length with that sign. -/
def hash (rest : List Char) : Lexeme × Nat :=
  let named := match rest with
    | c :: _ => startsName rest || isDigit c || c == '-'
    | [] => false
  if named then
    let (value, taken) := name rest
    (.token .hash value, 1 + taken)
  else (.token .delim ['#'], 1)

/-- The at-keyword after an `@`, and its length with that sign. -/
def atKeyword (rest : List Char) : Lexeme × Nat :=
  if startsName rest then
    let (value, taken) := name rest
    (.token .atKeyword value, 1 + taken)
  else (.token .delim ['@'], 1)

/-- Punctuation that is one character long and always a token of its own. -/
def punctuation? : Char → Option TokenKind
  | '(' => some .leftParen
  | ')' => some .rightParen
  | '[' => some .leftBracket
  | ']' => some .rightBracket
  | '\x7b' => some .leftBrace
  | '\x7d' => some .rightBrace
  | ',' => some .comma
  | ':' => some .colon
  | ';' => some .semicolon
  | _ => none

/-- What a character and an equals sign after it make together. -/
def matcher? : Char → Option TokenKind
  | '~' => some .includeMatch
  | '|' => some .dashMatch
  | '^' => some .prefixMatch
  | '$' => some .suffixMatch
  | '*' => some .substringMatch
  | _ => none

/-- What a character is that starts nothing longer. -/
def single (c : Char) : Lexeme × Nat := (.token .delim [c], 1)

/-- The lexeme at the front of a text that starts with the given character, and its length. -/
def read (c : Char) (rest : List Char) : Lexeme × Nat :=
  let text := c :: rest
  if isSpace c then
    let value := text.takeWhile isSpace
    (.token .whitespace value, value.length)
  else if c == '"' || c == '\'' then string c rest
  else if c == '#' then hash rest
  else if c == '@' then atKeyword rest
  else if let some kind := punctuation? c then (.token kind [], 1)
  else if startsNumber text then numeric text
  else if c == '/' && rest.head? == some '*' then
    (.comment, 2 + commentLength (rest.drop 1))
  else if "<!--".toList.isPrefixOf text then (.token .cdo [], 4)
  else if "-->".toList.isPrefixOf text then (.token .cdc [], 3)
  else if startsName text then identLike text
  else
    match matcher? c, rest.head? with
    | some kind, some '=' => (.token kind [], 2)
    | _, _ => single c

end Lexeme

/-- A lexeme and the text it was read from. -/
structure Sourced where
  lexeme : Lexeme
  source : List Char
deriving DecidableEq, Repr

/-- The lexemes of a text, in order, behind those already read, which are given last one first. -/
def Lexeme.readAll (sofar : List Sourced) (text : List Char) : List Sourced :=
  match text with
  | [] => sofar.reverse
  | c :: rest =>
    let (lexeme, n) := Lexeme.read c rest
    readAll (⟨lexeme, c :: rest.take (n - 1)⟩ :: sofar) (rest.drop (n - 1))
termination_by text.length
decreasing_by simp only [List.length_drop, List.length_cons]; omega

/-- The lexemes of a text, in order. -/
def lexemes (text : List Char) : List Sourced := Lexeme.readAll [] text

/-- Nothing of a text is lost: the sources of what is read, put together, are the text. -/
theorem Lexeme.flatMap_source_readAll (sofar : List Sourced) (text : List Char) :
    (Lexeme.readAll sofar text).flatMap Sourced.source =
      sofar.reverse.flatMap Sourced.source ++ text := by
  fun_induction Lexeme.readAll sofar text with
  | case1 sofar => simp
  | case2 sofar c rest lexeme n _ ih => simp [ih]

/-- Put together again, the source texts of the lexemes are the text. -/
theorem flatMap_source_lexemes (text : List Char) :
    (lexemes text).flatMap Sourced.source = text := by
  simp [lexemes, Lexeme.flatMap_source_readAll]

end StyleGate
