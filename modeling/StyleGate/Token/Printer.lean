import StyleGate.Token
import StyleGate.Text.Blank
import StyleGate.Text.Escape

/-!
# Tokens as text

`Token.chars` writes one token; names, identifiers and strings are escaped so that they read back.
`Token.render` writes a list of tokens, with an empty comment between two tokens that would
otherwise be read as something else: `needsSeparator` is the table of those pairs.
-/

namespace StyleGate

open Text

namespace Token

/-- A comment's text with every `*/` broken up by a space, so that it cannot end the comment. -/
def guardComment : List Char → List Char
  | '*' :: '/' :: rest => '*' :: ' ' :: '/' :: guardComment rest
  | c :: rest => c :: guardComment rest
  | [] => []

/-- The written form of a token. -/
def chars (t : Token) : List Char :=
  let value := t.value.toList
  match t.kind with
  | .ident => escapeIdentifier value
  | .function => escapeIdentifier value ++ ['(']
  | .atKeyword => '@' :: escapeIdentifier value
  | .hash => '#' :: escapeName value
  | .string | .badString => escapeString value
  | .url | .badUrl => "url(".toList ++ escapeString value ++ [')']
  | .delim | .number | .percentage | .dimension => value
  | .whitespace => if !value.isEmpty && value.all isBlank then value else [' ']
  | .ppComment => "/*".toList ++ guardComment value ++ "*/".toList
  | .cdo => "<!--".toList
  | .cdc => "-->".toList
  | .colon => [':']
  | .semicolon => [';']
  | .comma => [',']
  | .leftBracket => ['[']
  | .rightBracket => [']']
  | .leftParen => ['(']
  | .rightParen => [')']
  | .leftBrace => ['\x7b']
  | .rightBrace => ['\x7d']
  | .includeMatch => ['~', '=']
  | .dashMatch => ['|', '=']
  | .prefixMatch => ['^', '=']
  | .suffixMatch => ['$', '=']
  | .substringMatch => ['*', '=']

/-- The written form of a token. -/
def text (t : Token) : String := String.ofList t.chars

/-- Whether a token's written form could continue a name before it. -/
def startsWord (t : Token) : Bool :=
  match t.kind with
  | .ident | .function | .url | .badUrl | .number | .percentage | .dimension | .cdc => true
  | _ => t.isNamed .delim "-"

/-- Whether a token's written form starts as a number does. -/
def startsNumber (t : Token) : Bool :=
  match t.kind with
  | .number | .percentage | .dimension => true
  | _ => false

/-- Whether a delimiter and the token after it would be read as something else. -/
def delimNeedsSeparator (delim : String) (next : Token) : Bool :=
  if delim = "#" ∨ delim = "@" ∨ delim = "-" then next.startsWord
  else if delim = "." ∨ delim = "+" then next.startsNumber
  else if delim = "/" then next.isNamed .delim "*"
  else if delim = "<" then next.isNamed .delim "!"
  else if delim = "|" then next.isNamed .delim "=" || next.isNamed .delim "|"
  else if delim = "$" ∨ delim = "*" ∨ delim = "^" ∨ delim = "~" then next.isNamed .delim "="
  else delim = "\\"

/-- Whether two adjacent tokens would be read as something else. -/
def needsSeparator (previous next : Token) : Bool :=
  match previous.kind with
  | .ident | .atKeyword | .hash | .dimension => next.startsWord || next.kind == .leftParen
  | .number => next.startsWord || next.isNamed .delim "%" || next.isNamed .delim "."
  | .delim => delimNeedsSeparator previous.value next
  | _ => false

/-- An empty comment, which separates tokens without being one. -/
def separator : List Char := ['/', '*', '*', '/']

/-- What is written between two adjacent tokens. -/
def gap (previous next : Token) : List Char :=
  if needsSeparator previous next then separator else []

/-- The written form of tokens that follow a given one. -/
def charsAfter (previous : Token) : List Token → List Char
  | [] => []
  | t :: rest => gap previous t ++ t.chars ++ charsAfter t rest

/-- The written form of a list of tokens. -/
def charsAll : List Token → List Char
  | [] => []
  | t :: rest => t.chars ++ charsAfter t rest

/-- The text of a list of tokens. -/
def render (tokens : List Token) : String := String.ofList (charsAll tokens)

end Token

end StyleGate
