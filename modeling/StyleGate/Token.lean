import StyleGate.Position
import StyleGate.Text.AsciiCase

/-!
# Tokens

A token has a kind, a text that the kind may use (a name, the content of a string, the digits of a
number), a position, and a mark that tells whitespace of the text from separators that the library
inserted. Two tokens *agree* if they differ at most in their positions.

Some kinds open a group: the three brackets and a function's name. `TokenKind.closer?` is the kind
that ends such a group.
-/

namespace StyleGate

/-- The lexical classes of a stylesheet. -/
inductive TokenKind where
  | ident | function | atKeyword | hash | string | badString | url | badUrl | delim
  | number | percentage | dimension | whitespace | cdo | cdc | colon | semicolon | comma
  | leftBracket | rightBracket | leftParen | rightParen | leftBrace | rightBrace
  | includeMatch | dashMatch | prefixMatch | suffixMatch | substringMatch
  /-- A comment that is kept for a later processor of the stylesheet. -/
  | ppComment
deriving DecidableEq, Repr, Inhabited

namespace TokenKind

/-- The name of a kind in messages: punctuation by itself, other kinds in words. -/
def displayName : TokenKind → String
  | ident => "ident" | function => "function" | atKeyword => "at-keyword" | hash => "hash"
  | string => "string" | badString => "bad-string" | url => "url" | badUrl => "bad-url"
  | delim => "delim" | number => "number" | percentage => "percentage"
  | dimension => "dimension" | whitespace => "whitespace" | cdo => "CDO" | cdc => "CDC"
  | colon => ":" | semicolon => ";" | comma => "," | leftBracket => "[" | rightBracket => "]"
  | leftParen => "(" | rightParen => ")" | leftBrace => "\x7b" | rightBrace => "\x7d"
  | includeMatch => "include-match" | dashMatch => "dash-match" | prefixMatch => "prefix-match"
  | suffixMatch => "suffix-match" | substringMatch => "substring-match"
  | ppComment => "preprocessor-comment"

/-- The name of a kind where tokens are exchanged as data. -/
def tag : TokenKind → String
  | cdo => "cdo" | cdc => "cdc" | colon => "colon" | semicolon => "semicolon" | comma => "comma"
  | leftBracket => "left-bracket" | rightBracket => "right-bracket"
  | leftParen => "left-paren" | rightParen => "right-paren"
  | leftBrace => "left-brace" | rightBrace => "right-brace" | ppComment => "pp-comment"
  | kind => kind.displayName

/-- All kinds. -/
def all : List TokenKind :=
  [ident, function, atKeyword, hash, string, badString, url, badUrl, delim, number, percentage,
   dimension, whitespace, cdo, cdc, colon, semicolon, comma, leftBracket, rightBracket, leftParen,
   rightParen, leftBrace, rightBrace, includeMatch, dashMatch, prefixMatch, suffixMatch,
   substringMatch, ppComment]

/-- The kind with a given name. -/
def ofTag? (name : String) : Option TokenKind := all.find? fun kind => kind.tag == name

/-- The closing bracket of an opening one. -/
def bracketCloser? : TokenKind → Option TokenKind
  | leftBrace => some rightBrace
  | leftBracket => some rightBracket
  | leftParen => some rightParen
  | _ => none

/-- The kind that ends the group which this kind opens. A function ends with a parenthesis. -/
def closer? : TokenKind → Option TokenKind
  | function => some rightParen
  | kind => kind.bracketCloser?

/-- Whether a token of this kind starts a nested group. -/
def opensGroup (kind : TokenKind) : Bool := kind.closer?.isSome

/-- Whether the kind is a closing bracket. -/
def closesGroup : TokenKind → Bool
  | rightBrace | rightBracket | rightParen => true
  | _ => false

/-- No kind is missing from the list of all of them. -/
theorem mem_all (kind : TokenKind) : kind ∈ all := by cases kind <;> decide

/-- A kind is found again by its name. -/
theorem ofTag?_tag (kind : TokenKind) : ofTag? kind.tag = some kind := by cases kind <;> decide

/-- What closes a group of some kind closes a group. -/
theorem closesGroup_of_closer? {kind closer : TokenKind} (h : kind.closer? = some closer) :
    closer.closesGroup = true := by
  cases kind <;> simp_all [closer?, bracketCloser?] <;> subst h <;> rfl

/-- No token both opens and closes a group. -/
theorem opensGroup_eq_false_of_closesGroup {kind : TokenKind} (h : kind.closesGroup = true) :
    kind.opensGroup = false := by
  cases kind <;> simp_all [closesGroup, opensGroup, closer?, bracketCloser?]

/-- A closing token is of another kind than one that does not close. -/
theorem ne_of_closesGroup {kind other : TokenKind} (h : kind.closesGroup = true)
    (hother : other.closesGroup = false) : kind ≠ other := by
  rintro rfl
  simp [h] at hother

/-- A bracket is of another kind than a token that opens no block. -/
theorem ne_of_bracketCloser? {kind other : TokenKind} (h : kind.bracketCloser?.isSome = true)
    (hother : other.bracketCloser? = none) : kind ≠ other := by
  rintro rfl
  simp [hother] at h

end TokenKind

/-- A lexical token. `significant` is false for whitespace that is not in the text. -/
structure Token where
  kind : TokenKind
  value : String := ""
  position : Position := Position.unknown
  significant : Bool := true
deriving DecidableEq, Repr, Inhabited

namespace Token

/-- A token of a kind and a text, without a place in the text. -/
def of (kind : TokenKind) (value : String) : Token := { kind, value }

/-- The token at another position. -/
def placedAt (t : Token) (p : Position) : Token := { t with position := p }

/-- Equality up to positions. -/
def agrees (a b : Token) : Bool :=
  a.kind == b.kind && a.value == b.value && a.significant == b.significant

/-- Whether the token separates others. -/
def isWhitespace (t : Token) : Bool := t.kind == .whitespace

/-- Whether the token has a kind, and a text up to the case of ASCII letters. -/
def isNamed (t : Token) (kind : TokenKind) (value : String) : Bool :=
  t.kind == kind && Text.sameFolded t.value value

/-- The space that the library inserts where the syntax asks for none. -/
def insertedSpace : Token := { kind := .whitespace, significant := false }

/-- A token without its position. -/
def unplaced (t : Token) : Token := t.placedAt Position.unknown

@[simp] theorem agrees_self (t : Token) : t.agrees t = true := by simp [agrees]

/-- Tokens agree if they differ in their positions at most. -/
theorem agrees_iff {a b : Token} : a.agrees b = true ↔ a.unplaced = b.unplaced := by
  cases a; cases b
  simp [agrees, unplaced, placedAt, and_assoc]

end Token

end StyleGate
