import StyleGate.Lexeme.Name
import StyleGate.Text.Blank

/-!
# Unquoted urls

What follows `url(` is a url of its own if it does not start with a quote: it runs to the closing
parenthesis, with blanks allowed around it. A quote, an opening parenthesis, a control character, a
line end after a backslash, or anything after an inner blank spoils it; a spoilt url runs to the next
closing parenthesis and keeps its source text.
-/

namespace StyleGate.Lexeme

open Text

/-- Characters that spoil a url. -/
def spoilsUrl (c : Char) : Bool :=
  c == '"' || c == '\'' || c == '(' ||
    (isControl c && !isSpace c)

/-- How an unquoted url goes on: it ends after `taken` characters, or it is spoilt after them. -/
inductive UrlEnd where
  | closed (value : List Char) (taken : Nat)
  | spoilt (taken : Nat)
deriving DecidableEq, Repr

/-- The url with a character in front, which takes up `n` characters of the text. -/
def UrlEnd.cons (c : Char) (n : Nat) : UrlEnd → UrlEnd
  | closed value taken => closed (c :: value) (n + taken)
  | spoilt taken => spoilt (n + taken)

/-- What follows the first blank inside a url: blanks up to the closing parenthesis or the end of
the text, or a character that spoils the url. -/
def urlTail : List Char → UrlEnd
  | [] => .closed [] 0
  | c :: rest =>
    if c == ')' then .closed [] 1
    else if isSpace c then
      match urlTail rest with
      | .closed value taken => .closed value (1 + taken)
      | .spoilt taken => .spoilt (1 + taken)
    else .spoilt 1

/-- The unquoted url at the front of a text, after the blanks. -/
def urlBody : List Char → UrlEnd
  | [] => .closed [] 0
  | c :: rest =>
    if c == ')' then .closed [] 1
    else if isSpace c then urlTail (c :: rest)
    else if spoilsUrl c then .spoilt 1
    else if c == '\\' then
      if startsNewline rest then .spoilt 1
      else
        let (e, n) := escaped rest
        (urlBody (rest.drop n)).cons e (1 + n)
    else (urlBody rest).cons (if c == '\x00' then replacement else c) 1
termination_by text => text.length
decreasing_by
  all_goals
    simp only [List.length_drop, List.length_cons]
    omega

/-- The length of what is left of a spoilt url, up to its closing parenthesis. An escaped parenthesis
or backslash is passed over. -/
def spoiltLength : List Char → Nat
  | [] => 0
  | '\\' :: ')' :: rest => 2 + spoiltLength rest
  | '\\' :: '\\' :: rest => 2 + spoiltLength rest
  | c :: rest => if c == ')' then 0 else 1 + spoiltLength rest

/-- What follows `url(`. -/
inductive UrlContent where
  /-- A quote, so that an ordinary function is open. -/
  | quoted
  /-- A url, and its length with the parenthesis. -/
  | plain (value : List Char) (taken : Nat)
  /-- A spoilt url: its source text, and its length with the parenthesis. -/
  | spoilt (source : List Char) (taken : Nat)
deriving DecidableEq, Repr

/-- The content of a url after the opening parenthesis. -/
def urlContent (text : List Char) : UrlContent :=
  let blanks := (text.takeWhile isSpace).length
  let body := text.drop blanks
  match body.head? with
  | some '"' => .quoted
  | some '\'' => .quoted
  | _ =>
    match urlBody body with
    | .closed value taken => .plain value (blanks + taken)
    | .spoilt taken =>
      let length := taken + spoiltLength (body.drop taken)
      .spoilt (body.take length) (blanks + length + ((body.drop length).take 1).length)

end StyleGate.Lexeme
