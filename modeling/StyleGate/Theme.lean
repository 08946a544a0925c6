import StyleGate.Text.AsciiCase

/-!
# Colours of messages

A theme gives the parts of a message their colours, out of sixteen. `Theme.paint` puts a text between
the sequences that switch a terminal to the colour of its part and back; without colours, or for a
part that has none, the text stays as it is.
-/

namespace StyleGate

open Text

/-- One of the eight plain colours, in the order of their numbers. -/
inductive Hue where
  | black | red | green | yellow | blue | magenta | cyan | white
deriving DecidableEq, Repr

namespace Hue

/-- All hues, in the order of their numbers. -/
def all : List Hue := [black, red, green, yellow, blue, magenta, cyan, white]

/-- The name of a hue. -/
def name : Hue → String
  | black => "black"
  | red => "red"
  | green => "green"
  | yellow => "yellow"
  | blue => "blue"
  | magenta => "magenta"
  | cyan => "cyan"
  | white => "white"

/-- The number of a hue. -/
def number (h : Hue) : Nat := all.idxOf h

end Hue

/-- A colour of a terminal: a hue, plain or bright. -/
structure Color where
  hue : Hue
  bright : Bool := false
deriving DecidableEq, Repr

namespace Color

/-- All colours, the plain ones first. -/
def all : List Color := Hue.all.map (⟨·, false⟩) ++ Hue.all.map (⟨·, true⟩)

/-- The name of a colour. -/
def name (c : Color) : String := (if c.bright then "bright" else "") ++ c.hue.name

/-- The number that switches a terminal to the colour. -/
def code (c : Color) : Nat := (if c.bright then 90 else 30) + c.hue.number

/-- The lower-case form of a character, as far as it can be a letter of a colour's name: the capitals
from `A` to `Z` have one, and so has the sign for kelvin. -/
def lowerChar (c : Char) : Char := if c == '\u212a' then 'k' else foldChar c

/-- The colour of a name in any letter case. -/
def ofName? (name : String) : Option Color :=
  let lowered := String.ofList (name.toList.map lowerChar)
  all.find? (·.name == lowered)

/-- What is said of a name that no colour has. -/
def unknownName : String :=
  "Invalid theme color; expected one of: " ++ String.intercalate ", " (all.map name) ++ "."

end Color

/-- A part of a message that can have a colour of its own. -/
inductive ThemePart where
  | header
  | success
  | info
  | warn
  | error
  | diagnosticCode
  | diagnosticPosition
  | summaryOccurrences
deriving DecidableEq, Repr

/-- The colours of the parts. -/
abbrev Theme := ThemePart → Option Color

namespace Theme

/-- The theme that is used unless another one is asked for. -/
def standard : Theme
  | .header => some ⟨.white, true⟩
  | .success => some ⟨.green, false⟩
  | .info => some ⟨.cyan, false⟩
  | .warn => some ⟨.yellow, false⟩
  | .error => some ⟨.red, false⟩
  | .diagnosticCode => some ⟨.magenta, false⟩
  | .diagnosticPosition => some ⟨.black, true⟩
  | .summaryOccurrences => some ⟨.yellow, true⟩

/-- The theme without any colour. -/
def plain : Theme := fun _ => none

/-- The theme with another colour for a part, or with none. -/
def set (t : Theme) (part : ThemePart) (color : Option Color) : Theme :=
  fun p => if p = part then color else t p

/-- A text in the colour of a part. -/
def paint (t : Theme) (colors : Bool) (part : ThemePart) (text : String) : String :=
  match t part with
  | some c => if colors then "\x1b[" ++ toString c.code ++ "m" ++ text ++ "\x1b[39m" else text
  | none => text

end Theme

/-! ## Messages -/

/-- How serious a message is. -/
inductive MessageLevel where
  | info
  | warn
  | error
deriving DecidableEq, Repr

namespace MessageLevel

/-- The mark in front of a message. -/
def mark : MessageLevel → String
  | info => "[info]"
  | warn => "[warn]"
  | error => "[error]"

/-- The part that gives the mark its colour. -/
def part : MessageLevel → ThemePart
  | info => .info
  | warn => .warn
  | error => .error

/-- The line of a message. -/
def line (level : MessageLevel) (theme : Theme) (colors : Bool) (text : String) : String :=
  theme.paint colors level.part level.mark ++ " " ++ text ++ "\n"

end MessageLevel

end StyleGate
