/-!
# Text for a terminal

Log lines hold names that a stranger has chosen. `Text.plain` leaves out what a terminal would take
for a command: escape sequences, and control characters that are no white space. A sequence that is
begun takes with it what follows, up to a character that ends it. White space interrupts some
sequences; they go on at the next control character.
-/

namespace StyleGate.Text

/-- A text with its further lines indented. -/
def indented (margin : String) (text : String) : String :=
  String.intercalate ("\n" ++ margin) (text.splitOn "\n")

/-- Where a reader stands with respect to escape sequences. -/
inductive EscapeMode where
  /-- In no sequence. -/
  | outside
  /-- After the escape character. -/
  | escape
  /-- In a sequence that the next character other than a sign ends. -/
  | intermediate
  /-- In a sequence that a letter ends. -/
  | control
  /-- In a title, which the bell ends. -/
  | title
  /-- At the head of a text for a device, in front of, in and behind its numbers. -/
  | deviceStart
  | deviceNumber
  | deviceSign
  /-- In a text that only a string terminator ends. -/
  | device
  /-- Behind white space that interrupted a sequence. -/
  | interrupted (sequence : EscapeMode)
deriving DecidableEq, Repr

namespace EscapeMode

/-- A control character that a terminal shows as white space. -/
def isShownControl (c : Char) : Bool := c ∈ ['\t', '\n', '\x0c', '\r']

/-- A character of the text itself. -/
def isShown (c : Char) : Bool := (' ' ≤ c && c != '\x7f') || isShownControl c

/-- A sign that may stand inside a sequence. -/
def isSign (c : Char) : Bool := ' ' ≤ c && c ≤ '/'

/-- A character that ends a sequence. -/
def isFinal (c : Char) : Bool := '@' ≤ c && c ≤ '~'

/-- A character that holds the byte of the string terminator. -/
def holdsTerminator (c : Char) : Bool := 0x9c ∈ (String.singleton c).toUTF8.toList

/-- The mode after a character that is not shown. -/
def after : EscapeMode → Char → EscapeMode
  | outside, _ => outside
  | interrupted m, c => m.after c
  | escape, c =>
    if isSign c then intermediate
    else if c == '[' then control
    else if c == ']' then title
    else if c == 'P' then deviceStart
    else if c ∈ ['X', '^', '_'] then device
    else if '0' ≤ c && c ≤ '~' then outside
    else escape
  | intermediate, c => if '0' ≤ c && c ≤ '~' then outside else intermediate
  | control, c => if isFinal c then outside else control
  | title, c => if c == '\x07' then outside else title
  | deviceStart, c =>
    if isSign c then deviceSign
    else if c == ':' || isFinal c then device
    else if '0' ≤ c && c ≤ '?' then deviceNumber
    else deviceStart
  | deviceNumber, c =>
    if isSign c then deviceSign
    else if c.isDigit || c == ';' then deviceNumber
    else if '0' ≤ c && c ≤ '~' then device
    else deviceNumber
  | deviceSign, c => if '0' ≤ c && c ≤ '~' then device else deviceSign
  | device, c => if holdsTerminator c then outside else device

/-- The mode after a character that is shown, if it is. In a sequence that is not interrupted only
white space is, and not in all of them. -/
def showing? (m : EscapeMode) (c : Char) : Option EscapeMode :=
  match m with
  | outside => if isShown c then some outside else none
  | interrupted m =>
    if isShown c then some (if '\x7f' < c then outside else interrupted m) else none
  | escape | intermediate | control => if isShownControl c then some (interrupted m) else none
  | _ => none

/-- The mode after a character, and whether the character is shown. -/
def step (m : EscapeMode) (c : Char) : EscapeMode × Bool :=
  if c == '\x1b' then (escape, false)
  else if c == '\x18' || c == '\x1a' then (outside, false)
  else
    match m.showing? c with
    | some next => (next, true)
    | none => (m.after c, false)

/-- A character that is shown is one of the text itself. -/
theorem isShown_of_step {m : EscapeMode} {c : Char} (h : (m.step c).2 = true) :
    isShown c = true := by
  unfold step at h
  split at h
  · simp at h
  · split at h
    · simp at h
    · split at h
      · next hs => cases m <;> simp_all [showing?, isShown]
      · simp at h

end EscapeMode

/-- The characters of a text that are shown, from a mode on. -/
def shownFrom (m : EscapeMode) : List Char → List Char
  | [] => []
  | c :: rest =>
    let (m, shown) := m.step c
    if shown then c :: shownFrom m rest else shownFrom m rest

/-- A text without commands to a terminal. -/
def plain (text : String) : String := String.ofList (shownFrom .outside text.toList)

/-- Every character that is shown is one of the text itself. -/
theorem isShown_of_mem_shownFrom {c : Char} {m : EscapeMode} {cs : List Char}
    (h : c ∈ shownFrom m cs) : EscapeMode.isShown c = true := by
  induction cs generalizing m with
  | nil => simp [shownFrom] at h
  | cons d cs ih =>
    simp only [shownFrom] at h
    split at h
    · next hs =>
      cases h with
      | head => exact EscapeMode.isShown_of_step hs
      | tail _ h => exact ih h
    · exact ih h

end StyleGate.Text
