import StyleGate.ComponentValue
import StyleGate.Token.Stream

/-!
# Tokens grouped into component values

`Grouping.ofTokens` reads a list of tokens as component values. An opening token starts a group, and
the group runs to the first closing token of its own kind that is not inside a further group; closing
tokens of other kinds stay where they are. Groups that are open at the end are closed there, the
innermost first, each with a diagnostic. A group inside `maxGroupDepth` open ones is passed over up
to its end, where closing tokens of all kinds count alike, and a broken string stands for it.

The values come with the diagnostics that were recorded on the way to each of them.
-/

namespace StyleGate

/-- A component value and the diagnostics recorded while it was read. -/
structure Grouped where
  value : ComponentValue
  errors : List Diagnostic := []
deriving Repr, Inhabited

/-- A group that is still open: its opening token, and its contents with the last one first. -/
structure OpenGroup where
  opener : Token
  contents : List ComponentValue := []
deriving Repr, Inhabited

namespace OpenGroup

/-- The value of the group once it is closed. -/
def close (g : OpenGroup) : ComponentValue :=
  if g.opener.kind = .function then .function g.opener g.contents.reverse
  else .block g.opener g.contents.reverse

/-- The diagnostic of a group that is open at the end. -/
def unclosed (g : OpenGroup) : Diagnostic :=
  { code := if g.opener.kind = .function then Diagnostic.unexpectedEofInFunction
      else Diagnostic.unexpectedEofInBlock
    position := g.opener.position }

end OpenGroup

/-- What is known in the middle of a list of tokens. -/
structure Grouping where
  /-- The finished values, the last one first. -/
  done : List Grouped := []
  /-- The open groups, the innermost first. -/
  groups : List OpenGroup := []
  /-- The diagnostics since the last finished value, the last one first. -/
  errors : List Diagnostic := []
  /-- A group that is being passed over, and the number of groups open in it, itself included. -/
  skipping : Option (Token × Nat) := none
deriving Repr, Inhabited

namespace Grouping

/-- Adds a value to the innermost open group, or to the finished values. -/
def add (s : Grouping) (v : ComponentValue) : Grouping :=
  match s.groups with
  | g :: outer => { s with groups := { g with contents := v :: g.contents } :: outer }
  | [] => { s with done := ⟨v, s.errors.reverse⟩ :: s.done, errors := [] }

/-- Records a diagnostic. -/
def record (s : Grouping) (d : Diagnostic) : Grouping := { s with errors := d :: s.errors }

/-- Closes the innermost open group. -/
def closeInnermost (s : Grouping) : Grouping :=
  match s.groups with
  | g :: outer => { s with groups := outer }.add g.close
  | [] => s

/-- Ends the group that is being passed over. -/
def endSkip (s : Grouping) (opener : Token) : Grouping :=
  { s with skipping := none }.add (.token (Token.tooDeepMarker opener.position))

/-- Takes a token of a group that is being passed over, with `n` groups open in it. -/
def skip (s : Grouping) (opener : Token) (n : Nat) (t : Token) : Grouping :=
  if t.kind.opensGroup then { s with skipping := some (opener, n + 1) }
  else if t.kind.closesGroup then
    if n ≤ 1 then s.endSkip opener else { s with skipping := some (opener, n - 1) }
  else s

/-- Whether a token closes the innermost open group. -/
def closedBy (s : Grouping) (t : Token) : Bool :=
  match s.groups with
  | g :: _ => g.opener.kind.closer? == some t.kind
  | [] => false

/-- Takes a token that opens a group. -/
def openGroup (s : Grouping) (t : Token) : Grouping :=
  if maxGroupDepth ≤ s.groups.length then
    { s.record ⟨Diagnostic.nestingTooDeep, t.position⟩ with skipping := some (t, 1) }
  else { s with groups := { opener := t } :: s.groups }

/-- Takes the next token. -/
def push (s : Grouping) (t : Token) : Grouping :=
  match s.skipping with
  | some (opener, n) => s.skip opener n t
  | none =>
    if s.closedBy t then s.closeInnermost
    else if t.kind.opensGroup then s.openGroup t
    else s.add (.token t)

/-- Closes a number of groups that are open at the end, the innermost first. -/
def closeUnclosed (s : Grouping) : Nat → Grouping
  | 0 => s
  | n + 1 =>
    match s.groups with
    | g :: _ => (s.record g.unclosed).closeInnermost.closeUnclosed n
    | [] => s

/-- What is known at the end of the tokens, with no group left open. -/
def finish (s : Grouping) : Grouping :=
  let s := match s.skipping with
    | some (opener, _) => s.endSkip opener
    | none => s
  s.closeUnclosed s.groups.length

/-- The component values of a list of tokens. -/
def ofTokens (ts : List Token) : List Grouped := ((ts.foldl push {}).finish).done.reverse

end Grouping

/-- The component values of a list of tokens, and the diagnostics of their groups. -/
def ComponentValue.readAll (ts : List Token) : List ComponentValue × List Diagnostic :=
  let groups := Grouping.ofTokens ts
  (groups.map (·.value), groups.flatMap (·.errors))

end StyleGate
