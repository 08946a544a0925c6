import StyleGate.Declaration
import StyleGate.Rule.Reading

/-!
# Declarations read from component values

Where the next declaration is looked for, whitespace and semicolons are left out. A name starts a
declaration, which runs to the next semicolon; an at-keyword starts an at-rule, which is dropped;
anything else is dropped up to the next semicolon. Every drop is recorded.

A declaration needs a colon after its name. Its value is trimmed, and a trailing `! important` is
taken off as the mark of importance.
-/

namespace StyleGate

namespace Declaration

/-- The value in front of a trailing `! important`, if there is one. -/
def beforeImportant? (value : List ComponentValue) : Option (List ComponentValue) :=
  match value.reverse with
  | .token last :: before =>
    if last.isNamed .ident "important" then
      match before.dropWhile ComponentValue.isWhitespace with
      | .token bang :: rest =>
        if bang.kind = .delim ∧ bang.value = "!" then some rest.reverse else none
      | _ => none
    else none
  | _ => none

/-- The declaration of a name and what follows the colon. -/
def ofValue (name : Token) (value : List ComponentValue) : Declaration :=
  let value := ComponentValue.trim value
  match beforeImportant? value with
  | some value => { name, value := ComponentValue.trim value, important := true }
  | none => { name, value }

/-- The declaration of a name and what follows it, or nothing if no colon is there. -/
def ofParts? (name : Token) (parts : List ComponentValue) : Option Declaration :=
  match parts.dropWhile ComponentValue.isWhitespace with
  | v :: value => if v.isToken .colon then some (ofValue name value) else none
  | [] => none

end Declaration

/-- What has been started in a list of declarations: nothing, a declaration with its name and what
follows, the last value first, an at-rule, or something to drop. -/
inductive OpenDeclaration where
  | none
  | named (name : Token) (parts : List ComponentValue)
  | atRule (rule : OpenRule)
  | junk
deriving Repr

/-- What is known in the middle of a list of declarations. -/
structure DeclarationReader where
  /-- The finished declarations, the last one first. -/
  done : List Declaration := []
  /-- What has been started. -/
  current : OpenDeclaration := .none
  /-- The diagnostics so far, the last one first. -/
  errors : List Diagnostic := []
deriving Repr

namespace DeclarationReader

/-- Records diagnostics, given in order. -/
def record (s : DeclarationReader) (ds : List Diagnostic) : DeclarationReader :=
  { s with errors := ds.reverse ++ s.errors }

/-- Ends a declaration. -/
def endNamed (s : DeclarationReader) (name : Token) (parts : List ComponentValue) :
    DeclarationReader :=
  match Declaration.ofParts? name parts.reverse with
  | some d => { s with done := d :: s.done, current := .none }
  | none => { s.record [⟨Diagnostic.expectedColon, name.position⟩] with current := .none }

/-- Ends an at-rule, which has no place here. -/
def endAtRule (s : DeclarationReader) (position : Position) : DeclarationReader :=
  { s.record [⟨Diagnostic.unexpectedAtRule, position⟩] with current := .none }

/-- Takes a value where the next declaration is looked for. -/
def startNext (s : DeclarationReader) (g : Grouped) : DeclarationReader :=
  match g.value with
  | .token t =>
    if t.kind = .whitespace ∨ t.kind = .semicolon then s
    else if t.kind = .atKeyword then { s with current := .atRule (OpenRule.start g.value) }
    else if t.kind = .ident then { s with current := .named t [] }
    else { s.record (⟨Diagnostic.expectedIdent, t.position⟩ :: g.errors) with current := .junk }
  | v => { s.record (⟨Diagnostic.expectedIdent, v.position⟩ :: g.errors) with current := .junk }

/-- Takes the next value with its diagnostics. -/
def push (s : DeclarationReader) (g : Grouped) : DeclarationReader :=
  match s.current with
  | .none => s.startNext g
  | .named name parts =>
    if g.value.isToken .semicolon then s.endNamed name parts
    else { s.record g.errors with current := .named name (g.value :: parts) }
  | .atRule r =>
    let s := s.record g.errors
    match r.step g.value with
    | .goesOn r => { s with current := .atRule r }
    | .ends _ => s.endAtRule r.position
  | .junk =>
    if g.value.isToken .semicolon then { s with current := .none } else s.record g.errors

/-- The declarations at the end of the input, and all diagnostics. -/
def finish (s : DeclarationReader) : List Declaration × List Diagnostic :=
  let s := match s.current with
    | .named name parts => s.endNamed name parts
    | .atRule r => (s.record [r.unfinished]).endAtRule r.position
    | _ => s
  (s.done.reverse, s.errors.reverse)

end DeclarationReader

/-- The declarations in a list of component values with their diagnostics. -/
def Declaration.ofGroups (groups : List Grouped) : List Declaration × List Diagnostic :=
  (groups.foldl DeclarationReader.push {}).finish

/-- The declarations in a list of tokens, and the diagnostics on the way. -/
def Declaration.readAll (ts : List Token) : List Declaration × List Diagnostic :=
  Declaration.ofGroups (Grouping.ofTokens ts)

end StyleGate
