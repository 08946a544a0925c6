import StyleGate.Proofs.Rereading

/-!
# Values stay inside their tokens

The value of a name or a string may hold any character but NUL: quotes, backslashes, line ends and
control characters, hyphens and digits at its front. Escaped it is read as one token of that value and
nothing else (`Token.tokenize_text_iff`), so that no part of a value is ever read as something of its
own. A url is written as a function that holds a string, and read as that.

That the value is read back is known of the lexemes of a text (`Token.lexemes_chars_append`). Here it
is said of the text's tokens, with their positions, where the written form stands alone.
-/

namespace StyleGate

open Text

/-- The kinds of tokens that are written as their escaped value, behind a sign perhaps. -/
def TokenKind.isEscaped : TokenKind → Bool
  | .string | .ident | .atKeyword | .hash => true
  | _ => false

/-- A text that is one lexeme, and opens no group, is one token. -/
theorem tokenize_of_lexemes {text : String} {kind : TokenKind} {value source : List Char}
    (hlexemes : lexemes text.toList = [⟨.token kind value, source⟩]) (hkind : kind.closer? = none) :
    tokenize text = ([(Token.of kind (String.ofList value)).placedAt Position.start], []) := by
  rw [tokenize, hlexemes]
  simp [Stream.push, Stream.take, hkind, Stream.emit, Token.of, Token.placedAt]

namespace Token

section Escaped

variable {t : Token} (hkind : t.kind.isEscaped = true)
include hkind

/-- A name or a string that carries a text of its kind has a written form where it stands alone. -/
theorem written_singleton (h : t.Legible) : Written [t] where
  legible := by simpa using h
  blanks := by simp [blanksJoined]
  urls := by
    have hne : t.kind ≠ .function := fun heq => by simp [heq, TokenKind.isEscaped] at hkind
    simp [urlsQuoted, isNamed, hne]

/-- The written form of a name or a string is a single lexeme, and no group starts with it. -/
theorem lexed_of_isEscaped :
    t.lexed = [⟨.token t.kind t.value.toList, t.chars⟩] ∧ t.kind.closer? = none ∧
      t.isBackslash = false := by
  unfold lexed isBackslash
  cases heq : t.kind <;> simp [heq, TokenKind.isEscaped] at hkind
  all_goals exact ⟨rfl, rfl, rfl⟩

/-- A name or a string that carries a text of its kind is read back where it stands alone. -/
theorem tokenize_text_of_legible (h : t.Legible) :
    tokenize t.text = ([(of t.kind t.value).placedAt Position.start], []) := by
  obtain ⟨hlexed, hcloser, hback⟩ := lexed_of_isEscaped hkind
  have hread := lexemes_chars_append h (endsBefore_nil (written_singleton hkind h) hback)
  rw [List.append_nil, Lexeme.lexemes_nil, List.append_nil, hlexed] at hread
  have hlexemes : lexemes t.text.toList = [⟨.token t.kind t.value.toList, t.chars⟩] := by
    rw [text, String.toList_ofList, hread]
  have htokens := tokenize_of_lexemes hlexemes hcloser
  rwa [String.ofList_toList] at htokens

/-- A name or a string among the tokens of a text carries a text of its kind. -/
theorem legible_of_tokenize {text : String} {ts : List Token} {ds : List Diagnostic}
    (h : tokenize text = (ts, ds)) (ht : t ∈ ts) : t.Legible := by
  have hmem : t ∈ tokens text := by rw [tokens, h]; exact ht
  refine legible_of_mem_tokens hmem ?_ ?_ fun hnumeric => ?_
  all_goals cases heq : t.kind
  all_goals simp [heq, TokenKind.isEscaped, Lexeme.isNumeric] at *

/-- A name or a string is read back exactly if it carries a text of its kind. -/
theorem tokenize_text_iff_legible :
    tokenize t.text = ([(of t.kind t.value).placedAt Position.start], []) ↔ t.Legible := by
  refine ⟨fun h => ?_, tokenize_text_of_legible hkind⟩
  exact legible_of_tokenize (t := (of t.kind t.value).placedAt Position.start) hkind h (.head _)

end Escaped

/-- A url is read as the function `url`, a string in it, and the end of the function. -/
theorem tokenize_text_url {v : String} (h : '\x00' ∉ v.toList) :
    tokenize (of .url v).text =
      ([(of .function "url").placedAt Position.start, (of .string v).placedAt ⟨1, 5⟩,
        (of .rightParen "").placedAt (Position.after ⟨1, 5⟩ (escapeString v.toList))], []) := by
  have hread := lexemes_url h []
  rw [List.append_nil, Lexeme.lexemes_nil, List.append_nil] at hread
  have hlexemes : lexemes (of .url v).text.toList =
      [⟨.token .function "url".toList, "url(".toList⟩,
        ⟨.token .string v.toList, escapeString v.toList⟩, ⟨.token .rightParen [], [')']⟩] := by
    rw [text, String.toList_ofList]
    exact hread
  have hopen : Position.start.after ['u', 'r', 'l', '('] = ⟨1, 5⟩ := by decide
  rw [tokenize, hlexemes]
  simp [Stream.push, Stream.take, TokenKind.closer?, TokenKind.bracketCloser?, Stream.emit, of,
    placedAt, maxGroupDepth, hopen]

/-- **No value leaves its token.** The written form of a string is read as that one string, and
nothing is reported, exactly if its value holds no NUL; so are the written forms of identifiers,
at-keywords and hashes if moreover the value is not empty. The written form of a url is then read as a
function `url` with one string of that value and the end of the function. -/
theorem tokenize_text_iff (v : String) :
    (tokenize (of .string v).text = ([(of .string v).placedAt Position.start], []) ↔
      '\x00' ∉ v.toList) ∧
    (tokenize (of .ident v).text = ([(of .ident v).placedAt Position.start], []) ↔
      v ≠ "" ∧ '\x00' ∉ v.toList) ∧
    (tokenize (of .atKeyword v).text = ([(of .atKeyword v).placedAt Position.start], []) ↔
      v ≠ "" ∧ '\x00' ∉ v.toList) ∧
    (tokenize (of .hash v).text = ([(of .hash v).placedAt Position.start], []) ↔
      v ≠ "" ∧ '\x00' ∉ v.toList) ∧
    (tokenize (of .url v).text =
        ([(of .function "url").placedAt Position.start, (of .string v).placedAt ⟨1, 5⟩,
          (of .rightParen "").placedAt (Position.after ⟨1, 5⟩ (escapeString v.toList))], []) ↔
      '\x00' ∉ v.toList) := by
  have hempty : v ≠ "" ↔ v.toList ≠ [] := by simp
  refine ⟨tokenize_text_iff_legible (t := of .string v) rfl, ?_, ?_, ?_, fun h => ?_, tokenize_text_url⟩
  · rw [hempty]
    exact tokenize_text_iff_legible (t := of .ident v) rfl
  · rw [hempty]
    exact tokenize_text_iff_legible (t := of .atKeyword v) rfl
  · rw [hempty]
    exact tokenize_text_iff_legible (t := of .hash v) rfl
  · exact legible_of_tokenize (t := (of .string v).placedAt ⟨1, 5⟩) rfl h (.tail _ (.head _))

/-- What would end a string or start a declaration stands behind a backslash. -/
example : (of .string "\";\n\\").text = "\"\\\";\\a \\\\\"" ∧
    (of .ident "-1;").text = "-\\31 \\;" ∧ (of .ident "-->").text = "--\\>" := by
  decide +kernel

end Token

end StyleGate
