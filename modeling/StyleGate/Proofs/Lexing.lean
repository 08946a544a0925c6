import StyleGate.Proofs.Numerals
import StyleGate.Token.Printer

/-!
# Tokens read back

The written form of a token is read as that token, in front of any text that does not continue it
(`Token.lexemes_chars_append`). Which texts a token can carry is `TokenKind.Carries`: every lexeme
of a text carries one (`Lexeme.carries_of_mem_lexemes`), except that broken strings and urls have no
written form of their own, and that of numbers it is assumed that their text reads back where it
stands alone. `Token.EndsBefore` says what does not continue a token.
-/

namespace StyleGate

open Text

namespace Lexeme

/-! ## One lexeme after the other -/

/-- What was read before comes first and is not looked at. -/
theorem readAll_append (sofar before : List Sourced) (text : List Char) :
    readAll (sofar ++ before) text = before.reverse ++ readAll sofar text := by
  fun_induction readAll sofar text with
  | case1 sofar => simp [readAll]
  | case2 sofar c rest lexeme n hread ih =>
    rw [readAll, hread]
    exact ih

/-- The empty text has no lexemes. -/
theorem lexemes_nil : lexemes [] = [] := by
  rw [lexemes, readAll]
  rfl

/-- The first lexeme is what is read at the front of a text; the others are those of the rest. -/
theorem lexemes_cons (c : Char) (rest : List Char) :
    lexemes (c :: rest) = ⟨(read c rest).1, c :: rest.take ((read c rest).2 - 1)⟩ ::
      lexemes (rest.drop ((read c rest).2 - 1)) := by
  rw [lexemes, readAll]
  dsimp only
  exact readAll_append [] [_] _

/-- A property of texts that a text inherits from what follows its first lexeme. -/
theorem lexemes_induction {motive : List Char → Prop} (nil : motive [])
    (cons : ∀ c rest, motive (rest.drop ((read c rest).2 - 1)) → motive (c :: rest))
    (text : List Char) : motive text :=
  match text with
  | [] => nil
  | c :: rest => cons c rest (lexemes_induction nil cons _)
termination_by text.length
decreasing_by simp only [List.length_drop, List.length_cons]; omega

/-- What is read as a whole is the first lexeme. -/
theorem lexemes_append {w rest : List Char} {x : Lexeme} (hw : w ≠ [])
    (h : ∀ c more, w ++ rest = c :: more → read c more = (x, w.length)) :
    lexemes (w ++ rest) = ⟨x, w⟩ :: lexemes rest := by
  obtain ⟨c, w, rfl⟩ := List.exists_cons_of_ne_nil hw
  rw [List.cons_append, lexemes_cons, h c (w ++ rest) rfl]
  simp

/-! ## What is read -/

/-- What stands at the front of a text, by what the text starts with. -/
inductive Reads (c : Char) (rest : List Char) : Lexeme × Nat → Prop
  | whitespace (h : isSpace c = true) :
      Reads c rest (.token .whitespace ((c :: rest).takeWhile isSpace),
        ((c :: rest).takeWhile isSpace).length)
  | string (h : c = '"' ∨ c = '\'') : Reads c rest (Lexeme.string c rest)
  | hash (h : c = '#') : Reads c rest (Lexeme.hash rest)
  | atKeyword (h : c = '@') : Reads c rest (Lexeme.atKeyword rest)
  | punctuation {kind : TokenKind} (h : punctuation? c = some kind) :
      Reads c rest (.token kind [], 1)
  | numeric (h : startsNumber (c :: rest) = true) : Reads c rest (Lexeme.numeric (c :: rest))
  | comment (h : c = '/' ∧ rest.head? = some '*') :
      Reads c rest (.comment, 2 + commentLength (rest.drop 1))
  | cdo (h : "<!--".toList.isPrefixOf (c :: rest) = true) : Reads c rest (.token .cdo [], 4)
  | cdc (h : "-->".toList.isPrefixOf (c :: rest) = true) : Reads c rest (.token .cdc [], 3)
  | identLike (h : startsName (c :: rest) = true) : Reads c rest (Lexeme.identLike (c :: rest))
  | matcher {kind : TokenKind} (h : matcher? c = some kind) (hequals : rest.head? = some '=') :
      Reads c rest (.token kind [], 2)
  | single (hspace : isSpace c = false) (hquote : c ≠ '"' ∧ c ≠ '\'')
      (hpunctuation : punctuation? c = none) (hnumber : startsNumber (c :: rest) = false)
      (hname : startsName (c :: rest) = false) : Reads c rest (Lexeme.single c)

/-- What is read is one of these sorts, by what the text starts with. -/
theorem reads_read (c : Char) (rest : List Char) : Reads c rest (read c rest) := by
  unfold read
  dsimp only
  split
  · next h => exact .whitespace h
  · next hspace =>
    split
    · next h => exact .string (by simpa using h)
    · next hquote =>
      split
      · next h => exact .hash (by simpa using h)
      · split
        · next h => exact .atKeyword (by simpa using h)
        · split
          · next h => exact .punctuation h
          · next hpunctuation =>
            split
            · next h => exact .numeric h
            · next hnumber =>
              split
              · next h => exact .comment (by simpa using h)
              · split
                · next h => exact .cdo h
                · split
                  · next h => exact .cdc h
                  · split
                    · next h => exact .identLike h
                    · next hname =>
                      split
                      · next h hequals => exact .matcher h hequals
                      · refine .single (by simpa using hspace) (by simpa using hquote) ?_
                          (by simpa using hnumber) (by simpa using hname)
                        exact Option.eq_none_iff_forall_ne_some.2 fun kind h =>
                          hpunctuation kind h

/-- A name that is at the front of a text is not empty. -/
theorem name_ne_nil {t : List Char} (h : startsName t = true) : (name t).1 ≠ [] := by
  unfold startsName at h
  split at h
  · rw [name]
    simp [isPlainInName]
  · next rest =>
    have hline : startsNewline rest = false := by simpa using h
    rw [name]
    simp [hline]
  · next c rest _ _ =>
    have hback : c ≠ '\\' := by
      rintro rfl
      revert h
      decide
    rw [name]
    by_cases hnul : c = '\x00'
    · simp [hnul]
    · simp [hback, hnul, isPlainInName_of_isNameStart h hnul]
  · cases h

/-- A digit starts a number. -/
theorem startsNumber_of_isDigit {c : Char} (h : isDigit c = true) (rest : List Char) :
    startsNumber (c :: rest) = true := by
  have hne (d : Char) (hd : isDigit d = false) : c ≠ d := by
    rintro rfl
    rw [hd] at h
    cases h
  rw [startsNumber, startsUnsigned]
  · exact h
  · exact fun _ _ heq _ => hne '.' (by decide) heq
  · exact fun _ heq => hne '+' (by decide) (List.cons.inj heq).1
  · exact fun _ heq => hne '-' (by decide) (List.cons.inj heq).1

/-- A url that is read holds no NUL. -/
theorem nul_not_mem_urlContent {t v : List Char} {n : Nat} (h : urlContent t = .plain v n) :
    '\x00' ∉ v := by
  unfold urlContent at h
  dsimp only at h
  split at h
  · cases h
  · cases h
  · split at h
    · next hbody =>
      cases h
      exact nul_not_mem_urlBody hbody
    · cases h

/-- The characters that can be a delimiter. -/
def isSymbol (c : Char) : Bool :=
  !isSpace c && c != '"' && c != '\'' && (punctuation? c).isNone && !isNameStart c && !isDigit c

end Lexeme

/-! ## What tokens carry -/

/-- The texts that a token of a kind can carry so that it is written and read back. A token of
whitespace without a text is written as a space. -/
def TokenKind.Carries (kind : TokenKind) (v : List Char) : Prop :=
  match kind with
  | .ident | .function | .atKeyword | .hash => v ≠ [] ∧ '\x00' ∉ v
  | .string | .url => '\x00' ∉ v
  | .delim => ∃ c, v = [c] ∧ Lexeme.isSymbol c = true
  | .number | .percentage | .dimension => lexemes v = [⟨.token kind v, v⟩]
  | .whitespace => ∀ c ∈ v, isSpace c = true
  | .badString | .badUrl | .ppComment => False
  | _ => v = []

namespace Lexeme

/-- Numbers, percentages and dimensions. -/
def isNumeric (kind : TokenKind) : Bool :=
  kind == .number || kind == .percentage || kind == .dimension

/-- If a name follows, a hash holds it. -/
theorem hash_of_startsName {rest : List Char} (h : startsName rest = true) :
    hash rest = (.token .hash (name rest).1, 1 + (name rest).2) := by
  cases rest with
  | nil => cases h
  | cons c rest => simp [hash, h]

/-- A hash need not hold a name that could stand alone: it may start with a digit. -/
theorem hash_of_plain {c : Char} (h : isPlainInName c = true) (rest : List Char) :
    hash (c :: rest) = (.token .hash (name (c :: rest)).1, 1 + (name (c :: rest)).2) := by
  have hcode := isPlainInName_iff.1 h
  have hcases : isNameStart c = true ∨ isDigit c = true ∨ c = '-' := by
    simp only [isNameStart_iff, isDigit, Bool.and_eq_true, decide_eq_true_eq, le_iff_toNat,
      eq_iff_toNat, Char.reduceToNat]
    omega
  rcases hcases with hstart | hdigit | rfl
  · exact hash_of_startsName (startsName_of_isNameStart hstart rest)
  · simp [hash, hdigit]
  · simp [hash]

/-- Either a hash holds a name, or it is a delimiter. -/
theorem hash_eq (rest : List Char) :
    (hash rest = (.token .delim ['#'], 1)) ∨
      (name rest).1 ≠ [] ∧ hash rest = (.token .hash (name rest).1, 1 + (name rest).2) := by
  unfold hash
  cases rest with
  | nil => exact .inl rfl
  | cons c rest =>
    dsimp only
    split
    · next h =>
      refine .inr ⟨?_, rfl⟩
      simp only [Bool.or_eq_true, beq_iff_eq] at h
      rcases h with (h | h) | rfl
      · exact name_ne_nil h
      · have hplain : isPlainInName c = true := by
          simp only [isDigit, Bool.and_eq_true, decide_eq_true_eq, le_iff_toNat,
            Char.reduceToNat] at h
          exact isPlainInName_iff.2 (by omega)
        have hread := writtenName_self hplain rest
        rw [List.singleton_append] at hread
        rw [hread]
        simp
      · have hread := writtenName_self (c := '-') (by decide) rest
        rw [List.singleton_append] at hread
        rw [hread]
        simp
    · exact .inl rfl

/-- What a name at the front of a text is read as, by what follows it. -/
theorem identLike_cases (t : List Char) :
    (∃ rest, t.drop (name t).2 = '(' :: rest ∧
      (((name t).1.map foldChar = ['u', 'r', 'l'] → urlContent rest = .quoted) ∧
          identLike t = (.token .function (name t).1, (name t).2 + 1) ∨
        (∃ v n, urlContent rest = .plain v n ∧
          identLike t = (.token .url v, (name t).2 + 1 + n)) ∨
        ∃ v n, identLike t = (.token .badUrl v, (name t).2 + 1 + n))) ∨
    ((t.drop (name t).2).head? ≠ some '(' ∧
      identLike t = (.token .ident (name t).1, (name t).2)) := by
  unfold identLike
  dsimp only
  split
  · next rest hopen =>
    refine .inl ⟨rest, hopen, ?_⟩
    split
    · next hurl =>
      split
      · next hquoted => exact .inl ⟨fun _ => hquoted, rfl⟩
      · next v n hplain => exact .inr (.inl ⟨v, n, hplain, rfl⟩)
      · next v n _ => exact .inr (.inr ⟨v, n, rfl⟩)
    · next hurl => exact .inl ⟨fun h => absurd (by simpa using h) hurl, rfl⟩
  · next hopen =>
    refine .inr ⟨fun h => ?_, rfl⟩
    cases hdrop : t.drop (name t).2 with
    | nil => rw [hdrop] at h; cases h
    | cons c rest =>
      rw [hdrop] at h
      cases h
      exact hopen rest hdrop

/-- Either a name follows and makes a keyword, or the sign is a delimiter. -/
theorem atKeyword_eq (rest : List Char) :
    atKeyword rest = (.token .delim ['@'], 1) ∨
      startsName rest = true ∧
        atKeyword rest = (.token .atKeyword (name rest).1, 1 + (name rest).2) := by
  unfold atKeyword
  cases hname : startsName rest with
  | false => exact .inl rfl
  | true => exact .inr ⟨rfl, rfl⟩

/-- What starts as a number is a number, a percentage or a dimension. -/
theorem exists_numeric (t : List Char) :
    ∃ kind v n, isNumeric kind = true ∧ numeric t = (.token kind v, n) := by
  rcases numeric_cases t with ⟨-, h⟩ | ⟨-, -, h⟩ | ⟨-, -, h⟩
  all_goals exact ⟨_, _, _, rfl, h⟩

section Carries

variable {c : Char} {rest t v : List Char} {kind : TokenKind} {n : Nat}

/-- Punctuation carries no text. -/
theorem carries_of_punctuation? (h : punctuation? c = some kind) :
    isNumeric kind = false ∧ kind.Carries [] := by
  unfold punctuation? at h
  split at h <;> first | (cases h; exact ⟨rfl, rfl⟩) | cases h

/-- Nor does an operator of two characters. -/
theorem carries_of_matcher? (h : matcher? c = some kind) :
    isNumeric kind = false ∧ kind.Carries [] := by
  unfold matcher? at h
  split at h <;> first | (cases h; exact ⟨rfl, rfl⟩) | cases h

/-- A string carries any text, if it is not broken off. -/
theorem carries_of_string (h : string c rest = (.token kind v, n)) :
    kind = .badString ∨ isNumeric kind = false ∧ kind.Carries v := by
  unfold Lexeme.string at h
  dsimp only at h
  split at h
  · cases h
    exact .inl rfl
  · cases h
    exact .inr ⟨rfl, nul_not_mem_quoted c rest⟩

/-- A hash carries a name; a delimiter carries the sign itself. -/
theorem carries_of_hash (h : hash rest = (.token kind v, n)) :
    isNumeric kind = false ∧ kind.Carries v := by
  rcases hash_eq rest with heq | ⟨hne, heq⟩
  · rw [heq] at h
    cases h
    exact ⟨rfl, '#', rfl, by decide⟩
  · rw [heq] at h
    cases h
    exact ⟨rfl, hne, nul_not_mem_name rest⟩

/-- So it is with a keyword. -/
theorem carries_of_atKeyword (h : atKeyword rest = (.token kind v, n)) :
    isNumeric kind = false ∧ kind.Carries v := by
  rcases atKeyword_eq rest with heq | ⟨hname, heq⟩
  · rw [heq] at h
    cases h
    exact ⟨rfl, '@', rfl, by decide⟩
  · rw [heq] at h
    cases h
    exact ⟨rfl, name_ne_nil hname, nul_not_mem_name rest⟩

/-- An identifier and a function carry a name, and a url carries any text, if it is not spoilt. -/
theorem carries_of_identLike (hname : startsName t = true)
    (h : identLike t = (.token kind v, n)) :
    kind = .badUrl ∨ isNumeric kind = false ∧ kind.Carries v := by
  have hvalue : (name t).1 ≠ [] ∧ '\x00' ∉ (name t).1 := ⟨name_ne_nil hname, nul_not_mem_name _⟩
  rcases identLike_cases t with
    ⟨more, -, ⟨-, heq⟩ | ⟨v', m, hplain, heq⟩ | ⟨v', m, heq⟩⟩ | ⟨-, heq⟩
  all_goals
    rw [heq] at h
    cases h
  · exact .inr ⟨rfl, hvalue⟩
  · exact .inr ⟨rfl, nul_not_mem_urlContent hplain⟩
  · exact .inl rfl
  · exact .inr ⟨rfl, hvalue⟩

/-- What starts nothing else is a symbol. -/
theorem isSymbol_of_single (hspace : isSpace c = false) (hquote : c ≠ '"' ∧ c ≠ '\'')
    (hpunctuation : punctuation? c = none) (hnumber : startsNumber (c :: rest) = false)
    (hname : startsName (c :: rest) = false) : isSymbol c = true := by
  have hstart : isNameStart c = false :=
    Bool.eq_false_iff.2 fun h => by rw [startsName_of_isNameStart h] at hname; cases hname
  have hdigit : isDigit c = false :=
    Bool.eq_false_iff.2 fun h => by rw [startsNumber_of_isDigit h] at hnumber; cases hnumber
  simp [isSymbol, hspace, hquote, hpunctuation, hstart, hdigit]

/-- **What is read can be written.** A token that is read carries a text of its kind, unless it is
broken; numbers are read only where one is at the front of the text. -/
theorem carries_of_read (h : read c rest = (.token kind v, n)) :
    kind = .badString ∨ kind = .badUrl ∨
      (isNumeric kind = true ∧ startsNumber (c :: rest) = true) ∨
      (isNumeric kind = false ∧ kind.Carries v) := by
  have hreads := reads_read c rest
  rw [h] at hreads
  generalize hx : (Lexeme.token kind v, n) = x at hreads
  cases hreads with
  | whitespace hspace =>
    cases hx
    refine .inr (.inr (.inr ⟨rfl, fun d hd => ?_⟩))
    exact List.all_eq_true.1 (List.all_takeWhile (p := isSpace)) d hd
  | string => exact (carries_of_string hx.symm).imp_right fun h => .inr (.inr h)
  | hash => exact .inr (.inr (.inr (carries_of_hash hx.symm)))
  | atKeyword => exact .inr (.inr (.inr (carries_of_atKeyword hx.symm)))
  | punctuation hkind =>
    cases hx
    exact .inr (.inr (.inr (carries_of_punctuation? hkind)))
  | numeric hnumber =>
    obtain ⟨kind', v', m, hkind, heq⟩ := exists_numeric (c :: rest)
    rw [heq] at hx
    cases hx
    exact .inr (.inr (.inl ⟨hkind, hnumber⟩))
  | comment => cases hx
  | cdo | cdc =>
    cases hx
    exact .inr (.inr (.inr ⟨rfl, rfl⟩))
  | identLike hname =>
    exact .inr ((carries_of_identLike hname hx.symm).imp_right .inr)
  | matcher hkind =>
    cases hx
    exact .inr (.inr (.inr (carries_of_matcher? hkind)))
  | single hspace hquote hpunctuation hnumber hname =>
    cases hx
    exact .inr (.inr (.inr
      ⟨rfl, c, rfl, isSymbol_of_single hspace hquote hpunctuation hnumber hname⟩))

end Carries

/-- A function `url` is read only in front of a quote. -/
theorem urlContent_of_read {c : Char} {rest v : List Char} {n : Nat}
    (h : read c rest = (.token .function v, n)) (hv : v.map foldChar = ['u', 'r', 'l']) :
    urlContent (rest.drop (n - 1)) = .quoted := by
  have hreads := reads_read c rest
  rw [h] at hreads
  generalize hx : (Lexeme.token .function v, n) = x at hreads
  cases hreads with
  | string =>
    unfold Lexeme.string at hx
    dsimp only at hx
    split at hx <;> cases hx
  | hash =>
    rcases hash_eq rest with heq | ⟨-, heq⟩
    all_goals
      rw [heq] at hx
      cases hx
  | atKeyword =>
    rcases atKeyword_eq rest with heq | ⟨-, heq⟩
    all_goals
      rw [heq] at hx
      cases hx
  | punctuation hkind =>
    cases hx
    unfold punctuation? at hkind
    split at hkind <;> cases hkind
  | numeric =>
    obtain ⟨kind, v', m, hkind, heq⟩ := exists_numeric (c :: rest)
    rw [heq] at hx
    cases hx
    cases hkind
  | identLike =>
    rcases identLike_cases (c :: rest) with
      ⟨more, hdrop, ⟨hurl, heq⟩ | ⟨v', m, -, heq⟩ | ⟨v', m, heq⟩⟩ | ⟨-, heq⟩
    · rw [heq] at hx
      cases hx
      have hrest : rest.drop ((name (c :: rest)).2 + 1 - 1) = more := by
        rw [Nat.add_sub_cancel, ← List.drop_succ_cons (a := c), ← List.drop_drop, hdrop]
        rfl
      rw [hrest]
      exact hurl hv
    all_goals
      rw [heq] at hx
      cases hx
  | matcher hkind =>
    cases hx
    unfold matcher? at hkind
    split at hkind <;> cases hkind
  | whitespace | comment | cdo | cdc | single => cases hx

/-- The tokens among the lexemes of a text carry a text of their kind, unless they are broken, or
numbers. -/
theorem carries_of_mem_lexemes {text v s : List Char} {kind : TokenKind}
    (h : ⟨.token kind v, s⟩ ∈ lexemes text) :
    kind = .badString ∨ kind = .badUrl ∨ isNumeric kind = true ∨ kind.Carries v := by
  induction text using lexemes_induction with
  | nil => rw [lexemes_nil] at h; cases h
  | cons c rest ih =>
    rw [lexemes_cons] at h
    rcases List.mem_cons.1 h with heq | h
    · injection heq with heq
      rcases carries_of_read (Prod.ext heq.symm rfl) with h | h | h | h
      · exact .inl h
      · exact .inr (.inl h)
      · exact .inr (.inr (.inl h.1))
      · exact .inr (.inr (.inr h.2))
    · exact ih h

/-! ## Blanks, strings and comments -/

/-- Blanks are one lexeme, up to the first character that is none. -/
theorem lexemes_blanks {v rest : List Char} (hv : v ≠ []) (hall : ∀ c ∈ v, isSpace c = true)
    (hrest : ∀ c, rest.head? = some c → isSpace c = false) :
    lexemes (v ++ rest) = ⟨.token .whitespace v, v⟩ :: lexemes rest := by
  refine lexemes_append hv fun c more heq => ?_
  have hc : isSpace c = true := by
    obtain ⟨d, v, rfl⟩ := List.exists_cons_of_ne_nil hv
    cases heq
    exact hall c (.head _)
  have hvalue : (c :: more).takeWhile isSpace = v := by
    rw [← heq, takeWhile_append_stop hrest]
    have htake : (v ++ []).takeWhile isSpace = v ++ [].takeWhile isSpace :=
      List.takeWhile_append_of_pos hall
    simpa using htake
  unfold read
  dsimp only
  rw [if_pos hc, hvalue]

/-- The written form of a string is read as that string, whatever follows. -/
theorem lexemes_string {v : List Char} (hv : '\x00' ∉ v) (rest : List Char) :
    lexemes (escapeString v ++ rest) = ⟨.token .string v, escapeString v⟩ :: lexemes rest := by
  refine lexemes_append (by simp [escapeString]) fun c more heq => ?_
  rw [escapeString, List.cons_append, List.append_assoc, List.singleton_append] at heq
  cases heq
  have hread : read '"' (v.flatMap escapeInString ++ '"' :: rest) =
      Lexeme.string '"' (v.flatMap escapeInString ++ '"' :: rest) := rfl
  rw [hread, Lexeme.string, quoted_escapeString hv]
  simp [escapeString]
  omega

/-- The separator is an empty comment. -/
theorem lexemes_separator (rest : List Char) :
    lexemes (Token.separator ++ rest) = ⟨.comment, Token.separator⟩ :: lexemes rest := by
  refine lexemes_append (by simp [Token.separator]) fun c more heq => ?_
  cases heq
  rfl

/-! ## Names -/

/-- A number without a sign starts with a digit or a point. -/
theorem startsUnsigned_cases {c : Char} {rest : List Char} (h : startsUnsigned (c :: rest) = true) :
    c = '.' ∨ isDigit c = true := by
  unfold startsUnsigned at h
  split at h
  · next heq =>
    cases heq
    exact .inl rfl
  · next heq =>
    cases heq
    exact .inr h
  · next heq => cases heq

/-- A name starts with a hyphen that something of a name follows, with an escape, or as itself. -/
theorem startsName_cases {c : Char} {rest : List Char} (h : startsName (c :: rest) = true) :
    (∃ d more, c = '-' ∧ rest = d :: more ∧ (isNameStart d = true ∨ d = '-' ∨ d = '\\')) ∨
      (c = '\\' ∧ startsNewline rest = false) ∨ isNameStart c = true := by
  unfold startsName at h
  split at h
  · next d more heq =>
    cases heq
    exact .inl ⟨d, more, rfl, rfl, by simpa [or_assoc] using h⟩
  · next heq =>
    cases heq
    exact .inr (.inl ⟨rfl, by simpa using h⟩)
  · next heq =>
    cases heq
    exact .inr (.inr h)
  · next heq => cases heq

/-- No number is where a name starts. -/
theorem startsNumber_of_startsName {c : Char} {rest : List Char} (h : startsName (c :: rest) = true) :
    startsNumber (c :: rest) = false := by
  have hdigit {d : Char} (hd : isDigit d = true) : 48 ≤ d.toNat ∧ d.toNat ≤ 57 := by
    simpa only [isDigit, Bool.and_eq_true, decide_eq_true_eq, le_iff_toNat,
      Char.reduceToNat] using hd
  refine Bool.eq_false_iff.2 fun hnumber => ?_
  rcases startsName_cases h with ⟨d, more, rfl, rfl, hd⟩ | ⟨rfl, -⟩ | hc
  · have hcode : d.toNat = 46 ∨ 48 ≤ d.toNat ∧ d.toNat ≤ 57 := by
      rcases startsUnsigned_cases hnumber with rfl | hd
      · exact .inl rfl
      · exact .inr (hdigit hd)
    rcases hd with hd | rfl | rfl
    · have hd := isNameStart_iff.1 hd
      omega
    · revert hcode
      decide
    · revert hcode
      decide
  · rcases startsNumber_cases hnumber with h | h | h | h <;> cases h
  · have hc := isNameStart_iff.1 hc
    rcases startsNumber_cases hnumber with rfl | rfl | rfl | hd
    · revert hc
      decide
    · revert hc
      decide
    · revert hc
      decide
    · have hd := hdigit hd
      omega

/-- An identifier, a function or a url is read where a name starts, unless it is `-->`. -/
theorem read_of_startsName {c : Char} {rest : List Char} (h : startsName (c :: rest) = true)
    (hcdc : ¬['-', '-', '>'] <+: c :: rest) : read c rest = identLike (c :: rest) := by
  have hcode : c.toNat = 45 ∨ c.toNat = 92 ∨ isNameStart c = true := by
    rcases startsName_cases h with ⟨-, -, rfl, -⟩ | ⟨rfl, -⟩ | hc
    · exact .inl rfl
    · exact .inr (.inl rfl)
    · exact .inr (.inr hc)
  rw [isNameStart_iff] at hcode
  have hne (d : Char) (hd : 0 < d.toNat ∧ d.toNat < 45 ∨ 45 < d.toNat ∧ d.toNat < 65 ∨
      d.toNat = 91 ∨ d.toNat = 93 ∨ d.toNat = 123 ∨ d.toNat = 125) : c ≠ d := by
    rintro rfl
    omega
  have hspace : isSpace c = false := by simp [isSpace, hne]
  have hpunctuation : punctuation? c = none := by
    unfold punctuation?
    split <;> first | rfl | (exfalso; revert hcode; decide)
  have hcdc : ¬('-' = c ∧ ['-', '>'] <+: rest) := by
    rwa [← List.cons_prefix_cons]
  unfold read
  simp [hspace, hpunctuation, startsNumber_of_startsName h, hcdc, h, hne,
    (hne '<' (by decide)).symm]

/-- The written form of an identifier is read back, if no name goes on behind it. -/
theorem name_escapeIdentifier {v rest : List Char} (hv : '\x00' ∉ v) (hrest : EndsName rest) :
    name (escapeIdentifier v ++ rest) = (v, (escapeIdentifier v).length) := by
  rw [writtenName_escapeIdentifier hv, name_of_endsName hrest, List.append_nil, Nat.add_zero]

/-- So is that of a name in a hash. -/
theorem name_escapeName {v rest : List Char} (hv : '\x00' ∉ v) (hrest : EndsName rest) :
    name (escapeName v ++ rest) = (v, (escapeName v).length) := by
  rw [writtenName_escapeName hv, name_of_endsName hrest, List.append_nil, Nat.add_zero]

/-- No identifier is written as nothing. -/
theorem escapeIdentifier_ne_nil {v : List Char} (hv : v ≠ []) (hnul : '\x00' ∉ v) :
    escapeIdentifier v ≠ [] := by
  intro hnil
  have hstart := startsName_escapeIdentifier hv hnul []
  rw [hnil] at hstart
  cases hstart

/-- What is written for the first character of a name starts with a hyphen only for a hyphen. -/
theorem eq_hyphen_of_prefix_escapeFirst {c : Char} (hc : c ≠ '\x00') {v rest : List Char}
    (h : '-' :: v <+: escapeFirst c ++ rest) : c = '-' := by
  rcases escapeFirst_cases hc with ⟨hw, -⟩ | ⟨w, hw, -⟩
  · rw [hw, List.singleton_append, List.cons_prefix_cons] at h
    exact h.1.symm
  · rw [hw, List.cons_append, List.cons_prefix_cons] at h
    cases h.1

/-- What is written for a name starts with `>` only if it is empty. -/
theorem eq_nil_of_prefix_escapeName {v : List Char} (hnul : '\x00' ∉ v) {rest : List Char}
    (h : ['>'] <+: escapeName v ++ rest) : v = [] := by
  cases v with
  | nil => rfl
  | cons c v =>
    have hc : c ≠ '\x00' := fun h => hnul (h ▸ .head _)
    rw [escapeName, List.flatMap_cons, List.append_assoc] at h
    rcases escapeInName_cases hc with ⟨hw, hplain⟩ | ⟨w, hw, -⟩
    · rw [hw, List.singleton_append, List.cons_prefix_cons] at h
      rw [← h.1] at hplain
      cases hplain
    · rw [hw, List.cons_append, List.cons_prefix_cons] at h
      cases h.1

/-- The written form of an identifier is `-->` only if `>` follows the identifier `--`. -/
theorem not_cdc_prefix {v rest : List Char} (hv : v ≠ []) (hnul : '\x00' ∉ v)
    (hrest : v = ['-', '-'] → rest.head? ≠ some '>') :
    ¬['-', '-', '>'] <+: escapeIdentifier v ++ rest := by
  rcases escapeIdentifier_eq hv with ⟨w, rfl, heq⟩ | ⟨-, heq⟩ | ⟨c, w, hc, rfl, heq⟩ |
      ⟨c, w, hc, rfl, heq⟩
  · rw [heq, List.cons_append, List.cons_append, List.cons_prefix_cons, List.cons_prefix_cons]
    rintro ⟨-, -, hsplit⟩
    obtain rfl := eq_nil_of_prefix_escapeName (fun h => hnul (.tail _ (.tail _ h))) hsplit
    obtain ⟨more, hmore⟩ := hsplit
    refine hrest rfl ?_
    rw [escapeName, List.flatMap_nil, List.nil_append] at hmore
    rw [← hmore]
    rfl
  · rw [heq, List.cons_append, List.cons_prefix_cons]
    rintro ⟨h, -⟩
    cases h
  · rw [heq, List.cons_append, List.cons_prefix_cons, List.append_assoc]
    rintro ⟨-, hsplit⟩
    exact hc (eq_hyphen_of_prefix_escapeFirst (fun h => hnul (h ▸ .tail _ (.head _))) hsplit)
  · rw [heq, List.append_assoc]
    intro hsplit
    exact hc (eq_hyphen_of_prefix_escapeFirst (fun h => hnul (h ▸ .head _)) hsplit)

section Names

variable {v rest : List Char} (hv : v ≠ []) (hnul : '\x00' ∉ v)
include hv hnul

/-- The written form of an identifier is read as a name, unless it starts `-->`. -/
theorem read_escapeIdentifier (hcdc : v = ['-', '-'] → rest.head? ≠ some '>') (c : Char)
    (more : List Char) (heq : escapeIdentifier v ++ rest = c :: more) :
    read c more = identLike (escapeIdentifier v ++ rest) := by
  have hstart := startsName_escapeIdentifier hv hnul rest
  have hsplit := not_cdc_prefix hv hnul hcdc
  rw [heq] at hstart hsplit ⊢
  exact read_of_startsName hstart hsplit

/-- The written form of an identifier is one lexeme, if what follows does not make it another one. -/
theorem lexemes_ident (hrest : EndsName rest) (hopen : rest.head? ≠ some '(')
    (hcdc : v = ['-', '-'] → rest.head? ≠ some '>') :
    lexemes (escapeIdentifier v ++ rest) =
      ⟨.token .ident v, escapeIdentifier v⟩ :: lexemes rest := by
  refine lexemes_append (escapeIdentifier_ne_nil hv hnul) fun c more heq => ?_
  have hname := name_escapeIdentifier hnul hrest
  rw [read_escapeIdentifier hv hnul hcdc c more heq]
  rcases identLike_cases (escapeIdentifier v ++ rest) with ⟨more, hdrop, -⟩ | ⟨-, hident⟩
  · rw [hname, List.drop_left] at hdrop
    rw [hdrop] at hopen
    exact absurd rfl hopen
  · rw [hident, hname]

/-- A function is read in front of what is no url without quotes. -/
theorem lexemes_function (hurl : v.map foldChar = ['u', 'r', 'l'] → urlContent rest = .quoted) :
    lexemes (escapeIdentifier v ++ ['('] ++ rest) =
      ⟨.token .function v, escapeIdentifier v ++ ['(']⟩ :: lexemes rest := by
  refine lexemes_append (by simp) fun c more heq => ?_
  rw [List.append_assoc, List.singleton_append] at heq
  have hends : EndsName ('(' :: rest) := by
    intro c hc
    cases hc
    decide
  have hname := name_escapeIdentifier hnul hends
  rw [read_escapeIdentifier hv hnul (fun _ => by simp) c more heq]
  simp only [identLike, hname, List.drop_left]
  split
  · next h => rw [hurl (by simpa using h), List.length_append, List.length_singleton]
  · rw [List.length_append, List.length_singleton]

/-- So is that of a keyword. -/
theorem lexemes_atKeyword (hrest : EndsName rest) :
    lexemes ('@' :: escapeIdentifier v ++ rest) =
      ⟨.token .atKeyword v, '@' :: escapeIdentifier v⟩ :: lexemes rest := by
  refine lexemes_append (by simp) fun c more heq => ?_
  rw [List.cons_append] at heq
  cases heq
  have hread : read '@' (escapeIdentifier v ++ rest) =
      Lexeme.atKeyword (escapeIdentifier v ++ rest) := rfl
  rw [hread, Lexeme.atKeyword, if_pos (startsName_escapeIdentifier hv hnul rest),
    name_escapeIdentifier hnul hrest, List.length_cons, Nat.add_comm]

/-- So is that of a hash. -/
theorem lexemes_hash (hrest : EndsName rest) :
    lexemes ('#' :: escapeName v ++ rest) =
      ⟨.token .hash v, '#' :: escapeName v⟩ :: lexemes rest := by
  refine lexemes_append (by simp) fun c more heq => ?_
  rw [List.cons_append] at heq
  cases heq
  have hread : read '#' (escapeName v ++ rest) = Lexeme.hash (escapeName v ++ rest) := rfl
  have hnamed : Lexeme.hash (escapeName v ++ rest) =
      (.token .hash (name (escapeName v ++ rest)).1, 1 + (name (escapeName v ++ rest)).2) := by
    obtain ⟨c, v, rfl⟩ := List.exists_cons_of_ne_nil hv
    have hc : c ≠ '\x00' := fun h => hnul (h ▸ .head _)
    rw [escapeName, List.flatMap_cons, List.append_assoc]
    rcases escapeInName_cases hc with ⟨hw, hplain⟩ | ⟨w, hw, hstands⟩
    · rw [hw]
      exact hash_of_plain hplain _
    · rw [hw]
      exact hash_of_startsName (startsName_escape hstands _)
  rw [hread, hnamed, name_escapeName hnul hrest, List.length_cons, Nat.add_comm]

end Names

/-! ## Numbers -/

/-- No more digits are taken than there are characters. -/
theorem hexDigits_le_length (limit sofar : Nat) (t : List Char) :
    (hexDigits limit sofar t).2 ≤ t.length := by
  fun_induction hexDigits limit sofar t with
  | case1 sofar limit c rest d _ value taken hdigits ih =>
    rw [hdigits] at ih
    exact Nat.succ_le_succ ih
  | case2 | case3 => exact Nat.zero_le _

/-- The blank behind an escape is part of the text. -/
theorem escapeEnd_le_length (t : List Char) : escapeEnd t ≤ t.length := by
  unfold escapeEnd
  split
  · simp
  · split <;> simp
  · simp

/-- So is the whole escape. -/
theorem escaped_le_length (t : List Char) : (escaped t).2 ≤ t.length := by
  unfold escaped
  split
  · simp
  · next c rest =>
    split
    · next d _ =>
      have hdigits := hexDigits_le_length 5 d rest
      have hend := escapeEnd_le_length (rest.drop (hexDigits 5 d rest).2)
      rw [List.length_drop] at hend
      rw [List.length_cons]
      dsimp only
      omega
    · split <;> simp

/-- So is a name. -/
theorem name_le_length (t : List Char) : (name t).2 ≤ t.length := by
  fun_induction name t with
  | case1 | case2 | case6 => exact Nat.zero_le _
  | case3 c rest hback hline e n hescaped value taken hname ih =>
    have hle := escaped_le_length rest
    rw [hescaped] at hle
    rw [hname, List.length_drop] at ih
    rw [List.length_cons]
    dsimp only at hle ih ⊢
    omega
  | case4 c rest hback hnul value taken hname ih =>
    rw [hname] at ih
    rw [List.length_cons, Nat.add_comm]
    exact Nat.succ_le_succ ih
  | case5 c rest hback hnul hplain value taken hname ih =>
    rw [hname] at ih
    rw [List.length_cons, Nat.add_comm]
    exact Nat.succ_le_succ ih

/-- So is an exponent. -/
theorem exponent_le_length (t : List Char) : (exponent t).2 ≤ t.length := by
  unfold exponent
  split
  · next c rest =>
    dsimp only
    split
    · split
      · simp
      · have hsign := sign_le_length rest
        have hdigits := (List.takeWhile_prefix (l := rest.drop (sign rest).2) isDigit).length_le
        rw [List.length_drop] at hdigits
        rw [List.length_cons]
        unfold digits
        omega
    · simp
  · simp

/-- So is a number without its unit. -/
theorem numeral_le_length (t : List Char) : (numeral t).2 ≤ t.length := by
  have hfraction := fractionEnd_le_length t
  have hexponent := exponent_le_length (t.drop (fractionEnd t))
  rw [List.length_drop] at hexponent
  rw [numeral_snd]
  omega

/-- A number takes up no more than there is. -/
theorem numeric_le_length (t : List Char) : (numeric t).2 ≤ t.length := by
  have hnumeral := numeral_le_length t
  rcases numeric_cases t with ⟨hhead, heq⟩ | ⟨-, -, heq⟩ | ⟨-, -, heq⟩
  · rw [heq]
    refine Nat.lt_of_le_of_ne hnumeral fun hall => ?_
    rw [hall, List.drop_length] at hhead
    cases hhead
  · have hname := name_le_length (t.drop (numeral t).2)
    rw [List.length_drop] at hname
    rw [heq]
    dsimp only
    omega
  · rw [heq]
    exact hnumeral

/-- A fraction takes up at least its point. -/
theorem fraction_pos {d : Char} {rest : List Char} (h : isDigit d = true) :
    0 < (fraction ('.' :: d :: rest)).2 := by
  simp only [fraction, digits, List.takeWhile_cons, h, if_true, List.isEmpty_cons,
    Bool.false_eq_true, if_false, List.length_cons]
  omega

/-- A number takes up at least one character. -/
theorem numeral_pos {t : List Char} (h : startsNumber t = true) : 0 < (numeral t).2 := by
  rw [numeral_snd, fractionEnd, wholeEnd]
  unfold startsNumber at h
  split at h
  · exact Nat.lt_of_lt_of_le Nat.one_pos (by simp only [sign]; omega)
  · exact Nat.lt_of_lt_of_le Nat.one_pos (by simp only [sign]; omega)
  · next hplus hminus =>
    unfold startsUnsigned at h
    split at h
    · next d rest =>
      have hfraction : 0 < (fraction ('.' :: d :: rest)).2 := fraction_pos h
      have hnone : sign ('.' :: d :: rest) = (false, 0) := rfl
      have hdigits : digits ('.' :: d :: rest) = [] := rfl
      rw [hnone, List.drop_zero, hdigits, List.length_nil, Nat.zero_add, List.drop_zero]
      omega
    · next c rest _ =>
      have hnone : sign (c :: rest) = (false, 0) := by
        refine sign_eq_none ⟨fun heq => ?_, fun heq => ?_⟩
        · exact hplus rest (by rw [Option.some.inj heq])
        · exact hminus rest (by rw [Option.some.inj heq])
      have hdigits : 0 < (digits (c :: rest)).length := by simp [digits, h]
      rw [hnone, List.drop_zero]
      omega
    · cases h

/-- A number takes up something. -/
theorem numeric_pos {t : List Char} (h : startsNumber t = true) : 0 < (numeric t).2 := by
  have hnumeral := numeral_pos h
  rcases numeric_cases t with ⟨-, heq⟩ | ⟨-, -, heq⟩ | ⟨-, -, heq⟩
  all_goals
    rw [heq]
    dsimp only
    omega

/-- Only the empty text has no lexemes. -/
theorem lexemes_eq_nil_iff {t : List Char} : lexemes t = [] ↔ t = [] := by
  cases t with
  | nil => simp [lexemes_nil]
  | cons c rest => simp [lexemes_cons]

/-- A number that stands alone is read as one. -/
theorem numeric_of_lexemes {kind : TokenKind} {v : List Char} (hkind : isNumeric kind = true)
    (hv : lexemes v = [⟨.token kind v, v⟩]) :
    startsNumber v = true ∧ numeric v = (.token kind v, v.length) := by
  cases v with
  | nil =>
    rw [lexemes_nil] at hv
    cases hv
  | cons c w =>
    rw [lexemes_cons] at hv
    obtain ⟨hfirst, hrest⟩ := List.cons.inj hv
    injection hfirst with hlexeme hsource
    rcases carries_of_read (Prod.ext hlexeme rfl) with rfl | rfl | ⟨-, hnumber⟩ | ⟨hne, -⟩
    · cases hkind
    · cases hkind
    · have hread := read_of_startsNumber hnumber
      have hle := numeric_le_length (c :: w)
      have hge := List.drop_eq_nil_iff.1 (lexemes_eq_nil_iff.1 hrest)
      rw [hread] at hlexeme hge
      rw [List.length_cons] at hle
      have hpos := numeric_pos hnumber
      refine ⟨hnumber, Prod.ext hlexeme ?_⟩
      rw [List.length_cons]
      dsimp only
      omega
    · rw [hne] at hkind
      cases hkind

/-- What does not continue a number. -/
def EndsNumber (kind : TokenKind) (rest : List Char) : Prop :=
  match kind with
  | .number => EndsName rest ∧ rest.head? ≠ some '.' ∧ rest.head? ≠ some '%'
  | .dimension => EndsName rest
  | _ => True

/-- **Numbers are read back** in front of what does not continue them if they are where they stand
alone. -/
theorem lexemes_numeric {kind : TokenKind} {v rest : List Char} (hkind : isNumeric kind = true)
    (hv : lexemes v = [⟨.token kind v, v⟩]) (hrest : EndsNumber kind rest) :
    lexemes (v ++ rest) = ⟨.token kind v, v⟩ :: lexemes rest := by
  obtain ⟨hstart, hread⟩ := numeric_of_lexemes hkind hv
  have hne : v ≠ [] := by
    rintro rfl
    cases hstart
  have happend : numeric (v ++ rest) = numeric v := by
    cases kind <;> try cases hkind
    case number => exact numeric_append_of_number hne hread hrest.1 hrest.2.1 hrest.2.2
    case percentage => exact numeric_append_of_percentage hstart hread
    case dimension => exact numeric_append_of_dimension hne hread hrest
  refine lexemes_append hne fun c more heq => ?_
  have hnumber := startsNumber_append rest hstart
  rw [heq] at hnumber happend
  rw [read_of_startsNumber hnumber, happend, hread]

end Lexeme

/-! ## Tokens -/

namespace Token

/-- Whether a token carries a text of its kind. -/
def Legible (t : Token) : Prop := t.kind.Carries t.value.toList

/-- The lexemes of the written form of a token. A url is written as a function with a string. -/
def lexed (t : Token) : List Sourced :=
  let value := t.value.toList
  match t.kind with
  | .url =>
    [⟨.token .function "url".toList, "url(".toList⟩, ⟨.token .string value, escapeString value⟩,
      ⟨.token .rightParen [], [')']⟩]
  | .whitespace => [⟨.token .whitespace t.chars, t.chars⟩]
  | kind => [⟨.token kind value, t.chars⟩]

/-- What does not continue the written form of a token. A function `url` has to go on with a
string. -/
def EndsBefore (t : Token) (rest : List Char) : Prop :=
  match t.kind with
  | .ident =>
    Lexeme.EndsName rest ∧ rest.head? ≠ some '(' ∧
      (t.value.toList = ['-', '-'] → rest.head? ≠ some '>')
  | .function =>
    t.value.toList.map foldChar = ['u', 'r', 'l'] → Lexeme.urlContent rest = .quoted
  | .atKeyword | .hash => Lexeme.EndsName rest
  | .number | .percentage | .dimension => Lexeme.EndsNumber t.kind rest
  | .whitespace => ∀ c, rest.head? = some c → isSpace c = false
  | .delim => ∀ c, t.value.toList = [c] → Lexeme.read c rest = Lexeme.single c
  | _ => True

/-- Whitespace is written as blanks, and not as nothing. -/
theorem chars_whitespace {t : Token} (hkind : t.kind = .whitespace) (h : t.Legible) :
    t.chars ≠ [] ∧ ∀ c ∈ t.chars, isSpace c = true := by
  unfold Legible at h
  rw [hkind] at h
  unfold chars
  rw [hkind]
  dsimp only
  split
  · next hvalue =>
    rw [Bool.and_eq_true, Bool.not_eq_true', List.isEmpty_eq_false_iff] at hvalue
    exact ⟨hvalue.1, h⟩
  · refine ⟨by simp, fun c hc => ?_⟩
    rw [List.mem_singleton.1 hc]
    rfl

/-- A url is read back as a function with a string. -/
theorem lexemes_url {v : List Char} (h : '\x00' ∉ v) (rest : List Char) :
    lexemes ("url(".toList ++ escapeString v ++ [')'] ++ rest) =
      [⟨.token .function "url".toList, "url(".toList⟩, ⟨.token .string v, escapeString v⟩,
        ⟨.token .rightParen [], [')']⟩] ++ lexemes rest := by
  have hquoted : Lexeme.urlContent (escapeString v ++ ([')'] ++ rest)) = .quoted := rfl
  have hfunction := Lexeme.lexemes_function (v := "url".toList) (by decide) (by decide)
    fun _ => hquoted
  have hclose : lexemes ([')'] ++ rest) = ⟨.token .rightParen [], [')']⟩ :: lexemes rest := by
    refine Lexeme.lexemes_append (by simp) fun c more heq => ?_
    cases heq
    rfl
  rw [Lexeme.lexemes_string h, hclose] at hfunction
  rw [List.append_assoc, List.append_assoc]
  exact hfunction

/-- **Tokens are read back.** The written form of a token is read as that token, in front of what
does not continue it. -/
theorem lexemes_chars_append {t : Token} {rest : List Char} (h : t.Legible)
    (hrest : t.EndsBefore rest) : lexemes (t.chars ++ rest) = t.lexed ++ lexemes rest := by
  have hlegible := h
  unfold Legible TokenKind.Carries at h
  unfold EndsBefore at hrest
  cases hkind : t.kind <;> simp only [hkind] at h hrest
  case ident =>
    simp only [chars, lexed, hkind]
    exact Lexeme.lexemes_ident h.1 h.2 hrest.1 hrest.2.1 hrest.2.2
  case function =>
    simp only [chars, lexed, hkind]
    exact Lexeme.lexemes_function h.1 h.2 hrest
  case atKeyword =>
    simp only [chars, lexed, hkind]
    exact Lexeme.lexemes_atKeyword h.1 h.2 hrest
  case hash =>
    simp only [chars, lexed, hkind]
    exact Lexeme.lexemes_hash h.1 h.2 hrest
  case string =>
    simp only [chars, lexed, hkind]
    exact Lexeme.lexemes_string h rest
  case url =>
    simp only [chars, lexed, hkind]
    exact lexemes_url h rest
  case number =>
    simp only [chars, lexed, hkind]
    exact Lexeme.lexemes_numeric rfl h hrest
  case percentage =>
    simp only [chars, lexed, hkind]
    exact Lexeme.lexemes_numeric rfl h hrest
  case dimension =>
    simp only [chars, lexed, hkind]
    exact Lexeme.lexemes_numeric rfl h hrest
  case whitespace =>
    obtain ⟨hne, hall⟩ := chars_whitespace hkind hlegible
    simp only [lexed, hkind]
    exact Lexeme.lexemes_blanks hne hall hrest
  case delim =>
    obtain ⟨c, hvalue, -⟩ := h
    simp only [chars, lexed, hkind, hvalue]
    refine Lexeme.lexemes_append (by simp) fun d more heq => ?_
    cases heq
    exact hrest c hvalue
  all_goals
    simp only [chars, lexed, hkind, h]
    refine Lexeme.lexemes_append (by simp) fun c more heq => ?_
    cases heq
    rfl

end Token

end StyleGate
