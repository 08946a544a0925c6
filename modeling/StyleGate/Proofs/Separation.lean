import StyleGate.Proofs.Lexing

/-!
# Separated tokens

Between two tokens that would be read together `Token.render` writes an empty comment. The table of
those pairs leaves out three cases: a `>` after the identifier `--`, a `*=` after a slash, and any
token after a backslash, which takes in the comment itself. `Token.separable` excludes just these,
and `Token.lexemes_charsAll_iff` says that written tokens are read back one by one exactly then.
-/

namespace StyleGate

open Text

namespace Lexeme

/-- A symbol is a character that starts no other sort of token. -/
theorem isSymbol_iff {c : Char} : isSymbol c = true ↔
    isSpace c = false ∧ c ≠ '"' ∧ c ≠ '\'' ∧ punctuation? c = none ∧ isNameStart c = false ∧
      isDigit c = false := by
  simp [isSymbol, and_assoc]

/-- Symbols are no characters of names, but for the hyphen. -/
theorem not_plain_of_isSymbol {c : Char} (h : isSymbol c = true) (hhyphen : c ≠ '-') :
    isPlainInName c = false ∧ c ≠ '\x00' := by
  obtain ⟨-, -, -, -, hstart, hdigit⟩ := isSymbol_iff.1 h
  have hhyphen : c.toNat ≠ 45 := fun heq => hhyphen (eq_iff_toNat.2 heq)
  rw [← Bool.not_eq_true, isNameStart_iff] at hstart
  rw [← Bool.not_eq_true, isDigit, Bool.and_eq_true, decide_eq_true_eq, decide_eq_true_eq,
    le_iff_toNat, le_iff_toNat] at hdigit
  simp only [Char.reduceToNat] at hdigit
  refine ⟨?_, ?_⟩
  · rw [← Bool.not_eq_true, isPlainInName_iff]
    omega
  · rintro rfl
    revert hstart
    decide

/-! ## Delimiters -/

/-- A point before no digit starts no number. -/
theorem startsUnsigned_of_point {rest : List Char} (h : startsUnsigned rest = false) :
    startsUnsigned ('.' :: rest) = false := by
  cases rest with
  | nil => rfl
  | cons d rest =>
    refine Bool.eq_false_iff.2 fun hd => ?_
    have hd : isDigit d = true := hd
    have hne : d ≠ '.' := by
      rintro rfl
      cases hd
    rw [startsUnsigned, hd] at h
    · cases h
    · exact fun _ _ heq _ => hne heq

/-- Without a name behind it, a hash sign is a delimiter. -/
theorem hash_of_endsName {rest : List Char} (h : EndsName rest) :
    hash rest = (.token .delim ['#'], 1) := by
  unfold hash
  cases rest with
  | nil => rfl
  | cons c rest =>
    have hdigit := isDigit_of_endsName h c rfl
    have hhyphen : c ≠ '-' := fun heq => head?_ne_of_endsName h (c := '-') (by decide) (by simp [heq])
    simp [startsName_of_endsName h, hdigit, hhyphen]

/-- So is an at-sign. -/
theorem atKeyword_of_endsName {rest : List Char} (h : EndsName rest) :
    atKeyword rest = (.token .delim ['@'], 1) := by
  simp [atKeyword, startsName_of_endsName h]

/-- A symbol starts a number only as its sign or its point. -/
theorem startsNumber_of_isSymbol {c : Char} {rest : List Char} (hc : isSymbol c = true)
    (hnumber : c = '+' ∨ c = '-' ∨ c = '.' → startsUnsigned rest = false) :
    startsNumber (c :: rest) = false := by
  refine Bool.eq_false_iff.2 fun h => ?_
  rcases startsNumber_cases h with rfl | rfl | rfl | hdigit
  · have hrest : startsUnsigned rest = true := h
    rw [hnumber (by simp)] at hrest
    cases hrest
  · have hrest : startsUnsigned rest = true := h
    rw [hnumber (by simp)] at hrest
    cases hrest
  · have hrest : startsUnsigned ('.' :: rest) = true := h
    rw [startsUnsigned_of_point (hnumber (by simp))] at hrest
    cases hrest
  · obtain ⟨-, -, -, -, -, hnodigit⟩ := isSymbol_iff.1 hc
    rw [hnodigit] at hdigit
    cases hdigit

/-- A symbol starts a name only as its first hyphen or as the backslash of an escape. -/
theorem startsName_of_isSymbol {c : Char} {rest : List Char} (hc : isSymbol c = true)
    (hback : c ≠ '\\') (hname : c = '-' → EndsName rest) : startsName (c :: rest) = false := by
  refine Bool.eq_false_iff.2 fun h => ?_
  rcases startsName_cases h with ⟨d, more, rfl, rfl, hd⟩ | ⟨rfl, -⟩ | hstart
  · obtain ⟨hplain, hnul, hescape⟩ := hname rfl d rfl
    rcases hd with hd | rfl | rfl
    · rw [isPlainInName_of_isNameStart hd hnul] at hplain
      cases hplain
    · exact head?_ne_of_endsName (hname rfl) (by decide) rfl
    · exact hescape rfl
  · exact hback rfl
  · obtain ⟨-, -, -, -, hnostart, -⟩ := isSymbol_iff.1 hc
    rw [hnostart] at hstart
    cases hstart

/-- **Delimiters are read back.** A symbol is read as a delimiter in front of what makes nothing
longer of it. -/
theorem read_eq_single {c : Char} {rest : List Char} (hc : isSymbol c = true) (hback : c ≠ '\\')
    (hname : c = '#' ∨ c = '@' ∨ c = '-' → EndsName rest)
    (hnumber : c = '+' ∨ c = '-' ∨ c = '.' → startsUnsigned rest = false)
    (hcomment : c = '/' → rest.head? ≠ some '*') (hcdo : c = '<' → rest.head? ≠ some '!')
    (hmatch : matcher? c ≠ none → rest.head? ≠ some '=') : read c rest = single c := by
  obtain ⟨hspace, hdouble, hquote, hpunctuation, -, -⟩ := isSymbol_iff.1 hc
  by_cases hhash : c = '#'
  · subst hhash
    exact hash_of_endsName (hname (.inl rfl))
  by_cases hat : c = '@'
  · subst hat
    exact atKeyword_of_endsName (hname (.inr (.inl rfl)))
  -- what is left to exclude are the lexemes that `read` tries before a single symbol
  have hnonumber := startsNumber_of_isSymbol hc hnumber
  have hnoname := startsName_of_isSymbol hc hback fun heq => hname (.inr (.inr heq))
  have hnocdo : ¬('<' = c ∧ ['!', '-', '-'] <+: rest) := by
    rintro ⟨rfl, more, rfl⟩
    exact hcdo rfl rfl
  have hnocdc : ¬('-' = c ∧ ['-', '>'] <+: rest) := by
    rintro ⟨rfl, more, rfl⟩
    exact head?_ne_of_endsName (hname (by simp)) (by decide) rfl
  have hnocomment : ¬(c = '/' ∧ rest.head? = some '*') := fun h => hcomment h.1 h.2
  unfold read
  simp [hspace, hdouble, hquote, hhash, hat, hpunctuation, hnonumber, hnoname, hnocdo, hnocdc,
    hnocomment]
  split
  · next hkind heq => exact absurd heq (hmatch (by simp [hkind]))
  · rfl

/-- The written form of an identifier starts with a character of names or a backslash. -/
theorem head?_escapeIdentifier {v rest : List Char} {d : Char} (hv : v ≠ []) (hnul : '\x00' ∉ v)
    (h : (escapeIdentifier v ++ rest).head? = some d) : isPlainInName d = true ∨ d = '\\' := by
  rcases escapeIdentifier_eq hv with ⟨w, rfl, heq⟩ | ⟨-, heq⟩ | ⟨c, w, -, rfl, heq⟩ |
      ⟨c, w, -, rfl, heq⟩
  · rw [heq] at h
    cases h
    decide
  · rw [heq] at h
    cases h
    decide
  · rw [heq] at h
    cases h
    decide
  · have hc : c ≠ '\x00' := fun h => hnul (h ▸ .head _)
    rw [heq] at h
    rcases escapeFirst_cases hc with ⟨hw, hstart | rfl⟩ | ⟨w', hw, -⟩
    · rw [hw] at h
      cases h
      exact .inl (isPlainInName_of_isNameStart hstart hc)
    · rw [hw] at h
      cases h
      decide
    · rw [hw] at h
      cases h
      exact .inr rfl

end Lexeme

namespace Token

/-! ## How tokens start -/

/-- The characters that only punctuation and the starts of hashes, strings and at-keywords begin
with. -/
def signs : List Char :=
  ['"', '@', '#', ')', '[', ']', '\x7b', '\x7d', ',', ':', ';', '<', '~', '|', '^', '$']

/-- No name goes on with one of these characters. -/
theorem endsName_of_mem_signs :
    ∀ d ∈ signs, isPlainInName d = false ∧ d ≠ '\x00' ∧ d ≠ '\\' := by
  have hall : signs.all (fun d => !isPlainInName d && (d != '\x00' && d != '\\')) = true := by decide
  intro d hd
  simpa using List.all_eq_true.1 hall d hd

/-- None of them is a blank. -/
theorem isSpace_of_mem_signs : ∀ d ∈ signs, isSpace d = false := by
  have hall : signs.all (fun d => !isSpace d) = true := by decide
  intro d hd
  simpa using List.all_eq_true.1 hall d hd

/-- There are five blanks. -/
theorem isSpace_cases {c : Char} (h : isSpace c = true) :
    c = ' ' ∨ c = '\t' ∨ c = '\n' ∨ c = '\r' ∨ c = '\x0c' := by
  simpa [isSpace, or_assoc] using h

/-- A number starts with a character of names, a plus sign or a point. -/
theorem head?_of_isNumeric {kind : TokenKind} {v rest : List Char} {d : Char}
    (hkind : Lexeme.isNumeric kind = true) (hv : lexemes v = [⟨.token kind v, v⟩])
    (hd : (v ++ rest).head? = some d) : isPlainInName d = true ∨ d = '+' ∨ d = '.' := by
  obtain ⟨hstart, -⟩ := Lexeme.numeric_of_lexemes hkind hv
  have hstart := Lexeme.startsNumber_append rest hstart
  obtain ⟨more, happend⟩ := List.head?_eq_some_iff.1 hd
  rw [happend] at hstart
  rcases Lexeme.startsNumber_cases hstart with rfl | rfl | rfl | hdigit
  · simp
  · exact .inl (by decide)
  · simp
  · simp only [Lexeme.isDigit, Bool.and_eq_true, decide_eq_true_eq, le_iff_toNat,
      Char.reduceToNat] at hdigit
    exact .inl (isPlainInName_iff.2 (by omega))

/-- The characters that the written form of a token may start with. -/
inductive MayStart (t : Token) (d : Char) : Prop
  | word : t.startsWord = true → isPlainInName d = true ∨ d = '\\' → MayStart t d
  | number : t.startsNumber = true → d = '+' ∨ d = '.' → MayStart t d
  | delim : t.kind = .delim → t.value.toList = [d] → Lexeme.isSymbol d = true → MayStart t d
  | blank : t.kind = .whitespace → isSpace d = true → MayStart t d
  | paren : t.kind = .leftParen → d = '(' → MayStart t d
  | star : t.kind = .substringMatch → d = '*' → MayStart t d
  | sign : d ∈ signs → MayStart t d

/-- How the written form of a token starts. -/
theorem mayStart_of_head? {t : Token} {rest : List Char} {d : Char} (h : t.Legible)
    (hd : (t.chars ++ rest).head? = some d) : t.MayStart d := by
  have hlegible := h
  unfold Legible TokenKind.Carries at h
  cases hkind : t.kind <;> simp only [hkind] at h
  case ident =>
    simp only [chars, hkind] at hd
    exact .word (by simp [startsWord, hkind]) (Lexeme.head?_escapeIdentifier h.1 h.2 hd)
  case function =>
    simp only [chars, hkind, List.append_assoc] at hd
    exact .word (by simp [startsWord, hkind]) (Lexeme.head?_escapeIdentifier h.1 h.2 hd)
  case number | percentage | dimension =>
    simp only [chars, hkind] at hd
    rcases head?_of_isNumeric rfl h hd with hd | hd
    · exact .word (by simp [startsWord, hkind]) (.inl hd)
    · exact .number (by simp [startsNumber, hkind]) hd
  case delim =>
    obtain ⟨c, hvalue, hc⟩ := h
    simp only [chars, hkind, hvalue] at hd
    cases hd
    exact .delim hkind hvalue hc
  case whitespace =>
    obtain ⟨hne, hall⟩ := chars_whitespace hkind hlegible
    obtain ⟨c, w, heq⟩ := List.exists_cons_of_ne_nil hne
    rw [heq] at hd
    cases hd
    exact .blank hkind (hall _ (by rw [heq]; exact .head _))
  case url | cdc =>
    simp only [chars, hkind] at hd
    cases hd
    exact .word (by simp [startsWord, hkind]) (.inl (by decide))
  case leftParen =>
    simp only [chars, hkind] at hd
    cases hd
    exact .paren hkind rfl
  case substringMatch =>
    simp only [chars, hkind] at hd
    cases hd
    exact .star hkind rfl
  all_goals
    simp only [chars, hkind] at hd
    cases hd
    exact .sign (by decide)

/-! ## Pairs that no separator keeps apart -/

/-- Whether a token is the delimiter `\`. -/
def isBackslash (t : Token) : Bool := t.kind == .delim && t.value == "\\"

/-- Whether two adjacent tokens are read together although no separator is written between them:
`--` and `>` as `-->`, a slash and `*=` as the start of a comment. -/
def glues (previous next : Token) : Bool :=
  (previous.kind == .ident && previous.value == "--" && next.kind == .delim && next.value == ">") ||
    (previous.kind == .delim && previous.value == "/" && next.kind == .substringMatch)

/-- Whether no tokens of a list are read together when they are written: there is no backslash, and
no two adjacent tokens glue. -/
def separable : List Token → Bool
  | [] => true
  | t :: rest => !t.isBackslash && !(rest.head?.any t.glues) && separable rest

/-- A token has a name if its characters are those of it. -/
theorem isNamed_of_toList {t : Token} {kind : TokenKind} {name : String} (hkind : t.kind = kind)
    (hvalue : t.value.toList = name.toList) : t.isNamed kind name = true := by
  simp [isNamed, hkind, String.toList_inj.1 hvalue]

/-- A delimiter that is no backslash carries none. -/
theorem ne_backslash {t : Token} {c : Char} (hkind : t.kind = .delim) (hvalue : t.value.toList = [c])
    (h : t.isBackslash = false) : c ≠ '\\' := by
  rintro rfl
  have hvalue : t.value = "\\" := String.toList_inj.1 hvalue
  simp [isBackslash, hkind, hvalue] at h

/-- What starts no word starts no number. -/
theorem startsNumber_of_startsWord {t : Token} (h : t.startsWord = false) :
    t.startsNumber = false := by
  unfold startsWord at h
  unfold startsNumber
  split at h <;> simp_all

/-- Whether a character starts no name, blank, bracket or mark, but a delimiter, a number or `*=`. -/
def startsSingle (d : Char) : Bool :=
  !isPlainInName d && d != '\\' && !isSpace d && d != '(' && !signs.contains d

/-- Such a character goes on with no name and starts no escape, blank, bracket or mark. -/
theorem startsSingle_iff {d : Char} : startsSingle d = true ↔
    isPlainInName d = false ∧ d ≠ '\\' ∧ isSpace d = false ∧ d ≠ '(' ∧ d ∉ signs := by
  simp [startsSingle, and_assoc]

section Heads

variable {t : Token} {rest : List Char} (h : t.Legible)
include h

/-- A token that does not continue a name ends one. -/
theorem endsName_chars (hword : t.startsWord = false) (hback : t.isBackslash = false) :
    Lexeme.EndsName (t.chars ++ rest) := by
  intro d hd
  cases mayStart_of_head? h hd with
  | word hstart =>
    rw [hstart] at hword
    cases hword
  | number hstart =>
    rw [startsNumber_of_startsWord hword] at hstart
    cases hstart
  | delim hkind hvalue hsymbol =>
    have hhyphen : d ≠ '-' := by
      rintro rfl
      have hnamed : t.isNamed .delim "-" = true := isNamed_of_toList hkind hvalue
      simp [startsWord, hkind, hnamed] at hword
    obtain ⟨hplain, hnul⟩ := Lexeme.not_plain_of_isSymbol hsymbol hhyphen
    exact ⟨hplain, hnul, ne_backslash hkind hvalue hback⟩
  | blank _ hspace => rcases isSpace_cases hspace with rfl | rfl | rfl | rfl | rfl <;> decide
  | paren _ heq => subst heq; decide
  | star _ heq => subst heq; decide
  | sign hsign => exact endsName_of_mem_signs d hsign

/-- Only an opening parenthesis starts with one. -/
theorem head?_ne_paren (hkind : t.kind ≠ .leftParen) : (t.chars ++ rest).head? ≠ some '(' := by
  intro hd
  cases mayStart_of_head? h hd with
  | word _ hstart => rcases hstart with hplain | hback <;> contradiction
  | number _ hstart => rcases hstart with hplus | hpoint <;> contradiction
  | delim _ _ hsymbol => cases hsymbol
  | blank _ hspace => cases hspace
  | paren hparen => exact hkind hparen
  | star _ heq => cases heq
  | sign hsign => revert hsign; decide

/-- What starts with a character that starts no name, blank, bracket or mark is that delimiter, a
number, or `*=`. -/
theorem delim_of_head? {d : Char} (hd : (t.chars ++ rest).head? = some d)
    (hsingle : startsSingle d = true) :
    (t.startsNumber = true ∧ (d = '+' ∨ d = '.')) ∨ (t.kind = .delim ∧ t.value.toList = [d]) ∨
      (t.kind = .substringMatch ∧ d = '*') := by
  obtain ⟨hplain, hback, hspace, hparen, hsigns⟩ := startsSingle_iff.1 hsingle
  cases mayStart_of_head? h hd with
  | word _ hstart =>
    rcases hstart with hname | hescape
    · rw [hplain] at hname
      cases hname
    · exact absurd hescape hback
  | number hstart hsign => exact .inl ⟨hstart, hsign⟩
  | delim hkind hvalue => exact .inr (.inl ⟨hkind, hvalue⟩)
  | blank _ hblank =>
    rw [hspace] at hblank
    cases hblank
  | paren _ hopen => exact absurd hopen hparen
  | star hkind heq => exact .inr (.inr ⟨hkind, heq⟩)
  | sign hsign => exact absurd hsign hsigns

/-- Such a character at the front is a delimiter, but for the starts of numbers and of `*=`. -/
theorem head?_ne_of_not_named {d : Char} {name : String} (hname : name.toList = [d])
    (hnamed : t.isNamed .delim name = false) (hsingle : startsSingle d = true)
    (hnumber : d = '+' ∨ d = '.' → t.startsNumber = false)
    (hstar : d = '*' → t.kind ≠ .substringMatch) : (t.chars ++ rest).head? ≠ some d := by
  intro hd
  rcases delim_of_head? h hd hsingle with ⟨hstart, hsign⟩ | ⟨hkind, hvalue⟩ | ⟨hkind, heq⟩
  · rw [hnumber hsign] at hstart
    cases hstart
  · rw [isNamed_of_toList hkind (hvalue.trans hname.symm)] at hnamed
    cases hnamed
  · exact hstar heq hkind

/-- Only whitespace starts with a blank. -/
theorem isSpace_head? {d : Char} (hkind : t.kind ≠ .whitespace)
    (hd : (t.chars ++ rest).head? = some d) : isSpace d = false := by
  cases mayStart_of_head? h hd with
  | word _ hstart =>
    rcases hstart with hplain | rfl
    · refine Bool.eq_false_iff.2 fun hspace => ?_
      rcases isSpace_cases hspace with rfl | rfl | rfl | rfl | rfl <;> cases hplain
    · decide
  | number _ hsign => rcases hsign with rfl | rfl <;> decide
  | delim _ _ hsymbol => exact (Lexeme.isSymbol_iff.1 hsymbol).1
  | blank hspace => exact absurd hspace hkind
  | paren _ heq => subst heq; decide
  | star _ heq => subst heq; decide
  | sign hsign => exact isSpace_of_mem_signs d hsign

end Heads

/-! ## Pairs of tokens -/

/-- No name goes on behind a separator. -/
theorem endsName_separator (rest : List Char) : Lexeme.EndsName (separator ++ rest) := by
  intro c hc
  cases hc
  decide

/-- A delimiter carries one symbol, which is no backslash unless the delimiter is one. -/
theorem symbol_of_delim {t : Token} {c : Char} (h : t.Legible) (hkind : t.kind = .delim)
    (hvalue : t.value.toList = [c]) : Lexeme.isSymbol c = true := by
  unfold Legible TokenKind.Carries at h
  rw [hkind] at h
  obtain ⟨d, hd, hsymbol⟩ := h
  rw [hvalue] at hd
  cases hd
  exact hsymbol

section Pairs

variable {t u : Token} {rest : List Char} (ht : t.Legible) (hback : t.isBackslash = false)
include ht hback

/-- A separator continues no token. -/
theorem endsBefore_separator (hsep : needsSeparator t u = true) :
    t.EndsBefore (separator ++ rest) := by
  have hends := endsName_separator rest
  unfold EndsBefore
  cases hkind : t.kind <;> simp only [needsSeparator, hkind, Bool.false_eq_true] at hsep
  case ident => exact ⟨hends, by simp [separator], fun _ => by simp [separator]⟩
  case atKeyword => exact hends
  case hash => exact hends
  case dimension => exact hends
  case number => exact ⟨hends, by simp [separator], by simp [separator]⟩
  case delim =>
    intro c hvalue
    refine Lexeme.read_eq_single (symbol_of_delim ht hkind hvalue) (ne_backslash hkind hvalue hback)
      (fun _ => hends) (fun _ => rfl) ?_ ?_ ?_
    · simp [separator]
    · simp [separator]
    · simp [separator]

/-- A delimiter that does not glue and needs no separator is read back in front of a token. -/
theorem read_delim_chars (hkind : t.kind = .delim) {c : Char} (hvalue : t.value.toList = [c])
    (hu : u.Legible) (hnext : u.isBackslash = false) (hsep : delimNeedsSeparator t.value u = false)
    (hglue : t.glues u = false)
    (hnumber : u.startsNumber = false → Lexeme.startsUnsigned (u.chars ++ rest) = false) :
    Lexeme.read c (u.chars ++ rest) = Lexeme.single c := by
  have hdelim (name : String) (hname : name.toList = [c]) : delimNeedsSeparator name u = false := by
    rw [← String.toList_inj.1 (hvalue.trans hname.symm)]
    exact hsep
  refine Lexeme.read_eq_single (symbol_of_delim ht hkind hvalue) (ne_backslash hkind hvalue hback)
    ?_ ?_ ?_ ?_ ?_
  · rintro (rfl | rfl | rfl)
    · exact endsName_chars hu (hdelim "#" rfl) hnext
    · exact endsName_chars hu (hdelim "@" rfl) hnext
    · exact endsName_chars hu (hdelim "-" rfl) hnext
  · rintro (rfl | rfl | rfl)
    · exact hnumber (hdelim "+" rfl)
    · exact hnumber (startsNumber_of_startsWord (hdelim "-" rfl))
    · exact hnumber (hdelim "." rfl)
  · rintro rfl
    have hvalue : t.value = "/" := String.toList_inj.1 hvalue
    have hname : "*".toList = ['*'] := rfl
    refine head?_ne_of_not_named hu hname (hdelim "/" rfl) (by decide) (by simp) fun _ hstar => ?_
    simp [glues, hkind, hvalue, hstar] at hglue
  · rintro rfl
    have hname : "!".toList = ['!'] := rfl
    exact head?_ne_of_not_named hu hname (hdelim "<" rfl) (by decide) (by simp) (by simp)
  · intro hmatch
    have hequals (h : u.isNamed .delim "=" = false) : (u.chars ++ rest).head? ≠ some '=' := by
      have hname : "=".toList = ['='] := rfl
      exact head?_ne_of_not_named hu hname h (by decide) (by simp) (by simp)
    unfold Lexeme.matcher? at hmatch
    split at hmatch
    · exact hequals (hdelim "~" rfl)
    · exact hequals (Bool.or_eq_false_iff.1 (hdelim "|" rfl)).1
    · exact hequals (hdelim "^" rfl)
    · exact hequals (hdelim "$" rfl)
    · exact hequals (hdelim "*" rfl)
    · exact absurd rfl hmatch

/-- Tokens that do not glue and need no separator are not read together. -/
theorem endsBefore_chars (hu : u.Legible) (hnext : u.isBackslash = false)
    (hsep : needsSeparator t u = false) (hglue : t.glues u = false)
    (hblank : t.kind = .whitespace → u.kind ≠ .whitespace)
    (hurl : t.kind = .function → t.value.toList.map foldChar = ['u', 'r', 'l'] →
      Lexeme.urlContent (u.chars ++ rest) = .quoted)
    (hnumber : t.kind = .delim → u.startsNumber = false →
      Lexeme.startsUnsigned (u.chars ++ rest) = false) :
    t.EndsBefore (u.chars ++ rest) := by
  unfold EndsBefore
  cases hkind : t.kind <;>
    simp only [needsSeparator, hkind, Bool.or_eq_false_iff, beq_eq_false_iff_ne, ne_eq] at hsep
  case ident =>
    refine ⟨endsName_chars hu hsep.1 hnext, head?_ne_paren hu hsep.2, fun hvalue hd => ?_⟩
    have hvalue : t.value = "--" := String.toList_inj.1 hvalue
    rcases delim_of_head? hu hd (by decide) with ⟨-, heq⟩ | ⟨hdelim, hgreater⟩ | ⟨-, heq⟩
    · revert heq
      decide
    · have hgreater : u.value = ">" := String.toList_inj.1 hgreater
      simp [glues, hkind, hvalue, hdelim, hgreater] at hglue
    · cases heq
  case function => exact hurl hkind
  case atKeyword => exact endsName_chars hu hsep.1 hnext
  case hash => exact endsName_chars hu hsep.1 hnext
  case dimension => exact endsName_chars hu hsep.1 hnext
  case percentage => exact trivial
  case number =>
    have hpoint : ".".toList = ['.'] := rfl
    have hpercent : "%".toList = ['%'] := rfl
    refine ⟨endsName_chars hu hsep.1.1 hnext, ?_, ?_⟩
    · exact head?_ne_of_not_named hu hpoint hsep.2 (by decide)
        (fun _ => startsNumber_of_startsWord hsep.1.1) (by simp)
    · exact head?_ne_of_not_named hu hpercent hsep.1.2 (by decide) (by simp) (by simp)
  case whitespace => exact fun c hc => isSpace_head? hu (hblank hkind) hc
  case delim =>
    exact fun c hvalue => read_delim_chars ht hback hkind hvalue hu hnext hsep hglue (hnumber hkind)
  all_goals exact trivial

end Pairs

/-! ## Lists of tokens -/

/-- Whether a list of tokens goes on with a string, a broken one perhaps, after whitespace perhaps. -/
def opensQuote : List Token → Bool
  | [] => false
  | t :: rest => t.kind == .string || t.kind == .badString || (t.isWhitespace && opensQuote rest)

/-- Whether every function `url` in a list of tokens goes on with a string. -/
def urlsQuoted : List Token → Bool
  | [] => true
  | t :: rest => (!t.isNamed .function "url" || opensQuote rest) && urlsQuoted rest

/-- Whether no two tokens of whitespace are adjacent. -/
def blanksJoined : List Token → Bool
  | [] => true
  | t :: rest => !(t.isWhitespace && rest.head?.any isWhitespace) && blanksJoined rest

/-- The lexemes of a separator, where one is written. -/
def gapLexed (previous next : Token) : List Sourced :=
  if needsSeparator previous next then [⟨.comment, separator⟩] else []

/-- The lexemes that tokens after a given one are to be read back as. -/
def layoutAfter (previous : Token) : List Token → List Sourced
  | [] => []
  | t :: rest => gapLexed previous t ++ t.lexed ++ layoutAfter t rest

/-- What written tokens are to be read back as: the lexemes of each token, and an empty comment where
a separator is written. -/
def layout : List Token → List Sourced
  | [] => []
  | t :: rest => t.lexed ++ layoutAfter t rest

/-- What is written between two tokens is read as a comment, or as nothing. -/
theorem lexemes_gap_append (t u : Token) (rest : List Char) :
    lexemes (gap t u ++ rest) = gapLexed t u ++ lexemes rest := by
  unfold gap gapLexed
  split
  · exact Lexeme.lexemes_separator rest
  · rfl

/-- Blanks in front of what follows `url(` are passed over. -/
theorem urlContent_blanks_append {w rest : List Char} (hw : ∀ c ∈ w, isSpace c = true)
    (h : Lexeme.urlContent rest = .quoted) : Lexeme.urlContent (w ++ rest) = .quoted := by
  have htake : (w ++ rest).takeWhile isSpace = w ++ rest.takeWhile isSpace :=
    List.takeWhile_append_of_pos hw
  have hdrop : (w ++ rest).drop ((w ++ rest).takeWhile isSpace).length =
      rest.drop (rest.takeWhile isSpace).length := by
    rw [htake, List.length_append, ← List.drop_drop, List.drop_left]
  unfold Lexeme.urlContent at h ⊢
  dsimp only at h ⊢
  rw [hdrop]
  split
  · rfl
  · rfl
  · next hdouble hsingle =>
    split at h
    · next hquote => exact absurd hquote hdouble
    · next hquote => exact absurd hquote hsingle
    · split at h <;> cases h

/-- A function `url` is read in front of a string. -/
theorem urlContent_of_opensQuote {t : Token} {ts : List Token}
    (hkind : t.kind = .function ∨ t.kind = .whitespace) (h : ∀ u ∈ ts, u.Legible)
    (hopens : opensQuote ts = true) : Lexeme.urlContent (charsAfter t ts) = .quoted := by
  induction ts generalizing t with
  | nil => cases hopens
  | cons u ts ih =>
    have hgap : gap t u = [] := by
      rcases hkind with hkind | hkind <;> simp [gap, needsSeparator, hkind]
    rw [charsAfter, hgap, List.nil_append]
    simp only [opensQuote, Bool.or_eq_true, Bool.and_eq_true, beq_iff_eq] at hopens
    rcases hopens with (hstring | hbroken) | ⟨hblank, hopens⟩
    · simp only [chars, hstring]
      rfl
    · have hu := h u (.head _)
      unfold Legible TokenKind.Carries at hu
      rw [hbroken] at hu
      exact hu.elim
    · have hblank : u.kind = .whitespace := by simpa [isWhitespace] using hblank
      have hall := (chars_whitespace hblank (h u (.head _))).2
      exact urlContent_blanks_append hall
        (ih (.inr hblank) (fun v hv => h v (.tail _ hv)) hopens)

/-- A number at the front of a text is its first lexeme. -/
theorem startsUnsigned_eq_false {text v s : List Char} {kind : TokenKind} {rest : List Sourced}
    (h : lexemes text = ⟨.token kind v, s⟩ :: rest) (hkind : Lexeme.isNumeric kind = false) :
    Lexeme.startsUnsigned text = false := by
  refine Bool.eq_false_iff.2 fun hstart => ?_
  cases text with
  | nil => cases hstart
  | cons c text =>
    have hnumber : Lexeme.startsNumber (c :: text) = true := by
      rcases Lexeme.startsUnsigned_cases hstart with rfl | hdigit
      · exact hstart
      · exact Lexeme.startsNumber_of_isDigit hdigit text
    rw [Lexeme.lexemes_cons, Lexeme.read_of_startsNumber hnumber] at h
    injection h with hfirst
    injection hfirst with hlexeme
    rcases Lexeme.numeric_cases (c :: text) with ⟨-, heq⟩ | ⟨-, -, heq⟩ | ⟨-, -, heq⟩
    all_goals
      rw [heq] at hlexeme
      cases hlexeme
      cases hkind

/-- The first lexeme of a token is no number unless the token is one. -/
theorem lexed_eq_cons (t : Token) : ∃ kind v s rest, t.lexed = ⟨.token kind v, s⟩ :: rest ∧
    (t.startsNumber = false → Lexeme.isNumeric kind = false) := by
  unfold lexed startsNumber
  cases hkind : t.kind
  all_goals exact ⟨_, _, _, _, rfl, by simp [Lexeme.isNumeric]⟩

/-- A list of tokens that has a written form: every token carries a text of its kind, blanks are
joined, and functions `url` hold a string. -/
structure Written (ts : List Token) : Prop where
  legible : ∀ t ∈ ts, t.Legible
  blanks : blanksJoined ts = true
  urls : urlsQuoted ts = true

section Lists

variable {t u : Token} {ts : List Token}

/-- Without its first token a list still has a written form. -/
theorem Written.tail (h : Written (t :: ts)) : Written ts where
  legible u hu := h.legible u (.tail _ hu)
  blanks := by
    have hblanks := h.blanks
    rw [blanksJoined, Bool.and_eq_true] at hblanks
    exact hblanks.2
  urls := by
    have hurls := h.urls
    rw [urlsQuoted, Bool.and_eq_true] at hurls
    exact hurls.2

/-- Behind a function `url` a string follows. -/
theorem Written.opensQuote (h : Written (t :: ts)) (hkind : t.kind = .function)
    (hvalue : t.value.toList.map foldChar = ['u', 'r', 'l']) : opensQuote ts = true := by
  have hurls := h.urls
  have hnamed : t.isNamed .function "url" = true := by
    simp [isNamed, hkind, sameFolded, hvalue]
    decide
  rw [urlsQuoted, hnamed, Bool.and_eq_true] at hurls
  exact hurls.1

/-- Behind whitespace no more whitespace follows. -/
theorem Written.not_blank (h : Written (t :: u :: ts)) (hkind : t.kind = .whitespace) :
    u.kind ≠ .whitespace := by
  intro hu
  have hblanks := h.blanks
  simp [blanksJoined, isWhitespace, hkind, hu] at hblanks

/-- Nothing goes on at the end. -/
theorem endsBefore_nil (h : Written [t]) (hback : t.isBackslash = false) : t.EndsBefore [] := by
  have ht := h.legible t (.head _)
  have hends : Lexeme.EndsName [] := fun c hc => by cases hc
  unfold EndsBefore
  cases hkind : t.kind
  case ident => exact ⟨hends, by simp, by simp⟩
  case function => exact fun hvalue => by cases h.opensQuote hkind hvalue
  case atKeyword => exact hends
  case hash => exact hends
  case number => exact ⟨hends, by simp, by simp⟩
  case percentage => exact trivial
  case dimension => exact hends
  case whitespace => exact fun c hc => by cases hc
  case delim =>
    intro c hvalue
    exact Lexeme.read_eq_single (symbol_of_delim ht hkind hvalue) (ne_backslash hkind hvalue hback)
      (fun _ => hends) (fun _ => rfl) (by simp) (by simp) (by simp)
  all_goals exact trivial

/-- What follows a token in a list does not continue it, if nothing glues and, behind a delimiter, a
number is read only where a token is one. -/
theorem endsBefore_charsAfter (h : Written (t :: u :: ts)) (hback : t.isBackslash = false)
    (hnext : u.isBackslash = false) (hglue : t.glues u = false)
    (hnumber : t.kind = .delim → u.startsNumber = false →
      Lexeme.startsUnsigned (u.chars ++ charsAfter u ts) = false) :
    t.EndsBefore (charsAfter t (u :: ts)) := by
  have ht := h.legible t (.head _)
  rw [charsAfter, List.append_assoc, gap]
  split
  · next hsep => exact endsBefore_separator ht hback hsep
  · next hsep =>
    have hsep : needsSeparator t u = false := by simpa using hsep
    have hu := h.tail.legible u (.head _)
    rw [List.nil_append]
    refine endsBefore_chars ht hback hu hnext hsep hglue h.not_blank (fun hkind hvalue => ?_) hnumber
    have hquoted := urlContent_of_opensQuote (.inl hkind) h.tail.legible
      (h.opensQuote hkind hvalue)
    rwa [charsAfter, gap, if_neg (by simp [hsep]), List.nil_append] at hquoted

/-- **Separated tokens are read back one by one.** -/
theorem lexemes_chars_charsAfter (h : Written (t :: ts)) (hsep : separable (t :: ts) = true) :
    lexemes (t.chars ++ charsAfter t ts) = t.lexed ++ layoutAfter t ts := by
  induction ts generalizing t with
  | nil =>
    have hback : t.isBackslash = false := by
      simpa [separable] using hsep
    rw [charsAfter, layoutAfter, lexemes_chars_append (h.legible t (.head _)) (endsBefore_nil h hback),
      Lexeme.lexemes_nil]
  | cons u ts ih =>
    simp only [separable, List.head?_cons, Option.any_some, Bool.and_eq_true,
      Bool.not_eq_true'] at hsep
    obtain ⟨⟨hback, hglue⟩, hrest⟩ := hsep
    have hread := ih h.tail (by simpa [separable] using hrest)
    have hnumber (hstart : u.startsNumber = false) :
        Lexeme.startsUnsigned (u.chars ++ charsAfter u ts) = false := by
      obtain ⟨kind, v, s, more, heq, hkind⟩ := lexed_eq_cons u
      rw [heq] at hread
      exact startsUnsigned_eq_false hread (hkind hstart)
    have hends := endsBefore_charsAfter h hback hrest.1.1 hglue fun _ => hnumber
    rw [lexemes_chars_append (h.legible t (.head _)) hends, charsAfter, layoutAfter,
      List.append_assoc, lexemes_gap_append, hread, List.append_assoc]

end Lists

/-! ## Tokens that are read together -/

/-- What follows the first lexemes of a text has the other lexemes of the text. -/
theorem lexemes_split {text : List Char} {xs ys : List Sourced} (h : lexemes text = xs ++ ys) :
    ∃ rest, text = xs.flatMap Sourced.source ++ rest ∧ lexemes rest = ys := by
  induction xs generalizing text with
  | nil => exact ⟨text, rfl, h⟩
  | cons x xs ih =>
    cases text with
    | nil =>
      rw [Lexeme.lexemes_nil] at h
      cases h
    | cons c text =>
      rw [Lexeme.lexemes_cons, List.cons_append] at h
      obtain ⟨hfirst, hrest⟩ := List.cons.inj h
      obtain ⟨rest, htext, hys⟩ := ih hrest
      refine ⟨rest, ?_, hys⟩
      rw [List.flatMap_cons, ← hfirst, List.append_assoc, ← htext]
      simp

@[simp] theorem flatMap_source_lexed (t : Token) : t.lexed.flatMap Sourced.source = t.chars := by
  unfold lexed
  cases hkind : t.kind
  case url => simp [chars, hkind]
  all_goals simp

@[simp] theorem flatMap_source_gapLexed (t u : Token) :
    (gapLexed t u).flatMap Sourced.source = gap t u := by
  unfold gapLexed gap
  split
  · simp
  · rfl

section Together

variable {t u : Token} {ts : List Token} {rest : List Sourced}

/-- A backslash takes in what follows it. -/
theorem isBackslash_eq_false (h : lexemes (t.chars ++ charsAfter t ts) = t.lexed ++ rest) :
    t.isBackslash = false := by
  refine Bool.eq_false_iff.2 fun hback => ?_
  simp only [isBackslash, Bool.and_eq_true, beq_iff_eq] at hback
  obtain ⟨hkind, hvalue⟩ := hback
  have hline : Lexeme.startsNewline (charsAfter t ts) = false := by
    cases ts with
    | nil => rfl
    | cons u ts =>
      have hsep : needsSeparator t u = true := by
        simp [needsSeparator, hkind, hvalue, delimNeedsSeparator]
      rw [charsAfter, gap, if_pos hsep]
      rfl
  have hread : Lexeme.read '\\' (charsAfter t ts) = Lexeme.identLike ('\\' :: charsAfter t ts) :=
    Lexeme.read_of_startsName (by simp [Lexeme.startsName, hline])
      (by rw [List.cons_prefix_cons]; simp)
  have hchars : t.chars = ['\\'] := by simp [chars, hkind, hvalue]
  have hlexed : t.lexed = [⟨.token .delim ['\\'], ['\\']⟩] := by simp [lexed, hkind, hvalue, hchars]
  rw [hchars, hlexed, List.singleton_append, Lexeme.lexemes_cons, hread] at h
  injection h with hfirst
  injection hfirst with hlexeme
  rcases Lexeme.identLike_cases ('\\' :: charsAfter t ts) with
    ⟨more, -, ⟨-, heq⟩ | ⟨v', m, -, heq⟩ | ⟨v', m, heq⟩⟩ | ⟨-, heq⟩
  all_goals
    rw [heq] at hlexeme
    cases hlexeme

/-- Tokens that glue are read as `-->` or as a comment. -/
theorem glues_eq_false (h : lexemes (t.chars ++ charsAfter t (u :: ts)) = t.lexed ++ rest) :
    t.glues u = false := by
  refine Bool.eq_false_iff.2 fun hglue => ?_
  simp only [glues, Bool.or_eq_true, Bool.and_eq_true, beq_iff_eq] at hglue
  rcases hglue with ⟨⟨⟨hkind, hvalue⟩, hnext⟩, hgreater⟩ | ⟨⟨hkind, hvalue⟩, hnext⟩
  · have hsep : needsSeparator t u = false := by
      simp only [needsSeparator, hkind, startsWord, hnext, isNamed, hgreater]
      decide
    have hchars : t.chars = ['-', '-'] := by
      simp only [chars, hkind, hvalue]
      rfl
    have hfirst : u.chars = ['>'] := by simp [chars, hnext, hgreater]
    have hlexed : t.lexed = [⟨.token .ident "--".toList, ['-', '-']⟩] := by
      simp [lexed, hkind, hvalue, hchars]
    rw [charsAfter, gap, if_neg (by simp [hsep]), hchars, hfirst, hlexed] at h
    rw [show ['-', '-'] ++ ([] ++ ['>'] ++ charsAfter u ts) = '-' :: '-' :: '>' :: charsAfter u ts
      from rfl, Lexeme.lexemes_cons] at h
    injection h with hfirst
    injection hfirst with hlexeme
    cases hlexeme
  · have hsep : needsSeparator t u = false := by
      simp [needsSeparator, hkind, hvalue, delimNeedsSeparator, isNamed, hnext]
    have hchars : t.chars = ['/'] := by simp [chars, hkind, hvalue]
    have hfirst : u.chars = ['*', '='] := by simp [chars, hnext]
    have hlexed : t.lexed = [⟨.token .delim ['/'], ['/']⟩] := by
      simp [lexed, hkind, hvalue, hchars]
    rw [charsAfter, gap, if_neg (by simp [hsep]), hchars, hfirst, hlexed] at h
    rw [show ['/'] ++ ([] ++ ['*', '='] ++ charsAfter u ts) = '/' :: '*' :: '=' :: charsAfter u ts
      from rfl, Lexeme.lexemes_cons] at h
    injection h with hfirst
    injection hfirst with hlexeme
    cases hlexeme

/-- Only separated tokens are read back one by one. -/
theorem separable_of_lexemes (h : lexemes (t.chars ++ charsAfter t ts) = t.lexed ++ layoutAfter t ts) :
    separable (t :: ts) = true := by
  induction ts generalizing t with
  | nil => simp [separable, isBackslash_eq_false h]
  | cons u ts ih =>
    have hback := isBackslash_eq_false h
    have hglue := glues_eq_false h
    rw [layoutAfter, List.append_assoc, ← List.append_assoc] at h
    obtain ⟨more, htext, hmore⟩ := lexemes_split h
    rw [charsAfter, List.flatMap_append, flatMap_source_lexed, flatMap_source_gapLexed,
      List.append_assoc, List.append_assoc, List.append_cancel_left_eq,
      List.append_cancel_left_eq] at htext
    rw [← htext] at hmore
    have hrest := ih hmore
    rw [separable]
    simp [hback, hglue, hrest]

end Together

/-- **When written tokens are read back.** The written form of a list of tokens is read back one by
one exactly if no tokens of the list are read together. -/
theorem lexemes_charsAll_iff {ts : List Token} (h : Written ts) :
    lexemes (charsAll ts) = layout ts ↔ separable ts = true := by
  cases ts with
  | nil =>
    rw [charsAll, layout, Lexeme.lexemes_nil]
    simp [separable]
  | cons t ts => exact ⟨separable_of_lexemes, lexemes_chars_charsAfter h⟩

end Token

end StyleGate
