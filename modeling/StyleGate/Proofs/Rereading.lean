import StyleGate.Proofs.Nesting

/-!
# Written tokens read again

The tokens of a text, written and read again, are the same tokens but for two changes: adjacent
whitespace is joined, and a url becomes a function with a string (`Token.normal`). That holds if no
two tokens are read together and the function that a url becomes does not lie too deep, and only
then (`tokens_render_iff`). The comments in the written text are then the separators
(`Token.layout`).
-/

namespace StyleGate

open Text

namespace Token

/-! ## Joined whitespace -/

/-- A token in front of a list of tokens, joined with the first of them if both are whitespace. -/
def joinBlank (t : Token) : List Token → List Token
  | u :: rest =>
    if t.isWhitespace && u.isWhitespace then
      of .whitespace (String.ofList (t.chars ++ u.chars)) :: rest
    else t :: u :: rest
  | [] => [t]

/-- A list of tokens with adjacent whitespace joined. -/
def joinBlanks (ts : List Token) : List Token := ts.foldr joinBlank []

/-- A token is joined with what is left of the others. -/
theorem joinBlanks_cons (t : Token) (ts : List Token) :
    joinBlanks (t :: ts) = joinBlank t (joinBlanks ts) := rfl

/-- Only tokens of the kind of whitespace are whitespace. -/
theorem isWhitespace_iff {t : Token} : t.isWhitespace = true ↔ t.kind = .whitespace := by
  simp [isWhitespace]

/-- Joining either puts the token in front or joins two tokens of whitespace. -/
theorem joinBlank_cases (t : Token) (ts : List Token) :
    (joinBlank t ts = t :: ts ∧ (t.isWhitespace && ts.head?.any isWhitespace) = false) ∨
      ∃ u rest, ts = u :: rest ∧ t.kind = .whitespace ∧ u.kind = .whitespace ∧
        joinBlank t ts = of .whitespace (String.ofList (t.chars ++ u.chars)) :: rest := by
  cases ts with
  | nil => exact .inl ⟨rfl, by simp⟩
  | cons u rest =>
    unfold joinBlank
    dsimp only
    split
    · next h =>
      rw [Bool.and_eq_true, isWhitespace_iff, isWhitespace_iff] at h
      exact .inr ⟨u, rest, rfl, h.1, h.2, rfl⟩
    · next h => exact .inl ⟨rfl, by simpa using h⟩

section Join

variable {t u : Token} {ts : List Token}

/-- Whitespace with a text is written as that text. -/
theorem chars_of_blanks {v : List Char} (hne : v ≠ []) (hall : ∀ c ∈ v, isSpace c = true) :
    (of .whitespace (String.ofList v)).chars = v := by
  have hblank : v.all isBlank = true :=
    List.all_eq_true.2 fun c hc => isBlank_of_isSpace (hall c hc)
  simp [chars, of, hne, hblank]

/-- Two tokens of whitespace are written as the one that they are joined to. -/
theorem chars_joined (ht : t.kind = .whitespace) (hu : u.kind = .whitespace) (hlt : t.Legible)
    (hlu : u.Legible) : (of .whitespace (String.ofList (t.chars ++ u.chars))).chars =
      t.chars ++ u.chars := by
  obtain ⟨hne, hall⟩ := chars_whitespace ht hlt
  obtain ⟨-, hall'⟩ := chars_whitespace hu hlu
  refine chars_of_blanks (by simp [hne]) fun c hc => ?_
  exact (List.mem_append.1 hc).elim (hall c) (hall' c)

/-- That one carries a text of its kind. -/
theorem legible_joined (ht : t.kind = .whitespace) (hu : u.kind = .whitespace) (hlt : t.Legible)
    (hlu : u.Legible) : (of .whitespace (String.ofList (t.chars ++ u.chars))).Legible := by
  obtain ⟨-, hall⟩ := chars_whitespace ht hlt
  obtain ⟨-, hall'⟩ := chars_whitespace hu hlu
  intro c hc
  rw [of, String.toList_ofList] at hc
  exact (List.mem_append.1 hc).elim (hall c) (hall' c)

/-- A delimiter is no whitespace. -/
theorem delim_ne_whitespace : TokenKind.whitespace ≠ .delim := by decide

/-- Whitespace has no name that another kind has. -/
theorem isNamed_of_whitespace {kind : TokenKind} (ht : t.kind = .whitespace)
    (hkind : TokenKind.whitespace ≠ kind) (name : String) : t.isNamed kind name = false := by
  simp [isNamed, ht, hkind]

/-- Whitespace makes no difference to a separator in front of it. -/
theorem needsSeparator_whitespace (p : Token) (ht : t.kind = .whitespace)
    (hu : u.kind = .whitespace) : needsSeparator p t = needsSeparator p u := by
  simp [needsSeparator, delimNeedsSeparator, startsWord, startsNumber, ht, hu,
    isNamed_of_whitespace ht delim_ne_whitespace, isNamed_of_whitespace hu delim_ne_whitespace]

/-- It is all the same which whitespace is in front. -/
theorem charsAfter_whitespace (ht : t.kind = .whitespace) (hu : u.kind = .whitespace)
    (ts : List Token) : charsAfter t ts = charsAfter u ts := by
  cases ts with
  | nil => rfl
  | cons v ts => simp [charsAfter, gap, needsSeparator, ht, hu]

/-- Joining whitespace leaves what is written behind any token. -/
theorem charsAfter_joinBlank (p : Token) (ht : t.Legible) (hts : ∀ u ∈ ts, u.Legible) :
    charsAfter p (joinBlank t ts) = charsAfter p (t :: ts) := by
  rcases joinBlank_cases t ts with ⟨heq, -⟩ | ⟨u, rest, rfl, hkind, hnext, heq⟩
  · rw [heq]
  · have hjoined := chars_joined hkind hnext ht (hts u (.head _))
    have hgap : gap t u = [] := by simp [gap, needsSeparator, hkind]
    rw [heq, charsAfter, charsAfter, charsAfter, hjoined, hgap,
      charsAfter_whitespace (t := of .whitespace _) rfl hnext, gap, gap,
      needsSeparator_whitespace p (t := of .whitespace _) rfl hkind]
    simp

/-- So it leaves what is written at the front of a text. -/
theorem charsAll_joinBlank (ht : t.Legible) (hts : ∀ u ∈ ts, u.Legible) :
    charsAll (joinBlank t ts) = charsAll (t :: ts) := by
  rcases joinBlank_cases t ts with ⟨heq, -⟩ | ⟨u, rest, rfl, hkind, hnext, heq⟩
  · rw [heq]
  · have hjoined := chars_joined hkind hnext ht (hts u (.head _))
    have hgap : gap t u = [] := by simp [gap, needsSeparator, hkind]
    rw [heq, charsAll, charsAll, charsAfter, hjoined, hgap,
      charsAfter_whitespace (t := of .whitespace _) rfl hnext]
    simp

/-- What is joined is legible. -/
theorem legible_joinBlank (ht : t.Legible) (hts : ∀ u ∈ ts, u.Legible) :
    ∀ u ∈ joinBlank t ts, u.Legible := by
  rcases joinBlank_cases t ts with ⟨heq, -⟩ | ⟨u, rest, rfl, hkind, hnext, heq⟩
  · rw [heq]
    exact List.forall_mem_cons.2 ⟨ht, hts⟩
  · rw [heq]
    exact List.forall_mem_cons.2 ⟨legible_joined hkind hnext ht (hts u (.head _)),
      fun v hv => hts v (.tail _ hv)⟩

/-- Behind a token that is put in front so, whitespace is joined still. -/
theorem blanksJoined_joinBlank (t : Token) (h : blanksJoined ts = true) :
    blanksJoined (joinBlank t ts) = true := by
  rcases joinBlank_cases t ts with ⟨heq, hnot⟩ | ⟨u, rest, rfl, hkind, hnext, heq⟩
  · rw [heq, blanksJoined, h, hnot]
    rfl
  · rw [heq]
    simpa [blanksJoined, isWhitespace, of, hnext] using h

/-- Joining does not change whether a string follows. -/
theorem opensQuote_joinBlank (t : Token) (ts : List Token) :
    opensQuote (joinBlank t ts) = opensQuote (t :: ts) := by
  rcases joinBlank_cases t ts with ⟨heq, -⟩ | ⟨u, rest, rfl, hkind, hnext, heq⟩
  · rw [heq]
  · rw [heq]
    simp [opensQuote, isWhitespace, of, hkind, hnext]

/-- So each url still holds a string. -/
theorem urlsQuoted_joinBlank (t : Token) (ts : List Token) :
    urlsQuoted (joinBlank t ts) = urlsQuoted (t :: ts) := by
  rcases joinBlank_cases t ts with ⟨heq, -⟩ | ⟨u, rest, rfl, hkind, hnext, heq⟩
  · rw [heq]
  · have hurl {v : Token} (hv : v.kind = .whitespace) : v.isNamed .function "url" = false :=
      isNamed_of_whitespace hv (by decide) _
    rw [heq]
    simp [urlsQuoted, hurl hkind, hurl hnext, hurl (v := of .whitespace _) rfl]

/-- Nothing glues to whitespace. -/
theorem glues_whitespace (p : Token) (ht : t.kind = .whitespace) : p.glues t = false := by
  simp [glues, ht]

/-- Whitespace glues to nothing. -/
theorem whitespace_glues (ht : t.kind = .whitespace) : t.glues = fun _ => false := by
  funext u
  simp [glues, ht]

/-- Whitespace is no backslash. -/
theorem isBackslash_whitespace (ht : t.kind = .whitespace) : t.isBackslash = false := by
  simp [isBackslash, ht]

/-- So joining does not change what is read together. -/
theorem separable_joinBlank (t : Token) (ts : List Token) :
    separable (joinBlank t ts) = separable (t :: ts) := by
  rcases joinBlank_cases t ts with ⟨heq, -⟩ | ⟨u, rest, rfl, hkind, hnext, heq⟩
  · rw [heq]
  · generalize hw : of .whitespace (String.ofList (t.chars ++ u.chars)) = w at heq
    have hjoined : w.kind = .whitespace := hw ▸ rfl
    rw [heq]
    simp [separable, isBackslash_whitespace, whitespace_glues, hkind, hnext, hjoined]

/-- What glues to the first token of a list glues to it when whitespace is joined. -/
theorem head?_joinBlank (p t : Token) (ts : List Token) :
    (joinBlank t ts).head?.any p.glues = p.glues t := by
  rcases joinBlank_cases t ts with ⟨heq, -⟩ | ⟨u, rest, rfl, hkind, hnext, heq⟩
  · rw [heq]
    rfl
  · rw [heq]
    simp [glues_whitespace, hkind, of]

end Join

/-- A list stays legible when its whitespace is joined. -/
theorem legible_joinBlanks {ts : List Token} (h : ∀ t ∈ ts, t.Legible) :
    ∀ t ∈ joinBlanks ts, t.Legible := by
  induction ts with
  | nil => exact h
  | cons t ts ih => exact legible_joinBlank (h t (.head _)) (ih fun u hu => h u (.tail _ hu))

/-- Its written form stays as it is. -/
theorem charsAfter_joinBlanks {ts : List Token} (p : Token) (h : ∀ t ∈ ts, t.Legible) :
    charsAfter p (joinBlanks ts) = charsAfter p ts := by
  induction ts generalizing p with
  | nil => rfl
  | cons t ts ih =>
    have hts : ∀ u ∈ ts, u.Legible := fun u hu => h u (.tail _ hu)
    rw [joinBlanks_cons, charsAfter_joinBlank p (h t (.head _)) (legible_joinBlanks hts),
      charsAfter, charsAfter, ih t hts]

/-- Joining whitespace does not change the written form. -/
theorem charsAll_joinBlanks {ts : List Token} (h : ∀ t ∈ ts, t.Legible) :
    charsAll (joinBlanks ts) = charsAll ts := by
  cases ts with
  | nil => rfl
  | cons t ts =>
    have hts : ∀ u ∈ ts, u.Legible := fun u hu => h u (.tail _ hu)
    rw [joinBlanks_cons, charsAll_joinBlank (h t (.head _)) (legible_joinBlanks hts),
      charsAll, charsAll, charsAfter_joinBlanks t hts]

/-- So does whether it starts with a string. -/
theorem opensQuote_joinBlanks (ts : List Token) : opensQuote (joinBlanks ts) = opensQuote ts := by
  induction ts with
  | nil => rfl
  | cons t ts ih =>
    rw [joinBlanks_cons, opensQuote_joinBlank, opensQuote, opensQuote, ih]

/-- So does whether each url in it holds one. -/
theorem urlsQuoted_joinBlanks (ts : List Token) : urlsQuoted (joinBlanks ts) = urlsQuoted ts := by
  induction ts with
  | nil => rfl
  | cons t ts ih =>
    rw [joinBlanks_cons, urlsQuoted_joinBlank, urlsQuoted, urlsQuoted, ih, opensQuote_joinBlanks ts]

/-- Joining whitespace separates no tokens. -/
theorem separable_joinBlanks (ts : List Token) : separable (joinBlanks ts) = separable ts := by
  induction ts with
  | nil => rfl
  | cons t ts ih =>
    have hhead : (joinBlanks ts).head?.any t.glues = ts.head?.any t.glues := by
      cases ts with
      | nil => rfl
      | cons u ts => exact head?_joinBlank t u (joinBlanks ts)
    rw [joinBlanks_cons, separable_joinBlank, separable, separable, ih, hhead]

/-- Tokens that carry a text of their kind have a written form when their whitespace is joined. -/
theorem written_joinBlanks {ts : List Token} (h : ∀ t ∈ ts, t.Legible)
    (hurls : urlsQuoted ts = true) : Written (joinBlanks ts) where
  legible := legible_joinBlanks h
  blanks := by
    clear h hurls
    induction ts with
    | nil => rfl
    | cons t ts ih => exact blanksJoined_joinBlank t ih
  urls := (urlsQuoted_joinBlanks ts).trans hurls

/-! ## What a written token is read as -/

/-- The tokens that the written form of a token is read as, without their positions. -/
def readAs (t : Token) : List Token :=
  match t.kind with
  | .url => [of .function "url", of .string t.value, of .rightParen ""]
  | .whitespace => [of .whitespace t.text]
  | kind => [of kind t.value]

/-- What a list of tokens is to be read as when it is written: adjacent whitespace is joined and
every url is a function with a string. -/
def normal (ts : List Token) : List Token := (joinBlanks ts).flatMap readAs

/-- The lexemes of a written token are the tokens that it is read as. -/
theorem tokensOf_lexed (t : Token) : Stream.tokensOf t.lexed = t.readAs := by
  unfold lexed readAs
  cases hkind : t.kind
  all_goals simp [Stream.tokensOf, Sourced.token?, text]

/-- Separators are no tokens, so the lexemes of a list are those of its tokens. -/
theorem tokensOf_layoutAfter (t : Token) (ts : List Token) :
    Stream.tokensOf (layoutAfter t ts) = ts.flatMap readAs := by
  induction ts generalizing t with
  | nil => rfl
  | cons u ts ih =>
    have hgap : Stream.tokensOf (gapLexed t u) = [] := by
      unfold gapLexed
      split <;> rfl
    have hrest := ih u
    have hfirst := tokensOf_lexed u
    unfold Stream.tokensOf at hgap hrest hfirst ⊢
    rw [layoutAfter, List.filterMap_append, List.filterMap_append, hgap, hfirst, hrest]
    rfl

/-- The tokens of a layout are what its tokens are read as. -/
theorem tokensOf_layout (ts : List Token) : Stream.tokensOf (layout ts) = ts.flatMap readAs := by
  cases ts with
  | nil => rfl
  | cons t ts =>
    have hrest := tokensOf_layoutAfter t ts
    have hfirst := tokensOf_lexed t
    unfold Stream.tokensOf at hrest hfirst ⊢
    rw [layout, List.filterMap_append, hfirst, hrest]
    rfl

/-- Tokens that carry a text of their kind are read as no broken strings. -/
theorem not_badString_of_mem_normal {ts : List Token} (h : ∀ t ∈ ts, t.Legible) :
    ∀ t ∈ normal ts, t.kind ≠ .badString := by
  intro t ht hbroken
  obtain ⟨u, hu, ht⟩ := List.mem_flatMap.1 ht
  have hlegible := legible_joinBlanks h u hu
  unfold Legible TokenKind.Carries at hlegible
  unfold readAs at ht
  cases hkind : u.kind
  all_goals
    rw [hkind] at ht hlegible
    simp only [List.mem_cons, List.not_mem_nil, or_false] at ht
  case badString => exact hlegible
  case url => rcases ht with rfl | rfl | rfl <;> cases hbroken
  all_goals
    subst ht
    cases hbroken

/-- **When written tokens are read again.** Tokens that carry a text of their kind, written and read
again, are the same tokens in their normal form, and the comments between them the separators,
exactly if no tokens are read together and no group lies too deep. -/
theorem tokens_render_eq_normal_iff {ts : List Token} (h : ∀ t ∈ ts, t.Legible)
    (hurls : urlsQuoted ts = true) :
    (lexemes (charsAll ts) = layout (joinBlanks ts) ∧
        (tokens (render ts)).map unplaced = normal ts) ↔
      separable ts = true ∧ TokenKind.fits [] ((normal ts).map Token.kind) = true := by
  have hlayout := lexemes_charsAll_iff (written_joinBlanks h hurls)
  rw [charsAll_joinBlanks h, separable_joinBlanks] at hlayout
  have htokens : Stream.tokensOf (layout (joinBlanks ts)) = normal ts := tokensOf_layout _
  have hread : (tokens (render ts)).map unplaced = Stream.reading [] [] (lexemes (charsAll ts)) := by
    rw [tokens_map_unplaced, render, String.toList_ofList]
  rw [hread]
  constructor
  · rintro ⟨hlexemes, htokens'⟩
    refine ⟨hlayout.1 hlexemes, ?_⟩
    rw [hlexemes] at htokens'
    have hnot : ∀ t ∈ Stream.reading [] [] (layout (joinBlanks ts)), t.kind ≠ .badString :=
      fun t ht => not_badString_of_mem_normal h t (htokens' ▸ ht)
    have hfits := Stream.fits_of_reading hnot
    rwa [htokens] at hfits
  · rintro ⟨hsep, hfits⟩
    have hlexemes := hlayout.2 hsep
    refine ⟨hlexemes, ?_⟩
    have hbare := Stream.bareClosers_lexemes (charsAll ts)
    rw [hlexemes] at hbare ⊢
    rw [Stream.reading_eq_tokensOf (by simp) hbare (by rwa [htokens]), htokens]

/-! ## The tokens of a text -/

/-- Whether the text of a token reads back as that token where it stands alone. -/
def ReadsAlone (t : Token) : Prop :=
  lexemes t.chars = [⟨.token t.kind t.value.toList, t.chars⟩]

/-- To find out, the text is read. -/
instance (t : Token) : Decidable t.ReadsAlone :=
  inferInstanceAs (Decidable (lexemes t.chars = [⟨.token t.kind t.value.toList, t.chars⟩]))

/-- Whether urls hold strings has nothing to do with positions. -/
theorem urlsQuoted_map_unplaced (ts : List Token) :
    urlsQuoted (ts.map unplaced) = urlsQuoted ts := by
  have hopens (ts : List Token) : opensQuote (ts.map unplaced) = opensQuote ts := by
    induction ts with
    | nil => rfl
    | cons t ts ih => simp [opensQuote, unplaced, placedAt, isWhitespace, ih]
  induction ts with
  | nil => rfl
  | cons t ts ih => simp [urlsQuoted, unplaced, placedAt, isNamed, ih, hopens]

/-- Every function `url` among the tokens of a text goes on with a string. -/
theorem urlsQuoted_tokens (css : String) : urlsQuoted (tokens css) = true := by
  rw [← urlsQuoted_map_unplaced, tokens_map_unplaced]
  exact Stream.urlsQuoted_reading [] [] css.toList

/-- A token of a text carries a text of its kind, unless it is broken. -/
theorem legible_of_mem_tokens {css : String} {t : Token} (h : t ∈ tokens css)
    (hstring : t.kind ≠ .badString) (hurl : t.kind ≠ .badUrl)
    (hnumber : Lexeme.isNumeric t.kind = true → t.ReadsAlone) : t.Legible := by
  have hmem : t.unplaced ∈ (tokens css).map unplaced := List.mem_map_of_mem h
  rw [tokens_map_unplaced] at hmem
  rcases Stream.mem_reading (by simp) (Stream.bareClosers_lexemes _) hmem with hmarker | hmem
  · exact absurd (congrArg kind hmarker) hstring
  · obtain ⟨x, hx, htoken⟩ := List.mem_filterMap.1 hmem
    obtain ⟨lexeme, source⟩ := x
    cases lexeme with
    | comment => cases htoken
    | token kind value =>
      have htoken := Option.some.inj htoken
      have hkind : kind = t.kind := congrArg Token.kind htoken
      have hvalue : String.ofList value = t.value := congrArg Token.value htoken
      have hvalue : value = t.value.toList := by rw [← hvalue, String.toList_ofList]
      rw [hkind, hvalue] at hx
      rcases Lexeme.carries_of_mem_lexemes hx with heq | heq | hnumeric | hcarries
      · exact absurd heq hstring
      · exact absurd heq hurl
      · have halone := hnumber hnumeric
        unfold ReadsAlone chars at halone
        unfold Legible TokenKind.Carries
        cases hkind : t.kind <;> simp only [hkind] at halone hnumeric ⊢
        case number => exact halone
        case percentage => exact halone
        case dimension => exact halone
        all_goals cases hnumeric
      · exact hcarries

end Token

/-- **When a stylesheet is read again.** Let no token of a text be broken, and let the text that is
written for a number read back where it stands alone. Then the tokens of the text, written and read
again, are the same tokens in their normal form, and the comments between them the separators,
exactly if no tokens are read together and no url that becomes a function lies too deep. -/
theorem tokens_render_iff (css : String)
    (hwhole : ∀ t ∈ tokens css, t.kind ≠ .badString ∧ t.kind ≠ .badUrl)
    (hnumbers : ∀ t ∈ tokens css, Lexeme.isNumeric t.kind = true → t.ReadsAlone) :
    (lexemes (Token.render (tokens css)).toList = Token.layout (Token.joinBlanks (tokens css)) ∧
        (tokens (Token.render (tokens css))).map Token.unplaced = Token.normal (tokens css)) ↔
      Token.separable (tokens css) = true ∧
        TokenKind.fits [] ((Token.normal (tokens css)).map Token.kind) = true := by
  have hlegible : ∀ t ∈ tokens css, t.Legible := fun t ht =>
    Token.legible_of_mem_tokens ht (hwhole t ht).1 (hwhole t ht).2 (hnumbers t ht)
  rw [Token.render, String.toList_ofList]
  exact Token.tokens_render_eq_normal_iff hlegible (Token.urlsQuoted_tokens css)

/-- A rule whose comment, number and url are read again. -/
theorem tokens_render_rule :
    lexemes (Token.render (tokens "a/**/ b{c:1px url(d)}")).toList =
        Token.layout (Token.joinBlanks (tokens "a/**/ b{c:1px url(d)}")) ∧
      (tokens (Token.render (tokens "a/**/ b{c:1px url(d)}"))).map Token.unplaced =
        Token.normal (tokens "a/**/ b{c:1px url(d)}") :=
  (tokens_render_iff "a/**/ b{c:1px url(d)}" (by decide +kernel) (by decide +kernel)).2
    (by decide +kernel)

/-- The tokens `--` and `>` are written as one token. -/
theorem tokens_render_cdc :
    (∀ t ∈ tokens "--/**/>", t.kind ≠ .badString ∧ t.kind ≠ .badUrl ∧
        Lexeme.isNumeric t.kind = false) ∧
      (tokens (Token.render (tokens "--/**/>"))).map Token.unplaced ≠
        Token.normal (tokens "--/**/>") := by
  decide +kernel

end StyleGate
