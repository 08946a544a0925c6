import StyleGate.Proofs.Separation
import StyleGate.Token.Stream

/-!
# Tokens of lexemes

Without their positions, the tokens of a text are a recursive function of its lexemes
(`tokens_map_unplaced`). `Stream.reading` is that function; its arguments are the closing kinds of
the open groups and of the groups passed over. Where no group lies too deep (`TokenKind.fits`), the
tokens are the lexemes that are no comments (`Stream.reading_eq_tokensOf`), and a group that lies too
deep leaves a broken string (`Stream.fits_of_reading`).
-/

namespace StyleGate

open Text

/-! ## Nesting -/

/-- Whether no group lies too deep among tokens of the given kinds, behind open groups that end with
the given kinds. -/
def TokenKind.fits (closers : List TokenKind) : List TokenKind → Bool
  | [] => true
  | kind :: rest =>
    match kind.closer? with
    | some closer => decide (closers.length < maxGroupDepth) && fits (closer :: closers) rest
    | none => if closers.head? = some kind then fits closers.tail rest else fits closers rest

namespace Stream

/-- The token that stands for a group that was not entered, without its position. -/
def marker : Token := Token.tooDeepMarker Position.unknown

/-- The tokens of lexemes, behind open groups that end with the kinds `closers` and inside passed-over
groups that end with the kinds `skipped`. -/
def reading (closers skipped : List TokenKind) : List Sourced → List Token
  | [] => []
  | x :: xs =>
    match x.lexeme with
    | .comment => reading closers skipped xs
    | .token kind value =>
      match skipped with
      | closer :: outer =>
        if kind = closer then reading closers outer xs
        else
          match kind.closer? with
          | some inner => reading closers (inner :: closer :: outer) xs
          | none => reading closers (closer :: outer) xs
      | [] =>
        match kind.closer? with
        | some closer =>
          if maxGroupDepth ≤ closers.length then marker :: reading closers [closer] xs
          else Token.of kind (String.ofList value) :: reading (closer :: closers) [] xs
        | none =>
          if closers.head? = some kind then Token.of kind "" :: reading closers.tail [] xs
          else Token.of kind (String.ofList value) :: reading closers [] xs

/-- The tokens of a stream, the first one first, without their positions. -/
def unplaced (s : Stream) : List Token := s.tokens.reverse.map Token.unplaced

/-- What a stream takes from lexemes depends only on the groups that are open. -/
theorem unplaced_foldl_push (s : Stream) (xs : List Sourced) :
    (xs.foldl push s).unplaced = s.unplaced ++ reading s.closers s.skipped xs := by
  induction xs generalizing s with
  | nil => simp [reading]
  | cons x xs ih =>
    rw [List.foldl_cons, ih]
    obtain ⟨lexeme, source⟩ := x
    cases lexeme with
    | comment => rfl
    | token kind value =>
      cases hskipped : s.skipped with
      | cons closer outer =>
        have hpush : s.push ⟨.token kind value, source⟩ = s.skip closer outer kind source := by
          simp only [push, hskipped]
        rw [hpush]
        simp only [skip, reading]
        split
        · rfl
        · cases kind.closer? <;> simp [pass, hskipped, unplaced]
      | nil =>
        have hpush : s.push ⟨.token kind value, source⟩ = s.take kind value source := by
          simp only [push, hskipped]
        rw [hpush]
        simp only [take, reading]
        cases hcloser : kind.closer? with
        | some closer =>
          dsimp only
          split
          · simp [emit, unplaced, marker, Token.tooDeepMarker, Token.unplaced, Token.placedAt]
          · simp [emit, unplaced, hskipped, Token.of, Token.unplaced, Token.placedAt]
        | none =>
          dsimp only
          split
          · simp [emit, unplaced, hskipped, Token.of, Token.unplaced, Token.placedAt]
          · simp [emit, unplaced, hskipped, Token.of, Token.unplaced, Token.placedAt]

end Stream

/-- Without their positions, the tokens of a text are a function of its lexemes. -/
theorem tokens_map_unplaced (text : String) :
    (tokens text).map Token.unplaced = Stream.reading [] [] (lexemes text.toList) :=
  Stream.unplaced_foldl_push {} (lexemes text.toList)

/-- The token of a lexeme, without its position. -/
def Sourced.token? (x : Sourced) : Option Token :=
  match x.lexeme with
  | .comment => none
  | .token kind value => some (Token.of kind (String.ofList value))

namespace Stream

/-- The tokens of lexemes where no group is passed over. -/
def tokensOf (xs : List Sourced) : List Token := xs.filterMap Sourced.token?

/-- Closing brackets carry no text. -/
def BareClosers (xs : List Sourced) : Prop :=
  ∀ x ∈ xs, ∀ kind value, x.lexeme = .token kind value → kind.closesGroup = true → value = []

/-- The lexemes behind the first one are no exception. -/
theorem BareClosers.tail {x : Sourced} {xs : List Sourced} (h : BareClosers (x :: xs)) :
    BareClosers xs :=
  fun y hy => h y (.tail _ hy)

section Reading

variable {closers skipped : List TokenKind} {xs : List Sourced}

/-- One more open group is closed by a closing token like the others. -/
theorem closesGroup_of_mem_cons {kind closer : TokenKind}
    (hclosers : ∀ k ∈ closers, k.closesGroup = true)
    (hcloser : kind.closer? = some closer) : ∀ k ∈ closer :: closers, k.closesGroup = true := by
  intro k hk
  rcases List.mem_cons.1 hk with rfl | hk
  · exact TokenKind.closesGroup_of_closer? hcloser
  · exact hclosers k hk

/-- Where no group lies too deep, every lexeme that is no comment is a token. -/
theorem reading_eq_tokensOf (hclosers : ∀ kind ∈ closers, kind.closesGroup = true)
    (hbare : BareClosers xs) (h : TokenKind.fits closers ((tokensOf xs).map Token.kind) = true) :
    reading closers [] xs = tokensOf xs := by
  induction xs generalizing closers with
  | nil => rfl
  | cons x xs ih =>
    obtain ⟨lexeme, source⟩ := x
    cases lexeme with
    | comment => exact ih hclosers hbare.tail h
    | token kind value =>
      have htokens : tokensOf (⟨.token kind value, source⟩ :: xs) =
          Token.of kind (String.ofList value) :: tokensOf xs := rfl
      rw [htokens] at h ⊢
      simp only [List.map_cons, Token.of, TokenKind.fits] at h
      simp only [reading]
      cases hcloser : kind.closer? with
      | some closer =>
        rw [hcloser] at h
        simp only [Bool.and_eq_true, decide_eq_true_eq] at h
        dsimp only
        rw [if_neg (by omega), ih (closesGroup_of_mem_cons hclosers hcloser) hbare.tail h.2]
      | none =>
        rw [hcloser] at h
        dsimp only at h ⊢
        split
        · next hhead =>
          have hcloses := hclosers kind (List.mem_of_head? hhead)
          have hvalue := hbare _ (.head _) kind value rfl hcloses
          rw [if_pos hhead] at h
          rw [ih (fun k hk => hclosers k (List.mem_of_mem_tail hk)) hbare.tail h, hvalue]
        · next hhead =>
          rw [if_neg hhead] at h
          rw [ih hclosers hbare.tail h]

/-- A group that lies too deep leaves a broken string. -/
theorem fits_of_reading (h : ∀ t ∈ reading closers [] xs, t.kind ≠ .badString) :
    TokenKind.fits closers ((tokensOf xs).map Token.kind) = true := by
  induction xs generalizing closers with
  | nil => rfl
  | cons x xs ih =>
    obtain ⟨lexeme, source⟩ := x
    cases lexeme with
    | comment => exact ih h
    | token kind value =>
      have htokens : tokensOf (⟨.token kind value, source⟩ :: xs) =
          Token.of kind (String.ofList value) :: tokensOf xs := rfl
      rw [htokens]
      simp only [List.map_cons, Token.of, TokenKind.fits]
      simp only [reading] at h
      cases hcloser : kind.closer? with
      | some closer =>
        rw [hcloser] at h
        dsimp only at h ⊢
        split at h
        · exact absurd rfl (h marker (.head _))
        · next hdepth =>
          rw [Bool.and_eq_true, decide_eq_true_eq]
          exact ⟨by omega, ih fun t ht => h t (.tail _ ht)⟩
      | none =>
        rw [hcloser] at h
        dsimp only at h ⊢
        split
        · next hhead =>
          rw [if_pos hhead] at h
          exact ih fun t ht => h t (.tail _ ht)
        · next hhead =>
          rw [if_neg hhead] at h
          exact ih fun t ht => h t (.tail _ ht)

/-- What is read of one lexeme: nothing inside a group that is passed over, a mark where such a group
starts, or its token, which has no text where it ends a group. -/
theorem reading_token_cases (closers skipped : List TokenKind) (kind : TokenKind)
    (value source : List Char) (xs : List Sourced) :
    ∃ closers' skipped', (∀ k ∈ closers', k ∈ closers ∨ kind.closer? = some k) ∧
      (reading closers skipped (⟨.token kind value, source⟩ :: xs) = reading closers' skipped' xs ∨
        reading closers skipped (⟨.token kind value, source⟩ :: xs) =
          marker :: reading closers' skipped' xs ∨
        reading closers skipped (⟨.token kind value, source⟩ :: xs) =
          Token.of kind (String.ofList value) :: reading closers' [] xs ∨
        (closers.head? = some kind ∧ kind.closer? = none ∧
          reading closers skipped (⟨.token kind value, source⟩ :: xs) =
            Token.of kind "" :: reading closers' [] xs)) := by
  simp only [reading]
  cases skipped with
  | cons closer outer =>
    dsimp only
    split
    · exact ⟨closers, outer, fun k hk => .inl hk, .inl rfl⟩
    · split
      · exact ⟨closers, _, fun k hk => .inl hk, .inl rfl⟩
      · exact ⟨closers, _, fun k hk => .inl hk, .inl rfl⟩
  | nil =>
    dsimp only
    split
    · next closer hcloser =>
      split
      · exact ⟨closers, [closer], fun k hk => .inl hk, .inr (.inl rfl)⟩
      · refine ⟨closer :: closers, [], fun k hk => ?_, .inr (.inr (.inl rfl))⟩
        rcases List.mem_cons.1 hk with rfl | hk
        · exact .inr hcloser
        · exact .inl hk
    · next hcloser =>
      split
      · next hhead =>
        exact ⟨closers.tail, [], fun k hk => .inl (List.mem_of_mem_tail hk),
          .inr (.inr (.inr ⟨hhead, hcloser, rfl⟩))⟩
      · exact ⟨closers, [], fun k hk => .inl hk, .inr (.inr (.inl rfl))⟩

/-- A token that is read is the token of a lexeme, or stands for a group that lies too deep. -/
theorem mem_reading (hclosers : ∀ kind ∈ closers, kind.closesGroup = true) (hbare : BareClosers xs)
    {t : Token} (ht : t ∈ reading closers skipped xs) : t = marker ∨ t ∈ tokensOf xs := by
  induction xs generalizing closers skipped with
  | nil => cases ht
  | cons x xs ih =>
    obtain ⟨lexeme, source⟩ := x
    cases lexeme with
    | comment => exact ih hclosers hbare.tail ht
    | token kind value =>
      have htokens : tokensOf (⟨.token kind value, source⟩ :: xs) =
          Token.of kind (String.ofList value) :: tokensOf xs := rfl
      obtain ⟨closers', skipped', hclosers', hreading⟩ :=
        reading_token_cases closers skipped kind value source xs
      have hcloses : ∀ k ∈ closers', k.closesGroup = true := fun k hk =>
        (hclosers' k hk).elim (hclosers k) TokenKind.closesGroup_of_closer?
      have hrest {skipped : List TokenKind} (hmem : t ∈ reading closers' skipped xs) :
          t = marker ∨ t ∈ Token.of kind (String.ofList value) :: tokensOf xs :=
        (ih hcloses hbare.tail hmem).imp_right (.tail _)
      rw [htokens]
      rcases hreading with heq | heq | heq | ⟨hhead, -, heq⟩
      · exact hrest (heq ▸ ht)
      · rw [heq] at ht
        exact (List.mem_cons.1 ht).elim .inl hrest
      · rw [heq] at ht
        exact (List.mem_cons.1 ht).elim (fun h => .inr (h ▸ .head _)) hrest
      · have hvalue := hbare _ (.head _) kind value rfl (hclosers kind (List.mem_of_head? hhead))
        rw [heq] at ht
        refine (List.mem_cons.1 ht).elim (fun h => .inr ?_) hrest
        rw [h, hvalue]
        exact .head _

end Reading

/-! ## The tokens of a text -/

/-- No lexeme of a text is an exception. -/
theorem bareClosers_lexemes (text : List Char) : BareClosers (lexemes text) := by
  intro x hx kind value hlexeme hcloses
  obtain ⟨lexeme, source⟩ := x
  cases hlexeme
  rcases Lexeme.carries_of_mem_lexemes hx with rfl | rfl | hnumeric | hcarries
  · cases hcloses
  · cases hcloses
  · exfalso
    revert hcloses hnumeric
    cases kind <;> decide
  · cases kind <;> first | exact hcarries | cases hcloses

/-- A text with a quote at its front starts with a string, broken or not. -/
theorem opensQuote_reading_quote {c : Char} (hc : c = '"' ∨ c = '\'') (rest : List Char)
    (closers : List TokenKind) :
    Token.opensQuote (reading closers [] (lexemes (c :: rest))) = true := by
  obtain ⟨kind, v, n, hread, hkind⟩ : ∃ kind v n,
      Lexeme.read c rest = (.token kind v, n) ∧ (kind = .string ∨ kind = .badString) := by
    have hstring : Lexeme.read c rest = Lexeme.string c rest := by
      rcases hc with rfl | rfl <;> rfl
    rw [hstring]
    unfold Lexeme.string
    dsimp only
    split
    · exact ⟨_, _, _, rfl, .inr rfl⟩
    · exact ⟨_, _, _, rfl, .inl rfl⟩
  rw [Lexeme.lexemes_cons, hread]
  rcases hkind with rfl | rfl
  all_goals
    simp only [reading, TokenKind.closer?, TokenKind.bracketCloser?]
    split <;> simp [Token.opensQuote, Token.of]

/-- Behind `url(`, a string is read where the url is quoted. -/
theorem opensQuote_reading {text : List Char} (h : Lexeme.urlContent text = .quoted)
    (closers : List TokenKind) :
    Token.opensQuote (reading closers [] (lexemes text)) = true := by
  have hquote : (text.drop (text.takeWhile isSpace).length).head? = some '"' ∨
      (text.drop (text.takeWhile isSpace).length).head? = some '\'' := by
    unfold Lexeme.urlContent at h
    dsimp only at h
    split at h
    · next heq => exact .inl heq
    · next heq => exact .inr heq
    · split at h <;> cases h
  obtain ⟨q, more, hmore, hq⟩ : ∃ q more,
      text.drop (text.takeWhile isSpace).length = q :: more ∧ (q = '"' ∨ q = '\'') := by
    rcases hquote with hquote | hquote
    · obtain ⟨more, heq⟩ := List.head?_eq_some_iff.1 hquote
      exact ⟨_, more, heq, .inl rfl⟩
    · obtain ⟨more, heq⟩ := List.head?_eq_some_iff.1 hquote
      exact ⟨_, more, heq, .inr rfl⟩
  cases text with
  | nil => cases hmore
  | cons c rest =>
    by_cases hspace : isSpace c = true
    · have hread : Lexeme.read c rest = (.token .whitespace ((c :: rest).takeWhile isSpace),
          ((c :: rest).takeWhile isSpace).length) := by
        unfold Lexeme.read
        dsimp only
        rw [if_pos hspace]
      have hrest : rest.drop (((c :: rest).takeWhile isSpace).length - 1) = q :: more := by
        rw [← hmore]
        simp [hspace]
      rw [Lexeme.lexemes_cons, hread, hrest]
      have hopens := opensQuote_reading_quote hq more
      simp only [reading, TokenKind.closer?, TokenKind.bracketCloser?]
      split <;> simp [Token.opensQuote, Token.isWhitespace, Token.of, hopens]
    · have htake : (c :: rest).takeWhile isSpace = [] := by simp [hspace]
      rw [htake] at hmore
      cases hmore
      exact opensQuote_reading_quote hq _ closers

/-- Every function `url` of a text goes on with a string. -/
theorem urlsQuoted_reading (closers skipped : List TokenKind) (text : List Char) :
    Token.urlsQuoted (reading closers skipped (lexemes text)) = true := by
  induction text using Lexeme.lexemes_induction generalizing closers skipped with
  | nil =>
    rw [Lexeme.lexemes_nil]
    rfl
  | cons c rest ih =>
    rw [Lexeme.lexemes_cons]
    cases hlexeme : (Lexeme.read c rest).1 with
    | comment => exact ih closers skipped
    | token kind value =>
      have hread : Lexeme.read c rest = (.token kind value, (Lexeme.read c rest).2) :=
        Prod.ext hlexeme rfl
      have hother (t : Token) (ht : t.isNamed .function "url" = false) (closers skipped) :
          Token.urlsQuoted (t :: reading closers skipped
            (lexemes (rest.drop ((Lexeme.read c rest).2 - 1)))) = true := by
        rw [Token.urlsQuoted, ih, ht]
        rfl
      obtain ⟨closers', skipped', -, heq | heq | heq | ⟨-, hcloser, heq⟩⟩ :=
        reading_token_cases closers skipped kind value (c :: rest.take ((Lexeme.read c rest).2 - 1))
          (lexemes (rest.drop ((Lexeme.read c rest).2 - 1)))
      all_goals rw [heq]
      · exact ih _ _
      · exact hother _ rfl _ _
      · cases hnamed : (Token.of kind (String.ofList value)).isNamed .function "url" with
        | false => exact hother _ hnamed _ _
        | true =>
          have hkind : kind = .function ∧ value.map Text.foldChar = ['u', 'r', 'l'] := by
            simp [Token.isNamed, Token.of, Text.sameFolded] at hnamed
            refine ⟨hnamed.1, hnamed.2.trans ?_⟩
            decide
          obtain ⟨rfl, hvalue⟩ := hkind
          rw [Token.urlsQuoted, ih, hnamed,
            opensQuote_reading (Lexeme.urlContent_of_read hread hvalue)]
          rfl
      · have hkind : kind ≠ .function := by
          rintro rfl
          cases hcloser
        exact hother _ (by simp [Token.isNamed, Token.of, hkind]) _ _

end Stream

end StyleGate
