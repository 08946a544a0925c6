import StyleGate.Policy.Standard
import StyleGate.Proofs.Provenance
import StyleGate.Proofs.Stability
import StyleGate.Proofs.Wholeness

/-!
# What is handed on

The text that is left of a stylesheet goes to other readers. Where no two of its tokens are read
together and no url in it lies too deep, a reader finds in it what was left, in normal form: rules that
the policy allows, which come through the gate as they are (`Policy.clean_css`). Where tokens are read
together, a reader can find something else (`Policy.clean_css_cdc`).
-/

namespace StyleGate

/-! ## The tokens of the text -/

/-- The line break between two rules. -/
def Token.lineBreak : Token := Token.of .whitespace "\n"

namespace Token

/-- Two tokens that follow each other are parted by the gap between them, wherever they stand. -/
theorem charsAll_append_cons (ts us : List Token) (t u : Token) :
    charsAll (ts ++ t :: u :: us) = charsAll (ts ++ [t]) ++ (gap t u ++ charsAll (u :: us)) := by
  have hafter (p : Token) (ts : List Token) : charsAfter p (ts ++ t :: u :: us) =
      charsAfter p (ts ++ [t]) ++ (gap t u ++ charsAll (u :: us)) := by
    induction ts generalizing p with
    | nil => simp [charsAfter, charsAll]
    | cons v ts ih => simp [charsAfter, ih]
  cases ts with
  | nil => simp [charsAll, charsAfter]
  | cons v ts => simp [charsAll, hafter]

/-- A line break is written as one, and nothing stands between it and the next token. -/
theorem charsAll_lineBreak (ts : List Token) : charsAll (lineBreak :: ts) = '\n' :: charsAll ts := by
  have hchars : lineBreak.chars = ['\n'] := by decide
  rw [charsAll, hchars]
  cases ts with
  | nil => rfl
  | cons t ts => simp [charsAfter, charsAll, gap, needsSeparator, lineBreak, of]

end Token

namespace Rule

/-- The values of a stylesheet: those of its rules, each on a line of its own. -/
def sheet : List Rule → List ComponentValue
  | [] => []
  | [r] => r.values
  | r :: rest => r.values ++ .token Token.lineBreak :: sheet rest

/-- The tokens of a stylesheet. -/
def sheetTokens (rules : List Rule) : List Token := ComponentValue.tokensAll (sheet rules)

/-- The values of a stylesheet are laid out as its rules, with line breaks left out between them. -/
theorem laid_sheet {rs : List Rule} (h : ∀ r ∈ rs, r.WellRead true) : Laid true (sheet rs) rs := by
  fun_induction sheet rs with
  | case1 => exact .nil
  | case2 r => exact .rule (h r (.head _)) r.endsWith_ending .nil
  | case3 r rest _ ih =>
    rw [values, List.append_assoc, List.singleton_append]
    exact .rule (h r (.head _)) r.endsWith_ending (.skip rfl (ih fun s hs => h s (.tail _ hs)))

/-- What holds of the values of each rule, and of line breaks, holds of all values of the
stylesheet. -/
theorem forall_sheet {P : ComponentValue → Prop} {rs : List Rule}
    (h : ∀ r ∈ rs, ∀ v ∈ r.values, P v) (hbreak : P (.token Token.lineBreak)) :
    ∀ v ∈ sheet rs, P v := by
  fun_induction sheet rs with
  | case1 => simp
  | case2 r => exact h r (.head _)
  | case3 r rest _ ih =>
    exact List.forall_mem_append.2 ⟨h r (.head _),
      List.forall_mem_cons.2 ⟨hbreak, ih fun s hs => h s (.tail _ hs)⟩⟩

/-- The tokens of a rule are tokens of the stylesheet. -/
theorem mem_sheetTokens {rs : List Rule} {r : Rule} (hr : r ∈ rs) (hcomments : r.comments = [])
    {t : Token} (ht : t ∈ r.tokens) : t ∈ sheetTokens rs := by
  rw [← tokensAll_values hcomments] at ht
  unfold sheetTokens
  fun_induction sheet rs with
  | case1 => cases hr
  | case2 s =>
    obtain rfl := List.mem_singleton.1 hr
    exact ht
  | case3 s rest _ ih =>
    rw [ComponentValue.tokensAll_append, ComponentValue.tokensAll_cons]
    rcases List.mem_cons.1 hr with rfl | hr
    · exact List.mem_append_left _ ht
    · exact List.mem_append_right _ (List.mem_append_right _ (ih hr))

/-- Nothing is written between the last token of a rule and what follows. -/
theorem last_tokens {r : Rule} (h : r.comments = []) :
    ∃ ts t, r.tokens = ts ++ [t] ∧ ∀ u, Token.gap t u = [] := by
  have hgap {t : Token} (ht : t.kind.closesGroup = true ∨ t.kind = .semicolon) (u : Token) :
      Token.gap t u = [] := by
    have hkind : t.needsSeparator u = false := by
      unfold Token.needsSeparator
      cases hk : t.kind <;> simp_all [TokenKind.closesGroup]
    simp [Token.gap, hkind]
  rw [← tokensAll_values h, values, ComponentValue.tokensAll_append]
  unfold ending
  split
  · next b hb =>
    refine ⟨ComponentValue.tokensAll r.head ++ b.opener :: ComponentValue.tokensAll b.contents,
      ComponentValue.blockEnd b.opener, ?_, hgap (.inl (ComponentValue.closesGroup_blockEnd _))⟩
    simp [Block.value, ComponentValue.tokens]
  · exact ⟨_, Token.of .semicolon "", rfl, hgap (.inr rfl)⟩

/-- The text of a stylesheet is that of its tokens. -/
theorem render_sheetTokens {rs : List Rule} (h : ∀ r ∈ rs, r.comments = []) :
    Token.render (sheetTokens rs) = stylesheetText rs := by
  unfold sheetTokens
  fun_induction sheet rs with
  | case1 => rfl
  | case2 r =>
    rw [tokensAll_values (h r (.head _))]
    rfl
  | case3 r rest hrest ih =>
    obtain ⟨s, rest, rfl⟩ := List.exists_cons_of_ne_nil fun hnil => hrest hnil
    have ih := ih fun s hs => h s (.tail _ hs)
    obtain ⟨ts, t, htokens, hgap⟩ := last_tokens (h r (.head _))
    have htext : stylesheetText (r :: s :: rest) = r.text ++ "\n" ++ stylesheetText (s :: rest) :=
      String.intercalate_cons_cons
    rw [htext, ← ih, ComponentValue.tokensAll_append, tokensAll_values (h r (.head _)),
      ComponentValue.tokensAll_cons, text, htokens, ComponentValue.tokens, List.singleton_append,
      List.append_assoc, List.singleton_append, ← String.toList_inj]
    simp [Token.render, Token.charsAll_append_cons, hgap, Token.charsAll_lineBreak]

/-- Rules that are read again have the text that they were read from. -/
theorem text_of_readAs {r s : Rule} {topLevel topLevel' : Bool} {depth : Nat}
    {closer : Option TokenKind} (h : r.ReadAs s) (hr : r.Readable topLevel depth closer)
    (hs : s.WellRead topLevel') (hlegible : ∀ t ∈ r.tokens, t.Legible) : s.text = r.text := by
  rw [← hr.tokens_eq] at hlegible
  rw [text, text, ← tokensAll_values hs.comments_eq, ← hr.tokens_eq, ← Token.render_map_unplaced,
    ← ComponentValue.tokensAll_unplaced, h.values,
    ComponentValue.tokensAll_normalAll hr.regular hlegible, Token.render_normal hlegible]

/-- Stylesheets that are read again have the text that they were read from. -/
theorem stylesheetText_of_readAs {rs ss : List Rule} (h : List.Forall₂ ReadAs rs ss)
    (hrs : ∀ r ∈ rs, r.Readable true 0 none) (hss : ∀ s ∈ ss, s.WellRead true)
    (hlegible : ∀ r ∈ rs, ∀ t ∈ r.tokens, t.Legible) : stylesheetText ss = stylesheetText rs := by
  have htexts : ss.map text = rs.map text := by
    induction h with
    | nil => rfl
    | cons h _ ih =>
      obtain ⟨hr, hrs⟩ := List.forall_mem_cons.1 hrs
      obtain ⟨hs, hss⟩ := List.forall_mem_cons.1 hss
      obtain ⟨hr', hlegible⟩ := List.forall_mem_cons.1 hlegible
      rw [List.map_cons, List.map_cons, text_of_readAs h hr hs hr', ih hrs hss hlegible]
  rw [stylesheetText, htexts, stylesheetText]

end Rule

/-! ## Reading the text -/

namespace Stream

variable {s : Stream}

/-- Where something is reported, a broken string stands among the tokens. -/
def Marked (s : Stream) : Prop := s.errors = [] ∨ ∃ t ∈ s.tokens, t.kind = .badString

/-- One more token leaves the mark where it is. -/
theorem Marked.cons {s' : Stream} {t : Token} (h : s.Marked) (herrors : s'.errors = s.errors)
    (htokens : s'.tokens = t :: s.tokens) : s'.Marked := by
  rw [Marked, herrors, htokens]
  exact h.imp_right fun ⟨u, hu, hkind⟩ => ⟨u, .tail _ hu, hkind⟩

/-- The only lexeme that is reported opens a group too deep, and a broken string is taken in its
place. -/
theorem Marked.take (h : s.Marked) (kind : TokenKind) (value source : List Char) :
    (s.take kind value source).Marked := by
  unfold Stream.take
  dsimp only
  split
  · split
    · exact .inr ⟨_, .head _, rfl⟩
    · exact h.cons rfl rfl
  · split
    · exact h.cons rfl rfl
    · exact h.cons rfl rfl

/-- What is passed over reports nothing. -/
theorem Marked.skip (h : s.Marked) (closer : TokenKind) (outer : List TokenKind) (kind : TokenKind)
    (source : List Char) : (s.skip closer outer kind source).Marked := by
  unfold Stream.skip
  dsimp only
  split
  · exact h
  · split <;> exact h

/-- No lexeme is reported without a mark. -/
theorem Marked.push (h : s.Marked) (x : Sourced) : (s.push x).Marked := by
  unfold Stream.push
  split
  · exact h
  · split
    · exact h.skip ..
    · exact h.take ..

/-- So no text is. -/
theorem Marked.foldl_push (h : s.Marked) (xs : List Sourced) : (xs.foldl Stream.push s).Marked := by
  induction xs generalizing s with
  | nil => exact h
  | cons x xs ih => exact ih (h.push x)

end Stream

/-- Where no broken string is read, no group lies too deep. -/
theorem tokenize_errors {text : String} (h : ∀ t ∈ tokens text, t.kind ≠ .badString) :
    (tokenize text).2 = [] := by
  have hmarked : ((lexemes text.toList).foldl Stream.push {}).Marked :=
    Stream.Marked.foldl_push (.inl rfl) _
  rcases hmarked with herrors | ⟨t, ht, hkind⟩
  · exact List.reverse_eq_nil_iff.2 herrors
  · exact absurd hkind (h t (List.mem_reverse.2 ht))

/-- A token that is put in, or comes from a text, carries a text of its kind unless it is broken. -/
theorem Token.legible_of_from {css : String} {t : Token} (h : t.From (StyleGate.tokens css))
    (hstring : t.kind ≠ .badString) (hurl : t.kind ≠ .badUrl)
    (hnumber : Lexeme.isNumeric t.kind = true → t.ReadsAlone) : t.Legible := by
  rcases h with h | h
  · exact legible_of_mem_tokens h hstring hurl hnumber
  · cases h with
    | marker p => exact absurd rfl hstring
    | @closer kind hcloses => cases kind <;> first | rfl | cases hcloses
    | semicolon => rfl
    | colon => rfl
    | mark hmark =>
      simp only [Declaration.importantTokens, List.mem_cons, List.not_mem_nil, or_false] at hmark
      rcases hmark with rfl | rfl | rfl
      · simp [Legible, TokenKind.Carries, insertedSpace]
      · exact ⟨'!', rfl, by decide⟩
      · simp [Legible, TokenKind.Carries, of]

namespace Policy

variable (p : Policy)

/-- The rules that are left of a text under a policy. -/
def left (css : String) : List Rule :=
  (sanitizeRules p.sanitizers (Rule.readAll true (tokens css)).1).1

/-- The tokens of the text that is left of a text. -/
def handedOn (css : String) : List Token := Rule.sheetTokens (p.left css)

variable {p} {css : String}

/-- What is left of a text is readable. -/
theorem readable_left : ∀ r ∈ p.left css, r.Readable true 0 none :=
  (p.sifted_stylesheet (tokens css)).readable

/-- The text that is left of a text is written from its tokens. -/
theorem css_cleanText : (p.cleanText css).css = Token.render (p.handedOn css) := by
  rw [handedOn, Rule.render_sheetTokens fun r hr => (readable_left r hr).wellRead.comments_eq, left]
  simp only [cleanText, Parser.stylesheet, Parser.reading, Parser.ofText, ← tokens.eq_1,
    survivor_judgeStylesheet, Option.getD_some]

/-- The values of what is handed on are regular and whole. -/
theorem forall_sheet_left : ∀ v ∈ Rule.sheet (p.left css), v.Regular 0 none ∧ v.Whole := by
  have hwhole := whole_of_allowsSheet (p.allowsSheet_left (tokens css)) readable_left
  refine Rule.forall_sheet (fun r hr v hv => ⟨(readable_left r hr).regular v hv, hwhole r hr v hv⟩) ?_
  exact ⟨.token rfl (by simp), ComponentValue.whole_of_isWhitespace rfl⟩

/-- Every token that is handed on carries a text of its kind, if those of numbers do. -/
theorem legible_handedOn
    (hnumbers : ∀ t ∈ p.handedOn css, Lexeme.isNumeric t.kind = true → t.ReadsAlone) :
    ∀ t ∈ p.handedOn css, t.Legible := by
  have hfrom : ∀ v ∈ Rule.sheet (p.left css), ∀ t ∈ v.tokens,
      t.From (tokens css) ∨ t = Token.lineBreak := by
    refine Rule.forall_sheet (fun r hr v hv t ht => .inl ?_) fun t ht => .inr (List.mem_singleton.1 ht)
    refine p.from_of_mem_left (tokens css) r hr t ?_
    rw [← (readable_left r hr).tokens_eq, ComponentValue.tokensAll_eq_flatMap]
    exact List.mem_flatMap.2 ⟨v, hv, ht⟩
  intro t ht
  have hnumber := hnumbers t ht
  rw [handedOn, Rule.sheetTokens, ComponentValue.tokensAll_eq_flatMap] at ht
  obtain ⟨v, hv, ht⟩ := List.mem_flatMap.1 ht
  obtain ⟨hstring, hurl⟩ := (forall_sheet_left v hv).2.tokens t ht
  rcases hfrom v hv t ht with hfrom | rfl
  · exact Token.legible_of_from hfrom hstring hurl hnumber
  · intro c hc
    obtain rfl : c = '\n' := by simpa [Token.lineBreak, Token.of] using hc
    rfl

/-- The tokens that are handed on are read again exactly if none of them are read together and no url
lies too deep. -/
theorem tokens_handedOn_iff
    (hnumbers : ∀ t ∈ p.handedOn css, Lexeme.isNumeric t.kind = true → t.ReadsAlone) :
    (lexemes (Token.render (p.handedOn css)).toList =
          Token.layout (Token.joinBlanks (p.handedOn css)) ∧
        (tokens (Token.render (p.handedOn css))).map Token.unplaced = Token.normal (p.handedOn css)) ↔
      Token.separable (p.handedOn css) = true ∧
        TokenKind.fits [] ((Token.normal (p.handedOn css)).map Token.kind) = true := by
  have hurls : Token.urlsQuoted (p.handedOn css) = true :=
    ComponentValue.urlsQuoted_tokensAll fun v hv => (forall_sheet_left v hv).2
  rw [Token.render, String.toList_ofList]
  exact Token.tokens_render_eq_normal_iff (legible_handedOn hnumbers) hurls

/-- The text that is handed on is read as what was left, in its normal form, without a diagnostic. -/
theorem readAll_handedOn
    (hnumbers : ∀ t ∈ p.handedOn css, Lexeme.isNumeric t.kind = true → t.ReadsAlone)
    (hseparable : Token.separable (p.handedOn css) = true)
    (hfits : TokenKind.fits [] ((Token.normal (p.handedOn css)).map Token.kind) = true) :
    ∃ rules, Rule.readAll true (tokens (Token.render (p.handedOn css))) = (rules, []) ∧
      (tokenize (Token.render (p.handedOn css))).2 = [] ∧
      List.Forall₂ Rule.ReadAs (p.left css) rules := by
  have hlegible := legible_handedOn hnumbers
  obtain ⟨-, hread⟩ := (tokens_handedOn_iff hnumbers).2 ⟨hseparable, hfits⟩
  obtain ⟨hvalues, herrors⟩ := ComponentValue.readAll_of_normal
    (fun v hv => (forall_sheet_left v hv).1) hlegible hfits hread
  have hlaid := Rule.laid_sheet fun r hr => (@readable_left p css r hr).wellRead
  have hagain : ComponentValue.ReadAgain (Rule.sheet (p.left css))
      (ComponentValue.readAll (tokens (Token.render (p.handedOn css)))).1 := hvalues
  obtain ⟨rules, hrules, hsame⟩ := hlaid.readAgain hagain.dropWhile
  refine ⟨rules, ?_, ?_, hsame⟩
  · rw [Rule.readAll]
    simp only [hrules.ofValues, herrors, List.append_nil]
  · refine tokenize_errors fun t ht hkind => ?_
    have hmem : t.unplaced ∈ Token.normal (p.handedOn css) := hread ▸ List.mem_map_of_mem ht
    exact Token.not_badString_of_mem_normal hlegible _ hmem hkind

/-- A text that is read as allowed rules without a diagnostic comes out as the text of these rules. -/
theorem clean_of_allowsSheet {rules : List Rule} (hvalid : p.validate = .ok ())
    (hread : (Parser.ofText css).stylesheet = (rules, Parser.ofTokens []))
    (hreadable : ∀ r ∈ rules, r.Readable true 0 none) (hallowed : p.AllowsSheet rules) :
    p.clean css = .ok { css := Rule.stylesheetText rules } := by
  have hkept : p.judgeStylesheet rules = { outcome := .kept, errors := [] } := by
    simp only [judgeStylesheet, sanitizeRules_of_allowsSheet hallowed hreadable,
      Rule.agreesAll_self, if_true]
  have htext : p.cleanText css = { css := Rule.stylesheetText rules } := by
    simp only [cleanText, hread, hkept, Outcome.survivor, Option.getD_some, Parser.ofTokens]
  rw [clean, hvalid, htext]
  rfl

/-- **What is handed on can be read again.** Let a valid policy clean a text, and let the numbers that
are left be read back where they stand alone. The tokens that are handed on are then found in the text
again, in their normal form and with no comments but the separators, exactly if none of them are read
together and no url lies too deep. In that case a reader finds, without a diagnostic, rules that the
policy allows: those that were left, in normal form. Cleaned again, the text stays as it is, and
nothing is reported of it. -/
theorem clean_css (hvalid : p.validate = .ok ())
    (hnumbers : ∀ t ∈ p.handedOn css, Lexeme.isNumeric t.kind = true → t.ReadsAlone) :
    ∃ sheet, p.clean css = .ok sheet ∧
      ((lexemes sheet.css.toList = Token.layout (Token.joinBlanks (p.handedOn css)) ∧
          (tokens sheet.css).map Token.unplaced = Token.normal (p.handedOn css)) ↔
        Token.separable (p.handedOn css) = true ∧
          TokenKind.fits [] ((Token.normal (p.handedOn css)).map Token.kind) = true) ∧
      (Token.separable (p.handedOn css) = true →
        TokenKind.fits [] ((Token.normal (p.handedOn css)).map Token.kind) = true →
        ∃ rules, (Parser.ofText sheet.css).stylesheet = (rules, Parser.ofTokens []) ∧
          List.Forall₂ Rule.ReadAs (p.left css) rules ∧ p.AllowsSheet rules ∧
          p.clean sheet.css = .ok { css := sheet.css }) := by
  have hclean : p.clean css = .ok (p.cleanText css) := by
    rw [clean, hvalid]
    rfl
  refine ⟨_, hclean, by rw [css_cleanText]; exact tokens_handedOn_iff hnumbers, ?_⟩
  intro hseparable hfits
  obtain ⟨rules, hrules, herrors, hsame⟩ := readAll_handedOn hnumbers hseparable hfits
  rw [← css_cleanText] at hrules herrors
  have hreadable : ∀ s ∈ rules, s.Readable true 0 none := by
    have h := Rule.readable_readAll true (tokens (p.cleanText css).css)
    rwa [hrules] at h
  have hallowed := allowsSheet_of_readAs (p.allowsSheet_left (tokens css)) readable_left hreadable hsame
  have hread : (Parser.ofText (p.cleanText css).css).stylesheet = (rules, Parser.ofTokens []) := by
    simp only [Parser.stylesheet, Parser.reading, Parser.ofText, Parser.ofTokens, ← tokens.eq_1,
      hrules, herrors, List.append_nil]
  have htext : Rule.stylesheetText rules = (p.cleanText css).css := by
    have hlegible : ∀ r ∈ p.left css, ∀ t ∈ r.tokens, t.Legible := fun r hr t ht =>
      legible_handedOn hnumbers t
        (Rule.mem_sheetTokens hr (readable_left r hr).wellRead.comments_eq ht)
    rw [css_cleanText, handedOn, Rule.render_sheetTokens fun r hr =>
      (readable_left r hr).wellRead.comments_eq]
    exact Rule.stylesheetText_of_readAs hsame readable_left (fun s hs => (hreadable s hs).wellRead)
      hlegible
  refine ⟨rules, hread, hsame, hallowed, ?_⟩
  have hagain := clean_of_allowsSheet hvalid hread hreadable hallowed
  rwa [htext] at hagain

/-- A style rule in a conditional group loses a declaration, and what is left of it is handed on. -/
theorem clean_css_media :
    ∃ sheet, standard.clean "@media (min-width:1px){a/**/ b{x:y;color:red}}" = .ok sheet ∧
      sheet.sanitizationErrors ≠ [] ∧
      standard.clean sheet.css = .ok { css := sheet.css } := by
  obtain ⟨sheet, hclean, -, hagain⟩ :=
    @clean_css standard "@media (min-width:1px){a/**/ b{x:y;color:red}}" (by decide +kernel)
      (by decide +kernel)
  obtain ⟨-, -, -, -, hagain⟩ := hagain (by decide +kernel) (by decide +kernel)
  refine ⟨sheet, hclean, ?_, hagain⟩
  have hsheet : standard.cleanText "@media (min-width:1px){a/**/ b{x:y;color:red}}" = sheet :=
    Except.ok.inj hclean
  rw [← hsheet]
  decide +kernel

/-- The tokens `--` and `>` are handed on as one token, which is not allowed in preludes. -/
theorem clean_css_cdc :
    standard.clean "@namespace --/**/>;" = .ok { css := "@namespace -->;" } ∧
      standard.clean "@namespace -->;" ≠ .ok { css := "@namespace -->;" } := by
  decide +kernel

end Policy

end StyleGate
