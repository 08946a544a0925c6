import StyleGate.Proofs.Allowance

/-!
# Allowed rules can be written

`ComponentValue.Whole` says of a value that it has no broken token and that each of its functions `url`
holds a string. The values of an allowed stylesheet are whole, in its blocks too, although there
only what the blocks are read as is judged (`Policy.whole_of_allowsSheet`): whatever is left out in
reading is whitespace or punctuation. Whole values have a written form (`ComponentValue.Whole.urlsQuoted`).
-/

namespace StyleGate

open Text

/-- A value with no broken token and with a string in every function `url`. -/
inductive ComponentValue.Whole : ComponentValue → Prop
  | token {t : Token} : t.kind ≠ .badString → t.kind ≠ .badUrl → t.kind ≠ .function →
      Whole (.token t)
  | block {opener : Token} {contents : List ComponentValue} :
      opener.kind.bracketCloser?.isSome = true → (∀ v ∈ contents, Whole v) →
      Whole (.block opener contents)
  | function {name : Token} {contents : List ComponentValue} :
      name.kind = .function → (sameFolded name.value "url" = true → IsQuotedUrl contents) →
      (∀ v ∈ contents, Whole v) → Whole (.function name contents)

namespace ComponentValue

/-- A plain token is whole if it is no broken one and starts no function. -/
theorem whole_token {kind : TokenKind} {t : Token} (h : t.kind = kind)
    (hkind : kind ≠ .badString ∧ kind ≠ .badUrl ∧ kind ≠ .function) : (token t).Whole := by
  rw [← h] at hkind
  exact .token hkind.1 hkind.2.1 hkind.2.2

/-- So is a value that is known to be such a token. -/
theorem whole_of_isToken {kind : TokenKind} {v : ComponentValue} (h : v.isToken kind = true)
    (hkind : kind ≠ .badString ∧ kind ≠ .badUrl ∧ kind ≠ .function) : v.Whole := by
  obtain ⟨t, rfl, ht⟩ := isToken_iff.1 h
  exact whole_token ht hkind

/-- So is whitespace. -/
theorem whole_of_isWhitespace {v : ComponentValue} (h : v.isWhitespace = true) : v.Whole :=
  whole_of_isToken h (by decide)

/-! ## Tokens of whole values -/

/-- No token of a whole value is broken. -/
theorem Whole.tokens {v : ComponentValue} (h : v.Whole) :
    ∀ t ∈ v.tokens, t.kind ≠ .badString ∧ t.kind ≠ .badUrl := by
  have hlist {vs : List ComponentValue}
      (h : ∀ v ∈ vs, ∀ t ∈ v.tokens, t.kind ≠ .badString ∧ t.kind ≠ .badUrl) :
      ∀ t ∈ tokensAll vs, t.kind ≠ .badString ∧ t.kind ≠ .badUrl := by
    intro t ht
    rw [tokensAll_eq_flatMap] at ht
    obtain ⟨v, hv, ht⟩ := List.mem_flatMap.1 ht
    exact h v hv t ht
  induction h with
  | token hstring hurl _ =>
    intro t ht
    obtain rfl := List.mem_singleton.1 ht
    exact ⟨hstring, hurl⟩
  | @block opener contents hopener _ ih =>
    intro t ht
    simp only [ComponentValue.tokens, List.mem_cons, List.mem_append, List.not_mem_nil,
      or_false] at ht
    rcases ht with rfl | ht | rfl
    · exact ⟨TokenKind.ne_of_bracketCloser? hopener rfl, TokenKind.ne_of_bracketCloser? hopener rfl⟩
    · exact hlist ih t ht
    · have hend := closesGroup_blockEnd opener
      exact ⟨TokenKind.ne_of_closesGroup hend rfl, TokenKind.ne_of_closesGroup hend rfl⟩
  | function hname _ _ ih =>
    intro t ht
    simp only [ComponentValue.tokens, List.mem_cons, List.mem_append, List.not_mem_nil,
      or_false] at ht
    rcases ht with rfl | ht | rfl
    · simp [hname]
    · exact hlist ih t ht
    · simp [functionEnd]

/-- Only a function has to be looked at. -/
theorem urlsQuoted_cons {t : Token} (h : t.kind ≠ .function) (ts : List Token) :
    Token.urlsQuoted (t :: ts) = Token.urlsQuoted ts := by
  simp [Token.urlsQuoted, Token.isNamed, h]

/-- A quoted url goes on with a string. -/
theorem opensQuote_of_isQuotedUrl {contents : List ComponentValue} (h : IsQuotedUrl contents)
    (rest : List Token) : Token.opensQuote (tokensAll contents ++ rest) = true := by
  obtain ⟨before, url, after, rfl, hurl, hspace⟩ := h
  induction before with
  | nil => simp [ComponentValue.tokens, Token.opensQuote, hurl]
  | cons v before ih =>
    have hv := hspace v (.head _)
    obtain ⟨t, rfl, -⟩ := isWhitespace_iff.1 hv
    have ht : t.isWhitespace = true := hv
    have ih := ih fun w hw => hspace w (.tail _ hw)
    rw [List.cons_append, tokensAll_cons, ComponentValue.tokens, List.singleton_append,
      List.cons_append, Token.opensQuote, ih, ht]
    simp

/-- Every function `url` of a whole value goes on with a string. -/
theorem Whole.urlsQuoted {v : ComponentValue} (h : v.Whole) (rest : List Token) :
    Token.urlsQuoted (v.tokens ++ rest) = Token.urlsQuoted rest := by
  have hlist {vs : List ComponentValue} (h : ∀ v ∈ vs, ∀ rest : List Token,
      Token.urlsQuoted (v.tokens ++ rest) = Token.urlsQuoted rest) (rest : List Token) :
      Token.urlsQuoted (tokensAll vs ++ rest) = Token.urlsQuoted rest := by
    induction vs with
    | nil => rfl
    | cons v vs ih =>
      rw [tokensAll_cons, List.append_assoc, h v (.head _), ih fun w hw => h w (.tail _ hw)]
  induction h generalizing rest with
  | token _ _ hfunction => exact urlsQuoted_cons hfunction rest
  | @block opener contents hopener _ ih =>
    rw [ComponentValue.tokens, List.cons_append, List.append_assoc,
      urlsQuoted_cons (TokenKind.ne_of_bracketCloser? hopener rfl), hlist ih]
    exact urlsQuoted_cons (TokenKind.ne_of_closesGroup (closesGroup_blockEnd opener) rfl) rest
  | @function name contents hname hquoted _ ih =>
    have hend : Token.urlsQuoted (functionEnd :: rest) = Token.urlsQuoted rest :=
      urlsQuoted_cons (by simp [functionEnd]) rest
    rw [ComponentValue.tokens, List.cons_append, List.append_assoc, Token.urlsQuoted, hlist ih,
      List.singleton_append, hend]
    cases hurl : sameFolded name.value "url" with
    | false => simp [Token.isNamed, hurl]
    | true => rw [opensQuote_of_isQuotedUrl (hquoted hurl)]; simp

/-- In whole values each url holds a string. -/
theorem urlsQuoted_tokensAll {vs : List ComponentValue} (h : ∀ v ∈ vs, v.Whole) :
    Token.urlsQuoted (tokensAll vs) = true := by
  induction vs with
  | nil => rfl
  | cons v vs ih =>
    rw [tokensAll_cons, (h v (.head _)).urlsQuoted, ih fun w hw => h w (.tail _ hw)]

/-! ## Permitted values -/

/-- A permitted value is whole. -/
theorem whole_of_permits {p : ValuePolicy} {v : ComponentValue} (h : p.Permits v) {depth : Nat}
    {closer : Option TokenKind} (hregular : v.Regular depth closer) : v.Whole := by
  induction h generalizing depth closer with
  | @token t hkind _ =>
    cases hregular with
    | token ho _ =>
      refine .token ?_ ?_ ?_ <;>
      · intro heq
        simp [heq, TokenKind.isForbidden, TokenKind.opensGroup, TokenKind.closer?] at hkind ho
  | block _ _ ih =>
    cases hregular with
    | block hcloser _ hcontents =>
      exact .block (by rw [hcloser]; rfl) fun v hv => ih v hv (hcontents v hv)
  | url hname _ hquoted =>
    cases hregular with
    | function hkind _ _ =>
      refine .function hkind (fun _ => hquoted) fun v hv => ?_
      obtain ⟨t, rfl, hstring | hspace⟩ := hquoted.plain v hv
      · exact whole_token hstring (by decide)
      · exact whole_token hspace (by decide)
  | function hname _ _ ih =>
    cases hregular with
    | function hkind _ hcontents =>
      refine .function hkind (fun hurl => ?_) fun v hv => ih v hv (hcontents v hv)
      rw [hname] at hurl
      cases hurl

/-- What is dropped at the front is whitespace. -/
theorem mem_dropWhile_or_isWhitespace {vs : List ComponentValue} {v : ComponentValue} (h : v ∈ vs) :
    v ∈ vs.dropWhile isWhitespace ∨ v.isWhitespace = true := by
  rw [← List.takeWhile_append_dropWhile (p := isWhitespace) (l := vs)] at h
  rcases List.mem_append.1 h with h | h
  · exact .inr (List.all_eq_true.1 List.all_takeWhile v h)
  · exact .inl h

/-- What is trimmed is whitespace. -/
theorem mem_trim_or_isWhitespace {vs : List ComponentValue} {v : ComponentValue} (h : v ∈ vs) :
    v ∈ trim vs ∨ v.isWhitespace = true := by
  rcases mem_dropWhile_or_isWhitespace (List.mem_reverse.2 h) with h | h
  · exact mem_dropWhile_or_isWhitespace (List.mem_reverse.2 h)
  · exact .inr h

end ComponentValue

/-! ## Allowed declarations -/

namespace Declaration

open ComponentValue (Whole)

/-- What follows the colon of a declaration is its value, and around it whitespace and a mark of
importance. -/
theorem whole_of_ofValue {name : Token} {value : List ComponentValue}
    (h : ∀ v ∈ (ofValue name value).value, v.Whole) : ∀ v ∈ value, v.Whole := by
  intro v hv
  rcases ComponentValue.mem_trim_or_isWhitespace hv with hv | hv
  · cases hmark : beforeImportant? (ComponentValue.trim value) with
    | none =>
      simp only [ofValue, hmark] at h
      exact h v hv
    | some before =>
      simp only [ofValue, hmark] at h
      obtain ⟨space, bang, last, heq, hspace, hbang, hlast⟩ := beforeImportant?_eq_some hmark
      rw [heq] at hv
      simp only [List.mem_append, List.mem_cons, List.not_mem_nil, or_false] at hv
      rcases hv with hv | rfl | hv | rfl
      · rcases ComponentValue.mem_trim_or_isWhitespace hv with hv | hv
        · exact h v hv
        · exact ComponentValue.whole_of_isWhitespace hv
      · exact ComponentValue.whole_token hbang (by decide)
      · exact ComponentValue.whole_of_isWhitespace (hspace v hv)
      · exact ComponentValue.whole_token hlast (by decide)
  · exact ComponentValue.whole_of_isWhitespace hv

/-- What spells a declaration is whole if the value of the declaration is. -/
theorem Spells.whole {name : Token} {parts : List ComponentValue} {d : Declaration}
    (h : Spells name parts d) (hvalue : ∀ v ∈ d.value, v.Whole) :
    ∀ v ∈ .token name :: parts, v.Whole := by
  obtain ⟨hident, -, hread⟩ := h
  refine List.forall_mem_cons.2 ⟨ComponentValue.whole_token hident (by decide), fun v hv => ?_⟩
  rcases ComponentValue.mem_dropWhile_or_isWhitespace hv with hv | hv
  · rw [ofParts?] at hread
    split at hread
    · next colon value heq =>
      rw [heq] at hv
      split at hread
      · next hcolon =>
        cases hread
        rcases List.mem_cons.1 hv with rfl | hv
        · exact ComponentValue.whole_of_isToken hcolon (by decide)
        · exact whole_of_ofValue hvalue v hv
      · cases hread
    · cases hread
  · exact ComponentValue.whole_of_isWhitespace hv

/-- A list of declarations is whole if the values of the declarations are. -/
theorem Listed.whole {vs : List ComponentValue} {ds : List Declaration} (h : Listed vs ds)
    (hds : ∀ d ∈ ds, ∀ v ∈ d.value, v.Whole) : ∀ v ∈ vs, v.Whole := by
  induction h with
  | nil => simp
  | skip hskip _ ih =>
    refine List.forall_mem_cons.2 ⟨?_, ih hds⟩
    rcases hskip with hskip | hskip
    · exact ComponentValue.whole_of_isWhitespace hskip
    · exact ComponentValue.whole_of_isToken hskip (by decide)
  | last hspells => exact hspells.whole (hds _ (.head _))
  | declaration hspells hv _ ih =>
    obtain ⟨hd, hds⟩ := List.forall_mem_cons.1 hds
    intro w hw
    rw [← List.cons_append] at hw
    rcases List.mem_append.1 hw with hw | hw
    · exact hspells.whole hd w hw
    · rcases List.mem_cons.1 hw with rfl | hw
      · exact ComponentValue.whole_of_isToken hv (by decide)
      · exact ih hds w hw

end Declaration

/-! ## Allowed rules -/

/-- A list of rules is whole if its rules are. -/
theorem Rule.Laid.whole {vs : List ComponentValue} {rs : List Rule} (h : Rule.Laid false vs rs)
    (hrs : ∀ r ∈ rs, ∀ v ∈ r.values, v.Whole) : ∀ v ∈ vs, v.Whole := by
  induction h with
  | nil => simp
  | skip hskip _ ih =>
    refine List.forall_mem_cons.2 ⟨ComponentValue.whole_of_isWhitespace ?_, ih hrs⟩
    simpa [RuleReader.isSkipped] using hskip
  | @rule r v vs rs _ hends _ ih =>
    obtain ⟨hr, hrs⟩ := List.forall_mem_cons.1 hrs
    intro w hw
    rcases List.mem_append.1 hw with hw | hw
    · exact hr w (List.mem_append_left _ hw)
    · rcases List.mem_cons.1 hw with rfl | hw
      · unfold Rule.EndsWith at hends
        split at hends
        · next b hb => exact hr w (List.mem_append_right _ (by simp [Rule.ending, hb, hends]))
        · exact ComponentValue.whole_of_isToken hends (by decide)
      · exact ih hrs w hw

namespace Policy

variable {p : Policy}

/-- The values in an allowed block of declarations are whole. -/
theorem whole_of_allowsDeclarations {b : Block} (h : p.AllowsDeclarations b)
    (hregular : ∀ v ∈ b.contents, v.Regular 0 none) : ∀ v ∈ b.contents, v.Whole := by
  obtain ⟨hcomplete, hallowed⟩ := h
  rw [Block.readDeclarations hregular] at hcomplete hallowed
  have hlisted := Declaration.ofGroups_eq_iff.1 (Prod.ext rfl hcomplete)
  have hvalues : ∀ g ∈ b.contents.map ComponentValue.silent, g.value.Regular 0 none := by
    simpa [ComponentValue.silent] using hregular
  have hsound := Declaration.sound_ofGroups (P := (·.Regular 0 none)) hvalues
  exact hlisted.whole fun d hd v hv =>
    ComponentValue.whole_of_permits ((hallowed d hd).value v hv) ((hsound d hd).2.value v hv)

section

variable {topLevel : Bool} {depth : Nat} {closer : Option TokenKind}

/-- A rule is whole if what stands in front of its block and what stands in it are. -/
theorem whole_values {r : Rule} (hr : r.Readable topLevel depth closer)
    (hprelude : ∀ v ∈ r.prelude, v.Whole)
    (hblock : ∀ b, r.block? = some b → ∀ v ∈ b.contents, v.Whole) : ∀ v ∈ r.values, v.Whole := by
  intro v hv
  rcases List.mem_append.1 hv with hv | hv
  · cases r with
    | qualified r => exact hprelude v hv
    | atRule r =>
      have hkeyword : r.keyword.kind = .atKeyword := AtRule.WellRead.keyword hr.wellRead
      rcases List.mem_cons.1 hv with rfl | hv
      · exact ComponentValue.whole_token hkeyword (by decide)
      · exact hprelude v hv
  · obtain rfl := List.mem_singleton.1 hv
    unfold Rule.ending
    split
    · next b hb =>
      have hbraces : b.opener.kind = .leftBrace := by
        simpa [Block.isBraces] using (hr.block hb).1
      exact .block (by rw [hbraces]; rfl) (hblock b hb)
    · exact ComponentValue.whole_token rfl (by decide)

/-- A property of lists of nested rules that makes them whole. -/
def WholeNested (nested : List Rule → Prop) : Prop :=
  ∀ {depth : Nat} {closer : Option TokenKind} {rs : List Rule},
    (∀ r ∈ rs, r.Readable false depth closer) → nested rs → ∀ r ∈ rs, ∀ v ∈ r.values, v.Whole

/-- A property of at-rules that makes them whole. -/
def WholeInner (inner : AtRule → Prop) : Prop :=
  ∀ {topLevel : Bool} {depth : Nat} {closer : Option TokenKind} {r : AtRule},
    (Rule.atRule r).Readable topLevel depth closer → inner r → ∀ v ∈ (Rule.atRule r).values, v.Whole

/-- Those of an allowed rule are so, if it is so for what is allowed of at-rules. -/
theorem whole_of_allowsRule {entries : List AtRulePolicy} {inner : AtRulePolicy → AtRule → Prop}
    (hinner : ∀ entry, WholeInner (inner entry)) {r : Rule} (h : p.AllowsRule entries inner r)
    (hr : r.Readable topLevel depth closer) : ∀ v ∈ r.values, v.Whole := by
  cases r with
  | atRule r =>
    obtain ⟨entry, -, hallowed⟩ := h
    exact hinner entry hr hallowed
  | qualified r =>
    obtain ⟨-, hallowed⟩ := h
    refine whole_values hr (fun v hv => ?_) fun b hb => ?_
    · exact ComponentValue.whole_of_permits (hallowed.selector v hv) (hr.prelude v hv)
    · obtain rfl : r.block = b := by simpa [Rule.block?] using hb
      exact whole_of_allowsDeclarations hallowed.block fun v hv => ((hr.block rfl).2.2 v hv).atTop

end

/-- It is so for what an entry allows, if it is so for the rules in its block. -/
theorem wholeInner_allowsUnder {nested : List Rule → Prop} (hnested : WholeNested nested)
    (entry : AtRulePolicy) : WholeInner (p.AllowsUnder nested entry) := by
  intro topLevel depth closer r hr h
  obtain ⟨hprelude, hblock⟩ := h
  refine whole_values hr
    (fun v hv => ComponentValue.whole_of_permits (hprelude v hv) (hr.prelude v hv)) fun b hb => ?_
  have hcontents := (hr.block hb).2.2
  have hregular : ∀ v ∈ b.contents, v.Regular 0 none := fun v hv => (hcontents v hv).atTop
  have hb : r.block = some b := hb
  rw [hb] at hblock
  cases hentry : entry.block with
  | none =>
    rw [hentry] at hblock
    cases hblock
  | declarations | optional =>
    rw [hentry] at hblock
    exact whole_of_allowsDeclarations hblock hregular
  | rules =>
    rw [hentry] at hblock
    obtain ⟨herrors, hallowed⟩ := hblock
    rw [Block.readRules hregular] at herrors hallowed
    have hlaid := Rule.laid_of_errors_eq_nil herrors
    exact hlaid.whole (hnested (Rule.readable_ofValues (by simp) hcontents) hallowed)

/-- It is so for those, if it is so for what is allowed of at-rules one level below. -/
theorem wholeNested_allowsRules {entries : List AtRulePolicy} {inner : AtRulePolicy → AtRule → Prop}
    (hinner : ∀ entry, WholeInner (inner entry)) : WholeNested (p.AllowsRules entries inner) :=
  fun hrs h r hr => whole_of_allowsRule hinner (h.allowed r hr) (hrs r hr)

/-- So it is at all levels. -/
theorem wholeInner_allowsAtRule (levels : Nat) (entry : AtRulePolicy) :
    WholeInner (p.AllowsAtRule levels entry) := by
  induction levels generalizing entry with
  | zero => exact wholeInner_allowsUnder (wholeNested_allowsRules fun _ _ _ _ _ _ h => h.elim) entry
  | succ levels ih => exact wholeInner_allowsUnder (wholeNested_allowsRules ih) entry

/-- **The values of an allowed stylesheet are whole.** -/
theorem whole_of_allowsSheet {rs : List Rule} (h : p.AllowsSheet rs)
    (hrs : ∀ r ∈ rs, r.Readable true 0 none) : ∀ r ∈ rs, ∀ v ∈ r.values, v.Whole :=
  fun r hr => whole_of_allowsRule (wholeInner_allowsAtRule maxGroupRuleDepth) (h.allowed r hr) (hrs r hr)

end Policy

end StyleGate
