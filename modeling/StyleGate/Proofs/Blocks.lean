import StyleGate.Proofs.Conformance
import StyleGate.Proofs.Positions

/-!
# Blocks that are read again

A rule is `Rule.Readable` at a place if it could have been read there. The contents of its block are
read again from their tokens, which yields what is found in the contents themselves
(`Block.readDeclarations`, `Block.readRules`). The judgement on a block of declarations is fair
(`Policy.fair_judgeDeclarations`), and a fair judgement on the block of a readable rule is a fair
judgement on the rule (`Policy.fair_judgeBlock`).
-/

namespace StyleGate

/-! ## Readable rules -/

/-- A rule that could have been read inside `depth` groups, the innermost of which ends with a token
of the kind `closer`. -/
structure Rule.Readable (topLevel : Bool) (depth : Nat) (closer : Option TokenKind) (r : Rule) :
    Prop where
  wellRead : r.WellRead topLevel
  regular : ∀ v ∈ r.values, v.Regular depth closer

namespace Rule

variable {topLevel : Bool} {depth : Nat} {closer : Option TokenKind}

/-- A semicolon is regular wherever it does not end the group around it. -/
theorem regular_semicolon (h : closer ≠ some .semicolon) :
    (ComponentValue.token (Token.of .semicolon "")).Regular depth closer :=
  .token rfl h

/-- All rules that are read from regular values are readable. -/
theorem readable_ofValues {vs : List ComponentValue} (hclose : closer ≠ some .semicolon)
    (hvs : ∀ v ∈ vs, v.Regular depth closer) :
    ∀ r ∈ (ofValues topLevel vs).1, r.Readable topLevel depth closer := fun r hr =>
  ⟨wellRead_ofValues topLevel vs r hr, forall_values_ofValues (regular_semicolon hclose) hvs r hr⟩

/-- All rules that are read from tokens are readable. -/
theorem readable_readAll (topLevel : Bool) (ts : List Token) :
    ∀ r ∈ (readAll topLevel ts).1, r.Readable topLevel 0 none :=
  readable_ofValues nofun (ComponentValue.regular_readAll ts)

/-- Rules with blocks need no semicolons. -/
theorem flatMap_values_of_blocks {rs : List Rule} (h : ∀ r ∈ rs, r.block? ≠ none) :
    rs.flatMap values = rs.flatMap body := by
  induction rs with
  | nil => rfl
  | cons r rs ih =>
    have hr : r.values = r.body := by
      obtain ⟨b, hb⟩ := Option.ne_none_iff_exists'.1 (h r (.head _))
      simp [values, body, ending, hb]
    rw [List.flatMap_cons, List.flatMap_cons, hr, ih fun s hs => h s (.tail _ hs)]

namespace Readable

variable {r : Rule}

/-- What stands before the block of a readable rule is regular. -/
theorem prelude (h : r.Readable topLevel depth closer) :
    ∀ v ∈ r.prelude, v.Regular depth closer := by
  intro v hv
  refine h.regular v (List.mem_append_left _ ?_)
  cases r with
  | atRule r => exact .tail _ hv
  | qualified r => exact hv

/-- The block of a readable rule is in braces, and its contents are regular one group further in. -/
theorem block (h : r.Readable topLevel depth closer) {b : Block} (hb : r.block? = some b) :
    b.isBraces = true ∧ depth < maxGroupDepth ∧
      ∀ v ∈ b.contents, v.Regular (depth + 1) (some .rightBrace) := by
  have hbraces : b.isBraces = true := by
    cases r with
    | atRule r => exact AtRule.WellRead.block h.wellRead b hb
    | qualified r =>
      obtain rfl : r.block = b := by simpa [block?] using hb
      exact QualifiedRule.WellRead.block h.wellRead
  have hvalue : b.value.Regular depth closer :=
    h.regular _ (List.mem_append_right _ (by simp [ending, hb]))
  have hkind : b.opener.kind = .leftBrace := by simpa [Block.isBraces] using hbraces
  cases hvalue with
  | @block _ _ _ c _ hcloser hdepth hcontents =>
    rw [hkind] at hcloser
    obtain rfl : TokenKind.rightBrace = c := by simpa [TokenKind.bracketCloser?] using hcloser
    exact ⟨hbraces, hdepth, hcontents⟩

/-- The tokens of a readable rule are those of its values. -/
theorem tokens_eq (h : r.Readable topLevel depth closer) :
    ComponentValue.tokensAll r.values = r.tokens :=
  tokensAll_values h.wellRead.comments_eq

end Readable

end Rule

/-! ## Marks of rules -/

/-- A started rule does not start with whitespace. -/
theorem OpenRule.Started.marks_pos {topLevel : Bool} {r : OpenRule} (h : r.Started topLevel) :
    0 < ComponentValue.marks r.values := by
  obtain ⟨hne, hready⟩ := h
  cases r with
  | atRule keyword before =>
    have hkeyword : keyword.kind = .atKeyword := (hready default).1
    rw [values, ComponentValue.marks_cons]
    simp only [ComponentValue.tokens, Token.marks_cons, Token.marks_nil, hkeyword, reduceCtorEq,
      if_false]
    omega
  | qualified position before =>
    obtain ⟨first, rest, heq⟩ := List.exists_cons_of_ne_nil hne
    have hfirst : first.startsQualified topLevel := by
      refine (hready default).2.2 first ?_
      rw [show before.reverse = first :: rest from heq]
      rfl
    have hspace : first.isWhitespace = false := by
      have := hfirst.1
      rw [RuleReader.isSkipped, Bool.or_eq_false_iff] at this
      exact this.1
    have := ComponentValue.marks_tokens_pos hspace
    rw [heq, ComponentValue.marks_cons]
    omega

namespace Rule

variable {topLevel : Bool}

/-- The rules in a list have no more marks than the list. -/
theorem Laid.marks_le {vs : List ComponentValue} {rs : List Rule} (h : Laid topLevel vs rs) :
    ComponentValue.marks (rs.flatMap body) ≤ ComponentValue.marks vs := by
  induction h with
  | nil => exact Nat.le_refl 0
  | skip _ _ ih =>
    rw [ComponentValue.marks_cons]
    omega
  | @rule r v vs rs _ hends _ ih =>
    have hblock : ComponentValue.marks (r.block?.toList.map Block.value) ≤ Token.marks v.tokens := by
      unfold EndsWith at hends
      split at hends
      · next b hb => simp [hb, hends, ComponentValue.marks_cons]
      · next hb => simp [hb]
    rw [List.flatMap_cons, body, ComponentValue.marks_append, ComponentValue.marks_append,
      ComponentValue.marks_append, ComponentValue.marks_cons]
    omega

/-- The rules that are read from values have no more marks than the values. Where a diagnostic was
recorded they have fewer, or an at-rule without a block is among them. -/
theorem marks_ofValues (topLevel : Bool) (vs : List ComponentValue) :
    ComponentValue.marks ((ofValues topLevel vs).1.flatMap body) ≤ ComponentValue.marks vs ∧
      ((ofValues topLevel vs).2 ≠ [] → (∀ r ∈ (ofValues topLevel vs).1, r.block? ≠ none) →
        ComponentValue.marks ((ofValues topLevel vs).1.flatMap body) < ComponentValue.marks vs) := by
  obtain ⟨body, rs, hlaid, ⟨rfl, heq⟩ | ⟨r, hstarted, rfl, heq⟩⟩ := ofValues_laid topLevel vs
  · rw [heq]
    exact ⟨hlaid.marks_le, fun h => absurd rfl h⟩
  · have hle := hlaid.marks_le
    rw [heq, List.flatMap_append, ComponentValue.marks_append, ComponentValue.marks_append]
    cases r with
    | qualified position before =>
      have hpos := hstarted.marks_pos
      simp only [OpenRule.withoutBlock?, Option.toList_none, List.flatMap_nil,
        ComponentValue.marks_nil]
      exact ⟨by omega, fun _ _ => by omega⟩
    | atRule keyword before =>
      refine ⟨?_, fun _ hblock => ?_⟩
      · simp [OpenRule.withoutBlock?, Rule.body, head, block?, OpenRule.values]
        omega
      · exact absurd rfl (hblock (.atRule { keyword, prelude := before.reverse })
          (List.mem_append_right _ (.head _)))

end Rule

/-! ## Reading a block -/

namespace Declaration

variable {ds : List Declaration}

/-- Declarations are laid out in regular values if they are made of such. The punctuation that is put
between them ends no group. -/
theorem regular_valuesAll {depth : Nat} {closer : Option TokenKind}
    (hcloser : ∀ kind ∈ closer, kind.closesGroup = true)
    (h : ∀ d ∈ ds, d.MadeOf (·.Regular depth closer)) :
    ∀ v ∈ valuesAll ds, v.Regular depth closer := by
  have hmark : ∀ t : Token, t.kind.opensGroup = false → t.kind.closesGroup = false →
      (ComponentValue.token t).Regular depth closer := by
    intro t hopens hcloses
    refine .token hopens fun heq => ?_
    rw [hcloser t.kind heq] at hcloses
    cases hcloses
  refine forall_valuesAll (fun d hd => ?_) (hmark _ rfl rfl)
  obtain ⟨hname, hvalue⟩ := h d hd
  refine forall_values hname hvalue fun t ht => hmark t ?_ ?_
  · cases hk : t.kind <;> simp_all [TokenKind.opensGroup, TokenKind.closer?, TokenKind.bracketCloser?]
  · cases hk : t.kind <;> simp_all [TokenKind.closesGroup]

/-- The tokens of well-read declarations are read as those declarations, without a diagnostic. -/
theorem readAll_tokensAll (h : ∀ d ∈ ds, d.WellRead ∧ d.MadeOf (·.Regular 0 none)) :
    readAll (tokensAll ds) = (ds, []) := by
  have hvalues := regular_valuesAll (by simp) fun d hd => (h d hd).2
  rw [readAll, ← tokensAll_valuesAll, Grouping.ofTokens_tokensAll hvalues]
  exact ofGroups_valuesAll fun d hd => (h d hd).1

end Declaration

namespace Block

variable {b : Block}

/-- A block is read as the declarations in its contents. -/
theorem readDeclarations (h : ∀ v ∈ b.contents, v.Regular 0 none) :
    Declaration.readAll b.contentTokens =
      Declaration.ofGroups (b.contents.map ComponentValue.silent) := by
  rw [Declaration.readAll, contentTokens, Grouping.ofTokens_tokensAll h]
  rfl

/-- A block is read as the rules in its contents. -/
theorem readRules (h : ∀ v ∈ b.contents, v.Regular 0 none) :
    Rule.readAll false b.contentTokens = Rule.ofValues false b.contents := by
  rw [Rule.readAll, contentTokens, ComponentValue.readAll_tokensAll h]
  rfl

/-- A block that is rebuilt from the tokens of regular values holds those values. -/
theorem contents_rebuilt {vs : List ComponentValue} (h : ∀ v ∈ vs, v.Regular 0 none) :
    (b.rebuilt (ComponentValue.tokensAll vs)).contents = vs := by
  rw [rebuilt, ComponentValue.readAll_tokensAll h]

/-- A block that is rebuilt from declarations that were read is read as those declarations. -/
theorem rebuilt_declarations {ds : List Declaration} {depth : Nat}
    (h : ∀ d ∈ ds, d.WellRead ∧ d.MadeOf (·.Regular (depth + 1) (some .rightBrace))) :
    (b.rebuilt (Declaration.tokensAll ds)).contents = Declaration.valuesAll ds ∧
      (∀ v ∈ (b.rebuilt (Declaration.tokensAll ds)).contents,
        v.Regular (depth + 1) (some .rightBrace)) ∧
      Declaration.readAll (b.rebuilt (Declaration.tokensAll ds)).contentTokens = (ds, []) := by
  have hvalues : ∀ v ∈ Declaration.valuesAll ds, v.Regular (depth + 1) (some .rightBrace) :=
    Declaration.regular_valuesAll (by simp [TokenKind.closesGroup]) fun d hd => (h d hd).2
  have hcontents : (b.rebuilt (Declaration.tokensAll ds)).contents = Declaration.valuesAll ds := by
    rw [← Declaration.tokensAll_valuesAll]
    exact contents_rebuilt fun v hv => (hvalues v hv).atTop
  refine ⟨hcontents, by rw [hcontents]; exact hvalues, ?_⟩
  rw [readDeclarations (by rw [hcontents]; exact fun v hv => (hvalues v hv).atTop), hcontents]
  exact Declaration.ofGroups_valuesAll fun d hd => (h d hd).1

/-- A block that is rebuilt from readable rules is read as those rules. -/
theorem rebuilt_rules {rs : List Rule} {depth : Nat}
    (h : ∀ r ∈ rs, r.Readable false (depth + 1) (some .rightBrace)) :
    (b.rebuilt (Rule.tokensAll rs)).contents = rs.flatMap Rule.values ∧
      (∀ v ∈ (b.rebuilt (Rule.tokensAll rs)).contents, v.Regular (depth + 1) (some .rightBrace)) ∧
      Rule.readAll false (b.rebuilt (Rule.tokensAll rs)).contentTokens = (rs, []) := by
  have hvalues : ∀ v ∈ rs.flatMap Rule.values, v.Regular (depth + 1) (some .rightBrace) := by
    intro v hv
    obtain ⟨r, hr, hv⟩ := List.mem_flatMap.1 hv
    exact (h r hr).regular v hv
  have htokens := Rule.tokensAll_flatMap_values fun r hr => (h r hr).wellRead.comments_eq
  have hcontents : (b.rebuilt (Rule.tokensAll rs)).contents = rs.flatMap Rule.values := by
    rw [← htokens]
    exact contents_rebuilt fun v hv => (hvalues v hv).atTop
  refine ⟨hcontents, by rw [hcontents]; exact hvalues, ?_⟩
  rw [readRules (by rw [hcontents]; exact fun v hv => (hvalues v hv).atTop), hcontents]
  exact (Rule.Laid.flatMap_values fun r hr => (h r hr).wellRead).ofValues

/-- What may take the place of a block in a rule inside `depth` groups. -/
structure Reduces (depth : Nat) (new b : Block) : Prop where
  opener : new.opener = b.opener
  regular : ∀ v ∈ new.contents, v.Regular (depth + 1) (some .rightBrace)
  marks : ComponentValue.marks new.contents < ComponentValue.marks b.contents

end Block

/-- What may take the place of a rule. -/
structure Rule.Reduces (topLevel : Bool) (depth : Nat) (closer : Option TokenKind) (new r : Rule) :
    Prop where
  name : new.name? = r.name?
  readable : new.Readable topLevel depth closer
  marks : ComponentValue.marks new.body < ComponentValue.marks r.body

/-! ## Blocks of declarations -/

namespace Policy

variable {p : Policy}

/-- A declaration whose values are regular has no fault if and only if it is allowed. -/
theorem keepsDeclaration_iff {d : Declaration} (h : ∀ v ∈ d.value, v.Regular 0 none) :
    p.keepsDeclaration d = true ↔ p.AllowsDeclaration d := by
  rw [keepsDeclaration, List.isEmpty_iff, declarationFaults]
  split
  · next hproperty =>
    refine ⟨nofun, fun hd => ?_⟩
    rw [hd.property] at hproperty
    cases hproperty
  · next hproperty =>
    split
    · next hblank =>
      refine ⟨nofun, fun hd => ?_⟩
      rw [hd.present] at hblank
      cases hblank
    · next hblank =>
      have hiff : (if (p.values.listFaults d.value).isEmpty then []
          else p.values.listFaults d.value ++ [⟨Diagnostic.badValueForProperty, d.position⟩]) = [] ↔
          p.values.listFaults d.value = [] := by
        cases p.values.listFaults d.value <;> simp
      rw [hiff, ValuePolicy.listFaults_eq_nil_iff_permits h]
      exact ⟨fun hs => ⟨by simpa using hproperty, by simpa using hblank, hs⟩, fun hd => hd.value⟩

/-- The log of a block of declarations is empty exactly if the block is kept. -/
theorem silent_judgeDeclarations (b : Block) :
    (p.judgeDeclarations b).errors = [] ↔ (p.judgeDeclarations b).outcome = .kept := by
  have hfaults : ∀ ds : List Declaration,
      ds.flatMap p.declarationFaults = [] ↔ ds.all p.keepsDeclaration = true := fun ds => by
    simp [keepsDeclaration]
  simp only [judgeDeclarations, List.append_eq_nil_iff, hfaults]
  split <;> simp_all

/-- A block of declarations is never removed. -/
theorem judgeDeclarations_ne_removed (b : Block) : (p.judgeDeclarations b).outcome ≠ .removed := by
  unfold judgeDeclarations
  dsimp only
  split <;> nofun

/-- The judgement on a block of declarations is fair. What takes its place holds the values of the
declarations that are kept, and is read as those. -/
theorem fair_judgeDeclarations {b : Block} {depth : Nat}
    (h : ∀ v ∈ b.contents, v.Regular (depth + 1) (some .rightBrace)) :
    (p.judgeDeclarations b).Fair p.AllowsDeclarations (Block.Reduces depth) b := by
  have hread := Block.readDeclarations (b := b) fun v hv => (h v hv).atTop
  rcases hgroups : Declaration.ofGroups (b.contents.map ComponentValue.silent) with ⟨ds, errors⟩
  rw [hgroups] at hread
  have hsound : ∀ d ∈ ds, d.WellRead ∧ d.MadeOf (·.Regular (depth + 1) (some .rightBrace)) := by
    have hvalues : ∀ g ∈ b.contents.map ComponentValue.silent,
        g.value.Regular (depth + 1) (some .rightBrace) := by
      simpa [ComponentValue.silent] using h
    have hread := Declaration.sound_ofGroups (P := (·.Regular (depth + 1) (some .rightBrace))) hvalues
    rwa [hgroups] at hread
  have hiff : ∀ d ∈ ds, p.keepsDeclaration d = true ↔ p.AllowsDeclaration d :=
    fun d hd => keepsDeclaration_iff fun v hv => ((hsound d hd).2.value v hv).atTop
  have hkept : ∀ d ∈ ds.filter p.keepsDeclaration, d ∈ ds ∧ p.AllowsDeclaration d := by
    intro d hd
    obtain ⟨hmem, hkeep⟩ := List.mem_filter.1 hd
    exact ⟨hmem, (hiff d hmem).1 hkeep⟩
  obtain ⟨hcontents, hregular, hback⟩ := Block.rebuilt_declarations (b := b)
    fun d hd => hsound d (hkept d hd).1
  have hkeeps : (errors.isEmpty && ds.all p.keepsDeclaration) = true ↔
      errors = [] ∧ ∀ d ∈ ds, p.keepsDeclaration d = true := by
    rw [Bool.and_eq_true, List.isEmpty_iff, List.all_eq_true]
  simp only [judgeDeclarations, hread]
  refine .keepOrReplace ?_ ?_ ?_ fun hcond => ⟨rfl, hregular, ?_⟩
  · rw [hkeeps, List.append_eq_nil_iff, List.flatMap_eq_nil_iff]
    simp only [keepsDeclaration, List.isEmpty_iff]
  · rw [hkeeps]
    constructor
    · rintro ⟨herrors, hallowed⟩
      simp only [hread] at herrors hallowed
      exact ⟨herrors, fun d hd => (hiff d hd).2 (hallowed d hd)⟩
    · rintro ⟨herrors, hall⟩
      refine ⟨by rw [hread]; exact herrors, ?_⟩
      rw [hread]
      exact fun d hd => (hiff d hd).1 (hall d hd)
  · refine ⟨by rw [hback], ?_⟩
    rw [hback]
    exact fun d hd => (hkept d hd).2
  · -- a declaration that is left out takes its marks with it, and so does what a fault was found in
    rw [hcontents, ComponentValue.marks, Declaration.tokensAll_valuesAll]
    refine Declaration.marks_lt_of_left_out (by rw [hgroups]; exact List.filter_sublist) ?_
    rw [hgroups]
    by_cases herrors : errors = []
    · refine .inr fun heq => Bool.eq_false_iff.1 hcond (hkeeps.2 ⟨herrors, ?_⟩)
      exact List.filter_eq_self.1 heq
    · exact .inl herrors

end Policy

/-! ## From blocks to rules -/

namespace Rule

variable {topLevel : Bool} {depth : Nat} {closer : Option TokenKind}

/-- A smaller block makes a smaller rule. -/
theorem reduces_putBlock {r : Rule} {b new : Block} (h : r.Readable topLevel depth closer)
    (hb : r.block? = some b) (hnew : new.Reduces depth b) :
    (r.putBlock new).Reduces topLevel depth closer r := by
  obtain ⟨hbraces, hdepth, -⟩ := h.block hb
  have hkind : new.opener.kind = .leftBrace := by
    rw [hnew.opener]; simpa [Block.isBraces] using hbraces
  have hnewBraces : new.isBraces = true := by simp [Block.isBraces, hkind]
  have hhead : (r.putBlock new).head = r.head := by cases r <;> rfl
  have hending : (r.putBlock new).ending = new.value := by cases r <;> rfl
  have hwell : (r.putBlock new).WellRead topLevel := by
    have hw := h.wellRead
    cases r with
    | atRule r =>
      obtain ⟨hcomments, hkeyword, hprelude, -⟩ := (hw : r.WellRead)
      refine AtRule.WellRead.mk hcomments hkeyword hprelude ?_
      rintro _ ⟨⟩
      exact hnewBraces
    | qualified r =>
      obtain rfl : r.block = b := by simpa [block?] using hb
      obtain ⟨hcomments, hprelude, -, hposition, hstart⟩ := (hw : r.WellRead topLevel)
      refine QualifiedRule.WellRead.mk hcomments hprelude hnewBraces ?_ hstart
      have hvalue : new.value.position = r.block.value.position := by
        simp only [Block.value, ComponentValue.position, hnew.opener]
      cases hp : r.prelude <;> simp_all [ComponentValue.positionOf]
  have hreadable : (r.putBlock new).Readable topLevel depth closer := by
    refine ⟨hwell, fun v hv => ?_⟩
    rw [values, hhead, hending] at hv
    rcases List.mem_append.1 hv with hv | hv
    · exact h.regular v (List.mem_append_left _ hv)
    · obtain rfl := List.mem_singleton.1 hv
      exact .block (by rw [hkind]; rfl) hdepth hnew.regular
  refine ⟨by cases r <;> rfl, hreadable, ?_⟩
  have hmarks : ∀ b : Block, Token.marks b.value.tokens =
      Token.marks [b.opener] + ComponentValue.marks b.contents +
        Token.marks [ComponentValue.blockEnd b.opener] := fun b => by
    simp only [Block.value, ComponentValue.tokens, ComponentValue.marks, Token.marks_cons,
      Token.marks_append, Token.marks_nil]
    omega
  have hlt := hnew.marks
  have hnewBlock : (r.putBlock new).block? = some new := by cases r <;> rfl
  simp only [body, hhead, hb, hnewBlock, Option.toList_some, List.map_cons, List.map_nil,
    ComponentValue.marks_append, ComponentValue.marks_cons, hmarks, hnew.opener]
  omega

end Rule

end StyleGate
