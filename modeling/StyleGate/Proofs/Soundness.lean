import StyleGate.Proofs.Sifting

/-!
# The gate leaves what the policy allows, and says so

The sanitizers of a policy are fair (`Policy.fair_sanitizersOf`), by induction on how deep groups of
rules may lie in each other. Two statements about a whole stylesheet follow. What is left of it
satisfies the policy (`Policy.allowsSheet_of_survivor`), whether it was kept or rebuilt. And the log is
empty exactly if the stylesheet is kept, while a replacement differs from it
(`Session.pass_log_eq_nil_iff`).
-/

namespace StyleGate

open Text

namespace Policy

variable {p : Policy} {topLevel : Bool} {depth : Nat} {closer : Option TokenKind}

/-! ## From blocks to rules -/

/-- A judgement on a block that reports exactly what it does not keep makes such a judgement on the
rule. -/
theorem silent_judgeBlock {α : Type} {replace : Block → Except NodeError α} {j : Judgement Block}
    (hsilent : j.errors = [] ↔ j.outcome = .kept) (hremoved : j.outcome ≠ .removed) :
    (judgeBlock replace j).errors = [] ↔ (judgeBlock replace j).outcome = .kept := by
  unfold judgeBlock
  cases houtcome : j.outcome with
  | removed => exact absurd houtcome hremoved
  | kept => simpa [houtcome] using hsilent
  | replaced new =>
    rw [houtcome] at hsilent
    dsimp only
    split <;> exact ⟨fun h => (nomatch hsilent.1 h), nofun⟩

/-- A fair judgement on the block of a readable rule makes a fair judgement on the rule. -/
theorem fair_judgeBlock {A : Block → Prop} {B : Rule → Prop} {r : Rule} {b : Block}
    {replace : Block → Except NodeError Rule} {j : Judgement Block}
    (hr : r.Readable topLevel depth closer) (hb : r.block? = some b)
    (hj : j.Fair A (Block.Reduces depth) b) (hremoved : j.outcome ≠ .removed)
    (hreplace : ∀ new : Block, new.isBraces = true → replace new = .ok (r.putBlock new))
    (hallowed : B r ↔ A b) (hput : ∀ new, A new → B (r.putBlock new)) :
    (judgeBlock replace j).Fair B (Rule.Reduces topLevel depth closer) r := by
  have hnew : ∀ new, j.outcome = .replaced new → replace new = .ok (r.putBlock new) := by
    intro new houtcome
    refine hreplace new ?_
    rw [Block.isBraces, (hj.reduces new houtcome).opener]
    exact (hr.block hb).1
  refine ⟨silent_judgeBlock hj.silent hremoved, ?_, ?_, ?_⟩
  · intro h
    simp [judgeBlock, hj.keeps (hallowed.1 h)]
  · intro node hnode
    cases houtcome : j.outcome with
    | removed => exact absurd houtcome hremoved
    | kept =>
      simp only [judgeBlock, houtcome, Outcome.survivor, Option.some.injEq] at hnode
      subst hnode
      exact hallowed.2 (hj.leaves b (by rw [houtcome]; rfl))
    | replaced new =>
      simp only [judgeBlock, houtcome, hnew new houtcome, Outcome.survivor, Option.some.injEq] at hnode
      subst hnode
      exact hput new (hj.leaves new (by rw [houtcome]; rfl))
  · intro node hnode
    cases houtcome : j.outcome with
    | removed => exact absurd houtcome hremoved
    | kept => simp [judgeBlock, houtcome] at hnode
    | replaced new =>
      simp only [judgeBlock, houtcome, hnew new houtcome, Outcome.replaced.injEq] at hnode
      subst hnode
      exact Rule.reduces_putBlock hr hb (hj.reduces new houtcome)

/-! ## Style rules -/

/-- The style rules that have a property. -/
def OfStyleRule (P : QualifiedRule → Prop) : Rule → Prop
  | .qualified r => P r
  | .atRule _ => False

/-- The at-rules that have a property. -/
def OfAtRule (P : AtRule → Prop) : Rule → Prop
  | .atRule r => P r
  | .qualified _ => False

/-- A selector has no fault if it is there and permitted. -/
theorem selectorFaults_eq_nil_iff {r : QualifiedRule} (h : ∀ v ∈ r.prelude, v.Regular 0 none) :
    p.selectorFaults r = [] ↔ ComponentValue.allWhitespace r.prelude = false ∧
      ∀ v ∈ r.prelude, p.selectorValues.Permits v := by
  rw [← ValuePolicy.listFaults_eq_nil_iff_permits h, selectorFaults]
  cases ComponentValue.allWhitespace r.prelude <;>
    cases p.selectorValues.listFaults r.prelude <;> simp

/-- The log of a style rule is empty exactly if the rule is kept. -/
theorem silent_judgeStyleRule (r : QualifiedRule) :
    (p.judgeStyleRule r).errors = [] ↔ (p.judgeStyleRule r).outcome = .kept := by
  unfold judgeStyleRule
  dsimp only
  split
  · next h => simpa using h
  · exact silent_judgeBlock (silent_judgeDeclarations r.block) (judgeDeclarations_ne_removed r.block)

/-- The judgement on a style rule is fair. -/
theorem fair_judgeStyleRule {r : QualifiedRule}
    (h : (Rule.qualified r).Readable topLevel depth closer) :
    (p.judgeStyleRule r).Fair (OfStyleRule p.AllowsStyleRule)
      (Rule.Reduces topLevel depth closer) (.qualified r) := by
  have hselector := selectorFaults_eq_nil_iff (p := p) (r := r) fun v hv => (h.prelude v hv).atTop
  unfold judgeStyleRule
  dsimp only
  split
  · next hfaults =>
    have hfaults : p.selectorFaults r ≠ [] := by simpa using hfaults
    exact .remove hfaults fun hallowed => hfaults (hselector.2 ⟨hallowed.present, hallowed.selector⟩)
  · next hfaults =>
    have hfaults : p.selectorFaults r = [] := by simpa using hfaults
    obtain ⟨hpresent, hpermits⟩ := hselector.1 hfaults
    refine fair_judgeBlock h rfl (fair_judgeDeclarations (h.block rfl).2.2)
      (judgeDeclarations_ne_removed r.block) ?_ ?_ ?_
    · intro new hnew
      simp [QualifiedRule.withBlock, hnew, Except.map, Rule.putBlock]
    · exact ⟨fun hallowed => hallowed.block, fun hblock => ⟨hpresent, hpermits, hblock⟩⟩
    · exact fun new hblock => ⟨hpresent, hpermits, hblock⟩

/-! ## Blocks of rules -/

/-- A block that is read as rules of which a property holds, without a diagnostic. -/
def ReadsAs (nested : List Rule → Prop) (b : Block) : Prop :=
  (Rule.readAll false b.contentTokens).2 = [] ∧ nested (Rule.readAll false b.contentTokens).1

/-- A block of rules is never removed. -/
theorem judgeRuleBlock_ne_removed (nested : List RuleSanitizer) (b : Block) :
    (judgeRuleBlock nested b).outcome ≠ .removed := by
  unfold judgeRuleBlock
  dsimp only
  split <;> nofun

/-- The log of a block of rules is empty exactly if the block is kept. -/
theorem silent_judgeRuleBlock {Allowed : Rule → Prop} {nested : List RuleSanitizer}
    (hfair : RuleSanitizer.Fair Allowed false 0 none nested) (b : Block) :
    (judgeRuleBlock nested b).errors = [] ↔ (judgeRuleBlock nested b).outcome = .kept := by
  have hreadable := Rule.readable_readAll false b.contentTokens
  rcases hread : Rule.readAll false b.contentTokens with ⟨rules, errors⟩
  rw [hread] at hreadable
  have hagrees := (RuleSanitizer.sifted_sanitizeRules hfair hreadable).agreesAll_iff
  simp only [judgeRuleBlock, hread, List.append_eq_nil_iff]
  rw [← hagrees]
  split <;> simp_all

/-- The judgement on a block of rules is fair if its sanitizers are, provided that all rules they
allow have blocks. -/
theorem fair_judgeRuleBlock {Allowed : Rule → Prop} {nested : List RuleSanitizer}
    (hfair : RuleSanitizer.Fair Allowed false (depth + 1) (some .rightBrace) nested)
    (hblock : ∀ r, Allowed r → r.block? ≠ none) {b : Block}
    (hcontents : ∀ v ∈ b.contents, v.Regular (depth + 1) (some .rightBrace)) :
    (judgeRuleBlock nested b).Fair
      (ReadsAs fun rules => (∀ r ∈ rules, Allowed r) ∧ rules.Pairwise fun r s =>
        RuleIndex.MayPrecede (RuleSanitizer.indexOf? nested r) (RuleSanitizer.indexOf? nested s))
      (Block.Reduces depth) b := by
  have hvalues := Block.readRules (b := b) fun v hv => (hcontents v hv).atTop
  have hreadable : ∀ r ∈ (Rule.ofValues false b.contents).1,
      r.Readable false (depth + 1) (some .rightBrace) := Rule.readable_ofValues nofun hcontents
  have hmarks := Rule.marks_ofValues false b.contents
  rcases hread : Rule.ofValues false b.contents with ⟨rules, errors⟩
  rw [hread] at hvalues hreadable hmarks
  have hsifted := RuleSanitizer.sifted_sanitizeRules hfair hreadable
  rcases hleft : sanitizeRules nested rules with ⟨left, more⟩
  rw [hleft] at hsifted
  have hagrees := hsifted.agreesAll_iff
  obtain ⟨hnewContents, hregular, hback⟩ := Block.rebuilt_rules (b := b) hsifted.readable
  have hkeeps : (errors.isEmpty && Rule.agreesAll left rules) = true ↔ errors = [] ∧ more = [] := by
    rw [Bool.and_eq_true, List.isEmpty_iff, hagrees]
  simp only [judgeRuleBlock, hvalues, hleft]
  refine .keepOrReplace ?_ ?_ ?_ fun hcond => ⟨rfl, hregular, ?_⟩
  · rw [hkeeps, List.append_eq_nil_iff]
  · rw [hkeeps]
    constructor
    · rintro ⟨herrors, hallowed, hordered⟩
      simp only [hvalues] at herrors hallowed hordered
      exact ⟨herrors, hsifted.errors_eq_nil hallowed hordered⟩
    · rintro ⟨herrors, hmore⟩
      have hsame := hsifted.silent hmore
      refine ⟨by rw [hvalues]; exact herrors, ?_⟩
      rw [hvalues]
      exact hsame ▸ ⟨hsifted.allowed, hsifted.ordered⟩
  · refine ⟨by rw [hback], ?_⟩
    rw [hback]
    exact ⟨hsifted.allowed, hsifted.ordered⟩
  · rw [hnewContents, Rule.flatMap_values_of_blocks fun r hr => hblock r (hsifted.allowed r hr)]
    by_cases hmore : more = []
    · have herrors : errors ≠ [] := fun herrors =>
        Bool.eq_false_iff.1 hcond (hkeeps.2 ⟨herrors, hmore⟩)
      have hsame := hsifted.silent hmore
      rw [hsame]
      exact hmarks.2 herrors fun r hr => hblock r (hsifted.allowed r (by rw [hsame]; exact hr))
    · exact Nat.lt_of_lt_of_le (hsifted.costs hmore) hmarks.1

/-! ## At-rules -/

/-- The prelude of an at-rule has no fault if it is permitted. -/
theorem preludeFaults_eq_nil_iff {r : AtRule} (h : ∀ v ∈ r.prelude, v.Regular 0 none) :
    p.preludeFaults r = [] ↔ ∀ v ∈ r.prelude, p.values.Permits v := by
  rw [← ValuePolicy.listFaults_eq_nil_iff_permits h, preludeFaults]
  cases p.values.listFaults r.prelude <;> simp

/-- What is allowed of a block agrees with what its entry asks for. -/
theorem shapeFaults_eq_nil {nested : List Rule → Prop} {shape : BlockShape} {r : AtRule}
    (h : p.AllowsBlock nested shape r.block) : shapeFaults shape r = [] := by
  cases shape <;> cases hb : r.block <;> simp_all [AllowsBlock, shapeFaults]

/-- An at-rule has no fault in front of its block if its shape and its prelude have none. -/
theorem headFaults_eq_nil_iff {shape : BlockShape} {r : AtRule} :
    p.headFaults shape r = [] ↔ shapeFaults shape r = [] ∧ p.preludeFaults r = [] := by
  unfold headFaults
  cases shapeFaults shape r <;> simp

/-- The log of an at-rule is empty exactly if the rule is kept. -/
theorem silent_judgeAtRule {Allowed : Rule → Prop} {nested : List RuleSanitizer}
    (hfair : RuleSanitizer.Fair Allowed false 0 none nested) (shape : BlockShape) (r : AtRule) :
    (p.judgeAtRule nested shape r).errors = [] ↔ (p.judgeAtRule nested shape r).outcome = .kept := by
  unfold judgeAtRule
  dsimp only
  split
  · next hfaults => simpa using hfaults
  · cases r.block with
    | none => simp [Judgement.keep]
    | some b =>
      cases shape with
      | none => simp [judgeAtRuleBlock, judgeBlock, Judgement.keep]
      | rules => exact silent_judgeBlock (silent_judgeRuleBlock hfair b) (judgeRuleBlock_ne_removed nested b)
      | declarations | optional =>
        exact silent_judgeBlock (silent_judgeDeclarations b) (judgeDeclarations_ne_removed b)

section BlockOf

variable {allowed : List Rule → Prop} {entry : AtRulePolicy} {A : Block → Prop} {r : AtRule} {b : Block}

/-- What an entry allows of an at-rule with a permitted prelude is what it allows of its block. -/
theorem ofAtRule_allowsUnder_iff (hA : ∀ b, p.AllowsBlock allowed entry.block (some b) ↔ A b)
    (hpermits : ∀ v ∈ r.prelude, p.values.Permits v) (hb : r.block = some b) :
    OfAtRule (p.AllowsUnder allowed entry) (.atRule r) ↔ A b := by
  rw [← hA b, ← hb]
  exact ⟨fun hallowed => hallowed.block, fun hblock => ⟨hpermits, hblock⟩⟩

/-- An at-rule with a permitted prelude is allowed with any block that is. -/
theorem ofAtRule_putBlock (hA : ∀ b, p.AllowsBlock allowed entry.block (some b) ↔ A b)
    (hpermits : ∀ v ∈ r.prelude, p.values.Permits v) (hb : A b) :
    OfAtRule (p.AllowsUnder allowed entry) ((Rule.atRule r).putBlock b) :=
  ⟨hpermits, (hA b).2 hb⟩

end BlockOf

/-- The judgement on an at-rule is fair if it is fair to blocks of rules. -/
theorem fair_judgeAtRule {allowed : List Rule → Prop} {nested : List RuleSanitizer}
    (hnested : ∀ b : Block, (∀ v ∈ b.contents, v.Regular (depth + 1) (some .rightBrace)) →
      (judgeRuleBlock nested b).Fair (ReadsAs allowed) (Block.Reduces depth) b)
    {entry : AtRulePolicy} {r : AtRule} (h : (Rule.atRule r).Readable topLevel depth closer) :
    (p.judgeAtRule nested entry.block r).Fair (OfAtRule (p.AllowsUnder allowed entry))
      (Rule.Reduces topLevel depth closer) (.atRule r) := by
  have hprelude := preludeFaults_eq_nil_iff (p := p) (r := r) fun v hv => (h.prelude v hv).atTop
  unfold judgeAtRule
  dsimp only
  split
  · next hfaults =>
    have hfaults : p.headFaults entry.block r ≠ [] := by simpa using hfaults
    refine .remove hfaults fun hallowed => hfaults ?_
    exact headFaults_eq_nil_iff.2 ⟨shapeFaults_eq_nil hallowed.block, hprelude.2 hallowed.prelude⟩
  · next hfaults =>
    have hfaults : p.headFaults entry.block r = [] := by simpa using hfaults
    obtain ⟨hshape, hfaults⟩ := headFaults_eq_nil_iff.1 hfaults
    have hpermits := hprelude.1 hfaults
    have hreplace : ∀ new : Block, new.isBraces = true →
        (r.withBlock (some new)).map Rule.atRule = .ok ((Rule.atRule r).putBlock new) := by
      intro new hnew
      simp [AtRule.withBlock, hnew, Except.map, Rule.putBlock]
    split
    · next hnone =>
      refine .keep ⟨hpermits, ?_⟩
      rw [hnone]
      cases hentry : entry.block <;> simp_all [shapeFaults, AllowsBlock]
    · next b hsome =>
      have hcontents := (h.block (b := b) hsome).2.2
      cases hentry : entry.block with
      | none => simp [shapeFaults, hentry, hsome] at hshape
      | rules =>
        have hA : ∀ b, p.AllowsBlock allowed entry.block (some b) ↔ ReadsAs allowed b := fun b => by
          rw [hentry]
          rfl
        exact fair_judgeBlock h hsome (hnested b hcontents) (judgeRuleBlock_ne_removed nested b)
          hreplace (ofAtRule_allowsUnder_iff hA hpermits hsome)
          fun new => ofAtRule_putBlock hA hpermits
      | declarations | optional =>
        have hA : ∀ b, p.AllowsBlock allowed entry.block (some b) ↔ p.AllowsDeclarations b := fun b => by
          rw [hentry]
          rfl
        exact fair_judgeBlock h hsome (fair_judgeDeclarations hcontents)
          (judgeDeclarations_ne_removed b) hreplace (ofAtRule_allowsUnder_iff hA hpermits hsome)
          fun new => ofAtRule_putBlock hA hpermits

/-! ## All sanitizers of a list of rules -/

/-- The sanitizers of a list of rules: one for each entry, then style rules. -/
def sanitizersOf (p : Policy) (levels : Nat) (entries : List AtRulePolicy) : List RuleSanitizer :=
  entries.map (p.atRuleSanitizerAt levels) ++ p.styleSanitizers

/-- The sanitizer of an entry handles the at-rules of its name. -/
theorem handles_atRuleSanitizerAt (levels : Nat) (entry : AtRulePolicy) (r : Rule) :
    (p.atRuleSanitizerAt levels entry).handles r = r.name?.any entry.isNamed := by
  cases levels <;> rw [atRuleSanitizerAt]

/-- An at-rule goes to the sanitizer of the first entry for its name. -/
theorem find?_sanitizersOf_atRule (levels : Nat) (entries : List AtRulePolicy) (r : AtRule) :
    (p.sanitizersOf levels entries).find? (·.handles (.atRule r)) =
      (entries.find? (·.isNamed r.name)).map (p.atRuleSanitizerAt levels) := by
  have hstyle : p.styleSanitizers.find? (·.handles (.atRule r)) = none := by
    unfold styleSanitizers
    split <;> simp [styleSanitizer]
  rw [sanitizersOf, List.find?_append, hstyle, Option.or_none, List.find?_map]
  simp [Function.comp_def, handles_atRuleSanitizerAt, Rule.name?]

/-- A style rule goes to the sanitizer of style rules, if there is one. -/
theorem find?_sanitizersOf_qualified (levels : Nat) (entries : List AtRulePolicy)
    (r : QualifiedRule) :
    (p.sanitizersOf levels entries).find? (·.handles (.qualified r)) =
      if p.styleRules.enabled then some p.styleSanitizer else none := by
  have hentries : (entries.map (p.atRuleSanitizerAt levels)).find? (·.handles (.qualified r)) =
      none := by
    simp [handles_atRuleSanitizerAt, Rule.name?]
  rw [sanitizersOf, List.find?_append, hentries, Option.none_or, styleSanitizers]
  split <;> simp [styleSanitizer]

/-- The sanitizers give a rule the place that the policy gives it. -/
theorem indexOf?_sanitizersOf (levels : Nat) (entries : List AtRulePolicy) (r : Rule) :
    RuleSanitizer.indexOf? (p.sanitizersOf levels entries) r = p.indexOf? entries r := by
  cases r with
  | atRule r =>
    have hindex : ∀ entry, (p.atRuleSanitizerAt levels entry).index = entry.index := by
      intro entry
      cases levels <;> rw [atRuleSanitizerAt]
    rw [RuleSanitizer.indexOf?, find?_sanitizersOf_atRule, indexOf?, Option.map_map]
    simp only [Function.comp_def, hindex]
  | qualified r =>
    rw [RuleSanitizer.indexOf?, find?_sanitizersOf_qualified, indexOf?]
    split <;> rfl

/-- Which sanitizer a rule goes to depends on its name only. -/
theorem find?_sanitizersOf_congr (levels : Nat) (entries : List AtRulePolicy) {r r' : Rule}
    (hname : r.name? = r'.name?) :
    (p.sanitizersOf levels entries).find? (·.handles r) =
      (p.sanitizersOf levels entries).find? (·.handles r') := by
  cases r with
  | atRule r =>
    cases r' with
    | atRule r' => rw [find?_sanitizersOf_atRule, find?_sanitizersOf_atRule, Option.some.inj hname]
    | qualified r' => cases hname
  | qualified r =>
    cases r' with
    | atRule r' => cases hname
    | qualified r' => rw [find?_sanitizersOf_qualified, find?_sanitizersOf_qualified]

/-- An allowed rule goes to some sanitizer. -/
theorem find?_sanitizersOf_ne_none (levels : Nat) {entries : List AtRulePolicy}
    {inner : AtRulePolicy → AtRule → Prop} {r : Rule} (h : p.AllowsRule entries inner r) :
    (p.sanitizersOf levels entries).find? (·.handles r) ≠ none := by
  cases r with
  | atRule r =>
    obtain ⟨entry, hentry, -⟩ := h
    rw [find?_sanitizersOf_atRule, hentry]
    nofun
  | qualified r =>
    rw [find?_sanitizersOf_qualified, if_pos h.1]
    nofun

/-- Sanitizers are fair to a list of rules if those of at-rules are fair to each at-rule. -/
theorem fair_sanitizersOf {levels : Nat} {entries : List AtRulePolicy}
    {inner : AtRulePolicy → AtRule → Prop}
    (h : ∀ entry ∈ entries, ∀ r, (Rule.atRule r).Readable topLevel depth closer →
      ((p.atRuleSanitizerAt levels entry).judge (.atRule r)).Fair (OfAtRule (inner entry))
        (Rule.Reduces topLevel depth closer) (.atRule r)) :
    RuleSanitizer.Fair (p.AllowsRule entries inner) topLevel depth closer
      (p.sanitizersOf levels entries) := by
  refine ⟨?_, fun r r' => find?_sanitizersOf_congr levels entries,
    fun r => find?_sanitizersOf_ne_none levels⟩
  intro r s hr hfind
  cases r with
  | atRule r =>
    rw [find?_sanitizersOf_atRule] at hfind
    obtain ⟨entry, hentry, rfl⟩ := Option.map_eq_some_iff.1 hfind
    have hfair := h entry (List.mem_of_find?_eq_some hentry) r hr
    refine hfair.imp ?_ fun new hrelated hnew => ?_
    · rintro ⟨other, hother, hallowed⟩
      obtain rfl := Option.some.inj (hentry.symm.trans hother)
      exact hallowed
    · -- what is left of the rule has its name, so the same entry speaks of it
      cases new with
      | qualified new => exact hnew.elim
      | atRule new =>
        have hname : (Rule.atRule new).name? = (Rule.atRule r).name? := by
          rcases hrelated with hsame | hreduces
          · rw [hsame]
          · exact hreduces.name
        exact ⟨entry, by rw [Option.some.inj hname]; exact hentry, hnew⟩
  | qualified r =>
    rw [find?_sanitizersOf_qualified] at hfind
    split at hfind
    · next henabled =>
      obtain rfl := Option.some.inj hfind
      refine (fair_judgeStyleRule hr).imp And.right fun new _ hnew => ?_
      cases new with
      | atRule new => exact hnew.elim
      | qualified new => exact ⟨henabled, hnew⟩
    · cases hfind

/-- Allowed rules in order, with the places that the sanitizers give them. -/
theorem allowsRules_iff (p : Policy) (levels : Nat) (entries : List AtRulePolicy)
    (inner : AtRulePolicy → AtRule → Prop) (rules : List Rule) :
    p.AllowsRules entries inner rules ↔ (∀ r ∈ rules, p.AllowsRule entries inner r) ∧
      rules.Pairwise fun r s => RuleIndex.MayPrecede
        (RuleSanitizer.indexOf? (p.sanitizersOf levels entries) r)
        (RuleSanitizer.indexOf? (p.sanitizersOf levels entries) s) := by
  simp only [indexOf?_sanitizersOf]
  exact ⟨fun h => ⟨h.allowed, h.ordered⟩, fun h => ⟨h.1, h.2⟩⟩

/-- The judgement on a block of rules is fair where all entries ask for blocks. -/
theorem fair_judgeRuleBlock_sanitizersOf {levels : Nat} {entries : List AtRulePolicy}
    {inner : AtRulePolicy → AtRule → Prop}
    (h : ∀ entry ∈ entries, ∀ r, (Rule.atRule r).Readable false (depth + 1) (some .rightBrace) →
      ((p.atRuleSanitizerAt levels entry).judge (.atRule r)).Fair (OfAtRule (inner entry))
        (Rule.Reduces false (depth + 1) (some .rightBrace)) (.atRule r))
    (hblock : ∀ entry ∈ entries, ∀ r, inner entry r → r.block ≠ none) (b : Block)
    (hcontents : ∀ v ∈ b.contents, v.Regular (depth + 1) (some .rightBrace)) :
    (judgeRuleBlock (p.sanitizersOf levels entries) b).Fair (ReadsAs (p.AllowsRules entries inner))
      (Block.Reduces depth) b := by
  have hblocks : ∀ r, p.AllowsRule entries inner r → r.block? ≠ none := by
    intro r hr
    cases r with
    | qualified r => nofun
    | atRule r =>
      obtain ⟨entry, hentry, hinner⟩ := hr
      exact hblock entry (List.mem_of_find?_eq_some hentry) r hinner
  have hfair := fair_judgeRuleBlock (fair_sanitizersOf h) hblocks hcontents
  have hsame := funext fun rules => propext (p.allowsRules_iff levels entries inner rules)
  rwa [← hsame] at hfair

/-- An entry for groups of rules asks for a block. -/
theorem block_ne_none_of_allowsAtRule {levels : Nat} {entry : AtRulePolicy}
    (hentry : entry ∈ p.groupRules) {r : AtRule} (h : p.AllowsAtRule levels entry r) :
    r.block ≠ none := by
  have hshape : entry.block = .rules := by simpa [groupRules] using (List.mem_filter.1 hentry).2
  intro hnone
  cases levels with
  | zero =>
    have hblock := h.block
    rw [hshape, hnone] at hblock
    exact hblock
  | succ below =>
    have hblock := h.block
    rw [hshape, hnone] at hblock
    exact hblock

/-- At the last level, an at-rule is judged with no at-rules allowed in its block. -/
theorem judge_atRuleSanitizerAt_zero (entry : AtRulePolicy) (r : AtRule) :
    (p.atRuleSanitizerAt 0 entry).judge (.atRule r) =
      p.judgeAtRule (p.sanitizersOf 0 []) entry.block r := by
  rw [atRuleSanitizerAt]
  rfl

/-- At any other level, the rules in its block are judged as on the level below, groups of rules
included. -/
theorem judge_atRuleSanitizerAt_succ (below : Nat) (entry : AtRulePolicy) (r : AtRule) :
    (p.atRuleSanitizerAt (below + 1) entry).judge (.atRule r) =
      p.judgeAtRule (p.sanitizersOf below p.groupRules) entry.block r := by
  rw [atRuleSanitizerAt]
  rfl

/-- The judgement on an at-rule is fair, however deep groups of rules lie in each other. -/
theorem fair_judge_atRuleSanitizerAt (levels : Nat) (entry : AtRulePolicy) {r : AtRule}
    (h : (Rule.atRule r).Readable topLevel depth closer) :
    ((p.atRuleSanitizerAt levels entry).judge (.atRule r)).Fair
      (OfAtRule (p.AllowsAtRule levels entry)) (Rule.Reduces topLevel depth closer) (.atRule r) := by
  induction levels generalizing topLevel depth closer entry r with
  | zero =>
    rw [judge_atRuleSanitizerAt_zero]
    exact fair_judgeAtRule (fair_judgeRuleBlock_sanitizersOf (by simp) (by simp)) h
  | succ below ih =>
    rw [judge_atRuleSanitizerAt_succ]
    exact fair_judgeAtRule (fair_judgeRuleBlock_sanitizersOf
      (fun entry _ _ hr => ih entry hr)
      (fun _ hentry _ hinner => block_ne_none_of_allowsAtRule hentry hinner)) h

/-- The sanitizers of a list of rules are fair. -/
theorem fair_atRules (levels : Nat) (entries : List AtRulePolicy) :
    RuleSanitizer.Fair (p.AllowsRule entries (p.AllowsAtRule levels)) topLevel depth closer
      (p.sanitizersOf levels entries) :=
  fair_sanitizersOf fun entry _ _ hr => fair_judge_atRuleSanitizerAt levels entry hr

/-- The log of an at-rule's sanitizer is empty exactly if the rule is kept. -/
theorem silent_atRuleSanitizerAt (levels : Nat) (entry : AtRulePolicy) (r : AtRule) :
    ((p.atRuleSanitizerAt levels entry).judge (.atRule r)).errors = [] ↔
      ((p.atRuleSanitizerAt levels entry).judge (.atRule r)).outcome = .kept := by
  cases levels with
  | zero =>
    rw [judge_atRuleSanitizerAt_zero]
    have hfair : RuleSanitizer.Fair (p.AllowsRule [] fun _ _ => False) false 0 none
        (p.sanitizersOf 0 []) := fair_sanitizersOf (by simp)
    exact silent_judgeAtRule hfair entry.block r
  | succ below =>
    rw [judge_atRuleSanitizerAt_succ]
    exact silent_judgeAtRule (fair_atRules below p.groupRules) entry.block r

/-! ## Whole stylesheets -/

/-- A stylesheet is sifted. -/
theorem sifted_stylesheet (p : Policy) (ts : List Token) :
    RuleSanitizer.Sifted (p.AllowsRule p.atRules (p.AllowsAtRule maxGroupRuleDepth)) true 0 none
      p.sanitizers Int32.minValue (Rule.readAll true ts).1
      (sanitizeRules p.sanitizers (Rule.readAll true ts).1).1
      (sanitizeRules p.sanitizers (Rule.readAll true ts).1).2 :=
  RuleSanitizer.sifted_sanitizeRules (fair_atRules maxGroupRuleDepth p.atRules)
    (Rule.readable_readAll true ts)

/-- **What the gate leaves satisfies the policy.** Whatever rules are read from tokens, the gate gives
a stylesheet back, and each of its rules is allowed, down to the declarations and values in all
blocks, whether it is the one that was read or was rebuilt. -/
theorem allowsSheet_of_survivor (p : Policy) (ts : List Token) :
    ∃ left, (p.judgeStylesheet (Rule.readAll true ts).1).outcome.survivor (Rule.readAll true ts).1 =
      some left ∧ p.AllowsSheet left := by
  have h := p.sifted_stylesheet ts
  have hsheet : p.AllowsSheet (sanitizeRules p.sanitizers (Rule.readAll true ts).1).1 :=
    (p.allowsRules_iff maxGroupRuleDepth p.atRules _ _).2 ⟨h.allowed, h.ordered⟩
  refine ⟨_, ?_, hsheet⟩
  simp only [judgeStylesheet]
  split
  · next hagrees => rw [Outcome.survivor, h.silent (h.agreesAll_iff.1 hagrees)]
  · rfl

end Policy

/-- **Nothing is changed silently, and nothing is reported without a change.** A fresh session logs
something exactly if it does not keep the stylesheet, and then it puts another one in its place. A
sanitizer reports something about a rule that it handles exactly if it does not keep the rule. -/
theorem Session.pass_log_eq_nil_iff (p : Policy) (ts : List Token) :
    ((Session.pass { policy := p } (Rule.readAll true ts).1).2.log = [] ↔
      (Session.pass { policy := p } (Rule.readAll true ts).1).1 = .kept) ∧
    (∀ new, (Session.pass { policy := p } (Rule.readAll true ts).1).1 = .replaced new →
      Rule.agreesAll new (Rule.readAll true ts).1 = false) ∧
    (∀ entry r, (p.atRuleSanitizer entry).handles r = true →
      (((p.atRuleSanitizer entry).judge r).errors = [] ↔
        ((p.atRuleSanitizer entry).judge r).outcome = .kept)) ∧
    (∀ r, p.styleSanitizer.handles r = true →
      ((p.styleSanitizer.judge r).errors = [] ↔ (p.styleSanitizer.judge r).outcome = .kept)) := by
  have hagrees := (p.sifted_stylesheet ts).agreesAll_iff
  refine ⟨?_, ?_, ?_, ?_⟩
  · simp only [pass, Policy.judgeStylesheet, List.nil_append, ← hagrees]
    split <;> simp_all
  · intro new hnew
    simp only [pass, Policy.judgeStylesheet] at hnew
    split at hnew
    · cases hnew
    · next h =>
      obtain rfl := by simpa only [Outcome.replaced.injEq] using hnew
      exact Bool.eq_false_iff.2 h
  · intro entry r hr
    cases r with
    | atRule r => exact Policy.silent_atRuleSanitizerAt maxGroupRuleDepth entry r
    | qualified r =>
      rw [Policy.atRuleSanitizer, Policy.handles_atRuleSanitizerAt] at hr
      cases hr
  · intro r hr
    cases r with
    | atRule r => cases hr
    | qualified r => exact Policy.silent_judgeStyleRule r

end StyleGate
