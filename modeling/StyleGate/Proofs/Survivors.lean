import StyleGate.Proofs.Crew
import StyleGate.Proofs.Loosening

/-!
# The survivors of a block are what it is read as

A sanitizer that keeps a rule gives it back with its block or with a block that was rebuilt from the
tokens of what survived in it. Either way the block of the returned rule is read as the survivors
and as nothing else, without a diagnostic (`Policy.reread_survivor`): as the declarations that are
kept, or as the rules that the sanitizers of the group leave.

Which survivors there are is known from what is left of a block (`Policy.LeavesBlock`). That nothing
is reported when they are read is known from what may be left of a rule at all
(`Policy.fair_judge_atRuleSanitizerAt`).
-/

namespace StyleGate

namespace Policy

variable {p : Policy} {nested : List RuleSanitizer} {b new : Block}

/-- The declarations that are left of a list are those that are kept, in order. -/
theorem sanitizeList_judgeDeclaration (p : Policy) (ds : List Declaration) :
    sanitizeList p.judgeDeclaration ds =
      (ds.filter p.keepsDeclaration, ds.flatMap p.declarationFaults) :=
  sanitizeList_ofFaults p.declarationFaults ds

/-! ## Blocks that hold survivors -/

/-- A block that is read, without a diagnostic, as the declarations of another block that are left
when each of them is judged. They are found there in the same order. -/
structure HoldsDeclarations (p : Policy) (b new : Block) : Prop where
  read : Declaration.readAll new.contentTokens =
    ((sanitizeList p.judgeDeclaration b.declarations).1, [])
  sublist : (sanitizeList p.judgeDeclaration b.declarations).1.Sublist b.declarations

/-- A block that is read, without a diagnostic, as what is left of another block of a shape, where
`nested` judges the rules in it. -/
def HoldsSurvivors (p : Policy) (nested : List RuleSanitizer) : BlockShape → Block → Block → Prop
  | .rules, b, new => Rule.readAll false new.contentTokens = ((sanitizeRules nested b.rules).1, [])
  | .declarations, b, new | .optional, b, new => p.HoldsDeclarations b new
  | .none, _, _ => False

/-- A block that is read as the declarations that are kept, and as nothing else, holds them. -/
theorem holdsDeclarations_of_complete
    (hleft : new.declarations = b.declarations.filter p.keepsDeclaration)
    (hcomplete : (Declaration.readAll new.contentTokens).2 = []) : p.HoldsDeclarations b new := by
  constructor
  · rw [sanitizeList_judgeDeclaration]
    exact Prod.ext hleft hcomplete
  · rw [sanitizeList_judgeDeclaration]
    exact List.filter_sublist

/-- What is left of a block holds the survivors if it may be left of one. -/
theorem holdsSurvivors_of_allowsBlock {allowed : List Rule → Prop} {shape : BlockShape}
    (hleaves : p.LeavesBlock nested shape b new)
    (hallowed : p.AllowsBlock allowed shape (some new)) : p.HoldsSurvivors nested shape b new := by
  cases shape with
  | none => exact hleaves
  | rules =>
    obtain ⟨hcomplete, -⟩ := hallowed
    exact Prod.ext hleaves hcomplete
  | declarations | optional => exact holdsDeclarations_of_complete hleaves hallowed.complete

/-! ## Rules that are kept -/

section

variable {topLevel : Bool} {depth : Nat} {closer : Option TokenKind} {left : Rule}

/-- A style rule that is kept comes back with a block of the declarations that are kept. -/
theorem holdsDeclarations_judgeStyleRule {r : QualifiedRule}
    (hr : (Rule.qualified r).Readable topLevel depth closer)
    (h : (p.judgeStyleRule r).outcome.survivor (.qualified r) = some left) :
    ∃ new, left = .qualified { r with block := new } ∧ p.HoldsDeclarations r.block new := by
  rcases p.survivor_judgeStyleRule hr with ⟨-, hnone⟩ | ⟨-, new, hnew, hleft⟩
  · rw [hnone] at h
    cases h
  · have hallowed : OfStyleRule p.AllowsStyleRule (.qualified { r with block := new }) :=
      (fair_judgeStyleRule hr).leaves _ hnew
    refine ⟨new, Option.some.inj (h.symm.trans hnew), ?_⟩
    exact holdsDeclarations_of_complete hleft hallowed.block.complete

/-- The block of an at-rule that a policy allows reads without a diagnostic in its shape. -/
theorem allowsBlock_of_allowsAtRule {levels : Nat} {entry : AtRulePolicy} {r : AtRule}
    (h : p.AllowsAtRule levels entry r) : ∃ allowed, p.AllowsBlock allowed entry.block r.block := by
  cases levels with
  | zero => exact ⟨_, h.block⟩
  | succ below => exact ⟨_, h.block⟩

/-- The sanitizers inside a group are fair. -/
theorem fair_groupSanitizers (p : Policy) (levels : Nat) :
    ∃ Allowed : Rule → Prop,
      RuleSanitizer.Fair Allowed topLevel depth closer (p.groupSanitizers levels) := by
  cases levels with
  | zero => exact ⟨_, fair_atRules 0 []⟩
  | succ below => exact ⟨_, fair_atRules below p.groupRules⟩

/-- An at-rule that is kept comes back with a block of what survived in its own, or with none if it
had none. -/
theorem holdsSurvivors_judge_atRuleSanitizerAt (levels : Nat) (entry : AtRulePolicy) {r : AtRule}
    (hr : (Rule.atRule r).Readable topLevel depth closer)
    (h : ((p.atRuleSanitizerAt levels entry).judge (.atRule r)).outcome.survivor (.atRule r) =
      some left) :
    ∃ block, left = .atRule { r with block } ∧
      Option.Rel (p.HoldsSurvivors (p.groupSanitizers levels) entry.block) r.block block := by
  obtain ⟨Allowed, hfair⟩ : ∃ Allowed : Rule → Prop, RuleSanitizer.Fair Allowed false (depth + 1)
      (some .rightBrace) (p.groupSanitizers levels) := p.fair_groupSanitizers levels
  have hallowed := (fair_judge_atRuleSanitizerAt levels entry hr).leaves left h
  rw [judge_atRuleSanitizerAt] at h
  rcases p.survivor_judgeAtRule hfair entry.block hr with ⟨-, hnone⟩ | ⟨-, block, hnew, hleaves⟩
  · rw [hnone] at h
    cases h
  · obtain rfl := Option.some.inj (hnew.symm.trans h)
    obtain ⟨allowed, hblock⟩ := allowsBlock_of_allowsAtRule (r := { r with block }) hallowed
    refine ⟨block, rfl, ?_⟩
    -- Both blocks are there or both are missing, by what is left of the one in the rule.
    cases hb : r.block with
    | none =>
      rw [hb] at hleaves
      cases hleaves
      exact .none
    | some b =>
      rw [hb] at hleaves
      obtain ⟨hleaves⟩ := hleaves
      exact .some (holdsSurvivors_of_allowsBlock hleaves hblock)

end

end Policy

/-- **A rebuilt block keeps exactly the survivors.** Take a rule among those that were read from
tokens, and what a sanitizer gives back for it. If the sanitizer of style rules keeps it, its block
is read, without a diagnostic, as the declarations in the block of the first rule that are kept when
they are judged one by one. If the sanitizer of an at-rule keeps it, the block is read in the same
way as such declarations or as the rules that the sanitizers of the group leave, as the entry asks
for; and without a block it comes back without one. -/
theorem Policy.reread_survivor (p : Policy) (topLevel : Bool) (ts : List Token) {r left : Rule}
    (hr : r ∈ (Rule.readAll topLevel ts).1) :
    ((p.styleSanitizer.judge r).outcome.survivor r = some left →
      ∃ b new, r.block? = some b ∧ left.block? = some new ∧ p.HoldsDeclarations b new) ∧
    ∀ levels entry, ((p.atRuleSanitizerAt levels entry).judge r).outcome.survivor r = some left →
      Option.Rel (p.HoldsSurvivors (p.groupSanitizers levels) entry.block)
        r.block? left.block? := by
  have hreadable := Rule.readable_readAll topLevel ts r hr
  constructor
  · intro h
    cases r with
    | atRule r => cases h
    | qualified r =>
      obtain ⟨new, rfl, hnew⟩ := holdsDeclarations_judgeStyleRule hreadable h
      exact ⟨r.block, new, rfl, rfl, hnew⟩
  · intro levels entry h
    cases r with
    | atRule r =>
      obtain ⟨block, rfl, hblock⟩ := holdsSurvivors_judge_atRuleSanitizerAt levels entry hreadable h
      exact hblock
    | qualified r => cases levels <;> rw [atRuleSanitizerAt] at h <;> cases h

/-- A group in which one rule survives with one of its declarations, and a style rule with one. -/
theorem Policy.reread_survivor_media :
    let rules := (Rule.readAll true
      (tokens "@media x{a{behavior:y;color:red!important}@import z;}b{x:y;;width:0}")).1
    (∃ r ∈ rules, ∃ left entry, ((standard.atRuleSanitizerAt maxGroupRuleDepth entry).judge
        r).outcome.survivor r = some left ∧ left.text = "@media x{a{color:red !important}}" ∧
      Option.Rel (standard.HoldsSurvivors (standard.groupSanitizers maxGroupRuleDepth) entry.block)
        r.block? left.block?) ∧
    ∃ r ∈ rules, ∃ left, (standard.styleSanitizer.judge r).outcome.survivor r = some left ∧
      left.text = "b{width:0}" ∧
      ∃ b new, r.block? = some b ∧ left.block? = some new ∧ standard.HoldsDeclarations b new := by
  intro rules
  let entry := (standard.atRules.find? (·.isNamed "media")).getD default
  constructor
  · have htext : (rules.head?.bind fun r =>
        ((standard.atRuleSanitizerAt maxGroupRuleDepth entry).judge
          r).outcome.survivor r).map Rule.text = some "@media x{a{color:red !important}}" := by
      decide +kernel
    obtain ⟨left, hleft, htext⟩ := Option.map_eq_some_iff.1 htext
    obtain ⟨r, hr, hleft⟩ := Option.bind_eq_some_iff.1 hleft
    have hr := List.mem_of_head? hr
    exact ⟨r, hr, left, entry, hleft, htext,
      (reread_survivor standard true _ hr).2 maxGroupRuleDepth entry hleft⟩
  · have htext : (rules.getLast?.bind fun r => (standard.styleSanitizer.judge
        r).outcome.survivor r).map Rule.text = some "b{width:0}" := by
      decide +kernel
    obtain ⟨left, hleft, htext⟩ := Option.map_eq_some_iff.1 htext
    obtain ⟨r, hr, hleft⟩ := Option.bind_eq_some_iff.1 hleft
    have hr := List.mem_of_getLast? hr
    exact ⟨r, hr, left, hleft, htext, (reread_survivor standard true _ hr).1 hleft⟩

end StyleGate
