import StyleGate.Proofs.Values
import StyleGate.Gate.Stylesheet

/-!
# What a policy allows

`Policy.AllowsSheet` says of a list of rules that it satisfies a policy, without regard to how it is
judged. Every rule must be allowed and the rules must stand in order. An at-rule is allowed if the
policy has an entry for its name, if the entry agrees with the presence of its block, and if its
prelude and block are allowed; blocks count as what they are read as. The rules in a block are allowed
as a stylesheet is, one level down, where only the entries for groups of rules are left.
-/

namespace StyleGate

namespace Policy

open Text

/-- A declaration that a policy allows. -/
structure AllowsDeclaration (p : Policy) (d : Declaration) : Prop where
  property : p.allowsProperty d.property = true
  present : ComponentValue.allWhitespace d.value = false
  value : ∀ v ∈ d.value, p.values.Permits v

/-- A block that is read as allowed declarations and as nothing else. -/
structure AllowsDeclarations (p : Policy) (b : Block) : Prop where
  complete : (Declaration.readAll b.contentTokens).2 = []
  allowed : ∀ d ∈ (Declaration.readAll b.contentTokens).1, p.AllowsDeclaration d

/-- A style rule that a policy allows, if it allows any. -/
structure AllowsStyleRule (p : Policy) (r : QualifiedRule) : Prop where
  present : ComponentValue.allWhitespace r.prelude = false
  selector : ∀ v ∈ r.prelude, p.selectorValues.Permits v
  block : p.AllowsDeclarations r.block

/-- What a policy allows of the block of an at-rule, where `nested` says which rules it allows in
it. -/
def AllowsBlock (p : Policy) (nested : List Rule → Prop) : BlockShape → Option Block → Prop
  | .none, none | .optional, none => True
  | .declarations, some b | .optional, some b => p.AllowsDeclarations b
  | .rules, some b =>
    (Rule.readAll false b.contentTokens).2 = [] ∧ nested (Rule.readAll false b.contentTokens).1
  | _, _ => False

/-- What a policy allows of an at-rule under an entry. -/
structure AllowsUnder (p : Policy) (nested : List Rule → Prop) (entry : AtRulePolicy) (r : AtRule) :
    Prop where
  prelude : ∀ v ∈ r.prelude, p.values.Permits v
  block : p.AllowsBlock nested entry.block r.block

/-- What a policy allows of a rule where at-rules need one of the given entries; `inner` says what an
entry allows. -/
def AllowsRule (p : Policy) (entries : List AtRulePolicy) (inner : AtRulePolicy → AtRule → Prop) :
    Rule → Prop
  | .atRule r => ∃ entry, entries.find? (·.isNamed r.name) = some entry ∧ inner entry r
  | .qualified r => p.styleRules.enabled = true ∧ p.AllowsStyleRule r

/-- The place of a rule among its siblings. -/
def indexOf? (p : Policy) (entries : List AtRulePolicy) : Rule → Option RuleIndex
  | .atRule r => (entries.find? (·.isNamed r.name)).map (·.index)
  | .qualified _ => if p.styleRules.enabled then some p.styleRules.index else none

end Policy

/-- A place that may come before another one. -/
def RuleIndex.MayPrecede (i j : Option RuleIndex) : Prop := ∀ x ∈ i, ∀ y ∈ j, x.set ≤ y.test

namespace Policy

/-- A list of rules that are allowed and stand in order. -/
structure AllowsRules (p : Policy) (entries : List AtRulePolicy)
    (inner : AtRulePolicy → AtRule → Prop) (rules : List Rule) : Prop where
  allowed : ∀ r ∈ rules, p.AllowsRule entries inner r
  ordered : rules.Pairwise fun r s => RuleIndex.MayPrecede (p.indexOf? entries r) (p.indexOf? entries s)

/-- What a policy allows of an at-rule under an entry, where groups of rules may lie in each other
`levels` deep inside it. -/
def AllowsAtRule (p : Policy) : Nat → AtRulePolicy → AtRule → Prop
  | 0 => p.AllowsUnder (p.AllowsRules [] fun _ _ => False)
  | levels + 1 => p.AllowsUnder (p.AllowsRules p.groupRules (p.AllowsAtRule levels))

/-- The stylesheets that a policy allows. -/
def AllowsSheet (p : Policy) (rules : List Rule) : Prop :=
  p.AllowsRules p.atRules (p.AllowsAtRule maxGroupRuleDepth) rules

end Policy

/-! ## Fair judgements

A judgement is fair to a node if it reports something exactly when it does not keep the node, keeps it
if it is allowed, leaves only what is allowed, and replaces it only by something smaller.
-/

/-- A fair judgement on a node, where `Allowed` says what may be left and `Reduces` what may replace a
node. -/
structure Judgement.Fair {α : Type} (Allowed : α → Prop) (Reduces : α → α → Prop) (node : α)
    (j : Judgement α) : Prop where
  silent : j.errors = [] ↔ j.outcome = .kept
  keeps : Allowed node → j.outcome = .kept
  leaves : ∀ new, j.outcome.survivor node = some new → Allowed new
  reduces : ∀ new, j.outcome = .replaced new → Reduces new node

namespace Judgement.Fair

variable {α : Type} {A : α → Prop} {Reduces : α → α → Prop} {node new : α} {j : Judgement α}

/-- What is left of a node is the node itself, and then nothing was reported, or what takes its
place. -/
theorem survivor_cases (h : j.Fair A Reduces node) (hnew : j.outcome.survivor node = some new) :
    (j.errors = [] ∧ new = node) ∨ (j.errors ≠ [] ∧ Reduces new node) := by
  cases houtcome : j.outcome with
  | removed =>
    rw [houtcome] at hnew
    cases hnew
  | kept =>
    rw [houtcome] at hnew
    exact .inl ⟨h.silent.2 houtcome, (Option.some.inj hnew).symm⟩
  | replaced other =>
    rw [houtcome] at hnew
    obtain rfl := Option.some.inj hnew
    refine .inr ⟨fun herrors => ?_, h.reduces _ houtcome⟩
    cases houtcome.symm.trans (h.silent.1 herrors)

/-- What is left of a node is the node itself or something that may replace it. -/
theorem related (h : j.Fair A Reduces node) (hnew : j.outcome.survivor node = some new) :
    new = node ∨ Reduces new node :=
  (h.survivor_cases hnew).imp And.right And.right

/-- A fair judgement stays fair where what may be left is described in another way. -/
theorem imp {B : α → Prop} (h : j.Fair A Reduces node) (hnode : B node → A node)
    (hleft : ∀ new, new = node ∨ Reduces new node → A new → B new) : j.Fair B Reduces node :=
  ⟨h.silent, fun hB => h.keeps (hnode hB), fun new hnew => hleft new (h.related hnew) (h.leaves new hnew),
    h.reduces⟩

/-- A judgement that removes a node for a reason is fair if the node is not allowed. -/
theorem remove {errors : List Diagnostic} (herrors : errors ≠ []) (hnode : ¬ A node) :
    Judgement.Fair A Reduces node { outcome := .removed, errors } :=
  ⟨⟨fun h => absurd h herrors, nofun⟩, fun h => absurd h hnode, nofun, nofun⟩

/-- Keeping an allowed node is fair. -/
theorem keep (hnode : A node) : Judgement.Fair A Reduces node .keep := by
  refine ⟨⟨fun _ => rfl, fun _ => rfl⟩, fun _ => rfl, ?_, nofun⟩
  rintro _ ⟨⟩
  exact hnode

/-- A judgement that keeps a node on a condition and replaces it otherwise is fair if the condition
is that the node is allowed, and also that nothing was reported. -/
theorem keepOrReplace {cond : Bool} {errors : List Diagnostic} (hsilent : errors = [] ↔ cond = true)
    (hnode : A node ↔ cond = true) (hnew : A new) (hreduces : cond = false → Reduces new node) :
    Judgement.Fair A Reduces node
      { outcome := if cond then .kept else .replaced new, errors } := by
  cases cond with
  | true =>
    refine ⟨⟨fun _ => rfl, fun _ => hsilent.2 rfl⟩, fun _ => rfl, ?_, nofun⟩
    rintro _ ⟨⟩
    exact hnode.2 rfl
  | false =>
    refine ⟨⟨fun h => (nomatch hsilent.1 h), nofun⟩, fun h => (nomatch hnode.1 h), ?_, ?_⟩
    · rintro _ ⟨⟩
      exact hnew
    · rintro _ ⟨⟩
      exact hreduces rfl

end Judgement.Fair

end StyleGate
