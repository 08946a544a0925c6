import Mathlib.Data.List.ReduceOption
import StyleGate.Policy.Standard
import StyleGate.Proofs.Stability

/-!
# Longer lists allow more

A policy is within another one (`Policy.Within`) if the two know the same at-rules, give rules the same
places, and the other one lists all the properties and functions that the first one lists. Then the
other one leaves all that the first one leaves of a stylesheet, and perhaps more
(`Policy.left_within`): no rule that is left is lost, no declaration in its block is lost,
and the same holds of the rules in its block, however deep they lie.

Rules are compared one by one with the rule they are left of. Which rules come to be judged does not
depend on the lists, because the plan of `RuleSanitizer.planFrom` looks at places only
(`RuleSanitizer.raise_assess`), and a rule that is judged counts for the order whether or not
anything is left of it.
-/

namespace StyleGate

open Text

/-! ## Policies within others -/

/-- What is allowed in values by a policy that lists no other functions than `q` and allows urls only
if `q` does. -/
structure ValuePolicy.Within (p q : ValuePolicy) : Prop where
  functions : ∀ name ∈ p.functions, containsFolded q.functions name = true
  urls : p.allowUrls = true → q.allowUrls = true

/-- A policy that has the at-rules of `q` and its places of rules, and lists nothing that `q` does not
list. -/
structure Policy.Within (p q : Policy) : Prop where
  atRules : p.atRules = q.atRules
  enabled : p.styleRules.enabled = q.styleRules.enabled
  index : p.styleRules.index = q.styleRules.index
  properties : ∀ name ∈ p.styleRules.properties, containsFolded q.styleRules.properties name = true
  values : p.values.Within q.values
  selectors : ∀ name ∈ p.selectors.functions, containsFolded q.selectors.functions name = true

/-- A list that holds all names of another one holds what the other one holds, in any case. -/
theorem Text.containsFolded_of_forall {names others : List String}
    (h : ∀ name ∈ names, containsFolded others name = true) {name : String}
    (hname : containsFolded names name = true) : containsFolded others name = true := by
  obtain ⟨n, hn, hsame⟩ := List.any_eq_true.1 hname
  obtain ⟨m, hm, hother⟩ := List.any_eq_true.1 (h n hn)
  refine List.any_eq_true.2 ⟨m, hm, sameFolded_iff.2 ?_⟩
  exact (sameFolded_iff.1 hother).trans (sameFolded_iff.1 hsame)

/-- A value that is permitted stays permitted when the list of functions grows. -/
theorem ValuePolicy.Within.permits {p q : ValuePolicy} (h : p.Within q) {v : ComponentValue}
    (hv : p.Permits v) : q.Permits v := by
  induction hv with
  | token hkind hurl => exact .token hkind fun hu => h.urls (hurl hu)
  | block hopener _ ih => exact .block hopener ih
  | url hname hallow hcontent => exact .url hname (h.urls hallow) hcontent
  | function hname hlisted _ ih =>
    exact .function hname (containsFolded_of_forall h.functions hlisted) ih

namespace Policy.Within

variable {p q : Policy} (h : p.Within q)

include h

/-- What one policy permits in selectors lies within what the other one does. -/
theorem selectorValues : p.selectorValues.Within q.selectorValues := ⟨h.selectors, id⟩

/-- Both policies have the same rules for groups. -/
theorem groupRules : p.groupRules = q.groupRules := by
  rw [Policy.groupRules, Policy.groupRules, h.atRules]

/-- They place each rule alike. -/
theorem indexOf? (entries : List AtRulePolicy) (r : Rule) :
    p.indexOf? entries r = q.indexOf? entries r := by
  cases r <;> simp only [Policy.indexOf?, h.enabled, h.index]

/-- A property that is allowed stays allowed. -/
theorem allowsProperty {name : String} (hname : p.allowsProperty name = true) :
    q.allowsProperty name = true := by
  rw [Policy.allowsProperty, Bool.or_eq_true] at hname ⊢
  exact hname.imp_right (containsFolded_of_forall h.properties)

/-- A declaration that is allowed stays allowed. -/
theorem allowsDeclaration {d : Declaration} (hd : p.AllowsDeclaration d) : q.AllowsDeclaration d :=
  ⟨h.allowsProperty hd.property, hd.present, fun v hv => h.values.permits (hd.value v hv)⟩

/-- Of declarations with regular values, those that are kept are kept again, in order. -/
theorem filter_keepsDeclaration {ds : List Declaration}
    (hds : ∀ d ∈ ds, ∀ v ∈ d.value, v.Regular 0 none) :
    (ds.filter p.keepsDeclaration).Sublist (ds.filter q.keepsDeclaration) := by
  -- `List.monotone_filter_right` asks for the implication at all declarations; it is known at those of
  -- the list, whose values are regular.
  have hboth : ds.filter p.keepsDeclaration =
      (ds.filter q.keepsDeclaration).filter p.keepsDeclaration := by
    rw [List.filter_filter]
    refine List.filter_congr fun d hd => ?_
    have hkeep : p.keepsDeclaration d = true → q.keepsDeclaration d = true := fun hp =>
      (keepsDeclaration_iff (hds d hd)).2 (h.allowsDeclaration ((keepsDeclaration_iff (hds d hd)).1 hp))
    rw [Bool.eq_iff_iff, Bool.and_eq_true]
    exact ⟨fun hp => ⟨hp, hkeep hp⟩, And.left⟩
  rw [hboth]
  exact List.filter_sublist

/-- A selector that is accepted stays accepted. -/
theorem selectorFaults {r : QualifiedRule} (hr : ∀ v ∈ r.prelude, v.Regular 0 none)
    (hfaults : p.selectorFaults r = []) : q.selectorFaults r = [] := by
  obtain ⟨hpresent, hpermits⟩ := (selectorFaults_eq_nil_iff hr).1 hfaults
  exact (selectorFaults_eq_nil_iff hr).2
    ⟨hpresent, fun v hv => h.selectorValues.permits (hpermits v hv)⟩

/-- What stands in front of the block of an at-rule and is accepted stays accepted. -/
theorem headFaults {shape : BlockShape} {r : AtRule} (hr : ∀ v ∈ r.prelude, v.Regular 0 none)
    (hfaults : p.headFaults shape r = []) : q.headFaults shape r = [] := by
  obtain ⟨hshape, hprelude⟩ := headFaults_eq_nil_iff.1 hfaults
  have hpermits := (preludeFaults_eq_nil_iff hr).1 hprelude
  exact headFaults_eq_nil_iff.2
    ⟨hshape, (preludeFaults_eq_nil_iff hr).2 fun v hv => h.values.permits (hpermits v hv)⟩

end Policy.Within

/-! ## What a block is read as -/

namespace Block

/-- The declarations that a block is read as. -/
def declarations (b : Block) : List Declaration := (Declaration.readAll b.contentTokens).1

/-- The rules that a block is read as. -/
def rules (b : Block) : List Rule := (Rule.readAll false b.contentTokens).1

variable {b : Block} {depth : Nat}

/-- A rebuilt block starts as before. -/
theorem opener_rebuilt (ts : List Token) : (b.rebuilt ts).opener = b.opener := rfl

/-- The declarations in a block are made of its contents. -/
theorem sound_declarations (h : ∀ v ∈ b.contents, v.Regular (depth + 1) (some .rightBrace)) :
    ∀ d ∈ b.declarations, d.WellRead ∧ d.MadeOf (·.Regular (depth + 1) (some .rightBrace)) := by
  rw [declarations, readDeclarations fun v hv => (h v hv).atTop]
  exact Declaration.sound_ofGroups (by simpa [ComponentValue.silent] using h)

/-- The rules in a block are readable one group further in. -/
theorem readable_rules (h : ∀ v ∈ b.contents, v.Regular (depth + 1) (some .rightBrace)) :
    ∀ r ∈ b.rules, r.Readable false (depth + 1) (some .rightBrace) := by
  rw [rules, readRules fun v hv => (h v hv).atTop]
  exact Rule.readable_ofValues nofun h

end Block

/-- Putting its own block into a rule changes nothing. -/
theorem Rule.putBlock_self {r : Rule} {b : Block} (hb : r.block? = some b) : r.putBlock b = r := by
  cases r with
  | atRule r =>
    have hb : r.block = some b := hb
    rw [putBlock, ← hb]
  | qualified r =>
    obtain rfl := Option.some.inj hb
    rfl

/-! ## What is left of a block -/

namespace Policy

variable {p : Policy} {topLevel : Bool} {depth : Nat} {closer : Option TokenKind}

/-- Of a block of declarations the declarations that are kept are left. -/
theorem survivor_judgeDeclarations (p : Policy) {b : Block}
    (h : ∀ v ∈ b.contents, v.Regular (depth + 1) (some .rightBrace)) :
    ∃ new, (p.judgeDeclarations b).outcome.survivor b = some new ∧ new.opener = b.opener ∧
      new.declarations = b.declarations.filter p.keepsDeclaration := by
  have hsound := Block.sound_declarations h
  simp only [judgeDeclarations, Block.declarations] at hsound ⊢
  split
  · next hcond =>
    refine ⟨b, rfl, rfl, (List.filter_eq_self.2 ?_).symm⟩
    exact List.all_eq_true.1 (Bool.and_eq_true_iff.1 hcond).2
  · refine ⟨b.rebuilt _, rfl, Block.opener_rebuilt _, ?_⟩
    rw [(Block.rebuilt_declarations fun d hd => hsound d (List.mem_filter.1 hd).1).2.2]

/-- Of a block of rules the rules that sanitizers leave are left. -/
theorem survivor_judgeRuleBlock {Allowed : Rule → Prop} {nested : List RuleSanitizer}
    (hfair : RuleSanitizer.Fair Allowed false (depth + 1) (some .rightBrace) nested) {b : Block}
    (h : ∀ v ∈ b.contents, v.Regular (depth + 1) (some .rightBrace)) :
    ∃ new, (judgeRuleBlock nested b).outcome.survivor b = some new ∧ new.opener = b.opener ∧
      new.rules = (sanitizeRules nested b.rules).1 := by
  have hsifted := RuleSanitizer.sifted_sanitizeRules hfair (Block.readable_rules h)
  simp only [judgeRuleBlock, Block.rules] at hsifted ⊢
  split
  · next hcond =>
    refine ⟨b, rfl, rfl, (hsifted.silent (hsifted.agreesAll_iff.1 ?_)).symm⟩
    exact (Bool.and_eq_true_iff.1 hcond).2
  · refine ⟨b.rebuilt _, rfl, Block.opener_rebuilt _, ?_⟩
    rw [(Block.rebuilt_rules hsifted.readable).2.2]

/-- What is left of a block under a policy, where `nested` judges the rules in it. -/
def LeavesBlock (p : Policy) (nested : List RuleSanitizer) : BlockShape → Block → Block → Prop
  | .rules, b, new => new.rules = (sanitizeRules nested b.rules).1
  | .declarations, b, new | .optional, b, new =>
    new.declarations = b.declarations.filter p.keepsDeclaration
  | .none, _, _ => False

/-- A block that an at-rule may have is not dropped. Only its contents become less. -/
theorem survivor_judgeAtRuleBlock {Allowed : Rule → Prop} {nested : List RuleSanitizer}
    (hfair : RuleSanitizer.Fair Allowed false (depth + 1) (some .rightBrace) nested)
    {shape : BlockShape} (hshape : shape ≠ .none) {b : Block}
    (h : ∀ v ∈ b.contents, v.Regular (depth + 1) (some .rightBrace)) :
    ∃ new, (p.judgeAtRuleBlock nested shape b).outcome.survivor b = some new ∧
      new.opener = b.opener ∧ p.LeavesBlock nested shape b new := by
  cases shape with
  | none => exact absurd rfl hshape
  | rules => exact survivor_judgeRuleBlock hfair h
  | declarations | optional => exact p.survivor_judgeDeclarations h

/-! ## What is left of a rule -/

/-- Where something is left of the block of a rule, the rule is left with it. -/
theorem survivor_judgeBlock {r : Rule} {b new : Block} {replace : Block → Except NodeError Rule}
    {j : Judgement Block} (hb : r.block? = some b) (hnew : j.outcome.survivor b = some new)
    (hreplace : replace new = .ok (r.putBlock new)) :
    (judgeBlock replace j).outcome.survivor r = some (r.putBlock new) := by
  unfold judgeBlock
  cases houtcome : j.outcome with
  | removed =>
    rw [houtcome] at hnew
    cases hnew
  | kept =>
    rw [houtcome] at hnew
    obtain rfl := Option.some.inj hnew
    rw [Rule.putBlock_self hb]
    rfl
  | replaced other =>
    rw [houtcome] at hnew
    obtain rfl := Option.some.inj hnew
    simp only [hreplace, Outcome.survivor]

/-- A style rule whose selector is accepted is left with the declarations that are kept. -/
theorem survivor_judgeStyleRule (p : Policy) {r : QualifiedRule}
    (h : (Rule.qualified r).Readable topLevel depth closer) :
    (p.selectorFaults r ≠ [] ∧ (p.judgeStyleRule r).outcome.survivor (.qualified r) = none) ∨
      (p.selectorFaults r = [] ∧ ∃ new,
        (p.judgeStyleRule r).outcome.survivor (.qualified r) =
          some (.qualified { r with block := new }) ∧
        new.declarations = r.block.declarations.filter p.keepsDeclaration) := by
  obtain ⟨hbraces, -, hcontents⟩ := h.block (b := r.block) rfl
  unfold judgeStyleRule
  dsimp only
  split
  · next hfaults => exact .inl ⟨by simpa using hfaults, rfl⟩
  · next hfaults =>
    obtain ⟨new, hnew, hopener, hdeclarations⟩ := p.survivor_judgeDeclarations hcontents
    have hbraces : new.isBraces = true := by rwa [Block.isBraces, hopener]
    refine .inr ⟨by simpa using hfaults, new, ?_, hdeclarations⟩
    refine survivor_judgeBlock (r := .qualified r) rfl hnew ?_
    simp [QualifiedRule.withBlock, hbraces, Except.map, Rule.putBlock]

/-- An at-rule that is accepted as far as its block is left with what is left of its block. -/
theorem survivor_judgeAtRule {Allowed : Rule → Prop} {nested : List RuleSanitizer}
    (hfair : RuleSanitizer.Fair Allowed false (depth + 1) (some .rightBrace) nested)
    (shape : BlockShape) {r : AtRule} (h : (Rule.atRule r).Readable topLevel depth closer) :
    (p.headFaults shape r ≠ [] ∧ (p.judgeAtRule nested shape r).outcome.survivor (.atRule r) = none) ∨
      (p.headFaults shape r = [] ∧ ∃ left,
        (p.judgeAtRule nested shape r).outcome.survivor (.atRule r) =
          some (.atRule { r with block := left }) ∧
        Option.Rel (p.LeavesBlock nested shape) r.block left) := by
  unfold judgeAtRule
  dsimp only
  split
  · next hfaults => exact .inl ⟨by simpa using hfaults, rfl⟩
  · next hfaults =>
    have hfaults : p.headFaults shape r = [] := by simpa using hfaults
    refine .inr ⟨hfaults, ?_⟩
    split
    · next hnone =>
      refine ⟨none, ?_, by rw [hnone]; exact .none⟩
      rw [← hnone]
      rfl
    · next b hsome =>
      obtain ⟨hbraces, -, hcontents⟩ := h.block (b := b) hsome
      have hshape : shape ≠ .none := by
        rintro rfl
        simpa [shapeFaults, hsome] using (headFaults_eq_nil_iff.1 hfaults).1
      obtain ⟨new, hnew, hopener, hleaves⟩ := p.survivor_judgeAtRuleBlock hfair hshape hcontents
      have hbraces : new.isBraces = true := by rwa [Block.isBraces, hopener]
      refine ⟨some new, ?_, by rw [hsome]; exact .some hleaves⟩
      refine survivor_judgeBlock (r := .atRule r) hsome hnew ?_
      simp [AtRule.withBlock, hbraces, Except.map, Rule.putBlock]

end Policy

/-! ## What is left of the rules of a list -/

namespace RuleSanitizer

variable {sanitizers others : List RuleSanitizer} {highest : Int32}

/-- What is left of each rule of a list that comes after rules up to an index. -/
def leftFrom (sanitizers : List RuleSanitizer) (highest : Int32) (rules : List Rule) :
    List (Option Rule) :=
  (rules.zip (planFrom sanitizers highest rules)).map fun (r, a) => (a.judge r).outcome.survivor r

/-- What is left of each rule of a list. -/
def leftEach (sanitizers : List RuleSanitizer) (rules : List Rule) : List (Option Rule) :=
  leftFrom sanitizers Int32.minValue rules

/-- What is left of the rest depends on the first rule through the greatest index alone. -/
theorem leftFrom_cons (r : Rule) (rules : List Rule) :
    leftFrom sanitizers highest (r :: rules) =
      ((assess sanitizers highest r).judge r).outcome.survivor r ::
        leftFrom sanitizers ((assess sanitizers highest r).raise highest) rules := rfl

/-- The rules that are left of a list are those that are left of each rule. -/
theorem sanitizeRules_fst (sanitizers : List RuleSanitizer) (rules : List Rule) :
    (sanitizeRules sanitizers rules).1 = (leftEach sanitizers rules).reduceOption := by
  simp only [sanitizeRules, judgeRules, Judgement.collect, leftEach, leftFrom, plan,
    List.reduceOption, List.filterMap_map]
  rfl

/-- How far a rule raises the index depends on its place only. -/
theorem raise_assess (sanitizers : List RuleSanitizer) (highest : Int32) (r : Rule) :
    (assess sanitizers highest r).raise highest =
      match indexOf? sanitizers r with
      | none => highest
      | some i => if i.test < highest then highest else max highest i.set := by
  unfold indexOf?
  rcases assess_cases sanitizers highest r with
    ⟨hfind, hassess⟩ | ⟨s, hfind, ⟨hlt, hassess⟩ | ⟨hle, hassess⟩⟩
  · rw [hassess, hfind]
    rfl
  · rw [hassess, hfind]
    exact (if_pos hlt).symm
  · rw [hassess, hfind]
    exact (if_neg (Int32.not_lt.2 hle)).symm

/-- Something is left of a rule if it is in order and its sanitizer leaves something. -/
theorem survivor_assess_eq_some_iff {r a : Rule} :
    ((assess sanitizers highest r).judge r).outcome.survivor r = some a ↔
      ∃ s, sanitizers.find? (·.handles r) = some s ∧ highest ≤ s.index.test ∧
        (s.judge r).outcome.survivor r = some a := by
  rcases assess_cases sanitizers highest r with
    ⟨hfind, hassess⟩ | ⟨s, hfind, ⟨hlt, hassess⟩ | ⟨hle, hassess⟩⟩
  · rw [hassess, hfind]
    exact ⟨nofun, nofun⟩
  · rw [hassess]
    refine ⟨nofun, ?_⟩
    rintro ⟨t, ht, hle, -⟩
    obtain rfl := Option.some.inj (hfind.symm.trans ht)
    exact absurd hlt (Int32.not_lt.2 hle)
  · rw [hassess]
    refine ⟨fun ha => ⟨s, hfind, hle, ha⟩, ?_⟩
    rintro ⟨t, ht, -, ha⟩
    obtain rfl := Option.some.inj (hfind.symm.trans ht)
    exact ha

end RuleSanitizer

/-! ## More is left of a rule -/

/-- Two blocks that are left of a third one: the declarations of the first are declarations of the
second, in order, and those are declarations of the third. -/
structure Block.DeclaresWithin (source narrow wide : Block) : Prop where
  narrow : narrow.declarations.Sublist wide.declarations
  wide : wide.declarations.Sublist source.declarations

/-- Two blocks, or none, that are left of the block of an at-rule, where `nested` compares the rules in
them. -/
def BlockShape.LeftWithin (nested : List Rule → List Rule → List Rule → Prop) :
    BlockShape → Option Block → Option Block → Option Block → Prop
  | _, .none, .none, .none => True
  | .rules, some source, some narrow, some wide => nested source.rules narrow.rules wide.rules
  | .declarations, some source, some narrow, some wide
  | .optional, some source, some narrow, some wide => source.DeclaresWithin narrow wide
  | _, _, _, _ => False

/-- Two at-rules that are left of a third one: they differ from it in their blocks only. -/
structure AtRule.LeftWithin (nested : List Rule → List Rule → List Rule → Prop) (shape : BlockShape)
    (source narrow wide : AtRule) : Prop where
  narrow_eq : narrow = { source with block := narrow.block }
  wide_eq : wide = { source with block := wide.block }
  block : shape.LeftWithin nested source.block narrow.block wide.block

/-- Two style rules that are left of a third one. -/
structure QualifiedRule.LeftWithin (source narrow wide : QualifiedRule) : Prop where
  narrow_eq : narrow = { source with block := narrow.block }
  wide_eq : wide = { source with block := wide.block }
  block : source.block.DeclaresWithin narrow.block wide.block

/-- Two rules that are left of a third one, where at-rules go by one of the given entries and `inner`
compares them under it. -/
def Rule.LeftWithin (entries : List AtRulePolicy)
    (inner : AtRulePolicy → AtRule → AtRule → AtRule → Prop) : Rule → Rule → Rule → Prop
  | .atRule source, .atRule narrow, .atRule wide =>
    ∃ entry, entries.find? (·.isNamed source.name) = some entry ∧ inner entry source narrow wide
  | .qualified source, .qualified narrow, .qualified wide => source.LeftWithin narrow wide
  | _, _, _ => False

/-- What is left of each rule of a list under one policy and under another one. Where the first leaves
a rule, so does the other, and the two are related. -/
inductive LeftWithin (R : Rule → Rule → Rule → Prop) :
    List Rule → List (Option Rule) → List (Option Rule) → Prop
  | nil : LeftWithin R [] [] []
  | cons {source : Rule} {narrow wide : Option Rule} {sources : List Rule}
      {narrows wides : List (Option Rule)} :
      (∀ a, narrow = some a → ∃ b, wide = some b ∧ R source a b) →
      LeftWithin R sources narrows wides →
      LeftWithin R (source :: sources) (narrow :: narrows) (wide :: wides)

namespace Policy

/-- Two lists that the policies `p` and `q` leave of a third one, where the second list has a rule of
its own for each rule of the first. -/
structure LeavesWithin (p q : Policy) (levels : Nat) (entries : List AtRulePolicy)
    (inner : AtRulePolicy → AtRule → AtRule → AtRule → Prop) (sources narrows wides : List Rule) :
    Prop where
  narrow : narrows = (RuleSanitizer.leftEach (p.sanitizersOf levels entries) sources).reduceOption
  wide : wides = (RuleSanitizer.leftEach (q.sanitizersOf levels entries) sources).reduceOption
  each : StyleGate.LeftWithin (Rule.LeftWithin entries inner) sources
    (RuleSanitizer.leftEach (p.sanitizersOf levels entries) sources)
    (RuleSanitizer.leftEach (q.sanitizersOf levels entries) sources)

/-- Two at-rules that the policies `p` and `q` leave of a third one under an entry, where groups of
rules may lie in each other `levels` deep inside it. -/
def LeavesAtRuleWithin (p q : Policy) : Nat → AtRulePolicy → AtRule → AtRule → AtRule → Prop
  | 0, entry => AtRule.LeftWithin (p.LeavesWithin q 0 [] fun _ _ _ _ => False) entry.block
  | levels + 1, entry =>
    AtRule.LeftWithin (p.LeavesWithin q levels p.groupRules (p.LeavesAtRuleWithin q levels)) entry.block

end Policy

/-- Sanitizers that leave of each readable rule what others leave of it, or less, and give it the same
place. -/
structure RuleSanitizer.Within (R : Rule → Rule → Rule → Prop) (topLevel : Bool) (depth : Nat)
    (closer : Option TokenKind) (sanitizers others : List RuleSanitizer) : Prop where
  index : ∀ r, indexOf? sanitizers r = indexOf? others r
  judge : ∀ r, r.Readable topLevel depth closer → ∀ s, sanitizers.find? (·.handles r) = some s →
    ∀ s', others.find? (·.handles r) = some s' → ∀ a, (s.judge r).outcome.survivor r = some a →
      ∃ b, (s'.judge r).outcome.survivor r = some b ∧ R r a b

section
variable {R : Rule → Rule → Rule → Prop} {topLevel : Bool} {depth : Nat} {closer : Option TokenKind}
  {sanitizers others : List RuleSanitizer}

namespace RuleSanitizer.Within

variable (h : RuleSanitizer.Within R topLevel depth closer sanitizers others)

include h

/-- A rule that is admitted and left is admitted and left by the others. -/
theorem survivor_assess {highest : Int32} {r a : Rule} (hr : r.Readable topLevel depth closer)
    (ha : ((assess sanitizers highest r).judge r).outcome.survivor r = some a) :
    ∃ b, ((assess others highest r).judge r).outcome.survivor r = some b ∧ R r a b := by
  obtain ⟨s, hfind, hle, ha⟩ := survivor_assess_eq_some_iff.1 ha
  have hindex := h.index r
  rw [indexOf?, hfind, Option.map_some, eq_comm] at hindex
  obtain ⟨s', hfind', hindex⟩ := Option.map_eq_some_iff.1 hindex
  obtain ⟨b, hb, hrelated⟩ := h.judge r hr s hfind s' hfind' a ha
  exact ⟨b, survivor_assess_eq_some_iff.2 ⟨s', hfind', by rwa [hindex], hb⟩, hrelated⟩

/-- The rules of a list are left within what the others leave of them: both raise the index in the same
way, so that they admit the same rules. -/
theorem leftFrom {rules : List Rule} (hrules : ∀ r ∈ rules, r.Readable topLevel depth closer)
    (highest : Int32) :
    LeftWithin R rules (leftFrom sanitizers highest rules) (leftFrom others highest rules) := by
  induction rules generalizing highest with
  | nil => exact .nil
  | cons r rules ih =>
    have hraise : (assess sanitizers highest r).raise highest = (assess others highest r).raise highest := by
      rw [raise_assess, raise_assess, h.index r]
    rw [leftFrom_cons, leftFrom_cons, hraise]
    refine .cons (fun a ha => h.survivor_assess (hrules r (.head _)) ha) ?_
    exact ih (fun s hs => hrules s (.tail _ hs)) _

end RuleSanitizer.Within

/-- What `p` leaves of readable rules is within what `q` leaves of them if the sanitizers are. -/
theorem Policy.leavesWithin_sanitizeRules {p q : Policy} {levels : Nat} {entries : List AtRulePolicy}
    {inner : AtRulePolicy → AtRule → AtRule → AtRule → Prop}
    (h : RuleSanitizer.Within (Rule.LeftWithin entries inner) topLevel depth closer
      (p.sanitizersOf levels entries) (q.sanitizersOf levels entries))
    {rules : List Rule} (hrules : ∀ r ∈ rules, r.Readable topLevel depth closer) :
    p.LeavesWithin q levels entries inner rules
      (sanitizeRules (p.sanitizersOf levels entries) rules).1
      (sanitizeRules (q.sanitizersOf levels entries) rules).1 :=
  ⟨RuleSanitizer.sanitizeRules_fst _ _, RuleSanitizer.sanitizeRules_fst _ _,
    h.leftFrom hrules Int32.minValue⟩

end

namespace Policy.Within

variable {p q : Policy} {topLevel : Bool} {depth : Nat} {closer : Option TokenKind} (h : p.Within q)

include h

/-- The declarations that `p` leaves of a block are left by `q`. -/
theorem declaresWithin {source narrow wide : Block}
    (hsource : ∀ v ∈ source.contents, v.Regular (depth + 1) (some .rightBrace))
    (hnarrow : narrow.declarations = source.declarations.filter p.keepsDeclaration)
    (hwide : wide.declarations = source.declarations.filter q.keepsDeclaration) :
    source.DeclaresWithin narrow wide := by
  constructor
  · rw [hnarrow, hwide]
    refine h.filter_keepsDeclaration fun d hd v hv => ?_
    exact ((Block.sound_declarations hsource d hd).2.value v hv).atTop
  · rw [hwide]
    exact List.filter_sublist

/-- A style rule that `p` leaves is left by `q`. -/
theorem judgeStyleRule {r : QualifiedRule} (hr : (Rule.qualified r).Readable topLevel depth closer)
    {a : Rule} (ha : (p.judgeStyleRule r).outcome.survivor (.qualified r) = some a) :
    ∃ narrow wide, a = .qualified narrow ∧
      (q.judgeStyleRule r).outcome.survivor (.qualified r) = some (.qualified wide) ∧
      r.LeftWithin narrow wide := by
  have hprelude : ∀ v ∈ r.prelude, v.Regular 0 none := fun v hv => (hr.prelude v hv).atTop
  rcases p.survivor_judgeStyleRule hr with ⟨-, hnone⟩ | ⟨hselector, new, hnew, hdeclarations⟩
  · rw [hnone] at ha
    cases ha
  · obtain rfl := Option.some.inj (hnew.symm.trans ha)
    have hselector := h.selectorFaults hprelude hselector
    rcases q.survivor_judgeStyleRule hr with ⟨hfaults, -⟩ | ⟨-, wide, hwide, hmore⟩
    · exact absurd hselector hfaults
    · refine ⟨_, _, rfl, hwide, rfl, rfl, ?_⟩
      exact h.declaresWithin (hr.block rfl).2.2 hdeclarations hmore

/-- An at-rule that `p` leaves is left by `q` if the rules in its block are. -/
theorem judgeAtRule {Allowed Allowed' : Rule → Prop} {nested nested' : List RuleSanitizer}
    {rel : List Rule → List Rule → List Rule → Prop}
    (hfair : RuleSanitizer.Fair Allowed false (depth + 1) (some .rightBrace) nested)
    (hfair' : RuleSanitizer.Fair Allowed' false (depth + 1) (some .rightBrace) nested')
    (hrel : ∀ rules, (∀ r ∈ rules, r.Readable false (depth + 1) (some .rightBrace)) →
      rel rules (sanitizeRules nested rules).1 (sanitizeRules nested' rules).1)
    {shape : BlockShape} {r : AtRule} (hr : (Rule.atRule r).Readable topLevel depth closer) {a : Rule}
    (ha : (p.judgeAtRule nested shape r).outcome.survivor (.atRule r) = some a) :
    ∃ narrow wide, a = .atRule narrow ∧
      (q.judgeAtRule nested' shape r).outcome.survivor (.atRule r) = some (.atRule wide) ∧
      r.LeftWithin rel shape narrow wide := by
  have hprelude : ∀ v ∈ r.prelude, v.Regular 0 none := fun v hv => (hr.prelude v hv).atTop
  rcases p.survivor_judgeAtRule hfair shape hr with ⟨-, hnone⟩ | ⟨hhead, new, hnew, hleaves⟩
  · rw [hnone] at ha
    cases ha
  · obtain rfl := Option.some.inj (hnew.symm.trans ha)
    have hhead := h.headFaults hprelude hhead
    rcases q.survivor_judgeAtRule hfair' shape hr with
      ⟨hfaults, -⟩ | ⟨-, wide, hwide, hmore⟩
    · exact absurd hhead hfaults
    · refine ⟨_, _, rfl, hwide, rfl, rfl, ?_⟩
      dsimp only
      cases hblock : r.block with
      | none =>
        rw [hblock] at hleaves hmore
        cases hleaves
        cases hmore
        cases shape <;> trivial
      | some b =>
        have hcontents := (hr.block (b := b) hblock).2.2
        rw [hblock] at hleaves hmore
        obtain ⟨hleaves⟩ := hleaves
        obtain ⟨hmore⟩ := hmore
        cases shape with
        | none => exact hleaves
        | rules =>
          have hrules := hrel b.rules (Block.readable_rules hcontents)
          rwa [← hleaves, ← hmore] at hrules
        | declarations | optional => exact h.declaresWithin hcontents hleaves hmore

/-- The sanitizers of `p` leave what those of `q` leave, or less, if those of at-rules do. -/
theorem within_sanitizersOf {levels : Nat} {entries : List AtRulePolicy}
    {inner : AtRulePolicy → AtRule → AtRule → AtRule → Prop}
    (hinner : ∀ entry ∈ entries, ∀ r, (Rule.atRule r).Readable topLevel depth closer → ∀ a,
      ((p.atRuleSanitizerAt levels entry).judge (.atRule r)).outcome.survivor (.atRule r) = some a →
      ∃ narrow wide, a = .atRule narrow ∧
        ((q.atRuleSanitizerAt levels entry).judge (.atRule r)).outcome.survivor (.atRule r) =
          some (.atRule wide) ∧ inner entry r narrow wide) :
    RuleSanitizer.Within (Rule.LeftWithin entries inner) topLevel depth closer
      (p.sanitizersOf levels entries) (q.sanitizersOf levels entries) := by
  constructor
  · intro r
    rw [indexOf?_sanitizersOf, indexOf?_sanitizersOf, h.indexOf?]
  · intro r hr s hs s' hs' a ha
    cases r with
    | atRule r =>
      rw [find?_sanitizersOf_atRule] at hs hs'
      obtain ⟨entry, hentry, rfl⟩ := Option.map_eq_some_iff.1 hs
      obtain rfl : q.atRuleSanitizerAt levels entry = s' := by
        rw [hentry] at hs'
        exact Option.some.inj hs'
      obtain ⟨narrow, wide, rfl, hwide, hrelated⟩ :=
        hinner entry (List.mem_of_find?_eq_some hentry) r hr a ha
      exact ⟨_, hwide, entry, hentry, hrelated⟩
    | qualified r =>
      rw [find?_sanitizersOf_qualified] at hs hs'
      split at hs
      · next henabled =>
        rw [if_pos (h.enabled ▸ henabled)] at hs'
        obtain rfl := Option.some.inj hs
        obtain rfl := Option.some.inj hs'
        obtain ⟨narrow, wide, rfl, hwide, hrelated⟩ := h.judgeStyleRule hr ha
        exact ⟨_, hwide, hrelated⟩
      · cases hs

/-- An at-rule that `p` leaves is left by `q`, however deep groups of rules lie in each other. -/
theorem judge_atRuleSanitizerAt (levels : Nat) (entry : AtRulePolicy) {r : AtRule}
    (hr : (Rule.atRule r).Readable topLevel depth closer) {a : Rule}
    (ha : ((p.atRuleSanitizerAt levels entry).judge (.atRule r)).outcome.survivor (.atRule r) = some a) :
    ∃ narrow wide, a = .atRule narrow ∧
      ((q.atRuleSanitizerAt levels entry).judge (.atRule r)).outcome.survivor (.atRule r) =
        some (.atRule wide) ∧ p.LeavesAtRuleWithin q levels entry r narrow wide := by
  -- The rules in a block lie one group further in, so the induction is over rules at any depth.
  induction levels generalizing topLevel depth closer entry r a with
  | zero =>
    rw [judge_atRuleSanitizerAt_zero] at ha ⊢
    refine h.judgeAtRule (fair_atRules 0 []) (fair_atRules 0 []) (fun rules hrules => ?_) hr ha
    exact leavesWithin_sanitizeRules (h.within_sanitizersOf (by simp)) hrules
  | succ below ih =>
    rw [judge_atRuleSanitizerAt_succ] at ha ⊢
    rw [← h.groupRules]
    refine h.judgeAtRule (fair_atRules below _) (fair_atRules below _) (fun rules hrules => ?_) hr ha
    exact leavesWithin_sanitizeRules (h.within_sanitizersOf fun entry _ r hr a ha => ih entry hr ha) hrules

end Policy.Within

/-- **Longer lists leave more.** Let `q` list all properties and functions that `p` lists, allow urls if
`p` does, and agree with `p` in all else. Of the rules of a stylesheet that was read from tokens, each
one that `p` leaves is left by `q`. The declarations that `p` leaves in its block are among those that
`q` leaves, in order and unchanged, and the rules that `p` leaves in its block are left by `q` in the
same way. -/
theorem Policy.left_within {p q : Policy} (h : p.Within q) (ts : List Token) :
    ∃ narrows wides,
      (p.judgeStylesheet (Rule.readAll true ts).1).outcome.survivor (Rule.readAll true ts).1 =
        some narrows ∧
      (q.judgeStylesheet (Rule.readAll true ts).1).outcome.survivor (Rule.readAll true ts).1 =
        some wides ∧
      p.LeavesWithin q maxGroupRuleDepth p.atRules (p.LeavesAtRuleWithin q maxGroupRuleDepth)
        (Rule.readAll true ts).1 narrows wides := by
  refine ⟨_, _, p.survivor_judgeStylesheet ts, q.survivor_judgeStylesheet ts, ?_⟩
  have hq : q.sanitizers = q.sanitizersOf maxGroupRuleDepth p.atRules := by
    rw [h.atRules]
    rfl
  rw [hq]
  refine leavesWithin_sanitizeRules (h.within_sanitizersOf fun entry _ r hr a ha => ?_)
    (Rule.readable_readAll true ts)
  exact h.judge_atRuleSanitizerAt maxGroupRuleDepth entry hr ha

/-- A policy with one property and without functions, and the default policy, which lists both. -/
theorem Policy.left_within_color :
    let p : Policy := { standard with styleRules := { properties := ["COLOR"] }, values := {} }
    let rules := (Rule.readAll true (tokens "@media x{a{width:calc(1px);color:red}}b{color:rgb(1)}")).1
    p.Within standard ∧ ∃ narrows wides,
      (p.judgeStylesheet rules).outcome.survivor rules = some narrows ∧
      (standard.judgeStylesheet rules).outcome.survivor rules = some wides ∧
      p.LeavesWithin standard maxGroupRuleDepth p.atRules
        (p.LeavesAtRuleWithin standard maxGroupRuleDepth) rules narrows wides ∧
      narrows.map Rule.text = ["@media x{a{color:red}}", "b{}"] ∧
      wides.map Rule.text = ["@media x{a{width:calc(1px);color:red}}", "b{color:rgb(1)}"] := by
  intro p rules
  have hwithin : p.Within standard :=
    ⟨rfl, rfl, rfl, by decide +kernel, ⟨nofun, nofun⟩, by decide +kernel⟩
  obtain ⟨narrows, wides, hnarrow, hwide, hleaves⟩ := left_within hwithin
    (tokens "@media x{a{width:calc(1px);color:red}}b{color:rgb(1)}")
  refine ⟨hwithin, narrows, wides, hnarrow, hwide, hleaves, ?_, ?_⟩
  · have htext : ((p.judgeStylesheet rules).outcome.survivor rules).map (·.map Rule.text) =
        some ["@media x{a{color:red}}", "b{}"] := by decide +kernel
    rw [hnarrow] at htext
    exact Option.some.inj htext
  · have htext : ((standard.judgeStylesheet rules).outcome.survivor rules).map (·.map Rule.text) =
        some ["@media x{a{width:calc(1px);color:red}}", "b{color:rgb(1)}"] := by decide +kernel
    rw [hwide] at htext
    exact Option.some.inj htext

end StyleGate
