import StyleGate.Gate.Stylesheet
import StyleGate.Proofs.Makeup
import StyleGate.Proofs.Sifting

/-!
# Where tokens come from

Every token of what is left of a stylesheet is one of the tokens that the stylesheet was read from, or
one of the few that reading and judging put in (`Token.Inserted`): the mark of a group that lies too
deep, the end of a group, punctuation between declarations and behind rules. So the gate makes no name,
number or text up (`Policy.from_of_mem_left`).
-/

namespace StyleGate

/-! ## Values -/

/-- A token that is put in where a stylesheet is read or put together again. -/
inductive Token.Inserted : Token → Prop
  | marker (p : Position) : Inserted (Token.tooDeepMarker p)
  | closer {kind : TokenKind} : kind.closesGroup = true → Inserted { kind }
  | semicolon : Inserted (Token.of .semicolon "")
  | colon : Inserted (Token.of .colon "")
  | mark {t : Token} : t ∈ Declaration.importantTokens → Inserted t

/-- A token of a list, or one that is put in. -/
def Token.From (ts : List Token) (t : Token) : Prop := t ∈ ts ∨ t.Inserted

/-- A value that is made of the tokens of a list. -/
def ComponentValue.From (ts : List Token) (v : ComponentValue) : Prop := ∀ t ∈ v.tokens, t.From ts

namespace ComponentValue

variable {ts : List Token}

/-- A plain token is made of itself. -/
theorem from_token {t : Token} (h : t.From ts) : (token t).From ts := by
  intro u hu
  obtain rfl := List.mem_singleton.1 hu
  exact h

/-- The tokens of a list come from somewhere if those of its members do. -/
theorem from_tokensAll_iff {vs : List ComponentValue} :
    (∀ t ∈ tokensAll vs, t.From ts) ↔ ∀ v ∈ vs, v.From ts := by
  rw [tokensAll_eq_flatMap]
  constructor
  · exact fun h v hv t ht => h t (List.mem_flatMap.2 ⟨v, hv, ht⟩)
  · intro h t ht
    obtain ⟨v, hv, ht⟩ := List.mem_flatMap.1 ht
    exact h v hv t ht

/-- The closing token of a block is put in, wherever the block comes from. -/
theorem inserted_blockEnd (opener : Token) : (blockEnd opener).Inserted :=
  .closer (closesGroup_blockEnd opener)

/-- A block comes from where its opening token and its contents do. -/
theorem from_block {opener : Token} {contents : List ComponentValue} (hopener : opener.From ts)
    (hcontents : ∀ v ∈ contents, v.From ts) : (block opener contents).From ts := by
  intro t ht
  rcases List.mem_cons.1 ht with rfl | ht
  · exact hopener
  · rcases List.mem_append.1 ht with ht | ht
    · exact from_tokensAll_iff.2 hcontents t ht
    · obtain rfl := List.mem_singleton.1 ht
      exact .inr (inserted_blockEnd opener)

/-- So does a function. -/
theorem from_function {name : Token} {contents : List ComponentValue} (hname : name.From ts)
    (hcontents : ∀ v ∈ contents, v.From ts) : (function name contents).From ts := by
  intro t ht
  rcases List.mem_cons.1 ht with rfl | ht
  · exact hname
  · rcases List.mem_append.1 ht with ht | ht
    · exact from_tokensAll_iff.2 hcontents t ht
    · obtain rfl := List.mem_singleton.1 ht
      exact .inr (.closer rfl)

/-- Conversely, what a block is made of comes from where the block does. -/
theorem from_contents {opener : Token} {contents : List ComponentValue}
    (h : (block opener contents).From ts) : opener.From ts ∧ ∀ v ∈ contents, v.From ts :=
  ⟨h opener (.head _), from_tokensAll_iff.1 fun t ht => h t (.tail _ (List.mem_append_left _ ht))⟩

end ComponentValue

/-- A value that is built from tokens of a list is made of them: its groups end with tokens that are put
in. -/
theorem ComponentValue.from_of_builtFrom {ts : List Token} {v : ComponentValue}
    (h : v.BuiltFrom (·.From ts)) : v.From ts := by
  induction h with
  | token ht => exact from_token ht
  | block hopener _ ih => exact from_block hopener ih
  | function hname _ ih => exact from_function hname ih

/-- The values that are read from tokens are made of those tokens. -/
theorem ComponentValue.from_readAll (ts : List Token) : ∀ v ∈ (readAll ts).1, v.From ts := by
  have hcarries : Grouping.Carries (·.From ts) fun _ => True :=
    ⟨fun t _ => .inr (.marker t.position), fun _ _ => trivial, fun _ _ => trivial⟩
  have hvalues : ∀ v ∈ (readAll ts).1, v.BuiltFrom (·.From ts) :=
    (builtFrom_readAll hcarries fun _ ht => .inl ht).1
  exact fun v hv => from_of_builtFrom (hvalues v hv)

/-- What comes from tokens that come from somewhere comes from there. -/
theorem Token.From.trans {ts us : List Token} {t : Token} (h : t.From us)
    (hus : ∀ u ∈ us, u.From ts) : t.From ts :=
  h.elim (hus t) .inr

/-- So it is with values. -/
theorem ComponentValue.From.trans {ts us : List Token} {v : ComponentValue} (h : v.From us)
    (hus : ∀ u ∈ us, u.From ts) : v.From ts :=
  fun t ht => (h t ht).trans hus

/-! ## Declarations -/

/-- The declarations that are read from tokens are made of those tokens. -/
theorem Declaration.from_readAll (ts : List Token) :
    ∀ d ∈ (readAll ts).1, d.MadeOf (·.From ts) := by
  intro d hd
  refine (sound_ofGroups (P := (·.From ts)) (fun g hg => ?_) d hd).2
  exact ComponentValue.from_readAll ts g.value (List.mem_map_of_mem hg)

/-- The tokens of declarations are those of their names and values, and punctuation. -/
theorem Declaration.from_tokensAll {ts : List Token} {ds : List Declaration}
    (h : ∀ d ∈ ds, d.MadeOf (·.From ts)) : ∀ t ∈ tokensAll ds, t.From ts := by
  have hone {d : Declaration} (hd : d.MadeOf (·.From ts)) : ∀ t ∈ d.tokens, t.From ts := by
    intro t ht
    simp only [tokens, List.mem_cons, List.mem_append] at ht
    rcases ht with rfl | rfl | ht | ht
    · exact hd.name _ (.head _)
    · exact .inr .colon
    · exact ComponentValue.from_tokensAll_iff.2 hd.value t ht
    · split at ht
      · exact .inr (.mark ht)
      · cases ht
  fun_induction tokensAll ds with
  | case1 => simp
  | case2 d => exact hone (h d (.head _))
  | case3 d rest _ ih =>
    intro t ht
    rcases List.mem_append.1 ht with ht | ht
    · exact hone (h d (.head _)) t ht
    · rcases List.mem_cons.1 ht with rfl | ht
      · exact .inr .semicolon
      · exact ih (fun e he => h e (.tail _ he)) t ht

/-! ## Rules -/

/-- A rule that is made of the tokens of a list. -/
def Rule.From (ts : List Token) (r : Rule) : Prop := ∀ t ∈ r.tokens, t.From ts

namespace Rule

variable {topLevel : Bool} {ts : List Token}

/-- The rules in a list of values are made of its tokens. -/
theorem from_ofValues {vs : List ComponentValue} (hvs : ∀ v ∈ vs, v.From ts) :
    ∀ r ∈ (ofValues topLevel vs).1, r.From ts := by
  intro r hr t ht
  rw [← tokensAll_values (wellRead_ofValues topLevel vs r hr).comments_eq] at ht
  have hsemicolon : (ComponentValue.token (Token.of .semicolon "")).From ts :=
    ComponentValue.from_token (.inr .semicolon)
  exact ComponentValue.from_tokensAll_iff.2 (forall_values_ofValues hsemicolon hvs r hr) t ht

/-- The rules that are read from tokens are made of those tokens. -/
theorem from_readAll (topLevel : Bool) (ts : List Token) :
    ∀ r ∈ (readAll topLevel ts).1, r.From ts :=
  from_ofValues (ComponentValue.from_readAll ts)

/-- The block of a rule is made of what the rule is made of. -/
theorem From.block {r : Rule} (h : r.From ts) {b : Block} (hb : r.block? = some b) :
    b.value.From ts := by
  intro t ht
  refine h t ?_
  cases r with
  | atRule r =>
    have hb : r.block = some b := hb
    simp only [tokens, AtRule.tokens, hb]
    exact List.mem_append_right _ (.tail _ (List.mem_append_right _ ht))
  | qualified r =>
    obtain rfl : r.block = b := by simpa [block?] using hb
    exact List.mem_append_right _ (List.mem_append_right _ ht)

/-- A rule with another block is made of the rule and the block. -/
theorem From.putBlock {r : Rule} (h : r.From ts) {new : Block} (hnew : new.value.From ts) :
    (r.putBlock new).From ts := by
  intro t ht
  cases r with
  | atRule r =>
    rcases List.mem_append.1 ht with ht | ht
    · exact h t (List.mem_append_left _ ht)
    · rcases List.mem_cons.1 ht with rfl | ht
      · exact h _ (List.mem_append_right _ (.head _))
      · rcases List.mem_append.1 ht with ht | ht
        · exact h t (List.mem_append_right _ (.tail _ (List.mem_append_left _ ht)))
        · exact hnew t ht
  | qualified r =>
    rcases List.mem_append.1 ht with ht | ht
    · exact h t (List.mem_append_left _ ht)
    · rcases List.mem_append.1 ht with ht | ht
      · exact h t (List.mem_append_right _ (List.mem_append_left _ ht))
      · exact hnew t ht

end Rule

/-! ## The gate -/

/-- A judgement that leaves only what has a property. -/
def Judgement.Leaves {α : Type} (P : α → Prop) (node : α) (j : Judgement α) : Prop :=
  ∀ new, j.outcome.survivor node = some new → P new

/-- A rebuilt block is made of its opening token and of the new tokens. -/
theorem Block.from_rebuilt {b : Block} {ts us : List Token} (h : b.value.From ts)
    (hus : ∀ u ∈ us, u.From ts) : (b.rebuilt us).value.From ts :=
  ComponentValue.from_block (ComponentValue.from_contents h).1 fun v hv =>
    (ComponentValue.from_readAll us v hv).trans hus

namespace Policy

variable {p : Policy} {ts : List Token}

/-- The tokens in a block come from where the block does. -/
theorem from_contentTokens {b : Block} (h : b.value.From ts) : ∀ t ∈ b.contentTokens, t.From ts :=
  ComponentValue.from_tokensAll_iff.2 (ComponentValue.from_contents h).2

/-- A block of declarations is kept, or rebuilt from some of them. -/
theorem leaves_judgeDeclarations {b : Block} (h : b.value.From ts) :
    (p.judgeDeclarations b).Leaves (fun c => c.value.From ts) b := by
  intro new hnew
  simp only [judgeDeclarations] at hnew
  split at hnew
  · obtain rfl : b = new := by simpa [Outcome.survivor] using hnew
    exact h
  · obtain rfl : b.rebuilt _ = new := by simpa only [Outcome.survivor, Option.some.injEq] using hnew
    refine Block.from_rebuilt h (Declaration.from_tokensAll fun d hd => ?_)
    have hd := Declaration.from_readAll b.contentTokens d (List.mem_filter.1 hd).1
    exact ⟨hd.name.trans (from_contentTokens h),
      fun v hv => (hd.value v hv).trans (from_contentTokens h)⟩

/-- What is left of a rule whose block was judged is made of what was left of the block. -/
theorem leaves_judgeBlock {r : Rule} {b : Block} {replace : Block → Except NodeError Rule}
    {j : Judgement Block} (h : r.From ts) (hj : j.Leaves (fun c => c.value.From ts) b)
    (hreplace : ∀ new node, replace new = .ok node → node = r.putBlock new) :
    (judgeBlock replace j).Leaves (Rule.From ts) r := by
  intro node hnode
  cases houtcome : j.outcome with
  | removed | kept =>
    simp only [judgeBlock, houtcome, Outcome.survivor, Option.some.injEq] at hnode
    exact hnode ▸ h
  | replaced new =>
    have hnew : new.value.From ts := hj new (by rw [houtcome]; rfl)
    simp only [judgeBlock, houtcome] at hnode
    cases hput : replace new with
    | error e =>
      rw [hput] at hnode
      cases hnode
    | ok other =>
      rw [hput] at hnode
      cases hnode
      rw [hreplace new _ hput]
      exact h.putBlock hnew

/-- So is a style rule, through its block. -/
theorem leaves_judgeStyleRule {r : QualifiedRule} (h : (Rule.qualified r).From ts) :
    (p.judgeStyleRule r).Leaves (Rule.From ts) (.qualified r) := by
  unfold judgeStyleRule
  dsimp only
  split
  · exact fun _ hnew => nomatch hnew
  · refine leaves_judgeBlock h (leaves_judgeDeclarations (h.block rfl)) fun new node hnode => ?_
    unfold QualifiedRule.withBlock at hnode
    split at hnode
    · cases hnode
      rfl
    · cases hnode

/-- Sanitizers that leave of rules only what is made of the tokens of a list. -/
def LeaveFrom (ts : List Token) (sanitizers : List RuleSanitizer) : Prop :=
  ∀ s ∈ sanitizers, ∀ r : Rule, r.From ts → (s.judge r).Leaves (Rule.From ts) r

/-- The rules that are left of a list are made of what the rules of the list are made of. -/
theorem from_of_mem_sanitizeRules {sanitizers : List RuleSanitizer}
    (hsanitizers : LeaveFrom ts sanitizers) {rules : List Rule} (h : ∀ r ∈ rules, r.From ts) :
    ∀ r ∈ (sanitizeRules sanitizers rules).1, r.From ts := by
  intro new hnew
  obtain ⟨⟨r, j⟩, hmem, hsurvivor⟩ := List.mem_filterMap.1 hnew
  obtain ⟨⟨r', a⟩, hzip, heq⟩ := List.mem_map.1 hmem
  cases heq
  obtain ⟨hr, ha⟩ := List.of_mem_zip hzip
  cases a with
  | unrecognized | misordered => cases hsurvivor
  | admitted s => exact hsanitizers s (RuleSanitizer.mem_of_admitted ha) r (h r hr) new hsurvivor

/-- A block of rules is kept, or rebuilt from what is left of them. -/
theorem leaves_judgeRuleBlock {nested : List RuleSanitizer} (hnested : LeaveFrom ts nested)
    {b : Block} (h : b.value.From ts) :
    (judgeRuleBlock nested b).Leaves (fun c => c.value.From ts) b := by
  have hrules : ∀ r ∈ (Rule.readAll false b.contentTokens).1, r.From ts := fun r hr t ht =>
    (Rule.from_readAll false b.contentTokens r hr t ht).trans (from_contentTokens h)
  intro new hnew
  simp only [judgeRuleBlock] at hnew
  split at hnew
  · obtain rfl : b = new := by simpa [Outcome.survivor] using hnew
    exact h
  · obtain rfl : b.rebuilt _ = new := by simpa only [Outcome.survivor, Option.some.injEq] using hnew
    refine Block.from_rebuilt h fun t ht => ?_
    obtain ⟨r, hr, ht⟩ := List.mem_flatMap.1 ht
    exact from_of_mem_sanitizeRules hnested hrules r hr t ht

/-- An at-rule is kept, or gets such a block. -/
theorem leaves_judgeAtRule {nested : List RuleSanitizer} (hnested : LeaveFrom ts nested)
    {shape : BlockShape} {r : AtRule} (h : (Rule.atRule r).From ts) :
    (p.judgeAtRule nested shape r).Leaves (Rule.From ts) (.atRule r) := by
  unfold judgeAtRule
  dsimp only
  split
  · exact fun _ hnew => nomatch hnew
  · split
    · intro new hnew
      cases hnew
      exact h
    · next b hb =>
      refine leaves_judgeBlock (b := b) h ?_ fun new node hnode => ?_
      · have hvalue : b.value.From ts := h.block hb
        cases shape with
        | rules => exact leaves_judgeRuleBlock hnested hvalue
        | declarations | optional => exact leaves_judgeDeclarations hvalue
        | none =>
          intro new hnew
          cases hnew
          exact hvalue
      · simp only [AtRule.withBlock] at hnode
        split at hnode
        · cases hnode
          rfl
        · cases hnode

/-- The sanitizers of style rules put in nothing of their own. -/
theorem leaveFrom_styleSanitizers : LeaveFrom ts p.styleSanitizers := by
  intro s hs r hr
  unfold styleSanitizers at hs
  split at hs
  · obtain rfl := List.mem_singleton.1 hs
    cases r with
    | qualified r => exact leaves_judgeStyleRule hr
    | atRule r => exact fun _ hnew => nomatch hnew
  · cases hs

/-- Nor do all of one level, if those of at-rules do not. -/
theorem leaveFrom_sanitizersOf {levels : Nat} {entries : List AtRulePolicy}
    (h : ∀ entry r, (Rule.atRule r).From ts →
      ((p.atRuleSanitizerAt levels entry).judge (.atRule r)).Leaves (Rule.From ts) (.atRule r)) :
    LeaveFrom ts (entries.map (p.atRuleSanitizerAt levels) ++ p.styleSanitizers) := by
  intro s hs r hr
  rcases List.mem_append.1 hs with hs | hs
  · obtain ⟨entry, -, rfl⟩ := List.mem_map.1 hs
    cases r with
    | atRule r => exact h entry r hr
    | qualified r => cases levels <;> (rw [atRuleSanitizerAt]; exact fun _ hnew => nomatch hnew)
  · exact leaveFrom_styleSanitizers s hs r hr

/-- Those of at-rules do not at any level, by induction on it. -/
theorem leaves_atRuleSanitizerAt (levels : Nat) (entry : AtRulePolicy) {r : AtRule}
    (h : (Rule.atRule r).From ts) :
    ((p.atRuleSanitizerAt levels entry).judge (.atRule r)).Leaves (Rule.From ts) (.atRule r) := by
  induction levels generalizing entry r with
  | zero =>
    rw [atRuleSanitizerAt]
    exact leaves_judgeAtRule leaveFrom_styleSanitizers h
  | succ below ih =>
    rw [atRuleSanitizerAt]
    exact leaves_judgeAtRule (leaveFrom_sanitizersOf fun entry r hr => ih entry hr) h

/-- **The gate makes nothing up.** Every token of the rules that are left of a stylesheet is one of its
tokens or one of those that are put in. -/
theorem from_of_mem_left (p : Policy) (ts : List Token) :
    ∀ r ∈ (sanitizeRules p.sanitizers (Rule.readAll true ts).1).1, r.From ts :=
  from_of_mem_sanitizeRules
    (leaveFrom_sanitizersOf fun entry _ hr => leaves_atRuleSanitizerAt maxGroupRuleDepth entry hr)
    (Rule.from_readAll true ts)

end Policy

end StyleGate
