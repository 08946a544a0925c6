import StyleGate.Proofs.Grouping
import StyleGate.Rule.Reading

/-!
# What a list of rules is made of

`Rule.Laid` is the grammar of a list of rules: rules one after another, and between them values that
are left out. A rule is its head followed by the value that ends it, a block in braces or a semicolon.
Reading follows that grammar: it yields the rules of the list (`Rule.Laid.ofValues`), and whatever it
is given is such a list and, if a diagnostic is recorded, one unfinished rule (`Rule.ofValues_laid`).
So every rule that is read is `Rule.WellRead`, and the values of well-read rules are read as those
rules again.
-/

namespace StyleGate

/-- Whether a value is a block in braces, which ends any rule. -/
def ComponentValue.isBraces : ComponentValue → Bool
  | .block opener _ => opener.kind == .leftBrace
  | _ => false

/-- Whether a qualified rule may start with a value. -/
def ComponentValue.startsQualified (topLevel : Bool) (v : ComponentValue) : Prop :=
  RuleReader.isSkipped topLevel v = false ∧ v.isToken .atKeyword = false

/-- An at-rule as it is read: nothing in its prelude would have ended it. -/
structure AtRule.WellRead (r : AtRule) : Prop where
  comments : r.comments = []
  keyword : r.keyword.kind = .atKeyword
  prelude : ∀ v ∈ r.prelude, v.isBraces = false ∧ v.isToken .semicolon = false
  block : ∀ b, r.block = some b → b.isBraces = true

/-- A qualified rule as it is read: it stands where its first value does, which starts no other sort
of rule. -/
structure QualifiedRule.WellRead (topLevel : Bool) (r : QualifiedRule) : Prop where
  comments : r.comments = []
  prelude : ∀ v ∈ r.prelude, v.isBraces = false
  block : r.block.isBraces = true
  position : r.position = ComponentValue.positionOf (r.prelude ++ [r.block.value])
  start : ∀ v, r.prelude.head? = some v → v.startsQualified topLevel

namespace Rule

/-- A rule as it is read. -/
def WellRead (topLevel : Bool) : Rule → Prop
  | atRule r => r.WellRead
  | qualified r => r.WellRead topLevel

/-- The values of a rule in front of the one that ends it. -/
def head : Rule → List ComponentValue
  | atRule r => .token r.keyword :: r.prelude
  | qualified r => r.prelude

/-- The value that ends a rule where it is written. -/
def ending (r : Rule) : ComponentValue :=
  match r.block? with
  | some b => b.value
  | none => .token (Token.of .semicolon "")

/-- The values of a rule without the semicolon that may end it. -/
def body (r : Rule) : List ComponentValue := r.head ++ r.block?.toList.map Block.value

/-- The values of a rule without comments. -/
def values (r : Rule) : List ComponentValue := r.head ++ [r.ending]

/-- Whether a rule may end with a value: its block, or any semicolon if it has none. -/
def EndsWith (r : Rule) (v : ComponentValue) : Prop :=
  match r.block? with
  | some b => v = b.value
  | none => v.isToken .semicolon = true

/-- A rule ends with its ending. -/
theorem endsWith_ending (r : Rule) : r.EndsWith r.ending := by
  unfold EndsWith ending
  cases r.block? <;> simp [ComponentValue.isToken, Token.of]

/-- A rule that is read has no comments. -/
theorem WellRead.comments_eq {topLevel : Bool} {r : Rule} (h : r.WellRead topLevel) :
    r.comments = [] := by
  cases r with
  | atRule r => exact AtRule.WellRead.comments h
  | qualified r => exact QualifiedRule.WellRead.comments h

/-- The tokens of a rule without comments are those of its values. -/
theorem tokensAll_values {r : Rule} (h : r.comments = []) :
    ComponentValue.tokensAll r.values = r.tokens := by
  cases r with
  | atRule r =>
    have h : r.comments = [] := h
    simp only [values, head, ending, block?, tokens, AtRule.tokens, h, commentTokens]
    cases r.block <;> simp [ComponentValue.tokensAll_append, ComponentValue.tokens, Block.tokens]
  | qualified r =>
    have h : r.comments = [] := h
    simp [values, head, ending, block?, tokens, QualifiedRule.tokens, h, commentTokens,
      ComponentValue.tokensAll_append, Block.tokens]

/-- The tokens of a list of rules without comments are those of their values. -/
theorem tokensAll_flatMap_values {rs : List Rule} (h : ∀ r ∈ rs, r.comments = []) :
    ComponentValue.tokensAll (rs.flatMap values) = tokensAll rs := by
  induction rs with
  | nil => rfl
  | cons r rs ih =>
    have ih := ih fun s hs => h s (.tail _ hs)
    rw [List.flatMap_cons, ComponentValue.tokensAll_append, tokensAll_values (h r (.head _)), ih]
    rfl

/-- A list of values that consists of the given rules and of what is left out between them. -/
inductive Laid (topLevel : Bool) : List ComponentValue → List Rule → Prop
  | nil : Laid topLevel [] []
  | skip {v : ComponentValue} {vs : List ComponentValue} {rs : List Rule} :
      RuleReader.isSkipped topLevel v = true → Laid topLevel vs rs → Laid topLevel (v :: vs) rs
  | rule {r : Rule} {v : ComponentValue} {vs : List ComponentValue} {rs : List Rule} :
      r.WellRead topLevel → r.EndsWith v → Laid topLevel vs rs →
      Laid topLevel (r.head ++ v :: vs) (r :: rs)

namespace Laid

variable {topLevel : Bool} {vs ws : List ComponentValue} {rs ss : List Rule}

/-- Rules that are laid out one after the other are laid out as one list. -/
theorem append (h : Laid topLevel vs rs) (h' : Laid topLevel ws ss) :
    Laid topLevel (vs ++ ws) (rs ++ ss) := by
  induction h with
  | nil => exact h'
  | skip hs _ ih => exact .skip hs ih
  | rule hr he _ ih =>
    rw [List.append_assoc]
    exact .rule hr he ih

/-- The values of well-read rules, one rule after another. -/
theorem flatMap_values (h : ∀ r ∈ rs, r.WellRead topLevel) : Laid topLevel (rs.flatMap values) rs := by
  induction rs with
  | nil => exact .nil
  | cons r rs ih =>
    rw [List.flatMap_cons, values, List.append_assoc]
    exact .rule (h r (.head _)) r.endsWith_ending (ih fun s hs => h s (.tail _ hs))

/-- Rules that are laid out are well read. -/
theorem wellRead (h : Laid topLevel vs rs) : ∀ r ∈ rs, r.WellRead topLevel := by
  induction h with
  | nil => simp
  | skip _ _ ih => exact ih
  | rule hr _ _ ih =>
    rintro r (_ | ⟨_, hmem⟩)
    · exact hr
    · exact ih r hmem

/-- Rules that are laid in values have no other values. -/
theorem forall_body {P : ComponentValue → Prop} (h : Laid topLevel vs rs) (hvs : ∀ v ∈ vs, P v) :
    ∀ r ∈ rs, ∀ v ∈ r.body, P v := by
  induction h with
  | nil => simp
  | skip _ _ ih => exact ih fun w hw => hvs w (.tail _ hw)
  | @rule r v vs rs _ hends _ ih =>
    refine List.forall_mem_cons.2 ⟨fun w hw => ?_,
      ih fun w hw => hvs w (List.mem_append_right _ (.tail _ hw))⟩
    rcases List.mem_append.1 hw with hw | hw
    · exact hvs w (List.mem_append_left _ hw)
    · obtain ⟨b, hb, rfl⟩ := List.mem_map.1 hw
      rw [Option.mem_toList] at hb
      rw [EndsWith, hb] at hends
      exact hends ▸ hvs v (List.mem_append_right _ (.head _))

end Laid

end Rule

/-! ## Reading the values of a rule -/

namespace OpenRule

/-- A value that does not end a rule goes into its prelude. -/
theorem step_of_goesOn {r : OpenRule} {v : ComponentValue} (hb : v.isBraces = false)
    (hs : v.isToken .semicolon = false ∨ r.withoutBlock? = none) : r.step v = .goesOn (r.add v) := by
  cases v with
  | token t =>
    rcases hs with hs | hs
    · simp [step, hs]
    · simp only [step, hs]; split <;> rfl
  | block opener contents =>
    have hb : opener.kind ≠ .leftBrace := by simpa [ComponentValue.isBraces] using hb
    simp [step, hb]
  | function name contents => simp [step, ComponentValue.isToken]

/-- A block in braces ends a rule. -/
theorem step_block {r : OpenRule} {b : Block} (hb : b.isBraces = true) :
    r.step b.value = .ends (r.withBlock b) := by
  have hb : b.opener.kind = .leftBrace := by simpa [Block.isBraces] using hb
  simp [step, Block.value, hb]

/-- A semicolon ends an at-rule. -/
theorem step_semicolon {r : OpenRule} {v : ComponentValue} {rule : Rule}
    (hs : v.isToken .semicolon = true) (hr : r.withoutBlock? = some rule) :
    r.step v = .ends rule := by
  cases v with
  | token t => simp [step, hs, hr]
  | block opener contents => cases hs
  | function name contents => cases hs

/-- Any value but an at-keyword starts a qualified rule. -/
theorem start_eq_qualified {v : ComponentValue} (h : v.isToken .atKeyword = false) :
    start v = .qualified v.position [] := by
  cases v with
  | token t =>
    have ht : t.kind ≠ .atKeyword := by simpa [ComponentValue.isToken] using h
    simp [start, ht, ComponentValue.position]
  | block | function => rfl

/-- The rule with more values in its prelude. -/
def addAll (r : OpenRule) (vs : List ComponentValue) : OpenRule := vs.foldl (fun r v => r.add v) r

@[simp] theorem addAll_atRule (keyword : Token) (before vs : List ComponentValue) :
    (atRule keyword before).addAll vs = atRule keyword (vs.reverse ++ before) := by
  induction vs generalizing before with
  | nil => rfl
  | cons v vs ih => simpa [addAll, add] using ih (v :: before)

@[simp] theorem addAll_qualified (p : Position) (before vs : List ComponentValue) :
    (qualified p before).addAll vs = qualified p (vs.reverse ++ before) := by
  induction vs generalizing before with
  | nil => rfl
  | cons v vs ih => simpa [addAll, add] using ih (v :: before)

/-- Whether a rule may end without a block does not depend on its values. -/
theorem withoutBlock?_add (r : OpenRule) (v : ComponentValue) :
    (r.add v).withoutBlock? = none ↔ r.withoutBlock? = none := by
  cases r <;> simp [add, withoutBlock?]

end OpenRule

namespace RuleReader

/-- Values that do not end the rule go into its prelude. -/
theorem foldl_push_goesOn {topLevel : Bool} (vs : List ComponentValue) {r : OpenRule}
    (done : List Rule) (h : ∀ v ∈ vs, v.isBraces = false ∧
      (v.isToken .semicolon = false ∨ r.withoutBlock? = none)) :
    vs.foldl (push topLevel) { done, current := some r } =
      { done, current := some (r.addAll vs) } := by
  induction vs generalizing r with
  | nil => rfl
  | cons v vs ih =>
    obtain ⟨hb, hs⟩ := h v (.head _)
    have hpush : push topLevel { done, current := some r } v =
        { done, current := some (r.add v) } := by
      simp [push, goOn, OpenRule.step_of_goesOn hb hs]
    rw [List.foldl_cons, hpush, ih fun w hw => ?_]
    · rfl
    · rw [OpenRule.withoutBlock?_add]
      exact h w (.tail _ hw)

/-- The values of an at-rule are read as that rule. -/
theorem foldl_push_atRule {topLevel : Bool} {r : AtRule} {v : ComponentValue} (done : List Rule)
    (h : r.WellRead) (hv : (Rule.atRule r).EndsWith v) :
    ((Rule.atRule r).head ++ [v]).foldl (push topLevel) { done, current := none } =
      { done := .atRule r :: done, current := none } := by
  obtain ⟨hcomments, hkeyword, hprelude, hblock⟩ := h
  have hstart : push topLevel { done, current := none } (.token r.keyword) =
      { done, current := some (.atRule r.keyword []) } := by
    simp [push, isSkipped, ComponentValue.isWhitespace, ComponentValue.isToken, OpenRule.start,
      hkeyword]
  simp only [Rule.head, List.foldl_append, List.foldl_cons, List.foldl_nil]
  rw [hstart,
    foldl_push_goesOn r.prelude done fun w hw => ⟨(hprelude w hw).1, .inl (hprelude w hw).2⟩]
  obtain ⟨comments, keyword, prelude, block⟩ := r
  obtain rfl : comments = [] := hcomments
  cases block with
  | none =>
    have hstep := OpenRule.step_semicolon (r := .atRule keyword prelude.reverse) hv rfl
    simp [push, goOn, hstep]
  | some b =>
    obtain rfl : v = b.value := hv
    simp [push, goOn, OpenRule.step_block (hblock b rfl), OpenRule.withBlock]

/-- Those of a qualified rule are read as it. -/
theorem foldl_push_qualified {topLevel : Bool} {r : QualifiedRule} (done : List Rule)
    (h : r.WellRead topLevel) :
    ((Rule.qualified r).head ++ [r.block.value]).foldl (push topLevel) { done, current := none } =
      { done := .qualified r :: done, current := none } := by
  obtain ⟨hcomments, hprelude, hblock, hposition, hstart⟩ := h
  obtain ⟨comments, position, prelude, block⟩ := r
  obtain rfl : comments = [] := hcomments
  -- the first value takes two steps at once: it starts the rule and goes into its prelude, or ends it
  cases prelude with
  | nil =>
    obtain rfl : position = block.opener.position := hposition
    simp [push, goOn, Rule.head, isSkipped, ComponentValue.isWhitespace, Block.value,
      ComponentValue.isToken, OpenRule.start, OpenRule.step, ComponentValue.position,
      OpenRule.withBlock, (by simpa [Block.isBraces] using hblock : block.opener.kind = .leftBrace)]
  | cons first prelude =>
    obtain rfl : position = first.position := hposition
    obtain ⟨hskip, hkey⟩ := hstart first rfl
    have hfirst : push topLevel { done, current := none } first =
        { done, current := some (.qualified first.position [first]) } := by
      have hstep := OpenRule.step_of_goesOn (r := .qualified first.position [])
        (hprelude first (.head _)) (.inr rfl)
      simp [push, hskip, hkey, goOn, OpenRule.start_eq_qualified hkey, hstep, OpenRule.add]
    simp only [Rule.head, List.foldl_append, List.foldl_cons, List.foldl_nil]
    rw [hfirst, foldl_push_goesOn prelude done fun w hw => ⟨hprelude w (.tail _ hw), .inr rfl⟩]
    simp [push, goOn, OpenRule.step_block hblock, OpenRule.withBlock]

/-- The values of a rule are read as that rule. -/
theorem foldl_push_rule {topLevel : Bool} {r : Rule} {v : ComponentValue} (done : List Rule)
    (h : r.WellRead topLevel) (hv : r.EndsWith v) :
    (r.head ++ [v]).foldl (push topLevel) { done, current := none } =
      { done := r :: done, current := none } := by
  cases r with
  | atRule r => exact foldl_push_atRule done h hv
  | qualified r =>
    obtain rfl : v = r.block.value := hv
    exact foldl_push_qualified done h

end RuleReader

/-- A list of rules is read as those rules. -/
theorem Rule.Laid.foldl_push {topLevel : Bool} {vs : List ComponentValue} {rs : List Rule}
    (h : Rule.Laid topLevel vs rs) (done : List Rule) :
    vs.foldl (RuleReader.push topLevel) { done, current := none } =
      { done := rs.reverse ++ done, current := none } := by
  induction h generalizing done with
  | nil => rfl
  | skip hs _ ih => simpa [RuleReader.push, hs] using ih done
  | @rule r v vs rs hr he _ ih =>
    rw [show r.head ++ v :: vs = (r.head ++ [v]) ++ vs by simp, List.foldl_append,
      RuleReader.foldl_push_rule done hr he, ih (r :: done)]
    simp

/-- A list of rules is read as those rules, without a diagnostic. -/
theorem Rule.Laid.ofValues {topLevel : Bool} {vs : List ComponentValue} {rs : List Rule}
    (h : Rule.Laid topLevel vs rs) : Rule.ofValues topLevel vs = (rs, []) := by
  have hfold := h.foldl_push []
  rw [Rule.ofValues, show ({} : RuleReader) = { done := [], current := none } from rfl, hfold]
  simp [RuleReader.finish]

/-! ## What is read is a list of rules -/

namespace OpenRule

/-- The values of a started rule. -/
def values : OpenRule → List ComponentValue
  | atRule keyword before => .token keyword :: before.reverse
  | qualified _ before => before.reverse

/-- A started rule in front of a value that is to be read as a part of it. -/
def ReadyFor (topLevel : Bool) (v : ComponentValue) : OpenRule → Prop
  | atRule keyword before =>
    keyword.kind = .atKeyword ∧ ∀ w ∈ before, w.isBraces = false ∧ w.isToken .semicolon = false
  | qualified position before =>
    (∀ w ∈ before, w.isBraces = false) ∧
      position = ComponentValue.positionOf (before.reverse ++ [v]) ∧
      ∀ w, (before.reverse ++ [v]).head? = some w → w.startsQualified topLevel

/-- A started rule of which something was read. -/
def Started (topLevel : Bool) (r : OpenRule) : Prop :=
  r.values ≠ [] ∧ ∀ v, r.ReadyFor topLevel v

section Step

variable {topLevel : Bool} {r : OpenRule} {v : ComponentValue}

/-- A value is put behind those of a started rule. -/
theorem values_add (r : OpenRule) (v : ComponentValue) : (r.add v).values = r.values ++ [v] := by
  cases r <;> simp [add, values]

/-- A block in braces makes a rule of a started one. -/
theorem wellRead_withBlock {b : Block} (h : r.ReadyFor topLevel b.value) (hb : b.isBraces = true) :
    (r.withBlock b).WellRead topLevel := by
  cases r with
  | atRule keyword before =>
    refine AtRule.WellRead.mk rfl h.1 (fun w hw => h.2 w (List.mem_reverse.1 hw)) ?_
    rintro _ ⟨⟩
    exact hb
  | qualified position before =>
    obtain ⟨hbefore, hposition, hstart⟩ := h
    refine QualifiedRule.WellRead.mk rfl (fun w hw => hbefore w (List.mem_reverse.1 hw)) hb
      hposition fun w hw => hstart w ?_
    rw [List.head?_append, show before.reverse.head? = some w from hw]
    rfl

/-- A started rule goes on with a value that does not end it. -/
theorem started_add (h : r.ReadyFor topLevel v) (hb : v.isBraces = false)
    (hs : v.isToken .semicolon = false ∨ r.withoutBlock? = none) : (r.add v).Started topLevel := by
  refine ⟨by rw [values_add]; simp, fun w => ?_⟩
  cases r with
  | atRule keyword before =>
    refine ⟨h.1, List.forall_mem_cons.2 ⟨⟨hb, ?_⟩, h.2⟩⟩
    exact hs.resolve_right (by rintro ⟨⟩)
  | qualified position before =>
    obtain ⟨hbefore, hposition, hstart⟩ := h
    -- the first value stays the first one, whatever comes behind it
    obtain ⟨first, rest, heq⟩ :=
      List.exists_cons_of_ne_nil (show before.reverse ++ [v] ≠ [] by simp)
    rw [heq] at hposition hstart
    refine ⟨List.forall_mem_cons.2 ⟨hb, hbefore⟩, ?_, ?_⟩
    · rw [List.reverse_cons, heq]; exact hposition
    · rw [List.reverse_cons, heq]; exact hstart

/-- What a value makes of a started rule. -/
theorem step_cases (h : r.ReadyFor topLevel v) :
    (∃ rule, r.step v = .ends rule ∧ rule.WellRead topLevel ∧ rule.head = r.values ∧
      rule.EndsWith v) ∨
    (r.step v = .goesOn (r.add v) ∧ (r.add v).values = r.values ++ [v] ∧
      (r.add v).Started topLevel) := by
  by_cases hb : v.isBraces = true
  · obtain ⟨b, rfl, hb⟩ : ∃ b : Block, v = b.value ∧ b.isBraces = true := by
      cases v with
      | block opener contents => exact ⟨{ opener, contents }, rfl, hb⟩
      | token | function => cases hb
    refine .inl ⟨r.withBlock b, step_block hb, wellRead_withBlock h hb, ?_, ?_⟩
    · cases r <;> rfl
    · cases r <;> rfl
  have hb : v.isBraces = false := Bool.eq_false_iff.2 hb
  by_cases hs : v.isToken .semicolon = false ∨ r.withoutBlock? = none
  · exact .inr ⟨step_of_goesOn hb hs, values_add r v, started_add h hb hs⟩
  · obtain ⟨hsemicolon, hr⟩ := not_or.1 hs
    have hsemicolon : v.isToken .semicolon = true := by simpa using hsemicolon
    cases r with
    | qualified position before => exact absurd rfl hr
    | atRule keyword before =>
      refine .inl ⟨_, step_semicolon (r := .atRule keyword before) hsemicolon rfl, ?_, rfl,
        hsemicolon⟩
      exact AtRule.WellRead.mk rfl h.1 (fun w hw => h.2 w (List.mem_reverse.1 hw)) (by rintro _ ⟨⟩)

end Step

/-- The start of a rule is ready for its first value. -/
theorem readyFor_start {topLevel : Bool} {v : ComponentValue} (h : v.startsQualified topLevel) :
    (start v).ReadyFor topLevel v ∧ (start v).values = [] := by
  rw [start_eq_qualified h.2]
  refine ⟨⟨fun w hw => absurd hw List.not_mem_nil, rfl, ?_⟩, rfl⟩
  rintro w ⟨⟩
  exact h

end OpenRule

/-- What was read so far are the finished rules and the values of a started one. -/
structure RuleReader.Follows (topLevel : Bool) (vs : List ComponentValue) (s : RuleReader) : Prop where
  split : ∃ body part, vs = body ++ part ∧ Rule.Laid topLevel body s.done.reverse ∧
    part = (s.current.map OpenRule.values).getD []
  started : ∀ r, s.current = some r → r.Started topLevel

namespace RuleReader

variable {topLevel : Bool} {s : RuleReader} {vs body : List ComponentValue} {v : ComponentValue}

/-- A value that goes to a started rule is accounted for. -/
theorem Follows.goOn {r : OpenRule} (hbody : Rule.Laid topLevel body s.done.reverse)
    (hr : r.ReadyFor topLevel v) : (s.goOn r v).Follows topLevel (body ++ r.values ++ [v]) := by
  rcases OpenRule.step_cases hr with ⟨rule, hstep, hrule, hhead, hends⟩ | ⟨hstep, hvalues, hstarted⟩
  · simp only [RuleReader.goOn, hstep]
    refine ⟨⟨body ++ r.values ++ [v], [], by simp, ?_, rfl⟩, nofun⟩
    rw [List.reverse_cons, List.append_assoc, ← hhead]
    exact hbody.append (.rule hrule hends .nil)
  · simp only [RuleReader.goOn, hstep]
    refine ⟨⟨body, r.values ++ [v], by simp, hbody, hvalues.symm⟩, ?_⟩
    rintro _ ⟨⟩
    exact hstarted

/-- Every value is accounted for. -/
theorem Follows.push (h : s.Follows topLevel vs) (v : ComponentValue) :
    (s.push topLevel v).Follows topLevel (vs ++ [v]) := by
  obtain ⟨⟨body, part, rfl, hbody, rfl⟩, hstarted⟩ := h
  unfold RuleReader.push
  split
  · next r hr =>
    rw [hr]
    exact Follows.goOn hbody ((hstarted r hr).2 v)
  · next hr =>
    simp only [hr, Option.map_none, Option.getD_none, List.append_nil]
    split
    · next hs =>
      refine ⟨⟨body ++ [v], [], by simp, ?_, by rw [hr]; rfl⟩, hstarted⟩
      simpa using hbody.append (.skip hs .nil)
    · next hs =>
      split
      · next hk =>
        obtain ⟨t, rfl, ht⟩ := ComponentValue.isToken_iff.1 hk
        refine ⟨⟨body, [.token t], rfl, hbody, by simp [OpenRule.start, ht, OpenRule.values]⟩, ?_⟩
        rintro _ ⟨⟩
        simp only [OpenRule.start, ht, if_true]
        exact ⟨List.cons_ne_nil _ _, fun _ => ⟨ht, fun w hw => absurd hw List.not_mem_nil⟩⟩
      · next hk =>
        obtain ⟨hready, hvalues⟩ := OpenRule.readyFor_start (v := v)
          ⟨Bool.eq_false_iff.2 hs, Bool.eq_false_iff.2 hk⟩
        simpa [hvalues] using Follows.goOn hbody hready

/-- So are all values of a list. -/
theorem Follows.foldl_push (ws : List ComponentValue) (h : s.Follows topLevel vs) :
    (ws.foldl (RuleReader.push topLevel) s).Follows topLevel (vs ++ ws) := by
  induction ws generalizing s vs with
  | nil => simpa using h
  | cons w ws ih => simpa using ih (h.push w)

end RuleReader

/-- Any values are a list of rules, which are read without a diagnostic, or such a list and a started
rule, which is recorded. -/
theorem Rule.ofValues_laid (topLevel : Bool) (vs : List ComponentValue) :
    ∃ body rs, Rule.Laid topLevel body rs ∧
      ((vs = body ∧ Rule.ofValues topLevel vs = (rs, [])) ∨
        ∃ r : OpenRule, r.Started topLevel ∧ vs = body ++ r.values ∧
          Rule.ofValues topLevel vs = (rs ++ r.withoutBlock?.toList, [r.unfinished])) := by
  have hinit : ({} : RuleReader).Follows topLevel [] := ⟨⟨[], [], rfl, .nil, rfl⟩, nofun⟩
  obtain ⟨⟨body, part, hvs, hbody, hpart⟩, hstarted⟩ := hinit.foldl_push vs
  refine ⟨body, _, hbody, ?_⟩
  rw [List.nil_append] at hvs
  rw [Rule.ofValues, RuleReader.finish]
  split
  · next hcurrent => exact .inl ⟨by simpa [hpart, hcurrent] using hvs, rfl⟩
  · next r hcurrent =>
    refine .inr ⟨r, hstarted r hcurrent, by simpa [hpart, hcurrent] using hvs, ?_⟩
    cases r <;> simp [OpenRule.withoutBlock?]

/-- Values that are read without a diagnostic are a list of the rules that are read. -/
theorem Rule.laid_of_errors_eq_nil {topLevel : Bool} {vs : List ComponentValue}
    (h : (Rule.ofValues topLevel vs).2 = []) : Rule.Laid topLevel vs (Rule.ofValues topLevel vs).1 := by
  obtain ⟨body, rs, hlaid, ⟨rfl, heq⟩ | ⟨r, -, -, heq⟩⟩ := Rule.ofValues_laid topLevel vs
  · rwa [heq]
  · rw [heq] at h
    cases h

/-- A started at-rule that ends without a block is well read. -/
theorem OpenRule.Started.wellRead {topLevel : Bool} {r : OpenRule} (h : r.Started topLevel) :
    ∀ rule ∈ r.withoutBlock?, rule.WellRead topLevel := by
  cases r with
  | qualified position before => rintro _ ⟨⟩
  | atRule keyword before =>
    rintro _ ⟨⟩
    obtain ⟨hk, hbefore⟩ := h.2 default
    exact AtRule.WellRead.mk rfl hk (fun w hw => hbefore w (List.mem_reverse.1 hw)) nofun

/-- Every rule that is read is well read. -/
theorem Rule.wellRead_ofValues (topLevel : Bool) (vs : List ComponentValue) :
    ∀ r ∈ (Rule.ofValues topLevel vs).1, r.WellRead topLevel := by
  obtain ⟨body, rs, hlaid, ⟨-, heq⟩ | ⟨r, hstarted, -, heq⟩⟩ := Rule.ofValues_laid topLevel vs
  · rw [heq]; exact hlaid.wellRead
  · rw [heq]
    intro rule hrule
    rcases List.mem_append.1 hrule with hrule | hrule
    · exact hlaid.wellRead rule hrule
    · exact hstarted.wellRead rule (Option.mem_toList.1 hrule)

/-- The rules that are read from values have no other values. -/
theorem Rule.forall_body_ofValues {P : ComponentValue → Prop} {topLevel : Bool}
    {vs : List ComponentValue} (hvs : ∀ v ∈ vs, P v) :
    ∀ r ∈ (Rule.ofValues topLevel vs).1, ∀ v ∈ r.body, P v := by
  obtain ⟨body, rs, hlaid, ⟨rfl, heq⟩ | ⟨r, -, rfl, heq⟩⟩ := Rule.ofValues_laid topLevel vs
  · rw [heq]
    exact hlaid.forall_body hvs
  · rw [heq]
    intro s hs
    rcases List.mem_append.1 hs with hs | hs
    · exact hlaid.forall_body (fun v hv => hvs v (List.mem_append_left _ hv)) s hs
    · have hs := Option.mem_toList.1 hs
      cases r with
      | qualified position before => cases hs
      | atRule keyword before =>
        cases hs
        intro v hv
        rw [Rule.body, block?, Option.toList_none, List.map_nil, List.append_nil] at hv
        exact hvs v (List.mem_append_right _ hv)

/-- The values of a rule are those of its body, but for a semicolon. -/
theorem Rule.forall_values_ofValues {P : ComponentValue → Prop} {topLevel : Bool}
    {vs : List ComponentValue} (hsemicolon : P (.token (Token.of .semicolon "")))
    (hvs : ∀ v ∈ vs, P v) : ∀ r ∈ (Rule.ofValues topLevel vs).1, ∀ v ∈ r.values, P v := by
  intro r hr v hv
  have hbody := forall_body_ofValues hvs r hr
  rcases List.mem_append.1 hv with hv | hv
  · exact hbody v (List.mem_append_left _ hv)
  · obtain rfl := List.mem_singleton.1 hv
    unfold ending
    split
    · next b hb => exact hbody _ (List.mem_append_right _ (by rw [hb]; exact .head _))
    · exact hsemicolon

end StyleGate
