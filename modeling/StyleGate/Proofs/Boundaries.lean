import StyleGate.Parser
import StyleGate.Proofs.Lossless
import StyleGate.Proofs.Rules

/-!
# Reading rules loses nothing

Where rules begin and end among tokens is a matter of the tokens alone. A `RulePlace` is what has to be
known of the tokens in front of the next one: whether a rule was started, of which sort it is, and
which groups are open in it. At each place a token is left out or kept (`RulePlace.keptAll`), and only
whitespace and the marks `<!--` and `-->` are ever left out, where the next rule is looked for.

If nothing is reported, the tokens of the rules that are read are the tokens that are kept
(`Parser.tokensAll_rules`). Inside a group a value gives back its own tokens and leaves the place
as it was (`RulePlace.passes_inside`), so a rule gives back its own up to the value that ends it
(`RulePlace.keptAll_rule`), and the rules one after another theirs (`Rule.Laid.keptAll`).
-/

namespace StyleGate

open ComponentValue (groupEnd tokensAll)

/-! ## Open groups -/

namespace Token

variable {openers : List Token} {t opener : Token}

/-- Behind a token that ends no group around it and opens none the same groups are open. -/
theorem openAfter_of_stays (hends : endsGroup openers t = false) (hopens : t.kind.opensGroup = false) :
    openAfter openers t = openers := by
  rw [openAfter, hends, hopens]
  rfl

/-- Behind a token that is no bracket and no function the same groups are open. -/
theorem openAfter_of_plain (hopens : t.kind.opensGroup = false) (hcloses : t.kind.closesGroup = false) :
    openAfter openers t = openers := by
  refine openAfter_of_stays (Bool.eq_false_iff.2 fun hends => ?_) hopens
  rw [closesGroup_of_endsGroup hends] at hcloses
  cases hcloses

/-- A group is ended by its closing token. -/
theorem endsGroup_groupEnd (h : opener.kind.opensGroup = true) (openers : List Token) :
    endsGroup (opener :: openers) (groupEnd opener) = true := by
  simp [endsGroup, ComponentValue.closer?_eq_groupEnd h]

/-- Its closing token ends the innermost group. -/
theorem openAfter_groupEnd (h : opener.kind.opensGroup = true) (openers : List Token) :
    openAfter (opener :: openers) (groupEnd opener) = openers := by
  rw [openAfter, endsGroup_groupEnd h]
  rfl

end Token

/-- A group is in braces if its opening token is one. -/
theorem OpenGroup.isBraces_close (g : OpenGroup) :
    g.close.isBraces = (g.opener.kind == .leftBrace) := by
  unfold close
  split
  · next hname =>
    rw [hname]
    rfl
  · rfl

/-! ## Places -/

/-- A place in a list of tokens that is read as rules. -/
inductive RulePlace where
  /-- Outside of all rules, where the next one is looked for. -/
  | between
  /-- In an at-rule or in a qualified rule, inside the groups of some opening tokens, the innermost
  first. -/
  | inside (atRule : Bool) (openers : List Token)

namespace RulePlace

/-- The opening tokens of the groups around a place. -/
def openers : RulePlace → List Token
  | between => []
  | inside _ openers => openers

/-- Whether tokens of a kind are left out at a place. -/
def omits (topLevel : Bool) : RulePlace → TokenKind → Bool
  | between, kind => kind == .whitespace || (topLevel && (kind == .cdo || kind == .cdc))
  | inside _ _, _ => false

/-- Whether a token of a kind ends the rule around it: a closing brace where only a block in braces is
open, and in an at-rule a semicolon where no group is. -/
def endsRule : RulePlace → TokenKind → Bool
  | inside atRule [], kind => atRule && kind == .semicolon
  | inside _ [opener], kind => opener.kind == .leftBrace && kind == .rightBrace
  | _, _ => false

/-- The place behind a token. -/
def after (topLevel : Bool) (place : RulePlace) (t : Token) : RulePlace :=
  if place.omits topLevel t.kind || place.endsRule t.kind then between
  else match place with
    | between => inside (t.kind == .atKeyword) (Token.openAfter [] t)
    | inside atRule openers => inside atRule (Token.openAfter openers t)

/-- A token as it is kept at a place. One that ends a group or a rule is known by its kind only. -/
def settled (place : RulePlace) (t : Token) : Token :=
  if place.endsRule t.kind || Token.endsGroup place.openers t then { kind := t.kind } else t

/-- What is kept of tokens behind a place. -/
def keptAll (topLevel : Bool) (place : RulePlace) : List Token → List Token
  | [] => []
  | t :: ts =>
    (if place.omits topLevel t.kind then [] else [place.settled t]) ++
      keptAll topLevel (place.after topLevel t) ts

variable {topLevel atRule : Bool} {place : RulePlace} {kind : TokenKind} {t : Token}
  {v : ComponentValue}

/-- Only whitespace and the marks that hide a stylesheet are left out, and they are so between
rules. -/
theorem omits_iff : place.omits topLevel kind = true ↔
    place = between ∧ (kind = .whitespace ∨ topLevel = true ∧ (kind = .cdo ∨ kind = .cdc)) := by
  cases place <;> simp [omits]

/-- What is left out opens no group and closes none. -/
theorem plain_of_omits (h : place.omits topLevel kind = true) :
    kind.opensGroup = false ∧ kind.closesGroup = false := by
  obtain ⟨-, hkind⟩ := omits_iff.1 h
  rcases hkind with rfl | ⟨-, rfl | rfl⟩ <;> exact ⟨rfl, rfl⟩

/-- A rule ends at a semicolon outside of all groups, or where its block in braces is closed. -/
theorem endsRule_cases (h : place.endsRule kind = true) :
    place = inside true [] ∧ kind = .semicolon ∨
      ∃ atRule opener, place = inside atRule [opener] ∧ opener.kind = .leftBrace ∧
        kind = .rightBrace := by
  unfold endsRule at h
  split at h
  · exact .inl (by simpa using h)
  · next opener => exact .inr ⟨_, opener, rfl, by simpa using h⟩
  · cases h

/-- A rule that ends inside a group ends with that group. -/
theorem endsGroup_of_endsRule {opener : Token} {outer : List Token}
    (h : (inside atRule (opener :: outer)).endsRule t.kind = true) :
    Token.endsGroup (opener :: outer) t = true := by
  rcases endsRule_cases h with ⟨heq, -⟩ | ⟨_, _, heq, hopener, hkind⟩
  · cases heq
  · cases heq
    simp [Token.endsGroup, hopener, hkind, TokenKind.closer?, TokenKind.bracketCloser?]

/-- Groups are opened and closed whatever is left out and wherever rules end. -/
theorem openers_after (topLevel : Bool) (place : RulePlace) (t : Token) :
    (place.after topLevel t).openers = Token.openAfter place.openers t := by
  unfold after
  split
  · next h =>
    rcases Bool.or_eq_true_iff.1 h with homits | hends
    · obtain ⟨rfl, -⟩ := omits_iff.1 homits
      obtain ⟨hopens, hcloses⟩ := plain_of_omits homits
      exact (Token.openAfter_of_plain hopens hcloses).symm
    · rcases endsRule_cases hends with ⟨rfl, hkind⟩ | ⟨_, opener, rfl, -⟩
      · exact (Token.openAfter_of_plain (by rw [hkind]; rfl) (by rw [hkind]; rfl)).symm
      · exact (if_pos (endsGroup_of_endsRule hends)).symm
  · cases place <;> rfl

/-! ## Tokens that are known by their kinds -/

/-- Which tokens are kept does not depend on what is known of the tokens that end groups. -/
theorem keptAll_settledAll (topLevel : Bool) (place : RulePlace) (ts : List Token) :
    keptAll topLevel place (Token.settledAll place.openers ts) = keptAll topLevel place ts := by
  induction ts generalizing place with
  | nil => rfl
  | cons t ts ih =>
    rw [Token.settledAll, ← openers_after topLevel]
    cases hends : Token.endsGroup place.openers t with
    | false => rw [if_neg Bool.false_ne_true, keptAll, keptAll, ih]
    | true =>
      have hsettled : Token.endsGroup place.openers { kind := t.kind } = true := hends
      have hopen : Token.openAfter place.openers { kind := t.kind } =
          Token.openAfter place.openers t := by
        rw [Token.openAfter, if_pos hsettled, Token.openAfter, if_pos hends]
      have hafter : place.after topLevel { kind := t.kind } = place.after topLevel t := by
        cases place with
        | between => cases hends
        | inside atRule openers =>
          have hopen : Token.openAfter openers { kind := t.kind } = Token.openAfter openers t := hopen
          rw [after, after, hopen]
      rw [if_pos rfl, keptAll, keptAll, hafter, ih, settled, settled, hends, hsettled, Bool.or_true]
      rfl

/-! ## Values -/

/-- A value that is kept as it is at a place and leaves the place as it was. -/
def Passes (topLevel : Bool) (place : RulePlace) (v : ComponentValue) : Prop :=
  ∀ ts, keptAll topLevel place (v.tokens ++ ts) = v.tokens ++ keptAll topLevel place ts

/-- Values that are kept one by one are kept as a list. -/
theorem keptAll_tokensAll {vs : List ComponentValue} (h : ∀ v ∈ vs, Passes topLevel place v)
    (ts : List Token) : keptAll topLevel place (tokensAll vs ++ ts) =
      tokensAll vs ++ keptAll topLevel place ts := by
  induction vs with
  | nil => rfl
  | cons v vs ih =>
    rw [ComponentValue.tokensAll_cons, List.append_assoc, List.append_assoc, h v (.head _),
      ih fun w hw => h w (.tail _ hw)]

/-- A token that ends neither a group nor a rule is kept as it is. -/
theorem keptAll_inside_cons {openers ts : List Token} (hgroup : Token.endsGroup openers t = false)
    (hrule : (inside atRule openers).endsRule t.kind = false) :
    keptAll topLevel (inside atRule openers) (t :: ts) =
      t :: keptAll topLevel (inside atRule (Token.openAfter openers t)) ts := by
  have hafter : (inside atRule openers).after topLevel t =
      inside atRule (Token.openAfter openers t) := by
    rw [after, omits, hrule]
    rfl
  have hsettled : (inside atRule openers).settled t = t := by
    rw [settled, hrule, RulePlace.openers, hgroup]
    rfl
  rw [keptAll, hafter, hsettled, omits]
  rfl

/-- A group whose contents pass is kept as it is. Behind it is the place behind its closing token. -/
theorem keptAll_close {g : OpenGroup} {openers : List Token} (hopens : g.opener.kind.opensGroup = true)
    (hcontents : ∀ v ∈ g.contents, Passes topLevel (inside atRule (g.opener :: openers)) v)
    (ts : List Token) :
    keptAll topLevel (inside atRule openers) (g.close.tokens ++ ts) = g.close.tokens ++
      keptAll topLevel ((inside atRule (g.opener :: openers)).after topLevel (groupEnd g.opener)) ts := by
  have hgroup : Token.endsGroup openers g.opener = false := Token.endsGroup_of_opensGroup hopens
  have hrule : (inside atRule openers).endsRule g.opener.kind = false := by
    refine Bool.eq_false_iff.2 fun hends => ?_
    rcases endsRule_cases hends with ⟨-, hkind⟩ | ⟨_, _, -, -, hkind⟩ <;>
      rw [hkind] at hopens <;> cases hopens
  have hopen : Token.openAfter openers g.opener = g.opener :: openers := by
    rw [Token.openAfter, hgroup, hopens]
    rfl
  have hcontents : ∀ v ∈ g.contents.reverse,
      Passes topLevel (inside atRule (g.opener :: openers)) v :=
    fun v hv => hcontents v (List.mem_reverse.1 hv)
  have hend : (inside atRule (g.opener :: openers)).settled (groupEnd g.opener) =
      groupEnd g.opener := by
    rw [settled, RulePlace.openers, Token.endsGroup_groupEnd hopens, Bool.or_true, if_pos rfl]
    exact (ComponentValue.groupEnd_eq (ComponentValue.closer?_eq_groupEnd hopens)).symm
  rw [OpenGroup.tokens_close, OpenGroup.laidOut, List.append_assoc, List.cons_append,
    keptAll_inside_cons hgroup hrule, hopen, keptAll_tokensAll hcontents, List.singleton_append, keptAll,
    hend, omits]
  simp

/-- Inside a group every value that is found there passes. -/
theorem passes_inside {depth : Nat} {closer : Option TokenKind} (h : v.Regular depth closer) :
    ∀ opener outer, opener.kind.closer? = closer →
      Passes topLevel (inside atRule (opener :: outer)) v := by
  refine ComponentValue.Regular.induction ?token ?group h
  case token =>
    rintro depth closer t hopens hcloser opener outer rfl ts
    have hgroup : Token.endsGroup (opener :: outer) t = false := by simpa [Token.endsGroup] using hcloser
    have hrule : (inside atRule (opener :: outer)).endsRule t.kind = false := by
      refine Bool.eq_false_iff.2 fun hends => ?_
      rw [endsGroup_of_endsRule hends] at hgroup
      cases hgroup
    rw [ComponentValue.tokens, List.singleton_append, keptAll_inside_cons hgroup hrule,
      Token.openAfter_of_stays hgroup hopens]
    rfl
  case group =>
    rintro depth closer g hopens - ih opener outer - ts
    have hclosed : (inside atRule (g.opener :: opener :: outer)).after topLevel (groupEnd g.opener) =
        inside atRule (opener :: outer) := by
      rw [after, Token.openAfter_groupEnd hopens]
      rfl
    rw [keptAll_close hopens (fun w hw => ih w hw g.opener (opener :: outer) rfl), hclosed]

/-- A rule ends at a block in braces outside of all groups. Other values pass there, but for a
semicolon in an at-rule. -/
theorem keptAll_outside (h : v.Regular 0 none)
    (hsemicolon : atRule = false ∨ v.isToken .semicolon = false) (ts : List Token) :
    keptAll topLevel (inside atRule []) (v.tokens ++ ts) =
      v.tokens ++ keptAll topLevel (if v.isBraces then between else inside atRule []) ts := by
  rcases h.token_or_group with ⟨t, rfl, hopens⟩ | ⟨g, rfl, hopens, hcontents⟩
  · have hrule : (inside atRule []).endsRule t.kind = false := by
      rcases hsemicolon with rfl | hkind
      · rfl
      · rw [endsRule, show (t.kind == .semicolon) = false from hkind, Bool.and_false]
    rw [ComponentValue.tokens, List.singleton_append, keptAll_inside_cons rfl hrule,
      Token.openAfter_of_stays rfl hopens]
    rfl
  · have hclosed : (inside atRule [g.opener]).after topLevel (groupEnd g.opener) =
        if g.close.isBraces then between else inside atRule [] := by
      have hrule : (inside atRule [g.opener]).endsRule (groupEnd g.opener).kind = g.close.isBraces := by
        rw [endsRule, OpenGroup.isBraces_close]
        cases hkind : g.opener.kind == .leftBrace with
        | false => rfl
        | true =>
          have hcloser := ComponentValue.closer?_eq_groupEnd hopens
          rw [beq_iff_eq.1 hkind] at hcloser
          rw [← Option.some.inj hcloser]
          rfl
      rw [after, hrule, Token.openAfter_groupEnd hopens]
      rfl
    rw [keptAll_close hopens (fun w hw => passes_inside (hcontents w hw) g.opener [] rfl), hclosed]

/-- An at-rule ends at a semicolon outside of all groups. -/
theorem keptAll_semicolon {t : Token} (h : t.kind = .semicolon) (ts : List Token) :
    keptAll topLevel (inside true []) (t :: ts) =
      Token.of .semicolon "" :: keptAll topLevel between ts := by
  have hrule : (inside true []).endsRule t.kind = true := by
    rw [h]
    rfl
  rw [keptAll, after, settled, hrule, Bool.or_true, h]
  rfl

/-- A token that is not left out starts a rule. -/
theorem keptAll_between_cons {t : Token} (h : between.omits topLevel t.kind = false)
    (ts : List Token) : keptAll topLevel between (t :: ts) =
      t :: keptAll topLevel (inside (t.kind == .atKeyword) (Token.openAfter [] t)) ts := by
  rw [keptAll, after, h]
  rfl

/-- A value that starts a qualified rule is a part of it. -/
theorem keptAll_between (h : v.Regular 0 none) (hv : v.startsQualified topLevel) (ts : List Token) :
    keptAll topLevel between (v.tokens ++ ts) = keptAll topLevel (inside false []) (v.tokens ++ ts) := by
  obtain ⟨hskipped, hkeyword⟩ := hv
  obtain ⟨t, more, htokens, homits, hkeyword⟩ : ∃ t more, v.tokens = t :: more ∧
      between.omits topLevel t.kind = false ∧ (t.kind == .atKeyword) = false := by
    rcases h.token_or_group with ⟨t, rfl, -⟩ | ⟨g, rfl, hopens, -⟩
    · exact ⟨t, [], rfl, hskipped, hkeyword⟩
    · refine ⟨g.opener, _, OpenGroup.tokens_close g, ?_, ?_⟩
      · refine Bool.eq_false_iff.2 fun homits => ?_
        rw [(plain_of_omits homits).1] at hopens
        cases hopens
      · refine beq_eq_false_iff_ne.2 fun hkind => ?_
        rw [hkind] at hopens
        cases hopens
  rw [htokens, List.cons_append, keptAll_between_cons homits, hkeyword, keptAll_inside_cons rfl rfl]

/-- A block in braces that is regular outside of all groups ends the rule around it. -/
theorem keptAll_braces {b : Block} (h : b.value.Regular 0 none) (hb : b.isBraces = true)
    (ts : List Token) : keptAll topLevel (inside atRule []) (b.value.tokens ++ ts) =
      b.value.tokens ++ keptAll topLevel between ts := by
  have hbraces : b.value.isBraces = true := hb
  rw [keptAll_outside h (.inr rfl), hbraces]
  rfl

/-- Values in the prelude of a rule pass. -/
theorem passes_outside (h : v.Regular 0 none) (hbraces : v.isBraces = false)
    (hsemicolon : atRule = false ∨ v.isToken .semicolon = false) :
    Passes topLevel (inside atRule []) v := by
  intro ts
  rw [keptAll_outside h hsemicolon, hbraces]
  rfl

/-! ## Rules -/

/-- An at-rule is kept as it is written, with its block or a semicolon. -/
theorem keptAll_atRule {r : AtRule} (hr : r.WellRead) (hv : (Rule.atRule r).EndsWith v)
    (hregular : ∀ w ∈ (Rule.atRule r).head ++ [v], w.Regular 0 none) (ts : List Token) :
    keptAll topLevel between (tokensAll (Rule.atRule r).head ++ (v.tokens ++ ts)) =
      tokensAll (Rule.atRule r).head ++
        ((Rule.atRule r).ending.tokens ++ keptAll topLevel between ts) := by
  have hstart : between.omits topLevel r.keyword.kind = false := by
    rw [hr.keyword]
    simp [omits]
  have hopen : Token.openAfter [] r.keyword = [] :=
    Token.openAfter_of_plain (by rw [hr.keyword]; rfl) (by rw [hr.keyword]; rfl)
  have hpasses : ∀ w ∈ r.prelude, Passes topLevel (inside true []) w := fun w hw =>
    passes_outside (hregular w (.tail _ (List.mem_append_left _ hw))) (hr.prelude w hw).1
      (.inr (hr.prelude w hw).2)
  have hend : keptAll topLevel (inside true []) (v.tokens ++ ts) =
      (Rule.atRule r).ending.tokens ++ keptAll topLevel between ts := by
    unfold Rule.EndsWith at hv
    unfold Rule.ending
    split at hv
    · next b hb =>
      subst hv
      exact keptAll_braces (hregular _ (by simp)) (hr.block b hb) ts
    · next hb =>
      obtain ⟨t, rfl, ht⟩ := ComponentValue.isToken_iff.1 hv
      exact keptAll_semicolon ht ts
  rw [Rule.head, ComponentValue.tokensAll_cons, ComponentValue.tokens, List.singleton_append,
    List.cons_append, keptAll_between_cons hstart, hopen, beq_iff_eq.2 hr.keyword,
    keptAll_tokensAll hpasses, hend]
  rfl

/-- A qualified rule is kept as it is written. -/
theorem keptAll_qualified {r : QualifiedRule} (hr : r.WellRead topLevel)
    (hregular : ∀ w ∈ r.prelude ++ [r.block.value], w.Regular 0 none) (ts : List Token) :
    keptAll topLevel between (tokensAll r.prelude ++ (r.block.value.tokens ++ ts)) =
      tokensAll r.prelude ++ (r.block.value.tokens ++ keptAll topLevel between ts) := by
  have hpasses : ∀ w ∈ r.prelude, Passes topLevel (inside false []) w := fun w hw =>
    passes_outside (hregular w (List.mem_append_left _ hw)) (hr.prelude w hw) (.inl rfl)
  have hblock : r.block.value.Regular 0 none := hregular _ (by simp)
  have hstart : keptAll topLevel between (tokensAll r.prelude ++ (r.block.value.tokens ++ ts)) =
      keptAll topLevel (inside false []) (tokensAll r.prelude ++ (r.block.value.tokens ++ ts)) := by
    cases hprelude : r.prelude with
    | nil =>
      have hskipped : RuleReader.isSkipped topLevel r.block.value = false := by
        simp [RuleReader.isSkipped, ComponentValue.isWhitespace, ComponentValue.isToken, Block.value]
      exact keptAll_between hblock ⟨hskipped, rfl⟩ ts
    | cons w rest =>
      have hw : w ∈ r.prelude ++ [r.block.value] := by
        rw [hprelude]
        exact .head _
      have hfirst : w.startsQualified topLevel := hr.start w (by rw [hprelude]; rfl)
      rw [ComponentValue.tokensAll_cons, List.append_assoc]
      exact keptAll_between (hregular w hw) hfirst _
  rw [hstart, keptAll_tokensAll hpasses, keptAll_braces hblock hr.block]

/-- A rule is kept as it is written. -/
theorem keptAll_rule {r : Rule} (hr : r.WellRead topLevel) (hv : r.EndsWith v)
    (hregular : ∀ w ∈ r.head ++ [v], w.Regular 0 none) (ts : List Token) :
    keptAll topLevel between (tokensAll r.head ++ (v.tokens ++ ts)) =
      tokensAll r.values ++ keptAll topLevel between ts := by
  rw [Rule.values, ComponentValue.tokensAll_append, ComponentValue.tokensAll_cons,
    ComponentValue.tokensAll_nil, List.append_nil, List.append_assoc]
  cases r with
  | atRule r => exact keptAll_atRule hr hv hregular ts
  | qualified r =>
    obtain rfl : v = r.block.value := hv
    exact keptAll_qualified hr hregular ts

end RulePlace

open RulePlace (keptAll)

/-- Of a list of regular values that consists of rules and of what is left out between them, the
tokens of the rules are kept. -/
theorem Rule.Laid.keptAll {topLevel : Bool} {vs : List ComponentValue} {rs : List Rule}
    (h : Rule.Laid topLevel vs rs) (hvs : ∀ v ∈ vs, v.Regular 0 none) :
    RulePlace.keptAll topLevel .between (ComponentValue.tokensAll vs) =
      ComponentValue.tokensAll (rs.flatMap Rule.values) := by
  induction h with
  | nil => rfl
  | @skip v vs rs hskipped _ ih =>
    obtain ⟨t, rfl, homits⟩ : ∃ t, v = .token t ∧ RulePlace.between.omits topLevel t.kind = true := by
      cases v with
      | token t => exact ⟨t, rfl, hskipped⟩
      | block | function => simp [RuleReader.isSkipped, ComponentValue.isWhitespace,
          ComponentValue.isToken] at hskipped
    have hafter : RulePlace.between.after topLevel t = .between := by
      rw [RulePlace.after, homits]
      rfl
    rw [ComponentValue.tokensAll_cons, ComponentValue.tokens, List.singleton_append,
      RulePlace.keptAll, homits, hafter, ← ih fun w hw => hvs w (.tail _ hw)]
    rfl
  | @rule r v vs rs hr hends _ ih =>
    have hrule : ∀ w ∈ r.head ++ [v], w.Regular 0 none := fun w hw => by
      refine hvs w ?_
      rw [← List.singleton_append, ← List.append_assoc]
      exact List.mem_append_left _ hw
    have hrest : ∀ w ∈ vs, w.Regular 0 none := fun w hw =>
      hvs w (List.mem_append_right _ (.tail _ hw))
    rw [ComponentValue.tokensAll_append, ComponentValue.tokensAll_cons,
      RulePlace.keptAll_rule hr hends hrule, ih hrest, List.flatMap_cons,
      ComponentValue.tokensAll_append]

/-- Where nothing is reported of tokens, the tokens of the rules that are read are those that are
kept. -/
theorem Rule.tokensAll_of_silent {topLevel : Bool} {ts : List Token}
    (h : (readAll topLevel ts).2 = []) :
    tokensAll (readAll topLevel ts).1 = RulePlace.keptAll topLevel .between ts := by
  have herrors := List.append_eq_nil_iff.1 h
  have hvalues : (ComponentValue.readAll ts).2 = [] := herrors.1
  have hlaid : Laid topLevel (ComponentValue.readAll ts).1 (readAll topLevel ts).1 :=
    laid_of_errors_eq_nil herrors.2
  have hcomments : ∀ r ∈ (readAll topLevel ts).1, r.comments = [] := fun r hr =>
    (hlaid.wellRead r hr).comments_eq
  have hkept := hlaid.keptAll (ComponentValue.regular_readAll ts)
  rw [(ComponentValue.settledAll_of_silent hvalues).2] at hkept
  rw [← tokensAll_flatMap_values hcomments]
  exact hkept.symm.trans (RulePlace.keptAll_settledAll topLevel .between ts)

/-- **Reading rules loses nothing.** Where nothing is reported of the tokens of a stylesheet, the
tokens of the rules that are read from it are these tokens, in their order, but for what is left out
between rules, whitespace and the marks `<!--` and `-->`. Tokens that end a group or an at-rule are
known by their kind. Where nested rules are read, the same is true, and only whitespace is left
out. -/
theorem Parser.tokensAll_rules (ts : List Token) :
    ((Parser.ofTokens ts).stylesheet.2.errors = [] →
      Rule.tokensAll (Parser.ofTokens ts).stylesheet.1 = keptAll true .between ts) ∧
    ((Parser.ofTokens ts).rules.2.errors = [] →
      Rule.tokensAll (Parser.ofTokens ts).rules.1 = keptAll false .between ts) := by
  have herrors (topLevel : Bool) :
      ((ofTokens ts).reading (Rule.readAll topLevel)).2.errors = (Rule.readAll topLevel ts).2 :=
    List.nil_append _
  constructor
  · intro h
    exact Rule.tokensAll_of_silent ((herrors true).symm.trans h)
  · intro h
    exact Rule.tokensAll_of_silent ((herrors false).symm.trans h)

/-- The marks are left out of a stylesheet. Among nested rules they are kept, each as the start of a
rule. -/
theorem Parser.tokensAll_rules_marks :
    let ts := tokens "<!-- a{b:c;d} @x (y;z) ;\n--> @m{e f(g){}} "
    (ofTokens ts).stylesheet.2.errors = [] ∧ (ofTokens ts).rules.2.errors = [] ∧
    Rule.tokensAll (ofTokens ts).stylesheet.1 = keptAll true .between ts ∧
    Rule.tokensAll (ofTokens ts).rules.1 = keptAll false .between ts ∧
    Token.render (keptAll true .between ts) = "a\x7bb:c;d\x7d@x (y;z) ;@m\x7be f(g)\x7b\x7d\x7d" ∧
    Token.render (keptAll false .between ts) =
      "<!-- a\x7bb:c;d\x7d@x (y;z) ;--> @m\x7be f(g)\x7b\x7d\x7d" := by
  intro ts
  have hsheet : (ofTokens ts).stylesheet.2.errors = [] := by decide +kernel
  have hnested : (ofTokens ts).rules.2.errors = [] := by decide +kernel
  obtain ⟨hstylesheet, hrules⟩ := tokensAll_rules ts
  exact ⟨hsheet, hnested, hstylesheet hsheet, hrules hnested, by decide +kernel, by decide +kernel⟩

end StyleGate
