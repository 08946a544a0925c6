import StyleGate.Proofs.Makeup
import StyleGate.Proofs.Places
import StyleGate.Proofs.Soundness
import StyleGate.Proofs.Validity

/-!
# What is reported, and where

Every diagnostic points at a token of the text (`Policy.clean_reports`). The contents of blocks are read
again from tokens some of which have no place in the text: those that end groups, and semicolons that are
written behind rules. But such tokens only ever end something. Values are `ComponentValue.Located` if all
other tokens in them have positions of a given set, and rules and declarations that are read from such
values start with one of those tokens. So what is reported of them is at a position of the set, and it is
not about groups, since the values were grouped before (`Reported`).
-/

namespace StyleGate

open Text

/-! ## Diagnostics -/

/-- Whether a diagnostic is about groups: one lies too deep, or is open at the end. -/
def Diagnostic.isOfGroup (d : Diagnostic) : Bool :=
  [nestingTooDeep, unexpectedEofInBlock, unexpectedEofInFunction].contains d.code

/-- Diagnostics at positions of a set, none of which is about groups. -/
def Reported (S : Position → Prop) (ds : List Diagnostic) : Prop :=
  ∀ d ∈ ds, d.isOfGroup = false ∧ S d.position

variable {S : Position → Prop}

namespace Reported

variable {ds es : List Diagnostic}

@[simp] theorem nil : Reported S [] := by simp [Reported]

/-- Two reports are one. -/
theorem append (h : Reported S ds) (h' : Reported S es) : Reported S (ds ++ es) :=
  List.forall_mem_append.2 ⟨h, h'⟩

/-- Their order does not matter. -/
theorem reverse (h : Reported S ds) : Reported S ds.reverse := fun d hd => h d (List.mem_reverse.1 hd)

/-- So are the reports on several things. -/
theorem flatMap {α : Type} {f : α → List Diagnostic} {as : List α} (h : ∀ a ∈ as, Reported S (f a)) :
    Reported S (as.flatMap f) := by
  intro d hd
  obtain ⟨a, ha, hd⟩ := List.mem_flatMap.1 hd
  exact h a ha d hd

/-- A single diagnostic of another sort is one as well. -/
theorem one {d : Diagnostic} (h : d.isOfGroup = false) (hposition : S d.position) : Reported S [d] :=
  List.forall_mem_singleton.2 ⟨h, hposition⟩

/-- A diagnostic that sums up others. -/
theorem summed {d : Diagnostic} (h : Reported S ds) (hd : d.isOfGroup = false)
    (hposition : S d.position) : Reported S (if ds.isEmpty then [] else ds ++ [d]) := by
  split
  · exact nil
  · exact h.append (one hd hposition)

end Reported

/-! ## Values -/

/-- A value that was grouped, and whose tokens are at positions of a set, but for the ends of its
groups. -/
structure ComponentValue.Located (S : Position → Prop) (v : ComponentValue) : Prop where
  regular : v.Regular 0 none
  tokens : v.BuiltFrom fun t => S t.position

namespace ComponentValue

/-- A value stands where its first token does. -/
theorem BuiltFrom.position {v : ComponentValue} (h : v.BuiltFrom fun t => S t.position) :
    S v.position := by
  cases h with
  | token ht => exact ht
  | block hopener _ => exact hopener
  | function hname _ => exact hname

/-- What a located block holds is located. -/
theorem Located.contents {b : Block} (h : b.value.Located S) : ∀ v ∈ b.contents, v.Located S :=
  fun v hv => ⟨h.regular.contents v hv, h.tokens.contents v hv⟩

/-- A list of values starts where its first value does. -/
theorem position_positionOf {vs : List ComponentValue} (hne : vs ≠ []) (h : ∀ v ∈ vs, v.Located S) :
    S (positionOf vs) := by
  cases vs with
  | nil => exact absurd rfl hne
  | cons v vs => exact (h v (.head _)).tokens.position

end ComponentValue

namespace ValuePolicy

variable {p : ValuePolicy}

/-- A token is reported where it stands. -/
theorem reported_tokenFaults {t : Token} (h : S t.position) : Reported S (p.tokenFaults t) := by
  unfold tokenFaults
  split
  case h_1 =>
    split
    · exact .nil
    · exact .one rfl h
  all_goals first | exact .nil | exact .one rfl h

/-- A url is reported where its name stands. -/
theorem reported_urlFaults {name : Token} (h : S name.position) (contents : List ComponentValue) :
    Reported S (p.urlFaults name contents) := by
  unfold urlFaults
  split
  · exact .one rfl h
  · split
    · exact .nil
    · exact .one rfl h

/-- The faults of a value are at its tokens, and not about groups if it lies inside few enough of
them. -/
theorem reported_faults {depth : Nat} {closer : Option TokenKind} {v : ComponentValue}
    (h : v.Regular depth closer) (htokens : v.BuiltFrom fun t => S t.position) :
    Reported S (p.faults depth v) := by
  induction h with
  | token _ _ => exact reported_tokenFaults htokens.position
  | block _ hdepth _ ih =>
    have hopener := htokens.position
    rw [faults]
    split
    · exact .one rfl hopener
    · rw [if_neg (Nat.not_le.2 hdepth), faultsAll_eq_flatMap]
      exact .flatMap fun v hv => ih v hv (htokens.contents v hv)
  | function _ hdepth _ ih =>
    cases htokens with
    | function hname hcontents =>
      rw [faults]
      split
      · exact reported_urlFaults hname _
      · split
        · exact .one rfl hname
        · rw [if_neg (Nat.not_le.2 hdepth), faultsAll_eq_flatMap]
          exact .flatMap fun v hv => ih v hv (hcontents v hv)

/-- Values are reported where they stand, also those inside groups. -/
theorem reported_listFaults {vs : List ComponentValue} (h : ∀ v ∈ vs, v.Located S) :
    Reported S (p.listFaults vs) := by
  rw [listFaults, faultsAll_eq_flatMap]
  exact .flatMap fun v hv => reported_faults (h v hv).regular (h v hv).tokens

end ValuePolicy

/-! ## Declarations -/

/-- A started rule stays where it started. -/
theorem OpenRule.position_of_goesOn {r r' : OpenRule} {v : ComponentValue}
    (h : r.step v = .goesOn r') : r'.position = r.position := by
  have hadd : (r.add v).position = r.position := by cases r <;> rfl
  unfold step at h
  split at h
  · split at h
    · cases h
    · cases h
      exact hadd
  · split at h
    · split at h
      · cases h
      · cases h
        exact hadd
    · cases h
      exact hadd

/-- What was reported so far, and where what has been started is. -/
structure DeclarationReader.Reports (S : Position → Prop) (s : DeclarationReader) : Prop where
  errors : Reported S s.errors
  named : ∀ name parts, s.current = .named name parts → S name.position
  atRule : ∀ r, s.current = .atRule r → S r.position

namespace DeclarationReader.Reports

variable {s : DeclarationReader} {ds : List Diagnostic} {g : Grouped}

/-- What is recorded is reported with the rest. -/
theorem record (h : Reported S s.errors) (hds : Reported S ds) : Reported S (s.record ds).errors :=
  hds.reverse.append h

/-- Where nothing is left started, only what was reported counts. -/
theorem ended {done : List Declaration} {errors : List Diagnostic} {current : OpenDeclaration}
    (h : Reported S errors) (hcurrent : current = .none ∨ current = .junk) :
    Reports S { done, current, errors } := by
  refine ⟨h, ?_, ?_⟩
  · rintro name parts rfl
    exact absurd hcurrent (by simp)
  · rintro r rfl
    exact absurd hcurrent (by simp)

/-- A declaration that lacks a colon is reported at its name. -/
theorem endNamed (h : Reported S s.errors) {name : Token} (hname : S name.position)
    (parts : List ComponentValue) : (s.endNamed name parts).Reports S := by
  unfold DeclarationReader.endNamed
  split
  · exact ended h (.inl rfl)
  · exact ended (record h (.one rfl hname)) (.inl rfl)

/-- What starts no declaration is reported where it stands. -/
theorem startNext (h : s.Reports S) (hvalue : S g.value.position) (herrors : Reported S g.errors) :
    (s.startNext g).Reports S := by
  have hjunk {position : Position} (hposition : S position) :
      Reports S { s.record (⟨Diagnostic.expectedIdent, position⟩ :: g.errors) with current := .junk } :=
    ended (record h.errors (.append (.one rfl hposition) herrors)) (.inr rfl)
  unfold DeclarationReader.startNext
  split
  · next t ht =>
    rw [ht] at hvalue
    split
    · exact h
    · split
      · next hkeyword =>
        refine ⟨h.errors, by rintro _ _ ⟨⟩, ?_⟩
        rintro r ⟨⟩
        rw [ht, OpenRule.start, if_pos hkeyword]
        exact hvalue
      · split
        · refine ⟨h.errors, ?_, by rintro _ ⟨⟩⟩
          rintro name parts ⟨⟩
          exact hvalue
        · exact hjunk hvalue
  · exact hjunk hvalue

/-- One more value. -/
theorem push (h : s.Reports S) (hvalue : S g.value.position) (herrors : Reported S g.errors) :
    (s.push g).Reports S := by
  have hrecord := record h.errors herrors
  unfold DeclarationReader.push
  split
  · exact h.startNext hvalue herrors
  · next name parts hs =>
    have hname := h.named name parts hs
    split
    · exact endNamed h.errors hname parts
    · refine ⟨hrecord, ?_, fun _ h => nomatch h⟩
      rintro _ _ ⟨⟩
      exact hname
  · next r hs =>
    have hr := h.atRule r hs
    dsimp only
    split
    · next r' hstep =>
      refine ⟨hrecord, (fun _ _ h => nomatch h), ?_⟩
      rintro _ ⟨⟩
      rw [OpenRule.position_of_goesOn hstep]
      exact hr
    · exact ended (record (s := s.record g.errors) hrecord (.one rfl hr)) (.inl rfl)
  · next hs =>
    split
    · exact ended h.errors (.inl rfl)
    · exact ended hrecord (.inr hs)

/-- So everything is in the end. -/
theorem finish (h : s.Reports S) : Reported S s.finish.2 := by
  unfold DeclarationReader.finish
  dsimp only
  refine Reported.reverse ?_
  split
  · next name parts hs => exact (endNamed h.errors (h.named name parts hs) parts).errors
  · next r hs =>
    have hr := h.atRule r hs
    exact record (record h.errors (.one rfl hr)) (.one rfl hr)
  · exact h.errors

end DeclarationReader.Reports

/-- What is reported of a list of declarations is where its values are. -/
theorem Declaration.reported_ofGroups {groups : List Grouped}
    (h : ∀ g ∈ groups, S g.value.position ∧ Reported S g.errors) : Reported S (ofGroups groups).2 := by
  have hfold : ∀ {s : DeclarationReader}, s.Reports S →
      (groups.foldl DeclarationReader.push s).Reports S := by
    induction groups with
    | nil => exact fun hs => hs
    | cons g groups ih =>
      obtain ⟨⟨hvalue, herrors⟩, hgroups⟩ := List.forall_mem_cons.1 h
      exact fun hs => ih hgroups (hs.push hvalue herrors)
  exact (hfold (.ended .nil (.inl rfl))).finish

namespace Policy

variable {p : Policy}

/-- A declaration is reported at its name, and what it holds where that stands. -/
theorem reported_declarationFaults {d : Declaration} (h : d.MadeOf (·.Located S)) :
    Reported S (p.declarationFaults d) := by
  have hposition : S d.position := h.name.tokens.position
  unfold declarationFaults
  split
  · exact .one rfl hposition
  · split
    · exact .one rfl hposition
    · exact .summed (ValuePolicy.reported_listFaults h.value) rfl hposition

/-- What is reported of a block of declarations is where its contents are. -/
theorem reported_judgeDeclarations {b : Block} (h : ∀ v ∈ b.contents, v.Located S) :
    Reported S (p.judgeDeclarations b).errors := by
  have hgroups : ∀ g ∈ b.contents.map ComponentValue.silent,
      S g.value.position ∧ Reported S g.errors := by
    intro g hg
    obtain ⟨v, hv, rfl⟩ := List.mem_map.1 hg
    exact ⟨(h v hv).tokens.position, .nil⟩
  have hlocated : ∀ g ∈ b.contents.map ComponentValue.silent, g.value.Located S := by
    simpa [ComponentValue.silent] using h
  have hsound := Declaration.sound_ofGroups (P := (·.Located S)) hlocated
  simp only [judgeDeclarations, Block.readDeclarations fun v hv => (h v hv).regular]
  exact (Declaration.reported_ofGroups hgroups).append
    (.flatMap fun d hd => reported_declarationFaults (hsound d hd).2)

end Policy

/-! ## Rules -/

/-- A started rule starts where its first value does. -/
theorem OpenRule.Started.position_eq {topLevel : Bool} {r : OpenRule} (h : r.Started topLevel) :
    r.position = ComponentValue.positionOf r.values := by
  cases r with
  | atRule keyword before => rfl
  | qualified position before =>
    obtain ⟨hne, hready⟩ := h
    obtain ⟨first, rest, hvalues⟩ := List.exists_cons_of_ne_nil hne
    have hposition := (hready default).2.1
    have hbefore : before.reverse = first :: rest := hvalues
    rw [hbefore] at hposition
    rw [hvalues]
    exact hposition

/-- A rule that was read from values whose tokens are at positions of a set. -/
structure Rule.Located (S : Position → Prop) (topLevel : Bool) (r : Rule) : Prop where
  wellRead : r.WellRead topLevel
  body : ∀ v ∈ r.body, v.Located S

namespace Rule

variable {topLevel : Bool} {r : Rule}

/-- A rule starts where its first value does. -/
theorem WellRead.position_eq (h : r.WellRead topLevel) :
    r.position = ComponentValue.positionOf r.body := by
  cases r with
  | atRule r => rfl
  | qualified r => exact QualifiedRule.WellRead.position h

namespace Located

/-- A located rule stands at one of the positions. -/
theorem position (h : r.Located S topLevel) : S r.position := by
  rw [h.wellRead.position_eq]
  refine ComponentValue.position_positionOf ?_ h.body
  cases r with
  | atRule r => exact List.cons_ne_nil _ _
  | qualified r => simp [Rule.body, block?]

/-- So do the values of its prelude. -/
theorem prelude (h : r.Located S topLevel) : ∀ v ∈ r.prelude, v.Located S := by
  intro v hv
  refine h.body v (List.mem_append_left _ ?_)
  cases r with
  | atRule r => exact .tail _ hv
  | qualified r => exact hv

/-- So do those of its block. -/
theorem contents (h : r.Located S topLevel) {b : Block} (hb : r.block? = some b) :
    ∀ v ∈ b.contents, v.Located S :=
  (h.body b.value (List.mem_append_right _ (by rw [hb]; exact .head _))).contents

end Located

/-- Rules that are read from values are where the values are, and so is what is reported of one that is
not finished. -/
theorem located_ofValues (topLevel : Bool) {vs : List ComponentValue} (h : ∀ v ∈ vs, v.Located S) :
    (∀ r ∈ (ofValues topLevel vs).1, r.Located S topLevel) ∧ Reported S (ofValues topLevel vs).2 := by
  refine ⟨fun r hr => ⟨wellRead_ofValues topLevel vs r hr, forall_body_ofValues h r hr⟩, ?_⟩
  obtain ⟨body, rs, -, ⟨-, heq⟩ | ⟨r, hstarted, rfl, heq⟩⟩ := ofValues_laid topLevel vs
  · rw [heq]
    exact .nil
  · rw [heq]
    refine .one rfl ?_
    have hvalues := ComponentValue.position_positionOf hstarted.1
      fun v hv => h v (List.mem_append_right _ hv)
    rwa [← hstarted.position_eq] at hvalues

/-- Rules that are read from tokens are where the tokens are, and so is all that is reported of them. -/
theorem located_readAll {ts : List Token} (h : ∀ t ∈ ts, S t.position) :
    (∀ r ∈ (readAll topLevel ts).1, r.Located S topLevel) ∧
      ∀ d ∈ (readAll topLevel ts).2, S d.position := by
  have hcarries : Grouping.Carries (fun t => S t.position) fun d => S d.position :=
    ⟨fun _ ht => ht, fun _ ht => ht, fun _ hg => hg⟩
  obtain ⟨htokens, herrors⟩ := ComponentValue.builtFrom_readAll hcarries h
  have hvalues : ∀ v ∈ (ComponentValue.readAll ts).1, v.Located S :=
    fun v hv => ⟨ComponentValue.regular_readAll ts v hv, htokens v hv⟩
  obtain ⟨hrules, hmore⟩ := located_ofValues topLevel hvalues
  exact ⟨hrules, List.forall_mem_append.2 ⟨herrors, fun d hd => (hmore d hd).2⟩⟩

end Rule

namespace Policy

variable {p : Policy} {topLevel : Bool}

/-- Of a rule nothing is reported but what is reported of its block. -/
theorem errors_judgeBlock {α : Type} (replace : Block → Except NodeError α) (j : Judgement Block) :
    (judgeBlock replace j).errors = j.errors := by
  unfold judgeBlock
  split
  · split <;> rfl
  · rfl

/-- What is reported of a style rule is where its values are. -/
theorem reported_judgeStyleRule {r : QualifiedRule} (h : (Rule.qualified r).Located S topLevel) :
    Reported S (p.judgeStyleRule r).errors := by
  unfold judgeStyleRule
  dsimp only
  split
  · unfold selectorFaults
    split
    · exact .one rfl h.position
    · exact .summed (ValuePolicy.reported_listFaults h.prelude) rfl h.position
  · rw [errors_judgeBlock]
    exact reported_judgeDeclarations (h.contents rfl)

/-- Sanitizers that report of rules only where these are. -/
def ReportOn (S : Position → Prop) (sanitizers : List RuleSanitizer) : Prop :=
  ∀ s ∈ sanitizers, ∀ {topLevel : Bool} {r : Rule}, r.Located S topLevel →
    Reported S (s.judge r).errors

/-- What is reported of a list of rules is what its sanitizers report, or that a rule goes to none. -/
theorem reported_sanitizeRules {sanitizers : List RuleSanitizer} (h : ReportOn S sanitizers)
    {rules : List Rule} (hrules : ∀ r ∈ rules, r.Located S topLevel) :
    Reported S (sanitizeRules sanitizers rules).2 := by
  refine .flatMap fun x hx => ?_
  obtain ⟨⟨r, a⟩, hzip, rfl⟩ := List.mem_map.1 hx
  obtain ⟨hr, ha⟩ := List.of_mem_zip hzip
  cases a with
  | unrecognized | misordered => exact .one rfl (hrules r hr).position
  | admitted s => exact h s (RuleSanitizer.mem_of_admitted ha) (hrules r hr)

/-- What is reported of a block of rules is where its contents are: they were grouped before. -/
theorem reported_judgeRuleBlock {nested : List RuleSanitizer} (hnested : ReportOn S nested)
    {b : Block} (h : ∀ v ∈ b.contents, v.Located S) : Reported S (judgeRuleBlock nested b).errors := by
  obtain ⟨hrules, herrors⟩ := Rule.located_ofValues false h
  simp only [judgeRuleBlock, Block.readRules fun v hv => (h v hv).regular]
  exact herrors.append (reported_sanitizeRules hnested hrules)

/-- A block that is missing, or is there and not allowed, is reported where the rule stands. -/
theorem reported_shapeFaults (shape : BlockShape) {r : AtRule} (h : S r.position) :
    Reported S (shapeFaults shape r) := by
  unfold shapeFaults
  split <;> first | exact .one rfl h | exact .nil

/-- What is reported of an at-rule is where its values are. -/
theorem reported_judgeAtRule {nested : List RuleSanitizer} (hnested : ReportOn S nested)
    (shape : BlockShape) {r : AtRule} (h : (Rule.atRule r).Located S topLevel) :
    Reported S (p.judgeAtRule nested shape r).errors := by
  unfold judgeAtRule
  dsimp only
  split
  · unfold headFaults
    dsimp only
    split
    · exact .summed (ValuePolicy.reported_listFaults h.prelude) rfl h.position
    · exact reported_shapeFaults shape h.position
  · split
    · exact .nil
    · next b hb =>
      have hcontents : ∀ v ∈ b.contents, v.Located S := h.contents hb
      rw [errors_judgeBlock]
      cases shape with
      | rules => exact reported_judgeRuleBlock hnested hcontents
      | declarations | optional => exact reported_judgeDeclarations hcontents
      | none => exact .nil

/-- The sanitizers of one level report so if those of at-rules do. -/
theorem reportOn_sanitizersOf {levels : Nat} {entries : List AtRulePolicy}
    (h : ∀ entry ∈ entries, ∀ {topLevel : Bool} {r : AtRule}, (Rule.atRule r).Located S topLevel →
      Reported S ((p.atRuleSanitizerAt levels entry).judge (.atRule r)).errors) :
    ReportOn S (p.sanitizersOf levels entries) := by
  intro s hs topLevel r hr
  rcases List.mem_append.1 hs with hs | hs
  · obtain ⟨entry, hentry, rfl⟩ := List.mem_map.1 hs
    cases r with
    | atRule r => exact h entry hentry hr
    | qualified r => cases levels <;> (rw [atRuleSanitizerAt]; exact .nil)
  · unfold styleSanitizers at hs
    split at hs
    · obtain rfl := List.mem_singleton.1 hs
      cases r with
      | qualified r => exact reported_judgeStyleRule hr
      | atRule r => exact .nil
    · cases hs

/-- What is reported of an at-rule is where its values are, however deep groups of rules lie in each
other. -/
theorem reported_atRuleSanitizerAt (levels : Nat) (entry : AtRulePolicy) {r : AtRule}
    (h : (Rule.atRule r).Located S topLevel) :
    Reported S ((p.atRuleSanitizerAt levels entry).judge (.atRule r)).errors := by
  induction levels generalizing entry topLevel r with
  | zero =>
    rw [judge_atRuleSanitizerAt_zero]
    exact reported_judgeAtRule (reportOn_sanitizersOf (by simp)) entry.block h
  | succ below ih =>
    rw [judge_atRuleSanitizerAt_succ]
    exact reported_judgeAtRule (reportOn_sanitizersOf fun entry _ _ _ hr => ih entry hr)
      entry.block h

/-- What is reported in judging the rules of tokens is where the tokens are, and not about groups. -/
theorem reported_judgeStylesheet (p : Policy) (ts : List Token) (h : ∀ t ∈ ts, S t.position) :
    Reported S (p.judgeStylesheet (Rule.readAll true ts).1).errors :=
  reported_sanitizeRules
    (reportOn_sanitizersOf fun entry _ _ _ hr => reported_atRuleSanitizerAt maxGroupRuleDepth entry hr)
    (Rule.located_readAll h).1

end Policy

/-! ## Texts -/

/-- A position in a text is a place in it. -/
theorem Position.after_ne_unknown (text : List Char) : Position.start.after text ≠ Position.unknown := by
  intro heq
  by_cases hnil : text = []
  · rw [hnil] at heq
    cases heq
  · have hprecedes := Position.start.precedes_after hnil
    rw [heq] at hprecedes
    rcases hprecedes with hline | ⟨hline, -⟩ <;> cases hline

/-- Every token of a text has a place in it. -/
theorem position_ne_unknown_of_mem_tokens {text : String} {t : Token} (ht : t ∈ tokens text) :
    t.position ≠ Position.unknown := by
  rw [tokens, tokenize_eq] at ht
  obtain ⟨p, -, rfl⟩ := List.mem_map.1 ht
  rw [Place.position_token, Place.position]
  split <;> exact Position.after_ne_unknown _

/-- A group that lies too deep is reported where the token is that stands for it. -/
theorem exists_token_of_mem_tokenize_errors {text : String} {d : Diagnostic}
    (hd : d ∈ (tokenize text).2) : ∃ t ∈ tokens text, t.position = d.position := by
  rw [tokenize_eq] at hd
  obtain ⟨p, hp, rfl⟩ := List.mem_map.1 hd
  obtain ⟨hplace, hdeep⟩ := List.mem_filter.1 hp
  have hlength : p.groups.length = maxGroupDepth := by simpa using (Bool.and_eq_true_iff.1 hdeep).2
  have htoken : p.isToken = true := decide_eq_true (Nat.le_of_eq hlength)
  refine ⟨p.token, ?_, p.position_token⟩
  rw [tokens, tokenize_eq]
  exact List.mem_map_of_mem (List.mem_filter.2 ⟨hplace, htoken⟩)

/-- **Every diagnostic points at a token.** When a valid policy cleans a text, all that is reported, in
reading the text and in judging its rules, is at the position of one of its tokens, and so never without a
place, however often blocks are read again from tokens that have none. -/
theorem Policy.clean_reports {p : Policy} (hvalid : p.validate = .ok ()) (css : String) :
    ∃ sheet, p.clean css = .ok sheet ∧ ∀ d ∈ sheet.diagnostics,
      (∃ t ∈ tokens css, t.position = d.position) ∧ d.position ≠ Position.unknown := by
  refine ⟨p.cleanText css, clean_of_valid hvalid css, ?_⟩
  let S : Position → Prop := fun position => ∃ t ∈ tokens css, t.position = position
  have htokens : ∀ t ∈ tokens css, S t.position := fun t ht => ⟨t, ht, rfl⟩
  have hread : ∀ d ∈ (Rule.readAll true (tokens css)).2, S d.position := (Rule.located_readAll htokens).2
  have hjudged : Reported S (p.cleanText css).sanitizationErrors := p.reported_judgeStylesheet (tokens css) htokens
  have hparsed : (p.cleanText css).parseErrors =
      (tokenize css).2 ++ (Rule.readAll true (tokens css)).2 := rfl
  intro d hd
  have hplace : S d.position := by
    rcases List.mem_append.1 hd with hd | hd
    · rw [hparsed] at hd
      rcases List.mem_append.1 hd with hd | hd
      · exact exists_token_of_mem_tokenize_errors hd
      · exact hread d hd
    · exact (hjudged d hd).2
  refine ⟨hplace, ?_⟩
  obtain ⟨t, ht, heq⟩ := hplace
  rw [← heq]
  exact position_ne_unknown_of_mem_tokens ht

/-- Blocks that are open at the end are read again from tokens that end them, and what is reported of
them still points at tokens of the text. -/
theorem Policy.clean_reports_unclosed :
    ∃ sheet, standard.clean "@media x\x7ba\x7bb:c;d" = .ok sheet ∧
      sheet.diagnostics.map (·.position.column) = [11, 9, 16, 12] ∧
      ∀ d ∈ sheet.diagnostics, d.position ≠ Position.unknown := by
  obtain ⟨sheet, hclean, hreports⟩ :=
    clean_reports standard_valid "@media x\x7ba\x7bb:c;d"
  have hsheet : standard.cleanText "@media x\x7ba\x7bb:c;d" = sheet := Except.ok.inj hclean
  refine ⟨sheet, hclean, ?_, fun d hd => (hreports d hd).2⟩
  rw [← hsheet]
  decide +kernel

end StyleGate
