import StyleGate.Proofs.Soundness

/-!
# What was read or judged once

Reading and judging mend what they are given, and what they have mended stays as it is. The tokens of
rules that were read are read as those rules again (`Parser.read_tokensAll`), those of declarations as
those declarations (`Parser.declarations_tokensAll`), and what a pass leaves of a stylesheet is kept by
every later pass (`Session.pass_survivor`): it is allowed and in order, since the rules that were dropped
can only have raised the index that the others were held against.
-/

namespace StyleGate

/-! ## Reading again -/

/-- The tokens of readable rules are read as those rules, without a diagnostic. -/
theorem Rule.readAll_tokensAll {topLevel : Bool} {rs : List Rule}
    (h : ∀ r ∈ rs, r.Readable topLevel 0 none) : readAll topLevel (tokensAll rs) = (rs, []) := by
  have hvalues : ∀ v ∈ rs.flatMap values, v.Regular 0 none := by
    intro v hv
    obtain ⟨r, hr, hv⟩ := List.mem_flatMap.1 hv
    exact (h r hr).regular v hv
  have htokens := tokensAll_flatMap_values fun r hr => (h r hr).wellRead.comments_eq
  have hlaid := Laid.flatMap_values fun r hr => (h r hr).wellRead
  rw [readAll, ← htokens, ComponentValue.readAll_tokensAll hvalues]
  simp only [hlaid.ofValues, List.append_nil]

/-- **Rules are read back from their tokens.** Whatever tokens a list of rules was read from, nested or
at the top of a stylesheet, its own tokens are read in the same way as the very same rules, with their
positions, and without a diagnostic. -/
theorem Parser.read_tokensAll (ts : List Token) :
    (Parser.ofTokens (Rule.tokensAll (Parser.ofTokens ts).rules.1)).rules =
        ((Parser.ofTokens ts).rules.1, Parser.ofTokens []) ∧
      (Parser.ofTokens (Rule.tokensAll (Parser.ofTokens ts).stylesheet.1)).stylesheet =
        ((Parser.ofTokens ts).stylesheet.1, Parser.ofTokens []) := by
  have hback : ∀ topLevel, Rule.readAll topLevel (Rule.tokensAll (Rule.readAll topLevel ts).1) =
      ((Rule.readAll topLevel ts).1, []) :=
    fun topLevel => Rule.readAll_tokensAll (Rule.readable_readAll topLevel ts)
  refine ⟨?_, ?_⟩
  · simp only [rules, reading, ofTokens, hback, List.append_nil]
  · simp only [stylesheet, reading, ofTokens, hback, List.append_nil]

/-- Every declaration that is read from tokens is well read and made of regular values. -/
theorem Declaration.sound_readAll (ts : List Token) :
    ∀ d ∈ (readAll ts).1, d.WellRead ∧ d.MadeOf (·.Regular 0 none) :=
  sound_ofGroups (Grouping.regular_ofTokens ts)

/-- **Declarations are read back from their tokens.** Whatever tokens a list of declarations was read
from, its own tokens, with the punctuation that is put between them, are read as the very same
declarations, each with its name, its value and its mark of importance, and without a diagnostic. -/
theorem Parser.declarations_tokensAll (ts : List Token) :
    (Parser.ofTokens (Declaration.tokensAll (Parser.ofTokens ts).declarations.1)).declarations =
      ((Parser.ofTokens ts).declarations.1, Parser.ofTokens []) := by
  have hback : Declaration.readAll (Declaration.tokensAll (Declaration.readAll ts).1) =
      ((Declaration.readAll ts).1, []) :=
    Declaration.readAll_tokensAll (Declaration.sound_readAll ts)
  simp only [declarations, reading, ofTokens, hback, List.append_nil]

/-! ## Judging again -/

/-- Where nothing is reported of a list of rules, each of them goes to a sanitizer. -/
theorem RuleSanitizer.admitted_of_errors_eq_nil {sanitizers : List RuleSanitizer}
    {rules : List Rule} {highest : Int32}
    (h : (Judgement.collect ((rules.zip (planFrom sanitizers highest rules)).map
      fun (r, a) => (r, a.judge r))).2 = []) :
    ∀ a ∈ planFrom sanitizers highest rules, ∃ s, a = .admitted s := by
  induction rules generalizing highest with
  | nil => nofun
  | cons r rules ih =>
    simp only [planFrom, Judgement.collect, List.zip_cons_cons, List.map_cons, List.flatMap_cons,
      List.append_eq_nil_iff] at h
    obtain ⟨hfirst, hrest⟩ := h
    rintro a (_ | ⟨_, ha⟩)
    · rcases assess_cases sanitizers highest r with
        ⟨-, hassess⟩ | ⟨s, -, ⟨-, hassess⟩ | ⟨-, hassess⟩⟩
      · rw [hassess] at hfirst
        cases hfirst
      · rw [hassess] at hfirst
        cases hfirst
      · exact ⟨s, hassess⟩
    · exact ih hrest a ha

namespace Policy

variable (p : Policy)

/-- What the judgement on a stylesheet leaves are the rules that are left of it. -/
theorem survivor_judgeStylesheet (ts : List Token) :
    (p.judgeStylesheet (Rule.readAll true ts).1).outcome.survivor (Rule.readAll true ts).1 =
      some (sanitizeRules p.sanitizers (Rule.readAll true ts).1).1 := by
  have h := p.sifted_stylesheet ts
  simp only [judgeStylesheet]
  split
  · next hagrees => rw [Outcome.survivor, h.silent (h.agreesAll_iff.1 hagrees)]
  · rfl

/-- What is left of a stylesheet satisfies the policy. -/
theorem allowsSheet_left (ts : List Token) :
    p.AllowsSheet (sanitizeRules p.sanitizers (Rule.readAll true ts).1).1 :=
  (p.allowsRules_iff maxGroupRuleDepth p.atRules _ _).2
    ⟨(p.sifted_stylesheet ts).allowed, (p.sifted_stylesheet ts).ordered⟩

variable {p} in
/-- An allowed stylesheet is left as it is, and nothing is reported of it. -/
theorem sanitizeRules_of_allowsSheet {rules : List Rule} (h : p.AllowsSheet rules)
    (hreadable : ∀ r ∈ rules, r.Readable true 0 none) :
    sanitizeRules p.sanitizers rules = (rules, []) := by
  obtain ⟨hallowed, hordered⟩ := (p.allowsRules_iff maxGroupRuleDepth p.atRules _ _).1 h
  have hfair : RuleSanitizer.Fair (p.AllowsRule p.atRules (p.AllowsAtRule maxGroupRuleDepth)) true 0
      none p.sanitizers := fair_atRules maxGroupRuleDepth p.atRules
  have hsifted := RuleSanitizer.sifted_sanitizeRules hfair hreadable
  have herrors := hsifted.errors_eq_nil hallowed hordered
  exact Prod.ext (hsifted.silent herrors) herrors

/-- The rules that are left of a stylesheet are all left when they are judged again, and nothing is
reported of them. -/
theorem sanitizeRules_sanitizeRules (ts : List Token) :
    sanitizeRules p.sanitizers (sanitizeRules p.sanitizers (Rule.readAll true ts).1).1 =
      ((sanitizeRules p.sanitizers (Rule.readAll true ts).1).1, []) :=
  sanitizeRules_of_allowsSheet (p.allowsSheet_left ts) (p.sifted_stylesheet ts).readable

end Policy

/-- **What a pass leaves stays.** A pass over rules that were read from tokens leaves a list of rules.
Every later pass under the same policy keeps that list and logs nothing, and each of its rules goes to
a sanitizer: none of them is unrecognized or out of order. -/
theorem Session.pass_survivor (p : Policy) (ts : List Token) :
    ∃ left, (Session.pass { policy := p } (Rule.readAll true ts).1).1.survivor
        (Rule.readAll true ts).1 = some left ∧
      (∀ log, Session.pass { policy := p, log } left = (.kept, { policy := p, log })) ∧
      ∀ a ∈ RuleSanitizer.plan p.sanitizers left, ∃ s, a = .admitted s := by
  have hagain := p.sanitizeRules_sanitizeRules ts
  refine ⟨_, p.survivor_judgeStylesheet ts, ?_, ?_⟩
  · intro log
    simp only [pass, Policy.judgeStylesheet, hagain, Rule.agreesAll_self, if_true, List.append_nil]
  · exact RuleSanitizer.admitted_of_errors_eq_nil (congrArg Prod.snd hagain)

end StyleGate
