import StyleGate.Proofs.Blocks

/-!
# Lists of rules at the gate

Sanitizers are fair to the rules of a list if each judges the rules that go to it fairly. Then the
whole list is sifted (`RuleSanitizer.Sifted`): what is left is allowed and stands in order, and it is
the list itself exactly if nothing was reported. The proof follows the running maximum of
`RuleSanitizer.planFrom` down the list; a rule that is left is not below the maximum before it
(`Sifted.above`), which is what keeps the rules behind it in order.
-/

namespace StyleGate

/-- A bound on the larger of two indexes bounds both. -/
theorem RuleIndex.max_le_iff {a b c : Int32} : max a b ≤ c ↔ a ≤ c ∧ b ≤ c := by
  have hmax : max a b = if a ≤ b then b else a := rfl
  rw [hmax]
  split
  · next h => exact ⟨fun hb => ⟨Int32.le_trans h hb, hb⟩, And.right⟩
  · next h =>
    have h := (Int32.le_total a b).resolve_left h
    exact ⟨fun ha => ⟨ha, Int32.le_trans h ha⟩, And.left⟩

/-- A readable rule has a mark: the keyword of an at-rule, or the block of a qualified rule. -/
theorem Rule.Readable.marks_pos {topLevel : Bool} {depth : Nat} {closer : Option TokenKind}
    {r : Rule} (h : r.Readable topLevel depth closer) : 0 < ComponentValue.marks r.body := by
  have hw := h.wellRead
  cases r with
  | atRule r =>
    have hkeyword : r.keyword.kind = .atKeyword := AtRule.WellRead.keyword hw
    rw [body, head, List.cons_append, ComponentValue.marks_cons]
    simp only [ComponentValue.tokens, Token.marks_cons, Token.marks_nil, hkeyword, reduceCtorEq,
      if_false]
    omega
  | qualified r =>
    have := ComponentValue.marks_tokens_pos (v := r.block.value) rfl
    simp only [body, block?, Option.toList_some, List.map_cons, List.map_nil,
      ComponentValue.marks_append, ComponentValue.marks_cons]
    omega

/-- The marks of rules add up. -/
theorem Rule.marks_body_cons (r : Rule) (rules : List Rule) :
    ComponentValue.marks ((r :: rules).flatMap body) =
      ComponentValue.marks r.body + ComponentValue.marks (rules.flatMap body) := by
  rw [List.flatMap_cons, ComponentValue.marks_append]

namespace RuleSanitizer

/-- The place that sanitizers give to a rule. -/
def indexOf? (sanitizers : List RuleSanitizer) (r : Rule) : Option RuleIndex :=
  (sanitizers.find? (·.handles r)).map (·.index)

/-- Sanitizers that judge readable rules fairly. Which of them handles a rule depends on the rule's
name only, and some handles each rule that is allowed. -/
structure Fair (Allowed : Rule → Prop) (topLevel : Bool) (depth : Nat) (closer : Option TokenKind)
    (sanitizers : List RuleSanitizer) : Prop where
  judge : ∀ r s, r.Readable topLevel depth closer → sanitizers.find? (·.handles r) = some s →
    (s.judge r).Fair Allowed (Rule.Reduces topLevel depth closer) r
  named : ∀ r r' : Rule, r.name? = r'.name? →
    sanitizers.find? (·.handles r) = sanitizers.find? (·.handles r')
  handled : ∀ r, Allowed r → sanitizers.find? (·.handles r) ≠ none

/-- What is left of a list of rules that come after rules up to the index `highest`, and the
diagnostics on the way. -/
structure Sifted (Allowed : Rule → Prop) (topLevel : Bool) (depth : Nat) (closer : Option TokenKind)
    (sanitizers : List RuleSanitizer) (highest : Int32) (rules left : List Rule)
    (errors : List Diagnostic) : Prop where
  allowed : ∀ r ∈ left, Allowed r
  readable : ∀ r ∈ left, r.Readable topLevel depth closer
  above : ∀ r ∈ left, ∀ i ∈ indexOf? sanitizers r, highest ≤ i.test
  ordered : left.Pairwise fun r s =>
    RuleIndex.MayPrecede (indexOf? sanitizers r) (indexOf? sanitizers s)
  silent : errors = [] → left = rules
  marks : ComponentValue.marks (left.flatMap Rule.body) ≤
    ComponentValue.marks (rules.flatMap Rule.body)
  costs : errors ≠ [] → ComponentValue.marks (left.flatMap Rule.body) <
    ComponentValue.marks (rules.flatMap Rule.body)
  keeps : (∀ r ∈ rules, Allowed r) → (∀ r ∈ rules, ∀ i ∈ indexOf? sanitizers r, highest ≤ i.test) →
    (rules.Pairwise fun r s =>
      RuleIndex.MayPrecede (indexOf? sanitizers r) (indexOf? sanitizers s)) → errors = []

section
variable {Allowed : Rule → Prop} {topLevel : Bool} {depth : Nat} {closer : Option TokenKind}
  {sanitizers : List RuleSanitizer} {highest : Int32}

/-- The decision on a rule, by the first sanitizer that handles it. -/
theorem assess_cases (sanitizers : List RuleSanitizer) (highest : Int32) (r : Rule) :
    (sanitizers.find? (·.handles r) = none ∧ assess sanitizers highest r = .unrecognized) ∨
      ∃ s, sanitizers.find? (·.handles r) = some s ∧
        ((s.index.test < highest ∧ assess sanitizers highest r = .misordered) ∨
          (highest ≤ s.index.test ∧ assess sanitizers highest r = .admitted s)) := by
  unfold assess
  split
  · next h => exact .inl ⟨h, rfl⟩
  · next s h =>
    refine .inr ⟨s, h, ?_⟩
    split
    · next hlt => exact .inl ⟨hlt, rfl⟩
    · next hlt => exact .inr ⟨Int32.not_lt.1 hlt, rfl⟩

/-- A rule is only admitted to a sanitizer of the list. -/
theorem mem_of_admitted {rules : List Rule} {s : RuleSanitizer}
    (h : .admitted s ∈ planFrom sanitizers highest rules) : s ∈ sanitizers := by
  induction rules generalizing highest with
  | nil => cases h
  | cons r rules ih =>
    rcases List.mem_cons.1 h with heq | h
    · rcases assess_cases sanitizers highest r with
        ⟨-, hassess⟩ | ⟨s', hfind, ⟨-, hassess⟩ | ⟨-, hassess⟩⟩
      · cases heq.trans hassess
      · cases heq.trans hassess
      · cases heq.trans hassess
        exact List.mem_of_find?_eq_some hfind
    · exact ih h

/-- A rule that is dropped leaves the rest of the list as it is sifted. -/
theorem Sifted.drop {r : Rule} {rules left : List Rule} {errors more : List Diagnostic}
    {raised : Int32} (h : Sifted Allowed topLevel depth closer sanitizers raised rules left errors)
    (hraised : highest ≤ raised) (hr : r.Readable topLevel depth closer) (hmore : more ≠ [])
    (hrefused : Allowed r → ∃ i ∈ indexOf? sanitizers r, i.test < highest) :
    Sifted Allowed topLevel depth closer sanitizers highest (r :: rules) left (more ++ errors) := by
  have hpos := hr.marks_pos
  have hmarks := h.marks
  have hcons := Rule.marks_body_cons r rules
  refine ⟨h.allowed, h.readable, ?_, h.ordered, ?_, ?_, ?_, ?_⟩
  · exact fun r hr i hi => Int32.le_trans hraised (h.above r hr i hi)
  · exact fun hnil => absurd (List.append_eq_nil_iff.1 hnil).1 hmore
  · omega
  · intro _; omega
  · intro hallowed habove _
    obtain ⟨i, hi, hlt⟩ := hrefused (hallowed r (.head _))
    exact absurd (habove r (.head _) i hi) (fun hle => Int32.not_lt.2 hle hlt)

section Survivor

variable {r new : Rule} {s : RuleSanitizer} (hfair : Fair Allowed topLevel depth closer sanitizers)
  (hr : r.Readable topLevel depth closer) (hfind : sanitizers.find? (·.handles r) = some s)
  (hnew : (s.judge r).outcome.survivor r = some new)
include hfair hr hfind hnew

/-- What is left of a rule has the place of the rule. -/
theorem indexOf?_survivor : indexOf? sanitizers new = some s.index := by
  have hname : new.name? = r.name? := by
    rcases (hfair.judge r s hr hfind).survivor_cases hnew with ⟨-, rfl⟩ | ⟨-, hreduces⟩
    · rfl
    · exact hreduces.name
  rw [indexOf?, hfair.named new r hname, hfind, Option.map_some]

/-- What is left of a rule is read again. -/
theorem readable_survivor : new.Readable topLevel depth closer := by
  rcases (hfair.judge r s hr hfind).survivor_cases hnew with ⟨-, rfl⟩ | ⟨-, hreduces⟩
  · exact hr
  · exact hreduces.readable

/-- What is left of a rule has no more marks than the rule, and fewer if anything was reported. -/
theorem marks_survivor : ComponentValue.marks new.body ≤ ComponentValue.marks r.body ∧
    ((s.judge r).errors ≠ [] → ComponentValue.marks new.body < ComponentValue.marks r.body) := by
  rcases (hfair.judge r s hr hfind).survivor_cases hnew with ⟨hnil, rfl⟩ | ⟨-, hreduces⟩
  · exact ⟨Nat.le_refl _, fun hne => absurd hnil hne⟩
  · exact ⟨Nat.le_of_lt hreduces.marks, fun _ => hreduces.marks⟩

/-- A rule that a sanitizer leaves comes before what is left of the rest of the list. -/
theorem Sifted.cons_survivor {rules left : List Rule} {errors : List Diagnostic}
    (h : Sifted Allowed topLevel depth closer sanitizers (max highest s.index.set) rules left errors)
    (habove : highest ≤ s.index.test) :
    Sifted Allowed topLevel depth closer sanitizers highest (r :: rules) (new :: left)
      ((s.judge r).errors ++ errors) := by
  have hjudge := hfair.judge r s hr hfind
  have hindex := indexOf?_survivor hfair hr hfind hnew
  obtain ⟨hle, hlt⟩ := marks_survivor hfair hr hfind hnew
  have hmarks := h.marks
  refine ⟨?_, ?_, ?_, ?_, ?_, ?_, ?_, ?_⟩
  · exact List.forall_mem_cons.2 ⟨hjudge.leaves new hnew, h.allowed⟩
  · exact List.forall_mem_cons.2 ⟨readable_survivor hfair hr hfind hnew, h.readable⟩
  · refine List.forall_mem_cons.2 ⟨fun i hi => ?_, fun t ht i hi => ?_⟩
    · rw [hindex] at hi
      obtain rfl := Option.some.inj hi
      exact habove
    · exact (RuleIndex.max_le_iff.1 (h.above t ht i hi)).1
  · -- what is left of the rest lies above the raised maximum, so it may follow the new rule
    refine List.pairwise_cons.2 ⟨fun t ht i hi j hj => ?_, h.ordered⟩
    rw [hindex] at hi
    obtain rfl := Option.some.inj hi
    exact (RuleIndex.max_le_iff.1 (h.above t ht j hj)).2
  · intro hnil
    obtain ⟨herrors, hrest⟩ := List.append_eq_nil_iff.1 hnil
    rcases hjudge.survivor_cases hnew with ⟨-, rfl⟩ | ⟨hne, -⟩
    · rw [h.silent hrest]
    · exact absurd herrors hne
  · rw [Rule.marks_body_cons, Rule.marks_body_cons]
    omega
  · intro hne
    rw [Rule.marks_body_cons, Rule.marks_body_cons]
    by_cases herrors : (s.judge r).errors = []
    · have hcosts := h.costs fun hrest => hne (by rw [herrors, hrest]; rfl)
      omega
    · have hfewer := hlt herrors
      omega
  · intro hallowed hbounds hordered
    obtain ⟨hfirst, hordered⟩ := List.pairwise_cons.1 hordered
    have hself : indexOf? sanitizers r = some s.index := by rw [indexOf?, hfind, Option.map_some]
    have herrors := hjudge.silent.2 (hjudge.keeps (hallowed r (.head _)))
    have hrest := h.keeps (fun t ht => hallowed t (.tail _ ht))
      (fun t ht i hi => RuleIndex.max_le_iff.2
        ⟨hbounds t (.tail _ ht) i hi, hfirst t ht s.index hself i hi⟩) hordered
    rw [herrors, hrest]
    rfl

end Survivor

/-- What is left of a list of rules, judged after rules up to an index. -/
theorem sifted_planFrom (hfair : Fair Allowed topLevel depth closer sanitizers) (rules : List Rule)
    (hrules : ∀ r ∈ rules, r.Readable topLevel depth closer) (highest : Int32) :
    Sifted Allowed topLevel depth closer sanitizers highest rules
      (Judgement.collect ((rules.zip (planFrom sanitizers highest rules)).map
        fun (r, a) => (r, a.judge r))).1
      (Judgement.collect ((rules.zip (planFrom sanitizers highest rules)).map
        fun (r, a) => (r, a.judge r))).2 := by
  -- for every maximum at once, as a rule that is admitted raises it for the rules behind
  induction rules generalizing highest with
  | nil =>
    have hnone : ∀ {P : Rule → Prop}, ∀ r ∈ ([] : List Rule), P r := by simp
    exact ⟨hnone, hnone, hnone, .nil, fun _ => rfl, Nat.le_refl _, fun h => absurd rfl h,
      fun _ _ _ => rfl⟩
  | cons r rules ih =>
    have ih := ih fun s hs => hrules s (.tail _ hs)
    have hr := hrules r (.head _)
    have hself := Int32.le_refl highest
    rcases assess_cases sanitizers highest r with
      ⟨hfind, hassess⟩ | ⟨s, hfind, ⟨hlt, hassess⟩ | ⟨hle, hassess⟩⟩
    · have herror : [(⟨Diagnostic.unrecognizedRule, r.position⟩ : Diagnostic)] ≠ [] := by simp
      have hstep := (ih highest).drop hself hr herror
        fun hr => absurd hfind (hfair.handled r hr)
      simpa [planFrom, hassess, Admission.raise, Judgement.collect, Admission.judge,
        Judgement.refuse, Outcome.survivor] using hstep
    · have herror : [(⟨Diagnostic.misorderedRule, r.position⟩ : Diagnostic)] ≠ [] := by simp
      have hstep := (ih highest).drop hself hr herror fun _ => ⟨s.index, by rw [indexOf?, hfind]; rfl, hlt⟩
      simpa [planFrom, hassess, Admission.raise, Judgement.collect, Admission.judge,
        Judgement.refuse, Outcome.survivor] using hstep
    · have hrest := ih (max highest s.index.set)
      cases hsurvivor : (s.judge r).outcome.survivor r with
      | none =>
        have hjudge := hfair.judge r s hr hfind
        have hne : (s.judge r).outcome ≠ .kept := by
          intro hkept; rw [hkept] at hsurvivor; cases hsurvivor
        have herrors : (s.judge r).errors ≠ [] := fun h => hne (hjudge.silent.1 h)
        have hstep := hrest.drop (RuleIndex.max_le_iff.1 (Int32.le_refl _)).1 hr herrors
          fun h => absurd (hjudge.keeps h) hne
        simpa [planFrom, hassess, Admission.raise, Judgement.collect, Admission.judge,
          hsurvivor] using hstep
      | some new =>
        have hstep := Sifted.cons_survivor hfair hr hfind hsurvivor hrest hle
        simpa [planFrom, hassess, Admission.raise, Judgement.collect, Admission.judge,
          hsurvivor] using hstep

/-- **Fair sanitizers sift a list of rules.** -/
theorem sifted_sanitizeRules (hfair : Fair Allowed topLevel depth closer sanitizers)
    {rules : List Rule} (hrules : ∀ r ∈ rules, r.Readable topLevel depth closer) :
    Sifted Allowed topLevel depth closer sanitizers Int32.minValue rules
      (sanitizeRules sanitizers rules).1 (sanitizeRules sanitizers rules).2 :=
  sifted_planFrom hfair rules hrules Int32.minValue

/-- An allowed list of rules in order is left as it is, without a diagnostic. -/
theorem Sifted.errors_eq_nil {rules left : List Rule} {errors : List Diagnostic}
    (h : Sifted Allowed topLevel depth closer sanitizers Int32.minValue rules left errors)
    (hallowed : ∀ r ∈ rules, Allowed r)
    (hordered : rules.Pairwise fun r s =>
      RuleIndex.MayPrecede (indexOf? sanitizers r) (indexOf? sanitizers s)) : errors = [] :=
  h.keeps hallowed (fun _ _ i _ => Int32.minValue_le i.test) hordered

/-- What is left of a list of rules agrees with it exactly if nothing was reported. -/
theorem Sifted.agreesAll_iff {rules left : List Rule} {errors : List Diagnostic}
    (h : Sifted Allowed topLevel depth closer sanitizers highest rules left errors) :
    Rule.agreesAll left rules = true ↔ errors = [] := by
  constructor
  · intro hagrees
    by_cases herrors : errors = []
    · exact herrors
    · have hlt := h.costs herrors
      rw [Rule.marks_of_agreesAll hagrees] at hlt
      exact absurd hlt (Nat.lt_irrefl _)
  · intro herrors
    rw [h.silent herrors]
    exact Rule.agreesAll_self rules

end

end RuleSanitizer

end StyleGate
