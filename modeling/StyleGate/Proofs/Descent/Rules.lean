import StyleGate.Proofs.Descent.Values

/-!
# Rules in a descent

A descent reads rules as the reader of rules does (`Descent.reads_rules`). What the reader keeps as its
state, a rule that has been started, is what the descent has still to do (`Descent.rulesFrom`), so one
step of the reader is compared with one token, group or rule's end in the descent.
-/

namespace StyleGate

/-! ## Lists of rules -/

/-- A block in braces is not refused. -/
theorem OpenRule.setBlock_eq (r : OpenRule) {b : Block} (hb : b.isBraces = true) :
    r.setBlock b = .ok (r.withBlock b) := by
  cases r <;> simp [setBlock, AtRule.withBlock, QualifiedRule.withBlock, hb, Except.map, withBlock]

namespace Descent

variable {α : Type} {ts rest : List Token} {d d' : Nat} {ds : List Diagnostic} {t : Token} {g : Grouped}
  {fuel outer inner : Nat}

/-- What a token starts does to a started rule in a descent what it does in reading: it ends the rule, or
goes into its prelude. -/
theorem Takes.ruleRest (h : Takes 0 t ts g rest) (r : OpenRule) (hfuel : ts.length < fuel) :
    (∃ rule, r.step g.value = .ends rule ∧
      Reads (ruleRest (fuel + 1) r) (t :: ts) 0 (some rule) g.errors rest 0) ∨
    (r.step g.value = .goesOn (r.add g.value) ∧ ∀ {k : Option Rule → Descent α} {a : α}
      {ds : List Diagnostic}, Reads (Descent.ruleRest fuel (r.add g.value) >>= k) rest 0 a ds [] 0 →
        Reads (Descent.ruleRest (fuel + 1) r >>= k) (t :: ts) 0 a (g.errors ++ ds) [] 0) := by
  rw [Descent.ruleRest]
  by_cases hsemicolon : t.kind = .semicolon ∧ r.withoutBlock?.isSome = true
  · obtain ⟨hkind, hsome⟩ := hsemicolon
    obtain ⟨rule, hrule⟩ := Option.isSome_iff_exists.1 hsome
    have hends := OpenRule.step_semicolon ((h.isToken_iff rfl).2 hkind) hrule
    obtain ⟨rfl, rfl⟩ := h.of_not_opens (by rw [hkind]; rfl)
    refine .inl ⟨rule, hends, (Reads.next_cons t).behind ?_⟩
    dsimp only
    rw [if_pos ⟨hkind, hsome⟩, hrule]
    exact .pure _
  · by_cases hbrace : t.kind = .leftBrace
    · obtain ⟨b, hvalue, hbraces, hreads⟩ := h.of_leftBrace hbrace
      refine .inl ⟨r.withBlock b, by rw [hvalue, OpenRule.step_block hbraces],
        (Reads.next_cons t).behind ?_⟩
      dsimp only
      rw [if_neg hsemicolon, if_pos hbrace]
      refine (hreads fuel hfuel).before ?_
      rw [OpenRule.setBlock_eq r hbraces]
      exact (Reads.pure _).behind (.pure _)
    · have hnotBraces : g.value.isBraces = false := h.isBraces.trans (beq_eq_false_iff_ne.2 hbrace)
      have hgoesOn : g.value.isToken .semicolon = false ∨ r.withoutBlock? = none := by
        rw [h.isToken rfl, beq_eq_false_iff_ne, ← Option.not_isSome_iff_eq_none]
        exact Decidable.not_and_iff_not_or_not.1 hsemicolon
      refine .inr ⟨OpenRule.step_of_goesOn hnotBraces hgoesOn, fun hrest => ?_⟩
      rw [bind_assoc]
      refine (Reads.next_cons t).behind ?_
      dsimp only
      rw [if_neg hsemicolon, if_neg hbrace, bind_assoc]
      exact (h.value_top hfuel).bind hrest

/-- A started rule that is not finished at the end. -/
theorem reads_ruleRest_nil (r : OpenRule) (hfuel : 0 < fuel) :
    Reads (ruleRest fuel r) [] d r.withoutBlock? [r.unfinished] [] d := by
  obtain ⟨fuel, rfl, -⟩ := exists_fuel hfuel
  rw [ruleRest]
  exact Reads.next_nil.behind ((Reads.record _).before (.pure _))

/-- A token that is put back is the next one. -/
theorem Reads.reconsumed {f : Option Token → Descent α} {a : α}
    (h : Reads (next >>= f) (t :: ts) d a ds rest d') :
    Reads (do reconsume t; let o ← next; f o) ts d a ds rest d' := by
  intro errors
  rw [← h errors]
  rfl

/-- A qualified rule starts at the token that was put back. -/
theorem reads_qualifiedRule {k : Option Rule → Descent α} {a : α}
    (h : Reads (ruleRest (fuel + 1) (.qualified t.position []) >>= k) (t :: ts) d a ds rest d') :
    Reads (do reconsume t; let rule ← qualifiedRule (fuel + 1); k rule) ts d a ds rest d' := by
  rw [ruleRest, bind_assoc] at h
  intro errors
  rw [← h.reconsumed errors, ← bind_assoc next, ← ruleRest]
  rfl

/-- An at-rule starts with its keyword. -/
theorem atRule_eq (hkind : t.kind = .atKeyword) : atRule fuel t = ruleRest fuel (.atRule t []) := by
  rw [atRule, AtRule.ofKeyword, if_pos hkind, accepted, pure_bind]

/-- The rest of a list of rules, in which a rule may have been started. The rule has its own fuel. -/
def rulesFrom (topLevel : Bool) (outer inner : Nat) (sofar : List Rule) :
    Option OpenRule → Descent (List Rule)
  | none => rules topLevel outer sofar
  | some r => do
    let rule ← ruleRest inner r
    rules topLevel outer (sofar ++ rule.toList)

/-- What a reader makes of the groups that are left, with their diagnostics in front. -/
def ReadsRules (topLevel : Bool) (m : Descent (List Rule)) (ts : List Token) (s : RuleReader)
    (gs : List Grouped) (earlier : List Diagnostic) : Prop :=
  Reads m ts 0 ((gs.map (·.value)).foldl (RuleReader.push topLevel) s).finish.1
    (earlier ++ (gs.flatMap (·.errors) ++
      ((gs.map (·.value)).foldl (RuleReader.push topLevel) s).finish.2)) [] 0

/-- The rest of a list of rules is read as a reader does from where it is. -/
def ReadsRest (topLevel : Bool) (ts : List Token) (gs : List Grouped) : Prop :=
  ∀ (s : RuleReader) (outer inner : Nat), ts.length < outer → ts.length < inner →
    ReadsRules topLevel (rulesFrom topLevel outer inner s.done.reverse s.current) ts s gs []

variable {topLevel : Bool} {gs : List Grouped}

/-- What a token starts goes to a started rule. -/
theorem Takes.reads_goOn (h : Takes 0 t ts g rest) (ih : ReadsRest topLevel rest gs) (s : RuleReader)
    (r : OpenRule) (houter : ts.length < outer) (hinner : ts.length < inner) :
    ReadsRules topLevel (rulesFrom topLevel outer (inner + 1) s.done.reverse (some r)) (t :: ts)
      (s.goOn r g.value) gs g.errors := by
  rw [RuleReader.goOn, rulesFrom]
  rcases h.ruleRest r hinner with ⟨rule, hstep, hreads⟩ | ⟨hstep, hgoesOn⟩
  · rw [hstep]
    refine hreads.bind ?_
    have hrest := ih { done := rule :: s.done, current := none } outer inner (h.enough houter)
      (h.enough hinner)
    rw [List.reverse_cons] at hrest
    exact hrest
  · rw [hstep]
    exact hgoesOn (ih { s with current := some (r.add g.value) } outer inner (h.enough houter)
      (h.enough hinner))

/-- What is left out in front of a rule. -/
theorem Takes.isSkipped_iff (h : Takes d t ts g rest) :
    RuleReader.isSkipped topLevel g.value = true ↔
      t.kind = .whitespace ∨ topLevel = true ∧ (t.kind = .cdo ∨ t.kind = .cdc) := by
  rw [RuleReader.isSkipped, ComponentValue.isWhitespace, h.isToken rfl, h.isToken rfl, h.isToken rfl]
  simp

/-- What a token starts is taken as the next part of a list of rules. -/
theorem Takes.reads_rulesFrom (h : Takes 0 t ts g rest) (ih : ReadsRest topLevel rest gs)
    (s : RuleReader) (houter : ts.length < outer) (hinner : ts.length < inner) :
    ReadsRules topLevel (rulesFrom topLevel (outer + 1) (inner + 1) s.done.reverse s.current) (t :: ts)
      (s.push topLevel g.value) gs g.errors := by
  cases hcurrent : s.current with
  | some r =>
    have hpush : s.push topLevel g.value = s.goOn r g.value := by simp only [RuleReader.push, hcurrent]
    rw [hpush]
    exact h.reads_goOn ih s r (Nat.lt_succ_of_lt houter) hinner
  | none =>
    simp only [RuleReader.push, hcurrent]
    rw [rulesFrom, rules]
    refine (Reads.next_cons t).behind ?_
    dsimp only
    by_cases hskipped : RuleReader.isSkipped topLevel g.value = true
    · have hkind := h.isSkipped_iff.1 hskipped
      have hopens : t.kind.opensGroup = false := by
        rcases hkind with hkind | ⟨-, hkind | hkind⟩ <;> (rw [hkind]; rfl)
      obtain ⟨rfl, rfl⟩ := h.of_not_opens hopens
      have hrest := ih s outer outer houter houter
      rw [hcurrent, rulesFrom] at hrest
      rw [if_pos hskipped]
      by_cases hblank : t.kind = .whitespace
      · rw [if_pos hblank]
        exact hrest
      · rw [if_neg hblank, if_pos (hkind.resolve_left hblank)]
        exact hrest
    · obtain ⟨hblank, hmark⟩ := not_or.1 (mt h.isSkipped_iff.2 hskipped)
      rw [if_neg hskipped, if_neg hblank, if_neg hmark]
      have hkeyword : g.value.isToken .atKeyword = true ↔ t.kind = .atKeyword := h.isToken_iff rfl
      by_cases hkind : t.kind = .atKeyword
      · obtain ⟨rfl, rfl⟩ := h.of_not_opens (by rw [hkind]; rfl)
        have hrest := ih { s with current := some (OpenRule.start (.token t)) } outer outer houter houter
        rw [OpenRule.start, if_pos hkind] at hrest
        rw [if_pos (hkeyword.2 hkind), if_pos hkind, atRule_eq hkind, OpenRule.start, if_pos hkind]
        exact hrest
      · have hstart : OpenRule.start g.value = .qualified t.position [] := by
          rw [OpenRule.start_eq_qualified (Bool.eq_false_iff.2 (mt hkeyword.1 hkind)), h.position]
        rw [if_neg (mt hkeyword.1 hkind), if_neg hkind]
        refine reads_qualifiedRule ?_
        rw [← hstart]
        exact h.reads_goOn ih s _ houter houter

/-- All that is left is read as its rules. -/
theorem Parts.readsRest (h : Parts ts gs) : ReadsRest topLevel ts gs := by
  induction h with
  | nil =>
    intro s outer inner houter hinner
    obtain ⟨outer, rfl, -⟩ := exists_fuel houter
    rw [ReadsRules, List.map_nil, List.foldl_nil, RuleReader.finish]
    cases s.current with
    | none =>
      rw [rulesFrom, rules]
      exact Reads.next_nil.behind (.pure _)
    | some r =>
      have hlast : (r.withoutBlock?.toList ++ s.done).reverse = s.done.reverse ++ r.withoutBlock?.toList := by
        cases r <;> simp [OpenRule.withoutBlock?]
      rw [rulesFrom]
      refine (reads_ruleRest_nil r hinner).before ?_
      rw [rules]
      dsimp only
      rw [hlast]
      exact Reads.next_nil.behind (.pure _)
  | @cons t ts rest g gs htakes _ ih =>
    intro s outer inner houter hinner
    obtain ⟨outer, rfl, hleft⟩ := exists_fuel houter
    obtain ⟨inner, rfl, hright⟩ := exists_fuel hinner
    have hstep := htakes.reads_rulesFrom ih s hleft hright
    rw [ReadsRules, ← List.append_assoc, ← List.flatMap_cons (f := fun g : Grouped => g.errors)] at hstep
    exact hstep

/-- All that is left is read as rules. -/
theorem reads_rules (topLevel : Bool) (hfuel : ts.length < fuel) :
    Reads (rules topLevel fuel []) ts 0 (Rule.readAll topLevel ts).1 (Rule.readAll topLevel ts).2 [] 0 :=
  (parts_ofTokens ts).readsRest {} fuel fuel hfuel hfuel

end Descent

end StyleGate
