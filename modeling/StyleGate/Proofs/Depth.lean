import StyleGate.Proofs.Nesting
import StyleGate.Proofs.Reports

/-!
# One limit on nesting

Groups are counted three times: in the text, among its tokens, and in the values that are judged. Only
the first count ever reaches the limit (`Policy.clean_nesting`). Tokens of a text never lie too deep
(`fits_tokens`), so grouping them passes over nothing (`Grouping.Enters`); and neither the faults of values
that were grouped once nor what is reported of their blocks when these are read again is about groups
(`Reported`).
-/

namespace StyleGate

open Text

/-! ## Tokens of a text -/

/-- Where no group lies too deep in a list, none does in its first part. -/
theorem TokenKind.fits_of_append {closers kinds more : List TokenKind}
    (h : fits closers (kinds ++ more) = true) : fits closers kinds = true := by
  induction kinds generalizing closers with
  | nil => rfl
  | cons kind kinds ih =>
    rw [List.cons_append, fits] at h
    rw [fits]
    cases hcloser : kind.closer? with
    | some closer =>
      rw [hcloser] at h
      obtain ⟨hless, hrest⟩ := Bool.and_eq_true_iff.1 h
      exact Bool.and_eq_true_iff.2 ⟨hless, ih hrest⟩
    | none =>
      rw [hcloser] at h
      dsimp only at h ⊢
      split at h
      · next hhead =>
        rw [if_pos hhead]
        exact ih h
      · next hhead =>
        rw [if_neg hhead]
        exact ih h

/-- No group lies too deep among the tokens of lexemes. -/
theorem Stream.fits_reading {closers skipped : List TokenKind} (xs : List Sourced)
    (hclosers : ∀ kind ∈ closers, kind.closesGroup = true) (hdepth : closers.length ≤ maxGroupDepth) :
    TokenKind.fits closers ((reading closers skipped xs).map Token.kind) = true := by
  induction xs generalizing closers skipped with
  | nil => rfl
  | cons x xs ih =>
    obtain ⟨lexeme, source⟩ := x
    cases lexeme with
    | comment => exact ih hclosers hdepth
    | token kind value =>
      simp only [reading]
      split
      · split
        · exact ih hclosers hdepth
        · split <;> exact ih hclosers hdepth
      · split
        · next closer hcloser =>
          split
          · -- the mark of a group that lies too deep neither opens nor ends a group
            have hmarker : closers.head? ≠ some marker.kind := fun hhead =>
              Bool.false_ne_true (hclosers _ (List.mem_of_head? hhead))
            simp only [List.map_cons, TokenKind.fits]
            rw [if_neg hmarker]
            exact ih hclosers hdepth
          · next hfits =>
            have hless := Nat.lt_of_not_le hfits
            simp only [List.map_cons, Token.of, TokenKind.fits, hcloser, hless, decide_true,
              Bool.true_and]
            exact ih (closesGroup_of_mem_cons hclosers hcloser) hless
        · next hcloser =>
          split
          · next hhead =>
            simp only [List.map_cons, Token.of, TokenKind.fits, hcloser, hhead, if_true]
            refine ih (fun k hk => hclosers k (List.mem_of_mem_tail hk)) ?_
            rw [List.length_tail]
            omega
          · next hhead =>
            simp only [List.map_cons, Token.of, TokenKind.fits, hcloser, hhead, if_false]
            exact ih hclosers hdepth

/-- No group lies too deep among the tokens of a text. -/
theorem fits_tokens (text : String) :
    TokenKind.fits [] ((tokens text).map Token.kind) = true := by
  have hkinds : (tokens text).map Token.kind =
      (Stream.reading [] [] (lexemes text.toList)).map Token.kind := by
    rw [← tokens_map_unplaced, List.map_map]
    rfl
  rw [hkinds]
  exact Stream.fits_reading _ (by simp) (Nat.zero_le _)

/-! ## Grouping the tokens of a text -/

namespace Grouping

variable {s : Grouping} {P : Diagnostic → Prop}

/-- All diagnostics so far have a property. -/
structure Reports (P : Diagnostic → Prop) (s : Grouping) : Prop where
  done : ∀ g ∈ s.done, ∀ d ∈ g.errors, P d
  errors : ∀ d ∈ s.errors, P d

/-- A value brings no diagnostic of its own. -/
theorem Reports.add (h : s.Reports P) (v : ComponentValue) : (s.add v).Reports P := by
  unfold Grouping.add
  split
  · exact ⟨h.done, h.errors⟩
  · refine ⟨List.forall_mem_cons.2 ⟨fun d hd => ?_, h.done⟩, by simp⟩
    exact h.errors d (List.mem_reverse.1 hd)

/-- Nor does the end of a group. -/
theorem Reports.closeInnermost (h : s.Reports P) : s.closeInnermost.Reports P := by
  unfold Grouping.closeInnermost
  split
  · next g outer hg => exact Reports.add (s := { s with groups := outer }) ⟨h.done, h.errors⟩ _
  · exact h

/-- At the end, the groups that are open are reported as such. -/
theorem Reports.closeUnclosed (hunclosed : ∀ g : OpenGroup, P g.unclosed) (n : Nat) {s : Grouping}
    (h : s.Reports P) : (s.closeUnclosed n).Reports P := by
  induction n generalizing s with
  | zero => exact h
  | succ n ih =>
    unfold Grouping.closeUnclosed
    split
    · next g outer hg =>
      exact ih (Reports.closeInnermost ⟨h.done, List.forall_mem_cons.2 ⟨hunclosed g, h.errors⟩⟩)
    · exact h

/-- Every group so far was entered, and those that are open end with the given kinds. -/
structure Enters (s : Grouping) (closers : List TokenKind) : Prop where
  skipping : s.skipping = none
  groups : s.groups.map (·.opener.kind.closer?) = closers.map some

namespace Enters

variable {closers kinds : List TokenKind} {t : Token}

/-- The innermost of the groups is closed by the first of the kinds. -/
theorem closer?_eq (h : s.Enters closers) : s.closer? = closers.head? := by
  have hhead := congrArg List.head? h.groups
  rw [List.head?_map, List.head?_map] at hhead
  unfold Grouping.closer?
  cases hg : s.groups.head? with
  | none => cases hc : closers.head? <;> simp_all
  | some g => cases hc : closers.head? <;> simp_all

/-- There are as many open groups as kinds. -/
theorem length_eq (h : s.Enters closers) : s.groups.length = closers.length := by
  simpa using congrArg List.length h.groups

/-- A value opens and closes nothing. -/
theorem add (h : s.Enters closers) (v : ComponentValue) : (s.add v).Enters closers := by
  have hgroups := h.groups
  unfold Grouping.add
  split
  · next g outer hg =>
    rw [hg] at hgroups
    exact ⟨h.skipping, hgroups⟩
  · exact ⟨h.skipping, h.groups⟩

/-- A closing token leaves the groups outside the innermost one. -/
theorem closeInnermost (h : s.Enters closers) : s.closeInnermost.Enters closers.tail := by
  have hgroups := h.groups
  unfold Grouping.closeInnermost
  split
  · next g outer hg =>
    rw [hg] at hgroups
    refine add (s := { s with groups := outer }) ⟨h.skipping, ?_⟩ _
    rw [List.map_tail, ← hgroups]
    rfl
  · next hg =>
    rw [hg] at hgroups
    rw [List.map_eq_nil_iff.1 hgroups.symm]
    exact ⟨h.skipping, by rw [hg]; rfl⟩

/-- Where no group lies too deep, the next token passes over nothing and reports nothing. -/
theorem push (h : s.Enters closers) (hfits : TokenKind.fits closers (t.kind :: kinds) = true)
    (hreports : s.Reports P) :
    (∃ closers', (s.push t).Enters closers' ∧ TokenKind.fits closers' kinds = true) ∧
      (s.push t).Reports P := by
  rw [TokenKind.fits] at hfits
  cases hcloser : t.kind.closer? with
  | some closer =>
    rw [hcloser] at hfits
    simp only [Bool.and_eq_true, decide_eq_true_eq] at hfits
    have hopens : t.kind.opensGroup = true := by rw [TokenKind.opensGroup, hcloser]; rfl
    rw [push_opener h.skipping hopens (by rw [h.length_eq]; exact hfits.1)]
    refine ⟨⟨closer :: closers, ⟨h.skipping, ?_⟩, hfits.2⟩, hreports.done, hreports.errors⟩
    rw [List.map_cons, hcloser, h.groups, List.map_cons]
  | none =>
    rw [hcloser] at hfits
    dsimp only at hfits
    split at hfits
    · next hhead =>
      have hpush : s.push t = s.closeInnermost := by
        simp only [Grouping.push, h.skipping, closedBy_eq, h.closer?_eq, hhead, decide_true, if_true]
      rw [hpush]
      exact ⟨⟨closers.tail, h.closeInnermost, hfits⟩, hreports.closeInnermost⟩
    · next hhead =>
      have hopens : t.kind.opensGroup = false := by rw [TokenKind.opensGroup, hcloser]; rfl
      rw [push_token h.skipping hopens (by rw [h.closer?_eq]; exact hhead)]
      exact ⟨⟨closers, h.add _, hfits⟩, hreports.add _⟩

/-- Where no group lies too deep, tokens pass over nothing and report nothing. -/
theorem foldl_push {ts : List Token} (h : s.Enters closers)
    (hfits : TokenKind.fits closers (ts.map Token.kind) = true) (hreports : s.Reports P) :
    (ts.foldl Grouping.push s).skipping = none ∧ (ts.foldl Grouping.push s).Reports P := by
  induction ts generalizing s closers with
  | nil => exact ⟨h.skipping, hreports⟩
  | cons t ts ih =>
    obtain ⟨⟨closers', hnext, hrest⟩, hreported⟩ := h.push hfits hreports
    exact ih hnext hrest hreported

end Enters

/-- What is reported of tokens among which no group lies too deep is that groups are open at the end. -/
theorem reports_ofTokens {ts : List Token} (hfits : TokenKind.fits [] (ts.map Token.kind) = true)
    (hunclosed : ∀ g : OpenGroup, P g.unclosed) : ∀ g ∈ ofTokens ts, ∀ d ∈ g.errors, P d := by
  have hstart : Enters {} [] := ⟨rfl, rfl⟩
  obtain ⟨hskipping, hreports⟩ := hstart.foldl_push hfits (P := P) ⟨by simp, by simp⟩
  have hfinish : ((ts.foldl Grouping.push {}).finish).Reports P := by
    simp only [Grouping.finish, hskipping]
    exact hreports.closeUnclosed hunclosed _
  exact fun g hg => hfinish.done g (List.mem_reverse.1 hg)

end Grouping

/-- The diagnostic that the values of rules may leave is of a rule that is not finished. -/
theorem Rule.code_of_mem_ofValues {topLevel : Bool} {vs : List ComponentValue} {d : Diagnostic}
    (hd : d ∈ (ofValues topLevel vs).2) : d.code = Diagnostic.unexpectedEofInRule := by
  unfold ofValues RuleReader.finish at hd
  split at hd
  · cases hd
  · rw [List.mem_singleton.1 hd]
    rfl

/-- A reader of the tokens of a text reports of no group that it lies too deep. -/
theorem Rule.code_ne_of_mem_readAll (text : String) (topLevel : Bool) :
    ∀ d ∈ (readAll topLevel (StyleGate.tokens text)).2, d.code ≠ Diagnostic.nestingTooDeep := by
  intro d hd
  rcases List.mem_append.1 hd with hd | hd
  · obtain ⟨g, hg, hd⟩ := List.mem_flatMap.1 hd
    refine Grouping.reports_ofTokens (P := fun d => d.code ≠ Diagnostic.nestingTooDeep)
      (fits_tokens text) (fun g => ?_) g hg d hd
    unfold OpenGroup.unclosed
    dsimp only
    split <;> decide
  · rw [code_of_mem_ofValues hd]
    decide

/-! ## Whole texts -/

namespace Policy

variable {p : Policy}

/-- **One limit on nesting.** When a valid policy cleans a text, groups that lie too deep are reported in
the order of their places in the text, each once and ahead of everything else: there are `maxGroupDepth`
groups around such a place, and what lies deeper is not looked at. The reader finds no further one, since
it passes over nothing at any time, and nothing that is reported in judging is about groups. -/
theorem clean_nesting (hvalid : p.validate = .ok ()) (css : String) :
    ∃ sheet, p.clean css = .ok sheet ∧
      sheet.parseErrors = ((places css).filter Place.opensTooDeep).map Place.report ++
        (Rule.readAll true (tokens css)).2 ∧
      (∀ d ∈ (Rule.readAll true (tokens css)).2, d.code ≠ Diagnostic.nestingTooDeep) ∧
      (∀ ts, ts <+: tokens css → (ts.foldl Grouping.push {}).skipping = none) ∧
      ∀ d ∈ sheet.sanitizationErrors, d.code ≠ Diagnostic.nestingTooDeep ∧
        d.code ≠ Diagnostic.unexpectedEofInBlock ∧ d.code ≠ Diagnostic.unexpectedEofInFunction := by
  have hclean : p.clean css = .ok (p.cleanText css) := by
    rw [clean, hvalid]
    rfl
  refine ⟨_, hclean, ?_, Rule.code_ne_of_mem_readAll css true, ?_, ?_⟩
  · have htokens : (tokenize css).2 = ((places css).filter Place.opensTooDeep).map Place.report := by
      rw [tokenize_eq]
    rw [← htokens]
    rfl
  · rintro ts ⟨more, hmore⟩
    have hfits := fits_tokens css
    rw [← hmore, List.map_append] at hfits
    have hstart : Grouping.Enters {} [] := ⟨rfl, rfl⟩
    exact (hstart.foldl_push (TokenKind.fits_of_append hfits) (P := fun _ => True)
      ⟨by simp, by simp⟩).1
  · have hreports : Reported (fun _ => True) (p.cleanText css).sanitizationErrors :=
      p.reported_judgeStylesheet (tokens css) (by simp)
    intro d hd
    simpa [Diagnostic.isOfGroup] using (hreports d hd).1

/-- A group that is not closed is reported in reading the text, and not again in judging its rules. -/
theorem clean_nesting_unclosed :
    ∃ sheet, standard.clean "@media x\x7ba\x7bcolor:rgb(1;b:c" = .ok sheet ∧
      sheet.parseErrors.map (·.code) = [Diagnostic.unexpectedEofInFunction,
        Diagnostic.unexpectedEofInBlock, Diagnostic.unexpectedEofInBlock] ∧
      sheet.sanitizationErrors ≠ [] ∧
      ∀ d ∈ sheet.sanitizationErrors, d.code ≠ Diagnostic.unexpectedEofInBlock := by
  obtain ⟨sheet, hclean, -, -, -, hjudged⟩ :=
    @clean_nesting standard (if_pos (by decide +kernel)) "@media x\x7ba\x7bcolor:rgb(1;b:c"
  have hsheet : standard.cleanText "@media x\x7ba\x7bcolor:rgb(1;b:c" = sheet := Except.ok.inj hclean
  refine ⟨sheet, hclean, ?_, ?_, fun d hd => (hjudged d hd).2.1⟩
  · rw [← hsheet]
    decide +kernel
  · rw [← hsheet]
    decide +kernel

end Policy

end StyleGate
