import StyleGate.Proofs.Normal

/-!
# Values from tokens at other positions

Grouping does not look at positions: it goes with erasing them (`Grouping.ofTokens_map_unplaced`). So
tokens that differ from the normal form of a list of values in their positions only are grouped into
the normal form of the values, without a diagnostic (`ComponentValue.readAll_of_normal`).
-/

namespace StyleGate

/-- A diagnostic without its position. -/
def Diagnostic.unplaced (d : Diagnostic) : Diagnostic := { d with position := Position.unknown }

/-- A value with its diagnostics, all without positions. -/
def Grouped.unplaced (g : Grouped) : Grouped := ⟨g.value.unplaced, g.errors.map Diagnostic.unplaced⟩

namespace OpenGroup

/-- An open group without positions. -/
def unplaced (g : OpenGroup) : OpenGroup :=
  ⟨g.opener.unplaced, ComponentValue.unplacedAll g.contents⟩

/-- A group ends alike without positions. -/
theorem close_unplaced (g : OpenGroup) : g.unplaced.close = g.close.unplaced := by
  unfold close unplaced
  simp only [Token.unplaced_kind]
  split <;> simp_all [ComponentValue.unplaced, ComponentValue.unplacedAll_eq_map]

/-- That it was not closed is reported alike. -/
theorem unclosed_unplaced (g : OpenGroup) : g.unplaced.unclosed = g.unclosed.unplaced := rfl

end OpenGroup

namespace Grouping

/-- What is known in the middle of a list of tokens, without positions. -/
def unplaced (s : Grouping) : Grouping where
  done := s.done.map Grouped.unplaced
  groups := s.groups.map OpenGroup.unplaced
  errors := s.errors.map Diagnostic.unplaced
  skipping := s.skipping.map fun (t, n) => (t.unplaced, n)

variable (s : Grouping)

/-- A value is added alike without positions. -/
theorem add_unplaced (v : ComponentValue) : s.unplaced.add v.unplaced = (s.add v).unplaced := by
  unfold add
  cases hgroups : s.groups with
  | nil => simp [unplaced, hgroups, Grouped.unplaced]
  | cons g outer =>
    simp [unplaced, hgroups, OpenGroup.unplaced, ComponentValue.unplacedAll]

/-- A diagnostic is recorded alike. -/
theorem record_unplaced (d : Diagnostic) : s.unplaced.record d.unplaced = (s.record d).unplaced := rfl

/-- The innermost group is closed alike. -/
theorem closeInnermost_unplaced : s.unplaced.closeInnermost = s.closeInnermost.unplaced := by
  unfold closeInnermost
  cases hgroups : s.groups with
  | nil => simp [unplaced, hgroups]
  | cons g outer =>
    have hadd := add_unplaced { s with groups := outer } g.close
    simpa [unplaced, hgroups, OpenGroup.close_unplaced] using hadd

/-- A group that is passed over ends alike. -/
theorem endSkip_unplaced (t : Token) : s.unplaced.endSkip t.unplaced = (s.endSkip t).unplaced :=
  add_unplaced { s with skipping := none } (.token (Token.tooDeepMarker t.position))

/-- It is passed over alike. -/
theorem skip_unplaced (t u : Token) (n : Nat) :
    s.unplaced.skip t.unplaced n u.unplaced = (s.skip t n u).unplaced := by
  unfold skip
  simp only [Token.unplaced_kind, endSkip_unplaced]
  split
  · rfl
  · split
    · split <;> rfl
    · rfl

/-- A group is opened, or passed over, alike. -/
theorem openGroup_unplaced (t : Token) :
    s.unplaced.openGroup t.unplaced = (s.openGroup t).unplaced := by
  unfold openGroup
  have hlength : s.unplaced.groups.length = s.groups.length := by simp [unplaced]
  rw [hlength]
  split <;> rfl

/-- Which token closes the innermost group has nothing to do with positions. -/
theorem closedBy_unplaced (t : Token) : s.unplaced.closedBy t.unplaced = s.closedBy t := by
  unfold closedBy
  cases hgroups : s.groups <;> simp [unplaced, hgroups, OpenGroup.unplaced]

/-- What is done with a token does not depend on positions. -/
theorem push_unplaced (t : Token) : s.unplaced.push t.unplaced = (s.push t).unplaced := by
  unfold push
  cases hskipping : s.skipping with
  | some skipped =>
    obtain ⟨opener, n⟩ := skipped
    have hunplaced : s.unplaced.skipping = some (opener.unplaced, n) := by
      simp [unplaced, hskipping]
    simp only [hunplaced, skip_unplaced]
  | none =>
    have hunplaced : s.unplaced.skipping = none := by simp [unplaced, hskipping]
    simp only [hunplaced, closedBy_unplaced, Token.unplaced_kind]
    have hadd : s.unplaced.add (.token t.unplaced) = (s.add (.token t)).unplaced :=
      add_unplaced s (.token t)
    rw [closeInnermost_unplaced, openGroup_unplaced, hadd]
    simp only [apply_ite unplaced]
    rfl

/-- All tokens are taken alike. -/
theorem foldl_push_unplaced (ts : List Token) :
    (ts.map Token.unplaced).foldl push s.unplaced = (ts.foldl push s).unplaced := by
  induction ts generalizing s with
  | nil => rfl
  | cons t ts ih => rw [List.map_cons, List.foldl_cons, push_unplaced, ih, List.foldl_cons]

/-- Groups that are left open are closed alike. -/
theorem closeUnclosed_unplaced (n : Nat) :
    s.unplaced.closeUnclosed n = (s.closeUnclosed n).unplaced := by
  induction n generalizing s with
  | zero => rfl
  | succ n ih =>
    unfold closeUnclosed
    cases hgroups : s.groups with
    | nil => simp [unplaced, hgroups]
    | cons g outer =>
      have hunplaced : s.unplaced.groups = g.unplaced :: outer.map OpenGroup.unplaced := by
        simp [unplaced, hgroups]
      simp only [hunplaced]
      rw [OpenGroup.unclosed_unplaced, record_unplaced, closeInnermost_unplaced, ih]

/-- **Grouping does not look at positions.** Tokens without them are grouped as they are with
them. -/
theorem finish_unplaced : s.unplaced.finish = s.finish.unplaced := by
  have hlength (s : Grouping) : s.unplaced.groups.length = s.groups.length := by simp [unplaced]
  unfold finish
  cases hskipping : s.skipping with
  | none =>
    have hunplaced : s.unplaced.skipping = none := by simp [unplaced, hskipping]
    simp only [hunplaced, hlength, closeUnclosed_unplaced]
  | some skipped =>
    obtain ⟨opener, n⟩ := skipped
    have hunplaced : s.unplaced.skipping = some (opener.unplaced, n) := by
      simp [unplaced, hskipping]
    simp only [hunplaced, endSkip_unplaced, hlength, closeUnclosed_unplaced]

/-- **Grouping does not look at positions.** -/
theorem ofTokens_map_unplaced (ts : List Token) :
    ofTokens (ts.map Token.unplaced) = (ofTokens ts).map Grouped.unplaced := by
  have hinit : unplaced {} = {} := rfl
  rw [ofTokens, ← hinit, foldl_push_unplaced, finish_unplaced, ofTokens, List.map_reverse]
  rfl

end Grouping

namespace ComponentValue

/-- Tokens that differ from the normal form of a list of values in their positions only are read as
the normal form of the values, without a diagnostic. -/
theorem readAll_of_normal {vs : List ComponentValue} {ts : List Token}
    (hvs : ∀ v ∈ vs, v.Regular 0 none) (hlegible : ∀ t ∈ tokensAll vs, t.Legible)
    (hfits : TokenKind.fits [] ((Token.normal (tokensAll vs)).map Token.kind) = true)
    (hts : ts.map Token.unplaced = Token.normal (tokensAll vs)) :
    unplacedAll (readAll ts).1 = normalAll vs ∧ (readAll ts).2 = [] := by
  have htokens := tokensAll_normalAll hvs hlegible
  have hregular := regular_normalAll hvs (by rwa [htokens])
  have hgroups := Grouping.ofTokens_map_unplaced ts
  rw [hts, ← htokens, Grouping.ofTokens_tokensAll hregular] at hgroups
  refine ⟨?_, ?_⟩
  · have hvalues := congrArg (List.map Grouped.value) hgroups
    rw [unplacedAll_eq_map, readAll, List.map_map]
    simpa [Function.comp_def, Grouped.unplaced] using hvalues.symm
  · have herrors := congrArg (List.flatMap Grouped.errors) hgroups
    have hnil : ∀ g ∈ Grouping.ofTokens ts, g.errors.map Diagnostic.unplaced = [] := by
      rw [List.flatMap_map, List.flatMap_map] at herrors
      exact List.flatMap_eq_nil_iff.1 (herrors.symm.trans (by simp))
    rw [readAll]
    exact List.flatMap_eq_nil_iff.2 fun g hg => by simpa using hnil g hg

end ComponentValue

end StyleGate
