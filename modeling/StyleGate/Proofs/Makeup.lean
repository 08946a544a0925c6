import StyleGate.ComponentValue.Grouping

/-!
# What groups are made of

A value is `ComponentValue.BuiltFrom` tokens with a property if the tokens and opening tokens in it have
that property. The tokens that end its groups do not count: they are derived, and have no place.

A property of tokens may come with one of diagnostics, such that a token with the first is only ever
reported by diagnostics with the second (`Grouping.Carries`). Then what grouping makes of such tokens,
values and diagnostics, has these properties too (`Grouping.builtFrom_ofTokens`).
-/

namespace StyleGate

/-- A value whose tokens have a property, but for those that end its groups. -/
inductive ComponentValue.BuiltFrom (P : Token → Prop) : ComponentValue → Prop
  | token {t : Token} : P t → BuiltFrom P (.token t)
  | block {opener : Token} {contents : List ComponentValue} :
      P opener → (∀ v ∈ contents, BuiltFrom P v) → BuiltFrom P (.block opener contents)
  | function {name : Token} {contents : List ComponentValue} :
      P name → (∀ v ∈ contents, BuiltFrom P v) → BuiltFrom P (.function name contents)

/-- The contents of a block are built from what the block is built from. -/
theorem ComponentValue.BuiltFrom.contents {P : Token → Prop} {opener : Token}
    {contents : List ComponentValue} (h : BuiltFrom P (.block opener contents)) :
    ∀ v ∈ contents, BuiltFrom P v := by
  cases h with
  | block _ hcontents => exact hcontents

namespace Grouping

/-- A property of tokens, and one of the diagnostics that grouping records of them. The mark that takes
the place of a group has the first as well. -/
structure Carries (P : Token → Prop) (E : Diagnostic → Prop) : Prop where
  marker : ∀ t, P t → P (Token.tooDeepMarker t.position)
  tooDeep : ∀ t, P t → E ⟨Diagnostic.nestingTooDeep, t.position⟩
  unclosed : ∀ g : OpenGroup, P g.opener → E g.unclosed

/-- All that was read so far is built from tokens with a property, and so is what was recorded. -/
structure BuiltFrom (P : Token → Prop) (E : Diagnostic → Prop) (s : Grouping) : Prop where
  done : ∀ g ∈ s.done, g.value.BuiltFrom P ∧ ∀ d ∈ g.errors, E d
  groups : ∀ g ∈ s.groups, P g.opener ∧ ∀ v ∈ g.contents, v.BuiltFrom P
  errors : ∀ d ∈ s.errors, E d
  skipping : ∀ opener n, s.skipping = some (opener, n) → P opener

variable {P : Token → Prop} {E : Diagnostic → Prop} {s : Grouping}

/-- A group that is closed is built from its opening token and its contents. -/
theorem builtFrom_close {g : OpenGroup} (hopener : P g.opener)
    (hcontents : ∀ v ∈ g.contents, v.BuiltFrom P) : g.close.BuiltFrom P := by
  have hcontents : ∀ v ∈ g.contents.reverse, v.BuiltFrom P :=
    fun v hv => hcontents v (List.mem_reverse.1 hv)
  unfold OpenGroup.close
  split
  · exact .function hopener hcontents
  · exact .block hopener hcontents

namespace BuiltFrom

/-- A value that is built from such tokens may be added. -/
theorem add (h : s.BuiltFrom P E) {v : ComponentValue} (hv : v.BuiltFrom P) :
    (s.add v).BuiltFrom P E := by
  unfold Grouping.add
  split
  · next g outer hg =>
    have hgroups := h.groups
    rw [hg] at hgroups
    obtain ⟨⟨hopener, hcontents⟩, houter⟩ := List.forall_mem_cons.1 hgroups
    have hfirst : ∀ w ∈ v :: g.contents, w.BuiltFrom P := List.forall_mem_cons.2 ⟨hv, hcontents⟩
    exact ⟨h.done, List.forall_mem_cons.2 ⟨⟨hopener, hfirst⟩, houter⟩, h.errors, h.skipping⟩
  · have herrors : ∀ d ∈ s.errors.reverse, E d := fun d hd => h.errors d (List.mem_reverse.1 hd)
    exact ⟨List.forall_mem_cons.2 ⟨⟨hv, herrors⟩, h.done⟩, h.groups, by simp, h.skipping⟩

/-- A diagnostic with the property may be recorded. -/
theorem record (h : s.BuiltFrom P E) {d : Diagnostic} (hd : E d) : (s.record d).BuiltFrom P E :=
  ⟨h.done, h.groups, List.forall_mem_cons.2 ⟨hd, h.errors⟩, h.skipping⟩

/-- To close a group adds no token of another sort. -/
theorem closeInnermost (h : s.BuiltFrom P E) : s.closeInnermost.BuiltFrom P E := by
  unfold Grouping.closeInnermost
  split
  · next g outer hg =>
    have hgroups := h.groups
    rw [hg] at hgroups
    obtain ⟨⟨hopener, hcontents⟩, houter⟩ := List.forall_mem_cons.1 hgroups
    exact add (s := { s with groups := outer }) ⟨h.done, houter, h.errors, h.skipping⟩
      (builtFrom_close hopener hcontents)
  · exact h

/-- The mark in the place of a group has the property of the token that opened the group. -/
theorem endSkip (hcarries : Carries P E) (h : s.BuiltFrom P E) {opener : Token} (hopener : P opener) :
    (s.endSkip opener).BuiltFrom P E :=
  add (s := { s with skipping := none }) ⟨h.done, h.groups, h.errors, fun _ _ h => nomatch h⟩
    (.token (hcarries.marker opener hopener))

/-- A token with the property adds to what is built from such tokens. -/
theorem push (hcarries : Carries P E) (h : s.BuiltFrom P E) {t : Token} (ht : P t) :
    (s.push t).BuiltFrom P E := by
  unfold Grouping.push
  split
  · next opener n hskipping =>
    have hopener : P opener := h.skipping opener n hskipping
    have hcount : ∀ m, BuiltFrom P E { s with skipping := some (opener, m) } := by
      refine fun m => ⟨h.done, h.groups, h.errors, ?_⟩
      rintro _ _ ⟨⟩
      exact hopener
    unfold Grouping.skip
    split
    · exact hcount _
    · split
      · split
        · exact h.endSkip hcarries hopener
        · exact hcount _
      · exact h
  · split
    · exact h.closeInnermost
    · split
      · unfold openGroup
        split
        · have hrecord := h.record (hcarries.tooDeep t ht)
          refine ⟨hrecord.done, hrecord.groups, hrecord.errors, ?_⟩
          rintro _ _ ⟨⟩
          exact ht
        · exact ⟨h.done, List.forall_mem_cons.2 ⟨⟨ht, by simp⟩, h.groups⟩, h.errors, h.skipping⟩
      · exact h.add (.token ht)

/-- All that is read of such tokens is built from them. -/
theorem foldl_push (hcarries : Carries P E) {ts : List Token} (h : s.BuiltFrom P E)
    (hts : ∀ t ∈ ts, P t) : (ts.foldl Grouping.push s).BuiltFrom P E := by
  induction ts generalizing s with
  | nil => exact h
  | cons t ts ih =>
    obtain ⟨ht, hts⟩ := List.forall_mem_cons.1 hts
    exact ih (h.push hcarries ht) hts

/-- What is recorded of an unclosed group has the property as well. -/
theorem closeUnclosed (hcarries : Carries P E) (n : Nat) {s : Grouping} (h : s.BuiltFrom P E) :
    (s.closeUnclosed n).BuiltFrom P E := by
  induction n generalizing s with
  | zero => exact h
  | succ n ih =>
    unfold Grouping.closeUnclosed
    split
    · next g outer hg =>
      have hopener : P g.opener := (h.groups g (by rw [hg]; exact .head _)).1
      exact ih (h.record (hcarries.unclosed g hopener)).closeInnermost
    · exact h

/-- In the end all is built from the tokens. -/
theorem finish (hcarries : Carries P E) (h : s.BuiltFrom P E) : s.finish.BuiltFrom P E := by
  unfold Grouping.finish
  split
  · next opener n hskipping =>
    exact (h.endSkip hcarries (h.skipping opener n hskipping)).closeUnclosed hcarries _
  · exact h.closeUnclosed hcarries _

end BuiltFrom

/-- **What groups are made of.** Tokens with a property are grouped into values that are built from
such tokens, with diagnostics that report such tokens. -/
theorem builtFrom_ofTokens (hcarries : Carries P E) {ts : List Token} (hts : ∀ t ∈ ts, P t) :
    ∀ g ∈ ofTokens ts, g.value.BuiltFrom P ∧ ∀ d ∈ g.errors, E d := by
  have hstart : BuiltFrom P E {} := ⟨by simp, by simp, by simp, fun _ _ h => nomatch h⟩
  have hend := (hstart.foldl_push hcarries hts).finish hcarries
  exact fun g hg => hend.done g (List.mem_reverse.1 hg)

end Grouping

/-- Values that are read from tokens with a property are built from such tokens, and what is recorded
reports such tokens. -/
theorem ComponentValue.builtFrom_readAll {P : Token → Prop} {E : Diagnostic → Prop}
    (hcarries : Grouping.Carries P E) {ts : List Token} (hts : ∀ t ∈ ts, P t) :
    (∀ v ∈ (readAll ts).1, v.BuiltFrom P) ∧ ∀ d ∈ (readAll ts).2, E d := by
  have hgroups := Grouping.builtFrom_ofTokens hcarries hts
  constructor
  · intro v hv
    obtain ⟨g, hg, rfl⟩ := List.mem_map.1 hv
    exact (hgroups g hg).1
  · intro d hd
    obtain ⟨g, hg, hd⟩ := List.mem_flatMap.1 hd
    exact (hgroups g hg).2 d hd

end StyleGate
