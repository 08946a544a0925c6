import StyleGate.Proofs.Declarations

/-!
# The grammar of a list of declarations

`Declaration.Listed` is the grammar of a list of declarations: declarations one after another, each
with a semicolon behind it unless it is the last, and between them whitespace and further semicolons.
Values are read as declarations without a diagnostic exactly if they are such a list
(`Declaration.ofGroups_eq_iff`).
-/

namespace StyleGate

namespace Declaration

/-- Values that are read as a declaration: its name, and what follows up to a semicolon. -/
structure Spells (name : Token) (parts : List ComponentValue) (d : Declaration) : Prop where
  ident : name.kind = .ident
  unbroken : ∀ v ∈ parts, v.isToken .semicolon = false
  read : ofParts? name parts = some d

/-- A list of values that consists of the given declarations and of what is left out between them. -/
inductive Listed : List ComponentValue → List Declaration → Prop
  | nil : Listed [] []
  | skip {v : ComponentValue} {vs : List ComponentValue} {ds : List Declaration} :
      v.isWhitespace = true ∨ v.isToken .semicolon = true → Listed vs ds → Listed (v :: vs) ds
  | last {name : Token} {parts : List ComponentValue} {d : Declaration} :
      Spells name parts d → Listed (.token name :: parts) [d]
  | declaration {name : Token} {parts vs : List ComponentValue} {v : ComponentValue}
      {d : Declaration} {ds : List Declaration} :
      Spells name parts d → v.isToken .semicolon = true → Listed vs ds →
      Listed (.token name :: (parts ++ v :: vs)) (d :: ds)

end Declaration

namespace DeclarationReader

variable {s : DeclarationReader}

/-! ## A list is read as its declarations -/

/-- A name starts a declaration. -/
theorem push_name {name : Token} (hs : s.current = .none) (hname : name.kind = .ident) :
    s.push (ComponentValue.token name).silent = { s with current := .named name [] } := by
  simp [push, hs, startNext, ComponentValue.silent, hname]

/-- Whitespace and semicolons between declarations are left out. -/
theorem push_skipped {v : ComponentValue} (hs : s.current = .none)
    (hv : v.isWhitespace = true ∨ v.isToken .semicolon = true) : s.push v.silent = s := by
  cases v with
  | token t =>
    have ht : t.kind = .whitespace ∨ t.kind = .semicolon := by
      simpa [ComponentValue.isWhitespace, ComponentValue.isToken] using hv
    simp only [push, hs, startNext, ComponentValue.silent, if_pos ht]
  | block | function => rcases hv with hv | hv <;> cases hv

/-- A semicolon ends a declaration. -/
theorem push_semicolon {v : ComponentValue} {name : Token} {parts : List ComponentValue}
    (hs : s.current = .named name parts) (hv : v.isToken .semicolon = true) :
    s.push v.silent = s.endNamed name parts := by
  simp [push, hs, ComponentValue.silent, hv]

/-- What follows the name of a declaration is read up to a semicolon. -/
theorem foldl_push_parts {name : Token} {parts : List ComponentValue} (hs : s.current = .none)
    (hname : name.kind = .ident) (hparts : ∀ v ∈ parts, v.isToken .semicolon = false) :
    ((ComponentValue.token name :: parts).map ComponentValue.silent).foldl push s =
      { s with current := .named name parts.reverse } := by
  rw [List.map_cons, List.foldl_cons, push_name hs hname, foldl_push_named parts s name [] hparts,
    List.append_nil]

/-- Behind a declaration nothing is started. -/
theorem current_endNamed (s : DeclarationReader) (name : Token) (parts : List ComponentValue) :
    (s.endNamed name parts).current = .none := by
  unfold endNamed
  split <;> rfl

/-- What spells a declaration ends as that one. -/
theorem endNamed_of_spells {name : Token} {parts : List ComponentValue} {d : Declaration}
    (h : Declaration.Spells name parts d) (s : DeclarationReader) :
    s.endNamed name parts.reverse = { s with done := d :: s.done, current := .none } := by
  simp only [endNamed, List.reverse_reverse, h.read]

/-- A list of declarations is read as those, and nothing is recorded. -/
theorem finish_foldl_listed {vs : List ComponentValue} {ds : List Declaration}
    (h : Declaration.Listed vs ds) (hs : s.current = .none) :
    ((vs.map ComponentValue.silent).foldl push s).finish =
      (s.done.reverse ++ ds, s.errors.reverse) := by
  induction h generalizing s with
  | nil => simp [finish, hs]
  | skip hv _ ih =>
    rw [List.map_cons, List.foldl_cons, push_skipped hs hv]
    exact ih hs
  | last hspells =>
    rw [foldl_push_parts hs hspells.ident hspells.unbroken]
    simp only [finish, endNamed_of_spells hspells]
    simp
  | declaration hspells hv _ ih =>
    rw [← List.cons_append, List.map_append, List.foldl_append,
      foldl_push_parts hs hspells.ident hspells.unbroken, List.map_cons, List.foldl_cons,
      push_semicolon rfl hv, endNamed_of_spells hspells, ih rfl]
    simp

/-! ## Values that are read without a diagnostic are a list -/

/-- A reader that has recorded a diagnostic, or will record one of a started at-rule. -/
def Doomed (s : DeclarationReader) : Prop := s.errors ≠ [] ∨ ∃ r, s.current = .atRule r

/-- Once something is recorded, a reader is doomed. -/
theorem Doomed.record {ds : List Diagnostic} {current : OpenDeclaration} (hds : ds ≠ []) :
    Doomed { s.record ds with current } :=
  .inl fun h => hds (List.reverse_eq_nil_iff.1 (List.append_eq_nil_iff.1 h).1)

/-- A declaration that ends leaves what was recorded. -/
theorem Doomed.endNamed (h : s.errors ≠ []) (name : Token) (parts : List ComponentValue) :
    (s.endNamed name parts).Doomed := by
  unfold DeclarationReader.endNamed
  split
  · exact .inl h
  · exact .record (by simp)

/-- A doomed reader stays so: an at-rule that was started is dropped with a diagnostic. -/
theorem Doomed.push (h : s.Doomed) (v : ComponentValue) : (s.push v.silent).Doomed := by
  have hrecord : s.record v.silent.errors = s := rfl
  unfold DeclarationReader.push
  split
  · next hs =>
    have herrors : s.errors ≠ [] := h.resolve_right (by simp [hs])
    unfold startNext
    split
    · split
      · exact .inl herrors
      · split
        · exact .inl herrors
        · split
          · exact .inl herrors
          · exact .record (by simp)
    · exact .record (by simp)
  · next name parts hs =>
    have herrors : s.errors ≠ [] := h.resolve_right (by simp [hs])
    split
    · exact .endNamed herrors name parts
    · exact .inl herrors
  · rw [hrecord]
    dsimp only
    split
    · exact .inr ⟨_, rfl⟩
    · exact .record (by simp)
  · next hs =>
    have herrors : s.errors ≠ [] := h.resolve_right (by simp [hs])
    split
    · exact .inl herrors
    · exact .inl herrors

/-- In the end a doomed reader has recorded something. -/
theorem Doomed.finish (h : s.Doomed) : s.finish.2 ≠ [] := by
  unfold DeclarationReader.finish
  simp only [ne_eq, List.reverse_eq_nil_iff]
  split
  · next name parts hs =>
    have herrors : s.errors ≠ [] := h.resolve_right (by simp [hs])
    exact (Doomed.endNamed herrors name parts).resolve_right (by simp [current_endNamed])
  · simp [endAtRule, DeclarationReader.record]
  · next hnamed hrule => exact h.resolve_right (not_exists.2 hrule)

/-- So has one that read more before its end. -/
theorem Doomed.foldl_push (vs : List ComponentValue) (h : s.Doomed) :
    ((vs.map ComponentValue.silent).foldl DeclarationReader.push s).finish.2 ≠ [] := by
  induction vs generalizing s with
  | nil => exact h.finish
  | cons v vs ih => exact ih (h.push v)

/-- A started declaration that ends without a diagnostic is spelled by what was read. -/
theorem spells_of_endNamed {name : Token} {parts : List ComponentValue} (hname : name.kind = .ident)
    (hparts : ∀ v ∈ parts, v.isToken .semicolon = false)
    (h : ¬ (s.endNamed name parts.reverse).Doomed) : ∃ d, Declaration.Spells name parts d := by
  cases hread : Declaration.ofParts? name parts with
  | some d => exact ⟨d, hname, hparts, hread⟩
  | none =>
    refine absurd ?_ h
    simp only [DeclarationReader.endNamed, List.reverse_reverse, hread]
    exact .record (by simp)

/-- A list of values has no semicolon, or it has a first one. -/
theorem unbroken_or_split (vs : List ComponentValue) : (∀ v ∈ vs, v.isToken .semicolon = false) ∨
    ∃ parts v rest, vs = parts ++ v :: rest ∧ (∀ u ∈ parts, u.isToken .semicolon = false) ∧
      v.isToken .semicolon = true := by
  induction vs with
  | nil => exact .inl (by simp)
  | cons v vs ih =>
    cases hv : v.isToken .semicolon with
    | true => exact .inr ⟨[], v, vs, rfl, by simp, hv⟩
    | false =>
      rcases ih with hall | ⟨parts, u, rest, rfl, hparts, hu⟩
      · exact .inl (List.forall_mem_cons.2 ⟨hv, hall⟩)
      · exact .inr ⟨v :: parts, u, rest, rfl, List.forall_mem_cons.2 ⟨hv, hparts⟩, hu⟩

/-- Values that are read without a diagnostic are a list of declarations. -/
theorem listed_of_errors_eq_nil (vs : List ComponentValue) (hs : s.current = .none)
    (h : ((vs.map ComponentValue.silent).foldl push s).finish.2 = []) :
    ∃ ds, Declaration.Listed vs ds := by
  -- The list behind a declaration is shorter, but no direct part of the list: hence the length.
  induction hn : vs.length using Nat.strongRecOn generalizing vs s with
  | ind n ih =>
    subst hn
    cases vs with
    | nil => exact ⟨[], .nil⟩
    | cons v vs =>
      have hdoomed {s' : DeclarationReader} (hpush : s.push v.silent = s') : ¬ s'.Doomed :=
        fun hd => Doomed.foldl_push vs hd (hpush ▸ h)
      by_cases hskip : v.isWhitespace = true ∨ v.isToken .semicolon = true
      · rw [List.map_cons, List.foldl_cons, push_skipped hs hskip] at h
        obtain ⟨ds, hds⟩ := ih vs.length (by simp) vs hs h rfl
        exact ⟨ds, .skip hskip hds⟩
      · have hstart : s.push v.silent = s.startNext v.silent := by simp [push, hs]
        cases v with
        | block | function => exact absurd (.record (by simp)) (hdoomed hstart)
        | token t =>
          have ht : ¬ (t.kind = .whitespace ∨ t.kind = .semicolon) := by
            simpa [ComponentValue.isWhitespace, ComponentValue.isToken] using hskip
          simp only [startNext, ComponentValue.silent, if_neg ht] at hstart
          split at hstart
          · exact absurd (.inr ⟨_, rfl⟩) (hdoomed hstart)
          · split at hstart
            · next hident =>
              rcases unbroken_or_split vs with hall | ⟨parts, u, rest, rfl, hparts, hu⟩
              · rw [foldl_push_parts hs hident hall] at h
                have herrors := List.reverse_eq_nil_iff.1 h
                obtain ⟨d, hd⟩ := spells_of_endNamed hident hall fun hd =>
                  hd.elim (fun hne => hne herrors) (by simp [current_endNamed])
                exact ⟨[d], .last hd⟩
              · rw [← List.cons_append, List.map_append, List.foldl_append,
                  foldl_push_parts hs hident hparts, List.map_cons, List.foldl_cons,
                  push_semicolon rfl hu] at h
                obtain ⟨d, hd⟩ := spells_of_endNamed hident hparts fun hd =>
                  Doomed.foldl_push rest hd h
                rw [endNamed_of_spells hd] at h
                obtain ⟨ds, hds⟩ := ih rest.length (by simp; omega) rest rfl h rfl
                exact ⟨d :: ds, .declaration hd hu hds⟩
            · exact absurd (.record (by simp)) (hdoomed hstart)

end DeclarationReader

/-- **Declarations are read without a diagnostic exactly from lists of declarations.** -/
theorem Declaration.ofGroups_eq_iff {vs : List ComponentValue} {ds : List Declaration} :
    ofGroups (vs.map ComponentValue.silent) = (ds, []) ↔ Listed vs ds := by
  have hread {ds : List Declaration} (h : Listed vs ds) :
      ofGroups (vs.map ComponentValue.silent) = (ds, []) :=
    DeclarationReader.finish_foldl_listed h rfl
  refine ⟨fun h => ?_, hread⟩
  obtain ⟨ds', hds⟩ := DeclarationReader.listed_of_errors_eq_nil vs rfl (congrArg Prod.snd h)
  rw [hread hds] at h
  cases h
  exact hds

end StyleGate
