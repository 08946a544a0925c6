import StyleGate.Proofs.Descent.Values

/-!
# Reading component values loses nothing

Which groups are open behind tokens is a matter of the tokens alone (`Token.openAfter`): a token
that ends the innermost group closes it, an opening token opens another one, and any other token, a
closing bracket of another kind among them, leaves them as they are. Where no group lies too deep,
grouping opens and closes just these groups. What it has read so far, laid out as tokens with the
open groups left open (`Grouping.laidOut`), grows by each token that it takes, and nothing is
recorded on the way (`Grouping.LaidBehind`). At the end each open group gets its closing token and
its diagnostic, the innermost first. So values hold all tokens they were read from
(`ComponentValue.tokensAll_readAll`).
-/

namespace StyleGate

/-! ## Open groups -/

namespace Token

/-- Whether a token ends the innermost of the groups that were opened by some tokens, the innermost
first. -/
def endsGroup (openers : List Token) (t : Token) : Bool :=
  openers.head?.bind (·.kind.closer?) == some t.kind

/-- The opening tokens of the groups that are open behind a token, the innermost first. -/
def openAfter (openers : List Token) (t : Token) : List Token :=
  if endsGroup openers t then openers.tail
  else if t.kind.opensGroup then t :: openers
  else openers

/-- The opening tokens of the groups that are open at the end of tokens, the innermost first. -/
def leftOpen (ts : List Token) : List Token := ts.foldl openAfter []

/-- Tokens behind open groups where each token that ends a group is known by its kind only. -/
def settledAll (openers : List Token) : List Token → List Token
  | [] => []
  | t :: ts =>
    (if endsGroup openers t then { kind := t.kind } else t) :: settledAll (openAfter openers t) ts

/-- A token that opens a group ends none. -/
theorem endsGroup_of_opensGroup {openers : List Token} {t : Token} (h : t.kind.opensGroup = true) :
    endsGroup openers t = false := by
  refine beq_eq_false_iff_ne.2 fun hends => ?_
  obtain ⟨opener, -, hcloser⟩ := Option.bind_eq_some_iff.1 hends
  rw [TokenKind.opensGroup_of_closer? hcloser] at h
  cases h

/-- A token that ends a group is a closing bracket. -/
theorem closesGroup_of_endsGroup {openers : List Token} {t : Token}
    (h : endsGroup openers t = true) : t.kind.closesGroup = true := by
  obtain ⟨opener, -, hcloser⟩ := Option.bind_eq_some_iff.1 (beq_iff_eq.1 h)
  exact TokenKind.closesGroup_of_closer? hcloser

/-- Only opening tokens open groups. -/
theorem opensGroup_of_mem_openAfter {openers : List Token} {t : Token}
    (h : ∀ o ∈ openers, o.kind.opensGroup = true) :
    ∀ o ∈ openAfter openers t, o.kind.opensGroup = true := by
  unfold openAfter
  split
  · exact fun o ho => h o (List.mem_of_mem_tail ho)
  · split
    · next ht => exact List.forall_mem_cons.2 ⟨ht, h⟩
    · exact h

/-- What left a group open opened it. -/
theorem opensGroup_of_mem_leftOpen (ts : List Token) :
    ∀ o ∈ leftOpen ts, o.kind.opensGroup = true := by
  have hfold : ∀ openers : List Token, (∀ o ∈ openers, o.kind.opensGroup = true) →
      ∀ o ∈ ts.foldl openAfter openers, o.kind.opensGroup = true := by
    induction ts with
    | nil => exact fun _ h => h
    | cons t ts ih => exact fun _ h => ih _ (opensGroup_of_mem_openAfter h)
  exact hfold [] nofun

end Token

namespace ComponentValue

/-- The token that closes the group of an opening token. -/
def groupEnd (opener : Token) : Token :=
  if opener.kind = .function then functionEnd else blockEnd opener

/-- A group is closed by a token of the kind that ends it. -/
theorem closer?_eq_groupEnd {opener : Token} (h : opener.kind.opensGroup = true) :
    opener.kind.closer? = some (groupEnd opener).kind := by
  unfold groupEnd
  rcases TokenKind.opensGroup_iff.1 h with hf | ⟨c, hb⟩
  · rw [if_pos hf, hf]
    rfl
  · have hne : opener.kind ≠ .function := by
      intro hf
      rw [hf] at hb
      cases hb
    rw [if_neg hne, TokenKind.closer?_of_bracketCloser? hb, blockEnd, hb, Option.getD_some]

/-- The token that ends a group is known by its kind. -/
theorem groupEnd_eq {opener t : Token} (h : opener.kind.closer? = some t.kind) :
    groupEnd opener = { kind := t.kind } := by
  have hopens : opener.kind.opensGroup = true := by
    rw [TokenKind.opensGroup, h]
    rfl
  have hkind : (groupEnd opener).kind = t.kind :=
    Option.some.inj ((closer?_eq_groupEnd hopens).symm.trans h)
  rw [← hkind]
  unfold groupEnd
  split <;> rfl

end ComponentValue

open ComponentValue (groupEnd tokensAll)

/-! ## What was read so far -/

namespace OpenGroup

/-- The tokens of an open group: its opening token and its contents. -/
def laidOut (g : OpenGroup) : List Token := g.opener :: tokensAll g.contents.reverse

/-- A group that is closed is laid out with its closing token. -/
theorem tokens_close (g : OpenGroup) : g.close.tokens = g.laidOut ++ [groupEnd g.opener] := by
  unfold close groupEnd laidOut
  split <;> rfl

end OpenGroup

namespace Grouping

variable {s : Grouping} {t : Token}

/-- The opening tokens of the open groups, the innermost first. -/
def openers (s : Grouping) : List Token := s.groups.map (·.opener)

/-- The tokens of what was read so far, with the open groups left open. -/
def laidOut (s : Grouping) : List Token :=
  tokensAll (s.done.reverse.map (·.value)) ++ s.groups.reverse.flatMap OpenGroup.laidOut

/-- The diagnostics so far, in order. -/
def reported (s : Grouping) : List Diagnostic :=
  s.done.reverse.flatMap (·.errors) ++ s.errors.reverse

/-- Which token ends the innermost group is a matter of its opening token. -/
theorem closedBy_eq_endsGroup (s : Grouping) (t : Token) :
    s.closedBy t = Token.endsGroup s.openers t := by
  unfold closedBy Token.endsGroup openers
  cases s.groups <;> rfl

@[simp] theorem openers_add (s : Grouping) (v : ComponentValue) :
    (s.add v).openers = s.openers := by
  unfold add openers
  split <;> simp_all

/-- A value is laid out behind what was read so far. -/
theorem laidOut_add (s : Grouping) (v : ComponentValue) :
    (s.add v).laidOut = s.laidOut ++ v.tokens := by
  unfold add laidOut
  split
  · next g outer hg => simp [hg, OpenGroup.laidOut, ComponentValue.tokensAll_append]
  · next hg => simp [hg, ComponentValue.tokensAll_append]

@[simp] theorem reported_add (s : Grouping) (v : ComponentValue) :
    (s.add v).reported = s.reported := by
  unfold add reported
  split <;> simp

/-- A new diagnostic comes last. -/
theorem reported_record (s : Grouping) (d : Diagnostic) :
    (s.record d).reported = s.reported ++ [d] := by
  simp [record, reported]

@[simp] theorem reported_closeInnermost (s : Grouping) :
    s.closeInnermost.reported = s.reported := by
  unfold closeInnermost
  split
  · rw [reported_add]
    rfl
  · rfl

@[simp] theorem reported_endSkip (s : Grouping) (opener : Token) :
    (s.endSkip opener).reported = s.reported := by
  rw [endSkip, reported_add]
  rfl

/-- Where an innermost group is closed, its closing token is laid out. -/
theorem laidOut_close {g : OpenGroup} {outer : List OpenGroup} (hg : s.groups = g :: outer) :
    ({ s with groups := outer }.add g.close).laidOut = s.laidOut ++ [groupEnd g.opener] := by
  rw [laidOut_add, OpenGroup.tokens_close]
  simp [laidOut, hg]

/-! ## Tokens -/

/-- What comes of a state with no group passed over if it takes tokens that it lays out, none of
which opens a group that lies too deep. -/
structure LaidBehind (s s' : Grouping) (ts : List Token) : Prop where
  skipping : s'.skipping = none
  openers : s'.openers = ts.foldl Token.openAfter s.openers
  laidOut : s'.laidOut = s.laidOut ++ Token.settledAll s.openers ts
  reported : s'.reported = s.reported

/-- No group was found to lie too deep so far. -/
def Quiet (s : Grouping) : Prop := ∀ d ∈ s.reported, d.code ≠ Diagnostic.nestingTooDeep

/-- What was recorded before a token is recorded behind it. -/
theorem reported_prefix_push (s : Grouping) (t : Token) : s.reported <+: (s.push t).reported := by
  unfold push
  split
  · unfold skip
    split
    · exact List.prefix_rfl
    · split
      · split
        · exact ⟨[], by simp⟩
        · exact List.prefix_rfl
      · exact List.prefix_rfl
  · split
    · exact ⟨[], by simp⟩
    · split
      · unfold openGroup
        split
        · exact ⟨_, (reported_record s _).symm⟩
        · exact List.prefix_rfl
      · exact ⟨[], by simp⟩

/-- What was reported stays reported, in its place. -/
theorem reported_prefix_foldl_push (s : Grouping) (ts : List Token) :
    s.reported <+: (ts.foldl push s).reported := by
  induction ts generalizing s with
  | nil => exact List.prefix_rfl
  | cons t ts ih => exact (reported_prefix_push s t).trans (ih _)

/-- What is found to lie too deep behind some tokens is so behind more of them. -/
theorem Quiet.of_foldl_push {ts : List Token} (h : (ts.foldl push s).Quiet) : s.Quiet :=
  fun d hd => h d ((reported_prefix_foldl_push s ts).subset hd)

/-- The token that ends the innermost group is laid out without its text. -/
theorem laidBehind_closer (hs : s.skipping = none) (hends : Token.endsGroup s.openers t = true) :
    LaidBehind s (s.push t) [t] := by
  have hafter : Token.openAfter s.openers t = s.openers.tail := by rw [Token.openAfter, if_pos hends]
  obtain ⟨g, outer, hg, hcloser⟩ : ∃ g outer, s.groups = g :: outer ∧
      g.opener.kind.closer? = some t.kind := by
    rw [← closedBy_eq_endsGroup, closedBy] at hends
    split at hends
    · next g outer hg => exact ⟨g, outer, hg, beq_iff_eq.1 hends⟩
    · cases hends
  rw [push_closer hs hg hcloser]
  refine ⟨by simpa using hs, ?_, ?_, reported_add _ _⟩
  · rw [openers_add, List.foldl_cons, hafter]
    simp [openers, hg]
  · rw [laidOut_close hg, ComponentValue.groupEnd_eq hcloser, Token.settledAll, if_pos hends,
      Token.settledAll]

/-- A token that ends no group is known as it is. -/
theorem settledAll_singleton (hends : Token.endsGroup s.openers t = false) :
    Token.settledAll s.openers [t] = [t] := by
  rw [Token.settledAll, if_neg (by rw [hends]; nofun), Token.settledAll]

section Inside

variable (hs : s.skipping = none) (hends : Token.endsGroup s.openers t = false)
include hs hends

/-- A token that opens a group is laid out, if the group does not lie too deep. -/
theorem laidBehind_opener (hopens : t.kind.opensGroup = true)
    (hdepth : s.groups.length < maxGroupDepth) : LaidBehind s (s.push t) [t] := by
  have hafter : Token.openAfter s.openers t = t :: s.openers := by
    rw [Token.openAfter, if_neg (by rw [hends]; nofun), if_pos hopens]
  rw [push_opener hs hopens hdepth]
  refine ⟨hs, hafter.symm, ?_, rfl⟩
  rw [settledAll_singleton hends]
  simp [laidOut, OpenGroup.laidOut]

/-- Any other token is laid out as it is. -/
theorem laidBehind_token (hopens : t.kind.opensGroup = false) : LaidBehind s (s.push t) [t] := by
  have hafter : Token.openAfter s.openers t = s.openers := by
    rw [Token.openAfter, if_neg (by rw [hends]; nofun), if_neg (by rw [hopens]; nofun)]
  have hcloser : s.closer? ≠ some t.kind := by
    rw [← closedBy_eq_endsGroup, closedBy_eq] at hends
    exact of_decide_eq_false hends
  rw [push_token hs hopens hcloser]
  refine ⟨by simpa using hs, ?_, ?_, reported_add _ _⟩
  · rw [openers_add, List.foldl_cons, hafter, List.foldl_nil]
  · rw [settledAll_singleton hends, laidOut_add, ComponentValue.tokens]

/-- A group that lies too deep is reported where it opens. -/
theorem Quiet.length_groups_lt (hquiet : (s.push t).Quiet) (hopens : t.kind.opensGroup = true) :
    s.groups.length < maxGroupDepth := by
  refine Nat.lt_of_not_le fun hdepth => ?_
  rw [← closedBy_eq_endsGroup] at hends
  refine absurd rfl (hquiet ⟨Diagnostic.nestingTooDeep, t.position⟩ ?_)
  simp [push, hs, hends, hopens, openGroup, hdepth, reported, record]

end Inside

/-- A token that opens no group that lies too deep is laid out. -/
theorem laidBehind_push (hs : s.skipping = none) (hquiet : (s.push t).Quiet) :
    LaidBehind s (s.push t) [t] := by
  cases hends : Token.endsGroup s.openers t with
  | true => exact laidBehind_closer hs hends
  | false =>
    cases hopens : t.kind.opensGroup with
    | true => exact laidBehind_opener hs hends hopens (hquiet.length_groups_lt hs hends hopens)
    | false => exact laidBehind_token hs hends hopens

/-- Tokens that open no group that lies too deep are laid out. -/
theorem laidBehind_foldl_push {ts : List Token} (hs : s.skipping = none)
    (hquiet : (ts.foldl push s).Quiet) : LaidBehind s (ts.foldl push s) ts := by
  induction ts generalizing s with
  | nil => exact ⟨hs, rfl, by simp [Token.settledAll], rfl⟩
  | cons t ts ih =>
    have hfirst : LaidBehind s (s.push t) [t] := laidBehind_push hs (.of_foldl_push hquiet)
    have hrest := ih hfirst.skipping hquiet
    refine ⟨hrest.skipping, ?_, ?_, hrest.reported.trans hfirst.reported⟩
    · rw [List.foldl_cons, hrest.openers, hfirst.openers]
      rfl
    · rw [List.foldl_cons, hrest.laidOut, hfirst.laidOut, hfirst.openers, List.append_assoc]
      rfl

/-! ## The end -/

/-- What was recorded outside of all groups belongs to a finished value. -/
def Filed (s : Grouping) : Prop := s.groups = [] → s.skipping = none → s.errors = []

/-- What was recorded inside a group is filed with its value. -/
theorem filed_add (s : Grouping) (v : ComponentValue) : (s.add v).Filed := by
  unfold add
  split
  · exact nofun
  · exact fun _ _ => rfl

/-- Each token leaves the diagnostics filed. -/
theorem Filed.push (h : s.Filed) (t : Token) : (s.push t).Filed := by
  unfold Grouping.push
  split
  · next opener n hskipping =>
    unfold skip
    split
    · exact nofun
    · split
      · split
        · exact filed_add _ _
        · exact nofun
      · exact h
  · split
    · unfold closeInnermost
      split
      · exact filed_add _ _
      · exact h
    · split
      · unfold openGroup
        split
        · exact nofun
        · exact nofun
      · exact filed_add _ _

/-- So do all tokens of a list. -/
theorem filed_foldl_push (ts : List Token) : (ts.foldl Grouping.push {}).Filed := by
  have hfold : ∀ s : Grouping, s.Filed → (ts.foldl Grouping.push s).Filed := by
    induction ts with
    | nil => exact fun _ h => h
    | cons t ts ih => exact fun s h => ih _ (h.push t)
  exact hfold {} fun _ _ => rfl

/-- Where no group is open, nothing is left to close. -/
theorem finish_of_nil (hs : s.skipping = none) (hgroups : s.groups = []) : s.finish = s := by
  simp [finish, hs, hgroups, closeUnclosed]

/-- An open group is closed first. -/
theorem finish_of_unclosed {g : OpenGroup} {outer : List OpenGroup} (hs : s.skipping = none)
    (hg : s.groups = g :: outer) : s.finish = (s.recordAll [g.unclosed]).closeInnermost.finish := by
  have hgroups : (s.recordAll [g.unclosed]).groups = g :: outer := hg
  rw [finish_of_open hs hg]
  simp only [closeInnermost, hgroups]
  rfl

/-- What is known at the end, where the groups that were opened by some tokens are closed. -/
structure ClosedBehind (s s' : Grouping) : Prop where
  groups : s'.groups = []
  errors : s'.errors = []
  laidOut : s'.laidOut = s.laidOut ++ s.openers.map groupEnd
  reported : s'.reported = s.reported ++ s.openers.map fun o => OpenGroup.unclosed { opener := o }

/-- At the end each open group gets its closing token and its diagnostic, the innermost first. -/
theorem closedBehind_finish (hs : s.skipping = none) (hfiled : s.Filed) :
    ClosedBehind s s.finish := by
  -- Closing a group changes the one around it, so the induction is on the number of open groups.
  induction hn : s.groups.length generalizing s with
  | zero =>
    have hgroups := List.eq_nil_of_length_eq_zero hn
    rw [finish_of_nil hs hgroups]
    exact ⟨hgroups, hfiled hgroups hs, by simp [openers, hgroups], by simp [openers, hgroups]⟩
  | succ n ih =>
    obtain ⟨g, outer, hgroups⟩ := List.exists_cons_of_length_eq_add_one hn
    have hlength : outer.length = n := by simpa [hgroups] using hn
    let next := ({ s with groups := outer }.recordAll [g.unclosed]).add g.close
    have hend : ClosedBehind next next.finish :=
      ih (by simpa [next] using hs) (filed_add _ _) (by simpa [next] using hlength)
    have hopeners : s.openers = g.opener :: next.openers := by
      rw [openers_add]
      simp [openers, hgroups]
    have hlaid : next.laidOut = s.laidOut ++ [groupEnd g.opener] :=
      laidOut_close (s := s.record g.unclosed) hgroups
    have hreported : next.reported = s.reported ++ [g.unclosed] :=
      (reported_add _ _).trans (reported_record s g.unclosed)
    rw [finish_of_open hs hgroups]
    refine ⟨hend.groups, hend.errors, ?_, ?_⟩
    · rw [hend.laidOut, hlaid, hopeners, List.append_assoc]
      rfl
    · rw [hend.reported, hreported, hopeners, List.append_assoc]
      rfl

/-- What was recorded before the end is recorded at the end, and all of it belongs to values. -/
theorem reported_finish (hfiled : s.Filed) :
    s.reported <+: s.finish.reported ∧ s.finish.errors = [] := by
  cases hs : s.skipping with
  | none =>
    have hend := closedBehind_finish hs hfiled
    exact ⟨⟨_, hend.reported.symm⟩, hend.errors⟩
  | some skipped =>
    obtain ⟨opener, n⟩ := skipped
    have hend : ClosedBehind (s.endSkip opener) (s.endSkip opener).finish :=
      closedBehind_finish (skipping_add _ _) (filed_add _ _)
    have hreported := hend.reported
    rw [reported_endSkip] at hreported
    rw [finish_of_skipping hs]
    exact ⟨⟨_, hreported.symm⟩, hend.errors⟩

end Grouping

/-- Behind tokens of which nothing is reported no group was found to lie too deep. -/
theorem Grouping.quiet_of_silent {ts : List Token} (h : (ComponentValue.readAll ts).2 = []) :
    (ts.foldl push {}).Quiet := by
  obtain ⟨hgrows, herrors⟩ := reported_finish (filed_foldl_push ts)
  have hsilent : (ts.foldl push {}).finish.reported = [] := by
    rw [reported, herrors, List.reverse_nil, List.append_nil]
    exact h
  exact fun d hd => nomatch hsilent ▸ hgrows.subset hd

/-- Tokens of which nothing is reported leave no group open, and the values that are read from them
are laid out as these tokens. -/
theorem ComponentValue.settledAll_of_silent {ts : List Token} (h : (readAll ts).2 = []) :
    Token.leftOpen ts = [] ∧ tokensAll (readAll ts).1 = Token.settledAll [] ts := by
  let s := ts.foldl Grouping.push {}
  have hlaid := Grouping.laidBehind_foldl_push (s := {}) rfl (Grouping.quiet_of_silent h)
  have hend := Grouping.closedBehind_finish hlaid.skipping (Grouping.filed_foldl_push ts)
  have hopen : s.openers = [] := by
    have hreported := hend.reported
    rw [Grouping.reported, hend.errors, List.reverse_nil, List.append_nil] at hreported
    exact List.map_eq_nil_iff.1 (List.append_eq_nil_iff.1 (hreported.symm.trans h)).2
  refine ⟨hlaid.openers.symm.trans hopen, ?_⟩
  have hvalues : tokensAll (readAll ts).1 = s.finish.laidOut := by
    rw [Grouping.laidOut, hend.groups, List.reverse_nil, List.flatMap_nil, List.append_nil]
    rfl
  rw [hvalues, hend.laidOut, hopen, List.map_nil, List.append_nil]
  exact hlaid.laidOut

/-- **Reading loses nothing.** Where no group of tokens lies too deep, the values that are read from
them are laid out as these tokens, where tokens that end groups are known by their kind, and a
closing token for each group that is open at the end, the innermost first. Each such group is
reported, in the same order and where it was opened, and nothing else is. So nothing is reported
exactly if all groups are closed, and the values are read again from the tokens that they are laid
out as. -/
theorem ComponentValue.tokensAll_readAll {ts : List Token}
    (h : ∀ d ∈ (readAll ts).2, d.code ≠ Diagnostic.nestingTooDeep) :
    tokensAll (readAll ts).1 = Token.settledAll [] ts ++ (Token.leftOpen ts).map groupEnd ∧
    (∀ o ∈ Token.leftOpen ts, o.kind.closer? = some (groupEnd o).kind) ∧
    (readAll ts).2 = (Token.leftOpen ts).map (fun o => OpenGroup.unclosed { opener := o }) ∧
    ((readAll ts).2 = [] ↔ Token.leftOpen ts = []) ∧
    readAll (tokensAll (readAll ts).1) = ((readAll ts).1, []) := by
  let s := ts.foldl Grouping.push {}
  have hfiled : s.Filed := Grouping.filed_foldl_push ts
  obtain ⟨hgrows, herrors⟩ := Grouping.reported_finish hfiled
  have hreported : (readAll ts).2 = s.finish.reported := by
    rw [Grouping.reported, herrors, List.reverse_nil, List.append_nil]
    rfl
  have hquiet : s.Quiet := fun d hd => h d (hreported ▸ hgrows.subset hd)
  have hlaid := Grouping.laidBehind_foldl_push (s := {}) rfl hquiet
  have hend := Grouping.closedBehind_finish hlaid.skipping hfiled
  have hopen : s.openers = Token.leftOpen ts := hlaid.openers
  have hunclosed : (readAll ts).2 =
      (Token.leftOpen ts).map fun o => OpenGroup.unclosed { opener := o } := by
    rw [hreported, hend.reported, hlaid.reported, hopen]
    rfl
  refine ⟨?_, ?_, hunclosed, ?_, ?_⟩
  · have hvalues : tokensAll (readAll ts).1 = s.finish.laidOut := by
      rw [Grouping.laidOut, hend.groups, List.reverse_nil, List.flatMap_nil, List.append_nil]
      rfl
    rw [hvalues, hend.laidOut, hlaid.laidOut, hopen]
    rfl
  · exact fun o ho => closer?_eq_groupEnd (Token.opensGroup_of_mem_leftOpen ts o ho)
  · rw [hunclosed, List.map_eq_nil_iff]
  · exact readAll_tokensAll (regular_readAll ts)

/-- A bracket inside a function of another kind ends nothing, and two groups are left open. -/
theorem ComponentValue.tokensAll_readAll_unclosed :
    let ts := StyleGate.tokens "a[b(c]d)f(g"
    (∀ d ∈ (readAll ts).2, d.code ≠ Diagnostic.nestingTooDeep) ∧
    (Token.leftOpen ts).map (·.position) = [⟨1, 9⟩, ⟨1, 2⟩] ∧
    tokensAll (readAll ts).1 =
      Token.settledAll [] ts ++ [{ kind := .rightParen }, { kind := .rightBracket }] ∧
    (readAll ts).2 = [⟨Diagnostic.unexpectedEofInFunction, ⟨1, 9⟩⟩,
      ⟨Diagnostic.unexpectedEofInBlock, ⟨1, 2⟩⟩] ∧
    readAll (tokensAll (readAll ts).1) = ((readAll ts).1, []) := by
  intro ts
  have hquiet : ∀ d ∈ (readAll ts).2, d.code ≠ Diagnostic.nestingTooDeep := by decide +kernel
  obtain ⟨hlaid, -, hreported, -, hagain⟩ := tokensAll_readAll hquiet
  have hopen : Token.leftOpen ts =
      [⟨.function, "f", ⟨1, 9⟩, true⟩, ⟨.leftBracket, "", ⟨1, 2⟩, true⟩] := by decide +kernel
  rw [hopen] at hlaid hreported
  exact ⟨hquiet, by rw [hopen]; rfl, hlaid, hreported, hagain⟩

end StyleGate
