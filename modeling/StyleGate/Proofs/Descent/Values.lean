import Mathlib.Tactic.SplitIfs
import StyleGate.Parser.Descent
import StyleGate.Proofs.Rules

/-!
# What a descent takes for a value

A step of a descent `Descent.Reads` the tokens in front of some others if it comes to an end there,
without a breakdown, whatever was recorded before. Descent goes into a group where grouping opens one and
comes out where grouping closes it: the state of grouping holds what the calls that are going on have
read so far. So the rest of a group is read as grouping reads it (`Descent.readsContents`), by induction
on the number of tokens, and outside all groups tokens come apart into just the values that grouping yields
(`Descent.parts_ofTokens`).

The fuel of a function is enough if it is more than the number of tokens in front of it. What is read
does not depend on it: the statements here name what is read first, and then say so of all fuel that is
enough.
-/

namespace StyleGate

variable {α β : Type} {ts rest last : List Token} {d d' d'' : Nat} {ds es : List Diagnostic}

/-! ## Kinds -/

/-- The kinds of brackets that open a block. -/
theorem TokenKind.isSome_bracketCloser?_iff {kind : TokenKind} :
    kind.bracketCloser?.isSome = true ↔
      kind = .leftBrace ∨ kind = .leftBracket ∨ kind = .leftParen := by
  cases kind <;> simp [bracketCloser?]

/-- A bracket that opens a block opens a group. -/
theorem TokenKind.opensGroup_of_isSome {kind : TokenKind} (h : kind.bracketCloser?.isSome = true) :
    kind.opensGroup = true :=
  opensGroup_iff.2 (.inr (Option.isSome_iff_exists.1 h))

namespace Descent

/-! ## Steps -/

/-- What a step leads to, the next one goes on with. -/
theorem bind_apply {m : Descent α} {a : α} {c c' : Cursor} (h : m c = some (.ok (a, c')))
    (f : α → Descent β) : (m >>= f) c = f a c' := by
  change (m c >>= fun r => _) = _
  rw [h]
  rfl

/-- A step that takes the tokens in front of `rest` and records diagnostics, whatever was recorded before.
It does not break down. -/
def Reads (m : Descent α) (ts : List Token) (d : Nat) (a : α) (ds : List Diagnostic) (rest : List Token)
    (d' : Nat) : Prop :=
  ∀ errors, m ⟨ts, none, errors, d⟩ = some (.ok (a, ⟨rest, none, errors ++ ds, d'⟩))

namespace Reads

/-- An answer alone takes no token and records nothing. -/
theorem pure (a : α) : Reads (Pure.pure a) ts d a [] ts d := by
  intro errors
  rw [List.append_nil]
  rfl

/-- Steps are made one after the other, and so are their diagnostics. -/
theorem bind {m : Descent α} {f : α → Descent β} {a : α} {b : β} (h : Reads m ts d a ds rest d')
    (h' : Reads (f a) rest d' b es last d'') : Reads (m >>= f) ts d b (ds ++ es) last d'' := by
  intro errors
  rw [bind_apply (h errors), h' (errors ++ ds), List.append_assoc]

/-- A step behind one that records nothing. -/
theorem behind {m : Descent α} {f : α → Descent β} {a : α} {b : β} (h : Reads m ts d a [] rest d')
    (h' : Reads (f a) rest d' b es last d'') : Reads (m >>= f) ts d b es last d'' :=
  h.bind h'

/-- A step in front of one that records nothing. -/
theorem before {m : Descent α} {f : α → Descent β} {a : α} {b : β} (h : Reads m ts d a ds rest d')
    (h' : Reads (f a) rest d' b [] last d'') : Reads (m >>= f) ts d b ds last d'' := by
  simpa using h.bind h'

/-- Recording takes no token. -/
theorem record (e : Diagnostic) : Reads (record e) ts d () [e] ts d := fun _ => rfl

/-- The next token is taken. -/
theorem next_cons (t : Token) : Reads next (t :: ts) d (some t) [] ts d := by
  intro errors
  rw [List.append_nil]
  rfl

/-- Where there is none, nothing is. -/
theorem next_nil : Reads next [] d none [] [] d := by
  intro errors
  rw [List.append_nil]
  rfl

/-- To ask for the depth changes nothing. -/
theorem currentDepth : Reads currentDepth ts d d [] ts d := by
  intro errors
  rw [List.append_nil]
  rfl

/-- To enter a group takes one more level. -/
theorem enter : Reads enter ts d () [] ts (d + 1) := by
  intro errors
  rw [List.append_nil]
  rfl

/-- A counter that is not at zero can be lowered. -/
theorem lower {n : Nat} (h : 0 < n) : Reads (lower n) ts d (n - 1) [] ts d := by
  rw [Descent.lower, if_neg (Nat.ne_of_gt h)]
  exact pure _

/-- A group that was entered can be left. -/
theorem leave : Reads leave ts (d + 1) () [] ts d := by
  intro errors
  rw [List.append_nil]
  rfl

end Reads

/-- Fuel that is more than something is not used up. -/
theorem exists_fuel {n fuel : Nat} (h : n < fuel) : ∃ left, fuel = left + 1 ∧ n ≤ left :=
  ⟨fuel - 1, by omega, by omega⟩

end Descent

/-! ## Groups at the end of the input -/

namespace Grouping

variable {s : Grouping}

/-- Records diagnostics, given in order. -/
def recordAll (s : Grouping) (ds : List Diagnostic) : Grouping :=
  { s with errors := ds.reverse ++ s.errors }

/-- Diagnostics are recorded one after the other. -/
theorem recordAll_append (s : Grouping) (ds es : List Diagnostic) :
    (s.recordAll ds).recordAll es = s.recordAll (ds ++ es) := by
  simp [recordAll]

@[simp] theorem groups_recordAll (s : Grouping) (ds : List Diagnostic) :
    (s.recordAll ds).groups = s.groups := rfl

@[simp] theorem skipping_recordAll (s : Grouping) (ds : List Diagnostic) :
    (s.recordAll ds).skipping = s.skipping := rfl

/-- An open group is closed first, with a diagnostic. -/
theorem finish_of_open {g : OpenGroup} {outer : List OpenGroup} (hs : s.skipping = none)
    (hg : s.groups = g :: outer) :
    s.finish = (({ s with groups := outer }.recordAll [g.unclosed]).add g.close).finish := by
  have hclose : (s.record g.unclosed).closeInnermost =
      ({ s with groups := outer }.recordAll [g.unclosed]).add g.close := by
    simp only [closeInnermost, record, hg]
    rfl
  have hnext : ((s.record g.unclosed).closeInnermost).skipping = none ∧
      ((s.record g.unclosed).closeInnermost).groups.length = outer.length := by
    rw [hclose]
    exact ⟨by simpa using hs, by simp⟩
  rw [← hclose]
  simp only [finish, hs, hnext.1, hnext.2]
  rw [hg, List.length_cons, closeUnclosed]
  simp only [hg]

/-- A group that is passed over ends first. -/
theorem finish_of_skipping {opener : Token} {n : Nat} (hs : s.skipping = some (opener, n)) :
    s.finish = (s.endSkip opener).finish := by
  have hnext : (s.endSkip opener).skipping = none := by simp [endSkip]
  simp only [finish, hs, hnext]

end Grouping

namespace Descent

variable {s : Grouping} {t : Token}

/-! ## Component values -/

/-- How many groups are open behind a token that is passed over; `none` where the last one ends. -/
def openBehind (n : Nat) (t : Token) : Option Nat :=
  if t.kind.opensGroup then some (n + 1)
  else if t.kind.closesGroup then if n ≤ 1 then none else some (n - 1)
  else some n

/-- As long as groups are passed over, one of them is open. -/
theorem pos_of_openBehind {n m : Nat} (hn : 0 < n) (h : openBehind n t = some m) : 0 < m := by
  unfold openBehind at h
  split_ifs at h <;> (cases h; omega)

/-- Grouping counts so. -/
theorem skip_eq {opener : Token} {n : Nat} (hs : s.skipping = some (opener, n)) (t : Token) :
    s.skip opener n t =
      (openBehind n t).elim (s.endSkip opener) fun m => { s with skipping := some (opener, m) } := by
  unfold Grouping.skip openBehind
  split_ifs
  · rfl
  · rfl
  · rfl
  · rw [Option.elim_some, ← hs]

/-- Descent counts so. -/
theorem Reads.skipRest_cons {fuel n : Nat} (hn : 0 < n)
    (h : Reads ((openBehind n t).elim (Pure.pure ()) (skipRest fuel)) ts d () [] rest d) :
    Reads (skipRest (fuel + 1) n) (t :: ts) d () [] rest d := by
  refine (Reads.next_cons t).behind ?_
  dsimp only
  unfold openBehind at h
  split_ifs at h ⊢ with hopens hcloses hone
  · exact h
  · refine (Reads.lower hn).behind ?_
    rw [if_pos (by omega)]
    exact h
  · refine (Reads.lower hn).behind ?_
    rw [if_neg (by omega)]
    exact h
  · exact h

/-- A group that is passed over is left where grouping leaves it. -/
theorem reads_skipRest (ts : List Token) {opener : Token} {n : Nat} (hn : 0 < n)
    (hs : s.skipping = some (opener, n)) :
    ∃ rest, (∀ fuel, ts.length < fuel → Reads (skipRest fuel n) ts d () [] rest d) ∧
      rest.length ≤ ts.length ∧
      (ts.foldl Grouping.push s).finish = (rest.foldl Grouping.push (s.endSkip opener)).finish := by
  induction ts generalizing s n with
  | nil =>
    refine ⟨[], ?_, Nat.le_refl _, Grouping.finish_of_skipping hs⟩
    intro fuel hfuel
    obtain ⟨fuel, rfl, -⟩ := exists_fuel hfuel
    exact Reads.next_nil.behind (.pure ())
  | cons t ts ih =>
    have hpush : s.push t = s.skip opener n t := by simp only [Grouping.push, hs]
    rw [List.foldl_cons, hpush, skip_eq hs]
    cases hcount : openBehind n t with
    | none =>
      refine ⟨ts, ?_, Nat.le_succ _, rfl⟩
      intro fuel hfuel
      obtain ⟨fuel, rfl, -⟩ := exists_fuel hfuel
      refine .skipRest_cons hn ?_
      rw [hcount]
      exact .pure ()
    | some m =>
      obtain ⟨rest, hreads, hshorter, hfinish⟩ :=
        ih (s := { s with skipping := some (opener, m) }) (pos_of_openBehind hn hcount) rfl
      refine ⟨rest, ?_, Nat.le_succ_of_le hshorter, hfinish⟩
      intro fuel hfuel
      obtain ⟨fuel, rfl, hleft⟩ := exists_fuel hfuel
      refine .skipRest_cons hn ?_
      rw [hcount]
      exact hreads fuel hleft

/-- The rest of a group is read as grouping reads it, whatever is open around it. -/
def ReadsContents (ts : List Token) : Prop :=
  ∀ (s : Grouping) (g : OpenGroup) (outer : List OpenGroup), s.skipping = none →
    s.groups = g :: outer → s.groups.length ≤ maxGroupDepth →
    ∃ vs ds rest,
      (∀ fuel, ts.length < fuel →
        Reads (contents fuel g.opener.kind.closer? g.unclosed g.contents.reverse) ts s.groups.length vs ds
          rest s.groups.length) ∧
      rest.length ≤ ts.length ∧
      (ts.foldl Grouping.push s).finish = (rest.foldl Grouping.push
        (({ s with groups := outer }.recordAll ds).add
          (OpenGroup.close { g with contents := vs.reverse }))).finish

/-- A token that opens a group, and the contents of the group. -/
theorem ReadsContents.group (h : ReadsContents ts) (hs : s.skipping = none)
    (hopens : t.kind.opensGroup = true) (hdepth : s.groups.length < maxGroupDepth) :
    ∃ vs ds rest,
      (∀ fuel, ts.length < fuel →
        Reads (contents fuel t.kind.closer? (OpenGroup.unclosed { opener := t }) []) ts
          (s.groups.length + 1) vs ds rest (s.groups.length + 1)) ∧
      rest.length ≤ ts.length ∧
      ((t :: ts).foldl Grouping.push s).finish = (rest.foldl Grouping.push
        ((s.recordAll ds).add (OpenGroup.close { opener := t, contents := vs.reverse }))).finish := by
  rw [List.foldl_cons, Grouping.push_opener hs hopens hdepth]
  exact h { s with groups := { opener := t } :: s.groups } { opener := t } s.groups hs rfl hdepth

/-- A block is read as grouping reads it. -/
theorem ReadsContents.block (h : ReadsContents ts) (hs : s.skipping = none)
    (hkind : t.kind.bracketCloser?.isSome = true) (hdepth : s.groups.length < maxGroupDepth) :
    ∃ vs ds rest,
      (∀ fuel, ts.length < fuel →
        Reads (block fuel t) ts s.groups.length ⟨t, vs⟩ ds rest s.groups.length) ∧
      rest.length ≤ ts.length ∧
      ((t :: ts).foldl Grouping.push s).finish = (rest.foldl Grouping.push
        ((s.recordAll ds).add (.block t vs))).finish := by
  obtain ⟨c, hcloser⟩ := Option.isSome_iff_exists.1 hkind
  have hne : t.kind ≠ .function := TokenKind.ne_of_bracketCloser? hkind rfl
  obtain ⟨vs, ds, rest, hreads, hshorter, hfinish⟩ :=
    h.group hs (TokenKind.opensGroup_of_isSome hkind) hdepth
  rw [TokenKind.closer?_of_bracketCloser? hcloser, ← hcloser, OpenGroup.unclosed, if_neg hne] at hreads
  rw [OpenGroup.close, if_neg hne, List.reverse_reverse] at hfinish
  refine ⟨vs, ds, rest, fun fuel hfuel => ?_, hshorter, hfinish⟩
  rw [Descent.block, Block.ofOpener, if_pos hkind]
  exact Reads.enter.behind ((Reads.pure _).behind
    ((hreads fuel hfuel).before (Reads.leave.behind (.pure _))))

/-- A function is read as grouping reads it. -/
theorem ReadsContents.function (h : ReadsContents ts) (hs : s.skipping = none)
    (hkind : t.kind = .function) (hdepth : s.groups.length < maxGroupDepth) :
    ∃ vs ds rest,
      (∀ fuel, ts.length < fuel →
        Reads (functionCall fuel t) ts s.groups.length ⟨t, vs⟩ ds rest s.groups.length) ∧
      rest.length ≤ ts.length ∧
      ((t :: ts).foldl Grouping.push s).finish = (rest.foldl Grouping.push
        ((s.recordAll ds).add (.function t vs))).finish := by
  obtain ⟨vs, ds, rest, hreads, hshorter, hfinish⟩ :=
    h.group hs (TokenKind.opensGroup_iff.2 (.inl hkind)) hdepth
  rw [OpenGroup.unclosed, if_pos hkind, hkind] at hreads
  rw [OpenGroup.close, if_pos hkind, List.reverse_reverse] at hfinish
  refine ⟨vs, ds, rest, fun fuel hfuel => ?_, hshorter, hfinish⟩
  rw [functionCall, FunctionCall.ofName, if_pos hkind]
  exact Reads.enter.behind ((Reads.pure _).behind
    ((hreads fuel hfuel).before (Reads.leave.behind (.pure _))))

/-- What a token starts where groups are entered, and what is left behind it: the group that the token
opens, or the token alone. -/
inductive Takes (d : Nat) (t : Token) (ts : List Token) : Grouped → List Token → Prop
  | token : t.kind.opensGroup = false → Takes d t ts ⟨.token t, []⟩ ts
  | block {vs : List ComponentValue} {ds : List Diagnostic} {rest : List Token} :
      t.kind.bracketCloser?.isSome = true →
      (∀ fuel, ts.length < fuel → Reads (block fuel t) ts d ⟨t, vs⟩ ds rest d) →
      rest.length ≤ ts.length → Takes d t ts ⟨.block t vs, ds⟩ rest
  | function {vs : List ComponentValue} {ds : List Diagnostic} {rest : List Token} :
      t.kind = .function →
      (∀ fuel, ts.length < fuel → Reads (functionCall fuel t) ts d ⟨t, vs⟩ ds rest d) →
      rest.length ≤ ts.length → Takes d t ts ⟨.function t vs, ds⟩ rest

/-- No more tokens are left behind than there were. -/
theorem Takes.length_le {g : Grouped} (h : Takes d t ts g rest) : rest.length ≤ ts.length := by
  cases h with
  | token _ => exact Nat.le_refl _
  | block _ _ hshorter | function _ _ hshorter => exact hshorter

/-- What a token starts is its value. -/
theorem Takes.value {g : Grouped} {fuel : Nat} (h : Takes d t ts g rest)
    (hfits : ¬ (t.kind.opensGroup = true ∧ maxGroupDepth ≤ d)) (hfuel : ts.length < fuel) :
    Reads (value fuel t) ts d g.value g.errors rest d := by
  rw [Descent.value]
  refine Reads.currentDepth.behind ?_
  rw [if_neg hfits]
  cases h with
  | token hopens =>
    have hkind : ¬ t.kind.bracketCloser?.isSome = true := by
      intro hsome
      rw [TokenKind.opensGroup_of_isSome hsome] at hopens
      cases hopens
    have hfunction : t.kind ≠ .function := by
      intro heq
      rw [TokenKind.opensGroup_iff.2 (.inl heq)] at hopens
      cases hopens
    rw [if_neg (mt TokenKind.isSome_bracketCloser?_iff.2 hkind), if_neg hfunction]
    exact .pure _
  | block hkind hreads _ =>
    rw [if_pos (TokenKind.isSome_bracketCloser?_iff.1 hkind)]
    exact (hreads fuel hfuel).before (.pure _)
  | function hkind hreads _ =>
    have hbracket : ¬ t.kind.bracketCloser?.isSome = true := by
      rw [hkind]
      nofun
    rw [if_neg (mt TokenKind.isSome_bracketCloser?_iff.2 hbracket), if_pos hkind]
    exact (hreads fuel hfuel).before (.pure _)

/-- What a token starts is taken as grouping takes it. -/
theorem ReadsContents.takes (h : ReadsContents ts) (hs : s.skipping = none)
    (hclosed : s.closedBy t = false)
    (hfits : t.kind.opensGroup = true → s.groups.length < maxGroupDepth) :
    ∃ g rest, Takes s.groups.length t ts g rest ∧
      ((t :: ts).foldl Grouping.push s).finish =
        (rest.foldl Grouping.push ((s.recordAll g.errors).add g.value)).finish := by
  cases hopens : t.kind.opensGroup with
  | false =>
    have hcloser : s.closer? ≠ some t.kind := by simpa [Grouping.closedBy_eq] using hclosed
    refine ⟨⟨.token t, []⟩, ts, .token hopens, ?_⟩
    rw [List.foldl_cons, Grouping.push_token hs hopens hcloser]
    rfl
  | true =>
    rcases TokenKind.opensGroup_iff.1 hopens with hkind | ⟨c, hcloser⟩
    · obtain ⟨vs, ds, rest, hreads, hshorter, hfinish⟩ := h.function hs hkind (hfits hopens)
      exact ⟨⟨.function t vs, ds⟩, rest, .function hkind hreads hshorter, hfinish⟩
    · have hkind : t.kind.bracketCloser?.isSome = true := by rw [hcloser]; rfl
      obtain ⟨vs, ds, rest, hreads, hshorter, hfinish⟩ := h.block hs hkind (hfits hopens)
      exact ⟨⟨.block t vs, ds⟩, rest, .block hkind hreads hshorter, hfinish⟩

/-- A group that lies too deep is passed over as grouping passes over it. -/
theorem reads_skipGroup (hs : s.skipping = none) (hclosed : s.closedBy t = false)
    (hopens : t.kind.opensGroup = true) (hfull : maxGroupDepth ≤ s.groups.length) (ts : List Token) :
    ∃ rest, (∀ fuel, ts.length < fuel → Reads (skipGroup fuel t) ts d (Token.tooDeepMarker t.position)
        [⟨Diagnostic.nestingTooDeep, t.position⟩] rest d) ∧
      rest.length ≤ ts.length ∧
      ((t :: ts).foldl Grouping.push s).finish = (rest.foldl Grouping.push
        ((s.recordAll [⟨Diagnostic.nestingTooDeep, t.position⟩]).add
          (.token (Token.tooDeepMarker t.position)))).finish := by
  let skipping : Grouping :=
    { s.record ⟨Diagnostic.nestingTooDeep, t.position⟩ with skipping := some (t, 1) }
  have hpush : s.push t = skipping := by
    simp only [Grouping.push, hs, hclosed, hopens, Grouping.openGroup, hfull, if_true,
      Bool.false_eq_true, if_false, skipping]
  have hend : skipping.endSkip t = (s.recordAll [⟨Diagnostic.nestingTooDeep, t.position⟩]).add
      (.token (Token.tooDeepMarker t.position)) := by
    have hsame : s = { s with skipping := none } := by rw [← hs]
    rw [hsame]
    rfl
  obtain ⟨rest, hreads, hshorter, hfinish⟩ :=
    reads_skipRest (s := skipping) (d := d) ts Nat.one_pos rfl
  refine ⟨rest, fun fuel hfuel => ?_, hshorter, ?_⟩
  · exact (Reads.record _).before ((hreads fuel hfuel).behind (.pure _))
  · rw [List.foldl_cons, hpush, hfinish, hend]

/-- A value is read as grouping reads it, whatever is open around it. -/
theorem ReadsContents.value (h : ReadsContents ts) (hs : s.skipping = none)
    (hclosed : s.closedBy t = false) :
    ∃ v ds rest,
      (∀ fuel, ts.length < fuel →
        Reads (value fuel t) ts s.groups.length v ds rest s.groups.length) ∧
      rest.length ≤ ts.length ∧
      ((t :: ts).foldl Grouping.push s).finish =
        (rest.foldl Grouping.push ((s.recordAll ds).add v)).finish := by
  by_cases hdeep : t.kind.opensGroup = true ∧ maxGroupDepth ≤ s.groups.length
  · obtain ⟨hopens, hfull⟩ := hdeep
    obtain ⟨rest, hreads, hshorter, hfinish⟩ := reads_skipGroup hs hclosed hopens hfull ts
    refine ⟨_, _, rest, fun fuel hfuel => ?_, hshorter, hfinish⟩
    rw [Descent.value]
    refine Reads.currentDepth.behind ?_
    rw [if_pos ⟨hopens, hfull⟩]
    exact (hreads fuel hfuel).before (.pure _)
  · obtain ⟨g, rest, htakes, hfinish⟩ :=
      h.takes hs hclosed fun hopens => Nat.not_le.1 fun hfull => hdeep ⟨hopens, hfull⟩
    exact ⟨g.value, g.errors, rest, fun fuel => htakes.value hdeep, htakes.length_le, hfinish⟩

/-- The contents of a group are read as grouping reads them: each value in a group that is open, and at
its end all that is open. -/
theorem readsContents (ts : List Token) : ReadsContents ts := by
  -- on the number of tokens, as what a value leaves behind is not the tail of the list
  induction hlength : ts.length using Nat.strongRecOn generalizing ts with
  | ind n ih =>
    intro s g outer hs hg hdepth
    cases ts with
    | nil =>
      refine ⟨g.contents.reverse, [g.unclosed], [], fun fuel hfuel => ?_, Nat.le_refl _, ?_⟩
      · obtain ⟨fuel, rfl, -⟩ := exists_fuel hfuel
        rw [contents]
        exact Reads.next_nil.behind ((Reads.record _).before (.pure _))
      · rw [List.reverse_reverse]
        exact Grouping.finish_of_open hs hg
    | cons t ts =>
      have hless : ts.length < n := by rw [← hlength]; exact Nat.lt_succ_self _
      by_cases hclosed : s.closedBy t = true
      · have hcloser : g.opener.kind.closer? = some t.kind := by
          simpa [Grouping.closedBy_eq, Grouping.closer?, hg] using hclosed
        refine ⟨g.contents.reverse, [], ts, fun fuel hfuel => ?_, Nat.le_succ _, ?_⟩
        · obtain ⟨fuel, rfl, -⟩ := exists_fuel hfuel
          rw [contents]
          refine (Reads.next_cons t).behind ?_
          dsimp only
          rw [if_pos hcloser.symm]
          exact .pure _
        · rw [List.reverse_reverse, List.foldl_cons, Grouping.push_closer hs hg hcloser]
          rfl
      · have hclosed : s.closedBy t = false := Bool.eq_false_iff.2 hclosed
        have hcloser : some t.kind ≠ g.opener.kind.closer? := by
          simpa [Grouping.closedBy_eq, Grouping.closer?, hg, eq_comm] using hclosed
        obtain ⟨v, ds, rest, hvalue, hshorter, hfinish⟩ := (ih _ hless ts rfl).value hs hclosed
        -- the group with one more value, behind that value
        let inside : Grouping :=
          { s.recordAll ds with groups := { g with contents := v :: g.contents } :: outer }
        have hadd : (s.recordAll ds).add v = inside := by
          simp only [Grouping.add, Grouping.groups_recordAll, hg, inside]
        have hlengths : inside.groups.length = s.groups.length := by rw [hg]; rfl
        obtain ⟨vs, more, last, hcontents, hrest, hend⟩ :=
          ih _ (Nat.lt_of_le_of_lt hshorter hless) rest rfl inside _ outer hs rfl (hlengths ▸ hdepth)
        rw [hlengths, List.reverse_cons] at hcontents
        refine ⟨vs, ds ++ more, last, fun fuel hfuel => ?_, ?_, ?_⟩
        · obtain ⟨fuel, rfl, hleft⟩ := exists_fuel hfuel
          rw [contents]
          refine (Reads.next_cons t).behind ?_
          dsimp only
          rw [if_neg hcloser]
          exact (hvalue fuel hleft).bind (hcontents fuel (Nat.lt_of_le_of_lt hshorter hleft))
        · exact Nat.le_succ_of_le (Nat.le_trans hrest hshorter)
        · rw [hfinish, hadd, hend, ← Grouping.recordAll_append]
          rfl

/-! ## Lists of values -/

/-- Tokens come apart into what they start, one group or token after another. -/
inductive Parts : List Token → List Grouped → Prop
  | nil : Parts [] []
  | cons {t : Token} {ts rest : List Token} {g : Grouped} {gs : List Grouped} :
      Takes 0 t ts g rest → Parts rest gs → Parts (t :: ts) (g :: gs)

/-- Tokens come apart into the groups that they are grouped into. -/
theorem parts_ofTokens (ts : List Token) : Parts ts (Grouping.ofTokens ts) := by
  have hparts : ∀ n (ts : List Token) (done : List Grouped), ts.length ≤ n →
      ∃ gs, Parts ts gs ∧ ((ts.foldl Grouping.push { done }).finish).done = gs.reverse ++ done := by
    intro n
    induction n with
    | zero =>
      intro ts done hlength
      obtain rfl := List.eq_nil_of_length_eq_zero (Nat.le_zero.1 hlength)
      exact ⟨[], .nil, rfl⟩
    | succ n ih =>
      intro ts done hlength
      cases ts with
      | nil => exact ⟨[], .nil, rfl⟩
      | cons t ts =>
        obtain ⟨g, rest, htakes, hfinish⟩ :=
          (readsContents ts).takes (s := { done }) (t := t) rfl rfl fun _ => Nat.zero_lt_succ _
        have hadd : (({ done } : Grouping).recordAll g.errors).add g.value = { done := g :: done } := by
          simp [Grouping.recordAll, Grouping.add]
        obtain ⟨gs, hparts, hdone⟩ :=
          ih rest (g :: done) (Nat.le_trans htakes.length_le (Nat.le_of_succ_le_succ hlength))
        refine ⟨g :: gs, .cons htakes hparts, ?_⟩
        rw [hfinish, hadd, hdone]
        simp
  obtain ⟨gs, hgs, hdone⟩ := hparts ts.length ts [] (Nat.le_refl _)
  rw [Grouping.ofTokens, hdone, List.append_nil, List.reverse_reverse]
  exact hgs

/-- No group is too deep outside all groups. -/
theorem Takes.value_top {g : Grouped} {fuel : Nat} (h : Takes 0 t ts g rest) (hfuel : ts.length < fuel) :
    Reads (Descent.value fuel t) ts 0 g.value g.errors rest 0 :=
  h.value (fun hdeep => absurd hdeep.2 (by decide)) hfuel

/-- Fuel that is enough for a token and all behind it is enough behind what the token starts. -/
theorem Takes.enough {g : Grouped} {fuel : Nat} (h : Takes d t ts g rest) (hfuel : ts.length < fuel) :
    rest.length < fuel :=
  Nat.lt_of_le_of_lt h.length_le hfuel

/-- All that is left is read as its values. -/
theorem Parts.reads_values {gs : List Grouped} {fuel : Nat} (h : Parts ts gs) (hfuel : ts.length < fuel)
    (sofar : List ComponentValue) :
    Reads (values fuel sofar) ts 0 (sofar ++ gs.map (·.value)) (gs.flatMap (·.errors)) [] 0 := by
  induction h generalizing fuel sofar with
  | nil =>
    obtain ⟨fuel, rfl, -⟩ := exists_fuel hfuel
    rw [values, List.map_nil, List.append_nil]
    exact Reads.next_nil.behind (.pure _)
  | @cons t ts rest g gs htakes _ ih =>
    obtain ⟨fuel, rfl, hleft⟩ := exists_fuel hfuel
    rw [values, List.map_cons, List.flatMap_cons]
    refine (Reads.next_cons t).behind ((htakes.value_top hleft).bind ?_)
    have hrest := ih (htakes.enough hleft) (sofar ++ [g.value])
    rwa [List.append_assoc] at hrest

/-- All that is left is read as values. -/
theorem reads_values {fuel : Nat} (hfuel : ts.length < fuel) :
    Reads (values fuel []) ts 0 (ComponentValue.readAll ts).1 (ComponentValue.readAll ts).2 [] 0 :=
  (parts_ofTokens ts).reads_values hfuel []

namespace Takes

variable {g : Grouped}

/-- What a token starts is a plain token of a kind exactly if the token is. -/
theorem isToken (h : Takes d t ts g rest) {kind : TokenKind} (hkind : kind.opensGroup = false) :
    g.value.isToken kind = (t.kind == kind) := by
  cases h with
  | token _ => rfl
  | block hbracket _ _ =>
    refine (beq_eq_false_iff_ne.2 ?_).symm
    rintro rfl
    rw [TokenKind.opensGroup_of_isSome hbracket] at hkind
    cases hkind
  | function hfunction _ _ =>
    refine (beq_eq_false_iff_ne.2 ?_).symm
    rintro rfl
    rw [TokenKind.opensGroup_iff.2 (.inl hfunction)] at hkind
    cases hkind

/-- What a token starts is a plain token of a kind that opens nothing exactly if the token is of that
kind. -/
theorem isToken_iff (h : Takes d t ts g rest) {kind : TokenKind} (hkind : kind.opensGroup = false) :
    g.value.isToken kind = true ↔ t.kind = kind := by
  rw [h.isToken hkind, beq_iff_eq]

/-- It is a block in braces exactly if the token opens one. -/
theorem isBraces (h : Takes d t ts g rest) : g.value.isBraces = (t.kind == .leftBrace) := by
  cases h with
  | token hopens =>
    refine (beq_eq_false_iff_ne.2 ?_).symm
    intro heq
    rw [heq] at hopens
    cases hopens
  | block _ _ _ => rfl
  | function hfunction _ _ =>
    rw [hfunction]
    rfl

/-- What a token starts stands where the token stands. -/
theorem position (h : Takes d t ts g rest) : g.value.position = t.position := by
  cases h <;> rfl

/-- A token that opens no group is its own value. -/
theorem of_not_opens (h : Takes d t ts g rest) (hopens : t.kind.opensGroup = false) :
    g = ⟨.token t, []⟩ ∧ rest = ts := by
  cases h with
  | token _ => exact ⟨rfl, rfl⟩
  | block hbracket _ _ =>
    rw [TokenKind.opensGroup_of_isSome hbracket] at hopens
    cases hopens
  | function hfunction _ _ =>
    rw [TokenKind.opensGroup_iff.2 (.inl hfunction)] at hopens
    cases hopens

/-- A brace opens a block. -/
theorem of_leftBrace (h : Takes d t ts g rest) (hkind : t.kind = .leftBrace) :
    ∃ b : Block, g.value = b.value ∧ b.isBraces = true ∧
      ∀ fuel, ts.length < fuel → Reads (Descent.block fuel t) ts d b g.errors rest d := by
  cases h with
  | token hopens =>
    rw [hkind] at hopens
    cases hopens
  | block _ hreads _ => exact ⟨_, rfl, beq_iff_eq.2 hkind, hreads⟩
  | function hfunction _ _ =>
    rw [hkind] at hfunction
    cases hfunction

end Takes

end Descent

end StyleGate
