import StyleGate.ComponentValue.Grouping

/-!
# Grouping and laying out are inverse

`ComponentValue.Regular` says which values grouping can yield at a place: no opening token stands
alone, no token would close the innermost group around it, and no group lies too deep. Every value
that grouping yields is regular (`Grouping.regular_ofTokens`), and the tokens of regular values are
grouped into the same values again, without a diagnostic (`ComponentValue.readAll_tokensAll`). So the
contents of a block are the same each time they are read from its tokens.
-/

namespace StyleGate

/-- A value as it is found inside `depth` open groups, the innermost of which ends with a token of
the kind `closer`. -/
inductive ComponentValue.Regular : Nat → Option TokenKind → ComponentValue → Prop
  | token {depth : Nat} {closer : Option TokenKind} {t : Token} :
      t.kind.opensGroup = false → closer ≠ some t.kind → Regular depth closer (.token t)
  | block {depth : Nat} {closer : Option TokenKind} {opener : Token} {c : TokenKind}
      {contents : List ComponentValue} :
      opener.kind.bracketCloser? = some c → depth < maxGroupDepth →
      (∀ v ∈ contents, Regular (depth + 1) (some c) v) → Regular depth closer (.block opener contents)
  | function {depth : Nat} {closer : Option TokenKind} {name : Token}
      {contents : List ComponentValue} :
      name.kind = .function → depth < maxGroupDepth →
      (∀ v ∈ contents, Regular (depth + 1) (some .rightParen) v) →
      Regular depth closer (.function name contents)

/-- A value as it can be built: blocks start with an opening bracket, functions with their name. -/
inductive ComponentValue.Formed : ComponentValue → Prop
  | token {t : Token} : Formed (.token t)
  | block {opener : Token} {contents : List ComponentValue} :
      opener.kind.bracketCloser?.isSome = true → (∀ v ∈ contents, Formed v) →
      Formed (.block opener contents)
  | function {name : Token} {contents : List ComponentValue} :
      name.kind = .function → (∀ v ∈ contents, Formed v) → Formed (.function name contents)

namespace TokenKind

/-- A kind that opens a group is that of a function, or it has a closing bracket. -/
theorem opensGroup_iff {kind : TokenKind} :
    kind.opensGroup = true ↔ kind = .function ∨ ∃ c, kind.bracketCloser? = some c := by
  cases kind <;> simp [opensGroup, closer?, bracketCloser?]

/-- A bracket ends with its closing bracket. -/
theorem closer?_of_bracketCloser? {kind c : TokenKind} (h : kind.bracketCloser? = some c) :
    kind.closer? = some c := by
  cases kind <;> simp_all [closer?, bracketCloser?]

/-- A kind that ends a group does not open one. -/
theorem opensGroup_of_closer? {kind c : TokenKind} (h : kind.closer? = some c) :
    c.opensGroup = false :=
  opensGroup_eq_false_of_closesGroup (closesGroup_of_closer? h)

end TokenKind

namespace ComponentValue.Regular

variable {depth depth' : Nat} {closer : Option TokenKind} {v : ComponentValue}

/-- What is regular at a place is regular at a shallower one. -/
theorem mono (h : Regular depth closer v) (hle : depth' ≤ depth) : Regular depth' closer v := by
  induction h generalizing depth' with
  | token h hc => exact .token h hc
  | block hb hd _ ih =>
    exact .block hb (Nat.lt_of_le_of_lt hle hd) fun v hv => ih v hv (Nat.succ_le_succ hle)
  | function hn hd _ ih =>
    exact .function hn (Nat.lt_of_le_of_lt hle hd) fun v hv => ih v hv (Nat.succ_le_succ hle)

/-- Regular values are formed. -/
theorem formed (h : Regular depth closer v) : v.Formed := by
  induction h with
  | token _ _ => exact .token
  | block hb _ _ ih => exact .block (by rw [hb]; rfl) ih
  | function hn _ _ ih => exact .function hn ih

/-- What is regular inside a group is regular outside all groups. -/
theorem atTop (h : Regular depth closer v) : Regular 0 none v := by
  have h := h.mono (Nat.zero_le depth)
  cases h with
  | token ht _ => exact .token ht nofun
  | block hb hd hs => exact .block hb hd hs
  | function hn hd hs => exact .function hn hd hs

/-- The contents of a regular block are regular on their own. -/
theorem contents {opener : Token} {contents : List ComponentValue}
    (h : Regular depth closer (.block opener contents)) : ∀ v ∈ contents, Regular 0 none v := by
  cases h with
  | block _ _ hs => exact fun v hv => (hs v hv).atTop

end ComponentValue.Regular

namespace Grouping

/-- The kind that ends the innermost open group. -/
def closer? (s : Grouping) : Option TokenKind := s.groups.head?.bind (·.opener.kind.closer?)

/-- The innermost group is closed by a token of its closing kind and by no other. -/
theorem closedBy_eq (s : Grouping) (t : Token) :
    s.closedBy t = decide (s.closer? = some t.kind) := by
  unfold closedBy closer?
  split <;> simp_all [Bool.beq_eq_decide_eq]

/-- What closes the innermost group closes a group. -/
theorem closesGroup_of_closer? {s : Grouping} {kind : TokenKind} (h : s.closer? = some kind) :
    kind.closesGroup = true := by
  obtain ⟨g, -, hg⟩ := Option.bind_eq_some_iff.1 h
  exact TokenKind.closesGroup_of_closer? hg

/-! ## Regular values are read back -/

/-- A token that neither closes nor opens a group is added as a value. -/
theorem push_token {s : Grouping} {t : Token} (hs : s.skipping = none)
    (ho : t.kind.opensGroup = false) (hc : s.closer? ≠ some t.kind) :
    s.push t = s.add (.token t) := by
  simp [push, hs, closedBy_eq, hc, ho]

/-- An opening token opens a group, unless too many are open. -/
theorem push_opener {s : Grouping} {t : Token} (hs : s.skipping = none)
    (ho : t.kind.opensGroup = true) (hd : s.groups.length < maxGroupDepth) :
    s.push t = { s with groups := { opener := t } :: s.groups } := by
  have hc : s.closer? ≠ some t.kind := by
    intro h
    rw [TokenKind.opensGroup_eq_false_of_closesGroup (closesGroup_of_closer? h)] at ho
    cases ho
  simp [push, hs, closedBy_eq, hc, ho, openGroup, Nat.not_le.2 hd]

/-- The token that ends the innermost group closes it. -/
theorem push_closer {s : Grouping} {g : OpenGroup} {outer : List OpenGroup} {t : Token}
    (hs : s.skipping = none) (hg : s.groups = g :: outer)
    (ht : g.opener.kind.closer? = some t.kind) :
    s.push t = { s with groups := outer }.add g.close := by
  simp [push, hs, closedBy_eq, closer?, hg, ht, closeInnermost]

@[simp] theorem skipping_add (s : Grouping) (v : ComponentValue) :
    (s.add v).skipping = s.skipping := by
  unfold add; split <;> rfl

@[simp] theorem length_groups_add (s : Grouping) (v : ComponentValue) :
    (s.add v).groups.length = s.groups.length := by
  unfold add; split <;> simp_all

@[simp] theorem closer?_add (s : Grouping) (v : ComponentValue) : (s.add v).closer? = s.closer? := by
  unfold add closer?; split <;> simp_all

/-- Values added inside a group become its contents. -/
theorem foldl_add_inside (vs : List ComponentValue) {s : Grouping} {g : OpenGroup}
    {outer : List OpenGroup} (hg : s.groups = g :: outer) :
    vs.foldl add s =
      { s with groups := { g with contents := vs.reverse ++ g.contents } :: outer } := by
  induction vs generalizing s g with
  | nil => cases s; simp_all
  | cons v vs ih =>
    have hadd : s.add v = { s with groups := { g with contents := v :: g.contents } :: outer } := by
      unfold add; rw [hg]
    rw [List.foldl_cons, hadd, ih rfl]
    simp

/-- Values added outside all groups are finished values without diagnostics. -/
theorem foldl_add_outside (vs : List ComponentValue) {s : Grouping} (hg : s.groups = [])
    (he : s.errors = []) :
    vs.foldl add s = { s with done := (vs.map fun v => ⟨v, []⟩).reverse ++ s.done } := by
  induction vs generalizing s with
  | nil => cases s; simp_all
  | cons v vs ih =>
    have hadd : s.add v = { s with done := ⟨v, []⟩ :: s.done } := by
      unfold add; rw [hg]; simp [he]
    rw [List.foldl_cons, hadd, ih (s := { s with done := ⟨v, []⟩ :: s.done }) hg he]
    simp

/-- The tokens of regular values add those values, if the tokens of each do. -/
theorem foldl_push_tokensAll {vs : List ComponentValue} {s : Grouping}
    (h : ∀ v ∈ vs, ∀ s' : Grouping, s'.skipping = none → s'.groups.length = s.groups.length →
      s'.closer? = s.closer? → v.tokens.foldl push s' = s'.add v)
    (hs : s.skipping = none) :
    (ComponentValue.tokensAll vs).foldl push s = vs.foldl add s := by
  induction vs generalizing s with
  | nil => rfl
  | cons v vs ih =>
    rw [ComponentValue.tokensAll_cons, List.foldl_append, h v (.head _) s hs rfl rfl]
    refine ih (fun w hw s' hs' hl hc => ?_) (by simpa using hs)
    exact h w (.tail _ hw) s' hs' (by simpa using hl) (by simpa using hc)

/-- The tokens of a group add the group, if the tokens of each value in it add that value. -/
theorem foldl_push_group {s : Grouping} {opener ending : Token} {contents : List ComponentValue}
    (hs : s.skipping = none) (hopens : opener.kind.opensGroup = true)
    (hdepth : s.groups.length < maxGroupDepth) (hcloser : opener.kind.closer? = some ending.kind)
    (hcontents : ∀ v ∈ contents, ∀ s' : Grouping, s'.skipping = none →
      s'.groups.length = s.groups.length + 1 → s'.closer? = opener.kind.closer? →
        v.tokens.foldl push s' = s'.add v) :
    (opener :: (ComponentValue.tokensAll contents ++ [ending])).foldl push s =
      s.add (OpenGroup.close { opener, contents := contents.reverse }) := by
  let inside : Grouping := { s with groups := { opener } :: s.groups }
  have hinside : (ComponentValue.tokensAll contents).foldl push inside =
      { inside with groups := { opener, contents := contents.reverse } :: s.groups } := by
    rw [foldl_push_tokensAll (s := inside) hcontents hs, foldl_add_inside contents rfl]
    simp [inside]
  have hclose := push_closer (s := { inside with
      groups := { opener, contents := contents.reverse } :: s.groups }) hs rfl hcloser
  rw [List.foldl_cons, List.foldl_append, push_opener hs hopens hdepth, hinside]
  exact hclose

/-- The tokens of a regular value add that value. -/
theorem foldl_push_tokens {depth : Nat} {closer : Option TokenKind} {v : ComponentValue}
    (h : v.Regular depth closer) : ∀ s : Grouping, s.skipping = none → s.groups.length = depth →
      s.closer? = closer → v.tokens.foldl push s = s.add v := by
  induction h with
  | token ho hc =>
    rintro s hs - rfl
    exact push_token hs ho hc
  | @block depth closer opener c contents hb hd _ ih =>
    rintro s hs rfl -
    have hcloser : opener.kind.closer? = some c := TokenKind.closer?_of_bracketCloser? hb
    have hne : opener.kind ≠ .function := by rintro h; rw [h] at hb; cases hb
    have hend : opener.kind.closer? = some (ComponentValue.blockEnd opener).kind := by
      simp [hcloser, ComponentValue.blockEnd, hb]
    rw [ComponentValue.tokens, foldl_push_group hs (TokenKind.opensGroup_iff.2 (.inr ⟨c, hb⟩)) hd hend
      fun v hv s' h1 h2 h3 => ih v hv s' h1 h2 (h3.trans hcloser)]
    simp [OpenGroup.close, hne]
  | @function depth closer name contents hn hd _ ih =>
    rintro s hs rfl -
    have hcloser : name.kind.closer? = some .rightParen := by rw [hn]; rfl
    have hend : name.kind.closer? = some ComponentValue.functionEnd.kind := hcloser
    rw [ComponentValue.tokens, foldl_push_group hs (TokenKind.opensGroup_iff.2 (.inl hn)) hd hend
      fun v hv s' h1 h2 h3 => ih v hv s' h1 h2 (h3.trans hcloser)]
    simp [OpenGroup.close, hn]

/-- The tokens of regular values are grouped into those values, without a diagnostic. -/
theorem ofTokens_tokensAll {vs : List ComponentValue} (h : ∀ v ∈ vs, v.Regular 0 none) :
    ofTokens (ComponentValue.tokensAll vs) = vs.map fun v => ⟨v, []⟩ := by
  have hfold : (ComponentValue.tokensAll vs).foldl push {} = vs.foldl add {} :=
    foldl_push_tokensAll (fun v hv s' h1 h2 h3 => foldl_push_tokens (h v hv) s' h1 h2 h3) rfl
  rw [ofTokens, hfold, foldl_add_outside vs rfl rfl]
  simp [finish, closeUnclosed]

end Grouping

/-- The tokens of regular values are read as those values, without a diagnostic. -/
theorem ComponentValue.readAll_tokensAll {vs : List ComponentValue}
    (h : ∀ v ∈ vs, v.Regular 0 none) : readAll (tokensAll vs) = (vs, []) := by
  simp [readAll, Grouping.ofTokens_tokensAll h, Function.comp_def]

/-! ## Groups are closed opening tokens -/

/-- A group that is closed is regular where it was opened. -/
theorem OpenGroup.regular_close {g : OpenGroup} {depth : Nat} {closer : Option TokenKind}
    (ho : g.opener.kind.opensGroup = true) (hd : depth < maxGroupDepth)
    (hc : ∀ v ∈ g.contents, v.Regular (depth + 1) g.opener.kind.closer?) :
    g.close.Regular depth closer := by
  rcases TokenKind.opensGroup_iff.1 ho with hf | ⟨c, hb⟩
  · rw [close, if_pos hf]
    refine .function hf hd fun v hv => ?_
    have hv := hc v (List.mem_reverse.1 hv)
    rwa [hf] at hv
  · have hne : g.opener.kind ≠ .function := by rintro h; rw [h] at hb; cases hb
    rw [close, if_neg hne]
    refine .block hb hd fun v hv => ?_
    have hv := hc v (List.mem_reverse.1 hv)
    rwa [TokenKind.closer?_of_bracketCloser? hb] at hv

namespace OpenGroup

/-- A group that a bracket opened ends as a block. -/
theorem close_block {opener : Token} {contents : List ComponentValue}
    (h : opener.kind.bracketCloser?.isSome = true) :
    close ⟨opener, contents.reverse⟩ = .block opener contents := by
  rw [close, if_neg (TokenKind.ne_of_bracketCloser? h rfl), List.reverse_reverse]

/-- One that a function token opened ends as a function. -/
theorem close_function {name : Token} {contents : List ComponentValue} (h : name.kind = .function) :
    close ⟨name, contents.reverse⟩ = .function name contents := by
  rw [close, if_pos h, List.reverse_reverse]

end OpenGroup

/-- A value that can be built is a token, or an opening token whose group is closed behind its
contents. -/
@[elab_as_elim]
theorem ComponentValue.Formed.induction {motive : ComponentValue → Prop}
    (token : ∀ t, motive (.token t))
    (group : ∀ g : OpenGroup, g.opener.kind.opensGroup = true → (∀ v ∈ g.contents, motive v) →
      motive g.close) {v : ComponentValue} (h : v.Formed) : motive v := by
  induction h with
  | token => exact token _
  | block hopener _ ih =>
    obtain ⟨c, hc⟩ := Option.isSome_iff_exists.1 hopener
    rw [← OpenGroup.close_block hopener]
    exact group _ (TokenKind.opensGroup_iff.2 (.inr ⟨c, hc⟩)) fun v hv =>
      ih v (List.mem_reverse.1 hv)
  | function hname _ ih =>
    rw [← OpenGroup.close_function hname]
    exact group _ (TokenKind.opensGroup_iff.2 (.inl hname)) fun v hv => ih v (List.mem_reverse.1 hv)

/-- A regular value is a token that stays, or an opening token whose group is closed behind regular
contents. -/
@[elab_as_elim]
theorem ComponentValue.Regular.induction
    {motive : Nat → Option TokenKind → ComponentValue → Prop}
    (token : ∀ depth closer t, t.kind.opensGroup = false → closer ≠ some t.kind →
      motive depth closer (.token t))
    (group : ∀ depth closer (g : OpenGroup), g.opener.kind.opensGroup = true →
      (∀ v ∈ g.contents, v.Regular (depth + 1) g.opener.kind.closer?) →
      (∀ v ∈ g.contents, motive (depth + 1) g.opener.kind.closer? v) → motive depth closer g.close)
    {depth : Nat} {closer : Option TokenKind} {v : ComponentValue} (h : v.Regular depth closer) :
    motive depth closer v := by
  induction h with
  | token hopens hcloser => exact token _ _ _ hopens hcloser
  | block hb _ hcontents ih =>
    rw [← TokenKind.closer?_of_bracketCloser? hb] at hcontents ih
    rw [← OpenGroup.close_block (by rw [hb]; rfl)]
    exact group _ _ _ (TokenKind.opensGroup_iff.2 (.inr ⟨_, hb⟩))
      (fun v hv => hcontents v (List.mem_reverse.1 hv)) fun v hv => ih v (List.mem_reverse.1 hv)
  | @function depth closer name contents hname _ hcontents ih =>
    have hcloser : name.kind.closer? = some .rightParen := by
      rw [hname]
      rfl
    rw [← hcloser] at hcontents ih
    rw [← OpenGroup.close_function hname]
    exact group _ _ _ (TokenKind.opensGroup_iff.2 (.inl hname))
      (fun v hv => hcontents v (List.mem_reverse.1 hv)) fun v hv => ih v (List.mem_reverse.1 hv)

/-- A regular value is a token that opens no group, or a group of regular values. -/
theorem ComponentValue.Regular.token_or_group {depth : Nat} {closer : Option TokenKind}
    {v : ComponentValue} (h : v.Regular depth closer) :
    (∃ t, v = .token t ∧ t.kind.opensGroup = false) ∨
      ∃ g : OpenGroup, v = g.close ∧ g.opener.kind.opensGroup = true ∧
        ∀ w ∈ g.contents, w.Regular (depth + 1) g.opener.kind.closer? :=
  induction (fun _ _ t hopens _ => .inl ⟨t, rfl, hopens⟩)
    (fun _ _ g hopens hcontents _ => .inr ⟨g, rfl, hopens, hcontents⟩) h

/-! ## What grouping yields is regular -/

/-- The open groups hold regular values, and there are not too many of them. -/
def OpenGroup.AllRegular : List OpenGroup → Prop
  | [] => True
  | g :: outer =>
    outer.length < maxGroupDepth ∧ g.opener.kind.opensGroup = true ∧
      (∀ v ∈ g.contents, v.Regular (outer.length + 1) g.opener.kind.closer?) ∧ AllRegular outer

namespace Grouping

/-- All values that were read so far are regular where they stand. -/
structure AllRegular (s : Grouping) : Prop where
  groups : OpenGroup.AllRegular s.groups
  done : ∀ g ∈ s.done, g.value.Regular 0 none

variable {s : Grouping}

/-- A value may be added where it is regular. -/
theorem AllRegular.add (h : s.AllRegular) {v : ComponentValue}
    (hv : v.Regular s.groups.length s.closer?) : (s.add v).AllRegular := by
  unfold Grouping.add
  unfold closer? at hv
  split
  · next g outer hg =>
    have hgs := h.groups
    rw [hg] at hv hgs
    refine ⟨⟨hgs.1, hgs.2.1, ?_, hgs.2.2.2⟩, h.done⟩
    rintro w (_ | ⟨_, hw⟩)
    · exact hv
    · exact hgs.2.2.1 w hw
  · next hg =>
    rw [hg] at hv
    refine ⟨by rw [hg]; trivial, ?_⟩
    rintro w (_ | ⟨_, hw⟩)
    · exact hv
    · exact h.done w hw

/-- A broken string is regular everywhere: it stands for a group that was passed over. -/
theorem regular_tooDeepMarker (p : Position) (depth : Nat) :
    (ComponentValue.token (Token.tooDeepMarker p)).Regular depth s.closer? := by
  exact .token rfl fun h => nomatch closesGroup_of_closer? h

/-- A group that is passed over leaves no value. -/
theorem AllRegular.endSkip (h : s.AllRegular) (opener : Token) : (s.endSkip opener).AllRegular :=
  AllRegular.add (s := { s with skipping := none }) ⟨h.groups, h.done⟩
    (regular_tooDeepMarker (s := { s with skipping := none }) _ _)

/-- The innermost group, closed, is regular one group further out. -/
theorem AllRegular.closeInnermost (h : s.AllRegular) : s.closeInnermost.AllRegular := by
  unfold Grouping.closeInnermost
  split
  · next g outer hg =>
    have hgs := h.groups
    rw [hg] at hgs
    exact AllRegular.add (s := { s with groups := outer }) ⟨hgs.2.2.2, h.done⟩
      (OpenGroup.regular_close hgs.2.1 hgs.1 hgs.2.2.1)
  · exact h

/-- One token keeps all values regular. -/
theorem AllRegular.push (h : s.AllRegular) (t : Token) : (s.push t).AllRegular := by
  unfold Grouping.push
  split
  · next opener n _ =>
    unfold Grouping.skip
    split
    · exact ⟨h.groups, h.done⟩
    · split
      · split
        · exact h.endSkip opener
        · exact ⟨h.groups, h.done⟩
      · exact h
  · split
    · exact h.closeInnermost
    · next hc =>
      split
      · next ho =>
        unfold openGroup
        split
        · exact ⟨h.groups, h.done⟩
        · next hd => exact ⟨⟨Nat.not_le.1 hd, ho, nofun, h.groups⟩, h.done⟩
      · next ho =>
        rw [closedBy_eq, decide_eq_true_iff] at hc
        exact h.add (.token (Bool.eq_false_iff.2 ho) hc)

/-- So are the groups that are closed one after the other at the end. -/
theorem AllRegular.closeUnclosed (n : Nat) : ∀ {s : Grouping}, s.AllRegular →
    (s.closeUnclosed n).AllRegular := by
  induction n with
  | zero => exact fun h => h
  | succ n ih =>
    intro s h
    unfold Grouping.closeUnclosed
    split
    · exact ih (AllRegular.closeInnermost ⟨h.groups, h.done⟩)
    · exact h

/-- In the end all values are regular outside all groups. -/
theorem AllRegular.finish (h : s.AllRegular) : s.finish.AllRegular := by
  unfold Grouping.finish
  split
  · exact AllRegular.closeUnclosed _ (h.endSkip _)
  · exact AllRegular.closeUnclosed _ h

/-- Every value that grouping yields is regular. -/
theorem regular_ofTokens (ts : List Token) : ∀ g ∈ ofTokens ts, g.value.Regular 0 none := by
  have hfold : ∀ s : Grouping, s.AllRegular → (ts.foldl push s).AllRegular := by
    induction ts with
    | nil => exact fun _ h => h
    | cons t ts ih => exact fun s h => ih _ (h.push t)
  have h := (hfold {} ⟨trivial, nofun⟩).finish
  exact fun g hg => h.done g (List.mem_reverse.1 hg)

end Grouping

/-- Every value that is read from tokens is regular. -/
theorem ComponentValue.regular_readAll (ts : List Token) : ∀ v ∈ (readAll ts).1, v.Regular 0 none := by
  intro v hv
  obtain ⟨g, hg, rfl⟩ := List.mem_map.1 hv
  exact Grouping.regular_ofTokens ts g hg

end StyleGate
