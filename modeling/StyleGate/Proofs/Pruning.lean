import StyleGate.Proofs.Lossless

/-!
# What the limit on depth leaves out

Without its limit grouping would enter every group (`Grouping.pushFreely`). The limit is there to
prune: what it yields should be the values that are read without it, where each group that lies too
deep is replaced by a broken string (`ComponentValue.prune`).

It is so for tokens in which every closing token inside a group that lies too deep ends the
innermost group there. A group that is passed over is left by counting, and closing tokens of all
kinds count alike, so what is yielded of any tokens is what the limit leaves of these tokens once
such closing tokens are paired with the groups around them (`Token.pairAll`,
`ComponentValue.readAll_prune`). Where one of another kind stands there, grouping leaves the group
early, and its rest leaks into the groups around it (`ComponentValue.readAll_ne_prune`).

Both ways of grouping are run side by side: the groups that were entered hold the pruned contents of
their counterparts, and the count stands for the groups that were not (`OpenGroup.Prunes`).
-/

namespace StyleGate

/-! ## Without the limit -/

namespace Grouping

/-- Takes the next token where no group lies too deep. -/
def pushFreely (s : Grouping) (t : Token) : Grouping :=
  if s.closedBy t then s.closeInnermost
  else if t.kind.opensGroup then { s with groups := { opener := t } :: s.groups }
  else s.add (.token t)

/-- The number of open groups, those that are passed over included. -/
def depth (s : Grouping) : Nat := s.groups.length + (s.skipping.map (·.2)).getD 0

end Grouping

/-- The component values of a list of tokens where no group lies too deep. -/
def ComponentValue.readFreely (ts : List Token) : List ComponentValue :=
  (ts.foldl Grouping.pushFreely {}).finish.done.reverse.map (·.value)

/-- The rules in a list of tokens where no group lies too deep. -/
def Rule.readFreely (topLevel : Bool) (ts : List Token) : List Rule :=
  (Rule.ofValues topLevel (ComponentValue.readFreely ts)).1

/-! ## Pruned values -/

namespace ComponentValue

mutual

/-- A value inside `depth` groups, with a broken string for each group in it that lies too deep. -/
def prune (depth : Nat) : ComponentValue → ComponentValue
  | token t => token t
  | block opener contents =>
    if maxGroupDepth ≤ depth then token (Token.tooDeepMarker opener.position)
    else block opener (pruneAll (depth + 1) contents)
  | function name contents =>
    if maxGroupDepth ≤ depth then token (Token.tooDeepMarker name.position)
    else function name (pruneAll (depth + 1) contents)

/-- The values of a list, each of them pruned. -/
def pruneAll (depth : Nat) : List ComponentValue → List ComponentValue
  | [] => []
  | v :: rest => v.prune depth :: pruneAll depth rest

end

/-- A list is pruned value by value. -/
theorem pruneAll_eq_map (depth : Nat) (vs : List ComponentValue) :
    pruneAll depth vs = vs.map (prune depth) := by
  induction vs with
  | nil => rfl
  | cons v vs ih => rw [pruneAll, ih, List.map_cons]

/-- It may be pruned in either order. -/
theorem pruneAll_reverse (depth : Nat) (vs : List ComponentValue) :
    pruneAll depth vs.reverse = (pruneAll depth vs).reverse := by
  rw [pruneAll_eq_map, pruneAll_eq_map, List.map_reverse]

/-- Outside of all groups the same values are plain tokens of a kind. -/
@[simp] theorem isToken_prune (kind : TokenKind) (v : ComponentValue) :
    (v.prune 0).isToken kind = v.isToken kind := by
  cases v <;> rfl

end ComponentValue

open ComponentValue (prune pruneAll)

namespace OpenGroup

/-- Open groups with pruned contents. -/
def pruneOpen : List OpenGroup → List OpenGroup
  | [] => []
  | g :: outer => { g with contents := pruneAll (outer.length + 1) g.contents } :: pruneOpen outer

@[simp] theorem length_pruneOpen (gs : List OpenGroup) : (pruneOpen gs).length = gs.length := by
  induction gs with
  | nil => rfl
  | cons g outer ih => rw [pruneOpen, List.length_cons, List.length_cons, ih]

/-- Pruning leaves the opening tokens of open groups. -/
theorem openers_pruneOpen (gs : List OpenGroup) :
    (pruneOpen gs).map (·.opener) = gs.map (·.opener) := by
  induction gs with
  | nil => rfl
  | cons g outer ih => rw [pruneOpen, List.map_cons, List.map_cons, ih]

/-- A group that does not lie too deep is closed with its pruned contents. -/
theorem close_prune {g : OpenGroup} {depth : Nat} (h : depth < maxGroupDepth) :
    close { g with contents := pruneAll (depth + 1) g.contents } = g.close.prune depth := by
  unfold close
  split <;> simp [prune, Nat.not_le.2 h, ComponentValue.pruneAll_reverse]

/-- A broken string stands for a group that lies too deep. -/
theorem prune_close {g : OpenGroup} {depth : Nat} (h : maxGroupDepth ≤ depth) :
    g.close.prune depth = .token (Token.tooDeepMarker g.opener.position) := by
  unfold close
  split <;> simp [prune, h]

/-- The groups that are open where the limit holds, with the group that is being passed over, and
the groups that are open without it. -/
inductive Prunes : List OpenGroup → Option (Token × Nat) → List OpenGroup → Prop
  /-- All groups were entered. -/
  | entered {l : List OpenGroup} : l.length ≤ maxGroupDepth → Prunes (pruneOpen l) none l
  /-- The innermost group is the first that lies too deep. -/
  | passed {g : OpenGroup} {gs : List OpenGroup} :
      g.opener.kind.opensGroup = true → gs.length = maxGroupDepth →
      Prunes (pruneOpen gs) (some (g.opener, 1)) (g :: gs)
  /-- The innermost group lies in another one that lies too deep. -/
  | deeper {g : OpenGroup} {opener : Token} {n : Nat} {gs fs : List OpenGroup} :
      g.opener.kind.opensGroup = true → Prunes gs (some (opener, n)) fs →
      Prunes gs (some (opener, n + 1)) (g :: fs)

/-- An innermost group that was not entered starts with an opening token. -/
theorem Prunes.opensGroup {gs fs : List OpenGroup} {g : OpenGroup} {skipping : Option (Token × Nat)}
    (h : Prunes gs skipping (g :: fs)) (hs : skipping ≠ none) :
    g.opener.kind.opensGroup = true := by
  cases h with
  | entered => exact absurd rfl hs
  | passed hopens _ => exact hopens
  | deeper hopens _ => exact hopens

/-- Where no group is passed over, all of them were entered. -/
theorem Prunes.entered_of_none {gs fs : List OpenGroup} (h : Prunes gs none fs) :
    gs = pruneOpen fs ∧ fs.length ≤ maxGroupDepth := by
  cases h with
  | entered hlength => exact ⟨rfl, hlength⟩

/-- The groups that are passed over are counted from one on. -/
theorem Prunes.count_pos {gs fs : List OpenGroup} {opener : Token} {n : Nat}
    (h : Prunes gs (some (opener, n)) fs) : 0 < n := by
  cases h <;> exact Nat.succ_pos _

/-- Equally many groups are open on both sides, those that are passed over included. Where one is
passed over, they are more than the limit allows. -/
theorem Prunes.length_eq {gs fs : List OpenGroup} {skipping : Option (Token × Nat)}
    (h : Prunes gs skipping fs) :
    gs.length + (skipping.map (·.2)).getD 0 = fs.length ∧
      (skipping ≠ none → maxGroupDepth < fs.length) := by
  induction h with
  | entered _ => exact ⟨by simp, fun h => absurd rfl h⟩
  | passed _ hlength => exact ⟨by simp, fun _ => by rw [List.length_cons]; omega⟩
  | deeper _ _ ih =>
    obtain ⟨hlength, hdeep⟩ := ih
    have hdeep := hdeep nofun
    simp only [Option.map_some, Option.getD_some, List.length_cons] at hlength ⊢
    exact ⟨by omega, fun _ => by omega⟩

end OpenGroup

/-! ## Side by side -/

namespace Grouping

/-- What is known in the middle of tokens with the limit and without it. -/
structure Prunes (s f : Grouping) : Prop where
  done : s.done.map (·.value) = f.done.map fun g => g.value.prune 0
  groups : OpenGroup.Prunes s.groups s.skipping f.groups
  entersAll : f.skipping = none

namespace Prunes

variable {s f : Grouping} {t : Token}

/-- Both ways of grouping are equally deep inside groups. -/
theorem depth_eq (h : s.Prunes f) : s.depth = f.depth := by
  rw [depth, depth, h.groups.length_eq.1, h.entersAll]
  rfl

/-- Where no group is passed over, all of them were entered. -/
theorem entered (h : s.Prunes f) (hs : s.skipping = none) :
    s.groups = OpenGroup.pruneOpen f.groups ∧ f.groups.length ≤ maxGroupDepth := by
  have hgroups := h.groups
  rw [hs] at hgroups
  exact hgroups.entered_of_none

/-- Diagnostics do not matter. -/
theorem recordAll (h : s.Prunes f) (ds es : List Diagnostic) :
    (s.recordAll ds).Prunes (f.recordAll es) :=
  ⟨h.done, h.groups, h.entersAll⟩

/-- A value is added where all groups were entered. -/
theorem add (h : s.Prunes f) (hs : s.skipping = none) (v : ComponentValue) :
    (s.add (v.prune f.groups.length)).Prunes (f.add v) := by
  obtain ⟨done, groups, errors, skipping⟩ := s
  obtain ⟨fdone, fgroups, ferrors, fskipping⟩ := f
  obtain ⟨hdone, hgroups, hfree⟩ := h
  cases hgroups with
  | entered hlength =>
    cases fgroups with
    | nil =>
      have hdone : (v.prune 0 :: done.map (·.value)) =
          v.prune 0 :: fdone.map fun g => g.value.prune 0 := congrArg _ hdone
      exact ⟨hdone, .entered hlength, hfree⟩
    | cons g outer =>
      exact ⟨hdone, .entered (l := { g with contents := v :: g.contents } :: outer) hlength, hfree⟩
  | passed => cases hs
  | deeper => cases hs

/-- What is added inside a group that lies too deep is not seen. -/
theorem addDeep (h : s.Prunes f) (hs : s.skipping ≠ none) (v : ComponentValue) :
    s.Prunes (f.add v) := by
  obtain ⟨done, groups, errors, skipping⟩ := s
  obtain ⟨fdone, fgroups, ferrors, fskipping⟩ := f
  obtain ⟨hdone, hgroups, hfree⟩ := h
  cases hgroups with
  | entered => exact absurd rfl hs
  | @passed g gs hopens hlength =>
    exact ⟨hdone, .passed (g := { g with contents := v :: g.contents }) hopens hlength, hfree⟩
  | @deeper g opener n gs fs hopens hgroups =>
    exact ⟨hdone, .deeper (g := { g with contents := v :: g.contents }) hopens hgroups, hfree⟩

end Prunes

/-- Leaves the innermost open group, or the innermost group that is passed over. -/
def leave (s : Grouping) : Grouping :=
  match s.skipping with
  | some (opener, n) =>
    if n ≤ 1 then s.endSkip opener else { s with skipping := some (opener, n - 1) }
  | none => s.closeInnermost

namespace Prunes

variable {s f : Grouping} {t : Token}

/-- Where the innermost group is closed without the limit, the same group is left. -/
theorem leave (h : s.Prunes f) (hf : f.groups ≠ []) : s.leave.Prunes f.closeInnermost := by
  obtain ⟨done, groups, errors, skipping⟩ := s
  obtain ⟨fdone, fgroups, ferrors, fskipping⟩ := f
  obtain ⟨hdone, hgroups, hfree⟩ := h
  cases hgroups with
  | entered hlength =>
    cases fgroups with
    | nil => exact absurd rfl hf
    | cons g outer =>
      have hlength : outer.length < maxGroupDepth := hlength
      have houter : Prunes ⟨done, OpenGroup.pruneOpen outer, errors, none⟩
          ⟨fdone, outer, ferrors, fskipping⟩ :=
        ⟨hdone, .entered (Nat.le_of_lt hlength), hfree⟩
      have hclosed := houter.add rfl g.close
      rw [← OpenGroup.close_prune hlength] at hclosed
      exact hclosed
  | @passed g gs hopens hlength =>
    have houter : Prunes ⟨done, OpenGroup.pruneOpen gs, errors, none⟩
        ⟨fdone, gs, ferrors, fskipping⟩ :=
      ⟨hdone, .entered (Nat.le_of_eq hlength), hfree⟩
    have hclosed := houter.add rfl g.close
    rw [OpenGroup.prune_close (Nat.le_of_eq hlength.symm)] at hclosed
    exact hclosed
  | @deeper g opener n gs fs hopens hgroups =>
    have houter : Prunes ⟨done, groups, errors, some (opener, n)⟩ ⟨fdone, fs, ferrors, fskipping⟩ :=
      ⟨hdone, hgroups, hfree⟩
    have hclosed := houter.addDeep nofun g.close
    have hleave : Grouping.leave ⟨done, groups, errors, some (opener, n + 1)⟩ =
        ⟨done, groups, errors, some (opener, n)⟩ := by
      have hpos := hgroups.count_pos
      simp only [Grouping.leave]
      rw [if_neg (by omega), Nat.add_sub_cancel]
    rw [hleave]
    exact hclosed

end Prunes

end Grouping

/-! ## Tokens that are paired with groups -/

namespace Token

/-- A closing token inside a group that lies too deep, as the one that ends the innermost group. Any
other token stays as it is. -/
def pair (openers : List Token) (t : Token) : Token :=
  if maxGroupDepth < openers.length ∧ t.kind.closesGroup = true then
    { t with kind := (openers.head?.bind (·.kind.closer?)).getD t.kind }
  else t

/-- Tokens behind open groups, where closing tokens inside groups that lie too deep are paired with
the groups that they leave. -/
def pairAll (openers : List Token) : List Token → List Token
  | [] => []
  | t :: ts => pair openers t :: pairAll (openAfter openers (pair openers t)) ts

/-- A token that is paired with a group leaves another number of groups open than before. -/
theorem length_openAfter_pair {openers : List Token} {t : Token} (h : pair openers t ≠ t) :
    (openAfter openers (pair openers t)).length ≠ (openAfter openers t).length := by
  unfold pair at h ⊢
  split at h
  · next hdeep =>
    rw [if_pos hdeep]
    obtain ⟨hdepth, hcloses⟩ := hdeep
    obtain ⟨opener, outer, rfl⟩ := List.exists_cons_of_length_pos (Nat.zero_lt_of_lt hdepth)
    simp only [List.head?_cons, Option.bind_some] at h ⊢
    cases hcloser : opener.kind.closer? with
    | none =>
      rw [hcloser] at h
      exact absurd rfl h
    | some kind =>
      rw [hcloser] at h
      simp only [Option.getD_some] at h ⊢
      have hne : kind ≠ t.kind := by
        rintro rfl
        exact h rfl
      have hstays : endsGroup (opener :: outer) t = false := by simp [endsGroup, hcloser, hne]
      have hends : endsGroup (opener :: outer) { t with kind } = true := by
        simp [endsGroup, hcloser]
      rw [openAfter, if_pos hends, openAfter, hstays, if_neg Bool.false_ne_true,
        TokenKind.opensGroup_eq_false_of_closesGroup hcloses, if_neg Bool.false_ne_true]
      simp
  · exact absurd rfl h

end Token

namespace Grouping

variable {s f : Grouping} {t : Token}

/-- Without the limit just the groups are open that the tokens leave open. -/
theorem openers_pushFreely (s : Grouping) (t : Token) :
    (s.pushFreely t).openers = Token.openAfter s.openers t := by
  unfold pushFreely Token.openAfter
  rw [closedBy_eq_endsGroup]
  split
  · unfold closeInnermost
    split
    · next g outer hg =>
      rw [openers_add]
      simp [openers, hg]
    · next hg => simp [openers, hg]
  · split
    · rfl
    · rw [openers_add]

/-- Without the limit no group is passed over. -/
theorem skipping_pushFreely (s : Grouping) (t : Token) :
    (s.pushFreely t).skipping = s.skipping := by
  unfold pushFreely closeInnermost
  split
  · split
    · rw [skipping_add]
    · rfl
  · split
    · rfl
    · rw [skipping_add]

/-- Where no group is passed over, the depth is that of the groups that were entered. -/
theorem depth_of_entersAll (hs : s.skipping = none) : s.depth = s.openers.length := by
  rw [depth, hs, openers, List.length_map]
  rfl

/-- A token that opens no group that lies too deep is taken as it is without the limit. -/
theorem push_eq_pushFreely (hs : s.skipping = none)
    (hroom : t.kind.opensGroup = true → s.groups.length < maxGroupDepth) :
    s.push t = s.pushFreely t := by
  simp only [push, hs, pushFreely]
  split
  · rfl
  · split
    · next hopens => rw [openGroup, if_neg (Nat.not_le.2 (hroom hopens)), hs]
    · rfl

/-- Leaving one of the groups that are passed over does not change what is known at the end. -/
theorem finish_leave (hs : s.skipping ≠ none) : s.leave.finish = s.finish := by
  obtain ⟨⟨opener, n⟩, hskipping⟩ := Option.ne_none_iff_exists'.1 hs
  rw [finish_of_skipping hskipping]
  simp only [leave, hskipping]
  split
  · rfl
  · rw [finish_of_skipping rfl]
    rfl

/-- Where a group is passed over, the next token is a token of that group. -/
theorem push_eq_skip {opener : Token} {n : Nat} (hs : s.skipping = some (opener, n)) :
    s.push t = s.skip opener n t := by
  simp only [push, hs]

/-- A closing token leaves a group where one is passed over. -/
theorem push_eq_leave (hs : s.skipping ≠ none) (ht : t.kind.closesGroup = true) :
    s.push t = s.leave := by
  obtain ⟨⟨opener, n⟩, hskipping⟩ := Option.ne_none_iff_exists'.1 hs
  rw [push_eq_skip hskipping, skip, TokenKind.opensGroup_eq_false_of_closesGroup ht,
    if_neg Bool.false_ne_true, if_pos ht]
  simp only [leave, hskipping]

namespace Prunes

/-- The next token where all groups were entered. -/
theorem pushEntered (h : s.Prunes f) (hs : s.skipping = none) (t : Token) :
    (s.push t).Prunes (f.pushFreely t) := by
  obtain ⟨hgroups, hle⟩ := h.entered hs
  have hclosed : s.closedBy t = f.closedBy t := by
    rw [closedBy_eq_endsGroup, closedBy_eq_endsGroup, openers, hgroups, OpenGroup.openers_pruneOpen,
      openers]
  by_cases hdeep : t.kind.opensGroup = true ∧ maxGroupDepth ≤ f.groups.length
  · obtain ⟨hopens, hdepth⟩ := hdeep
    have hstays : f.closedBy t = false := by
      rw [closedBy_eq_endsGroup, Token.endsGroup_of_opensGroup hopens]
    have hfull : maxGroupDepth ≤ s.groups.length := by rwa [hgroups, OpenGroup.length_pruneOpen]
    have hpush : s.push t =
        { s.record ⟨Diagnostic.nestingTooDeep, t.position⟩ with skipping := some (t, 1) } := by
      simp [Grouping.push, hs, hclosed, hstays, hopens, openGroup, hfull]
    have hfree : f.pushFreely t = { f with groups := { opener := t } :: f.groups } := by
      simp [pushFreely, hstays, hopens]
    rw [hpush, hfree]
    -- without the limit the group is open, with it one group is passed over
    refine ⟨h.done, ?_, h.entersAll⟩
    change OpenGroup.Prunes s.groups (some (t, 1)) _
    rw [hgroups]
    exact .passed (g := { opener := t }) hopens (Nat.le_antisymm hle hdepth)
  · have hroom : t.kind.opensGroup = true → f.groups.length < maxGroupDepth :=
      fun hopens => Nat.not_le.1 fun hdepth => hdeep ⟨hopens, hdepth⟩
    rw [push_eq_pushFreely hs (by rwa [hgroups, OpenGroup.length_pruneOpen])]
    unfold pushFreely
    rw [hclosed]
    split
    · next hends =>
      have hopen : f.groups ≠ [] := by
        intro hnil
        simp [closedBy, hnil] at hends
      have hleave := h.leave hopen
      rwa [Grouping.leave, hs] at hleave
    · split
      · next hopens =>
        refine ⟨h.done, ?_, h.entersAll⟩
        change OpenGroup.Prunes ({ opener := t } :: s.groups) s.skipping _
        rw [hs, hgroups]
        exact .entered (l := { opener := t } :: f.groups) (hroom hopens)
      · exact h.add hs (.token t)

/-- The next token where a group is passed over. -/
theorem pushPassed (h : s.Prunes f) (hs : s.skipping ≠ none) (t : Token) :
    (s.push t).Prunes (f.pushFreely (Token.pair f.openers t)) := by
  have hdepth := h.groups.length_eq.2 hs
  obtain ⟨g, outer, hf⟩ := List.exists_cons_of_length_pos (Nat.zero_lt_of_lt hdepth)
  have hopens : g.opener.kind.opensGroup = true := by
    have hgroups := h.groups
    rw [hf] at hgroups
    exact hgroups.opensGroup hs
  cases hcloses : t.kind.closesGroup with
  | true =>
    obtain ⟨kind, hkind⟩ := Option.isSome_iff_exists.1 hopens
    have hpair : Token.pair f.openers t = { t with kind } := by
      have hdeep : maxGroupDepth < f.openers.length := by rwa [openers, List.length_map]
      rw [Token.pair, if_pos ⟨hdeep, hcloses⟩]
      simp [openers, hf, hkind]
    have hclosed : f.closedBy { t with kind } = true := by simp [closedBy, hf, hkind]
    rw [push_eq_leave hs hcloses, hpair, pushFreely, if_pos hclosed]
    have hopen : f.groups ≠ [] := by
      rw [hf]
      exact List.cons_ne_nil g outer
    exact h.leave hopen
  | false =>
    have hpair : Token.pair f.openers t = t := by simp [Token.pair, hcloses]
    have hclosed : f.closedBy t = false := by
      rw [closedBy_eq_endsGroup]
      refine Bool.eq_false_iff.2 fun hends => ?_
      rw [Token.closesGroup_of_endsGroup hends] at hcloses
      cases hcloses
    obtain ⟨⟨opener, n⟩, hskipping⟩ := Option.ne_none_iff_exists'.1 hs
    rw [hpair, pushFreely, hclosed, if_neg Bool.false_ne_true, push_eq_skip hskipping, skip, hcloses,
      if_neg Bool.false_ne_true]
    split
    · next ht =>
      have hgroups := h.groups
      rw [hskipping] at hgroups
      exact ⟨h.done, .deeper ht hgroups, h.entersAll⟩
    · exact h.addDeep hs (.token t)

/-- The next token: the limit leaves of it what it leaves of the token that is paired with the
groups around it. -/
theorem push (h : s.Prunes f) (t : Token) :
    (s.push t).Prunes (f.pushFreely (Token.pair f.openers t)) := by
  cases hs : s.skipping with
  | some skipped => exact h.pushPassed (by rw [hs]; nofun) t
  | none =>
    have hroom : f.openers.length ≤ maxGroupDepth := by
      rw [openers, List.length_map]
      exact (h.entered hs).2
    have hpair : Token.pair f.openers t = t := by
      rw [Token.pair, if_neg fun hdeep => absurd hdeep.1 (Nat.not_lt.2 hroom)]
    rw [hpair]
    exact h.pushEntered hs t

/-- All tokens. -/
theorem foldl_push (h : s.Prunes f) (ts : List Token) :
    (ts.foldl Grouping.push s).Prunes ((Token.pairAll f.openers ts).foldl pushFreely f) := by
  induction ts generalizing s f with
  | nil => exact h
  | cons t ts ih =>
    have hnext := ih (h.push t)
    rw [openers_pushFreely] at hnext
    exact hnext

/-- The end of the tokens. -/
theorem finish (h : s.Prunes f) :
    s.finish.done.map (·.value) = f.finish.done.map fun g => g.value.prune 0 := by
  -- Closing a group changes the one around it, so the induction is on the number of open groups.
  induction hn : f.groups.length generalizing s f with
  | zero =>
    have hf := List.eq_nil_of_length_eq_zero hn
    cases hs : s.skipping with
    | none =>
      have hgroups := (h.entered hs).1
      rw [hf] at hgroups
      rw [finish_of_nil hs hgroups, finish_of_nil h.entersAll hf]
      exact h.done
    | some skipped =>
      have hdeep := h.groups.length_eq.2 (by rw [hs]; nofun)
      rw [hn] at hdeep
      cases hdeep
  | succ n ih =>
    obtain ⟨g, outer, hf⟩ := List.exists_cons_of_length_eq_add_one hn
    have hgroups : (f.recordAll [g.unclosed]).groups = g :: outer := hf
    have hopen : (f.recordAll [g.unclosed]).groups ≠ [] := by
      rw [hgroups]
      exact List.cons_ne_nil g outer
    have hlength : ((f.recordAll [g.unclosed]).closeInnermost).groups.length = n := by
      simp only [closeInnermost, hgroups, length_groups_add]
      rw [hf] at hn
      exact Nat.succ.inj hn
    rw [finish_of_unclosed h.entersAll hf]
    cases hs : s.skipping with
    | none =>
      have hgroups := (h.entered hs).1
      rw [hf, OpenGroup.pruneOpen] at hgroups
      rw [finish_of_unclosed hs hgroups]
      have hleave := (h.recordAll [g.unclosed] [g.unclosed]).leave hopen
      rw [Grouping.leave, skipping_recordAll, hs] at hleave
      exact ih hleave hlength
    | some skipped =>
      have hleave := (h.recordAll [] [g.unclosed]).leave hopen
      rw [← finish_leave (by rw [hs]; nofun)]
      exact ih hleave hlength

/-- Both ways of grouping stay equally deep inside groups exactly if each closing token inside a
group that lies too deep is paired with the group that it leaves. -/
theorem pairAll_eq_iff (h : s.Prunes f) (ts : List Token) :
    Token.pairAll f.openers ts = ts ↔ ∀ before, before <+: ts →
      (before.foldl Grouping.push s).depth = (before.foldl pushFreely f).depth := by
  induction ts generalizing s f with
  | nil =>
    refine ⟨fun _ before hbefore => ?_, fun _ => rfl⟩
    rw [List.prefix_nil.1 hbefore]
    exact h.depth_eq
  | cons t ts ih =>
    have hnext := h.push t
    by_cases hpair : Token.pair f.openers t = t
    · rw [hpair] at hnext
      have hrest := ih hnext
      rw [openers_pushFreely] at hrest
      rw [Token.pairAll, hpair, List.cons_eq_cons, and_iff_right rfl, hrest]
      constructor
      · intro hdepth before hbefore
        rcases List.prefix_cons_iff.1 hbefore with rfl | ⟨rest, rfl, hrest⟩
        · exact h.depth_eq
        · exact hdepth rest hrest
      · intro hdepth before hbefore
        exact hdepth (t :: before) (List.cons_prefix_cons.2 ⟨rfl, hbefore⟩)
    · -- The first token that is not paired leaves a group on the one side only.
      refine ⟨fun heq => absurd (List.cons.inj heq).1 hpair, fun hdepth => ?_⟩
      have hfirst : (s.push t).depth = (f.pushFreely t).depth :=
        hdepth [t] (List.cons_prefix_cons.2 ⟨rfl, List.nil_prefix⟩)
      rw [hnext.depth_eq, depth_of_entersAll hnext.entersAll,
        depth_of_entersAll ((skipping_pushFreely f t).trans h.entersAll), openers_pushFreely,
        openers_pushFreely] at hfirst
      exact absurd hfirst (Token.length_openAfter_pair hpair)

end Prunes
end Grouping

/-! ## Rules -/

/-- A block outside of all groups, with pruned contents. -/
def Block.prune (b : Block) : Block := { b with contents := pruneAll 1 b.contents }

/-- A rule outside of all groups, where a broken string stands for each group that lies too deep. -/
def Rule.prune : Rule → Rule
  | .atRule r =>
    .atRule { r with prelude := pruneAll 0 r.prelude, block := r.block.map Block.prune }
  | .qualified r => .qualified { r with prelude := pruneAll 0 r.prelude, block := r.block.prune }

namespace OpenRule

/-- A started rule with a pruned prelude. -/
def prune : OpenRule → OpenRule
  | .atRule keyword before => .atRule keyword (pruneAll 0 before)
  | .qualified position before => .qualified position (pruneAll 0 before)

/-- What a value does to a started rule, with that rule pruned. -/
def pruneStep : RuleStep → RuleStep
  | .goesOn r => .goesOn r.prune
  | .ends r => .ends r.prune

/-- A started rule that is pruned takes a pruned value as its own part. -/
theorem add_prune (r : OpenRule) (v : ComponentValue) :
    r.prune.add (v.prune 0) = (r.add v).prune := by
  cases r <;> rfl

/-- With its block pruned, it ends as the pruned rule. -/
theorem withBlock_prune (r : OpenRule) (b : Block) :
    r.prune.withBlock b.prune = (r.withBlock b).prune := by
  cases r <;> simp [withBlock, prune, Rule.prune, ComponentValue.pruneAll_reverse]

/-- It ends so without a block, too. -/
theorem withoutBlock?_prune (r : OpenRule) :
    r.prune.withoutBlock? = r.withoutBlock?.map Rule.prune := by
  cases r <;> simp [withoutBlock?, prune, Rule.prune, ComponentValue.pruneAll_reverse]

/-- It starts with a pruned value as it does with the value itself. -/
theorem start_prune (v : ComponentValue) : start (v.prune 0) = (start v).prune := by
  cases v with
  | token t =>
    simp only [start, ComponentValue.prune]
    split <;> rfl
  | block | function => rfl

/-- A started rule takes a pruned value as it takes the value. -/
theorem step_prune (r : OpenRule) (v : ComponentValue) :
    r.prune.step (v.prune 0) = pruneStep (r.step v) := by
  have hadd := add_prune r v
  cases v with
  | token t =>
    simp only [ComponentValue.prune] at hadd ⊢
    simp only [step, withoutBlock?_prune, hadd]
    split
    · cases r.withoutBlock? <;> rfl
    · rfl
  | block opener contents =>
    have hprune : (ComponentValue.block opener contents).prune 0 =
        .block opener (pruneAll 1 contents) := rfl
    rw [hprune] at hadd ⊢
    simp only [step, hadd]
    split
    · exact congrArg RuleStep.ends (withBlock_prune r { opener, contents })
    · rfl
  | function name contents =>
    have hprune : (ComponentValue.function name contents).prune 0 =
        .function name (pruneAll 1 contents) := rfl
    rw [hprune] at hadd ⊢
    simp only [step, hadd, withoutBlock?_prune]
    rfl

end OpenRule

namespace RuleReader

/-- What is known in the middle of a list of rules, with all rules pruned. -/
def prune (s : RuleReader) : RuleReader :=
  { done := s.done.map Rule.prune, current := s.current.map OpenRule.prune }

/-- What was started is pruned with the rest. -/
theorem current_prune (s : RuleReader) : s.prune.current = s.current.map OpenRule.prune := rfl

/-- A reader goes on alike before and after pruning, as it does not look into groups. -/
theorem goOn_prune (s : RuleReader) (r : OpenRule) (v : ComponentValue) :
    s.prune.goOn r.prune (v.prune 0) = (s.goOn r v).prune := by
  unfold goOn
  rw [OpenRule.step_prune]
  cases r.step v <;> rfl

/-- Pruned values are read as pruned rules. -/
theorem push_prune (topLevel : Bool) (s : RuleReader) (v : ComponentValue) :
    s.prune.push topLevel (v.prune 0) = (s.push topLevel v).prune := by
  have hskipped : isSkipped topLevel (v.prune 0) = isSkipped topLevel v := by
    simp [isSkipped, ComponentValue.isWhitespace]
  cases hcurrent : s.current with
  | some r =>
    simp only [push, current_prune, hcurrent, Option.map_some]
    exact goOn_prune s r v
  | none =>
    simp only [push, current_prune, hcurrent, Option.map_none, hskipped,
      ComponentValue.isToken_prune, OpenRule.start_prune]
    split
    · rfl
    · split
      · rfl
      · exact goOn_prune s _ v

/-- **Reading rules and pruning them commute.** A list that is pruned first is read as the pruned
rules. -/
theorem foldl_push_prune (topLevel : Bool) (s : RuleReader) (vs : List ComponentValue) :
    (pruneAll 0 vs).foldl (push topLevel) s.prune = (vs.foldl (push topLevel) s).prune := by
  induction vs generalizing s with
  | nil => rfl
  | cons v vs ih =>
    rw [pruneAll, List.foldl_cons, push_prune, ih]
    rfl

/-- So are the rules at the end. -/
theorem finish_prune (s : RuleReader) : s.prune.finish.1 = s.finish.1.map Rule.prune := by
  cases hcurrent : s.current with
  | none =>
    simp [finish, hcurrent, prune]
  | some r =>
    simp only [finish, current_prune, hcurrent, Option.map_some, OpenRule.withoutBlock?_prune]
    cases r.withoutBlock? <;> simp [prune]

end RuleReader

/-- The rules in pruned values are the pruned rules in the values. -/
theorem Rule.ofValues_prune (topLevel : Bool) (vs : List ComponentValue) :
    (ofValues topLevel (pruneAll 0 vs)).1 = (ofValues topLevel vs).1.map Rule.prune := by
  have hfold := RuleReader.foldl_push_prune topLevel {} vs
  rw [ofValues, ofValues, ← RuleReader.finish_prune, ← hfold]
  rfl

/-! ## What the limit leaves -/

/-- **The limit prunes paired tokens.** The values and the rules that are read of any tokens are
those that are read without the limit, with a broken string in place of each group that lies too
deep, once closing tokens inside such groups are paired with the groups that they leave. And a group
that is passed over ends where it would have ended without the limit, for all tokens up to any
place, exactly if the tokens are paired already. -/
theorem ComponentValue.readAll_prune (topLevel : Bool) (ts : List Token) :
    (readAll ts).1 = pruneAll 0 (readFreely (Token.pairAll [] ts)) ∧
    (Rule.readAll topLevel ts).1 = (Rule.readFreely topLevel (Token.pairAll [] ts)).map Rule.prune ∧
    (Token.pairAll [] ts = ts ↔ ∀ before, before <+: ts →
      (before.foldl Grouping.push {}).depth = (before.foldl Grouping.pushFreely {}).depth) := by
  have hstart : Grouping.Prunes {} {} := ⟨rfl, .entered (l := []) (Nat.zero_le _), rfl⟩
  have hvalues : (readAll ts).1 = pruneAll 0 (readFreely (Token.pairAll [] ts)) := by
    have hdone := congrArg List.reverse (hstart.foldl_push ts).finish
    rw [← List.map_reverse, ← List.map_reverse] at hdone
    rw [pruneAll_eq_map, readFreely, List.map_map]
    exact hdone
  refine ⟨hvalues, ?_, hstart.pairAll_eq_iff ts⟩
  rw [Rule.readFreely, ← Rule.ofValues_prune, ← hvalues]
  rfl

/-- Sixty-four brackets and two parentheses inside them, all of them paired: a broken string stands
for the outer parentheses. -/
theorem ComponentValue.readAll_prune_parens :
    let brackets := List.replicate 64 (Token.of .leftBracket "")
    let ts := brackets ++ List.replicate 2 (Token.of .leftParen "") ++
      List.replicate 2 (Token.of .rightParen "") ++ [Token.of .ident "x"]
    Token.pairAll [] ts = ts ∧ (readAll ts).1 = pruneAll 0 (readFreely ts) ∧
    (Rule.readAll false ts).1 = (Rule.readFreely false ts).map Rule.prune ∧
    (tokensAll (readAll ts).1).length = 64 + 2 + 64 ∧
    ∀ before, before <+: ts →
      (before.foldl Grouping.push {}).depth = (before.foldl Grouping.pushFreely {}).depth := by
  intro brackets ts
  have hpaired : Token.pairAll [] ts = ts := by decide +kernel
  obtain ⟨hvalues, hrules, hdepth⟩ := readAll_prune false ts
  have hdepth := hdepth.1 hpaired
  rw [hpaired] at hvalues hrules
  exact ⟨hpaired, hvalues, hrules, by decide +kernel, hdepth⟩

/-- Sixty-four brackets and, inside them, parentheses with a closing bracket of another kind. The
group in parentheses is left at the bracket, and its closing token leaks into the brackets. -/
theorem ComponentValue.readAll_ne_prune :
    let inside := [Token.of .leftParen "", Token.of .rightBracket "", Token.of .rightParen ""]
    let ts := List.replicate 64 (Token.of .leftBracket "") ++ inside
    (readAll ts).1 ≠ pruneAll 0 (readFreely ts) := by
  intro inside ts heq
  have htokens : tokensAll (readAll ts).1 ≠ tokensAll (pruneAll 0 (readFreely ts)) := by
    decide +kernel
  exact htokens (congrArg tokensAll heq)

end StyleGate
