import StyleGate.Proofs.Lines
import StyleGate.Token.Stream

/-!
# Where tokens stand

`places` lists the lexemes of a text that are no comments, each with the text in front of it and the
groups that it lies in, however many they are. What `tokenize` makes of a text is read off its places
(`tokenize_eq`): a place inside at most `maxGroupDepth` groups is a token, and one that opens a group
inside just as many is reported and becomes a broken string.

A token's position is that of its place only if nothing stands between it and the token before, or if it
ends its group (`tokens_positions`). Behind a comment, or behind a group that was passed over, a token is
said to be where that comment or that group's contents start.
-/

namespace StyleGate

/-- The groups that are open behind a token, if those in front of it end with the given kinds, the
innermost first. -/
def TokenKind.nest (groups : List TokenKind) (kind : TokenKind) : List TokenKind :=
  match kind.closer? with
  | some closer => closer :: groups
  | none => if groups.head? = some kind then groups.tail else groups

/-- A lexeme that is no comment, where it stands in a text. -/
structure Place where
  kind : TokenKind
  value : List Char
  source : List Char
  /-- The kinds that end the groups around it, the innermost first. -/
  groups : List TokenKind
  /-- The text up to the end of the token before it. -/
  asked : List Char
  /-- What was passed over since: comments, and what lies in groups that were not entered. -/
  passed : List Sourced
deriving DecidableEq, Repr

namespace Place

/-- The text in front of the place. -/
def before (p : Place) : List Char := p.asked ++ p.passed.flatMap Sourced.source

/-- The line and column of the first character at the place. -/
def start (p : Place) : Position := Position.start.after p.before

/-- Whether the place is a token: there are not too many groups around it. -/
def isToken (p : Place) : Bool := decide (p.groups.length ≤ maxGroupDepth)

/-- Whether a group starts at the place inside as many groups as there may be. -/
def opensTooDeep (p : Place) : Bool :=
  p.kind.opensGroup && decide (p.groups.length = maxGroupDepth)

/-- Whether the innermost group around the place ends there. -/
def endsGroup (p : Place) : Bool := p.groups.head? == some p.kind

/-- The position that the token at the place has. -/
def position (p : Place) : Position :=
  if p.endsGroup then p.start else Position.start.after p.asked

/-- The token at the place. -/
def token (p : Place) : Token :=
  if p.opensTooDeep then Token.tooDeepMarker p.position
  else
    { kind := p.kind
      value := if p.endsGroup then "" else String.ofList p.value
      position := p.position }

/-- What is reported of a group that starts too deep. -/
def report (p : Place) : Diagnostic := ⟨Diagnostic.nestingTooDeep, p.position⟩

@[simp] theorem position_token (p : Place) : p.token.position = p.position := by
  unfold token
  split <;> rfl

end Place

/-- The places of lexemes, inside groups that end with the given kinds, behind the text up to the end of
the last token and what was passed over since. -/
def placesFrom (groups : List TokenKind) (asked : List Char) (passed : List Sourced) :
    List Sourced → List Place
  | [] => []
  | x :: xs =>
    match x.lexeme with
    | .comment => placesFrom groups asked (passed ++ [x]) xs
    | .token kind value =>
      let p : Place := { kind, value, source := x.source, groups, asked, passed }
      p ::
        if p.isToken then placesFrom (kind.nest groups) (p.before ++ x.source) [] xs
        else placesFrom (kind.nest groups) asked (passed ++ [x]) xs

/-- The places of a text, in order. -/
def places (text : String) : List Place := placesFrom [] [] [] (lexemes text.toList)

namespace Stream

/-- Where a stream is in a text: behind a text, inside groups, when the next token was asked for. Of the
groups, all but the innermost ones were entered. -/
structure Follows (s : Stream) (groups : List TokenKind) (before asked : List Char) : Prop where
  reached : s.position = Position.start.after before
  since : s.asked = Position.start.after asked
  inside : groups = s.skipped ++ s.closers
  closing : ∀ kind ∈ groups, kind.closesGroup = true
  depth : s.closers.length ≤ maxGroupDepth
  full : s.skipped ≠ [] → s.closers.length = maxGroupDepth

/-- What a stream takes from a place. -/
structure Takes (s s' : Stream) (p : Place) : Prop where
  follows : s'.Follows (p.kind.nest p.groups) (p.before ++ p.source)
    (if p.isToken then p.before ++ p.source else p.asked)
  tokens : s'.tokens = (if p.isToken then [p.token] else []) ++ s.tokens
  errors : s'.errors = (if p.opensTooDeep then [p.report] else []) ++ s.errors

/-- Behind any token, the open groups are closed by closing tokens. -/
theorem closesGroup_of_mem_nest {groups : List TokenKind} (kind : TokenKind)
    (h : ∀ k ∈ groups, k.closesGroup = true) : ∀ k ∈ kind.nest groups, k.closesGroup = true := by
  unfold TokenKind.nest
  split
  · next closer hcloser =>
    exact List.forall_mem_cons.2 ⟨TokenKind.closesGroup_of_closer? hcloser, h⟩
  · split
    · exact fun k hk => h k (List.mem_of_mem_tail hk)
    · exact h

/-- What ends a group does not open one. -/
theorem closer?_eq_none {kind : TokenKind} (h : kind.closesGroup = true) : kind.closer? = none := by
  simpa [TokenKind.opensGroup] using TokenKind.opensGroup_eq_false_of_closesGroup h

namespace Follows

variable {s : Stream}

/-- A comment is passed. -/
theorem comment {groups : List TokenKind} {before asked source : List Char}
    (h : s.Follows groups before asked)
    (hcut : Position.start.after (before ++ source) = (Position.start.after before).after source) :
    (s.pass source).Follows groups (before ++ source) asked where
  reached := by rw [hcut, ← h.reached]; rfl
  since := h.since
  inside := h.inside
  closing := h.closing
  depth := h.depth
  full := h.full

/-- Outside groups that were not entered, all groups around are entered ones. -/
theorem groups_eq {groups : List TokenKind} {before asked : List Char}
    (h : s.Follows groups before asked) (hskipped : s.skipped = []) : groups = s.closers := by
  rw [h.inside, hskipped, List.nil_append]

section Place

variable {p : Place} (h : s.Follows p.groups p.before p.asked)
  (hcut : Position.start.after (p.before ++ p.source) = (Position.start.after p.before).after p.source)
include h hcut

/-- Inside a group that was not entered, nothing is taken. -/
theorem skip {closer : TokenKind} {outer : List TokenKind} (hskipped : s.skipped = closer :: outer) :
    s.Takes (s.skip closer outer p.kind p.source) p := by
  have hfull := h.full (by rw [hskipped]; nofun)
  have hgroups : p.groups = closer :: (outer ++ s.closers) := by
    rw [h.inside, hskipped, List.cons_append]
  have hdeep : maxGroupDepth < p.groups.length := by
    rw [hgroups, List.length_cons, List.length_append]
    omega
  have htoken : p.isToken = false := decide_eq_false (Nat.not_le.2 hdeep)
  have hopens : p.opensTooDeep = false := by simp [Place.opensTooDeep, Nat.ne_of_gt hdeep]
  have hnest : p.kind.nest p.groups = (s.skip closer outer p.kind p.source).skipped ++ s.closers := by
    rw [hgroups, Stream.skip, TokenKind.nest]
    by_cases hkind : p.kind = closer
    · have hnone := closer?_eq_none (h.closing closer (by rw [hgroups]; exact .head _))
      simp [hkind, hnone]
    · cases hinner : p.kind.closer? with
      | none => simp [hkind, Ne.symm hkind, pass, hskipped]
      | some inner => simp [hkind]
  have hrest : (s.skip closer outer p.kind p.source).position = s.position.after p.source ∧
      (s.skip closer outer p.kind p.source).asked = s.asked ∧
      (s.skip closer outer p.kind p.source).closers = s.closers ∧
      (s.skip closer outer p.kind p.source).tokens = s.tokens ∧
      (s.skip closer outer p.kind p.source).errors = s.errors := by
    unfold Stream.skip
    dsimp only
    split
    · exact ⟨rfl, rfl, rfl, rfl, rfl⟩
    · split <;> exact ⟨rfl, rfl, rfl, rfl, rfl⟩
  obtain ⟨hposition, hasked, hclosers, htokens, herrors⟩ := hrest
  refine ⟨⟨?_, ?_, ?_, closesGroup_of_mem_nest p.kind h.closing, ?_, ?_⟩, ?_, ?_⟩
  · rw [hposition, h.reached, hcut]
  · rw [htoken, hasked]
    exact h.since
  · rw [hclosers, hnest]
  · rw [hclosers]
    exact h.depth
  · rw [hclosers]
    exact fun _ => hfull
  · rw [htoken, htokens]
    rfl
  · rw [hopens, herrors]
    rfl

/-- What is taken outside such groups, whatever it does to the groups. -/
theorem taken {s' : Stream} (hskipped : s.skipped = [])
    (hposition : s'.position = s.position.after p.source) (hasked : s'.asked = s'.position)
    (hinside : p.kind.nest p.groups = s'.skipped ++ s'.closers)
    (hdepth : s'.closers.length ≤ maxGroupDepth)
    (hfull : s'.skipped ≠ [] → s'.closers.length = maxGroupDepth)
    (htokens : s'.tokens = p.token :: s.tokens)
    (herrors : s'.errors = (if p.opensTooDeep then [p.report] else []) ++ s.errors) :
    s.Takes s' p := by
  have htoken : p.isToken = true := decide_eq_true (h.groups_eq hskipped ▸ h.depth)
  have hreached : s'.position = Position.start.after (p.before ++ p.source) := by
    rw [hposition, hcut, h.reached]
  refine ⟨⟨hreached, ?_, hinside, closesGroup_of_mem_nest p.kind h.closing, hdepth, hfull⟩, ?_,
    herrors⟩
  · rw [hasked, htoken]
    exact hreached
  · rw [htokens, htoken]
    rfl

/-- Outside such groups, a group is entered or reported. -/
theorem take_opening (hskipped : s.skipped = []) {closer : TokenKind}
    (hcloser : p.kind.closer? = some closer) : s.Takes (s.take p.kind p.value p.source) p := by
  have hdepth := h.depth
  have hgroups := h.groups_eq hskipped
  have hopens : p.kind.opensGroup = true := by rw [TokenKind.opensGroup, hcloser]; rfl
  have hends : p.endsGroup = false := by
    refine beq_eq_false_iff_ne.2 fun hhead => ?_
    rw [closer?_eq_none (h.closing p.kind (List.mem_of_head? hhead))] at hcloser
    cases hcloser
  have hposition : p.position = s.asked := by rw [Place.position, hends, h.since]; rfl
  have hnest : p.kind.nest p.groups = closer :: s.closers := by rw [TokenKind.nest, hcloser, hgroups]
  by_cases hfull : s.closers.length = maxGroupDepth
  · have htake : s.take p.kind p.value p.source = { s with
        position := s.position.after p.source, asked := s.position.after p.source
        skipped := [closer]
        tokens := Token.tooDeepMarker s.asked :: s.tokens
        errors := ⟨Diagnostic.nestingTooDeep, s.asked⟩ :: s.errors } := by
      simp [Stream.take, hcloser, hfull, emit]
    have hdeep : p.opensTooDeep = true := by simp [Place.opensTooDeep, hopens, hgroups, hfull]
    rw [htake]
    refine h.taken hcut hskipped rfl rfl hnest hdepth (fun _ => hfull) ?_ ?_
    · rw [Place.token, hdeep, hposition]
      rfl
    · rw [hdeep, Place.report, hposition]
      rfl
  · have hless := Nat.lt_of_le_of_ne hdepth hfull
    have htake : s.take p.kind p.value p.source = { s with
        position := s.position.after p.source, asked := s.position.after p.source
        closers := closer :: s.closers
        tokens := ⟨p.kind, String.ofList p.value, s.asked, true⟩ :: s.tokens } := by
      simp [Stream.take, hcloser, hless, emit]
    have hdeep : p.opensTooDeep = false := by simp [Place.opensTooDeep, hgroups, hfull]
    rw [htake]
    refine h.taken hcut hskipped rfl rfl ?_ hless (fun hne => absurd hskipped hne) ?_ ?_
    · rw [hskipped]
      exact hnest
    · rw [Place.token, hdeep, hends, hposition]
      rfl
    · rw [hdeep]
      rfl

/-- Outside such groups, what opens no group ends the innermost one or none. -/
theorem take_other (hskipped : s.skipped = []) (hcloser : p.kind.closer? = none) :
    s.Takes (s.take p.kind p.value p.source) p := by
  have hdepth := h.depth
  have hgroups := h.groups_eq hskipped
  have hopens : p.kind.opensGroup = false := by rw [TokenKind.opensGroup, hcloser]; rfl
  have hdeep : p.opensTooDeep = false := by rw [Place.opensTooDeep, hopens, Bool.false_and]
  by_cases hhead : s.closers.head? = some p.kind
  · have htake : s.take p.kind p.value p.source = { s with
        position := s.position.after p.source, asked := s.position.after p.source
        closers := s.closers.tail
        tokens := ⟨p.kind, "", s.position, true⟩ :: s.tokens } := by
      simp [Stream.take, hcloser, hhead, emit]
    have hends : p.endsGroup = true := by rw [Place.endsGroup, hgroups, hhead, beq_self_eq_true]
    -- a closing token stands behind what was passed over, any other one at the place that was asked for
    have hposition : p.position = s.position := by
      rw [Place.position, if_pos hends, Place.start, h.reached]
    have hless : s.closers.tail.length ≤ maxGroupDepth := by
      rw [List.length_tail]
      omega
    rw [htake]
    refine h.taken hcut hskipped rfl rfl ?_ hless (fun hne => absurd hskipped hne) ?_ ?_
    · simp [TokenKind.nest, hcloser, hgroups, hhead, hskipped]
    · rw [Place.token, hdeep, hends, hposition]
      rfl
    · rw [hdeep]
      rfl
  · have htake : s.take p.kind p.value p.source = { s with
        position := s.position.after p.source, asked := s.position.after p.source
        tokens := ⟨p.kind, String.ofList p.value, s.asked, true⟩ :: s.tokens } := by
      simp [Stream.take, hcloser, hhead, emit]
    have hends : p.endsGroup = false := by
      rw [Place.endsGroup, hgroups]
      exact beq_eq_false_iff_ne.2 hhead
    have hposition : p.position = s.asked := by rw [Place.position, hends, h.since]; rfl
    rw [htake]
    refine h.taken hcut hskipped rfl rfl ?_ hdepth (fun hne => absurd hskipped hne) ?_ ?_
    · simp [TokenKind.nest, hcloser, hgroups, hhead, hskipped]
    · rw [Place.token, hdeep, hends, hposition]
      rfl
    · rw [hdeep]
      rfl

/-- One more place. -/
theorem push : s.Takes (s.push ⟨.token p.kind p.value, p.source⟩) p := by
  cases hskipped : s.skipped with
  | cons closer outer =>
    have hpush : s.push ⟨.token p.kind p.value, p.source⟩ = s.skip closer outer p.kind p.source := by
      simp only [Stream.push, hskipped]
    rw [hpush]
    exact h.skip hcut hskipped
  | nil =>
    have hpush : s.push ⟨.token p.kind p.value, p.source⟩ = s.take p.kind p.value p.source := by
      simp only [Stream.push, hskipped]
    rw [hpush]
    cases hcloser : p.kind.closer? with
    | some closer => exact h.take_opening hcut hskipped hcloser
    | none => exact h.take_other hcut hskipped hcloser

end Place

/-- What a stream takes from the lexemes that are left of a text. -/
theorem foldl_push {groups : List TokenKind} {text : List Char} {done passed xs : List Sourced}
    (hlexemes : lexemes text = done ++ passed ++ xs)
    (h : s.Follows groups (done.flatMap Sourced.source ++ passed.flatMap Sourced.source)
      (done.flatMap Sourced.source)) :
    (xs.foldl Stream.push s).tokens.reverse = s.tokens.reverse ++
        ((placesFrom groups (done.flatMap Sourced.source) passed xs).filter Place.isToken).map
          Place.token ∧
      (xs.foldl Stream.push s).errors.reverse = s.errors.reverse ++
        ((placesFrom groups (done.flatMap Sourced.source) passed xs).filter
          Place.opensTooDeep).map Place.report := by
  -- what was passed over grows until a token is taken, and is then a part of what was done
  induction xs generalizing s groups done passed with
  | nil => simp [placesFrom]
  | cons x xs ih =>
    have hsplit : lexemes text = done ++ passed ++ ([x] ++ xs) := hlexemes
    have hcut := Position.after_flatMap_source hsplit .start
    rw [List.flatMap_append, List.flatMap_singleton] at hcut
    have hpassed : lexemes text = done ++ (passed ++ [x]) ++ xs := by simp [hlexemes]
    have hlater : done.flatMap Sourced.source ++ (passed ++ [x]).flatMap Sourced.source =
        done.flatMap Sourced.source ++ passed.flatMap Sourced.source ++ x.source := by simp
    rw [List.foldl_cons]
    obtain ⟨lexeme, source⟩ := x
    cases lexeme with
    | comment => exact ih hpassed (by rw [hlater]; exact h.comment hcut)
    | token kind value =>
      let x : Sourced := ⟨.token kind value, source⟩
      let p : Place := ⟨kind, value, source, groups, done.flatMap Sourced.source, passed⟩
      obtain ⟨hfollows, htokens, herrors⟩ := push (p := p) h hcut
      obtain ⟨rest, hplaces, hlast, hreported⟩ : ∃ rest,
          placesFrom groups (done.flatMap Sourced.source) passed (x :: xs) = p :: rest ∧
          (xs.foldl Stream.push (s.push x)).tokens.reverse =
            (s.push x).tokens.reverse ++ (rest.filter Place.isToken).map Place.token ∧
          (xs.foldl Stream.push (s.push x)).errors.reverse =
            (s.push x).errors.reverse ++ (rest.filter Place.opensTooDeep).map Place.report := by
        refine ⟨_, rfl, ?_⟩
        split
        · next htoken =>
          rw [if_pos htoken] at hfollows
          have hnext : (done ++ passed ++ [x]).flatMap Sourced.source = p.before ++ source := by
            simp [x, p, Place.before]
          rw [← hnext] at hfollows ⊢
          have hasked : lexemes text = done ++ passed ++ [x] ++ [] ++ xs := by simpa using hlexemes
          exact ih hasked (by simpa using hfollows)
        · next htoken =>
          rw [if_neg htoken] at hfollows
          exact ih hpassed (by rw [hlater]; exact hfollows)
      rw [hplaces, hlast, hreported, htokens, herrors, List.filter_cons, List.filter_cons]
      constructor
      · split <;> simp
      · split <;> simp

end Follows

end Stream

/-- **What is read off the places of a text.** The tokens of a text stand at those places that lie in at
most `maxGroupDepth` groups, and the places that open a group inside just as many are reported. -/
theorem tokenize_eq (text : String) :
    tokenize text = (((places text).filter Place.isToken).map Place.token,
      ((places text).filter Place.opensTooDeep).map Place.report) := by
  have hstart : Stream.Follows {} [] [] [] := ⟨rfl, rfl, rfl, by simp, by decide, by simp⟩
  have hlexemes : lexemes text.toList = [] ++ [] ++ lexemes text.toList := rfl
  obtain ⟨htokens, herrors⟩ := hstart.foldl_push hlexemes
  exact Prod.ext htokens herrors

/-! ## Positions of tokens -/

/-- Where a place stands among the lexemes of a text: behind those up to the token before it, and behind
what was passed over. -/
def Place.StandsIn (text : List Char) (p : Place) : Prop :=
  ∃ done rest, lexemes text = done ++ (p.passed ++ ⟨.token p.kind p.value, p.source⟩ :: rest) ∧
    p.asked = done.flatMap Sourced.source

/-- The places behind some lexemes of a text lie in that text. -/
theorem standsIn_of_mem_placesFrom {text : List Char} {groups : List TokenKind}
    {done passed xs : List Sourced} (hlexemes : lexemes text = done ++ passed ++ xs) {p : Place}
    (hp : p ∈ placesFrom groups (done.flatMap Sourced.source) passed xs) : p.StandsIn text := by
  induction xs generalizing groups done passed with
  | nil => cases hp
  | cons x xs ih =>
    have hpassed : lexemes text = done ++ (passed ++ [x]) ++ xs := by simp [hlexemes]
    obtain ⟨lexeme, source⟩ := x
    cases lexeme with
    | comment => exact ih hpassed hp
    | token kind value =>
      rcases List.mem_cons.1 hp with rfl | hp
      · exact ⟨done, xs, by rw [hlexemes, List.append_assoc], rfl⟩
      · split at hp
        · let x : Sourced := ⟨.token kind value, source⟩
          have hnext : (done ++ passed ++ [x]).flatMap Sourced.source =
              done.flatMap Sourced.source ++ passed.flatMap Sourced.source ++ source := by simp [x]
          rw [Place.before, ← hnext] at hp
          have hasked : lexemes text = done ++ passed ++ [x] ++ [] ++ xs := by simpa using hlexemes
          exact ih hasked hp
        · exact ih hpassed hp

/-- So do all places of a text. -/
theorem standsIn_of_mem_places {text : String} {p : Place} (hp : p ∈ places text) :
    p.StandsIn text.toList := by
  have hlexemes : lexemes text.toList = [] ++ [] ++ lexemes text.toList := rfl
  exact standsIn_of_mem_placesFrom hlexemes hp

namespace Place

variable {text : List Char} {p : Place}

/-- The text of a place stands behind the text in front of it. -/
theorem StandsIn.text_eq (h : p.StandsIn text) : ∃ rest, text = p.before ++ (p.source ++ rest) := by
  obtain ⟨done, rest, hlexemes, hasked⟩ := h
  refine ⟨rest.flatMap Sourced.source, ?_⟩
  rw [← flatMap_source_lexemes text, hlexemes, before, hasked]
  simp

/-- A lexeme takes something in. -/
theorem source_ne_nil_of_mem_lexemes {x : Sourced} (hx : x ∈ lexemes text) : x.source ≠ [] := by
  induction text using Lexeme.lexemes_induction with
  | nil =>
    rw [Lexeme.lexemes_nil] at hx
    cases hx
  | cons c rest ih =>
    rw [Lexeme.lexemes_cons] at hx
    rcases List.mem_cons.1 hx with rfl | hx
    · exact List.cons_ne_nil c _
    · exact ih hx

/-- Where something was passed over, what is asked for is further on. -/
theorem StandsIn.position_eq_start_iff (h : p.StandsIn text) :
    p.position = p.start ↔ p.endsGroup = true ∨ p.passed = [] := by
  obtain ⟨done, rest, hlexemes, hasked⟩ := h
  by_cases hends : p.endsGroup = true
  · rw [position, if_pos hends]
    simp [hends]
  · have hstart : p.start = (Position.start.after p.asked).after (p.passed.flatMap Sourced.source) := by
      rw [start, before, hasked, Position.after_flatMap_source hlexemes]
    rw [position, if_neg hends, hstart, or_iff_right hends]
    constructor
    · intro heq
      cases hpassed : p.passed with
      | nil => rfl
      | cons x passed =>
        have hmem : x ∈ lexemes text := by
          rw [hlexemes, hpassed]
          simp
        have hsource := source_ne_nil_of_mem_lexemes hmem
        have htext : p.passed.flatMap Sourced.source ≠ [] := by
          rw [hpassed, List.flatMap_cons]
          exact List.append_ne_nil_of_left_ne_nil hsource _
        exact absurd heq (Position.precedes_after _ htext).ne
    · intro hpassed
      rw [hpassed, List.flatMap_nil, Position.after_nil]

end Place

/-- **Positions of tokens.** The tokens of a text stand at its places, in order. A token has the line and
column of its first character exactly if it ends its group or nothing was passed over in front of it:
no comment, and no group that lies too deep. Else it has the line and column where that starts. -/
theorem tokens_positions (text : String) :
    tokens text = ((places text).filter Place.isToken).map Place.token ∧
      ∀ p ∈ places text,
        (∃ rest, text.toList = p.before ++ (p.source ++ rest)) ∧
        (p.token.position = p.start ↔ p.endsGroup = true ∨ p.passed = []) ∧
        (p.endsGroup = false → p.token.position = Position.start.after p.asked) := by
  refine ⟨by rw [tokens, tokenize_eq], fun p hp => ?_⟩
  have hstands := standsIn_of_mem_places hp
  rw [Place.position_token]
  refine ⟨hstands.text_eq, hstands.position_eq_start_iff, fun hends => ?_⟩
  rw [Place.position, hends]
  rfl

/-- Behind a comment, a token is said to be where the comment starts. -/
theorem tokens_positions_comment :
    tokens "/* x */a" = [{ kind := .ident, value := "a", position := ⟨1, 1⟩ }] ∧
      "/* x */a".toList = "/* x */".toList ++ ['a'] ∧
      Position.start.after "/* x */".toList = ⟨1, 8⟩ := by
  decide +kernel

end StyleGate
