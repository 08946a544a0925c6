import StyleGate.Proofs.Blocks
import StyleGate.Proofs.Listing
import StyleGate.Proofs.Regrouping
import Mathlib.Data.List.Forall2

/-!
# Rules and declarations that are read again

`ComponentValue.ReadAgain vs ws` says that the values `ws` are what the values `vs` are read as when
they are written, at whatever positions. Both readers go with that relation. `Declaration.Listed` is
the grammar of a list of declarations, as `Rule.Laid` is that of a list of rules: if values are such a
list, so is what they are read as, and its members are read again as their counterparts
(`Declaration.Listed.readAgain`, `Rule.Laid.readAgain`).
-/

namespace StyleGate

namespace ComponentValue

/-! ## Values -/

@[simp] theorem isToken_unplaced (kind : TokenKind) (v : ComponentValue) :
    v.unplaced.isToken kind = v.isToken kind := by
  cases v <;> rfl

@[simp] theorem isWhitespace_unplaced (v : ComponentValue) :
    v.unplaced.isWhitespace = v.isWhitespace :=
  isToken_unplaced .whitespace v

@[simp] theorem isBraces_unplaced (v : ComponentValue) : v.unplaced.isBraces = v.isBraces := by
  cases v <;> rfl

/-- Whether values are whitespace has nothing to do with their positions, so they may be left out
first. -/
theorem unplacedAll_dropWhile (vs : List ComponentValue) :
    unplacedAll (vs.dropWhile isWhitespace) = (unplacedAll vs).dropWhile isWhitespace := by
  rw [unplacedAll_eq_map, unplacedAll_eq_map, List.dropWhile_map]
  simp [Function.comp_def]

/-- Positions are left out in either order. -/
theorem unplacedAll_reverse (vs : List ComponentValue) :
    unplacedAll vs.reverse = (unplacedAll vs).reverse := by
  rw [unplacedAll_eq_map, unplacedAll_eq_map, List.map_reverse]

/-- A value that another one is read as when it is written. -/
def ReadAs (v w : ComponentValue) : Prop := w.unplaced = v.normal

/-- Values that others are read as when they are written. -/
def ReadAgain (vs ws : List ComponentValue) : Prop := unplacedAll ws = normalAll vs

namespace ReadAs

variable {v w : ComponentValue}

/-- What is read is a token of a kind if what was written is. Only a url comes back as something
else. -/
theorem isToken (h : ReadAs v w) {kind : TokenKind} (hkind : kind ≠ .url) :
    w.isToken kind = v.isToken kind := by
  rw [← isToken_unplaced, h, isToken_normal hkind]

/-- Whitespace is read as whitespace, and nothing else is. -/
theorem isWhitespace (h : ReadAs v w) : w.isWhitespace = v.isWhitespace := h.isToken (by decide)

/-- A block in braces is read as one, and nothing else is. -/
theorem isBraces (h : ReadAs v w) : w.isBraces = v.isBraces := by
  rw [← isBraces_unplaced, h, isBraces_normal]

/-- A token of any kind but a url is read as a token of that kind and text. -/
theorem token {t : Token} (h : ReadAs (.token t) w) (hurl : t.kind ≠ .url)
    (hspace : t.kind ≠ .whitespace) :
    ∃ u, w = .token u ∧ u.kind = t.kind ∧ u.value = t.value := by
  have h : w.unplaced = .token (Token.of t.kind t.value) := by
    rw [h, normal]
    cases hk : t.kind <;> simp_all
  cases w with
  | token u =>
    have h : u.unplaced = Token.of t.kind t.value := ComponentValue.token.inj h
    have hkind : u.unplaced.kind = t.kind := by rw [h]; rfl
    have hvalue : u.unplaced.value = t.value := by rw [h]; rfl
    exact ⟨u, rfl, hkind, hvalue⟩
  | block | function => cases h

/-- A block is read as a block. -/
theorem block {opener : Token} {contents : List ComponentValue}
    (h : ReadAs (.block opener contents) w) :
    ∃ opener' contents', w = .block opener' contents' ∧ opener'.kind = opener.kind ∧
      ReadAgain contents contents' := by
  cases w with
  | block opener' contents' =>
    obtain ⟨hopener, hcontents⟩ := ComponentValue.block.inj h
    have hkind : opener'.unplaced.kind = opener.kind := by rw [hopener]; rfl
    exact ⟨opener', contents', rfl, hkind, hcontents⟩
  | token | function => cases h

/-- A function is read as a function. -/
theorem function {name : Token} {contents : List ComponentValue}
    (h : ReadAs (.function name contents) w) :
    ∃ name' contents', w = .function name' contents' ∧ name'.value = name.value ∧
      ReadAgain contents contents' := by
  cases w with
  | function name' contents' =>
    obtain ⟨hname, hcontents⟩ := ComponentValue.function.inj h
    have hvalue : name'.unplaced.value = name.value := by rw [hname]; rfl
    exact ⟨name', contents', rfl, hvalue, hcontents⟩
  | token | block => cases h

/-- A url is read as a function with a string. -/
theorem url {t : Token} (h : ReadAs (.token t) w) (hurl : t.kind = .url) :
    ∃ name u, w = .function name [.token u] ∧ name.value = "url" ∧ u.kind = .string := by
  have h : w.unplaced = .function (Token.of .function "url") [.token (Token.of .string t.value)] := by
    rw [h, normal, hurl]
  cases w with
  | function name contents =>
    obtain ⟨hname, hcontents⟩ := ComponentValue.function.inj h
    rw [unplacedAll_eq_map] at hcontents
    obtain ⟨v, rfl, hv⟩ := List.map_eq_singleton_iff.1 hcontents
    have hvalue : name.unplaced.value = "url" := by rw [hname]; rfl
    cases v with
    | token u =>
      have hkind : u.unplaced.kind = .string := by rw [ComponentValue.token.inj hv]; rfl
      exact ⟨name, u, rfl, hvalue, hkind⟩
    | block | function => cases hv
  | token | block => cases h

end ReadAs

namespace ReadAgain

variable {vs ws : List ComponentValue}

/-- Of nothing, nothing is read. -/
theorem nil : ReadAgain [] ws → ws = [] := by
  intro h
  rw [ReadAgain, unplacedAll_eq_map] at h
  exact List.map_eq_nil_iff.1 h

/-- Values are read again on either side of one that is no whitespace. -/
theorem append_cons {v : ComponentValue} {before after : List ComponentValue}
    (h : ReadAgain (before ++ v :: after) ws) (hv : v.isWhitespace = false) :
    ∃ before' v' after', ws = before' ++ v' :: after' ∧ ReadAgain before before' ∧ ReadAs v v' ∧
      ReadAgain after after' := by
  rw [ReadAgain, unplacedAll_eq_map, normalAll_append_cons hv] at h
  obtain ⟨before', rest, rfl, hbefore, hrest⟩ := List.map_eq_append_iff.1 h
  obtain ⟨v', after', rfl, hv', hafter⟩ := List.map_eq_cons_iff.1 hrest
  exact ⟨before', v', after', rfl, by rwa [ReadAgain, unplacedAll_eq_map], hv',
    by rwa [ReadAgain, unplacedAll_eq_map]⟩

/-- A value at the front that is no whitespace is read as the first one. -/
theorem cons {v : ComponentValue} {after : List ComponentValue} (h : ReadAgain (v :: after) ws)
    (hv : v.isWhitespace = false) :
    ∃ v' after', ws = v' :: after' ∧ ReadAs v v' ∧ ReadAgain after after' := by
  have h : ReadAgain ([] ++ v :: after) ws := h
  obtain ⟨before', v', after', rfl, hbefore, hv', hafter⟩ := h.append_cons hv
  obtain rfl := hbefore.nil
  exact ⟨v', after', rfl, hv', hafter⟩

/-- Each value is whitespace, or one that another value is read as. -/
theorem of_mem (h : ReadAgain vs ws) {w : ComponentValue} (hw : w ∈ ws) :
    w.isWhitespace = true ∨ ∃ v ∈ vs, ReadAs v w := by
  have hmem : w.unplaced ∈ normalAll vs := by
    rw [← h, unplacedAll_eq_map]
    exact List.mem_map_of_mem hw
  rcases mem_normalAll hmem with ⟨value, heq⟩ | ⟨v, hv, heq, -⟩
  · left
    rw [← isWhitespace_unplaced, heq]
    rfl
  · exact .inr ⟨v, hv, heq⟩

/-- Where there is no token of a kind, none is read. -/
theorem isToken_eq_false (h : ReadAgain vs ws) {kind : TokenKind} (hkind : kind ≠ .url)
    (hspace : kind ≠ .whitespace) (hvs : ∀ v ∈ vs, v.isToken kind = false) :
    ∀ w ∈ ws, w.isToken kind = false := by
  intro w hw
  rcases h.of_mem hw with hblank | ⟨v, hv, hread⟩
  · obtain ⟨t, rfl, ht⟩ := isWhitespace_iff.1 hblank
    simpa [isToken, ht] using Ne.symm hspace
  · rw [hread.isToken hkind, hvs v hv]

/-- Where there is no block in braces, none is read. -/
theorem isBraces_eq_false (h : ReadAgain vs ws) (hvs : ∀ v ∈ vs, v.isBraces = false) :
    ∀ w ∈ ws, w.isBraces = false := by
  intro w hw
  rcases h.of_mem hw with hblank | ⟨v, hv, hread⟩
  · cases w with
    | token => rfl
    | block => cases hblank
    | function => rfl
  · rw [hread.isBraces, hvs v hv]

/-- Whitespace at the front may be dropped before or after. -/
theorem dropWhile (h : ReadAgain vs ws) :
    ReadAgain (vs.dropWhile isWhitespace) (ws.dropWhile isWhitespace) := by
  rw [ReadAgain, unplacedAll_dropWhile, h, normalAll_dropWhile]

/-- So may that at the end. -/
theorem dropWhile_reverse (h : ReadAgain vs ws) :
    ReadAgain (vs.reverse.dropWhile isWhitespace).reverse
      (ws.reverse.dropWhile isWhitespace).reverse := by
  rw [ReadAgain, unplacedAll_reverse, unplacedAll_dropWhile, unplacedAll_reverse, h,
    normalAll_dropWhile_reverse]

/-- So may that at both ends. -/
theorem trim (h : ReadAgain vs ws) : ReadAgain (trim vs) (trim ws) :=
  h.dropWhile_reverse.dropWhile

/-- What is nothing but whitespace is read as nothing else. -/
theorem allWhitespace (h : ReadAgain vs ws) : allWhitespace ws = allWhitespace vs := by
  have hsame : ComponentValue.allWhitespace (unplacedAll ws) = ComponentValue.allWhitespace ws := by
    simp [ComponentValue.allWhitespace, unplacedAll_eq_map, Function.comp_def]
  rw [← hsame, h, allWhitespace_normalAll]

/-- Lists of values are read again if their parts are. -/
theorem append_cons_intro {v v' : ComponentValue} {before before' after after' : List ComponentValue}
    (hbefore : ReadAgain before before') (hv : ReadAs v v') (hspace : v.isWhitespace = false)
    (hafter : ReadAgain after after') : ReadAgain (before ++ v :: after) (before' ++ v' :: after') := by
  rw [ReadAgain, unplacedAll_eq_map] at hbefore hafter ⊢
  rw [List.map_append, List.map_cons, hbefore, hv, hafter, normalAll_append_cons hspace]

end ReadAgain

end ComponentValue

/-! ## Rules -/

open ComponentValue (ReadAgain)

/-- A rule that another one is read as when it is written. -/
structure Rule.ReadAs (r s : Rule) : Prop where
  values : ReadAgain r.values s.values
  name : s.name? = r.name?
  prelude : ReadAgain r.prelude s.prelude
  block : ∀ b, r.block? = some b → ∃ c, s.block? = some c ∧ ReadAgain b.contents c.contents
  noBlock : r.block? = none → s.block? = none

namespace Rule

variable {topLevel : Bool}

/-- A rule does not end with whitespace. -/
theorem isWhitespace_ending {r : Rule} {v : ComponentValue} (h : r.EndsWith v) :
    v.isWhitespace = false := by
  unfold EndsWith at h
  split at h
  · rw [h]
    rfl
  · exact ComponentValue.isWhitespace_of_isToken h (by decide)

/-- A rule does not start with whitespace. -/
theorem WellRead.start {r : Rule} (h : r.WellRead topLevel) {v : ComponentValue}
    (hv : r.EndsWith v) (vs : List ComponentValue) :
    ∃ first rest, r.head ++ v :: vs = first :: rest ∧ first.isWhitespace = false := by
  cases r with
  | atRule r =>
    refine ⟨_, _, rfl, ?_⟩
    have hkeyword : r.keyword.kind = .atKeyword := AtRule.WellRead.keyword h
    simp [ComponentValue.isWhitespace, ComponentValue.isToken, hkeyword]
  | qualified r =>
    cases hprelude : r.prelude with
    | nil => exact ⟨v, vs, by simp [head, hprelude], isWhitespace_ending hv⟩
    | cons first prelude =>
      have hfirst := QualifiedRule.WellRead.start h first (by rw [hprelude]; rfl)
      refine ⟨first, prelude ++ v :: vs, by simp [head, hprelude], ?_⟩
      exact (Bool.or_eq_false_iff.1 hfirst.1).1

/-- What is left out between rules is so when it is read again. -/
theorem isSkipped_of_readAs {v w : ComponentValue} (h : ComponentValue.ReadAs v w) :
    RuleReader.isSkipped topLevel w = RuleReader.isSkipped topLevel v := by
  rw [RuleReader.isSkipped, RuleReader.isSkipped, h.isWhitespace, h.isToken (by decide),
    h.isToken (by decide)]

/-- What a value that ends a rule is read as. -/
theorem endsWith_readAs {r : Rule} {v v' : ComponentValue} (hv : r.EndsWith v)
    (h : ComponentValue.ReadAs v v') :
    (r.block? = none ∧ v'.isToken .semicolon = true) ∨
      ∃ b c : Block, r.block? = some b ∧ v = b.value ∧ v' = c.value ∧ c.isBraces = b.isBraces ∧
        ReadAgain b.contents c.contents := by
  unfold EndsWith at hv
  split at hv
  · next b hb =>
    subst hv
    obtain ⟨opener', contents', rfl, hopener, hcontents⟩ := h.block
    refine .inr ⟨b, ⟨opener', contents'⟩, hb, rfl, rfl, ?_, hcontents⟩
    rw [Block.isBraces, hopener, Block.isBraces]
  · next hb => exact .inl ⟨hb, by rw [h.isToken (by decide), hv]⟩

/-- An at-rule is read again as one, with what follows behind it. -/
theorem AtRule.readAgain {r : AtRule} {v : ComponentValue} {vs ws : List ComponentValue}
    (h : r.WellRead) (hv : (atRule r).EndsWith v)
    (hread : ReadAgain ((atRule r).head ++ v :: vs) ws) :
    ∃ (s : Rule) (v' : ComponentValue) (vs' : List ComponentValue), ws = s.head ++ v' :: vs' ∧
      s.WellRead topLevel ∧ s.EndsWith v' ∧ (atRule r).ReadAs s ∧ ReadAgain vs vs' := by
  obtain ⟨head', v', vs', rfl, hhead, hv', hvs⟩ := hread.append_cons (isWhitespace_ending hv)
  have hkeyword : (ComponentValue.token r.keyword).isWhitespace = false := by
    simp [ComponentValue.isWhitespace, ComponentValue.isToken, h.keyword]
  obtain ⟨w, prelude', rfl, hw, hprelude⟩ := ReadAgain.cons hhead hkeyword
  obtain ⟨keyword', rfl, hkind, hvalue⟩ := hw.token (by simp [h.keyword]) (by simp [h.keyword])
  have hparts : ∀ w ∈ prelude', w.isBraces = false ∧ w.isToken .semicolon = false := fun w hw =>
    ⟨hprelude.isBraces_eq_false (fun v hv => (h.prelude v hv).1) w hw,
      hprelude.isToken_eq_false (by decide) (by decide) (fun v hv => (h.prelude v hv).2) w hw⟩
  rcases endsWith_readAs hv hv' with ⟨hblock, hends⟩ | ⟨b, c, hblock, rfl, rfl, hbraces, hcontents⟩
  · have hnone : r.block = none := hblock
    refine ⟨.atRule { keyword := keyword', prelude := prelude' }, v', vs', rfl, ?_, hends, ?_, hvs⟩
    · exact AtRule.WellRead.mk rfl (hkind.trans h.keyword) hparts (by rintro _ ⟨⟩)
    · refine ⟨?_, congrArg some hvalue, hprelude, fun b hb => ?_, fun _ => rfl⟩
      · have hending : (atRule r).ending = .token (Token.of .semicolon "") := by
          simp [ending, hblock]
        rw [values, hending]
        exact hhead.append_cons_intro rfl rfl rfl
      · rw [hblock] at hb
        cases hb
  · have hsome : r.block = some b := hblock
    refine ⟨.atRule { keyword := keyword', prelude := prelude', block := some c }, c.value, vs', rfl,
      ?_, rfl, ?_, hvs⟩
    · refine AtRule.WellRead.mk rfl (hkind.trans h.keyword) hparts ?_
      rintro _ ⟨⟩
      rw [hbraces, h.block b hsome]
    · refine ⟨?_, congrArg some hvalue, hprelude, fun b' hb => ?_, fun hnone => ?_⟩
      · have hending : (atRule r).ending = b.value := by simp [ending, hblock]
        rw [values, hending]
        exact hhead.append_cons_intro hv' rfl rfl
      · rw [hblock] at hb
        cases hb
        exact ⟨c, rfl, hcontents⟩
      · rw [hblock] at hnone
        cases hnone

/-- So is a qualified rule. -/
theorem QualifiedRule.readAgain {r : QualifiedRule} {v : ComponentValue}
    {vs ws : List ComponentValue} (h : r.WellRead topLevel) (hv : (qualified r).EndsWith v)
    (hread : ReadAgain (r.prelude ++ v :: vs) ws) :
    ∃ (s : Rule) (v' : ComponentValue) (vs' : List ComponentValue), ws = s.head ++ v' :: vs' ∧
      s.WellRead topLevel ∧ s.EndsWith v' ∧ (qualified r).ReadAs s ∧ ReadAgain vs vs' := by
  obtain ⟨prelude', v', vs', rfl, hprelude, hv', hvs⟩ := hread.append_cons (isWhitespace_ending hv)
  rcases endsWith_readAs hv hv' with ⟨hblock, -⟩ | ⟨b, c, hblock, rfl, rfl, hbraces, hcontents⟩
  · cases hblock
  · obtain rfl : r.block = b := by simpa [block?] using hblock
    refine ⟨.qualified ⟨[], ComponentValue.positionOf (prelude' ++ [c.value]), prelude', c⟩,
      c.value, vs', rfl, ?_, rfl, ?_, hvs⟩
    · refine QualifiedRule.WellRead.mk rfl (hprelude.isBraces_eq_false h.prelude)
        (hbraces.trans h.block) rfl fun w hw => ?_
      cases hfirst : r.prelude with
      | nil =>
        rw [hfirst] at hprelude
        obtain rfl := hprelude.nil
        cases hw
      | cons first rest =>
        obtain ⟨hskip, hkey⟩ := h.start first (by rw [hfirst]; rfl)
        rw [hfirst] at hprelude
        obtain ⟨first', rest', rfl, hfirst', -⟩ :=
          hprelude.cons (Bool.or_eq_false_iff.1 hskip).1
        cases hw
        exact ⟨by rw [isSkipped_of_readAs hfirst', hskip], by rw [hfirst'.isToken (by decide), hkey]⟩
    · refine ⟨hprelude.append_cons_intro hv' rfl rfl, rfl, hprelude, fun b hb => ?_, by simp [block?]⟩
      cases hb
      exact ⟨c, rfl, hcontents⟩

/-- Whitespace in front of a list of rules is left out. -/
theorem Laid.of_dropWhile {vs : List ComponentValue} {rs : List Rule}
    (h : Laid topLevel (vs.dropWhile ComponentValue.isWhitespace) rs) : Laid topLevel vs rs := by
  induction vs with
  | nil => exact h
  | cons v vs ih =>
    rw [List.dropWhile_cons] at h
    split at h
    · next hv => exact .skip (by simp [RuleReader.isSkipped, hv]) (ih h)
    · exact h

/-- A list of rules is read as such a list, and its rules are read one by one. Whitespace in front of
it may be joined or left out. -/
theorem Laid.readAgain {vs ws : List ComponentValue} {rs : List Rule} (h : Laid topLevel vs rs)
    (hread : ReadAgain (vs.dropWhile ComponentValue.isWhitespace)
      (ws.dropWhile ComponentValue.isWhitespace)) :
    ∃ ss, Laid topLevel ws ss ∧ List.Forall₂ ReadAs rs ss := by
  induction h generalizing ws with
  | nil =>
    refine ⟨[], .of_dropWhile ?_, .nil⟩
    rw [hread.nil]
    exact .nil
  | @skip v vs rs hskip _ ih =>
    cases hv : v.isWhitespace with
    | true =>
      rw [List.dropWhile_cons_of_pos hv] at hread
      exact ih hread
    | false =>
      rw [List.dropWhile_cons_of_neg (by simp [hv])] at hread
      obtain ⟨v', ws', hws, hv', hrest⟩ := hread.cons hv
      obtain ⟨ss, hlaid, hss⟩ := ih hrest.dropWhile
      refine ⟨ss, .of_dropWhile ?_, hss⟩
      rw [hws]
      exact .skip (by rw [isSkipped_of_readAs hv', hskip]) hlaid
  | @rule r v vs rs hr hends _ ih =>
    obtain ⟨first, rest, hvs, hfirst⟩ := WellRead.start hr hends vs
    rw [hvs, List.dropWhile_cons_of_neg (by simp [hfirst]), ← hvs] at hread
    obtain ⟨s, v', ws', hws, hs, hends', hsame, hrest⟩ : ∃ (s : Rule) (v' : ComponentValue)
        (vs' : List ComponentValue), ws.dropWhile ComponentValue.isWhitespace = s.head ++ v' :: vs' ∧
        s.WellRead topLevel ∧ s.EndsWith v' ∧ r.ReadAs s ∧ ReadAgain vs vs' := by
      cases r with
      | atRule r => exact AtRule.readAgain hr hends hread
      | qualified r => exact QualifiedRule.readAgain hr hends hread
    obtain ⟨ss, hlaid, hss⟩ := ih hrest.dropWhile
    refine ⟨s :: ss, .of_dropWhile ?_, .cons hsame hss⟩
    rw [hws]
    exact .rule hs hends' hlaid

end Rule

/-! ## Declarations -/

namespace ComponentValue

/-- Whether a value is the last part of a mark of importance. -/
def isImportant : ComponentValue → Bool
  | token t => t.isNamed .ident "important"
  | _ => false

/-- Whether a value is the first part of a mark of importance. -/
def isBang : ComponentValue → Bool
  | token t => t.kind == .delim && t.value == "!"
  | _ => false

variable {v w : ComponentValue}

/-- The word `important` is read as that word. -/
theorem ReadAs.isImportant (h : ReadAs v w) : w.isImportant = v.isImportant := by
  have hplace : w.isImportant = w.unplaced.isImportant := by cases w <;> rfl
  rw [hplace, h]
  cases v with
  | token t =>
    rw [normal]
    cases hk : t.kind <;> simp [ComponentValue.isImportant, Token.isNamed, Token.of, hk]
    rfl
  | block | function => rfl

/-- The mark in front of it is read as that mark. -/
theorem ReadAs.isBang (h : ReadAs v w) : w.isBang = v.isBang := by
  have hplace : w.isBang = w.unplaced.isBang := by cases w <;> rfl
  rw [hplace, h]
  cases v with
  | token t =>
    rw [normal]
    cases hk : t.kind <;> simp [ComponentValue.isBang, Token.of, hk]
    rfl
  | block | function => rfl

end ComponentValue

namespace Declaration

open ComponentValue (isWhitespace)

/-- Whether a value is important is seen from its last token and from the last one before that is no
whitespace. -/
theorem beforeImportant?_concat (vs : List ComponentValue) (last : ComponentValue) :
    beforeImportant? (vs ++ [last]) =
      match vs.reverse.dropWhile isWhitespace with
      | bang :: before => if last.isImportant && bang.isBang then some before.reverse else none
      | [] => none := by
  rw [beforeImportant?, List.reverse_append, List.reverse_singleton, List.singleton_append]
  cases last with
  | block | function => cases vs.reverse.dropWhile isWhitespace <;> rfl
  | token last =>
    by_cases hlast : (ComponentValue.token last).isImportant = true
    · have hnamed : last.isNamed .ident "important" = true := hlast
      cases hcore : vs.reverse.dropWhile isWhitespace with
      | nil => simp [hnamed, hcore]
      | cons bang before => cases bang <;> simp [hnamed, hlast, hcore, ComponentValue.isBang]
    · have hnamed : last.isNamed .ident "important" = false := Bool.eq_false_iff.2 hlast
      cases vs.reverse.dropWhile isWhitespace <;> simp [hnamed, hlast]

/-- Where a mark of importance is found, it is found again, behind what the value in front of it is
read as. -/
theorem beforeImportant?_readAgain {vs ws : List ComponentValue} (h : ReadAgain vs ws)
    (hlast : ∀ v, vs.getLast? = some v → v.isWhitespace = false) :
    (beforeImportant? vs = none ∧ beforeImportant? ws = none) ∨
      ∃ before before', beforeImportant? vs = some before ∧ beforeImportant? ws = some before' ∧
        ReadAgain before before' := by
  rcases List.eq_nil_or_concat vs with rfl | ⟨init, last, rfl⟩
  · rw [h.nil]
    exact .inl ⟨rfl, rfl⟩
  · rw [List.concat_eq_append] at h hlast ⊢
    obtain ⟨init', last', rest, rfl, hinit, hlast', hrest⟩ :=
      h.append_cons (hlast last (by simp))
    rw [hrest.nil, beforeImportant?_concat, beforeImportant?_concat, hlast'.isImportant]
    have hcore := hinit.dropWhile_reverse
    cases hdrop : init.reverse.dropWhile isWhitespace with
    | nil =>
      rw [hdrop] at hcore
      rw [List.reverse_eq_nil_iff.1 hcore.nil]
      exact .inl ⟨rfl, rfl⟩
    | cons bang before =>
      have hbang : bang.isWhitespace = false :=
        ComponentValue.head?_dropWhile (by rw [hdrop]; rfl)
      rw [hdrop, List.reverse_cons] at hcore
      obtain ⟨before', bang', after', heq, hbefore, hbang', hafter⟩ := hcore.append_cons hbang
      rw [hafter.nil] at heq
      rw [show init'.reverse.dropWhile isWhitespace = bang' :: before'.reverse by
        simpa using congrArg List.reverse heq]
      dsimp only
      rw [hbang'.isBang]
      split
      · exact .inr ⟨_, _, rfl, rfl, by rwa [List.reverse_reverse]⟩
      · exact .inl ⟨rfl, rfl⟩

/-- A declaration that another one is read as when it is written. -/
structure ReadAs (d e : Declaration) : Prop where
  property : e.property = d.property
  value : ReadAgain d.value e.value
  important : e.important = d.important

/-- A declaration is read again as one of the same name, with the same importance. -/
theorem ofValue_readAgain {name name' : Token} {value value' : List ComponentValue}
    (hname : name'.value = name.value) (h : ReadAgain value value') :
    (ofValue name value).ReadAs (ofValue name' value') := by
  rcases beforeImportant?_readAgain h.trim fun v => ComponentValue.getLast?_trim with
    ⟨hnone, hnone'⟩ | ⟨before, before', hsome, hsome', hbefore⟩
  · simp only [ofValue, hnone, hnone']
    exact ⟨hname, h.trim, rfl⟩
  · simp only [ofValue, hsome, hsome']
    exact ⟨hname, hbefore.trim, rfl⟩

/-- What spells a declaration is read as what spells it again. -/
theorem Spells.readAgain {name name' : Token} {parts parts' : List ComponentValue} {d : Declaration}
    (h : Spells name parts d) (hkind : name'.kind = name.kind) (hvalue : name'.value = name.value)
    (hparts : ReadAgain parts parts') : ∃ e, Spells name' parts' e ∧ d.ReadAs e := by
  obtain ⟨hident, hunbroken, hread⟩ := h
  have hdrop := hparts.dropWhile
  rw [ofParts?] at hread
  split at hread
  · next colon value heq =>
    split at hread
    · next hcolon =>
      obtain rfl := Option.some.inj hread
      have hspace : colon.isWhitespace = false :=
        ComponentValue.head?_dropWhile (by rw [heq]; rfl)
      rw [heq] at hdrop
      obtain ⟨colon', value', heq', hcolon', hvalue'⟩ := hdrop.cons hspace
      refine ⟨ofValue name' value', ⟨hkind.trans hident, ?_, ?_⟩, ofValue_readAgain hvalue hvalue'⟩
      · exact hparts.isToken_eq_false (by decide) (by decide) hunbroken
      · rw [ofParts?, heq']
        dsimp only
        rw [hcolon'.isToken (by decide), if_pos hcolon]
    · cases hread
  · cases hread

/-- Whitespace in front of a list of declarations is left out. -/
theorem Listed.of_dropWhile {vs : List ComponentValue} {ds : List Declaration}
    (h : Listed (vs.dropWhile isWhitespace) ds) : Listed vs ds := by
  induction vs with
  | nil => exact h
  | cons v vs ih =>
    rw [List.dropWhile_cons] at h
    split at h
    · next hv => exact .skip (.inl hv) (ih h)
    · exact h

/-- A list of declarations is read as such a list, and its declarations are read one by one. -/
theorem Listed.readAgain {vs ws : List ComponentValue} {ds : List Declaration} (h : Listed vs ds)
    (hread : ReadAgain (vs.dropWhile isWhitespace) (ws.dropWhile isWhitespace)) :
    ∃ es, Listed ws es ∧ List.Forall₂ ReadAs ds es := by
  have hstart {name : Token} (hname : name.kind = .ident) :
      (ComponentValue.token name).isWhitespace = false ∧ name.kind ≠ .url ∧
        name.kind ≠ .whitespace := by
    simp [isWhitespace, ComponentValue.isToken, hname]
  induction h generalizing ws with
  | nil =>
    refine ⟨[], .of_dropWhile ?_, .nil⟩
    rw [hread.nil]
    exact .nil
  | @skip v vs ds hskip _ ih =>
    cases hv : v.isWhitespace with
    | true =>
      rw [List.dropWhile_cons_of_pos hv] at hread
      exact ih hread
    | false =>
      rw [List.dropWhile_cons_of_neg (by simp [hv])] at hread
      obtain ⟨v', ws', hws, hv', hrest⟩ := hread.cons hv
      obtain ⟨es, hlisted, hes⟩ := ih hrest.dropWhile
      refine ⟨es, .of_dropWhile ?_, hes⟩
      rw [hws]
      refine .skip (.inr ?_) hlisted
      rw [hv'.isToken (by decide)]
      exact hskip.resolve_left (by simp [hv])
  | @last name parts d hspells =>
    obtain ⟨hspace, hurl, hblank⟩ := hstart hspells.ident
    rw [List.dropWhile_cons_of_neg (by simp [hspace])] at hread
    obtain ⟨v', parts', hws, hv', hparts⟩ := hread.cons hspace
    obtain ⟨name', rfl, hkind, hvalue⟩ := hv'.token hurl hblank
    obtain ⟨e, he, hsame⟩ := hspells.readAgain hkind hvalue hparts
    refine ⟨[e], .of_dropWhile ?_, .cons hsame .nil⟩
    rw [hws]
    exact .last he
  | @declaration name parts vs v d ds hspells hv _ ih =>
    obtain ⟨hspace, hurl, hblank⟩ := hstart hspells.ident
    have hsemicolon := ComponentValue.isWhitespace_of_isToken hv (by decide)
    rw [List.dropWhile_cons_of_neg (by simp [hspace])] at hread
    obtain ⟨w, ws', hws, hw, hrest⟩ := hread.cons hspace
    obtain ⟨name', rfl, hkind, hvalue⟩ := hw.token hurl hblank
    obtain ⟨parts', v', vs', rfl, hparts, hv', hvs⟩ := hrest.append_cons hsemicolon
    obtain ⟨e, he, hsame⟩ := hspells.readAgain hkind hvalue hparts
    obtain ⟨es, hlisted, hes⟩ := ih hvs.dropWhile
    refine ⟨e :: es, .of_dropWhile ?_, .cons hsame hes⟩
    rw [hws]
    exact .declaration he (by rw [hv'.isToken (by decide), hv]) hlisted

end Declaration

end StyleGate
