import StyleGate.Proofs.Lexing
import StyleGate.Token.Stream

/-!
# Comments that are written

A comment starts with `/*` and ends with the first `*/` behind it. These are just the texts that are
read as one comment whatever follows them (`Lexeme.lexemes_append_iff`). A comment for a later processor
is written from its value, in which every `*/` is replaced (`Token.breaksEnds_iff`). Nothing ends it
early then (`Token.BreaksEnds.holds_no_end`), and what follows it is read as if it stood alone
(`Token.tokenize_comment_append`).

A value may end with a `*` or start with a `/`. Neither is part of an end: the `*` of `/*` is taken in
before an end is looked for, and the character behind the value is a `*`.
-/

namespace StyleGate

/-! ## Where a comment ends -/

namespace Lexeme

/-- What ends a comment. -/
def commentEnd : List Char := ['*', '/']

/-- Whether a text is one comment: an end stands behind its body, and none in it. -/
def IsComment (w : List Char) : Prop :=
  ∃ body, w = '/' :: '*' :: (body ++ commentEnd) ∧ ¬ commentEnd <:+: body

/-- An end of a comment is at the front of a text or in what follows its first character. -/
theorem commentEnd_infix_cons {c : Char} {t : List Char} :
    commentEnd <:+: c :: t ↔ (c = '*' ∧ t.head? = some '/') ∨ commentEnd <:+: t := by
  have hslash : ['/'] <+: t ↔ t.head? = some '/' := by
    cases t with
    | nil => simp
    | cons d t => simpa using eq_comm
  rw [List.infix_cons_iff, commentEnd, List.cons_prefix_cons, hslash, eq_comm]

/-- Where no end is at the front, reading a comment goes on. -/
theorem commentLength_cons {c : Char} {t : List Char} (h : ¬ (c = '*' ∧ t.head? = some '/')) :
    commentLength (c :: t) = 1 + commentLength t := by
  rw [commentLength]
  rintro rest rfl rfl
  exact h ⟨rfl, rfl⟩

/-- No end reaches from a text without one into what starts with a `*`. -/
theorem not_end_append {c : Char} {t : List Char} (h : ¬ commentEnd <:+: c :: t) (more : List Char) :
    ¬ (c = '*' ∧ (t ++ '*' :: more).head? = some '/') := by
  rw [commentEnd_infix_cons, not_or] at h
  cases t with
  | nil => simp
  | cons d t => exact h.1

/-- A comment runs to the first end. -/
theorem commentLength_append {body : List Char} (h : ¬ commentEnd <:+: body) (rest : List Char) :
    commentLength (body ++ (commentEnd ++ rest)) = body.length + 2 := by
  induction body with
  | nil => rfl
  | cons c body ih =>
    have hgoes : ¬ (c = '*' ∧ (body ++ (commentEnd ++ rest)).head? = some '/') := not_end_append h _
    have hbody : ¬ commentEnd <:+: body := fun hend => h (List.infix_cons hend)
    rw [List.cons_append, commentLength_cons hgoes, ih hbody, List.length_cons]
    omega

/-- What a comment takes in: all up to the first end with it, or all there is. -/
theorem commentLength_cases (t : List Char) :
    (∃ body rest, t = body ++ (commentEnd ++ rest) ∧ ¬ commentEnd <:+: body ∧
      commentLength t = body.length + 2) ∨ commentLength t = t.length := by
  induction t with
  | nil => exact .inr rfl
  | cons c t ih =>
    by_cases hend : c = '*' ∧ t.head? = some '/'
    · obtain ⟨rfl, hslash⟩ := hend
      obtain ⟨rest, rfl⟩ := List.head?_eq_some_iff.1 hslash
      exact .inl ⟨[], rest, rfl, by simp [commentEnd], rfl⟩
    · rw [commentLength_cons hend]
      rcases ih with ⟨body, rest, rfl, hbody, hlength⟩ | hlength
      · refine .inl ⟨c :: body, rest, rfl, ?_, by rw [hlength, List.length_cons]; omega⟩
        rw [commentEnd_infix_cons, not_or]
        refine ⟨fun ⟨hstar, hslash⟩ => hend ⟨hstar, ?_⟩, hbody⟩
        rw [List.head?_append, hslash]
        rfl
      · exact .inr (by rw [hlength, List.length_cons, Nat.add_comm])

/-- A comment is read only where one starts. -/
theorem comment_of_read {c : Char} {rest : List Char} {n : Nat} (h : read c rest = (.comment, n)) :
    c = '/' ∧ rest.head? = some '*' ∧ n = 2 + commentLength (rest.drop 1) := by
  have hreads := reads_read c rest
  rw [h] at hreads
  generalize hx : (Lexeme.comment, n) = x at hreads
  cases hreads with
  | comment hstart =>
    cases hx
    exact ⟨hstart.1, hstart.2, rfl⟩
  | hash =>
    rcases hash_eq rest with heq | ⟨-, heq⟩
    all_goals
      rw [heq] at hx
      cases hx
  | atKeyword =>
    rcases atKeyword_eq rest with heq | ⟨-, heq⟩
    all_goals
      rw [heq] at hx
      cases hx
  | numeric =>
    obtain ⟨kind, v, m, -, heq⟩ := exists_numeric (c :: rest)
    rw [heq] at hx
    cases hx
  | identLike =>
    rcases identLike_cases (c :: rest) with
      ⟨more, -, ⟨-, heq⟩ | ⟨v, m, -, heq⟩ | ⟨v, m, heq⟩⟩ | ⟨-, heq⟩
    all_goals
      rw [heq] at hx
      cases hx
  | whitespace | string | punctuation | cdo | cdc | matcher | single => cases hx

/-- A comment in front of any text is read as that comment. -/
theorem lexemes_append_of_isComment {w : List Char} (h : IsComment w) (rest : List Char) :
    lexemes (w ++ rest) = ⟨.comment, w⟩ :: lexemes rest := by
  obtain ⟨body, rfl, hbody⟩ := h
  refine lexemes_append (by simp) fun c more heq => ?_
  rw [List.cons_append, List.cons_append, List.append_assoc] at heq
  cases heq
  have hread : read '/' ('*' :: (body ++ (commentEnd ++ rest))) =
      (.comment, 2 + commentLength (body ++ (commentEnd ++ rest))) := rfl
  rw [hread, commentLength_append hbody]
  simp [commentEnd]
  omega

/-- **What comments are.** A text is read as one comment, whatever follows it, exactly if it starts with
`/*` and the first end behind that is at the end of the text. -/
theorem lexemes_append_iff {w : List Char} :
    (∀ rest, lexemes (w ++ rest) = ⟨.comment, w⟩ :: lexemes rest) ↔ IsComment w := by
  refine ⟨fun h => ?_, lexemes_append_of_isComment⟩
  -- A blank behind the text tells a comment that has ended from one that only the text's end cuts off.
  have hread := h [' ']
  cases w with
  | nil =>
    have hlength := congrArg List.length hread
    simp at hlength
  | cons c w =>
    rw [List.cons_append, lexemes_cons] at hread
    injection hread with hfirst
    injection hfirst with hlexeme hsource
    have hcomment : read c (w ++ [' ']) = (.comment, (read c (w ++ [' '])).2) := Prod.ext hlexeme rfl
    obtain ⟨rfl, hstar, hn⟩ := comment_of_read hcomment
    cases w with
    | nil => cases hstar
    | cons d w =>
      obtain rfl : d = '*' := Option.some.inj hstar
      have hbehind : 2 + commentLength (w ++ [' ']) - 1 = commentLength (w ++ [' ']) + 1 := by omega
      rw [hn, List.cons_append, List.drop_one, List.tail_cons, hbehind, List.take_succ_cons] at hsource
      have htaken := (List.cons.inj (List.cons.inj hsource).2).2
      rcases commentLength_cases (w ++ [' ']) with ⟨body, more, heq, hbody, hlength⟩ | hlength
      · refine ⟨body, ?_, hbody⟩
        have hend : (body ++ commentEnd).length = body.length + 2 := by simp [commentEnd]
        rw [hlength, heq, ← List.append_assoc, List.take_left' hend] at htaken
        rw [htaken]
      · rw [hlength, List.take_length] at htaken
        simp at htaken

end Lexeme

/-! ## What is written for a value -/

namespace Token

open Lexeme

/-- What is written for an end of a comment. -/
def brokenEnd : List Char := ['*', ' ', '/']

/-- Whether the second text is the first one with every end of a comment replaced, the leftmost first,
and nothing else changed: both are put together from the same pieces, in which there is no end. -/
def BreaksEnds (v w : List Char) : Prop :=
  ∃ pieces, (∀ p ∈ pieces, ¬ commentEnd <:+: p) ∧ v = commentEnd.intercalate pieces ∧
    w = brokenEnd.intercalate pieces

/-- A character that starts no end of a comment is written as it is. -/
theorem guardComment_cons {c : Char} {v : List Char} (h : ¬ (c = '*' ∧ v.head? = some '/')) :
    guardComment (c :: v) = c :: guardComment v := by
  rw [guardComment]
  rintro rest rfl rfl
  exact h ⟨rfl, rfl⟩

/-- A value without an end is written as it is. -/
theorem guardComment_eq_self {v : List Char} (h : ¬ commentEnd <:+: v) : guardComment v = v := by
  induction v with
  | nil => rfl
  | cons c v ih =>
    rw [commentEnd_infix_cons, not_or] at h
    rw [guardComment_cons h.1, ih h.2]

/-- The first end is replaced. -/
theorem guardComment_append {p : List Char} (h : ¬ commentEnd <:+: p) (v : List Char) :
    guardComment (p ++ (commentEnd ++ v)) = p ++ (brokenEnd ++ guardComment v) := by
  induction p with
  | nil => rfl
  | cons c p ih =>
    have hgoes : ¬ (c = '*' ∧ (p ++ (commentEnd ++ v)).head? = some '/') := not_end_append h _
    have hp : ¬ commentEnd <:+: p := fun hend => h (List.infix_cons hend)
    rw [List.cons_append, guardComment_cons hgoes, ih hp, List.cons_append]

/-- All ends are replaced, if none of the pieces between them holds one. -/
theorem guardComment_intercalate {pieces : List (List Char)}
    (h : ∀ p ∈ pieces, ¬ commentEnd <:+: p) :
    guardComment (commentEnd.intercalate pieces) = brokenEnd.intercalate pieces := by
  induction pieces with
  | nil => rfl
  | cons p pieces ih =>
    obtain ⟨hp, hpieces⟩ := List.forall_mem_cons.1 h
    cases pieces with
    | nil => rw [List.intercalate_singleton, List.intercalate_singleton, guardComment_eq_self hp]
    | cons q pieces =>
      rw [List.intercalate_cons_cons, List.intercalate_cons_cons, List.append_assoc,
        List.append_assoc, guardComment_append hp, ih hpieces]

/-- A character in front of the first piece comes first. -/
theorem intercalate_cons (sep : List Char) (c : Char) (p : List Char) (pieces : List (List Char)) :
    sep.intercalate ((c :: p) :: pieces) = c :: sep.intercalate (p :: pieces) := by
  cases pieces <;> simp

/-- Every text is put together from pieces without an end. -/
theorem exists_pieces (v : List Char) : ∃ p pieces, (∀ q ∈ p :: pieces, ¬ commentEnd <:+: q) ∧
    v = commentEnd.intercalate (p :: pieces) := by
  fun_induction guardComment v with
  | case1 rest ih =>
    obtain ⟨p, pieces, hpieces, rfl⟩ := ih
    refine ⟨[], p :: pieces, List.forall_mem_cons.2 ⟨by simp [commentEnd], hpieces⟩, ?_⟩
    rw [List.intercalate_cons_cons]
    rfl
  | case2 c rest hgoes ih =>
    obtain ⟨p, pieces, hpieces, rfl⟩ := ih
    obtain ⟨hp, hpieces⟩ := List.forall_mem_cons.1 hpieces
    refine ⟨c :: p, pieces, List.forall_mem_cons.2 ⟨?_, hpieces⟩, (intercalate_cons ..).symm⟩
    rw [commentEnd_infix_cons, not_or]
    -- A star in front of a piece that starts with a slash is the other case.
    refine ⟨fun ⟨hstar, hslash⟩ => ?_, hp⟩
    obtain ⟨p, rfl⟩ := List.head?_eq_some_iff.1 hslash
    exact hgoes _ hstar (intercalate_cons ..)
  | case3 =>
    refine ⟨[], [], by simp [commentEnd], ?_⟩
    rw [List.intercalate_singleton]

/-- **How ends are replaced.** The text that is written for a value is the value with every end of a
comment replaced. -/
theorem breaksEnds_iff {v w : List Char} : BreaksEnds v w ↔ w = guardComment v := by
  constructor
  · rintro ⟨pieces, hpieces, rfl, rfl⟩
    exact (guardComment_intercalate hpieces).symm
  · rintro rfl
    obtain ⟨p, pieces, hpieces, rfl⟩ := exists_pieces v
    exact ⟨p :: pieces, hpieces, rfl, guardComment_intercalate hpieces⟩

/-- No end arises around one that is replaced. -/
theorem not_infix_brokenEnd {p v : List Char} (hp : ¬ commentEnd <:+: p) (hv : ¬ commentEnd <:+: v) :
    ¬ commentEnd <:+: p ++ (brokenEnd ++ v) := by
  induction p with
  | nil => simpa [brokenEnd, commentEnd_infix_cons] using hv
  | cons c p ih =>
    have hgoes : ¬ (c = '*' ∧ (p ++ (brokenEnd ++ v)).head? = some '/') := not_end_append hp _
    rw [List.cons_append, commentEnd_infix_cons, not_or]
    exact ⟨hgoes, ih fun hend => hp (List.infix_cons hend)⟩

/-- Where every end is replaced, there is none. -/
theorem BreaksEnds.holds_no_end {v w : List Char} (h : BreaksEnds v w) : ¬ commentEnd <:+: w := by
  obtain ⟨pieces, hpieces, -, rfl⟩ := h
  induction pieces with
  | nil => simp [commentEnd]
  | cons p pieces ih =>
    obtain ⟨hp, hpieces⟩ := List.forall_mem_cons.1 hpieces
    cases pieces with
    | nil => rwa [List.intercalate_singleton]
    | cons q pieces =>
      rw [List.intercalate_cons_cons, List.append_assoc]
      exact not_infix_brokenEnd hp (ih hpieces)

/-- What is written for a comment is one. -/
theorem isComment_chars {t : Token} (hkind : t.kind = .ppComment) : IsComment t.chars := by
  refine ⟨guardComment t.value.toList, ?_, (breaksEnds_iff.2 rfl).holds_no_end⟩
  simp [chars, hkind, commentEnd]

end Token

/-! ## What follows a comment -/

namespace Stream

variable {s s' : Stream}

/-- Whether two streams have taken the same, up to positions, and are in the same groups. -/
structure Alike (s s' : Stream) : Prop where
  closers : s.closers = s'.closers
  skipped : s.skipped = s'.skipped
  tokens : s.tokens.map Token.unplaced = s'.tokens.map Token.unplaced
  codes : s.errors.map Diagnostic.code = s'.errors.map Diagnostic.code

/-- Alike streams are so after tokens that differ in their positions. -/
theorem Alike.emit (h : s.Alike s') {t u : Token} (ht : t.unplaced = u.unplaced)
    (source : List Char) : (s.emit t source).Alike (s'.emit u source) where
  closers := h.closers
  skipped := h.skipped
  tokens := by rw [Stream.emit, Stream.emit, List.map_cons, List.map_cons, ht, h.tokens]
  codes := h.codes

/-- Inside a group that is passed over, only the kind of a token counts. -/
theorem Alike.skip (h : s.Alike s') (closer : TokenKind) (outer : List TokenKind) (kind : TokenKind)
    (source : List Char) : (s.skip closer outer kind source).Alike (s'.skip closer outer kind source) := by
  unfold Stream.skip
  dsimp only
  split
  · exact ⟨h.closers, rfl, h.tokens, h.codes⟩
  · split
    · exact ⟨h.closers, rfl, h.tokens, h.codes⟩
    · exact ⟨h.closers, h.skipped, h.tokens, h.codes⟩

/-- **One lexeme more keeps streams alike.** Whether it opens a group, closes one or does neither
depends on what they have in common. -/
theorem Alike.take (h : s.Alike s') (kind : TokenKind) (value source : List Char) :
    (s.take kind value source).Alike (s'.take kind value source) := by
  unfold Stream.take
  rw [h.closers]
  dsimp only
  split
  · split
    · refine Alike.emit ?_ ?_ source
      · exact ⟨rfl, rfl, h.tokens, by rw [List.map_cons, List.map_cons, h.codes]⟩
      · rfl
    · have hemit := h.emit (t := ⟨kind, String.ofList value, s.asked, true⟩)
        (u := ⟨kind, String.ofList value, s'.asked, true⟩) rfl source
      exact ⟨rfl, hemit.skipped, hemit.tokens, hemit.codes⟩
  · split
    · have hemit := h.emit (t := ⟨kind, "", s.position, true⟩)
        (u := ⟨kind, "", s'.position, true⟩) rfl source
      exact ⟨rfl, hemit.skipped, hemit.tokens, hemit.codes⟩
    · refine h.emit ?_ source
      rfl

/-- A lexeme does the same to streams that are alike. -/
theorem Alike.push (h : s.Alike s') (x : Sourced) : (s.push x).Alike (s'.push x) := by
  unfold Stream.push
  rw [h.skipped]
  split
  · exact ⟨h.closers, h.skipped, h.tokens, h.codes⟩
  · split
    · exact h.skip ..
    · exact h.take ..

/-- Streams that are alike stay so. -/
theorem Alike.foldl_push (h : s.Alike s') (xs : List Sourced) :
    (xs.foldl Stream.push s).Alike (xs.foldl Stream.push s') :=
  List.foldl_rel h fun x _ _ _ halike => halike.push x

end Stream

/-- Behind a comment, a text is read as where it stands alone, but for positions. -/
theorem alike_of_lexemes {text rest : String} {w : List Char}
    (h : lexemes text.toList = ⟨.comment, w⟩ :: lexemes rest.toList) :
    (tokens text).map Token.unplaced = (tokens rest).map Token.unplaced ∧
      (tokenize text).2.map Diagnostic.code = (tokenize rest).2.map Diagnostic.code := by
  have hpassed : ({} : Stream).push ⟨.comment, w⟩ |>.Alike {} := ⟨rfl, rfl, rfl, rfl⟩
  have hread := hpassed.foldl_push (lexemes rest.toList)
  rw [tokens, tokens, tokenize, tokenize, h, List.foldl_cons]
  simp only [List.map_reverse, hread.tokens, hread.codes, and_self]

namespace Token

open Lexeme

/-- **No value breaks out of its comment.** A comment for a later processor is written as `/*`, its value
with every `*/` replaced, and `*/`. Whatever text follows, just what is written is read as one comment,
and the text that follows is read as where it stands alone: its tokens are the same and the same is
reported, but for positions. -/
theorem tokenize_comment_append {t : Token} (hkind : t.kind = .ppComment) (rest : String) :
    (∃ body, t.chars = "/*".toList ++ body ++ "*/".toList ∧ BreaksEnds t.value.toList body) ∧
      IsComment t.chars ∧
      lexemes (t.text ++ rest).toList = ⟨.comment, t.chars⟩ :: lexemes rest.toList ∧
      (tokens (t.text ++ rest)).map unplaced = (tokens rest).map unplaced ∧
      (tokenize (t.text ++ rest)).2.map Diagnostic.code = (tokenize rest).2.map Diagnostic.code := by
  have hlexemes : lexemes (t.text ++ rest).toList = ⟨.comment, t.chars⟩ :: lexemes rest.toList := by
    rw [text, String.toList_append, String.toList_ofList]
    exact lexemes_append_of_isComment (isComment_chars hkind) rest.toList
  refine ⟨⟨guardComment t.value.toList, ?_, breaksEnds_iff.2 rfl⟩, isComment_chars hkind, hlexemes,
    alike_of_lexemes hlexemes⟩
  rw [chars, hkind]

/-- A value that starts with a slash, ends with a star and holds two ends, in front of a slash. -/
theorem tokenize_comment_append_slash :
    (of .ppComment "/ **//*/*").kind = .ppComment ∧
      (of .ppComment "/ **//*/*").text = "/*/ ** //* /**/" ∧
      lexemes ((of .ppComment "/ **//*/*").text ++ "/b").toList =
        ⟨.comment, "/*/ ** //* /**/".toList⟩ :: lexemes "/b".toList ∧
      (tokens ((of .ppComment "/ **//*/*").text ++ "/b")).map unplaced =
        [of .delim "/", of .ident "b"] := by
  obtain ⟨-, -, hlexemes, htokens, -⟩ :=
    tokenize_comment_append (t := of .ppComment "/ **//*/*") rfl "/b"
  have hchars : (of .ppComment "/ **//*/*").chars = "/*/ ** //* /**/".toList := by decide
  have hrest : (tokens "/b").map unplaced = [of .delim "/", of .ident "b"] := by decide +kernel
  rw [hchars] at hlexemes
  exact ⟨rfl, by decide, hlexemes, htokens.trans hrest⟩

end Token

end StyleGate
