import StyleGate.Proofs.Separation

/-!
# Line ends stay whole

A position depends on the text in front of it alone (`Position.after`), and a text may be cut anywhere
but between the two characters of a line end (`Position.after_append`). Lexemes are never cut there
(`Lexeme.keepsLineEnds_read`): whatever takes a carriage return in takes in a line feed behind it too. So
positions can be counted from lexeme to lexeme (`after_flatMap_source`).

Reading on moves a position forward (`Position.precedes_after`): different places of a text have
different positions.
-/

namespace StyleGate

open Text

/-! ## Positions -/

namespace Position

/-- Where a text ends that is cut in two, but not inside a line end. -/
theorem after_append (p : Position) {s t : List Char}
    (h : s.getLast? = some '\r' → t.head? ≠ some '\n') : p.after (s ++ t) = (p.after s).after t := by
  fun_induction Position.after p s with
  | case1 p => rfl
  | case2 p rest ih =>
    refine ih fun hlast => h ?_
    cases rest with
    | nil => cases hlast
    | cons d rest => simpa using hlast
  | case3 p c rest hline ih =>
    cases rest with
    | nil =>
      have hstep : p.after (c :: t) =
          (if isNewline c then p.nextLine else p.right (utf16Units c)).after t := by
        rw [Position.after]
        rintro more rfl rfl
        exact h rfl rfl
      exact hstep
    | cons d rest =>
      rw [List.cons_append, Position.after]
      · exact ih fun hlast => h (by simpa using hlast)
      · rintro more hc ht
        exact hline rest hc (by rw [(List.cons.inj ht).1])

/-- One position is in front of another: on a line before, or further left on the same line. -/
def Precedes (p q : Position) : Prop := p.line < q.line ∨ p.line = q.line ∧ p.column < q.column

/-- What is in front of a position is in front of all behind it. -/
theorem Precedes.trans {p q r : Position} (h : p.Precedes q) (h' : q.Precedes r) : p.Precedes r := by
  unfold Precedes at *
  omega

/-- No position is in front of itself. -/
theorem Precedes.ne {p q : Position} (h : p.Precedes q) : p ≠ q := by
  rintro rfl
  unfold Precedes at h
  omega

/-- A position is in front of the next line. -/
theorem precedes_nextLine (p : Position) : p.Precedes p.nextLine := .inl (Int.lt_succ p.line)

/-- It is in front of the one that is a character further right. -/
theorem precedes_right (p : Position) (c : Char) : p.Precedes (p.right (utf16Units c)) := by
  refine .inr ⟨rfl, ?_⟩
  have hunits : 0 < utf16Units c := by
    unfold utf16Units
    split <;> decide
  dsimp only [right]
  omega

/-- A text ends behind its start. -/
theorem precedes_after (p : Position) {s : List Char} (h : s ≠ []) : p.Precedes (p.after s) := by
  fun_induction Position.after p s with
  | case1 p => exact absurd rfl h
  | case2 p rest ih =>
    by_cases hrest : rest = []
    · rw [hrest]
      exact p.precedes_nextLine
    · exact p.precedes_nextLine.trans (ih hrest)
  | case3 p c rest _ ih =>
    have hstep : p.Precedes (if isNewline c then p.nextLine else p.right (utf16Units c)) := by
      split
      · exact p.precedes_nextLine
      · exact p.precedes_right c
    by_cases hrest : rest = []
    · rw [hrest]
      exact hstep
    · exact hstep.trans (ih hrest)

end Position

/-! ## Cuts -/

/-- No line end is cut in two if a text is cut behind its first `n` characters. -/
def KeepsLineEnds (text : List Char) (n : Nat) : Prop :=
  (text.take n).getLast? = some '\r' → (text.drop n).head? ≠ some '\n'

namespace KeepsLineEnds

variable {c : Char} {rest text : List Char} {k n : Nat}

/-- A cut at the front. -/
theorem zero (text : List Char) : KeepsLineEnds text 0 := nofun

/-- A cut at the end. -/
theorem of_length_le (h : text.length ≤ n) : KeepsLineEnds text n := by
  intro _ hhead
  rw [List.drop_of_length_le h] at hhead
  cases hhead

/-- A second cut behind the first. -/
theorem add (h : KeepsLineEnds text k) (h' : KeepsLineEnds (text.drop k) n) :
    KeepsLineEnds text (k + n) := by
  intro hlast
  rw [List.take_add, List.getLast?_append] at hlast
  rw [← List.drop_drop]
  cases hmore : ((text.drop k).take n).getLast? with
  | some d =>
    rw [hmore, Option.some_or] at hlast
    exact h' (hmore.trans hlast)
  | none =>
    rw [hmore, Option.none_or] at hlast
    rcases List.take_eq_nil_iff.1 (List.getLast?_eq_none_iff.1 hmore) with rfl | hnil
    · exact h hlast
    · rw [hnil, List.drop_nil]
      nofun

/-- A cut behind one more character that does not start a line end. -/
theorem cons (hc : c ≠ '\r') (h : KeepsLineEnds rest n) : KeepsLineEnds (c :: rest) (1 + n) :=
  add (fun hlast => absurd (Option.some.inj hlast) hc) h

/-- A cut behind one character that is not the first half of a line end. -/
theorem one (h : ∀ more, c = '\r' → rest = '\n' :: more → False) : KeepsLineEnds (c :: rest) 1 := by
  intro hlast hhead
  obtain ⟨more, hmore⟩ := List.head?_eq_some_iff.1 hhead
  exact h more (Option.some.inj hlast) hmore

/-- A cut behind one character that is no carriage return. -/
theorem one_of_ne (hc : c ≠ '\r') : KeepsLineEnds (c :: rest) 1 := cons hc (zero rest)

/-- A cut behind a run of characters of a class, if the class has no half of a line end. -/
theorem takeWhile {p : Char → Bool} (hp : p '\r' = true → p '\n' = true) (text : List Char) :
    KeepsLineEnds text (text.takeWhile p).length := by
  have hcut : KeepsLineEnds (text.takeWhile p ++ text.dropWhile p) (text.takeWhile p).length := by
    intro hlast hhead
    rw [List.take_left] at hlast
    rw [List.drop_left] at hhead
    have hreturn := List.all_eq_true.1 List.all_takeWhile _ (List.mem_of_getLast? hlast)
    have hfeed := List.head?_dropWhile_not p text
    rw [hhead] at hfeed
    exact absurd (hp hreturn) (Bool.eq_false_iff.1 hfeed)
  rwa [List.takeWhile_append_dropWhile] at hcut

end KeepsLineEnds

/-! ## Lexemes -/

namespace Lexeme

/-- A hexadecimal digit is no carriage return. -/
theorem ne_return_of_hexValue? {c : Char} {d : Nat} (h : hexValue? c = some d) : c ≠ '\r' := by
  rintro rfl
  cases h

/-- The digits of an escape hold no line end. -/
theorem keepsLineEnds_hexDigits (limit sofar : Nat) (t : List Char) :
    KeepsLineEnds t (hexDigits limit sofar t).2 := by
  fun_induction hexDigits limit sofar t with
  | case1 sofar limit c rest d hvalue value taken hdigits ih =>
    rw [hdigits] at ih
    rw [Nat.add_comm]
    exact ih.cons (ne_return_of_hexValue? hvalue)
  | case2 | case3 => exact .zero _

/-- The line end behind those digits is taken as a whole. -/
theorem keepsLineEnds_escapeEnd (t : List Char) : KeepsLineEnds t (escapeEnd t) := by
  unfold escapeEnd
  split
  · nofun
  · next hline =>
    split
    · exact .one hline
    · exact .zero _
  · exact .zero _

/-- An escape that does not start with a line end keeps line ends. -/
theorem keepsLineEnds_escaped {t : List Char} (h : startsNewline t = false) :
    KeepsLineEnds t (escaped t).2 := by
  unfold escaped
  split
  · exact .zero _
  · next c rest =>
    have hc : c ≠ '\r' := by
      rintro rfl
      cases h
    split
    · next d _ =>
      dsimp only
      rw [Nat.add_assoc]
      exact ((keepsLineEnds_hexDigits 5 d rest).add (keepsLineEnds_escapeEnd _)).cons hc
    · split <;> exact .one_of_ne hc

/-- A name holds no line end but those that its escapes take up, and these are taken as a whole. -/
theorem keepsLineEnds_name (t : List Char) : KeepsLineEnds t (name t).2 := by
  fun_induction name t with
  | case1 | case2 | case6 => exact .zero _
  | case3 c rest hback hline e n hescaped value taken hname ih =>
    have hcut := keepsLineEnds_escaped (Bool.eq_false_iff.2 hline)
    rw [hescaped] at hcut
    rw [hname] at ih
    have hc : c ≠ '\r' := by
      rintro rfl
      cases hback
    rw [Nat.add_assoc]
    exact (hcut.add ih).cons hc
  | case4 c rest hback hnul value taken hname ih =>
    rw [hname] at ih
    have hc : c ≠ '\r' := by
      rintro rfl
      cases hnul
    exact ih.cons hc
  | case5 c rest hback hnul hplain value taken hname ih =>
    rw [hname] at ih
    have hc : c ≠ '\r' := by
      rintro rfl
      revert hplain
      decide
    exact ih.cons hc

/-- A line end is taken as a whole. -/
theorem keepsLineEnds_newlineLength (t : List Char) : KeepsLineEnds t (newlineLength t) := by
  unfold newlineLength
  split
  · nofun
  · next hline =>
    split
    · exact .one hline
    · exact .zero _
  · exact .zero _

/-- A string ends with its quote, or where a line end starts. -/
theorem keepsLineEnds_quoted {quote : Char} (hreturn : quote ≠ '\r') (t : List Char) :
    KeepsLineEnds t (quoted quote t).2.2 := by
  fun_induction quoted quote t with
  | case1 | case3 => exact .zero _
  | case2 c rest hquote =>
    obtain rfl : c = quote := by simpa using hquote
    exact .one_of_ne hreturn
  | case4 c rest hquote hline hback hempty =>
    obtain rfl : rest = [] := by simpa using hempty
    exact .of_length_le (Nat.le_refl 1)
  | case5 c rest hquote hline hback hempty hstart n value broken taken hquoted ih =>
    rw [hquoted] at ih
    have hc : c ≠ '\r' := by
      rintro rfl
      cases hback
    rw [Nat.add_assoc]
    exact ((keepsLineEnds_newlineLength rest).add ih).cons hc
  | case6 c rest hquote hline hback hempty hstart e n hescaped value broken taken hquoted ih =>
    have hcut := keepsLineEnds_escaped (Bool.eq_false_iff.2 hstart)
    rw [hescaped] at hcut
    rw [hquoted] at ih
    have hc : c ≠ '\r' := by
      rintro rfl
      cases hback
    rw [Nat.add_assoc]
    exact (hcut.add ih).cons hc
  | case7 c rest hquote hline hback value broken taken hquoted ih =>
    rw [hquoted] at ih
    have hc : c ≠ '\r' := by
      rintro rfl
      exact hline rfl
    exact ih.cons hc

/-! ### Numbers -/

/-- Digits are no line ends. -/
theorem keepsLineEnds_digits (t : List Char) : KeepsLineEnds t (digits t).length :=
  .takeWhile (by decide) t

/-- Nor are signs. -/
theorem keepsLineEnds_sign (t : List Char) : KeepsLineEnds t (sign t).2 := by
  unfold sign
  split
  · exact .one_of_ne (by decide)
  · exact .one_of_ne (by decide)
  · exact .zero _

/-- A fraction ends with a digit or with its point. -/
theorem keepsLineEnds_fraction (t : List Char) : KeepsLineEnds t (fraction t).2 := by
  unfold fraction
  split
  · next rest =>
    dsimp only
    split
    · exact .zero _
    · exact (keepsLineEnds_digits rest).cons (by decide)
  · exact .zero _

/-- An exponent ends with a digit. -/
theorem keepsLineEnds_exponent (t : List Char) : KeepsLineEnds t (exponent t).2 := by
  unfold exponent
  split
  · next c rest =>
    dsimp only
    split
    · next hletter =>
      have hc : c ≠ '\r' := by
        rintro rfl
        simp at hletter
      split
      · exact .zero _
      · rw [Nat.add_assoc]
        exact ((keepsLineEnds_sign rest).add (keepsLineEnds_digits _)).cons hc
    · exact .zero _
  · exact .zero _

/-- Each part of a number keeps line ends, and so does the number. -/
theorem keepsLineEnds_numeral (t : List Char) : KeepsLineEnds t (numeral t).2 := by
  rw [numeral_snd, fractionEnd, wholeEnd]
  exact (((keepsLineEnds_sign t).add (keepsLineEnds_digits _)).add (keepsLineEnds_fraction _)).add
    (keepsLineEnds_exponent _)

/-- So does a number with a percent sign or a unit. -/
theorem keepsLineEnds_numeric (t : List Char) : KeepsLineEnds t (numeric t).2 := by
  have hnumeral := keepsLineEnds_numeral t
  rcases numeric_cases t with ⟨hhead, heq⟩ | ⟨-, -, heq⟩ | ⟨-, -, heq⟩
  · obtain ⟨more, hmore⟩ := List.head?_eq_some_iff.1 hhead
    rw [heq]
    refine hnumeral.add ?_
    rw [hmore]
    exact .one_of_ne (by decide)
  · rw [heq]
    exact hnumeral.add (keepsLineEnds_name _)
  · rw [heq]
    exact hnumeral

/-! ### Comments and urls -/

/-- The first `n` characters of a text end with a closing character, or they are all of the text. -/
def ClosedBy (closer : Char) (text : List Char) (n : Nat) : Prop :=
  text.length ≤ n ∨ ∃ w more, text = w ++ closer :: more ∧ n = w.length + 1

namespace ClosedBy

variable {closer : Char} {text : List Char} {k n : Nat}

/-- Of the empty text everything is taken. -/
theorem nil : ClosedBy closer [] n := .inl (Nat.zero_le n)

/-- A closing character at the front closes. -/
theorem here (more : List Char) : ClosedBy closer (closer :: more) 1 := .inr ⟨[], more, rfl, rfl⟩

/-- What is closed behind some characters is closed together with them. -/
theorem add (h : ClosedBy closer (text.drop k) n) : ClosedBy closer text (k + n) := by
  rcases h with hall | ⟨w, more, hdrop, rfl⟩
  · rw [List.length_drop] at hall
    exact .inl (by omega)
  · have hk : (text.take k).length = k := by
      have hlength := congrArg List.length hdrop
      simp only [List.length_drop, List.length_append, List.length_cons] at hlength
      rw [List.length_take]
      omega
    refine .inr ⟨text.take k ++ w, more, ?_, ?_⟩
    · rw [List.append_assoc, ← hdrop, List.take_append_drop]
    · rw [List.length_append, hk, Nat.add_assoc]

/-- So it is behind one character. -/
theorem cons {c : Char} {rest : List Char} (h : ClosedBy closer rest n) :
    ClosedBy closer (c :: rest) (1 + n) :=
  add h

/-- A closing character that is no carriage return keeps line ends. -/
theorem keepsLineEnds (h : ClosedBy closer text n) (hcloser : closer ≠ '\r') :
    KeepsLineEnds text n := by
  rcases h with hall | ⟨w, more, rfl, rfl⟩
  · exact .of_length_le hall
  · intro hlast
    have htake : (w ++ closer :: more).take (w.length + 1) = w ++ [closer] := by
      rw [List.take_length_add_append, List.take_succ_cons, List.take_zero]
    rw [htake, List.getLast?_concat] at hlast
    exact absurd (Option.some.inj hlast) hcloser

end ClosedBy

/-- A comment is closed by its slash. -/
theorem closedBy_commentLength (t : List Char) : ClosedBy '/' t (commentLength t) := by
  fun_induction commentLength t with
  | case1 rest => exact (ClosedBy.here rest).cons
  | case2 c rest _ ih => exact ih.cons
  | case3 => exact .nil

/-- A url is closed by its parenthesis, behind blanks. -/
theorem closedBy_urlTail {t value : List Char} {n : Nat} (h : urlTail t = .closed value n) :
    ClosedBy ')' t n := by
  fun_induction urlTail t generalizing value n with
  | case1 => exact .nil
  | case2 c rest hclose =>
    cases h
    obtain rfl : c = ')' := by simpa using hclose
    exact .here rest
  | case3 c rest hclose hspace inner m hinner ih =>
    cases h
    exact (ih hinner).cons
  | case4 | case5 => cases h

/-- So it is behind its characters. -/
theorem closedBy_urlBody {t value : List Char} {n : Nat} (h : urlBody t = .closed value n) :
    ClosedBy ')' t n := by
  fun_induction urlBody t generalizing value n with
  | case1 => exact .nil
  | case2 c rest hclose =>
    cases h
    obtain rfl : c = ')' := by simpa using hclose
    exact .here rest
  | case3 => exact closedBy_urlTail h
  | case4 | case5 => cases h
  | case6 c rest hclose hspace hspoils hback hline e m hescaped ih =>
    cases hrest : urlBody (rest.drop m) with
    | closed inner taken =>
      rw [hrest] at h
      cases h
      rw [Nat.add_assoc]
      exact (ih hrest).add.cons
    | spoilt taken =>
      rw [hrest] at h
      cases h
  | case7 c rest hclose hspace hspoils hback ih =>
    cases hrest : urlBody rest with
    | closed inner taken =>
      rw [hrest] at h
      cases h
      exact (ih hrest).cons
    | spoilt taken =>
      rw [hrest] at h
      cases h

/-- A spoilt url runs to a closing parenthesis, or to the end of the text. -/
theorem closedBy_spoiltLength (t : List Char) :
    ClosedBy ')' (t.drop (spoiltLength t)) ((t.drop (spoiltLength t)).take 1).length := by
  fun_induction spoiltLength t with
  | case1 => exact .nil
  | case2 rest ih | case3 rest ih =>
    rw [Nat.add_comm]
    exact ih
  | case4 c rest _ _ hclose =>
    obtain rfl : c = ')' := by simpa using hclose
    exact .here rest
  | case5 c rest _ _ hclose ih =>
    rw [Nat.add_comm]
    exact ih

/-- So is a whole url, with its blanks in front. If it is spoilt, it is closed by the next
parenthesis. -/
theorem closedBy_urlContent {t value : List Char} {n : Nat}
    (h : urlContent t = .plain value n ∨ urlContent t = .spoilt value n) : ClosedBy ')' t n := by
  unfold urlContent at h
  dsimp only at h
  split at h
  · simp at h
  · simp at h
  · split at h
    · next inner taken hbody =>
      rcases h with h | h
      · cases h
        exact (closedBy_urlBody hbody).add
      · cases h
    · next taken hbody =>
      rcases h with h | h
      · cases h
      · cases h
        rw [Nat.add_assoc, ← List.drop_drop, Nat.add_assoc]
        exact (closedBy_spoiltLength _).add.add.add

/-- A name with what belongs to it keeps line ends: a parenthesis, or a whole url. -/
theorem keepsLineEnds_identLike (t : List Char) : KeepsLineEnds t (identLike t).2 := by
  have hname := keepsLineEnds_name t
  unfold identLike
  dsimp only
  split
  · next rest hopen =>
    have hparen : KeepsLineEnds t ((name t).2 + 1) := by
      refine hname.add ?_
      rw [hopen]
      exact .one_of_ne (by decide)
    have hurl {value : List Char} {n : Nat}
        (h : urlContent rest = .plain value n ∨ urlContent rest = .spoilt value n) :
        KeepsLineEnds t ((name t).2 + 1 + n) := by
      refine hparen.add ?_
      rw [← List.drop_drop, hopen]
      exact (closedBy_urlContent h).keepsLineEnds (by decide)
    split
    · split
      · exact hparen
      · next hplain => exact hurl (.inl hplain)
      · next hspoilt => exact hurl (.inr hspoilt)
    · exact hparen
  · exact hname

/-! ### All lexemes -/

/-- Two characters that are no carriage returns keep line ends. -/
theorem keepsLineEnds_two {c d : Char} {rest : List Char} (hc : c ≠ '\r') (hd : d ≠ '\r') :
    KeepsLineEnds (c :: d :: rest) 2 :=
  (KeepsLineEnds.one_of_ne hd).cons hc

/-- A lexeme keeps line ends whole. -/
theorem keepsLineEnds_read (c : Char) (rest : List Char) :
    KeepsLineEnds (c :: rest) (read c rest).2 := by
  have hreads := reads_read c rest
  generalize read c rest = x at hreads
  cases hreads with
  | whitespace => exact .takeWhile (by decide) _
  | string h =>
    have hc : c ≠ '\r' := by rcases h with rfl | rfl <;> decide
    exact (keepsLineEnds_quoted hc rest).cons hc
  | hash h =>
    subst h
    rcases hash_eq rest with heq | ⟨-, heq⟩
    · rw [heq]
      exact .one_of_ne (by decide)
    · rw [heq]
      exact (keepsLineEnds_name rest).cons (by decide)
  | atKeyword h =>
    subst h
    rcases atKeyword_eq rest with heq | ⟨-, heq⟩
    · rw [heq]
      exact .one_of_ne (by decide)
    · rw [heq]
      exact (keepsLineEnds_name rest).cons (by decide)
  | punctuation h =>
    refine .one_of_ne ?_
    rintro rfl
    cases h
  | numeric => exact keepsLineEnds_numeric _
  | comment h =>
    obtain ⟨rfl, hstar⟩ := h
    obtain ⟨more, rfl⟩ := List.head?_eq_some_iff.1 hstar
    rw [Nat.add_assoc 1 1]
    exact (((closedBy_commentLength more).keepsLineEnds (by decide)).cons (by decide)).cons (by decide)
  | cdo h =>
    obtain ⟨more, hmore⟩ := List.isPrefixOf_iff_prefix.1 h
    rw [← hmore]
    nofun
  | cdc h =>
    obtain ⟨more, hmore⟩ := List.isPrefixOf_iff_prefix.1 h
    rw [← hmore]
    nofun
  | identLike => exact keepsLineEnds_identLike _
  | matcher h hequals =>
    obtain ⟨more, rfl⟩ := List.head?_eq_some_iff.1 hequals
    refine keepsLineEnds_two ?_ (by decide)
    rintro rfl
    cases h
  | single hspace =>
    refine .one_of_ne ?_
    rintro rfl
    cases hspace

/-- The source text of a lexeme keeps line ends whole. -/
theorem keepsLineEnds_source (c : Char) (rest : List Char) :
    KeepsLineEnds (c :: rest) (c :: rest.take ((read c rest).2 - 1)).length := by
  have hread := keepsLineEnds_read c rest
  rw [List.length_cons, List.length_take]
  rcases Nat.lt_or_ge rest.length (read c rest).2 with hlong | hshort
  · exact .of_length_le (by rw [List.length_cons]; omega)
  · cases hn : (read c rest).2 with
    | zero =>
      rw [Nat.zero_sub, Nat.zero_min]
      refine .one_of_ne ?_
      rintro rfl
      cases hn
    | succ n =>
      rw [hn] at hread hshort
      rwa [Nat.add_sub_cancel, Nat.min_eq_left (by omega)]

/-- No line end is cut in two between lexemes. -/
theorem keepsLineEnds_lexemes {text : List Char} {xs ys : List Sourced}
    (h : lexemes text = xs ++ ys) : KeepsLineEnds text (xs.flatMap Sourced.source).length := by
  induction xs generalizing text with
  | nil => exact .zero text
  | cons x xs ih =>
    cases text with
    | nil =>
      rw [lexemes_nil] at h
      cases h
    | cons c rest =>
      rw [lexemes_cons, List.cons_append] at h
      obtain ⟨rfl, hrest⟩ := List.cons.inj h
      rw [List.flatMap_cons, List.length_append]
      refine (keepsLineEnds_source c rest).add ?_
      have hdrop : (c :: rest).drop (c :: rest.take ((read c rest).2 - 1)).length =
          rest.drop ((read c rest).2 - 1) := by
        rw [List.length_cons, List.drop_succ_cons, List.length_take]
        rcases Nat.le_total ((read c rest).2 - 1) rest.length with hle | hge
        · rw [Nat.min_eq_left hle]
        · rw [Nat.min_eq_right hge, List.drop_length, List.drop_of_length_le hge]
      rw [hdrop]
      exact ih hrest

end Lexeme

/-- Positions can be counted from lexeme to lexeme. -/
theorem Position.after_flatMap_source {text : List Char} {xs ys zs : List Sourced}
    (h : lexemes text = xs ++ (ys ++ zs)) (p : Position) :
    p.after (xs.flatMap Sourced.source ++ ys.flatMap Sourced.source) =
      (p.after (xs.flatMap Sourced.source)).after (ys.flatMap Sourced.source) := by
  have hkeeps := Lexeme.keepsLineEnds_lexemes h
  have htext : text = xs.flatMap Sourced.source ++
      (ys.flatMap Sourced.source ++ zs.flatMap Sourced.source) := by
    rw [← flatMap_source_lexemes text, h, List.flatMap_append, List.flatMap_append]
  refine p.after_append fun hlast hhead => ?_
  rw [KeepsLineEnds, htext, List.take_left, List.drop_left, List.head?_append, hhead] at hkeeps
  exact hkeeps hlast rfl

end StyleGate
