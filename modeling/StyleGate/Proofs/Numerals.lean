import StyleGate.Proofs.Escapes

/-!
# Numbers read back

The text that is written for a number, a percentage or a dimension is taken to read back as that
token where it stands alone. Here it is shown to read back in front of anything that does not continue
it: `Lexeme.numeric_append_of_number`, `Lexeme.numeric_append_of_percentage`,
`Lexeme.numeric_append_of_dimension`. For dimensions the text of the value and the text of the unit have
to be told apart, which works because a value is written without a backslash
(`Number.backslash_not_mem_numberText`).
-/

namespace StyleGate

/-! ## The characters of a written value -/

namespace Number

/-- The digits of a number are less than ten, if those in front of which they are put are so. -/
theorem lt_of_mem_digitsOf_go {acc : List Nat} {n d : Nat} (hacc : ∀ a ∈ acc, a < 10)
    (hd : d ∈ digitsOf.go acc n) : d < 10 := by
  fun_induction digitsOf.go acc n with
  | case1 acc => exact hacc d hd
  | case2 acc n hn ih =>
    refine ih (fun a ha => ?_) hd
    rcases List.mem_cons.1 ha with rfl | ha
    · exact Nat.mod_lt n (by decide)
    · exact hacc a ha

/-- The digits of a number are less than ten. -/
theorem lt_of_mem_digitsOf {n d : Nat} (h : d ∈ digitsOf n) : d < 10 :=
  lt_of_mem_digitsOf_go (by simp) h

/-- Without its last zeros a list has no digit that it did not have. -/
theorem mem_of_mem_stripZeros {digits : List Nat} {d : Nat} (h : d ∈ stripZeros digits) :
    d ∈ digits := by
  have h := (List.dropWhile_sublist _).subset (List.mem_reverse.1 h)
  exact List.mem_reverse.1 h

/-- A zero is less than ten. -/
theorem lt_of_mem_replicate_zero {n d : Nat} (h : d ∈ List.replicate n 0) : d < 10 := by
  rw [(List.mem_replicate.1 h).2]
  decide

/-- When digits are rounded up, a nine becomes a zero. -/
theorem lt_of_mem_increment {digits : List Nat} {d : Nat} (h : d ∈ increment digits) :
    d < 10 := by
  rcases List.mem_append.1 h with h | h
  · exact lt_of_mem_replicate_zero h
  · exact lt_of_mem_digitsOf h

/-- A written decimal whose digits are digits. -/
def Written.IsDecimal (w : Written) : Prop := ∀ d ∈ w.whole ++ w.fraction, d < 10

/-- A rounded number has digits less than ten. -/
theorem lt_of_mem_ofMagnitude {m d : Nat} {e : Int} (h : d ∈ (Decimal.ofMagnitude m e).digits) :
    d < 10 := by
  rw [Decimal.ofMagnitude] at h
  exact lt_of_mem_digitsOf h

/-- The parts that are written of such digits are decimal. -/
theorem Decimal.isDecimal_written {x : Decimal} (h : ∀ d ∈ x.digits, d < 10) :
    x.written.IsDecimal := by
  intro d hd
  unfold Decimal.written at hd
  dsimp only at hd
  split at hd
  · simp only [List.append_assoc, List.mem_append, List.mem_singleton] at hd
    rcases hd with hd | hd | rfl
    · exact h d hd
    · exact lt_of_mem_replicate_zero hd
    · decide
  · split at hd
    · rw [List.take_append_drop] at hd
      exact h d hd
    · split at hd
      · simp only [List.mem_append, List.mem_singleton] at hd
        rcases hd with rfl | hd | hd
        · decide
        · exact lt_of_mem_replicate_zero hd
        · exact h d hd
      · rw [List.take_append_drop] at hd
        exact h d hd

/-- Cutting a decimal to six digits leaves digits. -/
theorem Written.IsDecimal.sixDigits {w : Written} (h : w.IsDecimal) : w.sixDigits.IsDecimal := by
  intro d hd
  unfold Written.sixDigits at hd
  dsimp only at hd
  split at hd
  · rcases List.mem_append.1 hd with hd | hd
    · exact h d (List.mem_append_left _ hd)
    · exact h d (List.mem_append_right _ (mem_of_mem_stripZeros hd))
  · next next hnext =>
    have hrounded : ∀ kept, ∀ x ∈ (if 5 ≤ next then
        increment ((w.whole ++ w.fraction).take kept)
        else (w.whole ++ w.fraction).take kept), x < 10 := by
      intro kept x hx
      split at hx
      · exact lt_of_mem_increment hx
      · exact h x (List.mem_of_mem_take hx)
    simp only [List.append_assoc, List.mem_append] at hd
    rcases hd with hd | hd | hd
    · exact hrounded _ d (List.mem_of_mem_take hd)
    · exact lt_of_mem_replicate_zero hd
    · exact hrounded _ d (List.mem_of_mem_drop (mem_of_mem_stripZeros hd))

/-- No digit is written as a backslash. -/
theorem digitChar_ne_backslash : ∀ d, d < 10 → digitChar d ≠ '\\' := by decide

/-- So digits are written without a backslash. -/
theorem backslash_not_mem_map_digitChar {digits : List Nat} (h : ∀ d ∈ digits, d < 10) :
    '\\' ∉ digits.map digitChar := by
  intro hmem
  obtain ⟨d, hd, heq⟩ := List.mem_map.1 hmem
  exact digitChar_ne_backslash d (h d hd) heq

/-- So are natural numbers. -/
theorem backslash_not_mem_repr (n : Nat) : '\\' ∉ n.repr.toList := by
  intro h
  rw [Nat.toList_repr] at h
  have h := Nat.isDigit_of_mem_toDigits (by decide) (by decide) h
  simp [Char.isDigit] at h

/-- So are integers, with their sign. -/
theorem backslash_not_mem_toString (k : Int) : '\\' ∉ (toString k).toList := by
  rw [Int.toString_eq_repr]
  cases k with
  | ofNat n => exact backslash_not_mem_repr n
  | negSucc n =>
    have h := backslash_not_mem_repr (n + 1)
    simpa [Int.repr, String.toList_append] using h

/-- So are numbers with a point and an exponent. -/
theorem Written.IsDecimal.backslash_not_mem_text {w : Written} (h : w.IsDecimal) :
    '\\' ∉ w.text := by
  have hwhole := backslash_not_mem_map_digitChar fun d hd => h d (List.mem_append_left _ hd)
  have hfraction := backslash_not_mem_map_digitChar fun d hd => h d (List.mem_append_right _ hd)
  unfold Written.text
  dsimp only
  simp only [List.mem_append, not_or]
  refine ⟨⟨hwhole, ?_⟩, ?_⟩
  · split
    · simp
    · exact List.not_mem_cons_of_ne_of_not_mem (by decide) hfraction
  · split
    · simp
    · exact List.not_mem_cons_of_ne_of_not_mem (by decide) (backslash_not_mem_toString _)

/-- So are numbers with a sign. -/
theorem Signed.backslash_not_mem_text (v : Signed) (signed whole : Bool) :
    '\\' ∉ v.text signed whole := by
  have hsign : '\\' ∉ (if v.magnitude == .undefined then []
      else if v.negative then ['-'] else if signed then ['+'] else [] : List Char) := by
    split
    · decide
    · split
      · decide
      · split <;> decide
  unfold Signed.text
  dsimp only
  split
  · refine List.not_mem_append hsign (List.not_mem_cons_of_ne_of_not_mem (by decide) ?_)
    split <;> decide
  · have hw := (Decimal.isDecimal_written fun d hd => lt_of_mem_ofMagnitude
      (m := v.magnitude.pattern.1) (e := v.magnitude.pattern.2) hd).sixDigits
    refine List.not_mem_append (List.not_mem_append hsign hw.backslash_not_mem_text) ?_
    split <;> decide

/-- A value is written without a backslash. -/
theorem backslash_not_mem_numberText (n : Numeral) : '\\' ∉ n.numberText :=
  Signed.backslash_not_mem_text _ _ _

end Number

namespace Lexeme

open Text Number

/-! ## Numerals in front of other text -/

/-- A run of characters of a class ends where no such character follows. -/
theorem takeWhile_append_stop {p : Char → Bool} {t rest : List Char}
    (h : ∀ c, rest.head? = some c → p c = false) :
    (t ++ rest).takeWhile p = t.takeWhile p := by
  have hrest : rest.takeWhile p = [] := by
    cases rest with
    | nil => rfl
    | cons c rest => simp [h c rfl]
  rw [List.takeWhile_append]
  split
  · next hall => rw [hrest, List.append_nil, (List.takeWhile_prefix p).eq_of_length hall]
  · rfl

/-- A sign is read at the front only. -/
theorem sign_append {t : List Char} (rest : List Char) (h : t ≠ []) :
    sign (t ++ rest) = sign t := by
  cases t with
  | nil => exact absurd rfl h
  | cons c t =>
    rw [List.cons_append]
    unfold sign
    split <;> simp_all

/-- Without a sign none is read. -/
theorem sign_eq_none {t : List Char} (h : t.head? ≠ some '+' ∧ t.head? ≠ some '-') :
    sign t = (false, 0) := by
  unfold sign
  split <;> simp_all

/-- A sign is part of the text. -/
theorem sign_le_length (t : List Char) : (sign t).2 ≤ t.length := by
  unfold sign
  split <;> simp

/-- Behind its letter an exponent is read from a sign and digits alone. -/
theorem exponent_congr {c : Char} {t t' : List Char} (hsign : sign t' = sign t)
    (hdigits : digits (t'.drop (sign t).2) = digits (t.drop (sign t).2)) :
    exponent (c :: t') = exponent (c :: t) := by
  simp only [exponent, hsign, hdigits]

section Boundary

variable {t rest : List Char} (hdigit : ∀ c, rest.head? = some c → isDigit c = false)
include hdigit

/-- Digits end where none follows. -/
theorem digits_append : digits (t ++ rest) = digits t := takeWhile_append_stop hdigit

/-- So does a fraction, which starts with a point. -/
theorem fraction_append (hpoint : t = [] → rest.head? ≠ some '.') :
    fraction (t ++ rest) = fraction t := by
  cases t with
  | nil =>
    unfold fraction
    split <;> simp_all
  | cons c t =>
    by_cases hc : c = '.'
    · subst hc
      simp only [List.cons_append, fraction, digits_append hdigit]
    · simp [fraction, hc]

/-- An exponent ends where no digit follows, if it is not the letter alone in front of a sign. -/
theorem exponent_append
    (hletter : t = [] → rest.head? ≠ some 'e' ∧ rest.head? ≠ some 'E')
    (hsign : t = ['e'] ∨ t = ['E'] → rest.head? ≠ some '+' ∧ rest.head? ≠ some '-') :
    exponent (t ++ rest) = exponent t := by
  match t with
  | [] =>
    cases rest with
    | nil => rfl
    | cons c rest =>
      have hne := hletter rfl
      simp only [List.head?_cons, ne_eq, Option.some.injEq] at hne
      simp [exponent, hne]
  | [c] =>
    by_cases hc : c = 'e' ∨ c = 'E'
    · have hnone := sign_eq_none (hsign (by simpa using hc))
      rw [List.singleton_append]
      refine exponent_congr hnone ?_
      exact digits_append (t := []) hdigit
    · rw [not_or] at hc
      simp [exponent, hc]
  | c :: d :: t =>
    rw [List.cons_append]
    refine exponent_congr (sign_append rest (by simp)) ?_
    rw [List.drop_append_of_le_length (sign_le_length _)]
    exact digits_append hdigit

end Boundary

/-! ## The extent of a numeral -/

/-- A fraction is part of the text. -/
theorem fraction_le_length (t : List Char) : (fraction t).2 ≤ t.length := by
  have htake (t : List Char) := (List.takeWhile_prefix (l := t) isDigit).length_le
  unfold fraction
  split
  · next rest =>
    dsimp only
    split
    · simp
    · have := htake rest
      simp only [digits, List.length_cons]
      omega
  · simp

/-- Where the digits before the point end. -/
def wholeEnd (t : List Char) : Nat := (sign t).2 + (digits (t.drop (sign t).2)).length

/-- Where the fraction ends. -/
def fractionEnd (t : List Char) : Nat := wholeEnd t + (fraction (t.drop (wholeEnd t))).2

/-- A numeral ends with its exponent, behind the fraction. -/
theorem numeral_snd (t : List Char) :
    (numeral t).2 = fractionEnd t + (exponent (t.drop (fractionEnd t))).2 := rfl

/-- The digits before the point are part of the text. -/
theorem wholeEnd_le_length (t : List Char) : wholeEnd t ≤ t.length := by
  have hsign := sign_le_length t
  have hdigits := (List.takeWhile_prefix (l := t.drop (sign t).2) isDigit).length_le
  rw [List.length_drop] at hdigits
  unfold wholeEnd digits
  omega

/-- So is all up to the end of the fraction. -/
theorem fractionEnd_le_length (t : List Char) : fractionEnd t ≤ t.length := by
  have hwhole := wholeEnd_le_length t
  have hfraction := fraction_le_length (t.drop (wholeEnd t))
  rw [List.length_drop] at hfraction
  unfold fractionEnd
  omega

/-- **Numerals end where nothing goes on.** A numeral is read the same in front of a text that does
not start with a digit, nor with a point or the letter of an exponent if the numeral takes up all of
its text, nor with a sign if that letter is all that the numeral leaves of it. -/
theorem numeral_append {t rest : List Char} (ht : t ≠ [])
    (hdigit : ∀ c, rest.head? = some c → isDigit c = false)
    (hwhole : (numeral t).2 = t.length →
      rest.head? ≠ some '.' ∧ rest.head? ≠ some 'e' ∧ rest.head? ≠ some 'E')
    (hsign : t.drop (numeral t).2 = ['e'] ∨ t.drop (numeral t).2 = ['E'] →
      rest.head? ≠ some '+' ∧ rest.head? ≠ some '-') :
    numeral (t ++ rest) = numeral t := by
  have hs : sign (t ++ rest) = sign t := sign_append rest ht
  have hd : digits ((t ++ rest).drop (sign t).2) = digits (t.drop (sign t).2) := by
    rw [List.drop_append_of_le_length (sign_le_length t), digits_append hdigit]
  have hf : fraction ((t ++ rest).drop (wholeEnd t)) = fraction (t.drop (wholeEnd t)) := by
    rw [List.drop_append_of_le_length (wholeEnd_le_length t)]
    refine fraction_append hdigit fun hnil => (hwhole ?_).1
    have hle := List.drop_eq_nil_iff.1 hnil
    have heq : wholeEnd t = t.length := Nat.le_antisymm (wholeEnd_le_length t) hle
    rw [numeral_snd, fractionEnd, hnil, heq]
    simp [fraction, exponent]
  have he : exponent ((t ++ rest).drop (fractionEnd t)) = exponent (t.drop (fractionEnd t)) := by
    rw [List.drop_append_of_le_length (fractionEnd_le_length t)]
    refine exponent_append hdigit (fun hnil => (hwhole ?_).2) fun hletter => hsign ?_
    · have hle := List.drop_eq_nil_iff.1 hnil
      have heq : fractionEnd t = t.length := Nat.le_antisymm (fractionEnd_le_length t) hle
      rw [numeral_snd, hnil, heq]
      rfl
    · rw [numeral_snd]
      rcases hletter with h | h
      · rw [h]
        exact .inl h
      · rw [h]
        exact .inr h
  unfold fractionEnd wholeEnd at he
  unfold wholeEnd at hf
  simp only [numeral, hs, hd, hf, he]

/-! ## No backslash in a numeral -/

/-- Digits hold no backslash. -/
theorem backslash_not_mem_digits (t : List Char) : '\\' ∉ digits t := by
  intro hmem
  have hall := List.all_takeWhile (p := isDigit) (l := t)
  have hdigit := List.all_eq_true.1 hall _ hmem
  revert hdigit
  decide

/-- The digits at the front are what is taken of the text. -/
theorem take_digits (t : List Char) : t.take (digits t).length = digits t :=
  (List.prefix_iff_eq_take.1 (List.takeWhile_prefix isDigit)).symm

/-- A sign is no backslash. -/
theorem backslash_not_mem_take_sign (t : List Char) : '\\' ∉ t.take (sign t).2 := by
  unfold sign
  split <;> simp

/-- Nor does a fraction hold one. -/
theorem backslash_not_mem_take_fraction (t : List Char) : '\\' ∉ t.take (fraction t).2 := by
  unfold fraction
  split
  · next rest =>
    dsimp only
    split
    · simp
    · rw [Nat.add_comm, List.take_succ_cons, take_digits]
      exact List.not_mem_cons_of_ne_of_not_mem (by decide) (backslash_not_mem_digits rest)
  · simp

/-- Nor does an exponent. -/
theorem backslash_not_mem_take_exponent (t : List Char) : '\\' ∉ t.take (exponent t).2 := by
  unfold exponent
  split
  · next c rest =>
    dsimp only
    split
    · next hletter =>
      split
      · simp
      · have hc : '\\' ≠ c := by
          rintro rfl
          simp at hletter
        rw [Nat.add_assoc, Nat.add_comm, List.take_succ_cons, List.take_add, take_digits]
        refine List.not_mem_cons_of_ne_of_not_mem hc (List.not_mem_append ?_ ?_)
        · exact backslash_not_mem_take_sign rest
        · exact backslash_not_mem_digits _
    · simp
  · simp

/-- A numeral has no backslash. -/
theorem backslash_not_mem_take_numeral (t : List Char) : '\\' ∉ t.take (numeral t).2 := by
  rw [numeral_snd, fractionEnd, wholeEnd, List.take_add, List.take_add, List.take_add, take_digits]
  refine List.not_mem_append (List.not_mem_append (List.not_mem_append ?_ ?_) ?_) ?_
  · exact backslash_not_mem_take_sign t
  · exact backslash_not_mem_digits _
  · exact backslash_not_mem_take_fraction _
  · exact backslash_not_mem_take_exponent _

/-! ## Units -/

/-- A name goes on behind plain characters. -/
theorem name_append_plain {w u : List Char} (hw : '\\' ∉ w)
    (hall : (name (w ++ u)).2 = (w ++ u).length) :
    (name (w ++ u)).1.length = w.length + (name u).1.length ∧ (name u).2 = u.length := by
  induction w with
  | nil => simpa using hall
  | cons c w ih =>
    have hc : c ≠ '\\' := fun heq => hw (heq ▸ .head _)
    have ih := ih fun hmem => hw (.tail _ hmem)
    rw [List.cons_append, name] at hall ⊢
    by_cases hnul : c = '\x00'
    · simp only [hnul] at hall ⊢
      simp at hall ⊢
      have ih := ih (by simp; omega)
      omega
    · by_cases hplain : isPlainInName c = true
      · simp [hc, hnul, hplain] at hall ⊢
        have ih := ih (by simp; omega)
        omega
      · simp [hc, hnul, hplain] at hall

/-- The written form of a unit is read as a unit of the same length. -/
theorem writtenName_unitText {v : List Char} (h : '\x00' ∉ v) :
    ∃ v', v'.length = v.length ∧ WrittenName (unitText v) v' := by
  unfold unitText
  split
  · next c rest =>
    split
    · have hrest : '\x00' ∉ rest := fun hmem => h (.tail _ hmem)
      have hletter : WrittenName "\\65 ".toList ['e'] :=
        writtenName_hexEscape (c := 'e') (by decide) (by decide)
      exact ⟨'e' :: rest, rfl, hletter.append (writtenName_escapeName hrest)⟩
    · exact ⟨c :: rest, rfl, writtenName_escapeIdentifier h⟩
  · exact ⟨[], rfl, .nil⟩

/-- Two texts of a value and a unit that are the same have the same unit. -/
theorem unitText_name_eq {w w' u : List Char} (hw : '\\' ∉ w) (hw' : '\\' ∉ w')
    (hall : (name u).2 = u.length) (heq : w ++ u = w' ++ unitText (name u).1) :
    unitText (name u).1 = u := by
  obtain ⟨v, hlength, hv⟩ := writtenName_unitText (nul_not_mem_name u)
  have hread := hv []
  rw [List.append_nil, name, List.append_nil, Nat.add_zero] at hread
  rcases List.append_eq_append_iff.1 heq with ⟨z, rfl, hu⟩ | ⟨z, rfl, hu⟩
  · -- The unit would start inside the text of the value.
    have hz : '\\' ∉ z := fun hmem => hw' (List.mem_append_right _ hmem)
    have hlong := (name_append_plain hz (by rw [← hu]; exact hall)).1
    rw [← hu, hread] at hlong
    have hnil : z = [] := List.length_eq_zero_iff.1 (by dsimp only at hlong; omega)
    rw [hnil, List.nil_append] at hu
    exact hu.symm
  · have hz : '\\' ∉ z := fun hmem => hw (List.mem_append_right _ hmem)
    have hlong := (name_append_plain hz (by rw [← hu, hread])).1
    rw [← hu, hread] at hlong
    have hnil : z = [] := List.length_eq_zero_iff.1 (by dsimp only at hlong; omega)
    rw [hnil, List.nil_append] at hu
    exact hu

/-- A unit is read back in front of a text in which no name goes on. -/
theorem name_unit_append {u rest : List Char} (hunit : unitText (name u).1 = u) (hrest : EndsName rest) :
    name (u ++ rest) = name u := by
  obtain ⟨v, -, hv⟩ := writtenName_unitText (nul_not_mem_name u)
  rw [hunit] at hv
  have hread := hv []
  rw [List.append_nil, name, List.append_nil, Nat.add_zero] at hread
  rw [hv, name_of_endsName hrest, List.append_nil, Nat.add_zero, hread]

/-! ## Reading a number -/

/-- What a number may start with. -/
theorem startsNumber_cases {c : Char} {rest : List Char} (h : startsNumber (c :: rest) = true) :
    c = '+' ∨ c = '-' ∨ c = '.' ∨ isDigit c = true := by
  unfold startsNumber startsUnsigned at h
  split at h
  · next heq => cases heq; simp
  · next heq => cases heq; simp
  · split at h
    · next heq => cases heq; simp
    · next heq => cases heq; simp [h]
    · cases h

/-- Whether a number starts is told by its own first characters. -/
theorem startsUnsigned_append {t : List Char} (rest : List Char) (h : startsUnsigned t = true) :
    startsUnsigned (t ++ rest) = true := by
  unfold startsUnsigned at h
  split at h
  · exact h
  · next c t hpoint =>
    have hc : c ≠ '.' := by
      rintro rfl
      revert h
      decide
    rw [List.cons_append, startsUnsigned]
    · exact h
    · exact fun d t' heq _ => hc heq
  · cases h

/-- A number at the front of a text is there too if the text goes on. -/
theorem startsNumber_append {t : List Char} (rest : List Char) (h : startsNumber t = true) :
    startsNumber (t ++ rest) = true := by
  unfold startsNumber at h
  split at h
  · exact startsUnsigned_append rest h
  · exact startsUnsigned_append rest h
  · next hplus hminus =>
    cases t with
    | nil => cases h
    | cons c t =>
      rw [List.cons_append, startsNumber]
      · exact startsUnsigned_append rest h
      · exact fun t' heq => hplus t (by rw [(List.cons.inj heq).1])
      · exact fun t' heq => hminus t (by rw [(List.cons.inj heq).1])

/-- A number is read where one is at the front of a text. -/
theorem read_of_startsNumber {c : Char} {rest : List Char} (h : startsNumber (c :: rest) = true) :
    read c rest = numeric (c :: rest) := by
  have hcode : c.toNat = 43 ∨ c.toNat = 45 ∨ c.toNat = 46 ∨ 48 ≤ c.toNat ∧ c.toNat ≤ 57 := by
    rcases startsNumber_cases h with rfl | rfl | rfl | hdigit
    · decide
    · decide
    · decide
    · simp only [isDigit, Bool.and_eq_true, decide_eq_true_eq, le_iff_toNat,
        Char.reduceToNat] at hdigit
      omega
  have hne (d : Char) (hd : d.toNat < 43 ∨ d.toNat = 44 ∨ 57 < d.toNat) : c ≠ d := by
    rintro rfl
    omega
  have hspace : isSpace c = false := by
    simp [isSpace, hne]
  have hpunctuation : punctuation? c = none := by
    unfold punctuation?
    split <;> first | rfl | (exfalso; revert hcode; decide)
  simp [read, hspace, hpunctuation, h, hne]

/-! ## Numbers, percentages and dimensions read back -/

section Numeric

variable {t : List Char}

/-- With a percent sign behind it, a numeral is a percentage. -/
theorem numeric_of_percent (h : (t.drop (numeral t).2).head? = some '%') :
    numeric t =
      (.token .percentage ((numeral t).1.percentageText ++ ['%']), (numeral t).2 + 1) := by
  simp [numeric, h]

/-- With a name behind it, it is a dimension. -/
theorem numeric_of_unit (h : (t.drop (numeral t).2).head? ≠ some '%')
    (hname : startsName (t.drop (numeral t).2) = true) :
    numeric t =
      (.token .dimension ((numeral t).1.numberText ++ unitText (name (t.drop (numeral t).2)).1),
        (numeral t).2 + (name (t.drop (numeral t).2)).2) := by
  have hpercent : ¬ ((t.drop (numeral t).2).head? == some '%') = true := by simpa using h
  unfold numeric
  dsimp only
  rw [if_neg hpercent, if_pos hname]

/-- With neither it is a number. -/
theorem numeric_of_no_unit (h : (t.drop (numeral t).2).head? ≠ some '%')
    (hname : startsName (t.drop (numeral t).2) = false) :
    numeric t = (.token .number (numeral t).1.numberText, (numeral t).2) := by
  have hpercent : ¬ ((t.drop (numeral t).2).head? == some '%') = true := by simpa using h
  unfold numeric
  dsimp only
  rw [if_neg hpercent, if_neg (by rw [hname]; nofun)]

/-- What a numeral is read as by what follows it. -/
theorem numeric_cases (t : List Char) :
    ((t.drop (numeral t).2).head? = some '%' ∧
      numeric t =
        (.token .percentage ((numeral t).1.percentageText ++ ['%']), (numeral t).2 + 1)) ∨
    ((t.drop (numeral t).2).head? ≠ some '%' ∧ startsName (t.drop (numeral t).2) = true ∧
      numeric t =
        (.token .dimension
            ((numeral t).1.numberText ++ unitText (name (t.drop (numeral t).2)).1),
          (numeral t).2 + (name (t.drop (numeral t).2)).2)) ∨
    ((t.drop (numeral t).2).head? ≠ some '%' ∧ startsName (t.drop (numeral t).2) = false ∧
      numeric t = (.token .number (numeral t).1.numberText, (numeral t).2)) := by
  by_cases h : (t.drop (numeral t).2).head? = some '%'
  · exact .inl ⟨h, numeric_of_percent h⟩
  · cases hname : startsName (t.drop (numeral t).2) with
    | true => exact .inr (.inl ⟨h, rfl, numeric_of_unit h hname⟩)
    | false => exact .inr (.inr ⟨h, rfl, numeric_of_no_unit h hname⟩)

end Numeric

/-- Where no name goes on, no digit follows. -/
theorem isDigit_of_endsName {rest : List Char} (h : EndsName rest) :
    ∀ c, rest.head? = some c → isDigit c = false := by
  intro c hc
  have hplain := (h c hc).1
  rw [← Bool.not_eq_true, isPlainInName_iff] at hplain
  rw [← Bool.not_eq_true, isDigit, Bool.and_eq_true, decide_eq_true_eq, decide_eq_true_eq,
    le_iff_toNat, le_iff_toNat]
  simp only [Char.reduceToNat]
  omega

/-- No letter, digit or hyphen stands where no name goes on. -/
theorem head?_ne_of_endsName {rest : List Char} (h : EndsName rest) {c : Char}
    (hc : isPlainInName c = true) : rest.head? ≠ some c := by
  intro heq
  rw [(h c heq).1] at hc
  cases hc

/-- Nor does a name start there. -/
theorem startsName_of_endsName {rest : List Char} (h : EndsName rest) : startsName rest = false := by
  unfold startsName
  split
  · exact absurd rfl (head?_ne_of_endsName h (by decide))
  · exact absurd rfl (h '\\' rfl).2.2
  · next c rest _ _ =>
    obtain ⟨hplain, hnul, -⟩ := h c rfl
    have hcode : c.toNat ≠ 0 := fun heq => hnul (eq_iff_toNat.2 heq)
    rw [← Bool.not_eq_true, isPlainInName_iff] at hplain
    rw [← Bool.not_eq_true, isNameStart_iff]
    omega
  · rfl

section ReadBack

variable {t rest : List Char}

/-- The text of a number reads back in front of a text that goes on neither with a name nor with a
fraction nor with a percent sign. -/
theorem numeric_append_of_number (ht : t ≠ []) (h : numeric t = (.token .number t, t.length))
    (hrest : EndsName rest) (hpoint : rest.head? ≠ some '.') (hpercent : rest.head? ≠ some '%') :
    numeric (t ++ rest) = numeric t := by
  have hletter (c : Char) (hc : isPlainInName c = true) := head?_ne_of_endsName hrest hc
  obtain ⟨heq, hall⟩ : numeric t = (.token .number (numeral t).1.numberText, (numeral t).2) ∧
      (numeral t).2 = t.length := by
    rcases numeric_cases t with ⟨-, heq⟩ | ⟨-, -, heq⟩ | ⟨-, -, heq⟩
    · cases heq.symm.trans h
    · cases heq.symm.trans h
    · exact ⟨heq, congrArg Prod.snd (heq.symm.trans h)⟩
  have hnumeral : numeral (t ++ rest) = numeral t := by
    refine numeral_append ht (isDigit_of_endsName hrest)
      (fun _ => ⟨hpoint, hletter _ (by decide), hletter _ (by decide)⟩) ?_
    rw [hall, List.drop_length]
    simp
  have hdrop : (t ++ rest).drop (numeral (t ++ rest)).2 = rest := by
    rw [hnumeral, hall, List.drop_left]
  have hnoname : startsName ((t ++ rest).drop (numeral (t ++ rest)).2) = false := by
    rw [hdrop]
    exact startsName_of_endsName hrest
  rw [numeric_of_no_unit (by rwa [hdrop]) hnoname, hnumeral, heq]

/-- The text of a percentage reads back in front of any text. -/
theorem numeric_append_of_percentage (hstart : startsNumber t = true)
    (h : numeric t = (.token .percentage t, t.length)) : numeric (t ++ rest) = numeric t := by
  obtain ⟨hhead, hall⟩ : (t.drop (numeral t).2).head? = some '%' ∧
      (numeral t).2 + 1 = t.length := by
    rcases numeric_cases t with ⟨hp, heq⟩ | ⟨-, -, heq⟩ | ⟨-, -, heq⟩
    · exact ⟨hp, congrArg Prod.snd (heq.symm.trans h)⟩
    · cases heq.symm.trans h
    · cases heq.symm.trans h
  have hlast : t.drop (numeral t).2 = ['%'] := by
    have hlength : (t.drop (numeral t).2).length = 1 := by rw [List.length_drop]; omega
    obtain ⟨c, hc⟩ := List.length_eq_one_iff.1 hlength
    rw [hc] at hhead ⊢
    simpa using hhead
  obtain ⟨w, hw, htext⟩ : ∃ w, w ≠ [] ∧ t = w ++ ['%'] := by
    refine ⟨t.take (numeral t).2, fun hnil => ?_, ?_⟩
    · have htext := List.take_append_drop (numeral t).2 t
      rw [hnil, hlast] at htext
      rw [← htext] at hstart
      revert hstart
      decide
    · rw [← hlast, List.take_append_drop]
  have hnumeral (more : List Char) : numeral (w ++ '%' :: more) = numeral w :=
    numeral_append hw (by simp; decide) (by simp) (by simp)
  have hsame : numeral (t ++ rest) = numeral t := by
    rw [htext, List.append_assoc, List.singleton_append, hnumeral, hnumeral]
  have hdrop : ((t ++ rest).drop (numeral (t ++ rest)).2).head? = some '%' := by
    rw [hsame, List.drop_append_of_le_length (by omega), hlast]
    rfl
  rw [numeric_of_percent hdrop, hsame, numeric_of_percent hhead]

/-- The written form of a unit starts as a name. -/
theorem startsName_unitText {v : List Char} (hv : v ≠ []) (hnul : '\x00' ∉ v) (rest : List Char) :
    startsName (unitText v ++ rest) = true := by
  unfold unitText
  split
  · split
    · rfl
    · exact startsName_escapeIdentifier hv hnul rest
  · exact absurd rfl hv

/-- Behind the number of a dimension there is its unit, as it is written. -/
theorem unit_of_dimension (h : numeric t = (.token .dimension t, t.length)) :
    (t.drop (numeral t).2).head? ≠ some '%' ∧ t.drop (numeral t).2 ≠ [] ∧
      unitText (name (t.drop (numeral t).2)).1 = t.drop (numeral t).2 := by
  rcases numeric_cases t with ⟨-, heq⟩ | ⟨hhead, hname, heq⟩ | ⟨-, -, heq⟩
  · cases heq.symm.trans h
  · obtain ⟨hlexeme, hall⟩ := Prod.mk.inj (heq.symm.trans h)
    injection hlexeme with _ hvalue
    have hall : (name (t.drop (numeral t).2)).2 = (t.drop (numeral t).2).length := by
      rw [List.length_drop]
      omega
    have hsplit := List.take_append_drop (numeral t).2 t
    refine ⟨hhead, fun hnil => ?_, ?_⟩
    · rw [hnil] at hname
      cases hname
    · exact unitText_name_eq (backslash_not_mem_take_numeral t) (backslash_not_mem_numberText _) hall
        (hsplit.trans hvalue.symm)
  · cases heq.symm.trans h

/-- A unit is not written as one letter that starts an exponent. -/
theorem ne_exponent_of_unitText {u : List Char} (h : unitText (name u).1 = u) {c : Char}
    (hc : c = 'e' ∨ c = 'E') : u ≠ [c] := by
  rintro rfl
  have hread : name [c] = ([c], 1) := by
    rcases hc with rfl | rfl <;> simp [name, isPlainInName]
  rw [hread] at h
  rcases hc with rfl | rfl <;> cases h

/-- The text of a dimension reads back in front of a text in which no name goes on. -/
theorem numeric_append_of_dimension (ht : t ≠ []) (h : numeric t = (.token .dimension t, t.length))
    (hrest : EndsName rest) : numeric (t ++ rest) = numeric t := by
  obtain ⟨hhead, hne, hunit⟩ := unit_of_dimension h
  obtain ⟨u, hu⟩ : ∃ u, t.drop (numeral t).2 = u := ⟨_, rfl⟩
  rw [hu] at hhead hne hunit
  have hstarts (more : List Char) : startsName (u ++ more) = true := by
    have hv : (name u).1 ≠ [] := fun hnil => hne (by rw [← hunit, hnil]; rfl)
    have hstarts := startsName_unitText hv (nul_not_mem_name u) more
    rwa [hunit] at hstarts
  have hlt : (numeral t).2 < t.length :=
    Nat.lt_of_not_le fun hle => hne (by rw [← hu, List.drop_eq_nil_iff.2 hle])
  have hsame : numeral (t ++ rest) = numeral t := by
    refine numeral_append ht (isDigit_of_endsName hrest) (fun hwhole => by omega) ?_
    rw [hu]
    rintro (heq | heq)
    · exact absurd heq (ne_exponent_of_unitText hunit (.inl rfl))
    · exact absurd heq (ne_exponent_of_unitText hunit (.inr rfl))
  have hdrop : (t ++ rest).drop (numeral (t ++ rest)).2 = u ++ rest := by
    rw [hsame, List.drop_append_of_le_length (Nat.le_of_lt hlt), hu]
  have hpercent : ((t ++ rest).drop (numeral (t ++ rest)).2).head? ≠ some '%' := by
    obtain ⟨c, u', hcons⟩ := List.exists_cons_of_ne_nil hne
    rw [hdrop, hcons]
    rwa [hcons] at hhead
  have hname : startsName (t.drop (numeral t).2) = true := by
    rw [hu, ← List.append_nil u]
    exact hstarts []
  rw [numeric_of_unit hpercent (by rw [hdrop]; exact hstarts rest), hdrop, hsame,
    name_unit_append hunit hrest, numeric_of_unit (by rwa [hu]) hname, hu]

end ReadBack

end Lexeme

end StyleGate
