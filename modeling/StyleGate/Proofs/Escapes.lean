import StyleGate.Lexeme

/-!
# Escaped text reads back

What `Text.escapeName`, `Text.escapeIdentifier` and `Text.escapeString` write is read as the text it
was written for, whatever follows that does not continue it (`Lexeme.writtenName_escapeIdentifier`,
`Lexeme.quoted_escapeString`). Characters are compared by their codes, so that the classes of
characters become ranges of numbers. The character NUL has no written form; no name that is read has
it (`Lexeme.nul_not_mem_name`).
-/

namespace StyleGate

namespace Text

/-- Characters are ordered by their codes. -/
theorem le_iff_toNat {a b : Char} : a ≤ b ↔ a.toNat ≤ b.toNat := Iff.rfl

/-- Characters with the same code are equal. -/
theorem eq_iff_toNat {a b : Char} : a = b ↔ a.toNat = b.toNat :=
  ⟨fun h => h ▸ rfl, fun h => Char.ext (UInt32.toNat_inj.1 h)⟩

/-- The codes of the characters that stand for themselves in a name. -/
theorem isPlainInName_iff {c : Char} : isPlainInName c = true ↔
    97 ≤ c.toNat ∧ c.toNat ≤ 122 ∨ 65 ≤ c.toNat ∧ c.toNat ≤ 90 ∨ 48 ≤ c.toNat ∧ c.toNat ≤ 57 ∨
      c.toNat = 95 ∨ c.toNat = 45 ∨ 128 ≤ c.toNat := by
  simp only [isPlainInName, Bool.or_eq_true, Bool.and_eq_true, decide_eq_true_eq, beq_iff_eq,
    le_iff_toNat, eq_iff_toNat, Char.reduceToNat]
  omega

/-- The codes of control characters. -/
theorem isControl_iff {c : Char} :
    isControl c = true ↔ 1 ≤ c.toNat ∧ c.toNat ≤ 31 ∨ c.toNat = 127 := by
  simp [isControl]

end Text

/-- The codes of the characters that end a line. -/
theorem isNewline_iff {c : Char} :
    isNewline c = true ↔ c.toNat = 10 ∨ c.toNat = 13 ∨ c.toNat = 12 := by
  simp only [isNewline, Bool.or_eq_true, beq_iff_eq, Text.eq_iff_toNat, Char.reduceToNat]
  omega

namespace Lexeme

open Text

/-! ## Hexadecimal escapes -/

/-- The codes of the characters that start a name. -/
theorem isNameStart_iff {c : Char} : isNameStart c = true ↔
    97 ≤ c.toNat ∧ c.toNat ≤ 122 ∨ 65 ≤ c.toNat ∧ c.toNat ≤ 90 ∨ c.toNat = 95 ∨ c.toNat = 0 ∨
      128 ≤ c.toNat := by
  simp only [isNameStart, Bool.or_eq_true, Bool.and_eq_true, decide_eq_true_eq, beq_iff_eq,
    le_iff_toNat, eq_iff_toNat, Char.reduceToNat]
  omega

/-- A hexadecimal digit is read back. -/
theorem hexValue?_hexDigit : ∀ n, n < 16 → hexValue? (hexDigit n) = some n := by decide

/-- No hexadecimal digit ends a line. -/
theorem isNewline_hexDigit : ∀ n, n < 16 → isNewline (hexDigit n) = false := by decide

/-- Hexadecimal digits stand for themselves in a name. -/
theorem hexValue?_eq_none {c : Char} (h : isPlainInName c = false) : hexValue? c = none := by
  rw [← Bool.not_eq_true, isPlainInName_iff] at h
  simp only [hexValue?, Bool.and_eq_true, decide_eq_true_eq, le_iff_toNat, Char.reduceToNat]
  rw [if_neg (by omega), if_neg (by omega), if_neg (by omega)]

/-- A code other than zero is the code of its character. -/
theorem charOfCode_toNat {c : Char} (h : c.toNat ≠ 0) : charOfCode c.toNat = c := by
  rw [charOfCode, if_pos ⟨h, c.valid⟩, Char.ofNat_toNat]

/-- A text that stands for a character after a backslash, whatever follows. -/
structure StandsFor (w : List Char) (c : Char) : Prop where
  escaped : ∀ rest, escaped (w ++ rest) = (c, w.length)
  continues : ∀ rest, startsNewline (w ++ rest) = false
  nonempty : w ≠ []

/-- A character that is neither a hexadecimal digit nor a line end stands for itself. -/
theorem standsFor_self {c : Char} (hhex : hexValue? c = none) (hnul : c ≠ '\x00')
    (hline : isNewline c = false) : StandsFor [c] c := by
  refine ⟨fun rest => ?_, fun rest => hline, by simp⟩
  simp [Lexeme.escaped, hhex, hnul]

/-- The code of a character stands for the character. -/
theorem standsFor_hexEscape {c : Char} (h : c.toNat ≠ 0) (hlt : c.toNat < 256) :
    ∃ w, hexEscape c = '\\' :: w ∧ StandsFor w c := by
  have hspace : hexValue? ' ' = none := by decide
  unfold hexEscape
  dsimp only
  split
  · next htwo =>
    have hhigh := hexValue?_hexDigit (c.toNat / 16) (by omega)
    have hlow := hexValue?_hexDigit (c.toNat % 16) (by omega)
    have hcode : 16 * (c.toNat / 16) + c.toNat % 16 = c.toNat := by omega
    refine ⟨_, rfl, fun rest => ?_, fun rest => isNewline_hexDigit _ (by omega), by simp⟩
    simp [Lexeme.escaped, hexDigits, hhigh, hlow, hspace, hcode, charOfCode_toNat h, escapeEnd]
  · next hone =>
    have hdigit := hexValue?_hexDigit c.toNat (by omega)
    refine ⟨_, rfl, fun rest => ?_, fun rest => isNewline_hexDigit _ (by omega), by simp⟩
    simp [Lexeme.escaped, hexDigits, hdigit, hspace, charOfCode_toNat h, escapeEnd]

/-! ## Names -/

/-- A text in which no name goes on. -/
def EndsName (rest : List Char) : Prop :=
  ∀ c, rest.head? = some c → isPlainInName c = false ∧ c ≠ '\x00' ∧ c ≠ '\\'

/-- The name in front of a text in which none goes on is empty. -/
theorem name_of_endsName {rest : List Char} (h : EndsName rest) : name rest = ([], 0) := by
  cases rest with
  | nil => rw [name]
  | cons c rest =>
    obtain ⟨hplain, hnul, hback⟩ := h c rfl
    rw [name]
    simp [hplain, hnul, hback]

/-- A text `w` that is read as the piece `v` of a name, whatever follows. -/
def WrittenName (w v : List Char) : Prop :=
  ∀ rest, name (w ++ rest) = (v ++ (name rest).1, w.length + (name rest).2)

/-- Nothing is read as nothing. -/
theorem WrittenName.nil : WrittenName [] [] := by
  intro rest
  simp

/-- Pieces of a name make a piece of a name. -/
theorem WrittenName.append {w w' v v' : List Char} (h : WrittenName w v) (h' : WrittenName w' v') :
    WrittenName (w ++ w') (v ++ v') := by
  intro rest
  rw [List.append_assoc, h, h']
  simp [Nat.add_assoc]

/-- A character that may stand in a name is read as itself. -/
theorem writtenName_self {c : Char} (h : isPlainInName c = true) : WrittenName [c] [c] := by
  have hcode := isPlainInName_iff.1 h
  have hback : c ≠ '\\' := fun heq => by rw [heq] at hcode; simp at hcode
  have hnul : c ≠ '\x00' := fun heq => by rw [heq] at hcode; simp at hcode
  intro rest
  rw [List.singleton_append, name]
  simp [h, hback, hnul]

/-- An escape is read as the character that it stands for. -/
theorem writtenName_escape {w : List Char} {c : Char} (h : StandsFor w c) :
    WrittenName ('\\' :: w) [c] := by
  intro rest
  rw [List.cons_append, name]
  simp [h.continues, h.escaped, Nat.add_comm]

/-- A character by its code is read as a character of a name. -/
theorem writtenName_hexEscape {c : Char} (h : c.toNat ≠ 0) (hlt : c.toNat < 256) :
    WrittenName (hexEscape c) [c] := by
  obtain ⟨w, heq, hw⟩ := standsFor_hexEscape h hlt
  rw [heq]
  exact writtenName_escape hw

/-- How a character of a name is written: as it is, or after a backslash. -/
theorem escapeInName_cases {c : Char} (h : c ≠ '\x00') :
    (escapeInName c = [c] ∧ isPlainInName c = true) ∨
      ∃ w, escapeInName c = '\\' :: w ∧ StandsFor w c := by
  unfold escapeInName
  split
  · next hplain => exact .inl ⟨rfl, hplain⟩
  · next hplain =>
    have hplain : isPlainInName c = false := Bool.eq_false_iff.2 hplain
    split
    · next hnul => exact absurd (by simpa using hnul) h
    · split
      · next hcontrol =>
        have hcontrol := isControl_iff.1 hcontrol
        exact .inr (standsFor_hexEscape (by omega) (by omega))
      · next hcontrol =>
        refine .inr ⟨[c], rfl, standsFor_self (hexValue?_eq_none hplain) h ?_⟩
        rw [isControl_iff] at hcontrol
        rw [← Bool.not_eq_true, isNewline_iff]
        omega

/-- How a first character is written: as it is if it is no digit, or after a backslash. -/
theorem escapeFirst_cases {c : Char} (h : c ≠ '\x00') :
    (escapeFirst c = [c] ∧ (isNameStart c = true ∨ c = '-')) ∨
      ∃ w, escapeFirst c = '\\' :: w ∧ StandsFor w c := by
  unfold escapeFirst
  split
  · next hdigit =>
    simp only [Bool.and_eq_true, decide_eq_true_eq, le_iff_toNat, Char.reduceToNat] at hdigit
    exact .inr (standsFor_hexEscape (by omega) (by omega))
  · next hdigit =>
    simp only [Bool.and_eq_true, decide_eq_true_eq, le_iff_toNat, Char.reduceToNat] at hdigit
    rcases escapeInName_cases h with ⟨hw, hplain⟩ | hescape
    · have hplain := isPlainInName_iff.1 hplain
      refine .inl ⟨hw, ?_⟩
      simp only [isNameStart_iff, eq_iff_toNat, Char.reduceToNat]
      omega
    · exact .inr hescape

/-- What may start a name may stand in it. -/
theorem isPlainInName_of_isNameStart {c : Char} (h : isNameStart c = true) (hnul : c ≠ '\x00') :
    isPlainInName c = true := by
  have hcode := isNameStart_iff.1 h
  have hzero : c.toNat ≠ 0 := fun heq => hnul (eq_iff_toNat.2 heq)
  exact isPlainInName_iff.2 (by omega)

/-- The written form of a character of a name is read as that character. -/
theorem writtenName_escapeInName {c : Char} (h : c ≠ '\x00') :
    WrittenName (escapeInName c) [c] := by
  rcases escapeInName_cases h with ⟨hw, hplain⟩ | ⟨w, hw, hstands⟩
  · rw [hw]
    exact writtenName_self hplain
  · rw [hw]
    exact writtenName_escape hstands

/-- The written form of a first character is read as that character. -/
theorem writtenName_escapeFirst {c : Char} (h : c ≠ '\x00') : WrittenName (escapeFirst c) [c] := by
  rcases escapeFirst_cases h with ⟨hw, hstart | rfl⟩ | ⟨w, hw, hstands⟩
  · rw [hw]
    exact writtenName_self (isPlainInName_of_isNameStart hstart h)
  · exact writtenName_self (by decide)
  · rw [hw]
    exact writtenName_escape hstands

/-- The written form of a name is read as that name. -/
theorem writtenName_escapeName {v : List Char} (h : '\x00' ∉ v) : WrittenName (escapeName v) v := by
  induction v with
  | nil => exact .nil
  | cons c v ih =>
    have hc : c ≠ '\x00' := fun heq => h (heq ▸ .head _)
    have ih := ih fun hmem => h (.tail _ hmem)
    rw [escapeName, List.flatMap_cons]
    exact (writtenName_escapeInName hc).append ih

/-- What is written for an identifier: the first character by its own rule, then a name; in front of
that perhaps a hyphen, or two. -/
theorem escapeIdentifier_eq {v : List Char} (h : v ≠ []) :
    (∃ w, v = '-' :: '-' :: w ∧ escapeIdentifier v = '-' :: '-' :: escapeName w) ∨
      (v = ['-'] ∧ escapeIdentifier v = ['\\', '-']) ∨
      (∃ c w, c ≠ '-' ∧ v = '-' :: c :: w ∧
        escapeIdentifier v = '-' :: (escapeFirst c ++ escapeName w)) ∨
      (∃ c w, c ≠ '-' ∧ v = c :: w ∧ escapeIdentifier v = escapeFirst c ++ escapeName w) := by
  unfold escapeIdentifier
  split
  · exact absurd rfl h
  · next w => exact .inl ⟨w, rfl, rfl⟩
  · exact .inr (.inl ⟨rfl, rfl⟩)
  · next c w hne => exact .inr (.inr (.inl ⟨c, w, fun heq => hne (heq ▸ rfl), rfl, rfl⟩))
  · next c w h1 h2 h3 =>
    refine .inr (.inr (.inr ⟨c, w, fun heq => ?_, rfl, rfl⟩))
    subst heq
    cases w with
    | nil => exact h2 rfl rfl
    | cons d w => exact h3 d w rfl rfl

/-- **Identifiers are read back.** The written form of an identifier is read as that identifier. -/
theorem writtenName_escapeIdentifier {v : List Char} (h : '\x00' ∉ v) :
    WrittenName (escapeIdentifier v) v := by
  have hhyphen : WrittenName ['-'] ['-'] := writtenName_self (by decide)
  by_cases hv : v = []
  · subst hv
    exact .nil
  · rcases escapeIdentifier_eq hv with ⟨w, rfl, heq⟩ | ⟨rfl, heq⟩ | ⟨c, w, -, rfl, heq⟩ |
        ⟨c, w, -, rfl, heq⟩
    · have hw : '\x00' ∉ w := fun hmem => h (.tail _ (.tail _ hmem))
      rw [heq]
      exact hhyphen.append (hhyphen.append (writtenName_escapeName hw))
    · rw [heq]
      exact writtenName_escape (standsFor_self (by decide) (by decide) (by decide))
    · have hc : c ≠ '\x00' := fun heq => h (heq ▸ .tail _ (.head _))
      have hw : '\x00' ∉ w := fun hmem => h (.tail _ (.tail _ hmem))
      rw [heq]
      exact hhyphen.append ((writtenName_escapeFirst hc).append (writtenName_escapeName hw))
    · have hc : c ≠ '\x00' := fun heq => h (heq ▸ .head _)
      have hw : '\x00' ∉ w := fun hmem => h (.tail _ hmem)
      rw [heq]
      exact (writtenName_escapeFirst hc).append (writtenName_escapeName hw)

/-! ## Identifiers start names -/

/-- A character that starts names starts one here. -/
theorem startsName_of_isNameStart {c : Char} (h : isNameStart c = true) (rest : List Char) :
    startsName (c :: rest) = true := by
  unfold startsName
  split
  · next heq =>
    cases heq
    exact absurd h (by decide)
  · next heq =>
    cases heq
    exact absurd h (by decide)
  · next heq =>
    cases heq
    exact h
  · next heq => cases heq

/-- So does an escape. -/
theorem startsName_escape {w : List Char} {c : Char} (h : StandsFor w c) (rest : List Char) :
    startsName ('\\' :: w ++ rest) = true := by
  simp [startsName, h.continues]

/-- The written form of an identifier starts a name. -/
theorem startsName_escapeIdentifier {v : List Char} (hv : v ≠ []) (hnul : '\x00' ∉ v)
    (rest : List Char) : startsName (escapeIdentifier v ++ rest) = true := by
  rcases escapeIdentifier_eq hv with ⟨w, -, heq⟩ | ⟨-, heq⟩ | ⟨c, w, hc, rfl, heq⟩ |
      ⟨c, w, hc, rfl, heq⟩
  · rw [heq]
    rfl
  · rw [heq]
    rfl
  · have hnul : c ≠ '\x00' := fun h => hnul (h ▸ .tail _ (.head _))
    rw [heq]
    rcases escapeFirst_cases hnul with ⟨hw, hstart | rfl⟩ | ⟨w', hw, -⟩
    · simp [hw, startsName, hstart]
    · exact absurd rfl hc
    · simp [hw, startsName]
  · have hnul : c ≠ '\x00' := fun h => hnul (h ▸ .head _)
    rw [heq]
    rcases escapeFirst_cases hnul with ⟨hw, hstart | rfl⟩ | ⟨w', hw, hstands⟩
    · rw [hw, List.singleton_append, List.cons_append]
      exact startsName_of_isNameStart hstart _
    · exact absurd rfl hc
    · rw [hw, List.append_assoc]
      exact startsName_escape hstands _

/-! ## What is read holds no NUL -/

/-- The replacement character is not the one that it replaces. -/
theorem replacement_ne_nul : replacement ≠ '\x00' := by decide

/-- No escape stands for the character with the code zero. -/
theorem charOfCode_ne_nul (n : Nat) : charOfCode n ≠ '\x00' := by
  unfold charOfCode
  split
  · next h =>
    intro heq
    have hcode : (Char.ofNat n).toNat = 0 := by rw [heq]; rfl
    rw [Char.ofNat, dif_pos h.2] at hcode
    exact h.1 hcode
  · exact replacement_ne_nul

/-- What stands after a backslash is never NUL. -/
theorem escaped_ne_nul (text : List Char) : (escaped text).1 ≠ '\x00' := by
  unfold escaped
  split
  · exact replacement_ne_nul
  · split
    · exact charOfCode_ne_nul _
    · split
      · exact replacement_ne_nul
      · next c _ _ _ h => simpa using h

/-- A name that is read holds no NUL. -/
theorem nul_not_mem_name (text : List Char) : '\x00' ∉ (name text).1 := by
  fun_induction name text with
  | case1 | case2 => simp
  | case3 c rest hback hline e n hescaped value taken hname ih =>
    have he := escaped_ne_nul rest
    rw [hescaped] at he
    rw [hname] at ih
    simpa [Ne.symm he] using ih
  | case4 c rest hback hnul value taken hname ih =>
    rw [hname] at ih
    simpa [replacement_ne_nul.symm] using ih
  | case5 c rest hback hnul hplain value taken hname ih =>
    rw [hname] at ih
    have hc : c ≠ '\x00' := by simpa using hnul
    simpa [hc.symm] using ih
  | case6 => simp

/-- A string that is read holds no NUL. -/
theorem nul_not_mem_quoted (quote : Char) (text : List Char) :
    '\x00' ∉ (quoted quote text).1 := by
  fun_induction quoted quote text with
  | case1 | case2 | case3 | case4 => simp
  | case5 c rest hquote hline hback hempty hstart n value broken taken hquoted ih =>
    rwa [hquoted] at ih
  | case6 c rest hquote hline hback hempty hstart e n hescaped value broken taken hquoted ih =>
    have he := escaped_ne_nul rest
    rw [hescaped] at he
    rw [hquoted] at ih
    simpa [Ne.symm he] using ih
  | case7 c rest hquote hline hback value broken taken hquoted ih =>
    rw [hquoted] at ih
    refine List.not_mem_cons_of_ne_of_not_mem ?_ ih
    split
    · exact replacement_ne_nul.symm
    · next hnul =>
      have hc : c ≠ '\x00' := by simpa using hnul
      exact hc.symm

/-- Nothing but blanks follows the first blank of a url. -/
theorem urlTail_eq_closed {text value : List Char} {taken : Nat}
    (h : urlTail text = .closed value taken) : value = [] := by
  fun_induction urlTail text generalizing value taken with
  | case1 | case2 => cases h; rfl
  | case3 c rest hclose hspace inner n hinner ih =>
    cases h
    exact ih hinner
  | case4 | case5 => cases h

/-- A url that closes behind one more character closes without it too. -/
theorem cons_eq_closed {c : Char} {n taken : Nat} {value : List Char} {e : UrlEnd}
    (h : e.cons c n = .closed value taken) :
    ∃ inner m, e = .closed inner m ∧ value = c :: inner := by
  cases e with
  | closed inner m =>
    cases h
    exact ⟨inner, m, rfl, rfl⟩
  | spoilt => cases h

/-- A url that is read holds no NUL. -/
theorem nul_not_mem_urlBody {text value : List Char} {taken : Nat}
    (h : urlBody text = .closed value taken) : '\x00' ∉ value := by
  fun_induction urlBody text generalizing value taken with
  | case1 | case2 => cases h; simp
  | case3 => simp [urlTail_eq_closed h]
  | case4 | case5 => cases h
  | case6 c rest hclose hspace hspoils hback hline e n hescaped ih =>
    obtain ⟨inner, m, hinner, rfl⟩ := cons_eq_closed h
    have he := escaped_ne_nul rest
    rw [hescaped] at he
    exact List.not_mem_cons_of_ne_of_not_mem he.symm (ih hinner)
  | case7 c rest hclose hspace hspoils hback ih =>
    obtain ⟨inner, m, hinner, rfl⟩ := cons_eq_closed h
    refine List.not_mem_cons_of_ne_of_not_mem ?_ (ih hinner)
    split
    · exact replacement_ne_nul.symm
    · next hnul =>
      have hc : c ≠ '\x00' := by simpa using hnul
      exact hc.symm

/-! ## Strings -/

/-- How a character is written between double quotes: after a backslash, or as it is. -/
theorem escapeInString_cases {c : Char} (h : c ≠ '\x00') :
    (∃ w, escapeInString c = '\\' :: w ∧ StandsFor w c) ∨
      (escapeInString c = [c] ∧ c ≠ '"' ∧ c ≠ '\\' ∧ isNewline c = false) := by
  have hcode : c.toNat ≠ 0 := fun heq => h (eq_iff_toNat.2 heq)
  unfold escapeInString
  split
  · next hquote =>
    simp only [Bool.or_eq_true, beq_iff_eq] at hquote
    refine .inl ⟨[c], rfl, standsFor_self ?_ h ?_⟩
    · rcases hquote with rfl | rfl <;> decide
    · rcases hquote with rfl | rfl <;> decide
  · next hquote =>
    simp only [Bool.or_eq_true, beq_iff_eq, not_or] at hquote
    split
    · next hnul => exact absurd (by simpa using hnul) h
    · split
      · next hcontrol =>
        have hcontrol := isControl_iff.1 hcontrol
        exact .inl (standsFor_hexEscape hcode (by omega))
      · next hcontrol =>
        refine .inr ⟨rfl, hquote.1, hquote.2, ?_⟩
        rw [isControl_iff] at hcontrol
        rw [← Bool.not_eq_true, isNewline_iff]
        omega

/-- **Strings are read back.** The written form of a string is read as that string, whatever
follows. -/
theorem quoted_escapeString {v : List Char} (h : '\x00' ∉ v) (rest : List Char) :
    quoted '"' (v.flatMap escapeInString ++ '"' :: rest) =
      (v, false, (v.flatMap escapeInString).length + 1) := by
  induction v with
  | nil =>
    rw [List.flatMap_nil, List.nil_append, quoted]
    simp
  | cons c v ih =>
    have hc : c ≠ '\x00' := fun heq => h (heq ▸ .head _)
    have ih := ih fun hmem => h (.tail _ hmem)
    rw [List.flatMap_cons, List.append_assoc, List.length_append, Nat.add_assoc]
    rcases escapeInString_cases hc with ⟨w, heq, hw⟩ | ⟨heq, hquote, hback, hline⟩
    · have hne := hw.nonempty
      rw [heq, List.cons_append, quoted]
      simp [isNewline, hw.continues, hw.escaped, ih, hne]
      omega
    · rw [heq, List.singleton_append, quoted]
      simp [hquote, hback, hline, hc, ih]

end Lexeme

end StyleGate
