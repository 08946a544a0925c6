/-!
# Letter case in ASCII

Names in stylesheets and policies are compared without regard to the case of the letters `A` to
`Z`; all other characters compare as they are. `sameFolded` is that comparison, and `sameFolded_iff`
says that it is equality of the folded texts.
-/

namespace StyleGate.Text

/-- The lower-case form of an ASCII capital; any other character is its own form. -/
def foldChar (c : Char) : Char :=
  if 'A' ≤ c ∧ c ≤ 'Z' then Char.ofNat (c.toNat + 32) else c

/-- A text with its ASCII capitals in lower case. -/
def folded (s : String) : String := String.ofList (s.toList.map foldChar)

/-- Equality up to the case of ASCII letters. -/
def sameFolded (a b : String) : Bool := a.toList.map foldChar == b.toList.map foldChar

/-- Whether a list holds a name, up to the case of ASCII letters. -/
def containsFolded (names : List String) (name : String) : Bool := names.any (sameFolded · name)

/-- Two names are the same if they are so in lower case. -/
theorem sameFolded_iff {a b : String} : sameFolded a b = true ↔ folded a = folded b := by
  simp only [sameFolded, folded, beq_iff_eq]
  exact ⟨fun h => by rw [h], fun h => by simpa using congrArg String.toList h⟩

@[simp] theorem sameFolded_self (a : String) : sameFolded a a = true := by simp [sameFolded]

/-- A name is in a list if, in lower case, it is one of those in the list. -/
theorem containsFolded_iff {names : List String} {name : String} :
    containsFolded names name = true ↔ folded name ∈ names.map folded := by
  simp only [containsFolded, List.any_eq_true, sameFolded_iff, List.mem_map]

end StyleGate.Text
