import StyleGate.Proofs.Declarations
import StyleGate.Proofs.Rules

/-!
# Values without their positions

Values agree if they are equal once the positions of their tokens are erased
(`ComponentValue.agrees_iff`), and then they stand for the same tokens up to positions. The values of
rules that agree do as well (`Rule.unplaced_body_of_agrees`), so agreeing lists of rules have the same
number of marks.
-/

namespace StyleGate

namespace Token

@[simp] theorem unplaced_kind (t : Token) : t.unplaced.kind = t.kind := rfl

/-- Whitespace is told by the kind of a token alone. -/
theorem marks_map_unplaced (ts : List Token) : marks (ts.map unplaced) = marks ts := by
  simp [marks, List.countP_map, Function.comp_def, isWhitespace]

end Token

namespace ComponentValue

mutual

/-- The value without the positions of its tokens. -/
def unplaced : ComponentValue → ComponentValue
  | token t => token t.unplaced
  | block opener contents => block opener.unplaced (unplacedAll contents)
  | function name contents => function name.unplaced (unplacedAll contents)

/-- The values of a list without the positions of their tokens. -/
def unplacedAll : List ComponentValue → List ComponentValue
  | [] => []
  | v :: rest => v.unplaced :: unplacedAll rest

end

/-- The positions in a list are left out value by value. -/
theorem unplacedAll_eq_map (vs : List ComponentValue) : unplacedAll vs = vs.map unplaced := by
  induction vs with
  | nil => rfl
  | cons v vs ih => simp [unplacedAll, ih]

mutual

/-- Values agree if they differ in positions at most. -/
theorem agrees_iff : ∀ v w : ComponentValue, v.agrees w = true ↔ v.unplaced = w.unplaced
  | token a, token b => by simp [agrees, unplaced, Token.agrees_iff]
  | block a as, block b bs => by
    simp [agrees, unplaced, Token.agrees_iff, agreesAll_iff as bs]
  | function a as, function b bs => by
    simp [agrees, unplaced, Token.agrees_iff, agreesAll_iff as bs]
  | token _, block _ _ | token _, function _ _ | block _ _, token _ | block _ _, function _ _
  | function _ _, token _ | function _ _, block _ _ => by simp [agrees, unplaced]

/-- Lists agree if they are equal without positions. -/
theorem agreesAll_iff : ∀ vs ws : List ComponentValue,
    agreesAll vs ws = true ↔ unplacedAll vs = unplacedAll ws
  | [], [] => by simp [agreesAll, unplacedAll]
  | v :: vs, w :: ws => by simp [agreesAll, unplacedAll, agrees_iff v w, agreesAll_iff vs ws]
  | [], _ :: _ | _ :: _, [] => by simp [agreesAll, unplacedAll]

end

mutual

/-- Without its positions, a value has its tokens without theirs. -/
theorem tokens_unplaced : ∀ v : ComponentValue, v.unplaced.tokens = v.tokens.map Token.unplaced
  | token _ => rfl
  | block opener contents => by
    have hend : (blockEnd opener).unplaced = blockEnd opener.unplaced := rfl
    simp [unplaced, tokens, tokensAll_unplaced contents, hend]
  | function name contents => by
    have hend : functionEnd.unplaced = functionEnd := rfl
    simp [unplaced, tokens, tokensAll_unplaced contents, hend]

/-- Erasing positions goes with laying values out. -/
theorem tokensAll_unplaced : ∀ vs : List ComponentValue,
    tokensAll (unplacedAll vs) = (tokensAll vs).map Token.unplaced
  | [] => rfl
  | v :: vs => by simp [unplacedAll, tokens_unplaced v, tokensAll_unplaced vs]

end

/-- The marks of values do not depend on positions. -/
theorem marks_unplacedAll (vs : List ComponentValue) : marks (unplacedAll vs) = marks vs := by
  rw [marks, tokensAll_unplaced, Token.marks_map_unplaced, marks]

end ComponentValue

namespace Rule

/-- The values of rules that agree differ at most in positions. -/
theorem unplaced_body_of_agrees {r s : Rule} (h : r.agrees s = true) :
    ComponentValue.unplacedAll r.body = ComponentValue.unplacedAll s.body := by
  rw [ComponentValue.unplacedAll_eq_map, ComponentValue.unplacedAll_eq_map]
  cases r with
  | atRule a =>
    cases s with
    | qualified b => cases h
    | atRule b =>
      simp only [agrees, AtRule.agrees, Bool.and_eq_true, beq_iff_eq] at h
      obtain ⟨⟨⟨-, hkeyword⟩, hprelude⟩, hblock⟩ := h
      rw [Token.agrees_iff] at hkeyword
      rw [ComponentValue.agreesAll_iff, ComponentValue.unplacedAll_eq_map,
        ComponentValue.unplacedAll_eq_map] at hprelude
      simp only [body, head, block?, List.map_append, List.map_cons, ComponentValue.unplaced,
        hkeyword, hprelude]
      cases ha : a.block <;> cases hb : b.block <;> simp only [ha, hb] at hblock ⊢
      · cases hblock
      · cases hblock
      · simp [(ComponentValue.agrees_iff _ _).1 hblock]
  | qualified a =>
    cases s with
    | atRule b => cases h
    | qualified b =>
      simp only [agrees, QualifiedRule.agrees, Bool.and_eq_true, beq_iff_eq] at h
      obtain ⟨⟨-, hprelude⟩, hblock⟩ := h
      rw [ComponentValue.agreesAll_iff, ComponentValue.unplacedAll_eq_map,
        ComponentValue.unplacedAll_eq_map] at hprelude
      simp [body, head, block?, hprelude, (ComponentValue.agrees_iff _ _).1 hblock]

/-- Lists of rules that agree have the same number of marks. -/
theorem marks_of_agreesAll {rs ss : List Rule} (h : agreesAll rs ss = true) :
    ComponentValue.marks (rs.flatMap body) = ComponentValue.marks (ss.flatMap body) := by
  induction rs generalizing ss with
  | nil =>
    cases ss with
    | nil => rfl
    | cons => cases h
  | cons r rs ih =>
    cases ss with
    | nil => cases h
    | cons s ss =>
      simp only [agreesAll, Bool.and_eq_true] at h
      have hr := congrArg ComponentValue.marks (unplaced_body_of_agrees h.1)
      rw [ComponentValue.marks_unplacedAll, ComponentValue.marks_unplacedAll] at hr
      rw [List.flatMap_cons, List.flatMap_cons, ComponentValue.marks_append,
        ComponentValue.marks_append, hr, ih h.2]

/-- Every rule agrees with itself. -/
theorem agrees_self (r : Rule) : r.agrees r = true := by
  cases r with
  | atRule r =>
    obtain ⟨comments, keyword, prelude, block⟩ := r
    cases block <;>
      simp [agrees, AtRule.agrees, Block.agrees, ComponentValue.agreesAll_self,
        ComponentValue.agrees_self]
  | qualified r =>
    simp [agrees, QualifiedRule.agrees, Block.agrees, ComponentValue.agreesAll_self,
      ComponentValue.agrees_self]

/-- So does every list of rules. -/
theorem agreesAll_self (rs : List Rule) : agreesAll rs rs = true := by
  induction rs with
  | nil => rfl
  | cons r rs ih => simp [agreesAll, agrees_self, ih]

end Rule

end StyleGate
