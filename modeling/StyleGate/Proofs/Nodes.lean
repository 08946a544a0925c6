import StyleGate.Node.Edit
import StyleGate.Proofs.Faults
import StyleGate.Proofs.Flattening

/-!
# Well-formed nodes

The constructors of groups, declarations and rules look at the kinds of the tokens that they are given.
A node is formed if it could be built by them, with the parts of it (`Node.Formed`). Then the token behind
a block is the bracket that matches its opening one, as the printer takes for granted.

The block of a rule should be in braces. What may open it is a parameter here: any bracket, or a brace
alone. Either way a formed rule ends in a semicolon or a right brace exactly if its block is in braces
(`Rule.Formed.getLast?_tokens`).
-/

namespace StyleGate

open ComponentValue (blockEnd)

/-! ## Well-formed nodes -/

/-- A declaration as it can be built: it starts with an identifier. -/
structure Declaration.Formed (d : Declaration) : Prop where
  name : d.name.kind = .ident
  value : ∀ v ∈ d.value, v.Formed

/-- A block with an opening token of one of some kinds. -/
structure Block.Formed (openers : TokenKind → Prop) (b : Block) : Prop where
  opener : openers b.opener.kind
  contents : ∀ v ∈ b.contents, v.Formed

/-- An at-rule as it can be built: it starts with an at-keyword. -/
structure AtRule.Formed (openers : TokenKind → Prop) (r : AtRule) : Prop where
  keyword : r.keyword.kind = .atKeyword
  prelude : ∀ v ∈ r.prelude, v.Formed
  block : ∀ b, r.block = some b → b.Formed openers

/-- A qualified rule as it can be built. -/
structure QualifiedRule.Formed (openers : TokenKind → Prop) (r : QualifiedRule) : Prop where
  prelude : ∀ v ∈ r.prelude, v.Formed
  block : r.block.Formed openers

/-- A rule as it can be built. -/
def Rule.Formed (openers : TokenKind → Prop) : Rule → Prop
  | atRule r => r.Formed openers
  | qualified r => r.Formed openers

/-- A node as it can be built. The blocks of rules in it have an opening token of one of some kinds. -/
def Node.Formed (openers : TokenKind → Prop) : Node → Prop
  | token _ => True
  | block b => b.value.Formed
  | function f => f.value.Formed
  | values vs => ∀ v ∈ vs, v.Formed
  | declaration d => d.Formed
  | declarations ds => ∀ d ∈ ds, d.Formed
  | rule r => r.Formed openers
  | rules rs => ∀ r ∈ rs, r.Formed openers

/-- The block of the rule is in braces, if it has one. -/
def Rule.Braced (r : Rule) : Prop := ∀ b, r.block? = some b → b.isBraces = true

/-- The values that a node consists of, from the outside. -/
def Node.outerValues : Node → List ComponentValue
  | token t => [.token t]
  | block b => [b.value]
  | function f => [f.value]
  | values vs => vs
  | declaration d => d.value
  | declarations ds => ds.flatMap Declaration.value
  | rule r => r.values
  | rules rs => rs.flatMap Rule.values

/-- The rules in a node. -/
def Node.rulesIn : Node → List Rule
  | rule r => [r]
  | rules rs => rs
  | _ => []

namespace TokenKind

/-- The brackets, each with the one that closes it. -/
def brackets : List (TokenKind × TokenKind) :=
  [(leftBrace, rightBrace), (leftBracket, rightBracket), (leftParen, rightParen)]

/-- Whether a token of this kind opens a block. -/
def IsBracket (kind : TokenKind) : Prop := kind.bracketCloser?.isSome = true

/-- Kinds of token that may open the block of a rule: brackets only, and a left brace among them. -/
structure Openers (openers : TokenKind → Prop) : Prop where
  brackets : ∀ kind, openers kind → kind.IsBracket
  leftBrace : openers leftBrace

/-- All brackets may open the blocks of rules. -/
theorem openers_isBracket : Openers IsBracket := ⟨fun _ h => h, rfl⟩

/-- So may left braces alone. -/
theorem openers_leftBrace : Openers (· = leftBrace) := ⟨by rintro _ rfl; rfl, rfl⟩

/-- A kind of bracket goes with the kind of the token that is put behind its block. -/
theorem mem_brackets {opener : Token} (h : opener.kind.IsBracket) :
    (opener.kind, (blockEnd opener).kind) ∈ brackets := by
  revert h
  unfold IsBracket blockEnd
  cases opener.kind <;> decide

end TokenKind

namespace ComponentValue.Formed

variable {v : ComponentValue} {opener : Token} {contents : List ComponentValue}

/-- What a formed value holds is formed. -/
theorem of_mem_contents (h : v.Formed) : ∀ w ∈ v.contents, w.Formed := by
  cases h with
  | token => exact List.forall_mem_nil _
  | block _ hcontents => exact hcontents
  | function _ hcontents => exact hcontents

/-- All values in a formed value are formed. -/
theorem of_mem_occurrences (h : v.Formed) (around : List ComponentValue) :
    ∀ o ∈ v.occurrences around, o.node.Formed := by
  induction v using induct_contents generalizing around with
  | step v ih =>
    intro o ho
    rw [occurrences_eq, List.mem_cons, List.mem_flatMap] at ho
    obtain rfl | ⟨w, hw, ho⟩ := ho
    · exact h
    · exact ih w hw (h.of_mem_contents w hw) _ o ho

/-- A formed block starts with a bracket. -/
theorem isBracket (h : (ComponentValue.block opener contents).Formed) : opener.kind.IsBracket := by
  cases h with
  | block hopener _ => exact hopener

/-- A formed block stays so with other contents. -/
theorem block_contents {b : Block} (h : b.value.Formed) (hcontents : ∀ v ∈ contents, v.Formed) :
    ({ b with contents } : Block).value.Formed :=
  .block h.isBracket hcontents

/-- A formed function stays so with other contents. -/
theorem function_contents {f : FunctionCall} (h : f.value.Formed)
    (hcontents : ∀ v ∈ contents, v.Formed) : ({ f with contents } : FunctionCall).value.Formed := by
  cases h with
  | function hname _ => exact .function hname hcontents

end ComponentValue.Formed

variable {openers : TokenKind → Prop}

namespace Block

variable {b : Block}

/-- A block is in braces if a left brace opens it. -/
theorem isBraces_iff : b.isBraces = true ↔ b.opener.kind = .leftBrace := by
  simp [isBraces]

/-- A block that a bracket opens is a formed value. -/
theorem Formed.value (h : b.Formed openers) (ho : TokenKind.Openers openers) : b.value.Formed :=
  .block (ho.brackets _ h.opener) h.contents

/-- A block in braces may be the block of a rule. -/
theorem Formed.of_isBraces (hbraces : b.isBraces = true) (hb : b.value.Formed)
    (ho : TokenKind.Openers openers) : b.Formed openers :=
  ⟨isBraces_iff.1 hbraces ▸ ho.leftBrace, hb.of_mem_contents⟩

/-- A block that a bracket opens ends in a right brace exactly if it is in braces. It never ends in a
semicolon. -/
theorem kind_closer_iff (h : b.opener.kind.IsBracket) :
    b.closer.kind = .semicolon ∨ b.closer.kind = .rightBrace ↔ b.isBraces = true := by
  rw [isBraces_iff, closer]
  revert h
  unfold TokenKind.IsBracket blockEnd
  cases b.opener.kind <;> decide

/-- The last token of a block is the one that closes it. -/
theorem getLast?_tokens (b : Block) : b.tokens.getLast? = some b.closer := by
  rw [tokens, value, ComponentValue.tokens, ← List.cons_append, List.getLast?_concat]
  rfl

end Block

namespace Rule

variable {r : Rule}

/-- The tokens of a rule are its comments, what stands in front of its ending, and its ending. -/
theorem tokens_eq (r : Rule) :
    r.tokens = commentTokens r.comments ++ ComponentValue.tokensAll r.head ++ r.ending.tokens := by
  cases r with
  | atRule r =>
    simp only [tokens, AtRule.tokens, comments, head, ending, block?]
    cases r.block <;> simp [ComponentValue.tokens, Block.tokens]
  | qualified r =>
    simp [tokens, QualifiedRule.tokens, comments, head, ending, block?, Block.tokens]

/-- The block of a formed rule has an opening token of one of the kinds. -/
theorem Formed.block (h : r.Formed openers) : ∀ b, r.block? = some b → b.Formed openers := by
  cases r with
  | atRule r => exact AtRule.Formed.block h
  | qualified r =>
    rintro _ ⟨⟩
    exact QualifiedRule.Formed.block h

/-- The prelude of a formed rule is formed. -/
theorem Formed.prelude (h : r.Formed openers) : ∀ v ∈ r.prelude, v.Formed := by
  cases r with
  | atRule r => exact AtRule.Formed.prelude h
  | qualified r => exact QualifiedRule.Formed.prelude h

/-- If only braces may open its block, a formed rule is braced. -/
theorem Formed.braced (h : r.Formed (· = .leftBrace)) : r.Braced := fun b hb =>
  Block.isBraces_iff.2 (h.block b hb).opener

/-- The values of a formed rule are formed. -/
theorem Formed.values (h : r.Formed openers) (ho : TokenKind.Openers openers) :
    ∀ v ∈ r.values, v.Formed := by
  have hhead : ∀ v ∈ r.head, v.Formed := by
    cases r with
    | atRule r => exact List.forall_mem_cons.2 ⟨.token, AtRule.Formed.prelude h⟩
    | qualified r => exact QualifiedRule.Formed.prelude h
  have hending : r.ending.Formed := by
    unfold ending
    cases hblock : r.block? with
    | none => exact .token
    | some b => exact (h.block b hblock).value ho
  exact List.forall_mem_append.2 ⟨hhead, List.forall_mem_singleton.2 hending⟩

/-- The last token of a formed rule is a semicolon or a right brace exactly if its block, where it has
one, is in braces. -/
theorem Formed.getLast?_tokens (h : r.Formed openers) (ho : TokenKind.Openers openers) :
    ∃ t, r.tokens.getLast? = some t ∧ (t.kind = .semicolon ∨ t.kind = .rightBrace ↔ r.Braced) := by
  have hending : ∃ t, r.ending.tokens.getLast? = some t ∧
      (t.kind = .semicolon ∨ t.kind = .rightBrace ↔ r.Braced) := by
    unfold ending Braced
    cases hblock : r.block? with
    | none => exact ⟨Token.of .semicolon "", rfl, by simp [Token.of]⟩
    | some b =>
      refine ⟨b.closer, b.getLast?_tokens, ?_⟩
      rw [Block.kind_closer_iff (ho.brackets _ (h.block b hblock).opener)]
      simp
  obtain ⟨t, hlast, hkind⟩ := hending
  exact ⟨t, by rw [tokens_eq, List.getLast?_append, hlast, Option.some_or], hkind⟩

end Rule

namespace Node

variable {n : Node}

/-- The rules in a formed node are formed. -/
theorem Formed.rulesIn (h : n.Formed openers) : ∀ r ∈ n.rulesIn, r.Formed openers := by
  cases n with
  | rule r => exact List.forall_mem_singleton.2 h
  | rules rs => exact h
  | _ => exact List.forall_mem_nil _

/-- A formed node consists of formed values. -/
theorem Formed.outerValues (h : n.Formed openers) (ho : TokenKind.Openers openers) :
    ∀ v ∈ n.outerValues, v.Formed := by
  cases n with
  | token t => exact List.forall_mem_singleton.2 .token
  | block b => exact List.forall_mem_singleton.2 h
  | function f => exact List.forall_mem_singleton.2 h
  | values vs => exact h
  | declaration d => exact Declaration.Formed.value h
  | declarations ds => exact List.forall_mem_flatMap.2 fun d hd => (h d hd).value
  | rule r => exact Rule.Formed.values h ho
  | rules rs => exact List.forall_mem_flatMap.2 fun r hr => (h r hr).values ho

/-! ### Parts of formed nodes -/

/-- What a formed node is seen as is formed. -/
theorem Formed.value? (h : n.Formed openers) : ∀ v, n.value? = some v → v.Formed := by
  cases n with
  | token t => rintro _ ⟨⟩; exact .token
  | block b => rintro _ ⟨⟩; exact h
  | function f => rintro _ ⟨⟩; exact h
  | _ => rintro _ ⟨⟩

/-- The list of values that a formed node holds is formed. -/
theorem Formed.values? (h : n.Formed openers) :
    ∀ vs, n.values? = some vs → ∀ v ∈ vs, v.Formed := by
  cases n with
  | block b => rintro _ ⟨⟩; exact ComponentValue.Formed.of_mem_contents h
  | function f => rintro _ ⟨⟩; exact ComponentValue.Formed.of_mem_contents h
  | values vs => rintro _ ⟨⟩; exact h
  | declaration d => rintro _ ⟨⟩; exact Declaration.Formed.value h
  | rule r => rintro _ ⟨⟩; exact Rule.Formed.prelude h
  | _ => rintro _ ⟨⟩

/-- A formed node that is a block, or has one, has a formed one. -/
theorem Formed.block? (h : n.Formed openers) (ho : TokenKind.Openers openers) :
    ∀ b, n.block? = some b → b.value.Formed := by
  cases n with
  | block b => rintro _ ⟨⟩; exact h
  | rule r => exact fun b hb => (Rule.Formed.block h b hb).value ho
  | _ => rintro _ ⟨⟩

/-- A formed node that is a declaration is a formed one. -/
theorem Formed.declaration? (h : n.Formed openers) : ∀ d, n.declaration? = some d → d.Formed := by
  cases n with
  | declaration d => rintro _ ⟨⟩; exact h
  | _ => rintro _ ⟨⟩

/-- A formed node that is a list of declarations holds formed ones. -/
theorem Formed.declarations? (h : n.Formed openers) :
    ∀ ds, n.declarations? = some ds → ∀ d ∈ ds, d.Formed := by
  cases n with
  | declarations ds => rintro _ ⟨⟩; exact h
  | _ => rintro _ ⟨⟩

/-- A formed node that is a rule is a formed one. -/
theorem Formed.rule? (h : n.Formed openers) : ∀ r, n.rule? = some r → r.Formed openers := by
  cases n with
  | rule r => rintro _ ⟨⟩; exact h
  | _ => rintro _ ⟨⟩

/-- A formed node that is a list of rules holds formed ones. -/
theorem Formed.rules? (h : n.Formed openers) :
    ∀ rs, n.rules? = some rs → ∀ r ∈ rs, r.Formed openers := by
  cases n with
  | rules rs => rintro _ ⟨⟩; exact h
  | _ => rintro _ ⟨⟩

/-- The node of a formed value is formed. -/
theorem formed_ofValue {v : ComponentValue} (h : v.Formed) : (ofValue v).Formed openers := by
  cases v with
  | token t => trivial
  | block opener contents => exact h
  | function name contents => exact h

/-- The members of a formed node are formed. -/
theorem Formed.members (h : n.Formed openers) : ∀ m ∈ n.members, m.Formed openers := by
  have hvalues : ∀ m ∈ (n.values?.getD []).map ofValue, m.Formed openers := by
    cases hvs : n.values? with
    | none => exact List.forall_mem_nil _
    | some vs => exact List.forall_mem_map.2 fun v hv => formed_ofValue (h.values? vs hvs v hv)
  cases n with
  | declarations ds => exact List.forall_mem_map.2 h
  | rules rs => exact List.forall_mem_map.2 h
  | _ => exact hvalues

/-- A formed node stays so with other formed values. -/
theorem Formed.withValues {vs : List ComponentValue} (h : n.Formed openers)
    (hvs : ∀ v ∈ vs, v.Formed) : (n.withValues vs).Formed openers := by
  cases n with
  | block b => exact ComponentValue.Formed.block_contents h hvs
  | function f => exact ComponentValue.Formed.function_contents h hvs
  | values _ => exact hvs
  | declaration d => exact { h with value := hvs }
  | rule r =>
    cases r with
    | atRule r => exact { h with prelude := hvs }
    | qualified r => exact { h with prelude := hvs }
  | _ => exact h

end Node

end StyleGate
