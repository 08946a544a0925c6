import StyleGate.Proofs.Declarations
import StyleGate.Proofs.Descent.Declarations

/-!
# Descent never breaks down

Descent is the parser with its invariants made visible: it counts on them, and would break down where one
does not hold, or run out of fuel where a token is read again and again. Neither happens
(`Parser.descendAll_eq`), for any tokens at all and any calls one after another, since descent answers each
call as the parser does (`Call.descend_eq`).
-/

namespace StyleGate

/-! ## Nested groups -/

namespace ComponentValue

mutual

/-- How many groups lie in each other in a value. -/
def nesting : ComponentValue → Nat
  | token _ => 0
  | block _ contents => nestingAll contents + 1
  | function _ contents => nestingAll contents + 1

/-- How many groups lie in each other in the values of a list. -/
def nestingAll : List ComponentValue → Nat
  | [] => 0
  | v :: rest => max v.nesting (nestingAll rest)

end

/-- A list is nested as deep as its members are. -/
theorem nestingAll_le {vs : List ComponentValue} {n : Nat} (h : ∀ v ∈ vs, v.nesting ≤ n) :
    nestingAll vs ≤ n := by
  induction vs with
  | nil => exact Nat.zero_le n
  | cons v vs ih =>
    obtain ⟨hv, hvs⟩ := List.forall_mem_cons.1 h
    exact Nat.max_le.2 ⟨hv, ih hvs⟩

/-- In a value that is regular inside `depth` groups there are no more than may lie in those. -/
theorem Regular.nesting_le {depth : Nat} {closer : Option TokenKind} {v : ComponentValue}
    (h : v.Regular depth closer) : v.nesting ≤ maxGroupDepth - depth := by
  induction h with
  | token _ _ => exact Nat.zero_le _
  | block _ hdepth _ ih | function _ hdepth _ ih =>
    have hcontents := nestingAll_le ih
    rw [nesting]
    omega

end ComponentValue

/-- The values of what was read, with the blocks of rules among them. -/
def Answer.parts : Answer → List ComponentValue
  | rules rs => rs.flatMap Rule.body
  | declarations ds => ds.flatMap Declaration.value
  | values vs => vs

/-! ## Calls -/

/-- The start of a descent over the tokens of a parser. -/
def Descent.Cursor.ofParser (p : Parser) : Descent.Cursor := { pending := p.pending, errors := p.errors }

namespace Call

/-- A descent answers a call as the parser does, and records what the parser records. -/
theorem descend_eq {fuel : Nat} (call : Call) (p : Parser) (hfuel : p.pending.length < fuel) :
    call.descend fuel (.ofParser p) = some (.ok ((call.ask p).1, .ofParser (call.ask p).2)) := by
  have hmap : ∀ {α : Type} {m : Descent α} {a : α} {ds : List Diagnostic} (f : α → Answer),
      Descent.Reads m p.pending 0 a ds [] 0 → Descent.Reads (f <$> m) p.pending 0 (f a) ds [] 0 := by
    intro α m a ds f h
    rw [map_eq_pure_bind]
    exact h.before (.pure _)
  cases call with
  | stylesheet => exact hmap .rules (Descent.reads_rules true hfuel) p.errors
  | rules => exact hmap .rules (Descent.reads_rules false hfuel) p.errors
  | declarations => exact hmap .declarations (Descent.reads_declarations hfuel) p.errors
  | values => exact hmap .values (Descent.reads_values hfuel) p.errors

/-- A parser that holds nothing finds nothing and records nothing. -/
theorem ask_nil (call : Call) (errors : List Diagnostic) :
    call.ask { pending := [], errors } = (call.nothing, { pending := [], errors }) := by
  have hnone : errors ++ [] = errors := List.append_nil errors
  cases call <;> exact Prod.ext rfl (congrArg (Parser.mk []) hnone)

/-- A call takes all tokens. -/
theorem pending_ask (call : Call) (p : Parser) : (call.ask p).2.pending = [] := by
  cases call <;> rfl

/-- What a parser reads holds no more groups in each other than there may be. -/
theorem nesting_le_of_mem_ask (call : Call) (p : Parser) :
    ∀ v ∈ (call.ask p).1.parts, v.nesting ≤ maxGroupDepth := by
  have hvalues := ComponentValue.regular_readAll p.pending
  have hrules : ∀ topLevel, ∀ v ∈ (Rule.readAll topLevel p.pending).1.flatMap Rule.body,
      v.Regular 0 none := by
    intro topLevel v hv
    obtain ⟨r, hr, hv⟩ := List.mem_flatMap.1 hv
    exact Rule.forall_body_ofValues hvalues r hr v hv
  have hdeclarations : ∀ v ∈ (Declaration.readAll p.pending).1.flatMap Declaration.value,
      v.Regular 0 none := by
    intro v hv
    obtain ⟨d, hd, hv⟩ := List.mem_flatMap.1 hv
    exact (Declaration.sound_ofGroups (Grouping.regular_ofTokens p.pending) d hd).2.value v hv
  intro v hv
  cases call with
  | stylesheet => exact (hrules true v hv).nesting_le
  | rules => exact (hrules false v hv).nesting_le
  | declarations => exact (hdeclarations v hv).nesting_le
  | values => exact (hvalues v hv).nesting_le

/-- Calls that find nothing answer so, one after another. -/
theorem descendAll_nil {fuel : Nat} (hfuel : 0 < fuel) (calls : List Call) (errors : List Diagnostic) :
    descendAll fuel calls { pending := [], errors } =
      some (.ok (calls.map nothing, { pending := [], errors })) := by
  induction calls with
  | nil => rfl
  | cons call calls ih =>
    have hcall : call.descend fuel { pending := [], errors } =
        some (.ok (call.nothing, { pending := [], errors })) := by
      have hdescend := call.descend_eq { pending := [], errors } hfuel
      rw [ask_nil] at hdescend
      exact hdescend
    rw [descendAll, Descent.bind_apply hcall, Descent.bind_apply ih]
    rfl

end Call

/-- **The parser never breaks its invariants.** Whatever tokens a parser holds and whatever it is asked to
read them as, again and again, a descent over these tokens comes to an end without a breakdown, on fuel for
one token more than there are. The first call takes all tokens: it answers and records what the parser does,
no token is left or put back, and no group is being read. All later calls find nothing and record nothing.
And no more groups lie in each other in what was read than there may be, the blocks of rules among them. -/
theorem Parser.descendAll_eq (p : Parser) (first : Call) (later : List Call) {fuel : Nat}
    (hfuel : p.pending.length < fuel) :
    first.descend fuel (.ofParser p) =
        some (.ok ((first.ask p).1,
          { pending := [], putBack := none, errors := (first.ask p).2.errors, depth := 0 })) ∧
      Call.descendAll fuel (first :: later) (.ofParser p) =
        some (.ok ((first.ask p).1 :: later.map Call.nothing,
          { pending := [], putBack := none, errors := (first.ask p).2.errors, depth := 0 })) ∧
      ∀ v ∈ (first.ask p).1.parts, v.nesting ≤ maxGroupDepth := by
  have hfirst : first.descend fuel (.ofParser p) =
      some (.ok ((first.ask p).1, { pending := [], errors := (first.ask p).2.errors })) := by
    rw [first.descend_eq p hfuel, Descent.Cursor.ofParser, first.pending_ask p]
  refine ⟨hfirst, ?_, first.nesting_le_of_mem_ask p⟩
  rw [Call.descendAll, Descent.bind_apply hfirst,
    Descent.bind_apply (Call.descendAll_nil (Nat.zero_lt_of_lt hfuel) later _)]
  rfl

/-- Brackets that do not fit together are read as far as they go, and are gone after that. -/
theorem Parser.descendAll_eq_brackets :
    let opened : Token := { kind := .leftBrace, position := ⟨1, 1⟩ }
    let inner : Token := { kind := .leftBracket, position := ⟨1, 2⟩ }
    let closed : Token := { kind := .rightParen, position := ⟨1, 3⟩ }
    Call.descendAll 4 [.values, .stylesheet] { pending := [opened, inner, closed] } =
      some (.ok ([.values [.block opened [.block inner [.token closed]]], .rules []],
        { pending := [], errors := [⟨Diagnostic.unexpectedEofInBlock, ⟨1, 2⟩⟩,
            ⟨Diagnostic.unexpectedEofInBlock, ⟨1, 1⟩⟩] })) := by
  intro opened inner closed
  exact (descendAll_eq { pending := [opened, inner, closed] } .values [.stylesheet] (by decide)).2.1

end StyleGate
