import StyleGate.Node
import StyleGate.Parser
import StyleGate.Proofs.Lossless
import StyleGate.Proofs.Values

/-!
# Accepted values, laid out and read again

Values are judged by their shape, and a list of values that was built by hand need not have the shape
that its tokens are read as. A plain token may open a group: the gate refuses a plain `{` and all plain
closing brackets, but not the plain tokens `(` and `[`, nor a function's name. And `url` with its string
is a group for whoever reads it, but the gate does not count it as one.

So a law holds only in part: accepted values are accepted again if they are laid out as tokens and
these are read. It holds exactly of the lists that have the shape of values that were read
(`ValuePolicy.acceptsReread_iff`), and of a list of any other shape reading reports something. Opening
tokens are counted against closing ones (`Token.balance`): as all plain closing tokens are refused,
nothing in an accepted list closes what a plain token opens. What is left is depth
(`Grouping.regular_of_quiet`).
-/

namespace StyleGate

open ComponentValue (tokensAll readAll)

/-! ## Counting opening and closing tokens -/

namespace Token

/-- What a token adds to the number of open groups at least. -/
def weight (t : Token) : Int :=
  if t.kind.opensGroup then 1 else if t.kind.closesGroup then -1 else 0

/-- How many more tokens open a group than are closing brackets. -/
def balance : List Token → Int
  | [] => 0
  | t :: ts => t.weight + balance ts

@[simp] theorem balance_nil : balance [] = 0 := rfl

@[simp] theorem balance_cons (t : Token) (ts : List Token) :
    balance (t :: ts) = t.weight + balance ts := rfl

@[simp] theorem balance_append (ts us : List Token) :
    balance (ts ++ us) = balance ts + balance us := by
  induction ts with
  | nil => simp
  | cons t ts ih => rw [List.cons_append, balance_cons, balance_cons, ih, Int.add_assoc]

/-- A token ends one group at most, and only if it is a closing bracket. -/
theorem weight_le (openers : List Token) (t : Token) :
    openers.length + t.weight ≤ (openAfter openers t).length := by
  unfold weight openAfter
  cases hopens : t.kind.opensGroup with
  | true =>
    rw [endsGroup_of_opensGroup hopens]
    simp
  | false =>
    cases hends : endsGroup openers t with
    | true =>
      rw [closesGroup_of_endsGroup hends]
      simp
      omega
    | false =>
      simp only [Bool.false_eq_true, if_false]
      split <;> omega

/-- Behind tokens at least as many groups are open as more of them open one than close one. -/
theorem balance_le (openers ts : List Token) :
    openers.length + balance ts ≤ (ts.foldl openAfter openers).length := by
  induction ts generalizing openers with
  | nil => simp
  | cons t ts ih =>
    have hfirst := weight_le openers t
    have hrest := ih (openAfter openers t)
    rw [balance_cons, List.foldl_cons]
    omega

end Token

/-! ## Values without plain brackets -/

/-- What is in a permitted group is permitted on its own. -/
theorem ValuePolicy.Permits.of_close {p : ValuePolicy} {g : OpenGroup} (h : p.Permits g.close) :
    ∀ v ∈ g.contents, p.Permits v := by
  intro v hv
  have hv : v ∈ g.contents.reverse := List.mem_reverse.2 hv
  unfold OpenGroup.close at h
  split at h
  · cases h with
    | url _ _ hcontents =>
      obtain ⟨t, rfl, ht⟩ := hcontents.plain v hv
      refine .token ?_ fun hurl => ?_
      · rcases ht with ht | ht <;> rw [ht] <;> rfl
      · rw [hurl] at ht
        rcases ht with ht | ht <;> cases ht
    | function _ _ hcontents => exact hcontents v hv
  · cases h with
    | block _ hcontents => exact hcontents v hv

/-- A value in which opening tokens and closing brackets stand around groups only. -/
inductive ComponentValue.Balanced : ComponentValue → Prop
  | token {t : Token} : t.kind.opensGroup = false → t.kind.closesGroup = false →
      Balanced (.token t)
  | group {g : OpenGroup} : g.opener.kind.opensGroup = true → (∀ v ∈ g.contents, Balanced v) →
      Balanced g.close

namespace ComponentValue

/-- A value in which no more tokens close groups than open them, and which is balanced if they are
equally many. -/
def Leans (v : ComponentValue) : Prop :=
  0 ≤ Token.balance v.tokens ∧ (Token.balance v.tokens = 0 → v.Balanced)

/-- In a list of such values, no more tokens close groups than open them either. If they are equally
many, they are so in each of the values. -/
theorem Leans.all {vs : List ComponentValue} (h : ∀ v ∈ vs, v.Leans) :
    0 ≤ Token.balance (tokensAll vs) ∧
      (Token.balance (tokensAll vs) = 0 → ∀ v ∈ vs, v.Balanced) := by
  induction vs with
  | nil => exact ⟨Int.le_refl 0, nofun⟩
  | cons v vs ih =>
    obtain ⟨⟨hv, hbalanced⟩, hvs⟩ := List.forall_mem_cons.1 h
    obtain ⟨hrest, hall⟩ := ih hvs
    rw [tokensAll_cons, Token.balance_append]
    exact ⟨by omega, fun hzero =>
      List.forall_mem_cons.2 ⟨hbalanced (by omega), hall (by omega)⟩⟩

/-- A token that is no closing bracket leans, and is balanced if it opens nothing. -/
theorem leans_token {t : Token} (h : t.kind.closesGroup = false) : (token t).Leans := by
  rw [Leans, tokens, Token.balance_cons, Token.balance_nil, Token.weight, h]
  cases hopens : t.kind.opensGroup with
  | true => exact ⟨by decide, fun hzero => absurd hzero (by decide)⟩
  | false => exact ⟨by decide, fun _ => .token hopens h⟩

/-- Around the contents of a group one token opens and one closes. -/
theorem leans_close {g : OpenGroup} (h : g.opener.kind.opensGroup = true)
    (hcontents : ∀ v ∈ g.contents, v.Leans) : g.close.Leans := by
  have hcloses : (groupEnd g.opener).kind.closesGroup = true :=
    TokenKind.closesGroup_of_closer? (closer?_eq_groupEnd h)
  have hends : (groupEnd g.opener).kind.opensGroup = false :=
    TokenKind.opensGroup_eq_false_of_closesGroup hcloses
  have hbalance : Token.balance g.close.tokens = Token.balance (tokensAll g.contents.reverse) := by
    simp only [OpenGroup.tokens_close, OpenGroup.laidOut, List.cons_append, Token.balance_cons,
      Token.balance_append, Token.balance_nil, Token.weight, h, hends, hcloses, if_true,
      Bool.false_eq_true, if_false]
    omega
  obtain ⟨hle, hall⟩ := Leans.all fun v hv => hcontents v (List.mem_reverse.1 hv)
  rw [Leans, hbalance]
  exact ⟨hle, fun hzero => .group h fun v hv => hall hzero v (List.mem_reverse.2 hv)⟩

/-- A permitted value leans, as no plain token in it is a closing bracket. -/
theorem leans_of_permits {p : ValuePolicy} {v : ComponentValue} (h : v.Formed) :
    p.Permits v → v.Leans := by
  refine Formed.induction (fun t hp => ?_) (fun g hopens ih hp => ?_) h
  · refine leans_token ?_
    cases hp with
    | token hkind _ =>
      revert hkind
      cases t.kind <;> decide
  · exact leans_close hopens fun v hv => ih v hv (hp.of_close v hv)

/-- A value in groups is formed if it is so without them. -/
theorem formed_nest {opener : Token} {v : ComponentValue} (hopens : opener.kind.opensGroup = true)
    (h : v.Formed) (depth : Nat) : (nest opener v depth).Formed := by
  induction depth with
  | zero => exact h
  | succ depth ih =>
    rw [nest]
    split
    case isTrue hname => exact .function hname (List.forall_mem_singleton.2 ih)
    case isFalse hname =>
      obtain ⟨c, hc⟩ := (TokenKind.opensGroup_iff.1 hopens).resolve_left hname
      exact .block (Option.isSome_iff_exists.2 ⟨c, hc⟩) (List.forall_mem_singleton.2 ih)

end ComponentValue

/-! ## Balanced values that are read -/

namespace Grouping

variable {s : Grouping} {v : ComponentValue}

/-- An opening token that is read in silence opens a group. -/
theorem lt_of_quiet_push {t : Token} (hs : s.skipping = none) (hopens : t.kind.opensGroup = true)
    (hquiet : (s.push t).Quiet) : s.groups.length < maxGroupDepth := by
  refine Nat.lt_of_not_le fun hdeep => ?_
  have hpush : s.push t =
      { s.record ⟨Diagnostic.nestingTooDeep, t.position⟩ with skipping := some (t, 1) } := by
    simp [push, hs, closedBy_eq_endsGroup, Token.endsGroup_of_opensGroup hopens, hopens, openGroup,
      hdeep]
  refine hquiet ⟨Diagnostic.nestingTooDeep, t.position⟩ ?_ rfl
  rw [hpush]
  simp [reported, record]

/-- Values of which no group is found to lie too deep when their tokens are read are regular there, if
each is. -/
theorem regular_of_quiet_all {vs : List ComponentValue}
    (h : ∀ v ∈ vs, ∀ s : Grouping, s.skipping = none → (v.tokens.foldl push s).Quiet →
      v.Regular s.groups.length s.closer?)
    (hs : s.skipping = none) (hquiet : ((tokensAll vs).foldl push s).Quiet) :
    ∀ v ∈ vs, v.Regular s.groups.length s.closer? := by
  induction vs generalizing s with
  | nil => exact nofun
  | cons v vs ih =>
    rw [ComponentValue.tokensAll_cons, List.foldl_append] at hquiet
    have hv := h v (.head _) s hs hquiet.of_foldl_push
    rw [foldl_push_tokens hv s hs rfl rfl] at hquiet
    have hrest := ih (fun w hw => h w (.tail _ hw)) (by simpa using hs) hquiet
    refine List.forall_mem_cons.2 ⟨hv, fun w hw => ?_⟩
    simpa using hrest w hw

/-- A balanced value is regular where its tokens are read and no group is found to lie too deep. -/
theorem regular_of_quiet (h : v.Balanced) : ∀ s : Grouping, s.skipping = none →
    (v.tokens.foldl push s).Quiet → v.Regular s.groups.length s.closer? := by
  induction h with
  | @token t hopens hcloses =>
    intro s _ _
    refine .token hopens fun hcloser => ?_
    rw [closesGroup_of_closer? hcloser] at hcloses
    cases hcloses
  | @group g hopens _ ih =>
    intro s hs hquiet
    rw [OpenGroup.tokens_close, OpenGroup.laidOut, List.cons_append, List.foldl_cons,
      List.foldl_append] at hquiet
    have hcontents := hquiet.of_foldl_push
    have hdepth := lt_of_quiet_push hs hopens hcontents.of_foldl_push
    rw [push_opener hs hopens hdepth] at hcontents
    let inside : Grouping := { s with groups := { opener := g.opener } :: s.groups }
    have hregular := regular_of_quiet_all (s := inside)
      (fun v hv => ih v (List.mem_reverse.1 hv)) hs hcontents
    exact OpenGroup.regular_close hopens hdepth fun v hv => hregular v (List.mem_reverse.2 hv)

end Grouping

/-! ## Accepted values -/

namespace ValuePolicy

/-- Values that are accepted again if they are laid out as tokens and these are read: nothing is
reported, and every value that is read is accepted. -/
def AcceptsReread (p : ValuePolicy) (vs : List ComponentValue) : Prop :=
  let (again, parser) := (Parser.ofTokens (tokensAll vs)).values
  parser.errors = [] ∧ ∀ w ∈ again, p.accepts w = true

/-- Values with the shape of values that were read are the values that are read from their tokens. -/
theorem acceptsReread_of_regular {p : ValuePolicy} {vs : List ComponentValue}
    (h : ∀ v ∈ vs, v.Regular 0 none) (haccepts : ∀ v ∈ vs, p.accepts v = true) :
    p.AcceptsReread vs := by
  have hread : readAll (tokensAll vs) = (vs, []) := ComponentValue.readAll_tokensAll h
  have hvalues : (Parser.ofTokens (tokensAll vs)).values = (vs, { pending := [] }) := by
    simp [Parser.values, Parser.reading, Parser.ofTokens, hread]
  rw [AcceptsReread, hvalues]
  exact ⟨rfl, haccepts⟩

/-- Accepted values of which reading reports nothing have the shape of values that were read. -/
theorem regular_of_silent {p : ValuePolicy} {vs : List ComponentValue} (hformed : ∀ v ∈ vs, v.Formed)
    (haccepts : ∀ v ∈ vs, p.accepts v = true) (hsilent : (readAll (tokensAll vs)).2 = []) :
    ∀ v ∈ vs, v.Regular 0 none := by
  have hleans : ∀ v ∈ vs, v.Leans := fun v hv => by
    have hfaults : p.faults 0 v = [] := List.isEmpty_iff.1 (haccepts v hv)
    exact ComponentValue.leans_of_permits (hformed v hv)
      ((faults_eq_nil_iff (hformed v hv)).1 hfaults).1
  obtain ⟨hle, hbalanced⟩ := ComponentValue.Leans.all hleans
  have hclosed : (tokensAll vs).foldl Token.openAfter [] = [] :=
    (ComponentValue.settledAll_of_silent hsilent).1
  have hopen := Token.balance_le [] (tokensAll vs)
  rw [hclosed, List.length_nil] at hopen
  have hzero : Token.balance (tokensAll vs) = 0 := by omega
  exact Grouping.regular_of_quiet_all (s := {})
    (fun v hv => Grouping.regular_of_quiet (hbalanced hzero v hv)) rfl
    (Grouping.quiet_of_silent hsilent)

/-- **Accepted values are judged by the tokens that they stand for** if they have the shape of values
that were read, and only then. So it is for all values that were read. -/
theorem acceptsReread_iff (p : ValuePolicy) :
    (∀ vs : List ComponentValue, (∀ v ∈ vs, v.Formed) → (∀ v ∈ vs, p.accepts v = true) →
      (p.AcceptsReread vs ↔ ∀ v ∈ vs, v.Regular 0 none)) ∧
    ∀ ts : List Token, (∀ v ∈ (readAll ts).1, p.accepts v = true) →
      p.AcceptsReread (readAll ts).1 := by
  constructor
  · intro vs hformed haccepts
    constructor
    · rintro ⟨hsilent, -⟩
      exact regular_of_silent hformed haccepts ((List.nil_append _).symm.trans hsilent)
    · exact fun hregular => acceptsReread_of_regular hregular haccepts
  · exact fun ts haccepts => acceptsReread_of_regular (ComponentValue.regular_readAll ts) haccepts

/-- A listed function with brackets in it, and a url. -/
theorem acceptsReread_iff_rgb :
    let p : ValuePolicy := { functions := ["rgb"], allowUrls := true }
    let vs := (readAll (tokens "rgb(1,[2]) url('x')")).1
    (∀ v ∈ vs, v.Formed) ∧ (∀ v ∈ vs, p.accepts v = true) ∧
    (p.AcceptsReread vs ↔ ∀ v ∈ vs, v.Regular 0 none) ∧ p.AcceptsReread vs := by
  intro p vs
  have hregular : ∀ v ∈ vs, v.Regular 0 none := ComponentValue.regular_readAll _
  have hformed : ∀ v ∈ vs, v.Formed := fun v hv => (hregular v hv).formed
  have haccepts : ∀ v ∈ vs, p.accepts v = true := by decide +kernel
  obtain ⟨hbuilt, hread⟩ := p.acceptsReread_iff
  exact ⟨hformed, haccepts, hbuilt vs hformed haccepts, hread _ haccepts⟩

/-- The name of a function that is not listed is accepted as a plain token, but read again it opens
a group. So it is with a url in as many brackets as there may be, which is read again as a group that
lies too deep. -/
theorem not_acceptsReread :
    let p : ValuePolicy := { functions := [], allowUrls := true }
    let plain : ComponentValue := .token (Token.of .function "expression")
    let deep : ComponentValue := ComponentValue.nest (Token.of .leftBracket "")
      (.function (Token.of .function "url") [.token (Token.of .string "x")]) maxGroupDepth
    (plain.Formed ∧ p.accepts plain = true ∧ ¬p.AcceptsReread [plain]) ∧
    (deep.Formed ∧ p.accepts deep = true ∧ ¬p.AcceptsReread [deep]) := by
  intro p plain deep
  have hdeep : deep.Formed :=
    ComponentValue.formed_nest rfl (.function rfl (List.forall_mem_singleton.2 .token)) _
  exact ⟨⟨.token, by decide +kernel, fun h => absurd h.1 (by decide +kernel)⟩,
    hdeep, by decide +kernel, fun h => absurd h.1 (by decide +kernel)⟩

end ValuePolicy

end StyleGate
