import StyleGate.Proofs.Positions
import StyleGate.Proofs.Rereading

/-!
# Values that are written and read again

`ComponentValue.normalAll` says on values what `Token.normal` says on tokens: adjacent whitespace is
joined, and a url becomes a function with a string (`ComponentValue.tokensAll_normalAll`). A list of
values that does not start with whitespace can be taken apart in front of it
(`ComponentValue.normalAll_append_cons`), so that trimming and searching for punctuation go with the
change.
-/

namespace StyleGate

/-! ## Tokens one after another -/

namespace Token

/-- Only whitespace is joined with what follows. -/
theorem joinBlank_of_not_whitespace {t : Token} (h : t.isWhitespace = false) (ts : List Token) :
    joinBlank t ts = t :: ts := by
  cases ts with
  | nil => rfl
  | cons u ts => simp [joinBlank, h]

/-- Nothing but the first token of a list is joined with a token in front of it. -/
theorem joinBlank_append {t u : Token} (hu : u.isWhitespace = false) (ts us : List Token) :
    joinBlank t (ts ++ u :: us) = joinBlank t ts ++ u :: us := by
  cases ts with
  | nil => simp [joinBlank, hu]
  | cons v ts =>
    simp only [List.cons_append, joinBlank]
    split <;> rfl

/-- A token that is no whitespace is read as tokens of which the first is none. -/
theorem readAs_eq_cons {t : Token} (h : t.isWhitespace = false) :
    ∃ u us, t.readAs = u :: us ∧ u.isWhitespace = false := by
  have hkind : t.kind ≠ .whitespace := fun heq => by simp [isWhitespace, heq] at h
  unfold readAs
  cases hk : t.kind <;> simp_all [isWhitespace, of]

/-- A token that opens a group is read as itself. -/
theorem readAs_of_opensGroup {t : Token} (h : t.kind.opensGroup = true) :
    t.isWhitespace = false ∧ t.readAs = [of t.kind t.value] := by
  unfold readAs
  cases hk : t.kind <;>
    simp_all [isWhitespace, TokenKind.opensGroup, TokenKind.closer?, TokenKind.bracketCloser?]

/-- A token that is not whitespace is read by itself. -/
theorem normal_cons_of_not_whitespace {t : Token} (h : t.isWhitespace = false) (ts : List Token) :
    normal (t :: ts) = t.readAs ++ normal ts := by
  rw [normal, joinBlanks_cons, joinBlank_of_not_whitespace h, List.flatMap_cons, normal]

/-- Whitespace is joined with whitespace that follows. -/
theorem normal_cons_of_whitespace {t : Token} {ts : List Token} (h : t.kind = .whitespace)
    (ht : t.Legible) (hts : ∀ u ∈ ts, u.Legible) :
    normal (t :: ts) = joinBlank (of .whitespace t.text) (normal ts) := by
  have hread {u : Token} (hu : u.kind = .whitespace) : u.readAs = [of .whitespace u.text] := by
    simp [readAs, hu]
  have hchars {u : Token} (hu : u.kind = .whitespace) (hlegible : u.Legible) :
      (of .whitespace u.text).chars = u.chars :=
    chars_of_blanks (chars_whitespace hu hlegible).1 (chars_whitespace hu hlegible).2
  rw [normal, joinBlanks_cons, normal]
  rcases joinBlank_cases t (joinBlanks ts) with ⟨heq, hnot⟩ | ⟨u, rest, hrest, -, hu, heq⟩
  · rw [heq, List.flatMap_cons, hread h]
    cases hjoined : joinBlanks ts with
    | nil => rfl
    | cons u rest =>
      have hu : u.isWhitespace = false := by simpa [isWhitespace, h, hjoined] using hnot
      obtain ⟨v, vs, hv, hspace⟩ := readAs_eq_cons hu
      rw [List.flatMap_cons, hv]
      simp [joinBlank, hspace]
  · have hlegible : u.Legible := legible_joinBlanks hts u (by rw [hrest]; exact .head _)
    rw [heq, hrest, List.flatMap_cons, List.flatMap_cons, hread hu, hread rfl, text,
      chars_joined h hu ht hlegible]
    have hblank : ∀ v, (of .whitespace v).isWhitespace = true := fun v => rfl
    simp [joinBlank, hblank, hchars h ht, hchars hu hlegible]

/-- Tokens are read again on either side of one that is no whitespace. -/
theorem normal_append_cons {u : Token} {ts us : List Token} (hu : u.isWhitespace = false)
    (h : ∀ t ∈ ts ++ u :: us, t.Legible) :
    normal (ts ++ u :: us) = normal ts ++ (u.readAs ++ normal us) := by
  induction ts with
  | nil => exact normal_cons_of_not_whitespace hu us
  | cons t ts ih =>
    have hrest : ∀ v ∈ ts ++ u :: us, v.Legible := fun v hv => h v (.tail _ hv)
    have hts : ∀ v ∈ ts, v.Legible := fun v hv => hrest v (List.mem_append_left _ hv)
    by_cases ht : t.kind = .whitespace
    · obtain ⟨w, ws, hw, hspace⟩ := readAs_eq_cons hu
      rw [List.cons_append, normal_cons_of_whitespace ht (h t (.head _)) hrest, ih hrest, hw,
        List.cons_append, joinBlank_append hspace,
        normal_cons_of_whitespace ht (h t (.head _)) hts]
    · have ht : t.isWhitespace = false := by simpa [isWhitespace] using ht
      rw [List.cons_append, normal_cons_of_not_whitespace ht, ih hrest,
        normal_cons_of_not_whitespace ht, List.append_assoc]

/-! ### The text of tokens that are read again -/

/-- The written form does not depend on positions. -/
theorem charsAfter_map_unplaced (p : Token) (ts : List Token) :
    charsAfter p.unplaced (ts.map unplaced) = charsAfter p ts := by
  induction ts generalizing p with
  | nil => rfl
  | cons t ts ih =>
    rw [List.map_cons, charsAfter, charsAfter, ih]
    rfl

/-- The text of tokens does not depend on their positions. -/
theorem render_map_unplaced (ts : List Token) : render (ts.map unplaced) = render ts := by
  cases ts with
  | nil => rfl
  | cons t ts =>
    rw [List.map_cons, render, charsAll, charsAfter_map_unplaced]
    rfl

/-- A url and the function that it is read as follow other tokens in the same way. -/
theorem needsSeparator_url {u : Token} (hu : u.kind = .url) (p : Token) :
    needsSeparator p (of .function "url") = needsSeparator p u := by
  have hdelim {t : Token} (ht : t.kind ≠ .delim) (name : String) : t.isNamed .delim name = false := by
    simp [isNamed, ht]
  have hfunction : (of .function "url").kind ≠ .delim := by simp [of]
  have hurl : u.kind ≠ .delim := by simp [hu]
  simp [needsSeparator, delimNeedsSeparator, startsWord, startsNumber, hdelim hfunction, hdelim hurl,
    hu]
  simp [of]

/-- Nor does it depend on how often the tokens were read. -/
theorem charsAfter_flatMap_readAs {ts : List Token} (h : ∀ t ∈ ts, t.Legible) {p q : Token}
    (hpq : needsSeparator p = needsSeparator q) :
    charsAfter p (ts.flatMap readAs) = charsAfter q ts := by
  induction ts generalizing p q with
  | nil => rfl
  | cons u ts ih =>
    have ih {p q : Token} := ih (fun t ht => h t (.tail _ ht)) (p := p) (q := q)
    rw [List.flatMap_cons, charsAfter]
    by_cases hurl : u.kind = .url
    · have hlast : needsSeparator (of .rightParen "") = needsSeparator u := by
        funext t
        simp [needsSeparator, of, hurl]
      have hread : u.readAs = [of .function "url", of .string u.value, of .rightParen ""] := by
        simp [readAs, hurl]
      have hchars : u.chars = "url(".toList ++ Text.escapeString u.value.toList ++ [')'] := by
        simp [chars, hurl]
      have hname : Text.escapeIdentifier ['u', 'r', 'l'] = ['u', 'r', 'l'] := by decide
      simp only [hread, List.cons_append, List.nil_append, charsAfter, ih hlast, gap, hpq,
        needsSeparator_url hurl, hchars]
      simp [needsSeparator, chars, of, hname]
    · by_cases hspace : u.kind = .whitespace
      · have hlegible := chars_whitespace hspace (h u (.head _))
        have hchars : (of .whitespace u.text).chars = u.chars :=
          chars_of_blanks hlegible.1 hlegible.2
        have hlast : needsSeparator (of .whitespace u.text) = needsSeparator u := by
          funext t
          simp [needsSeparator, of, hspace]
        have hread : u.readAs = [of .whitespace u.text] := by simp [readAs, hspace]
        rw [hread, List.singleton_append, charsAfter, ih hlast, hchars, gap, gap, hpq,
          needsSeparator_whitespace q (t := of .whitespace u.text) rfl hspace]
      · have hread : u.readAs = [of u.kind u.value] := by
          unfold readAs
          cases hk : u.kind <;> simp_all
        have hlast : needsSeparator (of u.kind u.value) = needsSeparator u := rfl
        have hnext : needsSeparator q (of u.kind u.value) = needsSeparator q u := rfl
        rw [hread, List.singleton_append, charsAfter, ih hlast, gap, gap, hpq, hnext]
        rfl

/-- **The text stays.** Tokens are written as what they are read as is. -/
theorem render_normal {ts : List Token} (h : ∀ t ∈ ts, t.Legible) :
    render (normal ts) = render ts := by
  have hstart (us : List Token) : charsAll us = charsAfter (of .comma "") us := by
    cases us <;> simp [charsAll, charsAfter, gap, needsSeparator, of]
  rw [render, render, ← charsAll_joinBlanks h, normal, hstart, hstart,
    charsAfter_flatMap_readAs (legible_joinBlanks h) rfl]

end Token

/-! ## Values one after another -/

namespace ComponentValue

/-- A value in front of others, joined with the first of them if both are whitespace. -/
def joinBlank : ComponentValue → List ComponentValue → List ComponentValue
  | token t, token u :: rest => (Token.joinBlank t [u]).map token ++ rest
  | v, vs => v :: vs

mutual

/-- What a value is read as when it is written. -/
def normal : ComponentValue → ComponentValue
  | token t =>
    match t.kind with
    | .url => function (Token.of .function "url") [token (Token.of .string t.value)]
    | .whitespace => token (Token.of .whitespace t.text)
    | kind => token (Token.of kind t.value)
  | block opener contents => block (Token.of opener.kind opener.value) (normalAll contents)
  | function name contents => function (Token.of name.kind name.value) (normalAll contents)

/-- What the values of a list are read as when they are written. -/
def normalAll : List ComponentValue → List ComponentValue
  | [] => []
  | v :: rest => joinBlank v.normal (normalAll rest)

end

/-- Only whitespace is joined with what follows. -/
theorem joinBlank_of_not_whitespace {v : ComponentValue} (h : v.isWhitespace = false)
    (vs : List ComponentValue) : joinBlank v vs = v :: vs := by
  unfold joinBlank
  split
  · next t u rest =>
    have ht : t.isWhitespace = false := h
    simp [Token.joinBlank_of_not_whitespace ht]
  · rfl

/-- Joining either puts the value in front or joins two tokens of whitespace. -/
theorem joinBlank_cases (v : ComponentValue) (vs : List ComponentValue) :
    joinBlank v vs = v :: vs ∨ ∃ t u rest, v = token t ∧ vs = token u :: rest ∧
      t.kind = .whitespace ∧ u.kind = .whitespace ∧
      joinBlank v vs =
        token (Token.of .whitespace (String.ofList (t.chars ++ u.chars))) :: rest := by
  unfold joinBlank
  split
  · next t u rest =>
    rcases Token.joinBlank_cases t [u] with ⟨heq, -⟩ | ⟨_, _, ⟨⟩, ht, hu, heq⟩
    · exact .inl (by rw [heq]; rfl)
    · exact .inr ⟨t, u, rest, rfl, rfl, ht, hu, by rw [heq]; rfl⟩
  · exact .inl rfl

/-- Nothing but the first value of a list is joined with a value in front of it. -/
theorem joinBlank_append {v w : ComponentValue} (hw : w.isWhitespace = false)
    (vs ws : List ComponentValue) : joinBlank v (vs ++ w :: ws) = joinBlank v vs ++ w :: ws := by
  cases vs with
  | nil =>
    rcases joinBlank_cases v (w :: ws) with heq | ⟨t, u, rest, rfl, hws, -, hu, -⟩
    · rw [List.nil_append, heq]
      cases v <;> rfl
    · obtain ⟨rfl, rfl⟩ := List.cons.inj hws
      simp [isWhitespace, isToken, hu] at hw
  | cons x vs =>
    cases v with
    | token t => cases x <;> simp [joinBlank]
    | block | function => rfl

/-! ## What stays -/

@[simp] theorem isWhitespace_normal (v : ComponentValue) :
    v.normal.isWhitespace = v.isWhitespace := by
  cases v with
  | token t =>
    rw [normal]
    cases hk : t.kind <;> simp [isWhitespace, isToken, Token.of, hk]
  | block | function => rfl

/-- A token of any kind but a url stays one of that kind. -/
theorem isToken_normal {kind : TokenKind} (h : kind ≠ .url) (v : ComponentValue) :
    v.normal.isToken kind = v.isToken kind := by
  cases v with
  | token t =>
    rw [normal]
    cases hk : t.kind <;> simp [isToken, Token.of, hk, Ne.symm h]
  | block | function => rfl

@[simp] theorem isBraces_normal (v : ComponentValue) : v.normal.isBraces = v.isBraces := by
  cases v with
  | token t =>
    rw [normal]
    cases hk : t.kind <;> rfl
  | block | function => rfl

/-- A value of a list that is read again is whitespace, or what a value was read as. -/
theorem mem_normalAll {vs : List ComponentValue} {w : ComponentValue} (h : w ∈ normalAll vs) :
    (∃ v, w = token (Token.of .whitespace v)) ∨ ∃ v ∈ vs, w = v.normal ∧ v.isWhitespace = false := by
  induction vs with
  | nil => cases h
  | cons v vs ih =>
    have hrest : w ∈ normalAll vs → (∃ v, w = token (Token.of .whitespace v)) ∨
        ∃ u ∈ v :: vs, w = u.normal ∧ u.isWhitespace = false := fun hw =>
      (ih hw).imp_right fun ⟨u, hu, heq⟩ => ⟨u, .tail _ hu, heq⟩
    rw [normalAll] at h
    rcases joinBlank_cases v.normal (normalAll vs) with heq | ⟨t, u, rest, -, hvs, -, -, heq⟩
    · rw [heq] at h
      rcases List.mem_cons.1 h with rfl | h
      · cases hv : v.isWhitespace with
        | false => exact .inr ⟨v, .head _, rfl, hv⟩
        | true =>
          obtain ⟨t, rfl, ht⟩ := isWhitespace_iff.1 hv
          exact .inl ⟨t.text, by simp [normal, ht]⟩
      · exact hrest h
    · rw [heq] at h
      rcases List.mem_cons.1 h with rfl | h
      · exact .inl ⟨_, rfl⟩
      · exact hrest (by rw [hvs]; exact .tail _ h)

/-- A value that is not whitespace is read by itself. -/
theorem normalAll_cons_of_not_whitespace {v : ComponentValue} (h : v.isWhitespace = false)
    (vs : List ComponentValue) : normalAll (v :: vs) = v.normal :: normalAll vs := by
  rw [normalAll, joinBlank_of_not_whitespace (by simpa using h)]

/-- A list of values is read again on either side of one that is no whitespace. -/
theorem normalAll_append_cons {v : ComponentValue} (h : v.isWhitespace = false)
    (vs ws : List ComponentValue) :
    normalAll (vs ++ v :: ws) = normalAll vs ++ v.normal :: normalAll ws := by
  induction vs with
  | nil => exact normalAll_cons_of_not_whitespace h ws
  | cons u vs ih =>
    rw [List.cons_append, normalAll, ih, joinBlank_append (by simpa using h), normalAll]

/-- Whitespace stays whitespace. -/
theorem isWhitespace_of_mem_normalAll {vs : List ComponentValue}
    (h : ∀ v ∈ vs, v.isWhitespace = true) : ∀ w ∈ normalAll vs, w.isWhitespace = true := by
  intro w hw
  rcases mem_normalAll hw with ⟨v, rfl⟩ | ⟨v, hv, rfl, hnot⟩
  · rfl
  · rw [h v hv] at hnot
    cases hnot

/-- A list of values is whitespace, or it has a first value that is none. -/
theorem blank_or_split (vs : List ComponentValue) : (∀ v ∈ vs, v.isWhitespace = true) ∨
    ∃ before v after, vs = before ++ v :: after ∧ (∀ u ∈ before, u.isWhitespace = true) ∧
      v.isWhitespace = false := by
  induction vs with
  | nil => exact .inl (by simp)
  | cons v vs ih =>
    cases hv : v.isWhitespace with
    | false => exact .inr ⟨[], v, vs, rfl, by simp, hv⟩
    | true =>
      rcases ih with hall | ⟨before, u, after, rfl, hbefore, hu⟩
      · exact .inl (List.forall_mem_cons.2 ⟨hv, hall⟩)
      · exact .inr ⟨v :: before, u, after, rfl, List.forall_mem_cons.2 ⟨hv, hbefore⟩, hu⟩

/-- Of nothing but whitespace nothing is left. -/
theorem dropWhile_blank {vs : List ComponentValue} (h : ∀ v ∈ vs, v.isWhitespace = true) :
    vs.dropWhile isWhitespace = [] := by
  have hdrop : (vs ++ []).dropWhile isWhitespace = [] := List.dropWhile_append_of_pos h
  rwa [List.append_nil] at hdrop

/-- Whitespace is dropped up to the first value that is none. -/
theorem dropWhile_append_cons {v : ComponentValue} {vs : List ComponentValue}
    (h : ∀ u ∈ vs, u.isWhitespace = true) (hv : v.isWhitespace = false) (ws : List ComponentValue) :
    (vs ++ v :: ws).dropWhile isWhitespace = v :: ws := by
  rw [List.dropWhile_append_of_pos h, List.dropWhile_cons_of_neg (by simp [hv])]

/-- Whitespace in front is left out before or after. -/
theorem normalAll_dropWhile (vs : List ComponentValue) :
    normalAll (vs.dropWhile isWhitespace) = (normalAll vs).dropWhile isWhitespace := by
  rcases blank_or_split vs with hall | ⟨before, v, after, rfl, hbefore, hv⟩
  · rw [dropWhile_blank hall, dropWhile_blank (isWhitespace_of_mem_normalAll hall), normalAll]
  · rw [dropWhile_append_cons hbefore hv, normalAll_cons_of_not_whitespace hv,
      normalAll_append_cons hv, dropWhile_append_cons (isWhitespace_of_mem_normalAll hbefore)
        (by simpa using hv)]

/-- Whitespace at the end is left out before or after. -/
theorem normalAll_dropWhile_reverse (vs : List ComponentValue) :
    normalAll (vs.reverse.dropWhile isWhitespace).reverse =
      ((normalAll vs).reverse.dropWhile isWhitespace).reverse := by
  rcases blank_or_split vs.reverse with hall | ⟨after, v, before, heq, hafter, hv⟩
  · have hall : ∀ v ∈ vs, v.isWhitespace = true := fun v h => hall v (List.mem_reverse.2 h)
    have hnormal := isWhitespace_of_mem_normalAll hall
    rw [dropWhile_blank fun v h => hall v (List.mem_reverse.1 h),
      dropWhile_blank fun v h => hnormal v (List.mem_reverse.1 h)]
    rfl
  · have hvs : vs = before.reverse ++ v :: after.reverse := by
      rw [← List.reverse_reverse vs, heq]
      simp
    have hnormal := isWhitespace_of_mem_normalAll fun u hu => hafter u (List.mem_reverse.1 hu)
    rw [heq, dropWhile_append_cons hafter hv, hvs, List.reverse_cons,
      normalAll_append_cons hv, normalAll_append_cons hv, List.reverse_append, List.reverse_cons,
      List.append_assoc, List.singleton_append,
      dropWhile_append_cons (fun u hu => hnormal u (List.mem_reverse.1 hu)) (by simpa using hv)]
    simp [normalAll]

/-- Nothing becomes whitespace, and whitespace stays so. -/
theorem allWhitespace_normalAll (vs : List ComponentValue) :
    allWhitespace (normalAll vs) = allWhitespace vs := by
  rcases blank_or_split vs with hall | ⟨before, v, after, rfl, -, hv⟩
  · rw [allWhitespace, allWhitespace, List.all_eq_true.2 hall,
      List.all_eq_true.2 (isWhitespace_of_mem_normalAll hall)]
  · rw [normalAll_append_cons hv]
    simp [allWhitespace, hv]

/-! ## The tokens of values that are read again -/

/-- Plain tokens are their own tokens. -/
theorem tokensAll_map_token (ts : List Token) : tokensAll (ts.map token) = ts := by
  induction ts with
  | nil => rfl
  | cons t ts ih => simp [tokens, ih]

/-- A value whose first token tells whether it is whitespace. -/
def Opens (v : ComponentValue) : Prop :=
  ∃ t ts, v.tokens = t :: ts ∧ t.isWhitespace = v.isWhitespace

/-- A plain token tells it itself. -/
theorem opens_token (t : Token) : (token t).Opens := ⟨t, [], rfl, rfl⟩

/-- A group starts with its opening token, which is not whitespace. -/
theorem opens_normal {depth : Nat} {closer : Option TokenKind} {v : ComponentValue}
    (h : v.Regular depth closer) : v.normal.Opens := by
  cases h with
  | @token _ _ t _ _ =>
    rw [normal]
    cases hk : t.kind
    case url => exact ⟨_, _, rfl, rfl⟩
    all_goals exact opens_token _
  | block hcloser _ _ =>
    exact ⟨_, _, rfl, (Token.readAs_of_opensGroup (TokenKind.opensGroup_iff.2 (.inr ⟨_, hcloser⟩))).1⟩
  | function hname _ _ =>
    exact ⟨_, _, rfl, (Token.readAs_of_opensGroup (TokenKind.opensGroup_iff.2 (.inl hname))).1⟩

/-- To join values is to join their tokens. -/
theorem tokensAll_joinBlank (t : Token) {vs : List ComponentValue} (h : ∀ v ∈ vs, v.Opens) :
    tokensAll (joinBlank (token t) vs) = Token.joinBlank t (tokensAll vs) := by
  cases vs with
  | nil => rfl
  | cons v vs =>
    have hgroup (hv : v.isWhitespace = false) :
        Token.joinBlank t (tokensAll (v :: vs)) = t :: tokensAll (v :: vs) := by
      obtain ⟨u, us, htokens, hu⟩ := h v (.head _)
      rw [tokensAll_cons, htokens, List.cons_append, Token.joinBlank, hu, hv, Bool.and_false]
      rfl
    cases v with
    | token u =>
      rw [joinBlank, tokensAll_append, tokensAll_map_token, tokensAll_cons, tokens,
        List.singleton_append, Token.joinBlank, Token.joinBlank]
      split <;> rfl
    | block => rw [hgroup rfl]; rfl
    | function => rw [hgroup rfl]; rfl

/-- The values of a list are read again one by one, if each that is no whitespace is. -/
theorem tokensAll_normalAll_of {depth : Nat} {closer : Option TokenKind} {vs : List ComponentValue}
    (hvs : ∀ v ∈ vs, v.Regular depth closer) (hlegible : ∀ t ∈ tokensAll vs, t.Legible)
    (h : ∀ v ∈ vs, v.isWhitespace = false → (∀ t ∈ v.tokens, t.Legible) →
      ∀ {us : List Token}, (∀ t ∈ us, t.Legible) →
        Token.normal (v.tokens ++ us) = v.normal.tokens ++ Token.normal us) :
    tokensAll (normalAll vs) = Token.normal (tokensAll vs) := by
  induction vs with
  | nil => rfl
  | cons v vs ih =>
    obtain ⟨hfirst, hrest⟩ := List.forall_mem_append.1 (tokensAll_cons v vs ▸ hlegible)
    have ih := ih (fun u hu => hvs u (.tail _ hu)) hrest fun u hu => h u (.tail _ hu)
    cases hv : v.isWhitespace with
    | false =>
      rw [normalAll_cons_of_not_whitespace hv, tokensAll_cons, tokensAll_cons, ih,
        h v (.head _) hv hfirst hrest]
    | true =>
      obtain ⟨t, rfl, ht⟩ := isWhitespace_iff.1 hv
      have hnormal : (token t).normal = token (Token.of .whitespace t.text) := by
        simp [normal, ht]
      have hopens : ∀ w ∈ normalAll vs, w.Opens := by
        intro w hw
        rcases mem_normalAll hw with ⟨value, rfl⟩ | ⟨u, hu, rfl, -⟩
        · exact opens_token _
        · exact opens_normal (hvs u (.tail _ hu))
      rw [normalAll, hnormal, tokensAll_joinBlank _ hopens, ih]
      exact (Token.normal_cons_of_whitespace ht (hfirst t (.head _)) hrest).symm

/-- A group is read again as a group if its contents are. -/
theorem normal_group {opener last last' : Token} {contents : List ComponentValue} {us : List Token}
    (hopener : opener.kind.opensGroup = true) (hspace : last.isWhitespace = false)
    (hlast : last.readAs = [last'])
    (hcontents : tokensAll (normalAll contents) = Token.normal (tokensAll contents))
    (hlegible : ∀ t ∈ opener :: (tokensAll contents ++ [last]) ++ us, t.Legible) :
    Token.normal (opener :: (tokensAll contents ++ [last]) ++ us) =
      Token.of opener.kind opener.value :: (tokensAll (normalAll contents) ++ [last']) ++
        Token.normal us := by
  obtain ⟨hopener, hread⟩ := Token.readAs_of_opensGroup hopener
  have hassoc : opener :: (tokensAll contents ++ [last]) ++ us =
      opener :: (tokensAll contents ++ last :: us) := by simp
  rw [hassoc] at hlegible ⊢
  rw [Token.normal_cons_of_not_whitespace hopener, hread,
    Token.normal_append_cons hspace fun t ht => hlegible t (.tail _ ht), hlast, hcontents]
  simp

/-- What a value other than whitespace is read as is not joined with anything behind it. -/
theorem normal_tokens_append {depth : Nat} {closer : Option TokenKind} {v : ComponentValue}
    (h : v.Regular depth closer) (hspace : v.isWhitespace = false)
    (hlegible : ∀ t ∈ v.tokens, t.Legible) {us : List Token} (hus : ∀ t ∈ us, t.Legible) :
    Token.normal (v.tokens ++ us) = v.normal.tokens ++ Token.normal us := by
  have hcontents {opener last : Token} {contents : List ComponentValue}
      (hlegible : ∀ t ∈ opener :: (tokensAll contents ++ [last]), t.Legible) :
      ∀ t ∈ tokensAll contents, t.Legible :=
    fun t ht => hlegible t (.tail _ (List.mem_append_left _ ht))
  induction h generalizing us with
  | @token _ _ t _ _ =>
    have ht : t.isWhitespace = false := hspace
    rw [tokens, List.singleton_append, Token.normal_cons_of_not_whitespace ht, normal,
      Token.readAs]
    cases hk : t.kind
    case whitespace => simp [Token.isWhitespace, hk] at ht
    all_goals rfl
  | @block depth closer opener c contents hcloser _ hregular ih =>
    have hend : (blockEnd opener).isWhitespace = false ∧ (blockEnd opener).readAs =
        [blockEnd (Token.of opener.kind opener.value)] := by
      cases hk : opener.kind <;> rw [hk] at hcloser <;> cases hcloser <;>
        simp [blockEnd, hk, TokenKind.bracketCloser?, Token.isWhitespace, Token.readAs, Token.of]
    exact normal_group (TokenKind.opensGroup_iff.2 (.inr ⟨c, hcloser⟩)) hend.1 hend.2
      (tokensAll_normalAll_of hregular (hcontents hlegible) ih)
      (List.forall_mem_append.2 ⟨hlegible, hus⟩)
  | @function depth closer name contents hname _ hregular ih =>
    exact normal_group (TokenKind.opensGroup_iff.2 (.inl hname)) rfl rfl
      (tokensAll_normalAll_of hregular (hcontents hlegible) ih)
      (List.forall_mem_append.2 ⟨hlegible, hus⟩)

/-- **Reading again, on tokens and on values.** The tokens of what values are read as are what their
tokens are read as. -/
theorem tokensAll_normalAll {depth : Nat} {closer : Option TokenKind} {vs : List ComponentValue}
    (h : ∀ v ∈ vs, v.Regular depth closer) (hlegible : ∀ t ∈ tokensAll vs, t.Legible) :
    tokensAll (normalAll vs) = Token.normal (tokensAll vs) :=
  tokensAll_normalAll_of h hlegible fun v hv => normal_tokens_append (h v hv)

/-! ## Depth -/

/-- A value that is regular behind open groups if no group of it lies too deep there. -/
def FitsBehind (closers : List TokenKind) (w : ComponentValue) : Prop :=
  ∀ rest, TokenKind.fits closers (w.tokens.map Token.kind ++ rest) = true →
    w.Regular closers.length closers.head? ∧ TokenKind.fits closers rest = true

/-- A plain token fits if it neither opens a group nor closes the innermost one. -/
theorem fitsBehind_token {closers : List TokenKind} {t : Token} (ho : t.kind.opensGroup = false)
    (hc : closers.head? ≠ some t.kind) : (token t).FitsBehind closers := by
  intro rest h
  have hnone : t.kind.closer? = none := by simpa [TokenKind.opensGroup] using ho
  simp only [tokens, List.map_cons, List.map_nil, List.singleton_append, TokenKind.fits, hnone,
    if_neg hc] at h
  exact ⟨.token ho hc, h⟩

/-- If no group of a list lies too deep, its values are regular, one after another. -/
theorem regular_of_fits {closers : List TokenKind} {vs : List ComponentValue}
    (rest : List TokenKind) (hvs : ∀ v ∈ vs, v.FitsBehind closers)
    (h : TokenKind.fits closers ((tokensAll vs).map Token.kind ++ rest) = true) :
    (∀ v ∈ vs, v.Regular closers.length closers.head?) ∧ TokenKind.fits closers rest = true := by
  induction vs with
  | nil => exact ⟨by simp, h⟩
  | cons v vs ih =>
    rw [tokensAll_cons, List.map_append, List.append_assoc] at h
    obtain ⟨hfirst, hrest⟩ := hvs v (.head _) _ h
    obtain ⟨hall, hrest⟩ := ih (fun w hw => hvs w (.tail _ hw)) hrest
    exact ⟨List.forall_mem_cons.2 ⟨hfirst, hall⟩, hrest⟩

/-- A group fits if its contents fit behind it. -/
theorem contents_of_fits {closers : List TokenKind} {kind c : TokenKind}
    {contents : List ComponentValue} (rest : List TokenKind) (hkind : kind.closer? = some c)
    (hcontents : ∀ v ∈ contents, v.FitsBehind (c :: closers))
    (h : TokenKind.fits closers
      (kind :: ((tokensAll contents).map Token.kind ++ c :: rest)) = true) :
    closers.length < maxGroupDepth ∧
      (∀ v ∈ contents, v.Regular (closers.length + 1) (some c)) ∧
      TokenKind.fits closers rest = true := by
  have hnone : c.closer? = none := by
    simpa [TokenKind.opensGroup] using TokenKind.opensGroup_of_closer? hkind
  rw [TokenKind.fits, hkind] at h
  obtain ⟨hdepth, h⟩ := Bool.and_eq_true_iff.1 h
  obtain ⟨hall, hrest⟩ := regular_of_fits _ hcontents h
  rw [TokenKind.fits, hnone] at hrest
  exact ⟨of_decide_eq_true hdepth, hall, by simpa using hrest⟩

/-- What regular values are read as is regular unless it lies too deep. -/
theorem fitsBehind_normalAll (closers : List TokenKind) {vs : List ComponentValue}
    (hclosers : closers.head? ≠ some .whitespace)
    (h : ∀ v ∈ vs, v.normal.FitsBehind closers) : ∀ w ∈ normalAll vs, w.FitsBehind closers := by
  intro w hw
  rcases mem_normalAll hw with ⟨value, rfl⟩ | ⟨v, hv, rfl, -⟩
  · exact fitsBehind_token rfl hclosers
  · exact h v hv

/-- What a regular value is read as fits behind as many groups as may be open around the value. -/
theorem fitsBehind_normal {depth : Nat} {closer : Option TokenKind} {v : ComponentValue}
    (h : v.Regular depth closer) {closers : List TokenKind} (hhead : closers.head? = closer) :
    v.normal.FitsBehind closers := by
  induction h generalizing closers with
  | @token _ closer t ho hc =>
    subst hhead
    rw [normal]
    cases hk : t.kind
    case url =>
      -- a url comes back as a function around a string, one group deeper than the token was
      intro rest h
      have hstring : ∀ v ∈ [token (Token.of .string t.value)],
          v.FitsBehind (.rightParen :: closers) := by
        simpa using fitsBehind_token (t := Token.of .string t.value) rfl (by simp [Token.of])
      have hurl : TokenKind.closer? .function = some .rightParen := rfl
      obtain ⟨hdepth, hcontents, hrest⟩ := contents_of_fits rest hurl hstring h
      exact ⟨.function rfl hdepth hcontents, hrest⟩
    all_goals
      rw [hk] at ho hc
      exact fitsBehind_token ho hc
  | @block depth closer opener c contents hcloser _ _ ih =>
    intro rest h
    have hkind := TokenKind.closer?_of_bracketCloser? hcloser
    have hc : c ≠ .whitespace := by
      rintro rfl
      cases TokenKind.closesGroup_of_closer? hkind
    have hall := fitsBehind_normalAll (c :: closers) (by simpa using hc)
      fun v hv => ih v hv rfl
    obtain ⟨hdepth, hcontents, hrest⟩ := contents_of_fits rest hkind hall
      (by simpa [normal, tokens, blockEnd, Token.of, hcloser] using h)
    exact ⟨.block hcloser hdepth hcontents, hrest⟩
  | @function depth closer name contents hname _ _ ih =>
    intro rest h
    have hkind : name.kind.closer? = some .rightParen := by rw [hname]; rfl
    have hall := fitsBehind_normalAll (.rightParen :: closers) (by simp)
      fun v hv => ih v hv rfl
    obtain ⟨hdepth, hcontents, hrest⟩ := contents_of_fits rest hkind hall
      (by simpa [normal, tokens, functionEnd, Token.of] using h)
    exact ⟨.function hname hdepth hcontents, hrest⟩

/-- What values are read as is regular if none of their groups lies too deep. -/
theorem regular_normalAll {vs : List ComponentValue} (h : ∀ v ∈ vs, v.Regular 0 none)
    (hfits : TokenKind.fits [] ((tokensAll (normalAll vs)).map Token.kind) = true) :
    ∀ w ∈ normalAll vs, w.Regular 0 none := by
  have hall := fitsBehind_normalAll [] (by simp) fun v hv =>
    fitsBehind_normal (h v hv) rfl
  exact (regular_of_fits [] hall (by simpa using hfits)).1

end ComponentValue

end StyleGate
