import StyleGate.Proofs.Grouping
import StyleGate.Declaration.Reading

/-!
# What a list of declarations is made of

A declaration that is read is `Declaration.WellRead`: its name is an identifier, its value is trimmed
and holds no semicolon, and no mark of importance is left in a value that is not important. Such
declarations are read back from their values, one after another with semicolons between them
(`Declaration.ofGroups_valuesAll`).

Reading loses values only where it records a diagnostic. `Token.marks` counts the tokens that are not
whitespace; a list with a diagnostic has more of them than its declarations
(`Declaration.cost_ofGroups`).
-/

namespace StyleGate

/-- The number of tokens that are not whitespace. -/
def Token.marks (ts : List Token) : Nat := ts.countP (!·.isWhitespace)

@[simp] theorem Token.marks_nil : Token.marks [] = 0 := rfl

@[simp] theorem Token.marks_append (ts us : List Token) : marks (ts ++ us) = marks ts + marks us :=
  List.countP_append

/-- A token adds one mark, if it is not whitespace. -/
theorem Token.marks_cons (t : Token) (ts : List Token) :
    marks (t :: ts) = marks ts + if t.kind = .whitespace then 0 else 1 := by
  by_cases h : t.kind = .whitespace <;> simp [marks, isWhitespace, h]

namespace ComponentValue

/-- The number of tokens in a list of values that are not whitespace. -/
def marks (vs : List ComponentValue) : Nat := Token.marks (tokensAll vs)

@[simp] theorem marks_nil : marks [] = 0 := rfl

@[simp] theorem marks_append (vs ws : List ComponentValue) : marks (vs ++ ws) = marks vs + marks ws := by
  simp [marks, tokensAll_append]

/-- A list has the marks of its first value and of the rest. -/
theorem marks_cons (v : ComponentValue) (vs : List ComponentValue) :
    marks (v :: vs) = Token.marks v.tokens + marks vs := by
  simp [marks]

@[simp] theorem marks_reverse (vs : List ComponentValue) : marks vs.reverse = marks vs := by
  induction vs with
  | nil => rfl
  | cons v vs ih => simp [marks_cons, ih, Nat.add_comm]

/-- The only value without a mark is whitespace. -/
theorem marks_tokens_eq_zero {v : ComponentValue} (h : v.isWhitespace = true) :
    Token.marks v.tokens = 0 := by
  obtain ⟨t, rfl, ht⟩ := isWhitespace_iff.1 h
  simp [tokens, Token.marks_cons, ht]

/-- Any other value has one: a group has at least its closing token. -/
theorem marks_tokens_pos {v : ComponentValue} (h : v.isWhitespace = false) :
    0 < Token.marks v.tokens := by
  cases v with
  | token t =>
    have ht : t.kind ≠ .whitespace := by simpa [isWhitespace, isToken] using h
    simp [tokens, Token.marks_cons, ht]
  | block opener contents =>
    have hend : (blockEnd opener).kind ≠ .whitespace :=
      TokenKind.ne_of_closesGroup (closesGroup_blockEnd opener) rfl
    simp only [tokens, Token.marks_cons, Token.marks_append, hend, if_false]
    omega
  | function name contents =>
    simp only [tokens, functionEnd, Token.marks_cons, Token.marks_append, reduceCtorEq, if_false]
    omega

/-- Whitespace at the front has no marks. -/
theorem marks_dropWhile (vs : List ComponentValue) : marks (vs.dropWhile isWhitespace) = marks vs := by
  induction vs with
  | nil => rfl
  | cons v vs ih =>
    rw [List.dropWhile_cons]
    split
    · next h => rw [ih, marks_cons, marks_tokens_eq_zero h, Nat.zero_add]
    · rfl

/-- Nor has that at either end. -/
theorem marks_trim (vs : List ComponentValue) : marks (trim vs) = marks vs := by
  rw [trim, marks_dropWhile, marks_reverse, marks_dropWhile, marks_reverse]

/-! ## Trimmed values -/

/-- Trimming adds nothing. -/
theorem mem_of_mem_trim {vs : List ComponentValue} {v : ComponentValue} (h : v ∈ trim vs) : v ∈ vs := by
  have h := (List.dropWhile_sublist _).subset h
  exact List.mem_reverse.1 ((List.dropWhile_sublist _).subset (List.mem_reverse.1 h))

/-- Values are left alone by trimming if there is no whitespace at either end. -/
theorem trim_eq_self {vs : List ComponentValue} (hhead : ∀ v, vs.head? = some v → v.isWhitespace = false)
    (hlast : ∀ v, vs.getLast? = some v → v.isWhitespace = false) : trim vs = vs := by
  have hdrop : ∀ ws : List ComponentValue,
      (∀ v, ws.head? = some v → v.isWhitespace = false) → ws.dropWhile isWhitespace = ws := by
    intro ws h
    cases ws with
    | nil => rfl
    | cons w ws => rw [List.dropWhile_cons, if_neg (by simp [h w rfl])]
  rw [trim, hdrop vs.reverse (by simpa using hlast), List.reverse_reverse, hdrop vs hhead]

/-- The first value that `dropWhile` leaves is no whitespace. -/
theorem head?_dropWhile {vs : List ComponentValue} {v : ComponentValue}
    (h : (vs.dropWhile isWhitespace).head? = some v) : v.isWhitespace = false := by
  have hnot := List.head?_dropWhile_not isWhitespace vs
  rwa [h] at hnot

/-- No trimmed list starts with whitespace. -/
theorem head?_trim {vs : List ComponentValue} {v : ComponentValue} (h : (trim vs).head? = some v) :
    v.isWhitespace = false :=
  head?_dropWhile h

/-- Nor does one end with it. -/
theorem getLast?_trim {vs : List ComponentValue} {v : ComponentValue}
    (h : (trim vs).getLast? = some v) : v.isWhitespace = false := by
  obtain ⟨before, heq⟩ := List.dropWhile_suffix (l := (vs.reverse.dropWhile isWhitespace).reverse)
    isWhitespace
  have hlast : (before ++ trim vs).getLast? = some v := by rw [List.getLast?_append, h]; rfl
  rw [trim, heq, List.getLast?_reverse] at hlast
  exact head?_dropWhile hlast

/-- Whitespace at the end is trimmed. -/
theorem trim_append_whitespace (vs : List ComponentValue) {v : ComponentValue}
    (h : v.isWhitespace = true) : trim (vs ++ [v]) = trim vs := by
  simp [trim, h]

/-- Trimming twice is trimming once. -/
theorem trim_trim (vs : List ComponentValue) : trim (trim vs) = trim vs :=
  trim_eq_self (fun _ => head?_trim) (fun _ => getLast?_trim)

end ComponentValue

/-! ## Well-read declarations -/

namespace Declaration

/-- A declaration as it is read. -/
structure WellRead (d : Declaration) : Prop where
  name : d.name.kind = .ident
  semicolons : ∀ v ∈ d.value, v.isToken .semicolon = false
  trimmed : ComponentValue.trim d.value = d.value
  important : d.important = false → beforeImportant? d.value = none

/-- The values of a declaration after its colon. -/
def written (d : Declaration) : List ComponentValue :=
  d.value ++ if d.important then importantTokens.map .token else []

/-- The values of a declaration after its name. -/
def parts (d : Declaration) : List ComponentValue := .token (Token.of .colon "") :: d.written

/-- The values of a declaration. -/
def values (d : Declaration) : List ComponentValue := .token d.name :: d.parts

/-- The values of a list of declarations, with semicolons between them. -/
def valuesAll : List Declaration → List ComponentValue
  | [] => []
  | [d] => d.values
  | d :: rest => d.values ++ .token (Token.of .semicolon "") :: valuesAll rest

/-- The tokens of a declaration are those of its values. -/
theorem tokensAll_values (d : Declaration) : ComponentValue.tokensAll d.values = d.tokens := by
  cases h : d.important <;>
    simp [values, parts, written, tokens, h, ComponentValue.tokens, ComponentValue.tokensAll_append,
      importantTokens]

/-- The values of a list of declarations stand for its tokens. -/
theorem tokensAll_valuesAll (ds : List Declaration) :
    ComponentValue.tokensAll (valuesAll ds) = tokensAll ds := by
  fun_induction valuesAll ds with
  | case1 => rfl
  | case2 d => exact tokensAll_values d
  | case3 d rest hne ih =>
    rw [ComponentValue.tokensAll_append, ComponentValue.tokensAll_cons, ih, tokensAll_values]
    cases rest with
    | nil => exact absurd rfl hne
    | cons => rfl

/-- A trailing mark of importance is found behind any value. -/
theorem beforeImportant?_append (value : List ComponentValue) :
    beforeImportant? (value ++ [.token (Token.of .delim "!"), .token (Token.of .ident "important")]) =
      some value := by
  simp [beforeImportant?, Token.isNamed, Token.of, ComponentValue.isWhitespace,
    ComponentValue.isToken]

/-- What is in front of a trailing mark of importance. -/
theorem beforeImportant?_eq_some {value before : List ComponentValue}
    (h : beforeImportant? value = some before) :
    ∃ space bang last, value = before ++ .token bang :: (space ++ [.token last]) ∧
      (∀ v ∈ space, v.isWhitespace = true) ∧ bang.kind = .delim ∧ last.kind = .ident := by
  unfold beforeImportant? at h
  split at h
  · next last rest hrev =>
    split at h
    · next hlast =>
      split at h
      · next bang more hdrop =>
        split at h
        · next hbang =>
          obtain rfl : more.reverse = before := by simpa using h
          obtain ⟨space, hspace, rfl⟩ : ∃ space, (∀ v ∈ space, v.isWhitespace = true) ∧
              rest = space ++ .token bang :: more :=
            ⟨rest.takeWhile ComponentValue.isWhitespace,
              fun _ => List.all_eq_true.1 List.all_takeWhile _,
              by rw [← hdrop, List.takeWhile_append_dropWhile]⟩
          refine ⟨space.reverse, bang, last, ?_, fun v hv => hspace v (List.mem_reverse.1 hv),
            hbang.1, by simp_all [Token.isNamed]⟩
          rw [← List.reverse_reverse value, hrev]
          simp
        · cases h
      · cases h
    · cases h
  · cases h

/-- What is in front of a trailing mark of importance is a part of the value. -/
theorem mem_of_beforeImportant? {value before : List ComponentValue} {v : ComponentValue}
    (h : beforeImportant? value = some before) (hv : v ∈ before) : v ∈ value := by
  obtain ⟨space, bang, last, rfl, -⟩ := beforeImportant?_eq_some h
  exact List.mem_append_left _ hv

/-- The value of a well-read declaration is read as that declaration. -/
theorem ofValue_written {d : Declaration} (h : d.WellRead) : ofValue d.name d.written = d := by
  obtain ⟨name, value, important⟩ := d
  cases important with
  | false =>
    have htrim : ComponentValue.trim value = value := h.trimmed
    have hnone : beforeImportant? value = none := h.important rfl
    simp [ofValue, written, htrim, hnone]
  | true =>
    have htrim : ComponentValue.trim value = value := h.trimmed
    cases value with
    | nil => rfl
    | cons first rest =>
      have hfirst : first.isWhitespace = false :=
        ComponentValue.head?_trim (congrArg List.head? htrim)
      have hwritten : written ⟨name, first :: rest, true⟩ =
          (first :: rest ++ [.token Token.insertedSpace]) ++
            [.token (Token.of .delim "!"), .token (Token.of .ident "important")] := by
        simp [written, importantTokens]
      have htrimmed : ComponentValue.trim (written ⟨name, first :: rest, true⟩) =
          written ⟨name, first :: rest, true⟩ := by
        rw [hwritten]
        refine ComponentValue.trim_eq_self (fun v hv => ?_) fun v hv => ?_
        · obtain rfl : first = v := by simpa using hv
          exact hfirst
        · rw [List.getLast?_append] at hv
          obtain rfl : .token (Token.of .ident "important") = v := by simpa using hv
          rfl
      rw [ofValue, htrimmed, hwritten, beforeImportant?_append]
      simp only [ComponentValue.trim_append_whitespace _
        (show (ComponentValue.token Token.insertedSpace).isWhitespace = true from rfl), htrim]

/-- The value that a declaration is read from makes it well read. -/
theorem wellRead_ofValue {name : Token} {value : List ComponentValue} (hn : name.kind = .ident)
    (hv : ∀ v ∈ value, v.isToken .semicolon = false) : (ofValue name value).WellRead := by
  have htrim : ∀ v ∈ ComponentValue.trim value, v.isToken .semicolon = false :=
    fun v h => hv v (ComponentValue.mem_of_mem_trim h)
  cases h : beforeImportant? (ComponentValue.trim value) with
  | none =>
    simp only [ofValue, h]
    exact ⟨hn, htrim, ComponentValue.trim_trim value, fun _ => h⟩
  | some before =>
    simp only [ofValue, h]
    refine ⟨hn, fun v hmem => htrim v ?_, ComponentValue.trim_trim before, nofun⟩
    exact mem_of_beforeImportant? h (ComponentValue.mem_of_mem_trim hmem)

/-- The values of a well-read declaration are read as that declaration. -/
theorem ofParts?_parts {d : Declaration} (h : d.WellRead) :
    ofParts? d.name d.parts = some d := by
  have hcolon : (ComponentValue.token (Token.of .colon "")).isWhitespace = false := rfl
  rw [ofParts?, parts, List.dropWhile_cons_of_neg (by simp [hcolon])]
  simp [ComponentValue.isToken, Token.of, ofValue_written h]

/-- No semicolon stands among the values of a well-read declaration. -/
theorem semicolons_parts {d : Declaration} (h : d.WellRead) :
    ∀ v ∈ d.parts, v.isToken .semicolon = false := by
  rintro v (_ | ⟨_, hv⟩)
  · rfl
  rcases List.mem_append.1 hv with hv | hv
  · exact h.semicolons v hv
  · split at hv
    · simp only [importantTokens, List.map_cons, List.map_nil, List.mem_cons, List.not_mem_nil,
        or_false] at hv
      rcases hv with rfl | rfl | rfl <;> rfl
    · cases hv

/-- The values that are written for a declaration are its own and punctuation. -/
theorem forall_values {P : ComponentValue → Prop} {d : Declaration} (hname : P (.token d.name))
    (hvalue : ∀ v ∈ d.value, P v)
    (hmark : ∀ t, t.kind ∈ [TokenKind.colon, .whitespace, .delim, .ident] → P (.token t)) :
    ∀ v ∈ d.values, P v := by
  intro v hv
  simp only [values, parts, written, List.mem_cons, List.mem_append] at hv
  rcases hv with rfl | rfl | hv | hv
  · exact hname
  · exact hmark _ (by simp [Token.of])
  · exact hvalue v hv
  · split at hv
    · simp only [importantTokens, List.map_cons, List.map_nil, List.mem_cons, List.not_mem_nil,
        or_false] at hv
      rcases hv with rfl | rfl | rfl <;>
        exact hmark _ (by simp [Token.of, Token.insertedSpace])
    · cases hv

/-- What holds of the values of each declaration, and of the semicolons between them, holds of all
values. -/
theorem forall_valuesAll {P : ComponentValue → Prop} {ds : List Declaration}
    (h : ∀ d ∈ ds, ∀ v ∈ d.values, P v) (hsemicolon : P (.token (Token.of .semicolon ""))) :
    ∀ v ∈ valuesAll ds, P v := by
  fun_induction valuesAll ds with
  | case1 => nofun
  | case2 d => exact h d (.head _)
  | case3 d rest _ ih =>
    intro v hv
    rcases List.mem_append.1 hv with hv | hv
    · exact h d (.head _) v hv
    · rcases List.mem_cons.1 hv with rfl | hv
      · exact hsemicolon
      · exact ih (fun e he => h e (.tail _ he)) v hv

end Declaration

/-! ## Reading declarations back -/

/-- A value that no diagnostic was recorded for. -/
def ComponentValue.silent (v : ComponentValue) : Grouped := ⟨v, []⟩

namespace DeclarationReader

/-- What follows the name of a declaration is read up to a semicolon. -/
theorem foldl_push_named (vs : List ComponentValue) (s : DeclarationReader) (name : Token)
    (parts : List ComponentValue) (h : ∀ v ∈ vs, v.isToken .semicolon = false) :
    (vs.map ComponentValue.silent).foldl push { s with current := .named name parts } =
      { s with current := .named name (vs.reverse ++ parts) } := by
  induction vs generalizing parts with
  | nil => rfl
  | cons v vs ih =>
    have hpush : push { s with current := .named name parts } v.silent =
        { s with current := .named name (v :: parts) } := by
      simp [push, ComponentValue.silent, h v (.head _), record]
    rw [List.map_cons, List.foldl_cons, hpush, ih _ fun w hw => h w (.tail _ hw)]
    simp

/-- The values of a well-read declaration are read as its name and what follows. -/
theorem foldl_push_values {d : Declaration} (h : d.WellRead) {s : DeclarationReader}
    (hs : s.current = .none) :
    (d.values.map ComponentValue.silent).foldl push s =
      { s with current := .named d.name d.parts.reverse } := by
  have hname : push s (ComponentValue.token d.name).silent =
      { s with current := .named d.name [] } := by
    simp [push, hs, startNext, ComponentValue.silent, h.name]
  rw [Declaration.values, List.map_cons, List.foldl_cons, hname, foldl_push_named _ s d.name []]
  · rw [List.append_nil]
  · exact Declaration.semicolons_parts h

/-- A well-read declaration ends as itself. -/
theorem endNamed_parts {d : Declaration} (h : d.WellRead) (s : DeclarationReader) :
    s.endNamed d.name d.parts.reverse =
      { s with done := d :: s.done, current := .none } := by
  simp only [endNamed, List.reverse_reverse, Declaration.ofParts?_parts h]

/-- Well-read declarations are read one after another. -/
theorem finish_foldl_valuesAll {ds : List Declaration} (h : ∀ d ∈ ds, d.WellRead)
    {s : DeclarationReader} (hs : s.current = .none) :
    (((Declaration.valuesAll ds).map ComponentValue.silent).foldl push s).finish =
      (s.done.reverse ++ ds, s.errors.reverse) := by
  fun_induction Declaration.valuesAll ds generalizing s with
  | case1 => simp [finish, hs]
  | case2 d =>
    have hd := h d (.head _)
    rw [foldl_push_values hd hs]
    simp only [finish, endNamed_parts hd]
    simp
  | case3 d rest _ ih =>
    have hd := h d (.head _)
    have hend : push { s with current := .named d.name d.parts.reverse }
          (ComponentValue.token (Token.of .semicolon "")).silent =
        { s with done := d :: s.done, current := .none } := by
      rw [push]
      simp only [ComponentValue.silent, ComponentValue.isToken, Token.of, beq_self_eq_true, if_true]
      exact endNamed_parts hd _
    rw [List.map_append, List.foldl_append, foldl_push_values hd hs, List.map_cons,
      List.foldl_cons, hend, ih (fun e he => h e (.tail _ he)) rfl]
    simp

end DeclarationReader

/-- **Declarations are read back.** The values of well-read declarations are read as those
declarations, without a diagnostic. -/
theorem Declaration.ofGroups_valuesAll {ds : List Declaration} (h : ∀ d ∈ ds, d.WellRead) :
    ofGroups ((valuesAll ds).map ComponentValue.silent) = (ds, []) := by
  rw [ofGroups, DeclarationReader.finish_foldl_valuesAll h rfl]
  rfl

/-! ## What is read is well read -/

/-- All values of a declaration have a property. -/
structure Declaration.MadeOf (P : ComponentValue → Prop) (d : Declaration) : Prop where
  name : P (.token d.name)
  value : ∀ v ∈ d.value, P v

/-- A declaration is made of its name and of the values behind the colon. -/
theorem Declaration.madeOf_ofValue {P : ComponentValue → Prop} {name : Token}
    {value : List ComponentValue} (hname : P (.token name)) (hvalue : ∀ v ∈ value, P v) :
    (ofValue name value).MadeOf P := by
  have htrim : ∀ v ∈ ComponentValue.trim value, P v :=
    fun v h => hvalue v (ComponentValue.mem_of_mem_trim h)
  cases h : beforeImportant? (ComponentValue.trim value) with
  | none =>
    simp only [ofValue, h]
    exact ⟨hname, htrim⟩
  | some before =>
    simp only [ofValue, h]
    exact ⟨hname, fun v hv => htrim v (mem_of_beforeImportant? h (ComponentValue.mem_of_mem_trim hv))⟩

/-- The declarations so far are well read and made of values with a property, and so is a declaration
that has been started. -/
structure DeclarationReader.Sound (P : ComponentValue → Prop) (s : DeclarationReader) : Prop where
  done : ∀ d ∈ s.done, d.WellRead ∧ d.MadeOf P
  current : ∀ name parts, s.current = .named name parts → name.kind = .ident ∧ P (.token name) ∧
    ∀ v ∈ parts, P v ∧ v.isToken .semicolon = false

namespace DeclarationReader

variable {P : ComponentValue → Prop} {s : DeclarationReader}

/-- The declaration that ends is well read, as its values hold no semicolon and are trimmed. -/
theorem Sound.endNamed (h : s.Sound P) {name : Token} {parts : List ComponentValue}
    (hcurrent : s.current = .named name parts) : (s.endNamed name parts).Sound P := by
  obtain ⟨hname, hP, hparts⟩ := h.current name parts hcurrent
  have hparts' : ∀ v ∈ parts.reverse.dropWhile ComponentValue.isWhitespace,
      P v ∧ v.isToken .semicolon = false :=
    fun v hv => hparts v (List.mem_reverse.1 ((List.dropWhile_sublist _).subset hv))
  unfold DeclarationReader.endNamed Declaration.ofParts?
  split
  · next d hd =>
    refine ⟨?_, fun _ _ h => nomatch h⟩
    rintro e (_ | ⟨_, he⟩)
    · split at hd
      · next v value hdrop =>
        rw [hdrop] at hparts'
        split at hd
        · obtain rfl := Option.some.inj hd
          exact ⟨Declaration.wellRead_ofValue hname fun v hv => (hparts' v (.tail _ hv)).2,
            Declaration.madeOf_ofValue hP fun v hv => (hparts' v (.tail _ hv)).1⟩
        · cases hd
      · cases hd
    · exact h.done e he
  · exact ⟨h.done, fun _ _ h => nomatch h⟩

/-- A declaration can only be started by an identifier. -/
theorem Sound.startNext (h : s.Sound P) {g : Grouped} (hg : P g.value) :
    (s.startNext g).Sound P := by
  unfold DeclarationReader.startNext
  split
  · next t ht =>
    split
    · exact h
    · split
      · exact ⟨h.done, fun _ _ h => nomatch h⟩
      · split
        · next hident =>
          refine ⟨h.done, ?_⟩
          rintro name parts ⟨⟩
          exact ⟨hident, ht ▸ hg, nofun⟩
        · exact ⟨h.done, fun _ _ h => nomatch h⟩
  · exact ⟨h.done, fun _ _ h => nomatch h⟩

/-- One value keeps the declarations so far sound. -/
theorem Sound.push (h : s.Sound P) {g : Grouped} (hg : P g.value) : (s.push g).Sound P := by
  unfold DeclarationReader.push
  split
  · exact h.startNext hg
  · next name parts hs =>
    split
    · exact h.endNamed hs
    · next hsemicolon =>
      refine ⟨h.done, ?_⟩
      rintro _ _ ⟨⟩
      obtain ⟨hname, hP, hparts⟩ := h.current name parts hs
      refine ⟨hname, hP, ?_⟩
      rintro v (_ | ⟨_, hv⟩)
      · exact ⟨hg, Bool.eq_false_iff.2 hsemicolon⟩
      · exact hparts v hv
  · dsimp only
    split <;> exact ⟨h.done, fun _ _ h => nomatch h⟩
  · next hs =>
    split
    · exact ⟨h.done, fun _ _ h => nomatch h⟩
    · exact ⟨h.done, by simp [record, hs]⟩

/-- A reader that is sound stays so, whatever it reads. -/
theorem Sound.foldl_push (gs : List Grouped) (hgs : ∀ g ∈ gs, P g.value) (h : s.Sound P) :
    (gs.foldl DeclarationReader.push s).Sound P := by
  induction gs generalizing s with
  | nil => exact h
  | cons g gs ih => exact ih (fun g' hg' => hgs g' (.tail _ hg')) (h.push (hgs g (.head _)))

/-- In the end all declarations are well read. -/
theorem Sound.finish (h : s.Sound P) : ∀ d ∈ s.finish.1, d.WellRead ∧ d.MadeOf P := by
  unfold DeclarationReader.finish
  intro d hd
  split at hd
  · next hs => exact (h.endNamed hs).done d (List.mem_reverse.1 hd)
  · exact h.done d (List.mem_reverse.1 hd)
  · exact h.done d (List.mem_reverse.1 hd)

end DeclarationReader

/-- Every declaration that is read is well read, and made of the values that were given. -/
theorem Declaration.sound_ofGroups {P : ComponentValue → Prop} {gs : List Grouped}
    (h : ∀ g ∈ gs, P g.value) : ∀ d ∈ (ofGroups gs).1, d.WellRead ∧ d.MadeOf P :=
  (DeclarationReader.Sound.foldl_push gs h ⟨by simp, by simp⟩).finish

/-! ## Diagnostics cost tokens -/

namespace Declaration

/-- A mark of importance counts twice, whitespace does not count. -/
theorem marks_beforeImportant? {value before : List ComponentValue}
    (h : beforeImportant? value = some before) :
    ComponentValue.marks value = ComponentValue.marks before + 2 := by
  obtain ⟨space, bang, last, rfl, hspace, hbang, hlast⟩ := beforeImportant?_eq_some h
  have hzero : ComponentValue.marks space = 0 := by
    clear h
    induction space with
    | nil => rfl
    | cons v space ih =>
      rw [ComponentValue.marks_cons, ComponentValue.marks_tokens_eq_zero (hspace v (.head _)),
        ih fun w hw => hspace w (.tail _ hw)]
  simp [ComponentValue.marks_cons, ComponentValue.tokens, Token.marks_cons, hzero, hbang, hlast]

/-- A declaration has marks for its name and its colon, those of its value, and two for its
importance. -/
theorem marks_tokens (d : Declaration) (hname : d.name.kind = .ident) :
    Token.marks d.tokens = 2 + ComponentValue.marks d.value + if d.important then 2 else 0 := by
  cases h : d.important <;>
    simp [tokens, h, Token.marks_cons, hname, importantTokens, Token.of, Token.insertedSpace,
      ComponentValue.marks] <;> omega

/-- A declaration has all marks of what it is read from. -/
theorem marks_ofParts? {name : Token} {parts : List ComponentValue} {d : Declaration}
    (hname : name.kind = .ident) (h : ofParts? name parts = some d) :
    Token.marks d.tokens = 1 + ComponentValue.marks parts := by
  unfold ofParts? at h
  split at h
  · next v value hdrop =>
    split at h
    · next hcolon =>
      obtain rfl := Option.some.inj h
      have hparts : ComponentValue.marks parts = 1 + ComponentValue.marks value := by
        rw [← ComponentValue.marks_dropWhile, hdrop, ComponentValue.marks_cons]
        obtain ⟨t, rfl, ht⟩ := ComponentValue.isToken_iff.1 hcolon
        simp [ComponentValue.tokens, Token.marks_cons, ht]
      have hd : (ofValue name value).name = name := by unfold ofValue; dsimp only; split <;> rfl
      rw [marks_tokens _ (by rw [hd, hname]), hparts, ← ComponentValue.marks_trim value]
      cases himportant : beforeImportant? (ComponentValue.trim value) with
      | none => simp [ofValue, himportant]; omega
      | some before =>
        simp [ofValue, himportant, marks_beforeImportant? himportant, ComponentValue.marks_trim]
        omega
    · cases h
  · cases h

end Declaration

/-- The marks of a list of declarations, each with a semicolon after it. -/
def Declaration.cost : List Declaration → Nat
  | [] => 0
  | d :: ds => Token.marks d.tokens + 1 + cost ds

/-- The marks of declarations add up. -/
theorem Declaration.cost_append (ds es : List Declaration) : cost (ds ++ es) = cost ds + cost es := by
  induction ds with
  | nil => simp [cost]
  | cons d ds ih => simp only [List.cons_append, cost, ih, Nat.add_assoc]

/-- It is all the same in which order they are counted. -/
theorem Declaration.cost_reverse (ds : List Declaration) : cost ds.reverse = cost ds := by
  induction ds with
  | nil => rfl
  | cons d ds ih =>
    rw [List.reverse_cons, cost_append, ih, cost, cost, cost]
    omega

/-- The marks that are known of what has been started in a list of declarations. -/
def OpenDeclaration.cost : OpenDeclaration → Nat
  | .named _ parts => 1 + ComponentValue.marks parts
  | .atRule _ => 1
  | .none | .junk => 0

/-- One mark for a list of diagnostics, if there are any. -/
def Diagnostic.cost (errors : List Diagnostic) : Nat := if errors.isEmpty then 0 else 1

/-- Declarations and diagnostics so far have no more marks than the `n` that were read. -/
structure DeclarationReader.Accounts (n : Nat) (s : DeclarationReader) : Prop where
  named : ∀ name parts, s.current = .named name parts → name.kind = .ident
  marks : Declaration.cost s.done + s.current.cost + Diagnostic.cost s.errors ≤ n

namespace DeclarationReader

variable {n : Nat} {s : DeclarationReader}

/-- When a declaration ends, one mark more may be known than was read: that of a semicolon behind
it. -/
theorem Accounts.endNamed (h : s.Accounts n) {name : Token} {parts : List ComponentValue}
    (hcurrent : s.current = .named name parts) :
    (s.endNamed name parts).current = .none ∧
      Declaration.cost (s.endNamed name parts).done + Diagnostic.cost (s.endNamed name parts).errors ≤
        n + if (s.endNamed name parts).done = [] then 0 else 1 := by
  have hmarks := h.marks
  rw [hcurrent, OpenDeclaration.cost] at hmarks
  unfold DeclarationReader.endNamed
  split
  · next d hd =>
    have hd := Declaration.marks_ofParts? (h.named name parts hcurrent) hd
    rw [ComponentValue.marks_reverse] at hd
    simp only [Declaration.cost, hd, reduceCtorEq, if_false, true_and] at hmarks ⊢
    omega
  · simp only [record, Diagnostic.cost, true_and] at hmarks ⊢
    simp only [List.reverse_cons, List.reverse_nil, List.nil_append, List.cons_append,
      List.isEmpty_cons, Bool.false_eq_true, if_false]
    omega

/-- There may be more marks than are known of. -/
theorem Accounts.mono {m : Nat} (h : s.Accounts n) (hle : n ≤ m) : s.Accounts m :=
  ⟨h.named, Nat.le_trans h.marks hle⟩

/-- A recorded diagnostic takes a mark that is known of nothing else. -/
theorem Accounts.drop {current : OpenDeclaration} {ds : List Diagnostic}
    (hcurrent : current.cost = 0) (hnamed : ∀ name parts, current ≠ .named name parts)
    (h : Declaration.cost s.done + 1 ≤ n) :
    Accounts n { s.record ds with current } := by
  refine ⟨fun name parts heq => absurd heq (hnamed name parts), ?_⟩
  have hcost : ∀ errors, Diagnostic.cost errors ≤ 1 := fun errors => by
    unfold Diagnostic.cost; split <;> omega
  have := hcost (s.record ds).errors
  simp only [hcurrent, record] at this ⊢
  omega

/-- The first value of a declaration brings its marks along. -/
theorem Accounts.startNext (h : s.Accounts n) (hcurrent : s.current = .none) (v : ComponentValue) :
    (s.startNext v.silent).Accounts (n + Token.marks v.tokens) := by
  have hmarks := h.marks
  rw [hcurrent, OpenDeclaration.cost] at hmarks
  have hjunk (hv : v.isWhitespace = false) (ds : List Diagnostic) :
      Accounts (n + Token.marks v.tokens) { s.record ds with current := .junk } :=
    Accounts.drop rfl (by rintro _ _ ⟨⟩) (by have := ComponentValue.marks_tokens_pos hv; omega)
  cases v with
  | token t =>
    simp only [DeclarationReader.startNext, ComponentValue.silent]
    split
    · exact h.mono (Nat.le_add_right _ _)
    · next hskip =>
      have ht : t.kind ≠ .whitespace := fun heq => hskip (.inl heq)
      have hone : Token.marks (ComponentValue.token t).tokens = 1 := by
        simp [ComponentValue.tokens, Token.marks_cons, ht]
      split
      · next hkeyword =>
        refine ⟨by rintro _ _ ⟨⟩, ?_⟩
        simp only [OpenDeclaration.cost, hone]
        omega
      · split
        · next hident =>
          refine ⟨?_, ?_⟩
          · rintro _ _ ⟨⟩
            exact hident
          · simp only [OpenDeclaration.cost, hone, ComponentValue.marks_nil]
            omega
        · exact hjunk (by simpa [ComponentValue.isWhitespace, ComponentValue.isToken] using ht) _
  | block | function => exact hjunk rfl _

/-- One value keeps the account. -/
theorem Accounts.push (h : s.Accounts n) (v : ComponentValue) :
    (s.push v.silent).Accounts (n + Token.marks v.tokens) := by
  have hmarks := h.marks
  unfold DeclarationReader.push
  split
  · next hs => exact h.startNext hs v
  · next name parts hs =>
    rw [hs, OpenDeclaration.cost] at hmarks
    split
    · next hsemicolon =>
      obtain ⟨hcurrent, hcost⟩ := h.endNamed hs
      -- the semicolon pays for the one that the ended declaration counts
      have hone : 0 < Token.marks v.tokens :=
        ComponentValue.marks_tokens_pos (ComponentValue.isWhitespace_of_isToken hsemicolon (by decide))
      refine ⟨by simp [hcurrent], ?_⟩
      rw [hcurrent, OpenDeclaration.cost]
      split at hcost <;> omega
    · refine ⟨?_, ?_⟩
      · rintro _ _ ⟨⟩
        exact h.named name parts hs
      · simp only [ComponentValue.silent, record, OpenDeclaration.cost, ComponentValue.marks_cons,
          List.reverse_nil, List.nil_append]
        omega
  · next r hs =>
    rw [hs, OpenDeclaration.cost] at hmarks
    have hrecord : s.record v.silent.errors = s := rfl
    simp only [hrecord]
    split
    · refine ⟨by rintro _ _ ⟨⟩, ?_⟩
      simp only [OpenDeclaration.cost]
      omega
    · exact Accounts.drop rfl (by rintro _ _ ⟨⟩) (by omega)
  · next hs =>
    rw [hs, OpenDeclaration.cost] at hmarks
    have hrecord : s.record v.silent.errors = s := rfl
    rw [hrecord]
    split
    · refine ⟨by rintro _ _ ⟨⟩, ?_⟩
      simp only [OpenDeclaration.cost]
      omega
    · exact h.mono (Nat.le_add_right _ _)

/-- **Reading keeps account.** With every value its marks are added to those that were read. -/
theorem Accounts.foldl_push (vs : List ComponentValue) (h : s.Accounts n) :
    ((vs.map ComponentValue.silent).foldl DeclarationReader.push s).Accounts
      (n + ComponentValue.marks vs) := by
  induction vs generalizing s n with
  | nil => exact h
  | cons v vs ih =>
    rw [ComponentValue.marks_cons, ← Nat.add_assoc]
    exact ih (h.push v)

/-- In the end no mark is counted twice, but for the semicolon that the last declaration may lack. -/
theorem Accounts.finish (h : s.Accounts n) :
    Declaration.cost s.finish.1 + Diagnostic.cost s.finish.2 ≤
      n + if s.finish.1 = [] then 0 else 1 := by
  have hreverse : ∀ s : DeclarationReader, Declaration.cost s.done.reverse = Declaration.cost s.done ∧
      Diagnostic.cost s.errors.reverse = Diagnostic.cost s.errors := fun s => by
    simp [Declaration.cost_reverse, Diagnostic.cost]
  have hmarks := h.marks
  unfold DeclarationReader.finish
  split
  · next name parts hs =>
    simpa [hreverse] using (h.endNamed hs).2
  · next r hs =>
    rw [hs, OpenDeclaration.cost] at hmarks
    have hdrop : ((s.record [r.unfinished]).endAtRule r.position).Accounts n :=
      Accounts.drop (s := s.record [r.unfinished]) rfl (fun _ _ h => nomatch h) (by simp only [record]; omega)
    have := hdrop.marks
    simp only [hreverse]
    split <;> omega
  · simp only [hreverse]
    split <;> omega

end DeclarationReader

/-- Declarations and diagnostics have no more marks than the values they are read from. The last
declaration needs no semicolon. -/
theorem Declaration.cost_ofGroups (vs : List ComponentValue) :
    cost (ofGroups (vs.map ComponentValue.silent)).1 +
        Diagnostic.cost (ofGroups (vs.map ComponentValue.silent)).2 ≤
      ComponentValue.marks vs + if (ofGroups (vs.map ComponentValue.silent)).1 = [] then 0 else 1 := by
  have hinit : ({} : DeclarationReader).Accounts 0 := ⟨fun _ _ h => (nomatch h), Nat.le_refl 0⟩
  have hfinish := (hinit.foldl_push vs).finish
  rwa [Nat.zero_add] at hfinish

/-- The tokens of a list of declarations, with one semicolon less than there are declarations. -/
theorem Declaration.marks_tokensAll (ds : List Declaration) :
    Token.marks (tokensAll ds) + (if ds = [] then 0 else 1) = cost ds := by
  fun_induction tokensAll ds with
  | case1 => rfl
  | case2 d => simp [cost]
  | case3 d rest hne ih =>
    have hrest : rest ≠ [] := fun h => hne h
    simp only [hrest, if_false] at ih
    simp [cost, Token.marks_cons, Token.of] at ih ⊢
    omega

/-- A declaration that is left out takes at least its name, its colon and its semicolon along. -/
theorem Declaration.cost_sublist {kept ds : List Declaration} (h : kept.Sublist ds)
    (hname : ∀ d ∈ ds, d.name.kind = .ident) :
    cost kept ≤ cost ds ∧ (kept ≠ ds → cost kept + 3 ≤ cost ds) := by
  induction h with
  | slnil => exact ⟨Nat.le_refl _, fun h => absurd rfl h⟩
  | cons d _ ih =>
    have hle := (ih fun e he => hname e (.tail _ he)).1
    have hd := marks_tokens d (hname d (.head _))
    simp only [cost] at hle ⊢
    exact ⟨by omega, fun _ => by omega⟩
  | cons_cons d _ ih =>
    obtain ⟨hle, hlt⟩ := ih fun e he => hname e (.tail _ he)
    simp only [cost] at hle hlt ⊢
    refine ⟨by omega, fun hne => ?_⟩
    have := hlt fun heq => hne (by rw [heq])
    omega

/-- **A diagnostic costs tokens.** Where a diagnostic was recorded or a declaration is left out, fewer
marks are left than were read. -/
theorem Declaration.marks_lt_of_left_out {vs : List ComponentValue} {kept : List Declaration}
    (hkept : kept.Sublist (ofGroups (vs.map ComponentValue.silent)).1)
    (h : (ofGroups (vs.map ComponentValue.silent)).2 ≠ [] ∨
      kept ≠ (ofGroups (vs.map ComponentValue.silent)).1) :
    Token.marks (tokensAll kept) < ComponentValue.marks vs := by
  have hread := cost_ofGroups vs
  have hname : ∀ d ∈ (ofGroups (vs.map ComponentValue.silent)).1, d.name.kind = .ident :=
    fun d hd => (sound_ofGroups (P := fun _ => True) (fun _ _ => trivial) d hd).1.name
  have htokens := marks_tokensAll kept
  generalize (ofGroups (vs.map ComponentValue.silent)) = read at *
  obtain ⟨ds, errors⟩ := read
  obtain ⟨hle, hlt⟩ := cost_sublist hkept hname
  dsimp only at *
  by_cases hnil : kept = []
  · subst hnil
    by_cases hds : ds = []
    · have herrors : errors ≠ [] := h.resolve_right (fun hne => hne hds.symm)
      simp [hds, Diagnostic.cost, herrors] at hread
      simp [tokensAll]
      omega
    · have := hlt (Ne.symm hds)
      simp only [hds, if_false] at hread
      simp only [tokensAll, Token.marks_nil]
      omega
  · have hds : ds ≠ [] := fun hds => hnil (List.sublist_nil.1 (hds ▸ hkept))
    simp only [hds, hnil, if_false] at hread htokens
    rcases h with herrors | hne
    · simp [Diagnostic.cost, herrors] at hread
      omega
    · have := hlt hne
      omega

end StyleGate
