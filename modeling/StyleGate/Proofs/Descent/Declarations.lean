import StyleGate.Proofs.Descent.Rules

/-!
# Declarations in a descent

A descent reads declarations as the reader of declarations does (`Descent.reads_declarations`), and makes
them of their values in the same way (`Descent.reads_declaration`): what it cuts off at the front is there,
and the places in a list where it looks for a mark of importance are inside the list.
-/

namespace StyleGate

/-! ## Lists of declarations -/

variable {α β : Type} {ts rest : List Token} {d : Nat} {ds : List Diagnostic} {t : Token} {g : Grouped}
  {gs : List Grouped} {fuel outer inner : Nat}

namespace Descent

/-- What is cut off in front is there. -/
theorem reads_trimWhitespace (vs : List ComponentValue) :
    Reads (trimWhitespace vs) ts d (ComponentValue.trim vs) [] ts d := by
  rw [trimWhitespace, ComponentValue.trim]
  generalize (vs.reverse.dropWhile ComponentValue.isWhitespace).reverse = ws
  have hsplit := List.takeWhile_append_dropWhile (p := ComponentValue.isWhitespace) (l := ws)
  have hlength : (ws.takeWhile ComponentValue.isWhitespace).length ≤ ws.length :=
    (List.takeWhile_sublist _).length_le
  have hdrop : (ws.takeWhile ComponentValue.isWhitespace ++ ws.dropWhile ComponentValue.isWhitespace).drop
      (ws.takeWhile ComponentValue.isWhitespace).length = ws.dropWhile ComponentValue.isWhitespace :=
    List.drop_left
  rw [hsplit] at hdrop
  rw [dropFirst, if_pos hlength, hdrop]
  exact .pure _

/-- A list of whitespace has no last mark, whichever way it is looked for. -/
theorem lastMark?_blank {vs : List ComponentValue} (h : ∀ v ∈ vs, v.isWhitespace = true) :
    lastMark? vs = none ∧ vs.reverse.dropWhile ComponentValue.isWhitespace = [] := by
  have hreverse : ∀ v ∈ vs.reverse, v.isWhitespace = true := fun v hv => h v (List.mem_reverse.1 hv)
  constructor
  · have hnone : vs.reverse.findIdx? (fun v => !v.isWhitespace) = none := by
      refine List.findIdx?_eq_none_iff.2 fun v hv => ?_
      rw [hreverse v hv]
      rfl
    rw [lastMark?, hnone]
    rfl
  · have hdrop : (vs.reverse ++ []).dropWhile ComponentValue.isWhitespace = [] :=
      List.dropWhile_append_of_pos hreverse
    rwa [List.append_nil] at hdrop

/-- The last value that is no whitespace, whichever way it is looked for. -/
theorem lastMark?_append (front : List ComponentValue) {space : List ComponentValue} {v : ComponentValue}
    (hv : v.isWhitespace = false) (hspace : ∀ w ∈ space, w.isWhitespace = true) :
    lastMark? (front ++ v :: space) = some front.length ∧
      (front ++ v :: space).reverse.dropWhile ComponentValue.isWhitespace = v :: front.reverse := by
  have hblank : ∀ w ∈ space.reverse, w.isWhitespace = true := fun w hw => hspace w (List.mem_reverse.1 hw)
  have hreverse : (front ++ v :: space).reverse = space.reverse ++ v :: front.reverse := by simp
  constructor
  · have hnone : space.reverse.findIdx? (fun w => !w.isWhitespace) = none := by
      refine List.findIdx?_eq_none_iff.2 fun w hw => ?_
      rw [hblank w hw]
      rfl
    rw [lastMark?, hreverse, List.findIdx?_append, hnone, List.findIdx?_cons, hv]
    simp
  · rw [hreverse, List.dropWhile_append_of_pos hblank, List.dropWhile_cons_of_neg (by rw [hv]; nofun)]

/-- A list is whitespace, or has a last value that is none. -/
theorem blank_or_append (vs : List ComponentValue) :
    (∀ v ∈ vs, v.isWhitespace = true) ∨ ∃ front v space, vs = front ++ v :: space ∧
      v.isWhitespace = false ∧ ∀ w ∈ space, w.isWhitespace = true := by
  induction vs with
  | nil => exact .inl (by simp)
  | cons v vs ih =>
    rcases ih with hblank | ⟨front, w, space, rfl, hw, hspace⟩
    · cases hv : v.isWhitespace with
      | true => exact .inl (List.forall_mem_cons.2 ⟨hv, hblank⟩)
      | false => exact .inr ⟨[], v, vs, rfl, hv, hblank⟩
    · exact .inr ⟨v :: front, w, space, rfl, hw, hspace⟩

/-- The mark of importance is looked for inside the list. -/
theorem reads_importantMarker (ts : List Token) (d : Nat) (vs : List ComponentValue) :
    ∃ marker, Reads (importantMarker vs) ts d marker [] ts d ∧
      marker.map (vs.take ·) = Declaration.beforeImportant? vs := by
  rcases List.eq_nil_or_concat vs with rfl | ⟨before, last, rfl⟩
  · exact ⟨none, .pure _, rfl⟩
  have hlast : (before.concat last).getLast? = some last := by simp
  have hreverse : (before.concat last).reverse = last :: before.reverse := by simp
  rw [importantMarker, hlast, Declaration.beforeImportant?, hreverse]
  cases last with
  | block | function => exact ⟨none, .pure _, rfl⟩
  | token last =>
    dsimp only
    by_cases himportant : last.isNamed .ident "important" = true
    · have hcount : (before.concat (.token last)).length = before.length + 1 := by simp
      have hlower : Reads (lower (before.length + 1)) ts d before.length [] ts d :=
        Reads.lower (Nat.succ_pos before.length)
      have hupTo : Reads (upTo (before.concat (.token last)) before.length) ts d before [] ts d := by
        rw [upTo, if_pos (by omega), List.concat_eq_append, List.take_left]
        exact .pure _
      rw [if_pos himportant, if_pos himportant, hcount]
      rcases blank_or_append before with hblank | ⟨front, v, space, rfl, hv, hspace⟩
      · obtain ⟨hmark, hdrop⟩ := lastMark?_blank hblank
        refine ⟨none, hlower.behind (hupTo.behind ?_), by rw [hdrop]; rfl⟩
        rw [hmark]
        exact .pure _
      · obtain ⟨hmark, hdrop⟩ := lastMark?_append front hv hspace
        have helement : Reads (elementAt ((front ++ v :: space).concat (.token last)) front.length) ts d v
            [] ts d := by
          rw [elementAt, List.concat_eq_append, List.append_assoc,
            List.getElem?_append_right (Nat.le_refl _), Nat.sub_self]
          exact .pure _
        have htake : ((front ++ v :: space).concat (.token last)).take front.length = front := by
          rw [List.concat_eq_append, List.append_assoc, List.take_left]
        rw [hdrop]
        cases v with
        | block | function =>
          refine ⟨none, hlower.behind (hupTo.behind ?_), rfl⟩
          rw [hmark]
          exact helement.behind (.pure _)
        | token bang =>
          refine ⟨if bang.kind = .delim ∧ bang.value = "!" then some front.length else none,
            hlower.behind (hupTo.behind ?_), ?_⟩
          · rw [hmark]
            exact helement.behind (.pure _)
          · dsimp only
            split
            · rw [Option.map_some, htake, List.reverse_reverse]
            · rfl
    · rw [if_neg himportant, if_neg himportant]
      exact ⟨none, .pure _, rfl⟩

/-- What reading a declaration of its values reports. -/
def missingColon (name : Token) : Option Declaration → List Diagnostic
  | some _ => []
  | none => [⟨Diagnostic.expectedColon, name.position⟩]

/-- A declaration is made of its values as reading makes it. -/
theorem reads_declaration {name : Token} (hname : name.kind = .ident) (parts : List ComponentValue) :
    Reads (declaration (.token name :: parts)) ts d (Declaration.ofParts? name parts)
      (missingColon name (Declaration.ofParts? name parts)) ts d := by
  rw [declaration, Declaration.ofName, if_pos hname, Declaration.ofParts?]
  dsimp only
  cases parts.dropWhile ComponentValue.isWhitespace with
  | nil => exact (Reads.record _).before (.pure _)
  | cons v value =>
    rw [List.head?_cons, Option.any_some]
    dsimp only
    by_cases hcolon : v.isToken .colon = true
    · obtain ⟨marker, hmarker, hbefore⟩ := reads_importantMarker ts d (ComponentValue.trim value)
      have hcut : Reads (dropFirst (v :: value) 1) ts d value [] ts d := by
        rw [dropFirst, if_pos (by simp)]
        exact .pure _
      rw [if_pos hcolon, if_pos hcolon, Declaration.ofValue, ← hbefore]
      refine hcut.behind ((reads_trimWhitespace value).behind (hmarker.behind ?_))
      cases marker with
      | none => exact .pure _
      | some bang => exact (reads_trimWhitespace _).behind (.pure _)
    · rw [if_neg hcolon, if_neg hcolon]
      exact (Reads.record _).before (.pure _)

end Descent

/-- Where a rule that ends starts. -/
theorem OpenRule.position_of_withoutBlock? {r : OpenRule} {rule : Rule}
    (h : r.withoutBlock? = some rule) : rule.position = r.position := by
  cases r <;> cases h
  rfl

/-- A rule stands where it was started. -/
theorem OpenRule.position_of_ends {r : OpenRule} {v : ComponentValue} {rule : Rule}
    (h : r.step v = .ends rule) : rule.position = r.position := by
  unfold step at h
  split at h
  · split at h
    · cases h
      cases r <;> rfl
    · cases h
  · split at h
    · split at h
      · next other hother =>
        cases h
        exact position_of_withoutBlock? hother
      · cases h
    · cases h

/-- What may have been started in a list of declarations: with a name, or with an at-keyword. -/
def OpenDeclaration.Started : OpenDeclaration → Prop
  | named name _ => name.kind = .ident
  | atRule r => r.withoutBlock? ≠ Option.none
  | none | junk => True

namespace DeclarationReader

/-- What is known behind a declaration. -/
theorem endNamed_eq (s : DeclarationReader) (name : Token) (parts : List ComponentValue) :
    s.endNamed name parts =
      { done := (Declaration.ofParts? name parts.reverse).toList ++ s.done
        current := .none
        errors := (Descent.missingColon name (Declaration.ofParts? name parts.reverse)).reverse ++
          s.errors } := by
  unfold endNamed
  cases Declaration.ofParts? name parts.reverse <;> rfl

end DeclarationReader

namespace Descent

/-- The rest of a list of declarations, in which something may have been started. What has been started
has its own fuel. -/
def declarationsFrom (outer inner : Nat) (sofar : List Declaration) :
    OpenDeclaration → Descent (List Declaration)
  | .none => declarations outer sofar
  | .named name parts => do
    let vs ← upToSemicolon inner (.token name :: parts.reverse)
    let d ← declaration vs
    declarations outer (sofar ++ d.toList)
  | .atRule r => do
    let rule ← ruleRest inner r
    reportAtRule rule
    declarations outer sofar
  | .junk => do
    dropToSemicolon inner
    declarations outer sofar

/-- What a reader makes of the groups that are left, if the given diagnostics were recorded before, the
last one first. -/
def ReadsDeclarations (m : Descent (List Declaration)) (ts : List Token) (errors : List Diagnostic)
    (s : DeclarationReader) (gs : List Grouped) : Prop :=
  ∃ ds, Reads m ts 0 (gs.foldl DeclarationReader.push s).finish.1 ds [] 0 ∧
    (gs.foldl DeclarationReader.push s).finish.2 = errors.reverse ++ ds

/-- The rest of a list of declarations is read as a reader does from where it is. -/
def ReadsRemaining (ts : List Token) (gs : List Grouped) : Prop :=
  ∀ (s : DeclarationReader) (outer inner : Nat), s.current.Started → ts.length < outer →
    ts.length < inner →
      ReadsDeclarations (declarationsFrom outer inner s.done.reverse s.current) ts s.errors s gs

variable {errors : List Diagnostic} {r : DeclarationReader}

/-- A step in front. -/
theorem ReadsDeclarations.behind {m : Descent β} {k : β → Descent (List Declaration)} {b : β}
    (hm : Reads m ts 0 b ds rest 0) (h : ReadsDeclarations (k b) rest (ds.reverse ++ errors) r gs) :
    ReadsDeclarations (m >>= k) ts errors r gs := by
  obtain ⟨es, hreads, herrors⟩ := h
  refine ⟨ds ++ es, hm.bind hreads, ?_⟩
  rw [herrors]
  simp

/-- A declaration ends. -/
theorem ReadsDeclarations.endNamed {name : Token} {parts : List ComponentValue}
    (hname : name.kind = .ident)
    (h : ReadsDeclarations (declarations fuel (r.endNamed name parts).done.reverse) ts
      (r.endNamed name parts).errors (r.endNamed name parts) gs) :
    ReadsDeclarations (do
      let d ← declaration (.token name :: parts.reverse)
      declarations fuel (r.done.reverse ++ d.toList)) ts r.errors (r.endNamed name parts) gs := by
  refine .behind (reads_declaration hname parts.reverse) ?_
  have hdone : ((Declaration.ofParts? name parts.reverse).toList ++ r.done).reverse =
      r.done.reverse ++ (Declaration.ofParts? name parts.reverse).toList := by
    cases Declaration.ofParts? name parts.reverse <;> simp
  rw [r.endNamed_eq name parts] at h ⊢
  rwa [hdone] at h

/-- An at-rule ends. -/
theorem ReadsDeclarations.endAtRule {rule : Rule}
    (h : ReadsDeclarations (declarations fuel r.done.reverse) ts (r.endAtRule rule.position).errors
      (r.endAtRule rule.position) gs) :
    ReadsDeclarations (do reportAtRule (some rule); declarations fuel r.done.reverse) ts r.errors
      (r.endAtRule rule.position) gs :=
  .behind (Reads.record _) h

section End

variable {s s' : DeclarationReader} {name : Token} {parts : List ComponentValue} {o : OpenRule}

/-- Where nothing has been started, the declarations so far are all there are. -/
theorem reads_declarations_nil (hcurrent : s.current = .none) (houter : 0 < outer) :
    ReadsDeclarations (declarations outer s.done.reverse) [] s.errors s [] := by
  obtain ⟨outer, rfl, -⟩ := exists_fuel houter
  refine ⟨[], ?_, ?_⟩
  · rw [declarations, List.foldl_nil, DeclarationReader.finish, hcurrent]
    exact Reads.next_nil.behind (.pure _)
  · rw [List.foldl_nil, DeclarationReader.finish, hcurrent, List.append_nil]

/-- At the end a reader may stand where another one that finishes in the same way stands. -/
theorem ReadsDeclarations.of_finish_eq {m : Descent (List Declaration)} (hfinish : s.finish = s'.finish)
    (h : ReadsDeclarations m [] errors s' []) : ReadsDeclarations m [] errors s [] := by
  rwa [ReadsDeclarations, List.foldl_nil, ← hfinish] at h

/-- At the end of the tokens a declaration ends, without a semicolon. -/
theorem reads_named_nil (hname : name.kind = .ident) (hcurrent : s.current = .named name parts)
    (houter : 0 < outer) (hinner : 0 < inner) :
    ReadsDeclarations (declarationsFrom outer inner s.done.reverse (.named name parts)) [] s.errors s
      [] := by
  have hnone : (s.endNamed name parts).current = .none := by rw [s.endNamed_eq]
  have hfinish : s.finish = (s.endNamed name parts).finish := by
    simp only [DeclarationReader.finish, hcurrent, hnone]
  refine .of_finish_eq hfinish ?_
  obtain ⟨inner, rfl, -⟩ := exists_fuel hinner
  rw [declarationsFrom, upToSemicolon, bind_assoc]
  refine .behind Reads.next_nil ?_
  rw [pure_bind]
  exact .endNamed hname (reads_declarations_nil hnone houter)

/-- So does an at-rule, which is reported as unfinished. -/
theorem reads_atRule_nil (ho : o.withoutBlock? ≠ none) (hcurrent : s.current = .atRule o)
    (houter : 0 < outer) (hinner : 0 < inner) :
    ReadsDeclarations (declarationsFrom outer inner s.done.reverse (.atRule o)) [] s.errors s [] := by
  obtain ⟨rule, hrule⟩ := Option.ne_none_iff_exists'.1 ho
  have hfinish : s.finish = ((s.record [o.unfinished]).endAtRule rule.position).finish := by
    rw [OpenRule.position_of_withoutBlock? hrule]
    simp only [DeclarationReader.finish, hcurrent, DeclarationReader.endAtRule]
  refine .of_finish_eq hfinish ?_
  rw [declarationsFrom]
  refine .behind (reads_ruleRest_nil o hinner) ?_
  rw [hrule]
  exact .endAtRule (r := s.record [o.unfinished])
    (reads_declarations_nil (s := (s.record [o.unfinished]).endAtRule rule.position) rfl houter)

/-- What is dropped up to the next semicolon is dropped up to the end. -/
theorem reads_junk_nil (hcurrent : s.current = .junk) (houter : 0 < outer) (hinner : 0 < inner) :
    ReadsDeclarations (declarationsFrom outer inner s.done.reverse .junk) [] s.errors s [] := by
  have hfinish : s.finish = { s with current := .none : DeclarationReader }.finish := by
    simp only [DeclarationReader.finish, hcurrent]
  refine .of_finish_eq hfinish ?_
  obtain ⟨inner, rfl, -⟩ := exists_fuel hinner
  rw [declarationsFrom, dropToSemicolon, bind_assoc]
  refine .behind Reads.next_nil ?_
  rw [pure_bind]
  exact reads_declarations_nil (s := { s with current := .none }) rfl houter

/-- At the end, what has been started ends. -/
theorem readsRemaining_nil : ReadsRemaining [] [] := by
  intro s outer inner hs houter hinner
  cases hcurrent : s.current with
  | none => exact reads_declarations_nil hcurrent houter
  | named name parts =>
    rw [hcurrent] at hs
    exact reads_named_nil hs hcurrent houter hinner
  | atRule o =>
    rw [hcurrent] at hs
    exact reads_atRule_nil hs hcurrent houter hinner
  | junk => exact reads_junk_nil hcurrent houter hinner

end End

/-- What cannot start anything is reported and dropped. -/
theorem Takes.startNext_eq (h : Takes 0 t ts g rest) (s : DeclarationReader)
    (hskipped : ¬ (t.kind = .whitespace ∨ t.kind = .semicolon)) (hkeyword : t.kind ≠ .atKeyword)
    (hident : t.kind ≠ .ident) :
    s.startNext g =
      { s.record (⟨Diagnostic.expectedIdent, t.position⟩ :: g.errors) with current := .junk } := by
  cases h with
  | token _ =>
    dsimp only [DeclarationReader.startNext]
    rw [if_neg hskipped, if_neg hkeyword, if_neg hident]
  | block _ _ _ | function _ _ _ => rfl

/-- What is not a semicolon is dropped with the group that it may open. -/
theorem Takes.reads_dropToSemicolon {k : Descent α} {a : α} (h : Takes 0 t ts g rest)
    (hkind : t.kind ≠ .semicolon) (hfuel : ts.length < fuel)
    (hrest : Reads (do dropToSemicolon fuel; k) rest 0 a ds [] 0) :
    Reads (do dropToSemicolon (fuel + 1); k) (t :: ts) 0 a (g.errors ++ ds) [] 0 := by
  rw [dropToSemicolon, bind_assoc]
  refine (Reads.next_cons t).behind ?_
  dsimp only
  rw [if_neg hkind, bind_assoc]
  exact (h.value_top hfuel).bind hrest

/-- What a token starts where the next declaration is looked for. -/
theorem Takes.reads_declarations (h : Takes 0 t ts g rest) (ih : ReadsRemaining rest gs)
    (s : DeclarationReader) (hcurrent : s.current = .none) (hfuel : ts.length < fuel) :
    ReadsDeclarations (declarations (fuel + 1) s.done.reverse) (t :: ts) s.errors (s.startNext g) gs := by
  rw [declarations]
  refine .behind (Reads.next_cons t) ?_
  dsimp only
  by_cases hskipped : t.kind = .whitespace ∨ t.kind = .semicolon
  · have hopens : t.kind.opensGroup = false := by
      rcases hskipped with hkind | hkind <;> (rw [hkind]; rfl)
    obtain ⟨rfl, rfl⟩ := h.of_not_opens hopens
    have hrest := ih s fuel fuel (by rw [hcurrent]; trivial) hfuel hfuel
    rw [hcurrent] at hrest
    rw [if_pos hskipped, DeclarationReader.startNext]
    dsimp only
    rw [if_pos hskipped]
    exact hrest
  · rw [if_neg hskipped]
    by_cases hkeyword : t.kind = .atKeyword
    · obtain ⟨rfl, rfl⟩ := h.of_not_opens (by rw [hkeyword]; rfl)
      have hstart : OpenRule.start (.token t) = .atRule t [] := by rw [OpenRule.start, if_pos hkeyword]
      have hrest := ih { s with current := .atRule (.atRule t []) } fuel fuel
        (Option.some_ne_none _) hfuel hfuel
      rw [if_pos hkeyword, atRule_eq hkeyword, DeclarationReader.startNext]
      dsimp only
      rw [if_neg hskipped, if_pos hkeyword, hstart]
      exact hrest
    · rw [if_neg hkeyword]
      by_cases hident : t.kind = .ident
      · obtain ⟨rfl, rfl⟩ := h.of_not_opens (by rw [hident]; rfl)
        have hrest := ih { s with current := .named t [] } fuel fuel hident hfuel hfuel
        rw [if_pos hident, DeclarationReader.startNext]
        dsimp only
        rw [if_neg hskipped, if_neg hkeyword, if_pos hident]
        exact hrest
      · have hsemicolon : t.kind ≠ .semicolon := fun hkind => hskipped (.inr hkind)
        rw [if_neg hident, h.startNext_eq s hskipped hkeyword hident]
        refine .behind (Reads.record _) ?_
        -- the token is put back, and then dropped
        obtain ⟨ds, hreads, herrors⟩ := ih
          { s.record (⟨Diagnostic.expectedIdent, t.position⟩ :: g.errors) with current := .junk } fuel fuel
          trivial (h.enough hfuel) (h.enough hfuel)
        rw [declarationsFrom] at hreads
        refine ⟨g.errors ++ ds, ?_, ?_⟩
        · have hdrop := h.reads_dropToSemicolon hsemicolon hfuel hreads
          rw [dropToSemicolon, bind_assoc] at hdrop ⊢
          exact hdrop.reconsumed
        · rw [herrors, DeclarationReader.record]
          simp

section Continued

variable (h : Takes 0 t ts g rest) (ih : ReadsRemaining rest gs) (s : DeclarationReader)
  (houter : rest.length < outer) (hinner : ts.length < inner)
include h ih houter hinner

/-- A named declaration goes on with what a token starts, or ends with a semicolon. -/
theorem Takes.reads_named {name : Token} {parts : List ComponentValue} (hname : name.kind = .ident)
    (hcurrent : s.current = .named name parts) :
    ReadsDeclarations (declarationsFrom outer (inner + 1) s.done.reverse (.named name parts)) (t :: ts)
      s.errors (s.push g) gs := by
  have hright : rest.length < inner := h.enough hinner
  rw [declarationsFrom, upToSemicolon, bind_assoc, DeclarationReader.push, hcurrent]
  refine .behind (Reads.next_cons t) ?_
  dsimp only
  by_cases hkind : t.kind = .semicolon
  · obtain ⟨rfl, rfl⟩ := h.of_not_opens (by rw [hkind]; rfl)
    have hnone : (s.endNamed name parts).current = .none := by rw [s.endNamed_eq]
    have hrest := ih (s.endNamed name parts) outer inner (by rw [hnone]; trivial) houter hright
    rw [hnone] at hrest
    rw [if_pos ((h.isToken_iff rfl).2 hkind), if_pos hkind, pure_bind]
    exact .endNamed hname hrest
  · have hrest := ih { s.record g.errors with current := .named name (g.value :: parts) } outer inner
      hname houter hright
    rw [declarationsFrom, List.reverse_cons] at hrest
    rw [if_neg (mt (h.isToken_iff rfl).1 hkind), if_neg hkind, bind_assoc]
    exact .behind (h.value_top hinner) hrest

/-- An at-rule goes on with what a token starts, or ends. -/
theorem Takes.reads_atRule {r : OpenRule} (hr : r.withoutBlock? ≠ none)
    (hcurrent : s.current = .atRule r) :
    ReadsDeclarations (declarationsFrom outer (inner + 1) s.done.reverse (.atRule r)) (t :: ts)
      s.errors (s.push g) gs := by
  have hright : rest.length < inner := h.enough hinner
  rw [declarationsFrom, DeclarationReader.push, hcurrent]
  dsimp only
  rcases h.ruleRest r hinner with ⟨rule, hstep, hreads⟩ | ⟨hstep, hgoesOn⟩
  · rw [hstep]
    dsimp only
    rw [← OpenRule.position_of_ends hstep]
    refine .behind hreads (.endAtRule (r := s.record g.errors) ?_)
    exact ih ((s.record g.errors).endAtRule rule.position) outer inner trivial houter hright
  · have hrest := ih { s.record g.errors with current := .atRule (r.add g.value) } outer inner
      (mt (r.withoutBlock?_add g.value).1 hr) houter hright
    rw [hstep]
    obtain ⟨ds, hreads, herrors⟩ := hrest
    refine ⟨g.errors ++ ds, hgoesOn hreads, ?_⟩
    dsimp only
    rw [herrors, DeclarationReader.record]
    simp

/-- What a token starts is dropped with what came before it, up to a semicolon. -/
theorem Takes.reads_junk (hcurrent : s.current = .junk) :
    ReadsDeclarations (declarationsFrom outer (inner + 1) s.done.reverse .junk) (t :: ts) s.errors
      (s.push g) gs := by
  have hright : rest.length < inner := h.enough hinner
  rw [declarationsFrom, dropToSemicolon, bind_assoc, DeclarationReader.push, hcurrent]
  refine .behind (Reads.next_cons t) ?_
  dsimp only
  by_cases hkind : t.kind = .semicolon
  · obtain ⟨rfl, rfl⟩ := h.of_not_opens (by rw [hkind]; rfl)
    rw [if_pos ((h.isToken_iff rfl).2 hkind), if_pos hkind, pure_bind]
    exact ih { s with current := .none } outer inner trivial houter hright
  · have hjunk : (s.record g.errors).current = .junk := hcurrent
    have hrest := ih (s.record g.errors) outer inner (by rw [hjunk]; trivial) houter hright
    rw [hjunk, declarationsFrom] at hrest
    rw [if_neg (mt (h.isToken_iff rfl).1 hkind), if_neg hkind, bind_assoc]
    exact .behind (h.value_top hinner) hrest

end Continued

/-- What a token starts is taken as the next part of a list of declarations. -/
theorem Takes.reads_declarationsFrom (h : Takes 0 t ts g rest) (ih : ReadsRemaining rest gs)
    (s : DeclarationReader) (hs : s.current.Started) (houter : ts.length < outer)
    (hinner : ts.length < inner) :
    ReadsDeclarations (declarationsFrom (outer + 1) (inner + 1) s.done.reverse s.current) (t :: ts)
      s.errors (s.push g) gs := by
  have hleft : rest.length < outer + 1 := Nat.lt_succ_of_lt (h.enough houter)
  cases hcurrent : s.current with
  | none =>
    rw [DeclarationReader.push, hcurrent]
    exact h.reads_declarations ih s hcurrent houter
  | named name parts =>
    rw [hcurrent] at hs
    exact h.reads_named ih s hleft hinner hs hcurrent
  | atRule r =>
    rw [hcurrent] at hs
    exact h.reads_atRule ih s hleft hinner hs hcurrent
  | junk => exact h.reads_junk ih s hleft hinner hcurrent

/-- All that is left is read as its declarations. -/
theorem Parts.readsRemaining (h : Parts ts gs) : ReadsRemaining ts gs := by
  induction h with
  | nil => exact readsRemaining_nil
  | cons htakes _ ih =>
    intro s outer inner hs houter hinner
    obtain ⟨outer, rfl, hleft⟩ := exists_fuel houter
    obtain ⟨inner, rfl, hright⟩ := exists_fuel hinner
    exact htakes.reads_declarationsFrom ih s hs hleft hright

/-- All that is left is read as declarations. -/
theorem reads_declarations (hfuel : ts.length < fuel) :
    Reads (declarations fuel []) ts 0 (Declaration.readAll ts).1 (Declaration.readAll ts).2 [] 0 := by
  obtain ⟨ds, hreads, herrors⟩ := (parts_ofTokens ts).readsRemaining {} fuel fuel trivial hfuel hfuel
  rw [Declaration.readAll, Declaration.ofGroups, herrors]
  exact hreads

end Descent

end StyleGate
