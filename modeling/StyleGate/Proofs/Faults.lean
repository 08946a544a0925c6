import StyleGate.Proofs.Crew
import StyleGate.Proofs.Values

/-!
# What is reported of a value

A value is at fault by itself or through what it holds. `ValuePolicy.ownFault?` says what is wrong with
a value in itself, knowing only how many groups are around it. A worker for values reports just that, in
the order of the text, of every value in a tree that is not inside another one that is at fault
(`ValuePolicy.faults_eq_reports`): nothing inside such a group is looked at, and everything inside any
other group is. So it records one diagnostic for each of these values and nothing else, whatever is in
its log, and accepts the values of its grammar (`valueWork_explained`).
-/

namespace StyleGate

open Text

/-! ## The values in a value -/

namespace ComponentValue

/-- The values between the brackets of a value. A token has none. -/
def contents : ComponentValue → List ComponentValue
  | token _ => []
  | block _ contents => contents
  | function _ contents => contents

/-- A property of all values: it holds of a value if it holds of all its contents. -/
theorem induct_contents {motive : ComponentValue → Prop}
    (step : ∀ v, (∀ w ∈ v.contents, motive w) → motive v) : ∀ v, motive v :=
  induct (fun t => step (token t) nofun) (fun opener contents ih => step (block opener contents) ih)
    (fun name contents ih => step (function name contents) ih)

/-- A value in a tree, and the groups around it there, the innermost first. -/
structure Occurrence where
  node : ComponentValue
  around : List ComponentValue

mutual

/-- The values in a value, the value itself included, inside some groups. They are in the order of the
text, so a group comes before its contents. -/
def occurrences (around : List ComponentValue) : ComponentValue → List Occurrence
  | token t => [⟨token t, around⟩]
  | block opener contents =>
    ⟨block opener contents, around⟩ :: occurrencesAll (block opener contents :: around) contents
  | function name contents =>
    ⟨function name contents, around⟩ :: occurrencesAll (function name contents :: around) contents

/-- The values in the values of a list inside some groups. -/
def occurrencesAll (around : List ComponentValue) : List ComponentValue → List Occurrence
  | [] => []
  | v :: rest => occurrences around v ++ occurrencesAll around rest

end

/-- The values in a list are those in its members, in order. -/
theorem occurrencesAll_eq_flatMap (around vs : List ComponentValue) :
    occurrencesAll around vs = vs.flatMap (occurrences around) := by
  induction vs with
  | nil => rfl
  | cons v vs ih => rw [occurrencesAll, ih, List.flatMap_cons]

/-- A value comes in front of the values that it holds, which lie one group further in. -/
theorem occurrences_eq (around : List ComponentValue) (v : ComponentValue) :
    v.occurrences around = ⟨v, around⟩ :: v.contents.flatMap (occurrences (v :: around)) := by
  rw [← occurrencesAll_eq_flatMap]
  cases v <;> rfl

end ComponentValue

open ComponentValue (Occurrence)

namespace ValuePolicy

/-! ## Values that are at fault -/

/-- What is wrong with a value in itself inside `depth` groups: a token that no value may hold, a brace
block, a function or url that is not allowed, a group that lies too deep. -/
def ownFault? (p : ValuePolicy) (depth : Nat) : ComponentValue → Option String
  | .token t =>
    if t.kind.isForbidden then some Diagnostic.invalidToken
    else if t.kind = .url ∧ p.allowUrls = false then some Diagnostic.disallowedUrl
    else none
  | .block opener _ =>
    if opener.kind = .leftBrace then some Diagnostic.unexpectedBlock
    else if maxGroupDepth ≤ depth then some Diagnostic.nestingTooDeep
    else none
  | .function name contents =>
    if sameFolded name.value "url" then
      if p.allowUrls = false then some Diagnostic.disallowedUrl
      else if isUrlContent contents then none
      else some Diagnostic.invalidToken
    else if containsFolded p.functions name.value = false then some Diagnostic.disallowedFunction
    else if maxGroupDepth ≤ depth then some Diagnostic.nestingTooDeep
    else none

/-- Whether one of the groups around a value, the innermost first, is itself at fault. -/
def insideFault (p : ValuePolicy) : List ComponentValue → Bool
  | [] => false
  | group :: around => (p.ownFault? around.length group).isSome || p.insideFault around

/-- What is reported of a value in a tree: what is wrong with it in itself, if no group around it is at
fault. -/
def report? (p : ValuePolicy) (o : Occurrence) : Option Diagnostic :=
  if p.insideFault o.around then none
  else (p.ownFault? o.around.length o.node).map fun code => ⟨code, o.node.position⟩

/-! ## Faults of groups and of their contents -/

variable {p : ValuePolicy} {depth : Nat} {v : ComponentValue}

/-- Of a token nothing is wrong but what is wrong with it in itself. -/
theorem tokenFaults_eq (p : ValuePolicy) (depth : Nat) (t : Token) :
    p.tokenFaults t =
      ((p.ownFault? depth (.token t)).map fun code => ⟨code, t.position⟩).toList := by
  cases hkind : t.kind <;> simp [tokenFaults, ownFault?, hkind, TokenKind.isForbidden]
  cases p.allowUrls <;> rfl

/-- Of the contents of a proper `url` nothing is wrong. -/
theorem faultsAll_of_isQuotedUrl {contents : List ComponentValue}
    (h : ComponentValue.IsQuotedUrl contents) : p.faultsAll depth contents = [] := by
  rw [faultsAll_eq_flatMap, List.flatMap_eq_nil_iff]
  intro v hv
  obtain ⟨t, rfl, ht⟩ := h.plain v hv
  rw [faults, tokenFaults_eq_nil_iff]
  rcases ht with ht | ht <;> simp [ht, TokenKind.isForbidden]

/-- Of a value that is itself at fault nothing else is said, and of any other value what is wrong with
its contents. -/
theorem faults_eq (p : ValuePolicy) (depth : Nat) (v : ComponentValue) :
    p.faults depth v = match p.ownFault? depth v with
      | some code => [⟨code, v.position⟩]
      | none => p.faultsAll (depth + 1) v.contents := by
  cases v with
  | token t =>
    rw [faults, tokenFaults_eq p depth]
    cases p.ownFault? depth (.token t) <;> rfl
  | block opener contents =>
    rw [faults, ownFault?]
    split
    · rfl
    · split <;> rfl
  | function name contents =>
    rw [faults, ownFault?]
    split
    · rw [urlFaults]
      cases p.allowUrls with
      | false => rfl
      | true =>
        cases hcontent : isUrlContent contents with
        | false => rfl
        | true => exact (faultsAll_of_isQuotedUrl (isUrlContent_iff.1 hcontent)).symm
    · cases containsFolded p.functions name.value with
      | false => rfl
      | true =>
        simp only [Bool.not_true, Bool.false_eq_true, Bool.true_eq_false, if_false]
        split <;> rfl

/-! ## Reports -/

/-- Nothing is reported of values inside a group that is at fault. -/
theorem reports_insideFault (v : ComponentValue) :
    ∀ around : List ComponentValue, p.insideFault around = true →
      (v.occurrences around).filterMap p.report? = [] := by
  induction v using ComponentValue.induct_contents with
  | step v ih =>
    intro around h
    have hnone : p.report? ⟨v, around⟩ = none := by rw [report?, if_pos h]
    rw [ComponentValue.occurrences_eq, List.filterMap_cons_none hnone, List.filterMap_flatMap,
      List.flatMap_eq_nil_iff]
    intro w hw
    refine ih w hw _ ?_
    rw [insideFault, h, Bool.or_true]

/-- What is wrong with a value is what is reported of the values in it. -/
theorem faults_eq_reports (v : ComponentValue) :
    ∀ around : List ComponentValue, p.insideFault around = false →
      p.faults around.length v = (v.occurrences around).filterMap p.report? := by
  induction v using ComponentValue.induct_contents with
  | step v ih =>
    intro around h
    rw [faults_eq, ComponentValue.occurrences_eq]
    cases hown : p.ownFault? around.length v with
    | some code =>
      have hinside : p.insideFault (v :: around) = true := by
        rw [insideFault, hown]
        rfl
      have hreport : p.report? ⟨v, around⟩ = some ⟨code, v.position⟩ := by
        rw [report?, if_neg (by simp [h]), hown]
        rfl
      have hcontents : (v.contents.flatMap (ComponentValue.occurrences (v :: around))).filterMap
          p.report? = [] := by
        rw [List.filterMap_flatMap, List.flatMap_eq_nil_iff]
        exact fun w _ => reports_insideFault w _ hinside
      rw [List.filterMap_cons_some hreport, hcontents]
    | none =>
      have hinside : p.insideFault (v :: around) = false := by
        rw [insideFault, hown, h]
        rfl
      have hreport : p.report? ⟨v, around⟩ = none := by
        rw [report?, if_neg (by simp [h]), hown]
        rfl
      rw [List.filterMap_cons_none hreport, List.filterMap_flatMap, faultsAll_eq_flatMap]
      exact List.flatMap_congr fun w hw => ih w hw _ hinside

end ValuePolicy

/-- **Every rejection is explained.** A worker for values that is in no group records, behind whatever
is in its log, one diagnostic for each value in a tree that is itself at fault and not inside another
one that is, in the order of the text, and nothing else. It keeps the value as it is if it records
nothing, and removes it otherwise; it records nothing exactly if the value is permitted and no group
lies too deep. -/
theorem valueWork_explained (p : ValuePolicy) (log : List Diagnostic) {v : ComponentValue}
    (h : v.Formed) :
    let reports := (v.occurrences []).filterMap p.report?
    valueWork ⟨⟨p, 0⟩, log⟩ v =
      (if reports = [] then .kept else .removed, ⟨⟨p, 0⟩, log ++ reports⟩) ∧
    (reports = [] ↔ p.Permits v ∧ v.searchDepth ≤ maxGroupDepth) := by
  intro reports
  have hreports : p.faults 0 v = reports := ValuePolicy.faults_eq_reports v [] rfl
  constructor
  · rw [performs_valueWork, ValuePolicy.judge, hreports, Judgement.ofFaults]
    cases reports <;> rfl
  · rw [← hreports]
    exact ValuePolicy.faults_eq_nil_iff h

/-- Of `rgb(@a calc(;)[<!--])` the keyword, the function that is not listed and the mark in the brackets
are reported. The semicolon lies inside a fault. -/
theorem valueWork_explained_rgb :
    let p : ValuePolicy := { functions := ["rgb"], allowUrls := false }
    let earlier : Diagnostic := ⟨Diagnostic.disallowedUrl, ⟨9, 9⟩⟩
    let v : ComponentValue := .function ⟨.function, "rgb", ⟨1, 1⟩, true⟩
      [.token ⟨.atKeyword, "a", ⟨1, 5⟩, true⟩,
        .function ⟨.function, "calc", ⟨1, 8⟩, true⟩ [.token ⟨.semicolon, "", ⟨1, 13⟩, true⟩],
        .block ⟨.leftBracket, "", ⟨1, 15⟩, true⟩ [.token ⟨.cdo, "", ⟨1, 16⟩, true⟩]]
    v.Formed ∧
    valueWork ⟨⟨p, 0⟩, [earlier]⟩ v = (.removed, ⟨⟨p, 0⟩, [earlier,
      ⟨Diagnostic.invalidToken, ⟨1, 5⟩⟩, ⟨Diagnostic.disallowedFunction, ⟨1, 8⟩⟩,
      ⟨Diagnostic.invalidToken, ⟨1, 16⟩⟩]⟩) ∧
    ¬(p.Permits v ∧ v.searchDepth ≤ maxGroupDepth) := by
  intro p earlier v
  have hv : v.Formed := by
    refine .function rfl ?_
    simp only [List.forall_mem_cons]
    exact ⟨.token, .function rfl (List.forall_mem_singleton.2 .token),
      .block rfl (List.forall_mem_singleton.2 .token), nofun⟩
  have hreports : (v.occurrences []).filterMap p.report? =
      [⟨Diagnostic.invalidToken, ⟨1, 5⟩⟩, ⟨Diagnostic.disallowedFunction, ⟨1, 8⟩⟩,
        ⟨Diagnostic.invalidToken, ⟨1, 16⟩⟩] := by decide +kernel
  obtain ⟨hwork, hgrammar⟩ := valueWork_explained p [earlier] hv
  rw [hreports] at hwork hgrammar
  exact ⟨hv, hwork, fun h => List.cons_ne_nil _ _ (hgrammar.2 h)⟩

end StyleGate
