import Mathlib.Data.List.InsertIdx
import StyleGate.Policy.Standard
import StyleGate.Proofs.Crew

/-!
# Rules are judged apart

`SheetWorker.verdicts` lists what a pass makes of each rule of a stylesheet, as the workers find it, with
all that they remember: the outcome, and what is reported. The log of a pass is these reports one after
another, and what it leaves is what the outcomes leave (`Handout.foldl_next_eq`).

A verdict depends on the rules in front only through their sorts (`RuleSanitizer.planFrom_congr`): whom a
rule goes to, and the highest index so far, follow from the names of rules alone. So what is in a rule
makes no difference to the others (`SheetWorker.verdicts_apart`).
-/

namespace StyleGate

open Text

/-! ## Verdicts -/

/-- What is left of rules, by what becomes of each of them. -/
def Rule.leftBy (rules : List Rule) (verdicts : List (Judgement Rule)) : List Rule :=
  (rules.zip verdicts).filterMap fun x => x.2.outcome.survivor x.1

/-- What is left of the first rule comes first. -/
theorem Rule.leftBy_cons (r : Rule) (rules : List Rule) (j : Judgement Rule)
    (verdicts : List (Judgement Rule)) :
    leftBy (r :: rules) (j :: verdicts) =
      (j.outcome.survivor r).toList ++ leftBy rules verdicts := by
  cases h : j.outcome.survivor r <;> simp [leftBy, h]

/-- A verdict that leaves nothing changes nothing about what is left. -/
theorem Rule.leftBy_insertIdx {r : Rule} {j : Judgement Rule} (h : j.outcome.survivor r = none) (n : Nat)
    {rules : List Rule} {verdicts : List (Judgement Rule)} (hlength : verdicts.length = rules.length) :
    leftBy (rules.insertIdx n r) (verdicts.insertIdx n j) = leftBy rules verdicts := by
  induction n generalizing rules verdicts with
  | zero => rw [List.insertIdx_zero, List.insertIdx_zero, leftBy_cons, h, Option.toList_none,
      List.nil_append]
  | succ n ih =>
    cases rules with
    | nil => rw [List.eq_nil_of_length_eq_zero hlength]; rfl
    | cons s rules =>
      cases verdicts with
      | nil => cases hlength
      | cons i verdicts =>
        rw [List.insertIdx_succ_cons, List.insertIdx_succ_cons, leftBy_cons, leftBy_cons,
          ih (Nat.succ.inj hlength)]

namespace Handout

variable {σ : Type} {work : Work σ Rule} {h : Handout σ} {r : Rule}

/-- What becomes of the next rule, and what is reported of it. -/
def verdict (work : Work σ Rule) (h : Handout σ) (r : Rule) : Judgement Rule :=
  match h.workers.findFinIdx? (·.handles r) with
  | none => .refuse Diagnostic.unrecognizedRule r.position
  | some k =>
    let worker := h.workers.get k
    if worker.index.test < h.highest then .refuse Diagnostic.misorderedRule r.position
    else
      let (outcome, w) := work worker.toLogged r
      ⟨outcome, w.log⟩

/-- What becomes of the rules of a list, and what is reported of each of them. -/
def verdicts (work : Work σ Rule) (h : Handout σ) : List Rule → List (Judgement Rule)
  | [] => []
  | r :: rest => h.verdict work r :: verdicts work (h.next work r) rest

/-- There is one verdict for each rule. -/
theorem length_verdicts (work : Work σ Rule) (h : Handout σ) (rules : List Rule) :
    (h.verdicts work rules).length = rules.length := by
  induction rules generalizing h with
  | nil => rfl
  | cons r rules ih => rw [verdicts, List.length_cons, ih, List.length_cons]

/-- A rule that no worker handles is refused as an unknown one. -/
theorem verdict_of_unhandled (hnone : h.workers.findIdx? (·.handles r) = none) :
    h.verdict work r = .refuse Diagnostic.unrecognizedRule r.position := by
  rw [List.findIdx?_eq_map_findFinIdx?_val, Option.map_eq_none_iff] at hnone
  rw [verdict, hnone]

/-- A rule that comes too late for its worker is refused; else the worker's answer is the verdict. -/
theorem verdict_of_handled {place : Nat} {w : RuleWorker σ}
    (hplace : h.workers.findIdx? (·.handles r) = some place) (hw : h.workers[place]? = some w) :
    h.verdict work r =
      if w.index.test < h.highest then .refuse Diagnostic.misorderedRule r.position
      else ⟨(work w.toLogged r).1, (work w.toLogged r).2.log⟩ := by
  rw [List.findIdx?_eq_map_findFinIdx?_val, Option.map_eq_some_iff] at hplace
  obtain ⟨k, hk, rfl⟩ := hplace
  obtain rfl : h.workers.get k = w := Option.some.inj ((List.getElem?_eq_getElem k.isLt).symm.trans hw)
  rw [verdict, hk]

/-- The next rule adds its report to the log, and what is left of it to what is left. -/
theorem next_eq (work : Work σ Rule) (h : Handout σ) (r : Rule) :
    (h.next work r).log = h.log ++ (h.verdict work r).errors ∧
      (h.next work r).kept = h.kept ++ ((h.verdict work r).outcome.survivor r).toList := by
  rcases h.next_cases work r with ⟨hnone, hnext⟩ | ⟨place, w, hplace, hw, ⟨hlt, hnext⟩ | ⟨hle, hnext⟩⟩
  · rw [hnext, verdict_of_unhandled hnone]
    exact ⟨rfl, (List.append_nil _).symm⟩
  · rw [hnext, verdict_of_handled hplace hw, if_pos hlt]
    exact ⟨rfl, (List.append_nil _).symm⟩
  · rw [hnext, verdict_of_handled hplace hw, if_neg (Int32.not_lt.2 hle)]
    exact ⟨rfl, rfl⟩

/-- The rules of a list add their reports to the log, and what is left of them to what is left. -/
theorem foldl_next_eq (work : Work σ Rule) (h : Handout σ) (rules : List Rule) :
    (rules.foldl (next work) h).log = h.log ++ (h.verdicts work rules).flatMap (·.errors) ∧
      (rules.foldl (next work) h).kept = h.kept ++ Rule.leftBy rules (h.verdicts work rules) := by
  induction rules generalizing h with
  | nil => exact ⟨(List.append_nil _).symm, (List.append_nil _).symm⟩
  | cons r rules ih =>
    obtain ⟨hlog, hkept⟩ := h.next_eq work r
    obtain ⟨hlogs, hkepts⟩ := ih (h.next work r)
    rw [List.foldl_cons, hlogs, hkepts, hlog, hkept, verdicts, List.flatMap_cons, Rule.leftBy_cons]
    exact ⟨List.append_assoc _ _ _, List.append_assoc _ _ _⟩

/-- Workers that do the work of sanitizers find their judgement on the next rule. -/
theorem verdict_of_embodies {sanitizers : List RuleSanitizer}
    (hall : List.Forall₂ (Embodies work) h.workers sanitizers) (r : Rule) :
    h.verdict work r = (RuleSanitizer.assess sanitizers h.highest r).judge r := by
  cases hplace : h.workers.findIdx? (·.handles r) with
  | none =>
    rw [verdict_of_unhandled hplace, RuleSanitizer.assess, find?_eq_none_of_embodies hall hplace,
      Admission.judge]
  | some place =>
    obtain ⟨hlt, -⟩ := List.findIdx?_eq_some_iff_getElem.1 hplace
    have hw := List.getElem?_eq_getElem hlt
    obtain ⟨s, hfind, hembodies⟩ := find?_of_embodies hall hplace hw
    obtain ⟨houtcome, hrest⟩ := Prod.mk.inj (hembodies.performs.delegate hembodies.log [] r)
    obtain ⟨herrors, -⟩ := Prod.mk.inj hrest
    simp only [List.nil_append] at herrors
    simp only [verdict_of_handled hplace hw, RuleSanitizer.assess, hfind, hembodies.index, houtcome,
      herrors]
    split <;> rfl

/-- Workers that do the work of sanitizers find their judgements on the rules of a list. -/
theorem verdicts_of_embodies {sanitizers : List RuleSanitizer}
    (hall : List.Forall₂ (Embodies work) h.workers sanitizers) (rules : List Rule) :
    h.verdicts work rules =
      List.zipWith (fun r a => a.judge r) rules
        (RuleSanitizer.planFrom sanitizers h.highest rules) := by
  induction rules generalizing h with
  | nil => rfl
  | cons r rules ih =>
    have hnext := next_of_embodies hall r
    have hall' : List.Forall₂ (Embodies work) (h.next work r).workers sanitizers := by
      rwa [hnext]
    rw [verdicts, ih hall', verdict_of_embodies hall, hnext, RuleSanitizer.planFrom,
      List.zipWith_cons_cons]

end Handout

/-! ## What decides about a rule -/

/-- Pairs that are inserted at one place of two lists stand at that place of the list of pairs. -/
theorem zipWith_insertIdx {α β γ : Type} {f : α → β → γ} {as : List α} {bs : List β}
    (hlength : as.length = bs.length) (n : Nat) (a : α) (b : β) :
    List.zipWith f (as.insertIdx n a) (bs.insertIdx n b) =
      (List.zipWith f as bs).insertIdx n (f a b) := by
  induction n generalizing as bs with
  | zero => rfl
  | succ n ih =>
    cases as with
    | nil => rw [List.eq_nil_of_length_eq_zero hlength.symm]; rfl
    | cons c as =>
      cases bs with
      | nil => cases hlength
      | cons d bs =>
        rw [List.insertIdx_succ_cons, List.insertIdx_succ_cons, List.zipWith_cons_cons,
          ih (Nat.succ.inj hlength), List.zipWith_cons_cons, List.insertIdx_succ_cons]

namespace RuleSanitizer

/-- Whom rules go to decides about them: nothing else in a rule counts, not even for the others. -/
theorem planFrom_congr {sanitizers : List RuleSanitizer} {rules rules' : List Rule} (highest : Int32)
    (h : rules.map (fun r => sanitizers.find? (·.handles r)) =
      rules'.map (fun r => sanitizers.find? (·.handles r))) :
    planFrom sanitizers highest rules = planFrom sanitizers highest rules' := by
  induction rules generalizing highest rules' with
  | nil => rw [List.map_eq_nil_iff.1 h.symm]
  | cons r rules ih =>
    cases rules' with
    | nil => cases h
    | cons r' rules' =>
      obtain ⟨hfirst, hrest⟩ := List.cons.inj h
      dsimp only at hfirst
      have hassess : assess sanitizers highest r = assess sanitizers highest r' := by
        rw [assess, assess, hfirst]
      rw [planFrom, planFrom, hassess, ih _ hrest]

/-- There is one assessment for each rule. -/
theorem length_planFrom (sanitizers : List RuleSanitizer) (highest : Int32) (rules : List Rule) :
    (planFrom sanitizers highest rules).length = rules.length := by
  induction rules generalizing highest with
  | nil => rfl
  | cons r rules ih => rw [planFrom, List.length_cons, ih, List.length_cons]

/-- A rule that no sanitizer handles does not count for the others. -/
theorem planFrom_insertIdx {sanitizers : List RuleSanitizer} {r : Rule}
    (hnone : sanitizers.find? (·.handles r) = none) (highest : Int32) (n : Nat) (rules : List Rule) :
    planFrom sanitizers highest (rules.insertIdx n r) =
      (planFrom sanitizers highest rules).insertIdx n .unrecognized := by
  have hassess : ∀ highest, assess sanitizers highest r = .unrecognized := by
    intro highest
    rw [assess, hnone]
  induction n generalizing highest rules with
  | zero => simp only [List.insertIdx_zero, planFrom, hassess, Admission.raise]
  | succ n ih =>
    cases rules with
    | nil => rfl
    | cons s rules => rw [List.insertIdx_succ_cons, planFrom, ih, planFrom, List.insertIdx_succ_cons]

end RuleSanitizer

/-- Rules of one sort: two style rules, or two at-rules of one name up to the case of ASCII letters. -/
def Rule.Alike : Rule → Rule → Prop
  | .atRule r, .atRule s => sameFolded r.name s.name = true
  | .qualified _, .qualified _ => True
  | _, _ => False

/-- Rules of one sort go to the same sanitizer. -/
theorem Policy.find?_sanitizersOf_of_alike (p : Policy) (levels : Nat) (entries : List AtRulePolicy)
    {r s : Rule} (h : r.Alike s) :
    (p.sanitizersOf levels entries).find? (·.handles r) =
      (p.sanitizersOf levels entries).find? (·.handles s) := by
  cases r with
  | atRule r =>
    cases s with
    | qualified s => exact h.elim
    | atRule s =>
      have hname : ∀ entry : AtRulePolicy, entry.isNamed r.name = entry.isNamed s.name := by
        intro entry
        rw [Rule.Alike, sameFolded, beq_iff_eq] at h
        rw [AtRulePolicy.isNamed, AtRulePolicy.isNamed, sameFolded, sameFolded, h]
      rw [find?_sanitizersOf_atRule, find?_sanitizersOf_atRule]
      simp only [hname]
  | qualified r =>
    cases s with
    | atRule s => exact h.elim
    | qualified s => rw [find?_sanitizersOf_qualified, find?_sanitizersOf_qualified]

/-! ## Passes -/

namespace SheetWorker

/-- What a pass makes of each rule of a stylesheet. -/
def verdicts (w : SheetWorker) (rules : List Rule) : List (Judgement Rule) :=
  Handout.verdicts (ruleWork (maxGroupRuleDepth + 1)) { workers := w.state, log := w.log } rules

/-- Whatever a worker has logged, its verdicts are the judgements that the sanitizers plan. -/
theorem verdicts_eq (p : Policy) (log : List Diagnostic) (rules : List Rule) :
    verdicts ⟨(ofPolicy p).state, log⟩ rules =
      List.zipWith (fun r a => a.judge r) rules (RuleSanitizer.plan p.sanitizers rules) :=
  Handout.verdicts_of_embodies (embodies_ofPolicy p) rules

/-- A pass leaves what its verdicts leave, and logs what they report. -/
theorem pass_eq_verdicts (p : Policy) (log : List Diagnostic) (rules : List Rule) :
    let w : SheetWorker := ⟨(ofPolicy p).state, log⟩
    let left := Rule.leftBy rules (w.verdicts rules)
    w.pass rules = (if Rule.agreesAll left rules then .kept else .replaced left,
      ⟨w.state, w.log ++ (w.verdicts rules).flatMap (·.errors)⟩) := by
  intro w left
  obtain ⟨hlog, hkept⟩ := Handout.foldl_next_eq (ruleWork (maxGroupRuleDepth + 1))
    { workers := w.state, log := w.log } rules
  obtain ⟨hworkers, -, -⟩ := handOut_of_embodies (embodies_ofPolicy p) log rules
  have hleft : (handOut (ruleWork (maxGroupRuleDepth + 1)) w.log w.state rules).kept = left := hkept
  have hstate : (handOut (ruleWork (maxGroupRuleDepth + 1)) w.log w.state rules).workers = w.state :=
    hworkers
  have hreports : (handOut (ruleWork (maxGroupRuleDepth + 1)) w.log w.state rules).log =
      w.log ++ (w.verdicts rules).flatMap (·.errors) := hlog
  simp only [pass, hleft, hstate, hreports]

/-- Lists of rules that differ at one place, in rules of one sort, have the same verdicts elsewhere. -/
theorem verdicts_of_alike (p : Policy) (log : List Diagnostic) {rules rules' : List Rule} {k : Nat}
    (hlength : rules.length = rules'.length) (hsame : ∀ i, i ≠ k → rules[i]? = rules'[i]?)
    (halike : ∀ r r', rules[k]? = some r → rules'[k]? = some r' → r.Alike r') {i : Nat}
    (hi : i ≠ k) :
    (verdicts ⟨(ofPolicy p).state, log⟩ rules)[i]? =
      (verdicts ⟨(ofPolicy p).state, log⟩ rules')[i]? := by
  have hgoes : rules.map (fun r => p.sanitizers.find? (·.handles r)) =
      rules'.map (fun r => p.sanitizers.find? (·.handles r)) := by
    refine List.ext_getElem? fun j => ?_
    rw [List.getElem?_map, List.getElem?_map]
    by_cases hj : j = k
    · subst hj
      cases hr : rules[j]? with
      | none => rw [List.getElem?_eq_none (hlength ▸ List.getElem?_eq_none_iff.1 hr)]
      | some r =>
        obtain ⟨hlt, -⟩ := List.getElem?_eq_some_iff.1 hr
        have hr' := List.getElem?_eq_getElem (hlength ▸ hlt)
        rw [hr', Option.map_some, Option.map_some, Option.some.injEq]
        exact p.find?_sanitizersOf_of_alike maxGroupRuleDepth p.atRules (halike r _ hr hr')
    · rw [hsame j hj]
  have hplan := RuleSanitizer.planFrom_congr Int32.minValue hgoes
  rw [verdicts_eq, verdicts_eq, List.getElem?_zipWith, List.getElem?_zipWith, hsame i hi,
    RuleSanitizer.plan, RuleSanitizer.plan, hplan]

/-- A worker for stylesheets has one verdict for each rule, too. -/
theorem length_verdicts (w : SheetWorker) (rules : List Rule) :
    (w.verdicts rules).length = rules.length :=
  Handout.length_verdicts _ _ _

/-- A rule that is inserted, and that no worker handles, gets its own verdict and changes no other. -/
theorem verdicts_insertIdx (p : Policy) (log : List Diagnostic) (rules : List Rule) (n : Nat)
    {r : Rule} (hunhandled : ∀ v ∈ (ofPolicy p).state, v.handles r = false) :
    verdicts ⟨(ofPolicy p).state, log⟩ (rules.insertIdx n r) =
      (verdicts ⟨(ofPolicy p).state, log⟩ rules).insertIdx n
        (.refuse Diagnostic.unrecognizedRule r.position) := by
  have hnone := find?_eq_none_of_embodies (embodies_ofPolicy p)
    (List.findIdx?_eq_none_iff.2 hunhandled)
  have hplan : RuleSanitizer.plan p.sanitizers (rules.insertIdx n r) =
      (RuleSanitizer.plan p.sanitizers rules).insertIdx n .unrecognized :=
    RuleSanitizer.planFrom_insertIdx hnone _ n rules
  have hlength : rules.length = (RuleSanitizer.plan p.sanitizers rules).length :=
    (RuleSanitizer.length_planFrom _ _ _).symm
  rw [verdicts_eq, verdicts_eq, hplan, zipWith_insertIdx hlength, Admission.judge]

/-- **Rules are judged apart.** Whatever a worker for stylesheets was asked to do before, its log grows by
the reports of its verdicts on the rules, in order, and it leaves what they leave. If stylesheets differ
at one place only, in two style rules or in two at-rules of one name, then the verdicts on all other
rules are the same. A rule that is inserted and that no worker handles is reported as such, and changes
no other verdict and nothing about what is left. -/
theorem verdicts_apart (p : Policy) (done : List Request) :
    let w := (ofPolicy p).after done
    (∀ rules,
      let left := Rule.leftBy rules (w.verdicts rules)
      (w.verdicts rules).length = rules.length ∧
      w.pass rules = (if Rule.agreesAll left rules then .kept else .replaced left,
        ⟨w.state, w.log ++ (w.verdicts rules).flatMap (·.errors)⟩)) ∧
    (∀ (rules rules' : List Rule) (k : Nat), rules.length = rules'.length →
      (∀ i, i ≠ k → rules[i]? = rules'[i]?) →
      (∀ r r', rules[k]? = some r → rules'[k]? = some r' → r.Alike r') →
      ∀ i, i ≠ k → (w.verdicts rules)[i]? = (w.verdicts rules')[i]?) ∧
    (∀ (rules : List Rule) (n : Nat) (r : Rule), (∀ v ∈ w.state, v.handles r = false) →
      w.verdicts (rules.insertIdx n r) =
        (w.verdicts rules).insertIdx n (.refuse Diagnostic.unrecognizedRule r.position) ∧
      Rule.leftBy (rules.insertIdx n r) (w.verdicts (rules.insertIdx n r)) =
        Rule.leftBy rules (w.verdicts rules)) := by
  rw [after_eq]
  refine ⟨fun rules => ⟨length_verdicts _ rules, pass_eq_verdicts p _ rules⟩,
    fun rules rules' k hlength hsame halike i hi => verdicts_of_alike p _ hlength hsame halike hi,
    fun rules n r hunhandled => ?_⟩
  have hinserted := verdicts_insertIdx p (reports p (sinceClear done)) rules n hunhandled
  refine ⟨hinserted, ?_⟩
  rw [hinserted]
  exact Rule.leftBy_insertIdx rfl n (length_verdicts _ rules)

/-- A media rule without a block is removed and one with a block is not, but either makes the charset
rule behind it come too late. So does it with an unknown rule between them. -/
theorem verdicts_apart_media :
    let w := ofPolicy Policy.standard
    let without : Rule := .atRule (.ofName "media")
    let empty : Rule := .atRule { keyword := Token.of .atKeyword "MEDIA", block := some Block.braces }
    let charset : Rule := .atRule (.ofName "charset")
    let unheard : Rule := .atRule (.ofName "unheard")
    (w.verdicts [without, charset])[1]? = (w.verdicts [empty, charset])[1]? ∧
      (w.verdicts [without, charset])[0]? ≠ (w.verdicts [empty, charset])[0]? ∧
      w.verdicts [empty, unheard, charset] =
        (w.verdicts [empty, charset]).insertIdx 1
          (.refuse Diagnostic.unrecognizedRule Position.unknown) ∧
      (w.pass [empty, unheard, charset]).2.log =
        [⟨Diagnostic.unrecognizedRule, Position.unknown⟩,
          ⟨Diagnostic.misorderedRule, Position.unknown⟩] := by
  intro w without empty charset unheard
  obtain ⟨-, hsame, hinserted⟩ := verdicts_apart Policy.standard []
  refine ⟨hsame [without, charset] [empty, charset] 0 rfl ?_ ?_ 1 Nat.one_ne_zero, ?_,
    (hinserted [empty, charset] 1 unheard ?_).1, by decide +kernel⟩
  · rintro (_ | i) hi
    · exact absurd rfl hi
    · rfl
  · rintro r r' ⟨⟩ ⟨⟩
    exact (by decide +kernel : sameFolded "media" "MEDIA" = true)
  · intro hfirst
    have herrors := congrArg (Option.map fun j => j.errors.length) hfirst
    exact absurd herrors (by decide +kernel)
  · decide +kernel

end SheetWorker

end StyleGate
