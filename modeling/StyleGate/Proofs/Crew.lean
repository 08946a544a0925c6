import Mathlib.Data.List.Forall2
import StyleGate.Gate.Crew
import StyleGate.Proofs.Dispatch
import StyleGate.Proofs.Soundness

/-!
# Workers leave no trace

A worker performs judgements if it does what they say in whatever its log already holds, and is in the
same state afterwards (`Performs`). Workers of a policy do, from those for values upwards: each helper's
log is empty again when its diagnostics were taken, and a worker for values leaves every group it
entered. So a worker for stylesheets is, after any work, like one that did nothing yet, but for its own
log (`SheetWorker.serve_after`).
-/

namespace StyleGate

open Text

section

variable {σ τ α : Type}

/-- A worker in the state `s` judges as `judge` does, and stays in that state. -/
def Performs (work : Work σ α) (s : σ) (judge : α → Judgement α) : Prop :=
  ∀ log node, work ⟨s, log⟩ node = ((judge node).outcome, ⟨s, log ++ (judge node).errors⟩)

namespace Performs

variable {work : Work σ α} {s : σ} {judge : α → Judgement α}

/-- A performing worker is handed a node. -/
theorem delegate {w : Logged σ} (h : Performs work w.state judge) (hempty : w.log = [])
    (log : List Diagnostic) (node : α) :
    w.delegate work log node = ((judge node).outcome, log ++ (judge node).errors, w) := by
  obtain ⟨s, log'⟩ := w
  obtain rfl : log' = [] := hempty
  rw [Logged.delegate, h]
  rfl

/-- A performing worker is handed the nodes of a list. -/
theorem sift (h : Performs work s judge) (log : List Diagnostic) (nodes : List α) :
    Logged.sift work ⟨s, log⟩ nodes =
      ((sanitizeList judge nodes).1, ⟨s, log ++ (sanitizeList judge nodes).2⟩) := by
  induction nodes generalizing log with
  | nil => simp [Logged.sift, sanitizeList, Judgement.collect]
  | cons node rest ih =>
    simp only [Logged.sift, h log node, ih]
    cases hs : (judge node).outcome.survivor node <;>
      simp [sanitizeList, Judgement.collect, hs]

/-- A performing worker is handed the nodes of a list, and its diagnostics are taken. -/
theorem delegateAll {w : Logged σ} (h : Performs work w.state judge) (hempty : w.log = [])
    (log : List Diagnostic) (nodes : List α) :
    w.delegateAll work log nodes =
      ((sanitizeList judge nodes).1, log ++ (sanitizeList judge nodes).2, w) := by
  obtain ⟨s, log'⟩ := w
  obtain rfl : log' = [] := hempty
  rw [Logged.delegateAll, h.sift]
  rfl

end Performs

/-! ## Values -/

namespace ValueState

/-- Looking at a group, if looking at its contents finds these faults: the worker is out of the group
again. -/
theorem checkGroup_eq {p : ValuePolicy} {depth : Nat} {log faults : List Diagnostic}
    {contents : Logged ValueState → Bool × Logged ValueState} (position : Position)
    (h : contents ⟨⟨p, depth + 1⟩, log⟩ = (faults.isEmpty, ⟨⟨p, depth + 1⟩, log ++ faults⟩)) :
    checkGroup ⟨⟨p, depth⟩, log⟩ position contents =
      Logged.note ⟨⟨p, depth⟩, log⟩
        (if maxGroupDepth ≤ depth then [⟨Diagnostic.nestingTooDeep, position⟩] else faults) := by
  unfold checkGroup
  split
  · rfl
  · have henter : Logged.map enter ⟨⟨p, depth⟩, log⟩ = ⟨⟨p, depth + 1⟩, log⟩ := rfl
    rw [henter, h]
    rfl

mutual

/-- Looking at a value finds its faults, and the worker is in as many groups as before. -/
theorem check_eq (p : ValuePolicy) (depth : Nat) (log : List Diagnostic) :
    ∀ v, check ⟨⟨p, depth⟩, log⟩ v = Logged.note ⟨⟨p, depth⟩, log⟩ (p.faults depth v)
  | .token t => rfl
  | .block opener contents => by
    rw [check, ValuePolicy.faults]
    split
    · rfl
    · exact checkGroup_eq _ (checkAll_eq p (depth + 1) log contents)
  | .function name contents => by
    rw [check, ValuePolicy.faults]
    split
    · rfl
    · split
      · rfl
      · exact checkGroup_eq _ (checkAll_eq p (depth + 1) log contents)

/-- Looking at all values of a list. -/
theorem checkAll_eq (p : ValuePolicy) (depth : Nat) (log : List Diagnostic) :
    ∀ vs, checkAll ⟨⟨p, depth⟩, log⟩ vs = Logged.note ⟨⟨p, depth⟩, log⟩ (p.faultsAll depth vs)
  | [] => by simp [checkAll, ValuePolicy.faultsAll, Logged.note]
  | v :: rest => by
    simp only [checkAll, ValuePolicy.faultsAll, check_eq p depth log v, Logged.note,
      checkAll_eq p depth (log ++ p.faults depth v) rest, List.append_assoc]
    cases p.faults depth v <;> rfl

end

end ValueState

/-- Workers for values judge by the faults. -/
theorem performs_valueWork (p : ValuePolicy) : Performs valueWork ⟨p, 0⟩ p.judge := by
  intro log v
  rw [valueWork, ValueState.check_eq, ValuePolicy.judge, Judgement.ofFaults, Logged.note]
  cases h : p.faults 0 v <;> simp [Judgement.keep]

/-- Of nodes that are judged by their faults those without any are left. -/
theorem sanitizeList_ofFaults {α : Type} (faults : α → List Diagnostic) (nodes : List α) :
    sanitizeList (fun node => .ofFaults (faults node)) nodes =
      (nodes.filter fun node => (faults node).isEmpty, nodes.flatMap faults) := by
  induction nodes with
  | nil => rfl
  | cons node rest ih =>
    obtain ⟨hleft, herrors⟩ := Prod.mk.inj ih
    simp only [sanitizeList, Judgement.collect] at hleft herrors ⊢
    rw [List.map_cons, List.filterMap_cons, List.flatMap_cons, List.flatMap_cons, hleft, herrors]
    cases h : faults node with
    | nil => simp [h, Judgement.ofFaults, Judgement.keep, Outcome.survivor]
    | cons d ds => simp [h, Judgement.ofFaults, Outcome.survivor]

/-- What is left of values that are judged one by one. -/
theorem ValuePolicy.sanitizeList_judge (p : ValuePolicy) (vs : List ComponentValue) :
    sanitizeList p.judge vs = (vs.filter p.accepts, p.listFaults vs) := by
  rw [listFaults, faultsAll_eq_flatMap]
  exact sanitizeList_ofFaults (p.faults 0) vs

/-- A worker for values is handed a list of them: none is missing afterwards exactly if none has a
fault. -/
theorem delegateAll_valueWork (p : ValuePolicy) (log : List Diagnostic) (vs : List ComponentValue) :
    ∃ left, Logged.delegateAll valueWork log ⟨⟨p, 0⟩, []⟩ vs =
        (left, log ++ p.listFaults vs, ⟨⟨p, 0⟩, []⟩) ∧
      (left.length = vs.length ↔ p.listFaults vs = []) := by
  refine ⟨vs.filter p.accepts, ?_, ?_⟩
  · rw [Performs.delegateAll (performs_valueWork p) rfl, p.sanitizeList_judge]
  · rw [List.length_filter_eq_length_iff, p.listFaults_eq_nil_iff]

/-! ## Declarations -/

/-- Workers for declarations perform the judgements on them. -/
theorem performs_declarationWork (p : Policy) :
    Performs declarationWork p.declarationWorker.state p.judgeDeclaration := by
  intro log d
  obtain ⟨left, hleft, hlength⟩ := delegateAll_valueWork p.values log d.value
  simp only [declarationWork, Policy.declarationWorker, Policy.judgeDeclaration,
    Policy.declarationFaults, hleft, ne_eq, hlength]
  split
  · rfl
  · split
    · rfl
    · cases hfaults : p.values.listFaults d.value <;>
        simp [Judgement.ofFaults, Judgement.keep, Logged.refuse, Logged.record]

/-- A worker for declarations is handed a list of them one by one. -/
theorem delegateDeclarations_eq (p : Policy) (log : List Diagnostic) (ds : List Declaration) :
    delegateDeclarations log p.declarationWorker ds =
      (ds.filter p.keepsDeclaration, !ds.all p.keepsDeclaration,
        log ++ ds.flatMap p.declarationFaults, p.declarationWorker) := by
  induction ds generalizing log with
  | nil => simp [delegateDeclarations]
  | cons d ds ih =>
    have hfirst := (performs_declarationWork p).delegate rfl log d
    simp only [delegateDeclarations, hfirst, ih, Policy.judgeDeclaration, Judgement.ofFaults]
    cases hd : p.declarationFaults d <;>
      simp [Policy.keepsDeclaration, hd, Judgement.keep, Outcome.survivor]

/-- The new node, if there is one. -/
def Outcome.replacement? {α : Type} : Outcome α → Option α
  | replaced new => some new
  | _ => none

/-- A worker for declarations is handed a block of them. -/
theorem judgeDeclarationBlock_eq (p : Policy) (log : List Diagnostic) (b : Block) :
    judgeDeclarationBlock log p.declarationWorker b =
      ((p.judgeDeclarations b).outcome.replacement?, log ++ (p.judgeDeclarations b).errors,
        p.declarationWorker) := by
  simp only [judgeDeclarationBlock, Policy.judgeDeclarations, delegateDeclarations_eq,
    List.append_assoc]
  cases (Declaration.readAll b.contentTokens).2.isEmpty <;>
    cases (Declaration.readAll b.contentTokens).1.all p.keepsDeclaration <;> rfl

/-- What becomes of a rule follows from whether its block is exchanged. -/
theorem judgeBlock_eq (replace : Block → Except NodeError α) (j : Judgement Block) :
    Policy.judgeBlock replace j = ⟨exchangeBlock replace j.outcome.replacement?, j.errors⟩ := by
  rw [Policy.judgeBlock]
  cases j.outcome with
  | removed | kept => rfl
  | replaced b =>
    simp only [exchangeBlock, Outcome.replacement?]
    cases replace b <;> rfl

/-! ## Style rules -/

/-- Workers for style rules perform the judgements on them. -/
theorem performs_styleWork (p : Policy) :
    Performs styleWork p.styleWorker.state p.styleSanitizer.judge := by
  intro log r
  cases r with
  | atRule r => simp [styleWork, Policy.styleSanitizer]
  | qualified r =>
    obtain ⟨left, hleft, hlength⟩ := delegateAll_valueWork p.selectorValues log r.prelude
    have hblock := judgeDeclarationBlock_eq p
      (log ++ p.selectorValues.listFaults r.prelude) r.block
    simp only [styleWork, Policy.styleWorker, Policy.styleSanitizer, Policy.judgeStyleRule,
      Policy.selectorFaults, hleft, ne_eq, hlength]
    split
    · rfl
    · cases hfaults : p.selectorValues.listFaults r.prelude with
      | nil =>
        rw [hfaults, List.append_nil] at hblock
        simp [judgeBlock_eq, hblock]
      | cons d ds => simp [Logged.refuse, Logged.record]

/-! ## Lists of rules -/

/-- A worker that performs the judgements of a sanitizer, in the same place, and has nothing to
report. -/
structure Embodies (work : Work σ Rule) (w : RuleWorker σ) (s : RuleSanitizer) : Prop where
  handles : w.handles = s.handles
  index : w.index = s.index
  log : w.log = []
  performs : Performs work w.state s.judge

variable {work : Work σ Rule} {workers : List (RuleWorker σ)} {sanitizers : List RuleSanitizer}

/-- A rule goes to no worker if it goes to no sanitizer. -/
theorem find?_eq_none_of_embodies (h : List.Forall₂ (Embodies work) workers sanitizers) {r : Rule}
    (hnone : workers.findIdx? (·.handles r) = none) : sanitizers.find? (·.handles r) = none := by
  rw [List.findIdx?_eq_none_iff] at hnone
  induction h with
  | nil => rfl
  | cons hfirst _ ih =>
    rw [List.forall_mem_cons, hfirst.handles] at hnone
    simp only [List.find?_cons, hnone.1, ih hnone.2]

/-- A rule goes to a worker if it goes to the sanitizer whose judgements it performs. -/
theorem find?_of_embodies (h : List.Forall₂ (Embodies work) workers sanitizers) {r : Rule}
    {place : Nat} {w : RuleWorker σ} (hplace : workers.findIdx? (·.handles r) = some place)
    (hw : workers[place]? = some w) :
    ∃ s, sanitizers.find? (·.handles r) = some s ∧ Embodies work w s := by
  induction h generalizing place with
  | nil => cases hw
  | @cons v s workers sanitizers hfirst _ ih =>
    rw [List.findIdx?_cons, hfirst.handles] at hplace
    cases hs : s.handles r with
    | true =>
      obtain rfl : 0 = place := by simpa [hs] using hplace
      obtain rfl : v = w := by simpa using hw
      exact ⟨s, by simp only [List.find?_cons, hs], hfirst⟩
    | false =>
      obtain ⟨p, hp, rfl⟩ : ∃ p, workers.findIdx? (·.handles r) = some p ∧ p + 1 = place := by
        simpa [hs] using hplace
      obtain ⟨t, ht, hembodies⟩ := ih hp (by simpa using hw)
      exact ⟨t, by simp only [List.find?_cons, hs, ht], hembodies⟩

/-- The next rule becomes what the sanitizers make of it, and the workers stay as they are. -/
theorem Handout.next_of_embodies {h : Handout σ}
    (hall : List.Forall₂ (Embodies work) h.workers sanitizers) (r : Rule) :
    let a := RuleSanitizer.assess sanitizers h.highest r
    h.next work r = {
      workers := h.workers
      log := h.log ++ (a.judge r).errors
      highest := a.raise h.highest
      kept := h.kept ++ ((a.judge r).outcome.survivor r).toList } := by
  rcases h.next_cases work r with ⟨hnone, hnext⟩ | ⟨place, w, hplace, hw, hcase⟩
  · have hfind := find?_eq_none_of_embodies hall hnone
    have hassess : RuleSanitizer.assess sanitizers h.highest r = .unrecognized := by
      simp only [RuleSanitizer.assess, hfind]
    simp only [hnext, refuse, hassess, Admission.judge, Admission.raise, Judgement.refuse,
      Outcome.survivor, Option.toList_none, List.append_nil]
  obtain ⟨s, hfind, hembodies⟩ := find?_of_embodies hall hplace hw
  rcases hcase with ⟨hlt, hnext⟩ | ⟨hle, hnext⟩
  · have hassess : RuleSanitizer.assess sanitizers h.highest r = .misordered := by
      simp only [RuleSanitizer.assess, hfind, ← hembodies.index, if_pos hlt]
    simp only [hnext, refuse, hassess, Admission.judge, Admission.raise, Judgement.refuse,
      Outcome.survivor, Option.toList_none, List.append_nil]
  · have hassess : RuleSanitizer.assess sanitizers h.highest r = .admitted s := by
      simp only [RuleSanitizer.assess, hfind, ← hembodies.index, if_neg (Int32.not_lt.2 hle)]
    have hdelegate := hembodies.performs.delegate hembodies.log h.log r
    obtain ⟨hplace, rfl⟩ := List.getElem?_eq_some_iff.1 hw
    have hself : h.workers.set place { h.workers[place] with
        toLogged := h.workers[place].toLogged } = h.workers := List.set_getElem_self hplace
    simp only [hnext, give, hassess, hdelegate, Admission.judge, Admission.raise,
      ← hembodies.index, hself]

/-- What is left of rules that come after an index was set, and the diagnostics. -/
def sanitizeRulesFrom (sanitizers : List RuleSanitizer) (highest : Int32) (rules : List Rule) :
    List Rule × List Diagnostic :=
  Judgement.collect ((rules.zip (RuleSanitizer.planFrom sanitizers highest rules)).map
    fun (r, a) => (r, a.judge r))

/-- What is answered for the first rule decides the greatest index that the rest is judged with. -/
theorem sanitizeRulesFrom_cons (highest : Int32) (r : Rule) (rules : List Rule) :
    sanitizeRulesFrom sanitizers highest (r :: rules) =
      let a := RuleSanitizer.assess sanitizers highest r
      let (left, errors) := sanitizeRulesFrom sanitizers (a.raise highest) rules
      (((a.judge r).outcome.survivor r).toList ++ left, (a.judge r).errors ++ errors) := by
  simp only [sanitizeRulesFrom, RuleSanitizer.planFrom, List.zip_cons_cons, List.map_cons,
    Judgement.collect, List.filterMap_cons, List.flatMap_cons]
  split <;> next hs => simp only [hs, Option.toList_none, Option.toList_some, List.nil_append,
    List.cons_append]

/-- Rules that come after others become what the sanitizers make of them. -/
theorem foldl_next_of_embodies {h : Handout σ}
    (hall : List.Forall₂ (Embodies work) h.workers sanitizers) (rules : List Rule) :
    (rules.foldl (Handout.next work) h).workers = h.workers ∧
      (rules.foldl (Handout.next work) h).log =
        h.log ++ (sanitizeRulesFrom sanitizers h.highest rules).2 ∧
      (rules.foldl (Handout.next work) h).kept =
        h.kept ++ (sanitizeRulesFrom sanitizers h.highest rules).1 := by
  induction rules generalizing h with
  | nil => exact ⟨rfl, (List.append_nil _).symm, (List.append_nil _).symm⟩
  | cons r rules ih =>
    have hnext := Handout.next_of_embodies hall r
    have hall' : List.Forall₂ (Embodies work) (h.next work r).workers sanitizers := by
      rwa [hnext]
    obtain ⟨hworkers, hlog, hkept⟩ := ih hall'
    rw [List.foldl_cons, hworkers, hlog, hkept, sanitizeRulesFrom_cons, hnext]
    exact ⟨rfl, List.append_assoc _ _ _, List.append_assoc _ _ _⟩

/-- A list of rules becomes what the sanitizers make of it, and the workers stay as they are. -/
theorem handOut_of_embodies (hall : List.Forall₂ (Embodies work) workers sanitizers)
    (log : List Diagnostic) (rules : List Rule) :
    (handOut work log workers rules).workers = workers ∧
      (handOut work log workers rules).log = log ++ (sanitizeRules sanitizers rules).2 ∧
      (handOut work log workers rules).kept = (sanitizeRules sanitizers rules).1 :=
  @foldl_next_of_embodies _ _ _ { workers, log } hall rules

/-! ## At-rules -/

/-- Workers for at-rules perform the judgements on blocks, if their helpers perform those of the
sanitizers for the rules in a block. -/
theorem AtRuleState.judgeBlock_eq (p : Policy) (entry : AtRulePolicy)
    (hall : List.Forall₂ (Embodies work) workers sanitizers) (log : List Diagnostic) (b : Block) :
    judgeBlock work ⟨(p.atRuleWorker workers entry).state, log⟩ b =
      ((p.judgeAtRuleBlock sanitizers entry.block b).outcome.replacement?,
        ⟨(p.atRuleWorker workers entry).state,
          log ++ (p.judgeAtRuleBlock sanitizers entry.block b).errors⟩) := by
  cases hblock : entry.block with
  | none => simp [judgeBlock, Policy.atRuleWorker, hblock, Policy.judgeAtRuleBlock, Judgement.keep,
      Outcome.replacement?]
  | declarations | optional =>
    simp only [judgeBlock, Policy.atRuleWorker, hblock, Policy.judgeAtRuleBlock,
      judgeDeclarationBlock_eq]
  | rules =>
    obtain ⟨hworkers, hlog, hkept⟩ := handOut_of_embodies hall
      (log ++ (Rule.readAll false b.contentTokens).2) (Rule.readAll false b.contentTokens).1
    simp only [judgeBlock, Policy.atRuleWorker, hblock, Policy.judgeAtRuleBlock,
      Policy.judgeRuleBlock, if_true, hworkers, hlog, hkept, List.append_assoc]
    split <;> rfl

/-- Workers for at-rules perform the judgements on them, if their helpers perform those of the
sanitizers for the rules in a block. -/
theorem performs_atRuleWork (p : Policy) (entry : AtRulePolicy)
    (hall : List.Forall₂ (Embodies work) workers sanitizers) {judge : Rule → Judgement Rule}
    (hatRule : ∀ r, judge (.atRule r) = p.judgeAtRule sanitizers entry.block r)
    (hqualified : ∀ r, judge (.qualified r) = { outcome := .removed }) :
    Performs (atRuleWork work) (p.atRuleWorker workers entry).state judge := by
  intro log r
  cases r with
  | qualified r => simp [atRuleWork, hqualified]
  | atRule r =>
    rw [hatRule, Policy.judgeAtRule, Policy.headFaults]
    cases hshape : Policy.shapeFaults entry.block r with
    | cons d ds => simp [atRuleWork, Policy.atRuleWorker, hshape, Logged.note]
    | nil =>
      obtain ⟨left, hleft, hlength⟩ := delegateAll_valueWork p.values log r.prelude
      have hblock := AtRuleState.judgeBlock_eq p entry hall log
      simp only [Policy.atRuleWorker] at hblock
      simp only [atRuleWork, Policy.atRuleWorker, hshape, Logged.note, List.isEmpty_nil,
        List.append_nil, Bool.not_true, Bool.false_eq_true, if_false, if_true, hleft, ne_eq, hlength,
        Policy.preludeFaults]
      cases hfaults : p.values.listFaults r.prelude with
      | cons d ds => simp [Logged.refuse, Logged.record]
      | nil =>
        cases hb : r.block with
        | none => simp [Judgement.keep]
        | some b => simp [hblock, judgeBlock_eq]

/-! ## Workers of a policy -/

/-- A worker that is put among other sorts of workers still does the work of its sanitizer. -/
theorem Embodies.lift {f : σ → τ} {work' : Work τ Rule} {w : RuleWorker σ} {s : RuleSanitizer}
    (h : Embodies work w s)
    (hwork : ∀ s log r, work' ⟨f s, log⟩ r = ((work ⟨s, log⟩ r).1, (work ⟨s, log⟩ r).2.map f)) :
    Embodies work' (w.lift f) s where
  handles := h.handles
  index := h.index
  log := h.log
  performs log r := by
    simp only [RuleWorker.lift, Logged.map, hwork, h.performs log r]

/-- The workers for style rules do what the sanitizers for them say. -/
theorem embodies_styleWorkers (p : Policy) :
    List.Forall₂ (Embodies styleWork) p.styleWorkers p.styleSanitizers := by
  unfold Policy.styleWorkers Policy.styleSanitizers
  split
  · exact .cons ⟨rfl, rfl, rfl, performs_styleWork p⟩ .nil
  · exact .nil

/-- The sanitizers for the rules inside a group in which groups may lie in each other `levels` deep. -/
def Policy.groupSanitizers (p : Policy) : Nat → List RuleSanitizer
  | 0 => p.sanitizersOf 0 []
  | below + 1 => p.sanitizersOf below p.groupRules

/-- At each level, what an entry says of an at-rule takes the sanitizers for the rules in it from the
level below. -/
theorem Policy.judge_atRuleSanitizerAt (p : Policy) (levels : Nat) (entry : AtRulePolicy)
    (r : AtRule) : (p.atRuleSanitizerAt levels entry).judge (.atRule r) =
      p.judgeAtRule (p.groupSanitizers levels) entry.block r := by
  cases levels with
  | zero => exact p.judge_atRuleSanitizerAt_zero entry r
  | succ below => exact p.judge_atRuleSanitizerAt_succ below entry r

/-- Workers for at-rules and style rules do the work of the sanitizers for them, if the helpers inside
at-rules do. -/
theorem embodies_ruleWorkers (p : Policy) {levels : Nat}
    (hall : List.Forall₂ (Embodies work) workers (p.groupSanitizers levels))
    (entries : List AtRulePolicy) :
    List.Forall₂ (Embodies (ruleWorkOver work)) (p.ruleWorkers workers entries)
      (p.sanitizersOf levels entries) := by
  have hatRules : List.Forall₂ (Embodies (ruleWorkOver work))
      (entries.map fun entry => (p.atRuleWorker workers entry).lift .atRule)
      (entries.map (p.atRuleSanitizerAt levels)) := by
    rw [List.forall₂_map_left_iff, List.forall₂_map_right_iff, List.forall₂_same]
    intro entry _
    have hatRule : Embodies (atRuleWork work) (p.atRuleWorker workers entry)
        (p.atRuleSanitizerAt levels entry) := by
      refine ⟨?_, ?_, rfl, performs_atRuleWork p entry hall
        (p.judge_atRuleSanitizerAt levels entry) fun r => ?_⟩
      · exact funext fun r => (p.handles_atRuleSanitizerAt levels entry r).symm
      · cases levels <;> rw [Policy.atRuleSanitizerAt] <;> rfl
      · cases levels <;> rw [Policy.atRuleSanitizerAt]
    exact hatRule.lift fun _ _ _ => rfl
  have hstyle : List.Forall₂ (Embodies (ruleWorkOver work))
      (p.styleWorkers.map (·.lift .style)) p.styleSanitizers := by
    rw [List.forall₂_map_left_iff]
    exact (embodies_styleWorkers p).imp fun _ _ h => h.lift fun _ _ _ => rfl
  exact List.rel_append hatRules hstyle

/-- The workers for the rules inside a group do the work of the sanitizers for them. -/
theorem embodies_groupWorkers (p : Policy) (levels : Nat) :
    List.Forall₂ (Embodies (ruleWork levels)) (p.groupWorkers levels) (p.groupSanitizers levels) := by
  induction levels with
  | zero => exact embodies_styleWorkers p
  | succ below ih => exact embodies_ruleWorkers p ih p.groupRules

end

/-! ## Stylesheets -/

namespace SheetWorker

/-- The workers of a stylesheet do the work of the sanitizers for it. -/
theorem embodies_ofPolicy (p : Policy) :
    List.Forall₂ (Embodies (ruleWork (maxGroupRuleDepth + 1))) (ofPolicy p).state p.sanitizers :=
  embodies_ruleWorkers p (embodies_groupWorkers p maxGroupRuleDepth) p.atRules

/-- Whatever a worker has logged, it judges a stylesheet as a session does, and only its own log
grows. -/
theorem pass_eq (p : Policy) (log : List Diagnostic) (rules : List Rule) :
    pass ⟨(ofPolicy p).state, log⟩ rules =
      ((p.judgeStylesheet rules).outcome,
        ⟨(ofPolicy p).state, log ++ (p.judgeStylesheet rules).errors⟩) := by
  obtain ⟨hworkers, hlog, hkept⟩ := handOut_of_embodies (embodies_ofPolicy p) log rules
  simp only [pass, Policy.judgeStylesheet, hworkers, hlog, hkept]

end SheetWorker

/-! ## Idle workers -/

/-- A worker with nothing to report, in an idle state. -/
def Logged.Idle {σ : Type} (idle : σ → Prop) (w : Logged σ) : Prop := w.log = [] ∧ idle w.state

/-- A worker for values is idle outside all groups. -/
def ValueState.Idle (s : ValueState) : Prop := s.depth = 0

/-- A worker for declarations is idle if its helper is. -/
def DeclarationState.Idle (s : DeclarationState) : Prop := s.values.Idle ValueState.Idle

/-- A worker for style rules is idle if its helpers are. -/
structure StyleState.Idle (s : StyleState) : Prop where
  selectors : s.selectors.Idle ValueState.Idle
  declarations : s.declarations.Idle DeclarationState.Idle

/-- A worker for an at-rule is idle if its helpers are, also those for the rules in a block. -/
structure AtRuleState.Idle {τ : Type} (idle : τ → Prop) (s : AtRuleState τ) : Prop where
  prelude : s.prelude.Idle ValueState.Idle
  declarations : s.declarations.Idle DeclarationState.Idle
  nested : ∀ w ∈ s.nested, w.toLogged.Idle idle

/-- A worker for rules is idle, of either sort. -/
def RuleStateOver.Idle {τ : Type} (idle : τ → Prop) : RuleStateOver τ → Prop
  | style s => s.Idle
  | atRule s => s.Idle idle

/-- A worker for rules is idle, with all workers under it. -/
def RuleState.Idle : (levels : Nat) → RuleState levels → Prop
  | 0 => StyleState.Idle
  | levels + 1 => RuleStateOver.Idle (RuleState.Idle levels)

/-- All workers under a worker for stylesheets are idle. -/
def SheetWorker.Idle (w : SheetWorker) : Prop :=
  ∀ r ∈ w.state, r.toLogged.Idle (RuleState.Idle (maxGroupRuleDepth + 1))

namespace Policy

variable (p : Policy)

/-- A new worker for declarations is idle. -/
theorem idle_declarationWorker : p.declarationWorker.Idle DeclarationState.Idle :=
  ⟨rfl, rfl, rfl⟩

/-- So are the new workers for style rules. -/
theorem idle_styleWorkers : ∀ w ∈ p.styleWorkers, w.toLogged.Idle StyleState.Idle := by
  unfold styleWorkers
  split
  · rintro w hw
    obtain rfl := List.mem_singleton.1 hw
    exact ⟨rfl, ⟨rfl, rfl⟩, p.idle_declarationWorker⟩
  · nofun

/-- New workers for rules are idle if those for the rules in them are. -/
theorem idle_ruleWorkers {τ : Type} {idle : τ → Prop} {nested : List (RuleWorker τ)}
    (hnested : ∀ w ∈ nested, w.toLogged.Idle idle) (entries : List AtRulePolicy) :
    ∀ w ∈ p.ruleWorkers nested entries, w.toLogged.Idle (RuleStateOver.Idle idle) := by
  intro w hw
  rcases List.mem_append.1 hw with hw | hw
  · obtain ⟨entry, -, rfl⟩ := List.mem_map.1 hw
    refine ⟨rfl, ⟨rfl, rfl⟩, p.idle_declarationWorker, ?_⟩
    intro v hv
    simp only [atRuleWorker] at hv
    split at hv
    · exact hnested v hv
    · cases hv
  · obtain ⟨v, hv, rfl⟩ := List.mem_map.1 hw
    exact p.idle_styleWorkers v hv

/-- So those of any level are, by induction on it. -/
theorem idle_groupWorkers (levels : Nat) :
    ∀ w ∈ p.groupWorkers levels, w.toLogged.Idle (RuleState.Idle levels) := by
  induction levels with
  | zero => exact p.idle_styleWorkers
  | succ below ih => exact p.idle_ruleWorkers ih p.groupRules

end Policy

namespace SheetWorker

/-- A new worker for stylesheets is idle, down to the last one under it. -/
theorem idle_ofPolicy (p : Policy) : (ofPolicy p).Idle :=
  p.idle_ruleWorkers (p.idle_groupWorkers maxGroupRuleDepth) p.atRules

/-- The stylesheets that were judged since the diagnostics were last cleared. -/
def sinceClear (requests : List Request) : List (List Rule) :=
  requests.foldl (fun sheets request =>
    match request with
    | .pass rules => sheets ++ [rules]
    | .clear => []) []

/-- A stylesheet that is sanitized is one more since the log was cleared. -/
theorem sinceClear_concat_pass (requests : List Request) (rules : List Rule) :
    sinceClear (requests ++ [.pass rules]) = sinceClear requests ++ [rules] := by
  simp only [sinceClear, List.foldl_concat]

/-- Behind a clearing there is none yet. -/
theorem sinceClear_concat_clear (requests : List Request) :
    sinceClear (requests ++ [.clear]) = [] := by
  simp only [sinceClear, List.foldl_concat]

/-- The diagnostics that workers which did nothing before report of stylesheets. -/
def reports (p : Policy) (sheets : List (List Rule)) : List Diagnostic :=
  sheets.flatMap fun rules => ((ofPolicy p).pass rules).2.log

/-- One more request to a worker that is as if new but for its log. -/
theorem serve_eq (p : Policy) (done : List Request) (request : Request) :
    serve ⟨(ofPolicy p).state, reports p (sinceClear done)⟩ request =
      (((ofPolicy p).serve request).1,
        ⟨(ofPolicy p).state, reports p (sinceClear (done ++ [request]))⟩) := by
  cases request with
  | clear => rw [sinceClear_concat_clear]; rfl
  | pass rules =>
    have hfresh : pass (ofPolicy p) rules = _ := pass_eq p [] rules
    simp only [serve, pass_eq, hfresh, sinceClear_concat_pass, reports, List.flatMap_append,
      List.flatMap_singleton, List.nil_append]

/-- Whatever a worker did, it is as if new but for its log. -/
theorem after_eq (p : Policy) (requests : List Request) :
    (ofPolicy p).after requests = ⟨(ofPolicy p).state, reports p (sinceClear requests)⟩ := by
  have hrest : ∀ done, after ⟨(ofPolicy p).state, reports p (sinceClear done)⟩ requests =
      ⟨(ofPolicy p).state, reports p (sinceClear (done ++ requests))⟩ := by
    induction requests with
    | nil => intro done; rw [List.append_nil]; rfl
    | cons request requests ih =>
      intro done
      rw [List.append_cons, ← ih, after, List.foldl_cons, serve_eq]
      rfl
  exact hrest []

/-- **One worker, many stylesheets.** Whatever a worker for stylesheets was asked to do before, it answers
the next request as a worker that did nothing before. Its log is then what such workers report of the
stylesheets since it was last cleared, in order; and all workers under it have empty logs and are
outside all groups. -/
theorem serve_after (p : Policy) (done : List Request) (request : Request) :
    (((ofPolicy p).after done).serve request).1 = ((ofPolicy p).serve request).1 ∧
      (((ofPolicy p).after done).serve request).2.log =
        (sinceClear (done ++ [request])).flatMap (fun rules => ((ofPolicy p).pass rules).2.log) ∧
      (((ofPolicy p).after done).serve request).2.Idle := by
  rw [after_eq, serve_eq]
  exact ⟨rfl, rfl, idle_ofPolicy p⟩

end SheetWorker

end StyleGate
