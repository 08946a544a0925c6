import StyleGate.Policy.Standard
import StyleGate.Proofs.Escapes
import StyleGate.Proofs.Soundness
import StyleGate.Proofs.Validity

/-!
# The spelling of a policy does not count

A policy may be written in many ways: with its at-rules in another order, with the names of a list in
any order and any number, and every name in capitals or not. `Policy.Variant` relates two such ways. A
valid policy stays valid when it is written in another way, and cleans every text alike
(`Policy.clean_variant`).

Sanitizers are looked up by the names of rules, so those of a variant stand in another order under other
names. What a look-up finds has the same index and gives the same judgement, and a list of rules depends
on nothing else (`sanitizeRules_congr`). The at-rule that is found is the same one because names in a
valid policy are distinct up to case (`AtRulePolicy.AllValid.find?_caseless`).
-/

namespace StyleGate

open Text

/-! ## Names in other cases and orders -/

namespace Text

/-- Of all characters, only the at-sign is folded to the at-sign. -/
theorem foldChar_eq_at_iff {c : Char} : foldChar c = '@' ↔ c = '@' := by
  unfold foldChar
  split
  · next hcapital =>
    simp only [le_iff_toNat, Char.reduceToNat] at hcapital
    have hvalid : (c.toNat + 32).isValidChar := .inl (by omega)
    have hcode : (Char.ofNat (c.toNat + 32)).toNat = c.toNat + 32 := by
      rw [Char.ofNat, dif_pos hvalid]
      rfl
    simp only [eq_iff_toNat, hcode, Char.reduceToNat]
    omega
  · rfl

/-- Lists that hold the same names up to case, whatever their order and however often. -/
def SameNames (names others : List String) : Prop :=
  ∀ name, name ∈ names.map folded ↔ name ∈ others.map folded

namespace SameNames

variable {names others more : List String}

/-- A list holds the same names in another order. -/
theorem of_perm (h : names.Perm others) : SameNames names others := fun _ => (h.map folded).mem_iff

/-- So it does in another case. -/
theorem of_map_folded (h : names.map folded = others.map folded) : SameNames names others :=
  fun name => by rw [h]

/-- A name may stand in a list once more. -/
theorem duplicate {name : String} (h : name ∈ names) : SameNames names (name :: names) := by
  intro other
  rw [List.map_cons, List.mem_cons]
  constructor
  · exact .inr
  · rintro (rfl | hother)
    · exact List.mem_map_of_mem h
    · exact hother

/-- What holds the same names as a second list holds those of a third one that does so, too. -/
theorem trans (h : SameNames names others) (h' : SameNames others more) : SameNames names more :=
  fun name => (h name).trans (h' name)

/-- Whether a name is in a list has nothing to do with cases and orders. -/
theorem containsFolded_eq (h : SameNames names others) (name : String) :
    containsFolded names name = containsFolded others name := by
  rw [Bool.eq_iff_iff, containsFolded_iff, containsFolded_iff]
  exact h (folded name)

end SameNames

end Text

namespace AtRulePolicy

/-- The at-rule with its name as it is compared. -/
def caseless (r : AtRulePolicy) : AtRulePolicy := { r with name := r.key }

variable {r s : AtRulePolicy} {entries others : List AtRulePolicy}

/-- Entries that differ in cases at most are named, placed and shaped alike. -/
theorem eq_of_caseless (h : r.caseless = s.caseless) :
    r.key = s.key ∧ r.index = s.index ∧ r.block = s.block := by
  obtain ⟨hkey, -, hindex, hblock, -⟩ := mk.inj h
  exact ⟨hkey, hindex, hblock⟩

/-- Whether an at-rule is valid does not depend on the case of its name. -/
theorem valid_caseless_iff : r.caseless.Valid ↔ r.Valid := by
  have hempty : r.key.isEmpty = r.name.isEmpty := by
    rw [Bool.eq_iff_iff, String.isEmpty_iff, String.isEmpty_iff, key, folded]
    simp
  have hmarked : r.key.toList.head? = some '@' ↔ r.name.toList.head? = some '@' := by
    rw [key, folded, String.toList_ofList, List.head?_map, Option.map_eq_some_iff]
    simp [foldChar_eq_at_iff]
  constructor
  · rintro ⟨hnonempty, hunmarked, hindex⟩
    exact ⟨hempty.symm.trans hnonempty, fun h => hunmarked (hmarked.2 h), hindex⟩
  · rintro ⟨hnonempty, hunmarked, hindex⟩
    exact ⟨hempty.trans hnonempty, fun h => hunmarked (hmarked.1 h), hindex⟩

/-- Valid at-rules stay valid in another order and with their names in other cases. -/
theorem AllValid.of_perm (h : AllValid entries)
    (hperm : (entries.map caseless).Perm (others.map caseless)) : AllValid others := by
  constructor
  · intro s hs
    obtain ⟨r, hr, hsame⟩ := List.mem_map.1 (hperm.mem_iff.2 (List.mem_map_of_mem hs))
    rw [← valid_caseless_iff, ← hsame, valid_caseless_iff]
    exact h.each r hr
  · have hkeys := hperm.map name
    rw [List.map_map, List.map_map] at hkeys
    exact hkeys.nodup_iff.1 h.distinct

/-- Valid at-rules in another order are found by the same names. -/
theorem AllValid.find?_caseless (h : AllValid entries)
    (hperm : (entries.map caseless).Perm (others.map caseless)) (name : String) :
    (entries.find? (·.isNamed name)).map caseless = (others.find? (·.isNamed name)).map caseless := by
  have hothers := h.of_perm hperm
  have hnamed {r s : AtRulePolicy} (hsame : r.caseless = s.caseless) (hr : r.isNamed name = true) :
      s.isNamed name = true :=
    isNamed_iff.2 ((eq_of_caseless hsame).1.symm.trans (isNamed_iff.1 hr))
  cases hfind : entries.find? (·.isNamed name) with
  | some r =>
    obtain ⟨hr, hname⟩ := h.find?_eq_some_iff.1 hfind
    obtain ⟨s, hs, hsame⟩ := List.mem_map.1 (hperm.mem_iff.1 (List.mem_map_of_mem hr))
    rw [hothers.find?_eq_some_iff.2 ⟨hs, hnamed hsame.symm hname⟩]
    exact congrArg some hsame.symm
  | none =>
    cases hfind' : others.find? (·.isNamed name) with
    | none => rfl
    | some s =>
      obtain ⟨hs, hname⟩ := hothers.find?_eq_some_iff.1 hfind'
      obtain ⟨r, hr, hsame⟩ := List.mem_map.1 (hperm.mem_iff.2 (List.mem_map_of_mem hs))
      rw [h.find?_eq_some_iff.2 ⟨hr, hnamed hsame.symm hname⟩] at hfind
      cases hfind

end AtRulePolicy

/-! ## What a list of rules depends on -/

namespace RuleSanitizer

variable {sanitizers others : List RuleSanitizer} {r : Rule}

/-- What the sanitizer of a rule does: where rules of its sort may stand, and its judgement. -/
def treatment? (sanitizers : List RuleSanitizer) (r : Rule) : Option (RuleIndex × Judgement Rule) :=
  (sanitizers.find? (·.handles r)).map fun s => (s.index, s.judge r)

/-- Sanitizers that treat a rule alike decide alike about it, and raise the index alike. -/
theorem assess_congr (h : treatment? sanitizers r = treatment? others r) (highest : Int32) :
    (assess sanitizers highest r).judge r = (assess others highest r).judge r ∧
      (assess sanitizers highest r).raise highest = (assess others highest r).raise highest := by
  unfold treatment? at h
  unfold assess
  cases hs : sanitizers.find? (·.handles r) with
  | none =>
    rw [hs, Option.map_none, eq_comm, Option.map_eq_none_iff] at h
    rw [h]
    exact ⟨rfl, rfl⟩
  | some s =>
    rw [hs, Option.map_some, eq_comm, Option.map_eq_some_iff] at h
    obtain ⟨t, ht, htreatment⟩ := h
    obtain ⟨hindex, hjudge⟩ := Prod.mk.inj htreatment
    simp only [ht, hindex]
    split
    · exact ⟨rfl, rfl⟩
    · refine ⟨hjudge.symm, ?_⟩
      simp only [Admission.raise, hindex]

/-- Sanitizers that treat rules alike judge every list of them alike, after any rules. -/
theorem judge_planFrom_congr (h : ∀ r, treatment? sanitizers r = treatment? others r)
    (rules : List Rule) (highest : Int32) :
    ((rules.zip (planFrom sanitizers highest rules)).map fun (r, a) => (r, a.judge r)) =
      (rules.zip (planFrom others highest rules)).map fun (r, a) => (r, a.judge r) := by
  induction rules generalizing highest with
  | nil => rfl
  | cons r rest ih =>
    obtain ⟨hjudge, hraise⟩ := assess_congr (h r) highest
    simp only [planFrom, List.zip_cons_cons, List.map_cons, hjudge, hraise, ih]

end RuleSanitizer

/-- Sanitizers that treat rules alike leave the same of every list and report the same. -/
theorem sanitizeRules_congr {sanitizers others : List RuleSanitizer}
    (h : ∀ r, RuleSanitizer.treatment? sanitizers r = RuleSanitizer.treatment? others r) :
    sanitizeRules sanitizers = sanitizeRules others := by
  funext rules
  unfold sanitizeRules judgeRules RuleSanitizer.plan
  rw [RuleSanitizer.judge_planFrom_congr h]

/-! ## Values and declarations -/

/-- What is wrong with a value depends on the names in the list of functions only, not on the list. -/
theorem ValuePolicy.faults_congr {p q : ValuePolicy} (hfunctions : SameNames p.functions q.functions)
    (hurls : p.allowUrls = q.allowUrls) (v : ComponentValue) :
    ∀ depth, p.faults depth v = q.faults depth v := by
  have hall {depth : Nat} {vs : List ComponentValue}
      (ih : ∀ v ∈ vs, ∀ depth, p.faults depth v = q.faults depth v) :
      p.faultsAll depth vs = q.faultsAll depth vs := by
    rw [faultsAll_eq_flatMap, faultsAll_eq_flatMap, List.flatMap_congr fun v hv => ih v hv depth]
  induction v using ComponentValue.induct with
  | token t =>
    intro depth
    rw [faults, faults, tokenFaults, tokenFaults, hurls]
  | block opener contents ih =>
    intro depth
    rw [faults, faults, hall ih]
  | function name contents ih =>
    intro depth
    rw [faults, faults, hall ih, urlFaults, urlFaults, hurls, hfunctions.containsFolded_eq]

/-- What is wrong with values depends on the names in the list of functions only, not on the list. -/
theorem ValuePolicy.listFaults_congr {p q : ValuePolicy}
    (hfunctions : SameNames p.functions q.functions) (hurls : p.allowUrls = q.allowUrls) :
    p.listFaults = q.listFaults := by
  funext vs
  rw [listFaults, listFaults, faultsAll_eq_flatMap, faultsAll_eq_flatMap,
    List.flatMap_congr fun v _ => faults_congr hfunctions hurls v 0]

/-! ## Policies -/

namespace Policy

/-- Two ways to write a policy: the at-rules stand in any order, the names in lists in any order and
any number, and every name is in any case. -/
structure Variant (p q : Policy) : Prop where
  atRules : (p.atRules.map AtRulePolicy.caseless).Perm (q.atRules.map AtRulePolicy.caseless)
  enabled : p.styleRules.enabled = q.styleRules.enabled
  index : p.styleRules.index = q.styleRules.index
  properties : SameNames p.styleRules.properties q.styleRules.properties
  functions : SameNames p.values.functions q.values.functions
  allowUrls : p.values.allowUrls = q.values.allowUrls
  selectors : SameNames p.selectors.functions q.selectors.functions

namespace Variant

variable {p q : Policy} (h : p.Variant q)

include h

/-- A valid policy is valid in every way to write it. -/
theorem validate (hvalid : p.validate = .ok ()) : q.validate = .ok () := by
  obtain ⟨hentries, hindex⟩ := validate_eq_ok_iff.1 hvalid
  exact validate_eq_ok_iff.2 ⟨hentries.of_perm h.atRules, h.index ▸ hindex⟩

/-- Variants have the same rules for groups, up to case and order. -/
theorem groupRules :
    (p.groupRules.map AtRulePolicy.caseless).Perm (q.groupRules.map AtRulePolicy.caseless) := by
  have hfilter (entries : List AtRulePolicy) :
      (entries.filter fun r => r.block == .rules).map AtRulePolicy.caseless =
        (entries.map AtRulePolicy.caseless).filter fun r => r.block == .rules := by
    rw [List.filter_map]
    rfl
  rw [Policy.groupRules, Policy.groupRules, hfilter, hfilter]
  exact h.atRules.filter _

/-- They find the same faults in declarations. -/
theorem declarationFaults : p.declarationFaults = q.declarationFaults := by
  funext d
  rw [Policy.declarationFaults, Policy.declarationFaults, allowsProperty, allowsProperty,
    h.properties.containsFolded_eq, ValuePolicy.listFaults_congr h.functions h.allowUrls]

/-- So they judge lists of declarations alike. -/
theorem judgeDeclarations : p.judgeDeclarations = q.judgeDeclarations := by
  have hkeeps : p.keepsDeclaration = q.keepsDeclaration := by
    funext d
    rw [keepsDeclaration, keepsDeclaration, h.declarationFaults]
  funext b
  rw [Policy.judgeDeclarations, Policy.judgeDeclarations, hkeeps, h.declarationFaults]

/-- So they judge style rules alike. -/
theorem judgeStyleRule : p.judgeStyleRule = q.judgeStyleRule := by
  have hselectors : p.selectorValues.listFaults = q.selectorValues.listFaults :=
    ValuePolicy.listFaults_congr h.selectors rfl
  funext r
  rw [Policy.judgeStyleRule, Policy.judgeStyleRule, Policy.selectorFaults, Policy.selectorFaults,
    hselectors, h.judgeDeclarations]

/-- An at-rule is judged alike if the rules in its block are. -/
theorem judgeAtRule {nested nested' : List RuleSanitizer}
    (hnested : sanitizeRules nested = sanitizeRules nested') (shape : BlockShape) (r : AtRule) :
    p.judgeAtRule nested shape r = q.judgeAtRule nested' shape r := by
  have hblock (b : Block) :
      p.judgeAtRuleBlock nested shape b = q.judgeAtRuleBlock nested' shape b := by
    cases shape <;>
      simp only [judgeAtRuleBlock, judgeRuleBlock, hnested, h.judgeDeclarations]
  have hhead : p.headFaults shape r = q.headFaults shape r := by
    rw [Policy.headFaults, Policy.headFaults, Policy.preludeFaults, Policy.preludeFaults,
      ValuePolicy.listFaults_congr h.functions h.allowUrls]
  simp only [Policy.judgeAtRule, hhead, hblock]

/-- Rules are judged alike by the sanitizers of two ways to write at-rules, if at-rules are judged alike
by those of two ways to write one. -/
theorem sanitizeRules_sanitizersOf {levels : Nat} {entries others : List AtRulePolicy}
    (hentries : AtRulePolicy.AllValid entries)
    (hperm : (entries.map AtRulePolicy.caseless).Perm (others.map AtRulePolicy.caseless))
    (hjudge : ∀ entry ∈ entries, ∀ other, entry.caseless = other.caseless → ∀ r,
      (p.atRuleSanitizerAt levels entry).judge (.atRule r) =
        (q.atRuleSanitizerAt levels other).judge (.atRule r)) :
    sanitizeRules (p.sanitizersOf levels entries) = sanitizeRules (q.sanitizersOf levels others) := by
  refine sanitizeRules_congr fun r => ?_
  cases r with
  | atRule r =>
    have hfind := hentries.find?_caseless hperm r.name
    rw [RuleSanitizer.treatment?, RuleSanitizer.treatment?, find?_sanitizersOf_atRule,
      find?_sanitizersOf_atRule]
    cases hentry : entries.find? (·.isNamed r.name) with
    | none =>
      rw [hentry, Option.map_none, eq_comm, Option.map_eq_none_iff] at hfind
      rw [hfind]
      rfl
    | some entry =>
      rw [hentry, Option.map_some, eq_comm, Option.map_eq_some_iff] at hfind
      obtain ⟨other, hother, hsame⟩ := hfind
      have hindex : (p.atRuleSanitizerAt levels entry).index =
          (q.atRuleSanitizerAt levels other).index := by
        have hindex := (AtRulePolicy.eq_of_caseless hsame.symm).2.1
        cases levels <;> (rw [atRuleSanitizerAt, atRuleSanitizerAt]; exact hindex)
      have hmem := List.mem_of_find?_eq_some hentry
      rw [hother]
      simp only [Option.map_some, hindex, hjudge entry hmem other hsame.symm]
  | qualified r =>
    rw [RuleSanitizer.treatment?, RuleSanitizer.treatment?, find?_sanitizersOf_qualified,
      find?_sanitizersOf_qualified, h.enabled]
    split
    · simp only [Option.map_some, styleSanitizer, h.index, h.judgeStyleRule]
    · rfl

/-- An at-rule is judged alike under two ways to write its policy, however deep groups of rules lie in
each other. -/
theorem judge_atRuleSanitizerAt (hvalid : AtRulePolicy.AllValid p.atRules) (levels : Nat)
    {entry other : AtRulePolicy} (hsame : entry.caseless = other.caseless) (r : AtRule) :
    (p.atRuleSanitizerAt levels entry).judge (.atRule r) =
      (q.atRuleSanitizerAt levels other).judge (.atRule r) := by
  induction levels generalizing entry other r with
  | zero =>
    rw [judge_atRuleSanitizerAt_zero, judge_atRuleSanitizerAt_zero,
      (AtRulePolicy.eq_of_caseless hsame).2.2]
    exact h.judgeAtRule (h.sanitizeRules_sanitizersOf .nil (.refl _) (by simp)) _ r
  | succ below ih =>
    rw [judge_atRuleSanitizerAt_succ, judge_atRuleSanitizerAt_succ,
      (AtRulePolicy.eq_of_caseless hsame).2.2]
    have hgroups : AtRulePolicy.AllValid p.groupRules := hvalid.sublist List.filter_sublist
    refine h.judgeAtRule (h.sanitizeRules_sanitizersOf hgroups h.groupRules ?_) _ r
    exact fun entry _ other hsame r => ih hsame r

end Variant

/-- **The spelling of a policy does not count.** If a policy is valid, so is every way to write it, and a
text is cleaned alike under all of them: the same is left, and the same is reported. -/
theorem clean_variant {p q : Policy} (h : p.Variant q) (hvalid : p.validate = .ok ()) :
    q.validate = .ok () ∧ ∀ css, ∃ sheet, p.clean css = .ok sheet ∧ q.clean css = .ok sheet := by
  have hvalid' := h.validate hvalid
  obtain ⟨hentries, -⟩ := validate_eq_ok_iff.1 hvalid
  have hjudge : sanitizeRules p.sanitizers = sanitizeRules q.sanitizers :=
    h.sanitizeRules_sanitizersOf hentries h.atRules fun entry _ other hsame r =>
      h.judge_atRuleSanitizerAt hentries maxGroupRuleDepth hsame r
  have hsheet (css : String) : p.cleanText css = q.cleanText css := by
    simp only [cleanText, judgeStylesheet, hjudge]
  refine ⟨hvalid', fun css => ⟨p.cleanText css, clean_of_valid hvalid css, ?_⟩⟩
  rw [hsheet]
  exact clean_of_valid hvalid' css

/-- A policy that is written in another order, in other cases and with a property more than once. -/
theorem clean_variant_media :
    let media : AtRulePolicy := { name := "media", block := .rules }
    let page : AtRulePolicy := { name := "page", block := .declarations }
    let p : Policy :=
      { atRules := [media, page], styleRules := { properties := ["color", "width"] } }
    let q : Policy :=
      { atRules := [{ page with name := "PAGE" }, { media with name := "Media" }]
        styleRules := { properties := ["WIDTH", "color", "Color"] } }
    p.Variant q ∧ p.validate = .ok () ∧ q.validate = .ok () ∧
      ∃ sheet, p.clean "@MEDIA x\x7ba\x7bCOLOR:red;x:y\x7d\x7d" = .ok sheet ∧
        q.clean "@MEDIA x\x7ba\x7bCOLOR:red;x:y\x7d\x7d" = .ok sheet ∧
        sheet.css = "@MEDIA x\x7ba\x7bCOLOR:red\x7d\x7d" := by
  intro media page p q
  have hproperties : SameNames ["color", "width"] ["WIDTH", "color", "Color"] := by
    have htwice : SameNames ["color", "width"] ["color", "color", "width"] := .duplicate (.head _)
    have hperm : SameNames ["color", "color", "width"] ["width", "color", "color"] :=
      .of_perm (by decide)
    exact (htwice.trans hperm).trans (.of_map_folded (by decide +kernel))
  have hvariant : p.Variant q :=
    ⟨by decide +kernel, rfl, rfl, hproperties, .of_perm (.refl _), rfl, .of_perm (.refl _)⟩
  have hvalid : p.validate = .ok () := if_pos (by decide +kernel)
  obtain ⟨hvalid', hclean⟩ := clean_variant hvariant hvalid
  obtain ⟨sheet, hp, hq⟩ := hclean "@MEDIA x\x7ba\x7bCOLOR:red;x:y\x7d\x7d"
  refine ⟨hvariant, hvalid, hvalid', sheet, hp, hq, ?_⟩
  rw [clean_of_valid hvalid] at hp
  rw [← Except.ok.inj hp]
  decide +kernel

end Policy

end StyleGate
