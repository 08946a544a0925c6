import Mathlib.Data.List.Nodup
import StyleGate.Policy.Standard
import StyleGate.Policy.Validity

/-!
# Valid policies

The faults of a policy are found one after another, each at-rule being compared with the names in front
of it. `Policy.validate_eq_ok_iff` says what it comes to: `AtRulePolicy.AllValid`, which does not speak of
any order. In such a list an at-rule is found by its name wherever it stands
(`AtRulePolicy.AllValid.find?_eq_some_iff`), because no two names are the same up to the case of ASCII
letters.
-/

namespace StyleGate

open Text

namespace AtRulePolicy

/-- The name of an at-rule as it is compared. -/
def key (r : AtRulePolicy) : String := folded r.name

/-- An entry has a name if the two are the same in lower case. -/
theorem isNamed_iff {r : AtRulePolicy} {name : String} : r.isNamed name = true ↔ r.key = folded name :=
  sameFolded_iff

/-- An at-rule that is valid apart from others: it has a name, written without the at-sign, and its
index does not test for more than it sets. -/
structure Valid (r : AtRulePolicy) : Prop where
  nonempty : r.name.isEmpty = false
  unmarked : r.name.toList.head? ≠ some '@'
  index : r.index.isInverted = false

/-- At-rules that are valid, no two of them under one name. -/
structure AllValid (entries : List AtRulePolicy) : Prop where
  each : ∀ r ∈ entries, r.Valid
  distinct : (entries.map key).Nodup

namespace AllValid

variable {entries more : List AtRulePolicy}

/-- No at-rule is invalid where there is none. -/
theorem nil : AllValid [] := ⟨by simp, by simp⟩

/-- All of a list are valid if the first one is, has another name than the rest, and these are
valid. -/
theorem cons_iff {r : AtRulePolicy} :
    AllValid (r :: entries) ↔ r.Valid ∧ r.key ∉ entries.map key ∧ AllValid entries := by
  constructor
  · intro h
    obtain ⟨hfirst, hrest⟩ := List.forall_mem_cons.1 h.each
    obtain ⟨hnew, hdistinct⟩ := List.nodup_cons.1 h.distinct
    exact ⟨hfirst, hnew, hrest, hdistinct⟩
  · rintro ⟨hfirst, hnew, hrest⟩
    exact ⟨List.forall_mem_cons.2 ⟨hfirst, hrest.each⟩, List.nodup_cons.2 ⟨hnew, hrest.distinct⟩⟩

/-- What is left of valid at-rules is valid. -/
theorem sublist (h : AllValid entries) (hsub : more.Sublist entries) : AllValid more :=
  ⟨fun r hr => h.each r (hsub.subset hr), h.distinct.sublist (hsub.map key)⟩

/-- Two valid at-rules of one name are one at-rule. -/
theorem eq_of_key_eq (h : AllValid entries) {r s : AtRulePolicy} (hr : r ∈ entries) (hs : s ∈ entries)
    (hkey : r.key = s.key) : r = s :=
  List.inj_on_of_nodup_map h.distinct hr hs hkey

/-- An at-rule is found by its name, wherever it stands. -/
theorem find?_eq_some_iff (h : AllValid entries) {name : String} {r : AtRulePolicy} :
    entries.find? (·.isNamed name) = some r ↔ r ∈ entries ∧ r.isNamed name = true := by
  constructor
  · intro hfind
    have hname := List.find?_some hfind
    exact ⟨List.mem_of_find?_eq_some hfind, hname⟩
  · rintro ⟨hmem, hname⟩
    have hsome : (entries.find? (·.isNamed name)).isSome = true := List.find?_isSome.2 ⟨r, hmem, hname⟩
    obtain ⟨s, hs⟩ := Option.isSome_iff_exists.1 hsome
    have hfound := List.find?_some hs
    have hkey : s.key = r.key := (isNamed_iff.1 hfound).trans (isNamed_iff.1 hname).symm
    rw [hs, h.eq_of_key_eq (List.mem_of_find?_eq_some hs) hmem hkey]

end AllValid

end AtRulePolicy

namespace Policy

/-- A name without a fault is one that no name in front of it is the same as. -/
theorem nameFaults_eq_nil_iff {seen : List String} {name : String} :
    nameFaults seen name = [] ↔
      name.isEmpty = false ∧ name.toList.head? ≠ some '@' ∧ folded name ∉ seen.map folded := by
  rw [← containsFolded_iff]
  unfold nameFaults
  split
  · next hempty => simp [hempty]
  · next hempty =>
    split
    · next hmarked => simp [hmarked]
    · next hmarked => split <;> simp_all

/-- An index has no fault exactly if it is not inverted. -/
theorem indexFaults_eq_nil_iff {r : AtRulePolicy} :
    indexFaults r = [] ↔ r.index.isInverted = false := by
  unfold indexFaults
  split <;> simp_all

/-- At-rules are without faults if they are valid and have other names than those in front of them. -/
theorem atRuleFaults_eq_nil_iff {seen : List String} {entries : List AtRulePolicy} :
    atRuleFaults seen entries = [] ↔
      AtRulePolicy.AllValid entries ∧ ∀ r ∈ entries, r.key ∉ seen.map folded := by
  induction entries generalizing seen with
  | nil => simp [atRuleFaults, AtRulePolicy.AllValid.nil]
  | cons r rest ih =>
    rw [atRuleFaults, List.append_eq_nil_iff, List.append_eq_nil_iff, nameFaults_eq_nil_iff,
      indexFaults_eq_nil_iff, AtRulePolicy.AllValid.cons_iff, List.forall_mem_cons]
    constructor
    · rintro ⟨⟨hname, hindex⟩, hrest⟩
      have hnames : nameFaults seen r.name = [] := nameFaults_eq_nil_iff.2 hname
      rw [hnames] at hrest
      obtain ⟨hvalid, hnew⟩ := ih.1 hrest
      refine ⟨⟨⟨hname.1, hname.2.1, hindex⟩, ?_, hvalid⟩, hname.2.2, fun s hs hmem => ?_⟩
      · intro hmem
        obtain ⟨s, hs, hkey⟩ := List.mem_map.1 hmem
        exact hnew s hs (hkey ▸ List.mem_cons_self)
      · exact hnew s hs (List.mem_cons_of_mem _ hmem)
    · rintro ⟨⟨hfirst, hother, hvalid⟩, hkey, hnew⟩
      have hname := And.intro hfirst.nonempty (And.intro hfirst.unmarked hkey)
      have hnames : nameFaults seen r.name = [] := nameFaults_eq_nil_iff.2 hname
      refine ⟨⟨hname, hfirst.index⟩, ?_⟩
      rw [hnames]
      refine ih.2 ⟨hvalid, fun s hs hmem => ?_⟩
      rcases List.mem_cons.1 hmem with hsame | hmem
      · exact hother (List.mem_map.2 ⟨s, hs, hsame⟩)
      · exact hnew s hs hmem

/-- A policy is accepted if its at-rules are valid and the index of style rules does not test for more
than it sets. -/
theorem validate_eq_ok_iff {p : Policy} :
    p.validate = .ok () ↔
      AtRulePolicy.AllValid p.atRules ∧ p.styleRules.index.isInverted = false := by
  have hfaults : p.faults = [] ↔
      AtRulePolicy.AllValid p.atRules ∧ p.styleRules.index.isInverted = false := by
    rw [faults, List.append_eq_nil_iff, atRuleFaults_eq_nil_iff]
    refine and_congr ⟨And.left, fun h => ⟨h, by simp⟩⟩ ?_
    split <;> simp_all
  rw [← hfaults, validate]
  split <;> simp_all

/-- The default policy is accepted. -/
theorem standard_valid : standard.validate = .ok () := if_pos (by decide +kernel)

end Policy

end StyleGate
