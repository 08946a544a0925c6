import StyleGate.Proofs.Layers

/-!
# Layers of a policy compose

A policy that is laid over another one is a policy, so it can have a third under it or over it. Which
of the two steps is taken first does not matter, and a policy that is laid over the same one twice
changes nothing the second time (`Policy.merge_merge`), down to the order and the spelling of all
entries.

Both follow from what one entry does. An at-rule that is put into a list with a layer over it may as
well be put into the layer first (`AtRulePolicy.putInto_layered`), because it takes the place of the
one entry of its name there, or comes last. The same holds of a name that is added to two lists one
after the other (`addName_unionNames`).
-/

namespace StyleGate

open Text

/-! ## At-rules -/

namespace AtRulePolicy

variable {r s : AtRulePolicy} {entries more : List AtRulePolicy}

/-- At-rules with others put into them one after another. -/
def layered (entries more : List AtRulePolicy) : List AtRulePolicy :=
  more.foldl (fun entries entry => entry.putInto entries) entries

/-- Layers are put on one after another. -/
theorem layered_cons (entries : List AtRulePolicy) (r : AtRulePolicy)
    (more : List AtRulePolicy) : layered entries (r :: more) = layered (r.putInto entries) more := rfl

/-- An entry takes the place of the one with its name. -/
theorem putInto_cons_of_key_eq (h : s.key = r.key) (entries : List AtRulePolicy) :
    r.putInto (s :: entries) = r :: entries := by
  rw [putInto, if_pos (isNamed_iff.2 h)]

/-- It leaves the others where they are. -/
theorem putInto_cons_of_key_ne (h : s.key ≠ r.key) (entries : List AtRulePolicy) :
    r.putInto (s :: entries) = s :: r.putInto entries := by
  rw [putInto, if_neg fun hnamed => h (isNamed_iff.1 hnamed)]

/-- The second of two at-rules of one name takes the place of the first. -/
theorem putInto_putInto (h : s.key = r.key) (entries : List AtRulePolicy) :
    r.putInto (s.putInto entries) = r.putInto entries := by
  induction entries with
  | nil => exact putInto_cons_of_key_eq h []
  | cons e rest ih =>
    by_cases he : e.key = s.key
    · rw [putInto_cons_of_key_eq he, putInto_cons_of_key_eq h, putInto_cons_of_key_eq (he.trans h)]
    · have her : e.key ≠ r.key := fun heq => he (heq.trans h.symm)
      rw [putInto_cons_of_key_ne he, putInto_cons_of_key_ne her, ih, putInto_cons_of_key_ne her]

/-- An at-rule that finds its place in a list takes the same place when another one is put into the
list first. -/
theorem putInto_comm (hne : s.key ≠ r.key) (hr : r.key ∈ entries.map key) :
    r.putInto (s.putInto entries) = s.putInto (r.putInto entries) := by
  induction entries with
  | nil => cases hr
  | cons e rest ih =>
    by_cases hes : e.key = s.key
    · have her : e.key ≠ r.key := fun heq => hne (hes.symm.trans heq)
      rw [putInto_cons_of_key_eq hes, putInto_cons_of_key_ne hne, putInto_cons_of_key_ne her,
        putInto_cons_of_key_eq hes]
    · rw [putInto_cons_of_key_ne hes]
      by_cases her : e.key = r.key
      · rw [putInto_cons_of_key_eq her, putInto_cons_of_key_eq her, putInto_cons_of_key_ne hne.symm]
      · have hrest : r.key ∈ rest.map key :=
          (List.mem_cons.1 hr).resolve_left fun heq => her heq.symm
        rw [putInto_cons_of_key_ne her, putInto_cons_of_key_ne her, putInto_cons_of_key_ne hes,
          ih hrest]

/-- There is an entry with its name afterwards. -/
theorem mem_key_putInto (r : AtRulePolicy) (entries : List AtRulePolicy) :
    r.key ∈ (r.putInto entries).map key := by
  rw [map_key_putInto]
  split
  · assumption
  · simp

/-- No name gets lost. -/
theorem mem_key_putInto_of_mem (h : r.key ∈ entries.map key) (s : AtRulePolicy) :
    r.key ∈ (s.putInto entries).map key := by
  rw [map_key_putInto]
  split
  · exact h
  · exact List.mem_append_left _ h

/-- An at-rule that finds its place under a layer, and none in the layer, may be put there first. -/
theorem putInto_layered_of_not_mem (hr : r.key ∈ entries.map key) (hmore : r.key ∉ more.map key) :
    r.putInto (layered entries more) = layered (r.putInto entries) more := by
  induction more generalizing entries with
  | nil => rfl
  | cons s rest ih =>
    rw [List.map_cons, List.mem_cons, not_or] at hmore
    rw [layered_cons, layered_cons, ih (mem_key_putInto_of_mem hr s) hmore.2,
      putInto_comm (Ne.symm hmore.1) hr]

/-- An at-rule that is put into a list with a layer over it may be put into the layer first. -/
theorem putInto_layered (r : AtRulePolicy) (entries : List AtRulePolicy)
    (hmore : (more.map key).Nodup) :
    r.putInto (layered entries more) = layered entries (r.putInto more) := by
  induction more generalizing entries with
  | nil => rfl
  | cons s rest ih =>
    obtain ⟨hnew, hrest⟩ := List.nodup_cons.1 hmore
    by_cases hs : s.key = r.key
    · -- No later entry of the layer has the name of `r`, so that `r` keeps the place of `s`.
      rw [putInto_cons_of_key_eq hs, layered_cons, layered_cons]
      have hplace : r.key ∈ (s.putInto entries).map key := hs ▸ mem_key_putInto s entries
      rw [putInto_layered_of_not_mem hplace (hs ▸ hnew), putInto_putInto hs]
    · rw [putInto_cons_of_key_ne hs, layered_cons, layered_cons, ih _ hrest]

/-- A layer over a layer may be put into it first. -/
theorem layered_layered (entries upper : List AtRulePolicy)
    (hmore : (more.map key).Nodup) :
    layered (layered entries more) upper = layered entries (layered more upper) := by
  induction upper generalizing more with
  | nil => rfl
  | cons r rest ih =>
    rw [layered_cons, layered_cons, putInto_layered r entries hmore, ih (nodup_key_putInto r hmore)]

/-- An at-rule that a list holds is put where it is. -/
theorem putInto_of_mem (hr : r ∈ entries) (h : (entries.map key).Nodup) :
    r.putInto entries = entries := by
  induction entries with
  | nil => cases hr
  | cons s rest ih =>
    obtain ⟨hnew, hrest⟩ := List.nodup_cons.1 h
    rcases List.mem_cons.1 hr with rfl | hr
    · exact putInto_cons_of_key_eq rfl rest
    · have hne : s.key ≠ r.key := fun heq => hnew (heq ▸ List.mem_map_of_mem hr)
      rw [putInto_cons_of_key_ne hne, ih hr hrest]

/-- Putting in at-rules that are each put where they are changes nothing. -/
theorem layered_eq_self (h : ∀ r ∈ more, r.putInto entries = entries) :
    layered entries more = entries := by
  induction more with
  | nil => rfl
  | cons r rest ih =>
    obtain ⟨hfirst, hrest⟩ := List.forall_mem_cons.1 h
    rw [layered_cons, hfirst, ih hrest]

/-- A layer that is laid over a list again changes nothing. -/
theorem layered_again (entries : List AtRulePolicy) (hmore : (more.map key).Nodup) :
    layered (layered entries more) more = layered entries more := by
  refine layered_eq_self fun r hr => ?_
  rw [putInto_layered r entries hmore, putInto_of_mem hr hmore]

end AtRulePolicy

/-! ## Names in lists -/

/-- A name that is in the list already is not added. -/
theorem addName_of_containsFolded {names : List String} {name : String}
    (h : containsFolded names name = true) : addName names name = names := if_pos h

/-- A name that is added to two lists may be added to the second one first. -/
theorem addName_unionNames (names more : List String) (name : String) :
    addName (unionNames names more) name = unionNames names (addName more name) := by
  by_cases hmore : containsFolded more name = true
  · have hunion : containsFolded (unionNames names more) name = true := by
      rw [containsFolded_unionNames, hmore, Bool.or_true]
    rw [addName_of_containsFolded hunion, addName_of_containsFolded hmore]
  · have hadd : addName more name = more ++ [name] := if_neg hmore
    rw [hadd, unionNames, unionNames, List.foldl_append]
    rfl

/-- The union of three lists does not depend on which two are united first. -/
theorem unionNames_unionNames (names more upper : List String) :
    unionNames (unionNames names more) upper = unionNames names (unionNames more upper) := by
  induction upper generalizing more with
  | nil => rfl
  | cons name rest ih =>
    have hstep (list : List String) :
        unionNames list (name :: rest) = unionNames (addName list name) rest := rfl
    rw [hstep, hstep, addName_unionNames, ih]

/-- Adding names that a list holds changes nothing. -/
theorem unionNames_eq_self {names more : List String}
    (h : ∀ name ∈ more, containsFolded names name = true) : unionNames names more = names := by
  induction more with
  | nil => rfl
  | cons name rest ih =>
    obtain ⟨hfirst, hrest⟩ := List.forall_mem_cons.1 h
    rw [unionNames, List.foldl_cons, addName_of_containsFolded hfirst]
    exact ih hrest

/-- Uniting a list with another one again changes nothing. -/
theorem unionNames_again (names more : List String) :
    unionNames (unionNames names more) more = unionNames names more := by
  refine unionNames_eq_self fun name hname => ?_
  have hmore : containsFolded more name = true :=
    containsFolded_iff.2 (List.mem_map_of_mem hname)
  rw [containsFolded_unionNames, hmore, Bool.or_true]

/-! ## Policies -/

namespace Policy

/-- **Layers compose.** A policy over a valid one over a third is the first two laid over each other,
and then over the third: all entries are the same, in the same order and spelling, and so are all
switches. A valid policy that is laid over the same one again changes nothing. -/
theorem merge_merge (p upper : Policy) {user : Policy} (huser : user.validate = .ok ()) :
    (p.merge (some user)).merge (some upper) = p.merge (some (user.merge (some upper))) ∧
      (p.merge (some user)).merge (some user) = p.merge (some user) := by
  have hdistinct := (validate_eq_ok_iff.1 huser).1.distinct
  constructor
  · have hrules := AtRulePolicy.layered_layered p.atRules upper.atRules hdistinct
    simp only [merge, overlay, unionNames_unionNames]
    exact congrArg (Policy.mk · _ _ _) hrules
  · have hrules := AtRulePolicy.layered_again p.atRules hdistinct
    simp only [merge, overlay, unionNames_again]
    exact congrArg (Policy.mk · _ _ _) hrules

/-- A rule that two layers name, one that only the upper ones name, and a property in two spellings. -/
theorem merge_merge_media :
    let p : Policy :=
      { atRules := [{ name := "media" }, { name := "page" }], styleRules := { properties := ["color"] } }
    let user : Policy :=
      { atRules := [{ name := "MEDIA", block := .rules }, { name := "layer" }]
        styleRules := { properties := ["COLOR", "width"] } }
    let upper : Policy := { atRules := [{ name := "Layer" }, { name := "supports" }, { name := "Page" }] }
    user.validate = .ok () ∧
      (p.merge (some user)).merge (some upper) = p.merge (some (user.merge (some upper))) ∧
      (p.merge (some user)).merge (some user) = p.merge (some user) ∧
      (p.merge (some (user.merge (some upper)))).atRules.map (·.name) =
        ["MEDIA", "Page", "Layer", "supports"] ∧
      (p.merge (some (user.merge (some upper)))).styleRules.properties = ["color", "width"] := by
  intro p user upper
  have huser : user.validate = .ok () := if_pos (by decide +kernel)
  obtain ⟨hcompose, hagain⟩ := merge_merge p upper huser
  exact ⟨huser, hcompose, hagain, by decide +kernel, by decide +kernel⟩

/-- In a layer with two rules of one name the second one would come back from under a third layer. -/
example :
    let user : Policy := { atRules := [{ name := "a" }, { name := "a", optIn := true }] }
    let upper : Policy := { atRules := [{ name := "a" }] }
    (standard.merge (some user)).merge (some upper) ≠ standard.merge (some (user.merge (some upper))) := by
  decide +kernel

end Policy

end StyleGate
