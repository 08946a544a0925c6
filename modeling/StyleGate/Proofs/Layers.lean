import StyleGate.Policy.Layers
import StyleGate.Proofs.Validity

/-!
# What the layers of a policy come to

A default policy, a user's policy over it, and lists of names that enable and disable at-rules make up
the policy that is used. `Policy.effective` says what it allows, name by name, whatever the order of
the entries in any of the lists, and that it is valid if the layers are. It is assembled from what one
step does: one at-rule that is put into a list (`AtRulePolicy.find?_putInto`), one name that is added
(`containsFolded_addName`), one list that is filtered (`AtRulePolicy.AllValid.find?_filter_staysActive`).
-/

namespace StyleGate

open Text

/-! ## At-rules -/

namespace AtRulePolicy

variable {entry r s : AtRulePolicy} {entries more : List AtRulePolicy}

/-- Entries of one name are named alike. -/
theorem isNamed_congr (h : r.key = s.key) (name : String) : r.isNamed name = s.isNamed name := by
  rw [Bool.eq_iff_iff, isNamed_iff, isNamed_iff, h]

/-- An at-rule that is put into a list is found by its name; by other names is found what was found
before. -/
theorem find?_putInto (entry : AtRulePolicy) (entries : List AtRulePolicy) (name : String) :
    (entry.putInto entries).find? (·.isNamed name) =
      if entry.isNamed name then some entry else entries.find? (·.isNamed name) := by
  induction entries with
  | nil => cases hname : entry.isNamed name <;> simp [putInto, hname]
  | cons r rest ih =>
    rw [putInto]
    split
    · next hsame =>
      have hnamed : r.isNamed name = entry.isNamed name := isNamed_congr (isNamed_iff.1 hsame) name
      rw [List.find?_cons, List.find?_cons, hnamed]
      cases entry.isNamed name <;> rfl
    · next hother =>
      rw [List.find?_cons, List.find?_cons, ih]
      cases hr : r.isNamed name with
      | false => rfl
      | true =>
        have hentry : entry.isNamed name = false := by
          rw [Bool.eq_false_iff]
          intro hentry
          exact hother (isNamed_iff.2 ((isNamed_iff.1 hr).trans (isNamed_iff.1 hentry).symm))
        rw [hentry]
        rfl

/-- An entry that is put into a list is the only new one. -/
theorem mem_of_mem_putInto (h : r ∈ entry.putInto entries) : r = entry ∨ r ∈ entries := by
  induction entries with
  | nil => exact .inl (List.mem_singleton.1 h)
  | cons s rest ih =>
    rw [putInto] at h
    split at h
    · exact (List.mem_cons.1 h).imp_right (List.mem_cons_of_mem s)
    · rcases List.mem_cons.1 h with rfl | h
      · exact .inr (.head _)
      · exact (ih h).imp_right (List.mem_cons_of_mem s)

/-- A list gets no new name but that of the at-rule that is put into it. -/
theorem map_key_putInto (entry : AtRulePolicy) (entries : List AtRulePolicy) :
    (entry.putInto entries).map key =
      if entry.key ∈ entries.map key then entries.map key else entries.map key ++ [entry.key] := by
  induction entries with
  | nil => rfl
  | cons r rest ih =>
    rw [putInto]
    split
    · next hsame =>
      have hkey : r.key = entry.key := isNamed_iff.1 hsame
      simp [hkey]
    · next hother =>
      have hne : entry.key ≠ r.key := fun hkey => hother (isNamed_iff.2 hkey.symm)
      rw [List.map_cons, ih, List.map_cons]
      simp only [List.mem_cons, hne, false_or]
      split <;> rfl

/-- At-rules of distinct names have distinct names when another one is put into them. -/
theorem nodup_key_putInto (entry : AtRulePolicy) (h : (entries.map key).Nodup) :
    ((entry.putInto entries).map key).Nodup := by
  rw [map_key_putInto]
  split
  · exact h
  · next hnew =>
    rw [List.nodup_append]
    refine ⟨h, List.nodup_singleton _, ?_⟩
    rintro key hkey _ hmem rfl
    exact hnew (List.mem_singleton.1 hmem ▸ hkey)

/-- Valid at-rules stay valid when a valid one is put into them. -/
theorem AllValid.putInto (h : AllValid entries) (hentry : entry.Valid) :
    AllValid (entry.putInto entries) := by
  refine ⟨fun r hr => ?_, nodup_key_putInto entry h.distinct⟩
  rcases mem_of_mem_putInto hr with rfl | hr
  · exact hentry
  · exact h.each r hr

/-- Valid at-rules stay valid when valid ones are put into them one after another. -/
theorem AllValid.foldl_putInto (h : AllValid entries) (hmore : ∀ r ∈ more, r.Valid) :
    AllValid (more.foldl (fun entries entry => entry.putInto entries) entries) := by
  induction more generalizing entries with
  | nil => exact h
  | cons r rest ih =>
    obtain ⟨hfirst, hrest⟩ := List.forall_mem_cons.1 hmore
    exact ih (h.putInto hfirst) hrest

/-- When valid at-rules are put into a list, each is found by its name; by other names is found what
was found before. -/
theorem AllValid.find?_foldl_putInto (hmore : AllValid more) (entries : List AtRulePolicy)
    (name : String) :
    (more.foldl (fun entries entry => entry.putInto entries) entries).find? (·.isNamed name) =
      (more.find? (·.isNamed name)).or (entries.find? (·.isNamed name)) := by
  induction more generalizing entries with
  | nil => rfl
  | cons r rest ih =>
    obtain ⟨-, hnew, hrest⟩ := AllValid.cons_iff.1 hmore
    rw [List.foldl_cons, ih hrest, find?_putInto, List.find?_cons]
    cases hr : r.isNamed name with
    | false => rfl
    | true =>
      -- No later at-rule takes the place of this one, because none has its name.
      have hnone : rest.find? (·.isNamed name) = none := by
        rw [List.find?_eq_none]
        intro s hs hname
        have hkey : s.key = r.key := (isNamed_iff.1 hname).trans (isNamed_iff.1 hr).symm
        exact hnew (hkey ▸ List.mem_map_of_mem hs)
      rw [hnone]
      rfl

end AtRulePolicy

/-- Two spellings of a name are in the same lists. -/
theorem Text.containsFolded_congr {a b : String} (h : folded a = folded b) (names : List String) :
    containsFolded names a = containsFolded names b := by
  rw [Bool.eq_iff_iff, containsFolded_iff, containsFolded_iff, h]

/-- Of valid at-rules, an active one is found by its name. -/
theorem AtRulePolicy.AllValid.find?_filter_staysActive {entries : List AtRulePolicy}
    (h : AllValid entries) (enable disable : List String) (name : String) :
    (entries.filter (Policy.staysActive enable disable)).find? (·.isNamed name) =
      if containsFolded disable name then none
      else (entries.find? (·.isNamed name)).filter fun r => !r.optIn || containsFolded enable name := by
  have hactive {r : AtRulePolicy} (hr : r.isNamed name = true) :
      Policy.staysActive enable disable r =
        (!containsFolded disable name && (!r.optIn || containsFolded enable name)) := by
    have hkey : folded r.name = folded name := isNamed_iff.1 hr
    rw [Policy.staysActive, containsFolded_congr hkey, containsFolded_congr hkey]
  refine Option.ext fun r => ?_
  rw [(h.sublist List.filter_sublist).find?_eq_some_iff, List.mem_filter]
  constructor
  · rintro ⟨⟨hmem, hstays⟩, hname⟩
    rw [hactive hname, Bool.and_eq_true, Bool.not_eq_true'] at hstays
    rw [hstays.1, if_neg Bool.false_ne_true, h.find?_eq_some_iff.2 ⟨hmem, hname⟩]
    exact if_pos hstays.2
  · intro hr
    split at hr
    · cases hr
    · next hdisabled =>
      obtain ⟨hfind, hstays⟩ := Option.filter_eq_some_iff.1 hr
      obtain ⟨hmem, hname⟩ := h.find?_eq_some_iff.1 hfind
      refine ⟨⟨hmem, ?_⟩, hname⟩
      rw [hactive hname, Bool.eq_false_iff.2 hdisabled, hstays]
      rfl

/-! ## Names in lists -/

/-- A list holds the name that is added to it, and what it held before. -/
theorem containsFolded_addName (names : List String) (added name : String) :
    containsFolded (addName names added) name =
      (containsFolded names name || sameFolded added name) := by
  unfold addName
  split
  · next hknown =>
    cases hsame : sameFolded added name with
    | false => rw [Bool.or_false]
    | true =>
      rw [← containsFolded_congr (sameFolded_iff.1 hsame) names, hknown]
      rfl
  · simp [containsFolded]

/-- The union of two lists holds what either of them holds. -/
theorem containsFolded_unionNames (names more : List String) (name : String) :
    containsFolded (unionNames names more) name =
      (containsFolded names name || containsFolded more name) := by
  unfold unionNames
  induction more generalizing names with
  | nil => simp [containsFolded]
  | cons added rest ih =>
    rw [List.foldl_cons, ih, containsFolded_addName, Bool.or_assoc]
    rfl

/-! ## The layers -/

namespace Policy

/-- A property is allowed under a user's policy over a default one if either of them allows it. -/
theorem allowsProperty_overlay (p user : Policy) (name : String) :
    (p.overlay user).allowsProperty name = (p.allowsProperty name || user.allowsProperty name) := by
  rw [allowsProperty, allowsProperty, allowsProperty, overlay, containsFolded_unionNames]
  cases ['-', '-'].isPrefixOf name.toList <;> rfl

/-- A user's valid policy over a valid default one is valid. -/
theorem validate_merge {p : Policy} {user : Option Policy} (hp : p.validate = .ok ())
    (huser : ∀ u, user = some u → u.validate = .ok ()) : (p.merge user).validate = .ok () := by
  cases user with
  | none => exact hp
  | some u =>
    obtain ⟨hdefault, -⟩ := validate_eq_ok_iff.1 hp
    obtain ⟨hentries, hindex⟩ := validate_eq_ok_iff.1 (huser u rfl)
    exact validate_eq_ok_iff.2 ⟨hdefault.foldl_putInto hentries.each, hindex⟩

/-- By a name is found the user's at-rule if there is one, else the default one. -/
theorem atRule?_merge (p : Policy) {user : Option Policy}
    (huser : ∀ u, user = some u → u.validate = .ok ()) (name : String) :
    (p.merge user).atRule? name = (user.bind (·.atRule? name)).or (p.atRule? name) := by
  cases user with
  | none => rfl
  | some u => exact (validate_eq_ok_iff.1 (huser u rfl)).1.find?_foldl_putInto p.atRules name

/-- A valid policy stays valid when at-rules are enabled and disabled. -/
theorem validate_activate {p : Policy} (h : p.validate = .ok ()) (enable disable : List String) :
    (p.activate enable disable).validate = .ok () := by
  obtain ⟨hentries, hindex⟩ := validate_eq_ok_iff.1 h
  exact validate_eq_ok_iff.2 ⟨hentries.sublist List.filter_sublist, hindex⟩

/-- Enabling and disabling the same at-rules again changes nothing. -/
theorem activate_activate (p : Policy) (enable disable : List String) :
    (p.activate enable disable).activate enable disable = p.activate enable disable := by
  simp only [activate, List.filter_filter, Bool.and_self]

/-- **The policy that is used is what its layers say.** Under valid layers it is valid. An at-rule is
found by its name if the name is not disabled: the user's at-rule of that name, or else the default one,
unless it is opt-in and the name is not enabled. What is allowed of properties and functions is what
either layer allows; the switches and the index of style rules are the user's, where there is a user's
policy. Enabling and disabling again changes nothing. -/
theorem effective {p : Policy} {user : Option Policy} (hp : p.validate = .ok ())
    (huser : ∀ u, user = some u → u.validate = .ok ()) (enable disable : List String) :
    let used := (p.merge user).activate enable disable
    used.validate = .ok () ∧
      (∀ name, used.atRule? name =
        if containsFolded disable name then none
        else ((user.bind (·.atRule? name)).or (p.atRule? name)).filter fun r =>
          !r.optIn || containsFolded enable name) ∧
      (∀ name, used.allowsProperty name =
        (p.allowsProperty name || user.any (·.allowsProperty name))) ∧
      (∀ name, containsFolded used.values.functions name =
        (containsFolded p.values.functions name ||
          user.any fun u => containsFolded u.values.functions name)) ∧
      (∀ name, containsFolded used.selectors.functions name =
        (containsFolded p.selectors.functions name ||
          user.any fun u => containsFolded u.selectors.functions name)) ∧
      used.values.allowUrls = (user.getD p).values.allowUrls ∧
      used.styleRules.enabled = (user.getD p).styleRules.enabled ∧
      used.styleRules.index = (user.getD p).styleRules.index ∧
      used.activate enable disable = used := by
  intro used
  have hmerged := validate_merge hp huser
  refine ⟨validate_activate hmerged enable disable, fun name => ?_, fun name => ?_, fun name => ?_,
    fun name => ?_, ?_, ?_, ?_, activate_activate _ enable disable⟩
  · rw [← atRule?_merge p huser name]
    exact (validate_eq_ok_iff.1 hmerged).1.find?_filter_staysActive enable disable name
  · cases user with
    | none => exact (Bool.or_false _).symm
    | some u => exact allowsProperty_overlay p u name
  · cases user with
    | none => exact (Bool.or_false _).symm
    | some u => exact containsFolded_unionNames p.values.functions u.values.functions name
  · cases user with
    | none => exact (Bool.or_false _).symm
    | some u => exact containsFolded_unionNames p.selectors.functions u.selectors.functions name
  all_goals cases user <;> rfl

/-- A user's rule takes the place of the default one, spelled as the user spells it, and stays only if
it is enabled; a disabled rule goes even if it is enabled too. -/
theorem effective_import :
    let user : Policy :=
      { atRules := [{ name := "IMPORT", optIn := true }, { name := "Media", optIn := true }] }
    let used := (standard.merge (some user)).activate ["import", "page"] ["PAGE"]
    used.validate = .ok () ∧ used.atRule? "Import" = some { name := "IMPORT", optIn := true } ∧
      used.atRule? "media" = none ∧ used.atRule? "page" = none ∧
      used.allowsProperty "COLOR" = true := by
  intro user used
  have huser : ∀ u, some user = some u → u.validate = .ok () := by
    rintro u ⟨⟩
    exact if_pos (by decide +kernel)
  obtain ⟨hvalid, hfind, hproperty, -⟩ :=
    effective standard_valid huser ["import", "page"] ["PAGE"]
  refine ⟨hvalid, (hfind "Import").trans ?_, (hfind "media").trans ?_, (hfind "page").trans ?_,
    (hproperty "COLOR").trans ?_⟩ <;> decide +kernel

end Policy

end StyleGate
