import Mathlib.Data.List.Forall2
import StyleGate.Policy.Json

/-!
# Policies as documents

A JSON value shows a policy if its records have the policy's values in their fields. A field that has
its default may be missing, other fields may stand anywhere, and an index of two equal parts may be
written as a number or as a list. `Policy.ShownBy` says so without reading anything. The policy that is
read from a value is exactly the one that it shows (`Policy.ofJson?_eq_some_iff`), and the written form
of a policy is one of the values that show it (`Policy.shownBy_toJson`). So a policy that was written,
or read and written, is read again as itself (`Policy.ofJson?_toJson`).
-/

namespace StyleGate

/-! ## Fields of records -/

/-- What the fields of a record show: one field of the name shows the value, or none has this name and
the value is the default. -/
def FieldShows {ν : Type} (fields : List (String × ν)) (name : String) (isDefault : Prop)
    (shows : ν → Prop) : Prop :=
  (name ∉ fields.map Prod.fst ∧ isDefault) ∨
    ∃ before v after, fields = before ++ (name, v) :: after ∧ name ∉ before.map Prod.fst ∧
      name ∉ after.map Prod.fst ∧ shows v

section Fields

variable {ν α : Type} {fields : List (String × ν)} {name : String}

/-- No field of a name is left exactly if there was none. -/
theorem filter_name_eq_nil_iff :
    fields.filter (·.1 == name) = [] ↔ name ∉ fields.map Prod.fst := by
  rw [List.filter_eq_nil_iff, List.mem_map, not_exists]
  simp

/-- A field is read as what the fields show. -/
theorem readField_eq_some_iff {default a : α} {read : ν → Option α} :
    readField fields name default read = some a ↔
      FieldShows fields name (a = default) fun v => read v = some a := by
  constructor
  · intro h
    unfold readField at h
    split at h
    · next hnone => exact .inl ⟨filter_name_eq_nil_iff.1 hnone, (Option.some.inj h).symm⟩
    · next key v hone =>
      obtain ⟨before, after, rfl, hbefore, hname, hafter⟩ := List.filter_eq_cons_iff.1 hone
      have hkey : key = name := by simpa using hname
      subst hkey
      have hbefore : key ∉ before.map Prod.fst :=
        filter_name_eq_nil_iff.1 (List.filter_eq_nil_iff.2 hbefore)
      exact .inr ⟨before, v, after, rfl, hbefore, filter_name_eq_nil_iff.1 hafter, h⟩
    · cases h
  · rintro (⟨hnone, rfl⟩ | ⟨before, v, after, rfl, hbefore, hafter, hv⟩)
    · rw [readField, filter_name_eq_nil_iff.2 hnone]
    · have hone : (before ++ (name, v) :: after).filter (·.1 == name) = [(name, v)] := by
        rw [List.filter_append, List.filter_cons_of_pos (by simp), filter_name_eq_nil_iff.2 hbefore,
          filter_name_eq_nil_iff.2 hafter, List.nil_append]
      rw [readField, hone]
      exact hv

end Fields

/-- A list is read as others are that each of its items is read as. -/
theorem mapM_eq_some_iff {α β : Type} {f : α → Option β} {xs : List α} {ys : List β} :
    xs.mapM f = some ys ↔ List.Forall₂ (fun x y => f x = some y) xs ys := by
  induction xs generalizing ys with
  | nil => simp [eq_comm]
  | cons x xs ih =>
    rw [List.mapM_cons]
    cases ys with
    | nil => simp [Option.bind_eq_some_iff]
    | cons y ys => simp [Option.bind_eq_some_iff, ih]

/-! ## Values of one sort -/

namespace Json

variable {j : Json}

/-- The fields of a record: those of an object, or values in the order of the fields, with the last ones
left out perhaps. -/
def HasFields (names : List String) (j : Json) (fields : List (String × Json)) : Prop :=
  j = .object fields ∨ ∃ items, j = .array items ∧ items.length ≤ names.length ∧ fields = names.zip items

/-- Only a string is read as a text. -/
theorem text?_eq_some_iff {s : String} : form.text? j = some s ↔ j = .string s := by
  cases j <;> simp [form]

/-- Where the text may be missing, `null` is read as none. -/
theorem optionalText?_eq_some_iff {text : Option String} :
    form.optionalText? j = some text ↔
      j = match text with | some s => .string s | none => .null := by
  cases j <;> cases text <;> simp [form]

/-- Only a truth value is read as a flag. -/
theorem flag?_eq_some_iff {b : Bool} : form.flag? j = some b ↔ j = .bool b := by
  cases j <;> simp [form]

/-- Only an integer is read as one. -/
theorem integer?_eq_some_iff {n : Int} : form.integer? j = some n ↔ j = .int n := by
  cases j <;> simp [form]

/-- Only an array is read as items. -/
theorem items?_eq_some_iff {items : List Json} : form.items? j = some items ↔ j = .array items := by
  cases j <;> simp [form]

/-- One of several names is read from a string, or from an object with that name for its one
field. -/
theorem choice?_eq_some_iff {name : String} :
    form.choice? j = some name ↔ j = .string name ∨ j = .object [(name, .null)] := by
  constructor
  · intro h
    match j, h with
    | .string _, rfl => exact .inl rfl
    | .object [(_, .null)], rfl => exact .inr rfl
  · rintro (rfl | rfl) <;> rfl

/-- The fields of a record are read from the values that have them. -/
theorem fields?_eq_some_iff {names : List String} {fields : List (String × Json)} :
    form.fields? names j = some fields ↔ j.HasFields names fields := by
  unfold HasFields
  cases j <;> simp [form]
  exact fun _ => eq_comm

end Json

/-! ## What values show -/

/-- An index is shown by its two parts, and by a number if they are equal. -/
def RuleIndex.ShownBy (i : RuleIndex) (j : Json) : Prop :=
  j = .array [.int i.test.toInt, .int i.set.toInt] ∨ i.test = i.set ∧ j = .int i.test.toInt

/-- A shape is shown by its name, and by a field of this name that holds nothing. -/
def BlockShape.ShownBy (shape : BlockShape) (j : Json) : Prop :=
  j = .string shape.tag ∨ j = .object [(shape.tag, .null)]

/-- What shows the policy of an at-rule. -/
def AtRulePolicy.ShownBy (r : AtRulePolicy) (j : Json) : Prop :=
  ∃ fields, j.HasFields ["name", "description", "index", "block", "opt_in"] fields ∧
    FieldShows fields "name" (r.name = "") (· = .string r.name) ∧
    FieldShows fields "description" (r.description = none)
      (· = match r.description with | some text => .string text | none => .null) ∧
    FieldShows fields "index" (r.index = RuleIndex.ordinary) r.index.ShownBy ∧
    FieldShows fields "block" (r.block = .none) r.block.ShownBy ∧
    FieldShows fields "opt_in" (r.optIn = false) (· = .bool r.optIn)

/-- What shows the policy of style rules. -/
def StyleRulePolicy.ShownBy (r : StyleRulePolicy) (j : Json) : Prop :=
  ∃ fields, j.HasFields ["enabled", "index", "properties"] fields ∧
    FieldShows fields "enabled" (r.enabled = true) (· = .bool r.enabled) ∧
    FieldShows fields "index" (r.index = RuleIndex.ordinary) r.index.ShownBy ∧
    FieldShows fields "properties" (r.properties = []) (· = textsToJson r.properties)

/-- What shows the policy of values. -/
def ValuePolicy.ShownBy (r : ValuePolicy) (j : Json) : Prop :=
  ∃ fields, j.HasFields ["functions", "allow_urls"] fields ∧
    FieldShows fields "functions" (r.functions = []) (· = textsToJson r.functions) ∧
    FieldShows fields "allow_urls" (r.allowUrls = false) (· = .bool r.allowUrls)

/-- What shows the policy of selectors. -/
def SelectorPolicy.ShownBy (r : SelectorPolicy) (j : Json) : Prop :=
  ∃ fields, j.HasFields ["functions"] fields ∧
    FieldShows fields "functions" (r.functions = []) (· = textsToJson r.functions)

/-- What shows a policy. -/
def Policy.ShownBy (p : Policy) (j : Json) : Prop :=
  ∃ fields, j.HasFields ["at_rules", "style_rules", "values", "selectors"] fields ∧
    FieldShows fields "at_rules" (p.atRules = [])
      (fun v => ∃ items, v = .array items ∧ List.Forall₂ AtRulePolicy.ShownBy p.atRules items) ∧
    FieldShows fields "style_rules" (p.styleRules = {}) p.styleRules.ShownBy ∧
    FieldShows fields "values" (p.values = {}) p.values.ShownBy ∧
    FieldShows fields "selectors" (p.selectors = {}) p.selectors.ShownBy

/-! ## Reading is finding what is shown -/

/-- One bound of an index is read from its own number alone, which fits into 32 bits. -/
theorem RuleIndex.bound?_eq_some_iff {n : Int} {i : Int32} : bound? n = some i ↔ n = i.toInt := by
  unfold bound?
  constructor
  · intro h
    split at h
    · next hrange =>
      rw [Int32.toInt_maxValue, Int32.toInt_minValue] at hrange
      cases h
      exact (Int32.toInt_ofInt_of_le hrange.1 (by omega)).symm
    · cases h
  · rintro rfl
    rw [if_pos ⟨i.minValue_le_toInt, i.toInt_le⟩, Int32.ofInt_toInt]

/-- A list of two numbers shows its index, and no other one. -/
theorem RuleIndex.ofForm?_array_eq_some_iff {items : List Json} {i : RuleIndex} :
    ofForm? Json.form (.array items) = some i ↔
      items = [.int i.test.toInt, .int i.set.toInt] := by
  obtain ⟨test, set⟩ := i
  constructor
  · intro h
    match items, h with
    | [first, second], h =>
      have hread : ofForm? Json.form (.array [first, second]) = (do
          return ⟨← bound? (← Json.form.integer? first), ← bound? (← Json.form.integer? second)⟩) := rfl
      simp only [hread, Option.bind_eq_bind, Option.bind_eq_some_iff] at h
      obtain ⟨n, hn, a, ha, m, hm, b, hb, heq⟩ := h
      cases heq
      rw [bound?_eq_some_iff] at ha hb
      rw [Json.integer?_eq_some_iff.1 hn, Json.integer?_eq_some_iff.1 hm, ha, hb]
    | [], h | [_], h | _ :: _ :: _ :: _, h => simp [ofForm?, Json.form] at h
  · rintro rfl
    have hbound (n : Int32) : bound? n.toInt = some n := bound?_eq_some_iff.2 rfl
    simp [ofForm?, Json.form, hbound]

/-- The index that is read is the one that is shown. -/
theorem RuleIndex.ofJson?_eq_some_iff {j : Json} {i : RuleIndex} :
    ofForm? Json.form j = some i ↔ i.ShownBy j := by
  unfold ShownBy
  cases j with
  | array items => simp [ofForm?_array_eq_some_iff]
  | int n =>
    obtain ⟨test, set⟩ := i
    have hread : ofForm? Json.form (.int n) = (bound? n).map single := rfl
    simp only [hread, Option.map_eq_some_iff, bound?_eq_some_iff, single, RuleIndex.mk.injEq,
      reduceCtorEq, false_or, Json.int.injEq]
    constructor
    · rintro ⟨a, hn, rfl, rfl⟩
      exact ⟨rfl, hn⟩
    · rintro ⟨rfl, hn⟩
      exact ⟨test, hn, rfl, rfl⟩
  | _ => simp [ofForm?, Json.form]

/-- Each shape has a tag of its own. -/
theorem BlockShape.ofTag?_eq_some_iff {name : String} {shape : BlockShape} :
    ofTag? name = some shape ↔ name = shape.tag := by
  refine ⟨fun h => ?_, fun h => h ▸ ofTag?_tag shape⟩
  have htag := List.find?_some h
  exact (beq_iff_eq.1 htag).symm

/-- A shape is read from just the values that show it. -/
theorem BlockShape.ofJson?_eq_some_iff {j : Json} {shape : BlockShape} :
    (∃ name, Json.form.choice? j = some name ∧ ofTag? name = some shape) ↔ shape.ShownBy j := by
  simp only [Json.choice?_eq_some_iff, ofTag?_eq_some_iff]
  constructor
  · rintro ⟨name, hname, rfl⟩
    exact hname
  · exact fun h => ⟨shape.tag, h, rfl⟩

/-- Texts are read from what is written for them and from nothing else. -/
theorem textsOfJson?_eq_some_iff {j : Json} {texts : List String} :
    textsOfForm? Json.form j = some texts ↔ j = textsToJson texts := by
  rw [textsOfForm?, Option.bind_eq_bind, Option.bind_eq_some_iff]
  simp only [Json.items?_eq_some_iff, mapM_eq_some_iff, Json.text?_eq_some_iff]
  constructor
  · rintro ⟨items, rfl, hitems⟩
    have heq : List.Forall₂ Eq items (texts.map .string) := List.forall₂_map_right_iff.2 hitems
    rw [List.forall₂_eq_eq_eq] at heq
    rw [heq, textsToJson]
  · rintro rfl
    refine ⟨texts.map .string, rfl, List.forall₂_map_left_iff.2 ?_⟩
    exact List.forall₂_same.2 fun _ _ => rfl

/-- The policy of an at-rule is read from just the values that show it: the fields are read one by
one, and those that are missing have their defaults. -/
theorem AtRulePolicy.ofJson?_eq_some_iff {j : Json} {r : AtRulePolicy} :
    ofForm? Json.form j = some r ↔ r.ShownBy j := by
  simp only [ofForm?, Option.bind_eq_bind, Option.bind_eq_some_iff, Option.pure_def,
    Option.some.injEq, Json.fields?_eq_some_iff, readField_eq_some_iff, Json.text?_eq_some_iff,
    Json.optionalText?_eq_some_iff, RuleIndex.ofJson?_eq_some_iff, BlockShape.ofJson?_eq_some_iff,
    Json.flag?_eq_some_iff]
  constructor
  · rintro ⟨fields, hfields, _, hname, _, hdescription, _, hindex, _, hblock, _, hoptIn, rfl⟩
    exact ⟨fields, hfields, hname, hdescription, hindex, hblock, hoptIn⟩
  · rintro ⟨fields, hfields, hname, hdescription, hindex, hblock, hoptIn⟩
    exact ⟨fields, hfields, _, hname, _, hdescription, _, hindex, _, hblock, _, hoptIn, rfl⟩

/-- So is the policy of style rules. -/
theorem StyleRulePolicy.ofJson?_eq_some_iff {j : Json} {r : StyleRulePolicy} :
    ofForm? Json.form j = some r ↔ r.ShownBy j := by
  simp only [ofForm?, Option.bind_eq_bind, Option.bind_eq_some_iff, Option.pure_def,
    Option.some.injEq, Json.fields?_eq_some_iff, readField_eq_some_iff, Json.flag?_eq_some_iff,
    RuleIndex.ofJson?_eq_some_iff, textsOfJson?_eq_some_iff]
  constructor
  · rintro ⟨fields, hfields, _, henabled, _, hindex, _, hproperties, rfl⟩
    exact ⟨fields, hfields, henabled, hindex, hproperties⟩
  · rintro ⟨fields, hfields, henabled, hindex, hproperties⟩
    exact ⟨fields, hfields, _, henabled, _, hindex, _, hproperties, rfl⟩

/-- So is the policy of values. -/
theorem ValuePolicy.ofJson?_eq_some_iff {j : Json} {r : ValuePolicy} :
    ofForm? Json.form j = some r ↔ r.ShownBy j := by
  simp only [ofForm?, Option.bind_eq_bind, Option.bind_eq_some_iff, Option.pure_def,
    Option.some.injEq, Json.fields?_eq_some_iff, readField_eq_some_iff, Json.flag?_eq_some_iff,
    textsOfJson?_eq_some_iff]
  constructor
  · rintro ⟨fields, hfields, _, hfunctions, _, hurls, rfl⟩
    exact ⟨fields, hfields, hfunctions, hurls⟩
  · rintro ⟨fields, hfields, hfunctions, hurls⟩
    exact ⟨fields, hfields, _, hfunctions, _, hurls, rfl⟩

/-- So is the policy of selectors. -/
theorem SelectorPolicy.ofJson?_eq_some_iff {j : Json} {r : SelectorPolicy} :
    ofForm? Json.form j = some r ↔ r.ShownBy j := by
  simp only [ofForm?, Option.bind_eq_bind, Option.bind_eq_some_iff, Option.pure_def,
    Option.some.injEq, Json.fields?_eq_some_iff, readField_eq_some_iff, textsOfJson?_eq_some_iff]
  constructor
  · rintro ⟨fields, hfields, _, hfunctions, rfl⟩
    exact ⟨fields, hfields, hfunctions⟩
  · rintro ⟨fields, hfields, hfunctions⟩
    exact ⟨fields, hfields, _, hfunctions, rfl⟩

/-- At-rules are read from a list of what shows them. -/
theorem AtRulePolicy.allOfJson?_eq_some_iff {j : Json} {rules : List AtRulePolicy} :
    (∃ items, Json.form.items? j = some items ∧ items.mapM (ofForm? Json.form) = some rules) ↔
      ∃ items, j = .array items ∧ List.Forall₂ ShownBy rules items := by
  simp only [Json.items?_eq_some_iff, mapM_eq_some_iff, ofJson?_eq_some_iff]
  exact exists_congr fun items => and_congr_right fun _ => ⟨.flip, .flip⟩

/-- **Reading finds what is shown.** The policy that is read from a JSON value is the one that the
value shows, and no policy is read from a value that shows none. -/
theorem Policy.ofJson?_eq_some_iff {j : Json} {p : Policy} :
    ofJson? j = some p ↔ p.ShownBy j := by
  simp only [ofJson?, ofForm?, Option.bind_eq_bind, Option.bind_eq_some_iff, Option.pure_def,
    Option.some.injEq, Json.fields?_eq_some_iff, readField_eq_some_iff,
    AtRulePolicy.allOfJson?_eq_some_iff, StyleRulePolicy.ofJson?_eq_some_iff,
    ValuePolicy.ofJson?_eq_some_iff, SelectorPolicy.ofJson?_eq_some_iff]
  constructor
  · rintro ⟨fields, hfields, _, hrules, _, hstyle, _, hvalues, _, hselectors, rfl⟩
    exact ⟨fields, hfields, hrules, hstyle, hvalues, hselectors⟩
  · rintro ⟨fields, hfields, hrules, hstyle, hvalues, hselectors⟩
    exact ⟨fields, hfields, _, hrules, _, hstyle, _, hvalues, _, hselectors, rfl⟩

/-! ## Written forms -/

/-- A record of distinct fields shows what is in one of them. -/
theorem FieldShows.of_mem {ν : Type} {fields : List (String × ν)} {names : List String}
    {name : String} {v : ν} {isDefault : Prop} {shows : ν → Prop}
    (hnames : fields.map Prod.fst = names) (hdistinct : names.Nodup) (hmem : (name, v) ∈ fields)
    (hv : shows v) : FieldShows fields name isDefault shows := by
  obtain ⟨before, after, rfl⟩ := List.append_of_mem hmem
  rw [← hnames, List.map_append, List.map_cons] at hdistinct
  obtain ⟨-, hafter, hapart⟩ := List.nodup_append.1 hdistinct
  refine .inr ⟨before, v, after, rfl, fun hbefore => ?_, (List.nodup_cons.1 hafter).1, hv⟩
  exact hapart name hbefore name (.head _) rfl

/-- The written form of an index shows it. If its parts are equal, that is a number. -/
theorem RuleIndex.shownBy_toJson (i : RuleIndex) : i.ShownBy i.toJson := by
  unfold toJson
  split
  · next hsingle => exact .inr ⟨beq_iff_eq.1 hsingle, rfl⟩
  · exact .inl rfl

/-- The written form of the policy of an at-rule shows it, as all fields are written, each once. -/
theorem AtRulePolicy.shownBy_toJson (r : AtRulePolicy) : r.ShownBy r.toJson := by
  have hdistinct : ["name", "description", "index", "block", "opt_in"].Nodup := by decide
  refine ⟨_, .inl rfl, .of_mem rfl hdistinct ?_ rfl, .of_mem rfl hdistinct (.tail _ (.head _)) rfl,
    .of_mem rfl hdistinct ?_ r.index.shownBy_toJson, .of_mem rfl hdistinct ?_ (.inl rfl),
    .of_mem rfl hdistinct ?_ rfl⟩
  all_goals simp

/-- That of the policy of style rules shows it. -/
theorem StyleRulePolicy.shownBy_toJson (r : StyleRulePolicy) : r.ShownBy r.toJson := by
  have hdistinct : ["enabled", "index", "properties"].Nodup := by decide
  refine ⟨_, .inl rfl, .of_mem rfl hdistinct ?_ rfl,
    .of_mem rfl hdistinct ?_ r.index.shownBy_toJson, .of_mem rfl hdistinct ?_ rfl⟩
  all_goals simp

/-- That of the policy of values shows it. -/
theorem ValuePolicy.shownBy_toJson (r : ValuePolicy) : r.ShownBy r.toJson := by
  have hdistinct : ["functions", "allow_urls"].Nodup := by decide
  refine ⟨_, .inl rfl, .of_mem rfl hdistinct ?_ rfl, .of_mem rfl hdistinct ?_ rfl⟩
  all_goals simp

/-- That of the policy of selectors shows it. -/
theorem SelectorPolicy.shownBy_toJson (r : SelectorPolicy) : r.ShownBy r.toJson := by
  have hdistinct : ["functions"].Nodup := by decide
  exact ⟨_, .inl rfl, .of_mem rfl hdistinct (.head _) rfl⟩

/-- A written policy shows that policy. -/
theorem Policy.shownBy_toJson (p : Policy) : p.ShownBy p.toJson := by
  have hdistinct : ["at_rules", "style_rules", "values", "selectors"].Nodup := by decide
  have hrules : List.Forall₂ AtRulePolicy.ShownBy p.atRules (p.atRules.map AtRulePolicy.toJson) :=
    List.forall₂_map_right_iff.2 (List.forall₂_same.2 fun r _ => r.shownBy_toJson)
  refine ⟨_, .inl rfl, .of_mem rfl hdistinct ?_ ⟨_, rfl, hrules⟩,
    .of_mem rfl hdistinct ?_ p.styleRules.shownBy_toJson,
    .of_mem rfl hdistinct ?_ p.values.shownBy_toJson,
    .of_mem rfl hdistinct ?_ p.selectors.shownBy_toJson⟩
  all_goals simp

/-- **Policies survive being written.** Every policy is read again from its written form, in which all
fields stand and an index of equal parts is a number. Whatever JSON value a policy is read from, it is
read again when it has been written, and what was refused stays refused. What is read from a value is
exactly what the value shows, with the defaults for missing fields. -/
theorem Policy.ofJson?_toJson :
    (∀ p : Policy, ofJson? p.toJson = some p) ∧
      (∀ j, ((ofJson? j).bind fun p => ofJson? p.toJson) = ofJson? j) ∧
      ∀ j p, ofJson? j = some p ↔ p.ShownBy j := by
  have hread (p : Policy) : ofJson? p.toJson = some p := ofJson?_eq_some_iff.2 p.shownBy_toJson
  refine ⟨hread, fun j => ?_, fun j p => ofJson?_eq_some_iff⟩
  cases hj : ofJson? j with
  | none => rfl
  | some p => exact hread p

/-- Records with missing, unknown and positional fields, and an index in either form. -/
example :
    let media : AtRulePolicy := { name := "media", index := ⟨3, 3⟩, block := .rules }
    Policy.ofJson? (.object [("version", .int 2), ("at_rules", .array
        [.object [("index", .array [.int 3, .int 3]), ("name", .string "media"),
          ("block", .object [("rules", .null)])]])]) = some { atRules := [media] } ∧
      Policy.ofJson? (.array [.array [.array [.string "media", .null, .int 3, .string "rules"]]]) =
        some { atRules := [media] } ∧
      RuleIndex.ofJson? (.array [.int 3]) = none := by
  decide

end StyleGate
