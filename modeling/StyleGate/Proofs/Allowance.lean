import StyleGate.Proofs.ReadAgain
import StyleGate.Proofs.Soundness

/-!
# What is allowed is allowed when it is read again

Whether a policy allows a rule does not change when the rule is written and read again: joined
whitespace is whitespace, and a url that is allowed is an allowed function
(`ValuePolicy.permits_of_readAs`). The statement climbs from values to declarations and rules, and
through groups of rules to whole stylesheets (`Policy.allowsSheet_of_readAs`).
-/

namespace StyleGate

open Text
open ComponentValue (ReadAgain)

/-- What holds of related members of a list is a matter of the list that it is related to. -/
theorem forall_of_forall₂ {α β : Type} {R : α → β → Prop} {P : α → Prop} {Q : β → Prop} {as : List α}
    {bs : List β} (h : List.Forall₂ R as bs) (hstep : ∀ a ∈ as, ∀ b ∈ bs, R a b → P a → Q b)
    (has : ∀ a ∈ as, P a) : ∀ b ∈ bs, Q b := by
  induction h with
  | nil => simp
  | @cons a b as bs hab _ ih =>
    refine List.forall_mem_cons.2 ⟨hstep a (.head _) b (.head _) hab (has a (.head _)), ?_⟩
    exact ih (fun a ha b hb => hstep a (.tail _ ha) b (.tail _ hb)) fun a ha => has a (.tail _ ha)

/-! ## Values -/

namespace ValuePolicy

variable {p : ValuePolicy}

/-- Every policy permits whitespace. -/
theorem permits_whitespace {w : ComponentValue} (h : w.isWhitespace = true) : p.Permits w := by
  obtain ⟨t, rfl, ht⟩ := ComponentValue.isWhitespace_iff.1 h
  exact .token (by simp [ht, TokenKind.isForbidden]) (by simp [ht])

/-- What is read from permitted values is permitted, if this holds of each of the values alone. -/
theorem permits_of_mem {vs ws : List ComponentValue} (h : ReadAgain vs ws)
    (hvs : ∀ v ∈ vs, ∀ w, v.ReadAs w → p.Permits w) : ∀ w ∈ ws, p.Permits w := by
  intro w hw
  rcases h.of_mem hw with hspace | ⟨v, hv, hread⟩
  · exact permits_whitespace hspace
  · exact hvs v hv w hread

/-- The contents of a quoted url are read as those of a quoted url. -/
theorem isQuotedUrl_of_readAgain {vs ws : List ComponentValue} (h : ReadAgain vs ws)
    (hvs : ComponentValue.IsQuotedUrl vs) : ComponentValue.IsQuotedUrl ws := by
  obtain ⟨before, url, after, rfl, hurl, hspace⟩ := hvs
  obtain ⟨before', url', after', rfl, hbefore, hurl', hafter⟩ := h.append_cons (by
    simp [ComponentValue.isWhitespace, ComponentValue.isToken, hurl])
  obtain ⟨u, rfl, hu, -⟩ := hurl'.token (by simp [hurl]) (by simp [hurl])
  have hblank {vs ws : List ComponentValue} (h : ReadAgain vs ws)
      (hvs : ∀ v ∈ vs, v.isWhitespace = true) : ∀ w ∈ ws, w.isWhitespace = true := by
    intro w hw
    rcases h.of_mem hw with hspace | ⟨v, hv, hread⟩
    · exact hspace
    · rw [hread.isWhitespace, hvs v hv]
  refine ⟨before', u, after', rfl, hu.trans hurl, fun w hw => ?_⟩
  rcases List.mem_append.1 hw with hw | hw
  · exact hblank hbefore (fun v hv => hspace v (List.mem_append_left _ hv)) w hw
  · exact hblank hafter (fun v hv => hspace v (List.mem_append_right _ hv)) w hw

/-- A permitted value is read as a permitted value. -/
theorem permits_of_readAs {v : ComponentValue} (h : p.Permits v) {w : ComponentValue}
    (hread : v.ReadAs w) : p.Permits w := by
  induction h generalizing w with
  | @token t hkind hurl =>
    by_cases ht : t.kind = .url
    · obtain ⟨name, u, rfl, hname, hu⟩ := hread.url ht
      refine .url (by rw [hname]; rfl) (hurl ht) ⟨[], u, [], rfl, hu, by simp⟩
    · by_cases hspace : t.kind = .whitespace
      · refine permits_whitespace ?_
        rw [hread.isWhitespace]
        exact ComponentValue.isWhitespace_iff.2 ⟨t, rfl, hspace⟩
      · obtain ⟨u, rfl, hu, -⟩ := hread.token ht hspace
        rw [← hu] at hkind ht
        exact .token hkind fun h => absurd h ht
  | block hopener _ ih =>
    obtain ⟨opener', contents', rfl, hkind, hcontents⟩ := hread.block
    exact .block (by rwa [hkind]) (permits_of_mem hcontents fun v hv w hread => ih v hv hread)
  | url hname hallow hquoted =>
    obtain ⟨name', contents', rfl, hvalue, hcontents⟩ := hread.function
    exact .url (by rwa [hvalue]) hallow (isQuotedUrl_of_readAgain hcontents hquoted)
  | function hname hlisted _ ih =>
    obtain ⟨name', contents', rfl, hvalue, hcontents⟩ := hread.function
    exact .function (by rwa [hvalue]) (by rwa [hvalue])
      (permits_of_mem hcontents fun v hv w hread => ih v hv hread)

/-- What is read again from permitted values is permitted: it is made of them and of whitespace. -/
theorem permits_of_readAgain {vs ws : List ComponentValue} (h : ReadAgain vs ws)
    (hvs : ∀ v ∈ vs, p.Permits v) : ∀ w ∈ ws, p.Permits w :=
  permits_of_mem h fun v hv _ hread => permits_of_readAs (hvs v hv) hread

end ValuePolicy

namespace Policy

variable {p : Policy}

/-! ## Declarations and style rules -/

/-- An allowed declaration is allowed as it is read again. -/
theorem allowsDeclaration_of_readAs {d e : Declaration} (h : p.AllowsDeclaration d)
    (hread : d.ReadAs e) : p.AllowsDeclaration e where
  property := by rw [hread.property, h.property]
  present := by rw [hread.value.allWhitespace, h.present]
  value := ValuePolicy.permits_of_readAgain hread.value h.value

/-- Contents that are regular, and read as others that are. -/
structure Rereadable (b c : Block) : Prop where
  regular : ∀ v ∈ b.contents, v.Regular 0 none
  regular' : ∀ v ∈ c.contents, v.Regular 0 none
  contents : ReadAgain b.contents c.contents

/-- A block of allowed declarations still holds only such ones when it is read again. -/
theorem allowsDeclarations_of_rereadable {b c : Block} (h : p.AllowsDeclarations b)
    (hread : Rereadable b c) : p.AllowsDeclarations c := by
  obtain ⟨hcomplete, hallowed⟩ := h
  rw [Block.readDeclarations hread.regular] at hcomplete hallowed
  have hlisted := Declaration.ofGroups_eq_iff.1 (Prod.ext rfl hcomplete)
  obtain ⟨es, hes, hsame⟩ := hlisted.readAgain hread.contents.dropWhile
  have hes := Declaration.ofGroups_eq_iff.2 hes
  refine ⟨?_, ?_⟩
  · rw [Block.readDeclarations hread.regular', hes]
  · rw [Block.readDeclarations hread.regular', hes]
    exact forall_of_forall₂ hsame (fun d _ e _ hread hd => allowsDeclaration_of_readAs hd hread)
      hallowed

/-- Readable rules have rereadable blocks. -/
theorem rereadable_of_readable {topLevel : Bool} {depth : Nat} {closer : Option TokenKind}
    {r s : Rule} (hr : r.Readable topLevel depth closer) (hs : s.Readable topLevel depth closer)
    {b c : Block} (hb : r.block? = some b) (hc : s.block? = some c)
    (hread : ReadAgain b.contents c.contents) : Rereadable b c where
  regular v hv := ((hr.block hb).2.2 v hv).atTop
  regular' v hv := ((hs.block hc).2.2 v hv).atTop
  contents := hread

/-- An allowed style rule is allowed as it is read again. -/
theorem allowsStyleRule_of_readAs {topLevel : Bool} {depth : Nat} {closer : Option TokenKind}
    {r s : QualifiedRule} (h : p.AllowsStyleRule r)
    (hr : (Rule.qualified r).Readable topLevel depth closer)
    (hs : (Rule.qualified s).Readable topLevel depth closer)
    (hread : (Rule.qualified r).ReadAs (.qualified s)) : p.AllowsStyleRule s := by
  obtain ⟨c, hc, hcontents⟩ := hread.block r.block rfl
  obtain rfl : s.block = c := by simpa [Rule.block?] using hc
  refine ⟨?_, ValuePolicy.permits_of_readAgain hread.prelude h.selector, ?_⟩
  · have hprelude : ReadAgain r.prelude s.prelude := hread.prelude
    rw [hprelude.allWhitespace, h.present]
  · exact allowsDeclarations_of_rereadable h.block (rereadable_of_readable hr hs rfl rfl hcontents)

/-! ## Lists of rules -/

/-- A property of lists of nested rules that stays when they are read again. -/
def Nested (nested : List Rule → Prop) : Prop :=
  ∀ {depth : Nat} {closer : Option TokenKind} {rs ss : List Rule},
    (∀ r ∈ rs, r.Readable false depth closer) → (∀ s ∈ ss, s.Readable false depth closer) →
    List.Forall₂ Rule.ReadAs rs ss → nested rs → nested ss

/-- A property of at-rules that stays when they are read again. -/
def Stable (inner : AtRule → Prop) : Prop :=
  ∀ {topLevel : Bool} {depth : Nat} {closer : Option TokenKind} {r s : AtRule},
    (Rule.atRule r).Readable topLevel depth closer → (Rule.atRule s).Readable topLevel depth closer →
    (Rule.atRule r).ReadAs (.atRule s) → inner r → inner s

section

variable {entries : List AtRulePolicy} {inner : AtRulePolicy → AtRule → Prop} {topLevel : Bool}
  {depth : Nat} {closer : Option TokenKind}

/-- So is any rule, if what is allowed of at-rules stays when they are read again. -/
theorem allowsRule_of_readAs (hinner : ∀ entry, Stable (inner entry)) {r s : Rule}
    (h : p.AllowsRule entries inner r) (hr : r.Readable topLevel depth closer)
    (hs : s.Readable topLevel depth closer) (hread : r.ReadAs s) : p.AllowsRule entries inner s := by
  cases r with
  | atRule r =>
    cases s with
    | atRule s =>
      obtain ⟨entry, hentry, hallowed⟩ := h
      have hname : s.name = r.name := Option.some.inj hread.name
      exact ⟨entry, by rwa [hname], hinner entry hr hs hread hallowed⟩
    | qualified s => cases hread.name
  | qualified r =>
    cases s with
    | atRule s => cases hread.name
    | qualified s => exact ⟨h.1, allowsStyleRule_of_readAs h.2 hr hs hread⟩

/-- A rule is placed as before when it is read again. -/
theorem indexOf?_of_readAs {r s : Rule} (h : r.ReadAs s) :
    p.indexOf? entries s = p.indexOf? entries r := by
  cases r with
  | atRule r =>
    cases s with
    | atRule s =>
      have hname : s.name = r.name := Option.some.inj h.name
      rw [indexOf?, indexOf?, hname]
    | qualified s => cases h.name
  | qualified r =>
    cases s with
    | atRule s => cases h.name
    | qualified s => rfl

/-- Rules keep their places when they are read again. -/
theorem map_indexOf?_of_readAs {rs ss : List Rule} (h : List.Forall₂ Rule.ReadAs rs ss) :
    ss.map (p.indexOf? entries) = rs.map (p.indexOf? entries) := by
  induction h with
  | nil => rfl
  | cons hread _ ih => rw [List.map_cons, List.map_cons, ih, indexOf?_of_readAs hread]

/-- A list of rules that a policy allows is allowed as its rules are read again, since their places
stay. -/
theorem allowsRules_of_readAs (hinner : ∀ entry, Stable (inner entry)) {rs ss : List Rule}
    (hrs : ∀ r ∈ rs, r.Readable topLevel depth closer)
    (hss : ∀ s ∈ ss, s.Readable topLevel depth closer) (hread : List.Forall₂ Rule.ReadAs rs ss)
    (h : p.AllowsRules entries inner rs) : p.AllowsRules entries inner ss where
  allowed := forall_of_forall₂ hread
    (fun r hr s hs hread h => allowsRule_of_readAs hinner h (hrs r hr) (hss s hs) hread) h.allowed
  ordered := by
    have hordered := List.pairwise_map.2 h.ordered
    rw [← map_indexOf?_of_readAs hread] at hordered
    exact List.pairwise_map.1 hordered

end

/-- What an entry allows stays when it is read again, if what it allows of nested rules does. -/
theorem stable_allowsUnder {nested : List Rule → Prop} (hnested : Nested nested)
    (entry : AtRulePolicy) : Stable (p.AllowsUnder nested entry) := by
  intro topLevel depth closer r s hr hs hread h
  obtain ⟨hprelude, hblock⟩ := h
  refine ⟨ValuePolicy.permits_of_readAgain hread.prelude hprelude, ?_⟩
  cases hrblock : r.block with
  | none =>
    have hsblock : s.block = none := hread.noBlock hrblock
    rw [hrblock] at hblock
    rw [hsblock]
    exact hblock
  | some b =>
    obtain ⟨c, hsblock, hcontents⟩ := hread.block b hrblock
    have hblocks := rereadable_of_readable hr hs hrblock hsblock hcontents
    have hsblock : s.block = some c := hsblock
    rw [hrblock] at hblock
    rw [hsblock]
    cases hentry : entry.block with
    | none =>
      rw [hentry] at hblock
      cases hblock
    | declarations | optional =>
      rw [hentry] at hblock
      exact allowsDeclarations_of_rereadable hblock hblocks
    | rules =>
      -- the rules in the block are read again one by one, one group further in
      rw [hentry] at hblock
      obtain ⟨herrors, hallowed⟩ := hblock
      rw [Block.readRules hblocks.regular] at herrors hallowed
      obtain ⟨ss, hss, hsame⟩ := (Rule.laid_of_errors_eq_nil herrors).readAgain hblocks.contents.dropWhile
      have hback := hss.ofValues
      refine ⟨by rw [Block.readRules hblocks.regular', hback], ?_⟩
      rw [Block.readRules hblocks.regular', hback]
      have hreadable {r : Rule} {b : Block} (hr : r.Readable topLevel depth closer)
          (hb : r.block? = some b) : ∀ s ∈ (Rule.ofValues false b.contents).1,
            s.Readable false (depth + 1) (some .rightBrace) :=
        Rule.readable_ofValues (by simp) (hr.block hb).2.2
      have hss := hreadable hs hsblock
      rw [hback] at hss
      exact hnested (hreadable hr hrblock) hss hsame hallowed

/-- What a policy allows of a list of nested rules stays when they are read again, if what it allows
of each does. -/
theorem nested_allowsRules {entries : List AtRulePolicy} {inner : AtRulePolicy → AtRule → Prop}
    (hinner : ∀ entry, Stable (inner entry)) : Nested (p.AllowsRules entries inner) :=
  fun hrs hss hread h => allowsRules_of_readAs hinner hrs hss hread h

/-- What an entry allows of an at-rule stays when it is read again, however many levels of rules are
in it. -/
theorem stable_allowsAtRule (levels : Nat) (entry : AtRulePolicy) :
    Stable (p.AllowsAtRule levels entry) := by
  induction levels generalizing entry with
  | zero => exact stable_allowsUnder (nested_allowsRules fun _ _ _ _ _ _ _ _ _ h => h.elim) entry
  | succ levels ih => exact stable_allowsUnder (nested_allowsRules ih) entry

/-- **An allowed stylesheet is read as an allowed stylesheet.** -/
theorem allowsSheet_of_readAs {rs ss : List Rule} (h : p.AllowsSheet rs)
    (hrs : ∀ r ∈ rs, r.Readable true 0 none) (hss : ∀ s ∈ ss, s.Readable true 0 none)
    (hread : List.Forall₂ Rule.ReadAs rs ss) : p.AllowsSheet ss :=
  allowsRules_of_readAs (stable_allowsAtRule maxGroupRuleDepth) hrs hss hread h

end Policy

end StyleGate
