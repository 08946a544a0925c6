import StyleGate.Proofs.Grouping
import StyleGate.Gate.Value

/-!
# The grammar of accepted values

`ValuePolicy.Permits` says which values a policy allows, without regard to how they are searched for
faults. The search finds no fault exactly in those of these values in which no group lies too deep
(`ValuePolicy.faults_eq_nil_iff`); as no group does in values that are read from tokens, the gate accepts
exactly the values of the grammar (`ValuePolicy.listFaults_eq_nil_iff_permits`).
-/

namespace StyleGate

open Text

/-- Kinds of tokens that no value may hold, wherever they stand. -/
def TokenKind.isForbidden : TokenKind → Bool
  | .badString | .badUrl | .atKeyword | .cdo | .cdc | .semicolon | .leftBrace | .rightBrace
  | .rightParen | .rightBracket => true
  | _ => false

/-- One string and nothing else but whitespace. -/
def ComponentValue.IsQuotedUrl (contents : List ComponentValue) : Prop :=
  ∃ before url after, contents = before ++ .token url :: after ∧ url.kind = .string ∧
    ∀ v ∈ before ++ after, v.isWhitespace = true

namespace ComponentValue

/-- A quoted url holds strings and whitespace only. -/
theorem IsQuotedUrl.plain {contents : List ComponentValue} (h : IsQuotedUrl contents) :
    ∀ v ∈ contents, ∃ t, v = token t ∧ (t.kind = .string ∨ t.kind = .whitespace) := by
  obtain ⟨before, url, after, rfl, hurl, hspace⟩ := h
  intro v hv
  have hv : v = token url ∨ v.isWhitespace = true := by
    rcases List.mem_append.1 hv with hv | hv
    · exact .inr (hspace v (List.mem_append_left _ hv))
    · exact (List.mem_cons.1 hv).imp_right fun hv => hspace v (List.mem_append_right _ hv)
  rcases hv with rfl | hv
  · exact ⟨url, rfl, .inl hurl⟩
  · obtain ⟨t, rfl, ht⟩ := isWhitespace_iff.1 hv
    exact ⟨t, rfl, .inr ht⟩

mutual

/-- How many groups lie in each other in a value, where the function `url` counts as a token. -/
def searchDepth : ComponentValue → Nat
  | token _ => 0
  | block _ contents => searchDepthAll contents + 1
  | function name contents =>
    if sameFolded name.value "url" then 0 else searchDepthAll contents + 1

/-- How many groups lie in each other in the values of a list, but for the function `url`. -/
def searchDepthAll : List ComponentValue → Nat
  | [] => 0
  | v :: rest => max v.searchDepth (searchDepthAll rest)

end

/-- A list is searched as deep as its members are. -/
theorem searchDepthAll_le_iff {vs : List ComponentValue} {n : Nat} :
    searchDepthAll vs ≤ n ↔ ∀ v ∈ vs, v.searchDepth ≤ n := by
  induction vs with
  | nil => simp [searchDepthAll]
  | cons v vs ih => rw [searchDepthAll, Nat.max_le, ih, List.forall_mem_cons]

/-- No group in a regular value lies too deep. -/
theorem Regular.searchDepth_le {depth : Nat} {closer : Option TokenKind} {v : ComponentValue}
    (h : v.Regular depth closer) : v.searchDepth ≤ maxGroupDepth - depth := by
  induction h with
  | token _ _ => exact Nat.zero_le _
  | block _ hdepth _ ih =>
    have hcontents := searchDepthAll_le_iff.2 ih
    rw [searchDepth]
    omega
  | function _ hdepth _ ih =>
    have hcontents := searchDepthAll_le_iff.2 ih
    rw [searchDepth]
    split <;> omega

end ComponentValue

namespace ValuePolicy

/-- The values that a policy allows: tokens of harmless kinds, bracketed groups and listed functions
of such values, and urls where they are allowed. -/
inductive Permits (p : ValuePolicy) : ComponentValue → Prop
  | token {t : Token} : t.kind.isForbidden = false → (t.kind = .url → p.allowUrls = true) →
      Permits p (.token t)
  | block {opener : Token} {contents : List ComponentValue} :
      opener.kind = .leftBracket ∨ opener.kind = .leftParen → (∀ v ∈ contents, Permits p v) →
      Permits p (.block opener contents)
  | url {name : Token} {contents : List ComponentValue} :
      sameFolded name.value "url" = true → p.allowUrls = true →
      ComponentValue.IsQuotedUrl contents → Permits p (.function name contents)
  | function {name : Token} {contents : List ComponentValue} :
      sameFolded name.value "url" = false → containsFolded p.functions name.value = true →
      (∀ v ∈ contents, Permits p v) → Permits p (.function name contents)

section Permits

variable {p : ValuePolicy} {contents : List ComponentValue}

/-- What a policy permits of plain tokens: those of a kind that is not forbidden, and urls where
these are allowed. -/
theorem permits_token_iff {t : Token} :
    p.Permits (.token t) ↔
      t.kind.isForbidden = false ∧ (t.kind = .url → p.allowUrls = true) := by
  constructor
  · intro h
    cases h with
    | token hkind hurl => exact ⟨hkind, hurl⟩
  · rintro ⟨hkind, hurl⟩
    exact .token hkind hurl

/-- What it permits of blocks: those in brackets or parentheses, with permitted values. -/
theorem permits_block_iff {opener : Token} :
    p.Permits (.block opener contents) ↔
      (opener.kind = .leftBracket ∨ opener.kind = .leftParen) ∧ ∀ v ∈ contents, p.Permits v := by
  constructor
  · intro h
    cases h with
    | block hopener hcontents => exact ⟨hopener, hcontents⟩
  · rintro ⟨hopener, hcontents⟩
    exact .block hopener hcontents

/-- What it permits of urls: those that hold one string, where urls are allowed. -/
theorem permits_url_iff {name : Token} (h : sameFolded name.value "url" = true) :
    p.Permits (.function name contents) ↔
      p.allowUrls = true ∧ ComponentValue.IsQuotedUrl contents := by
  constructor
  · intro hpermits
    cases hpermits with
    | url _ hallow hcontents => exact ⟨hallow, hcontents⟩
    | function hother => rw [h] at hother; cases hother
  · rintro ⟨hallow, hcontents⟩
    exact .url h hallow hcontents

/-- What it permits of other functions: those that are listed, with permitted values. -/
theorem permits_function_iff {name : Token} (h : sameFolded name.value "url" = false) :
    p.Permits (.function name contents) ↔
      containsFolded p.functions name.value = true ∧ ∀ v ∈ contents, p.Permits v := by
  constructor
  · intro hpermits
    cases hpermits with
    | url hurl => rw [h] at hurl; cases hurl
    | function _ hlisted hcontents => exact ⟨hlisted, hcontents⟩
  · rintro ⟨hlisted, hcontents⟩
    exact .function h hlisted hcontents

end Permits

/-- The contents of `url` are one string if that is what is left without whitespace. -/
theorem isUrlContent_iff {contents : List ComponentValue} :
    isUrlContent contents = true ↔ ComponentValue.IsQuotedUrl contents := by
  unfold isUrlContent
  constructor
  · intro h
    split at h
    · next v hfilter =>
      obtain ⟨before, after, rfl, hbefore, hv, hafter⟩ := List.filter_eq_cons_iff.1 hfilter
      obtain ⟨url, rfl, hurl⟩ := ComponentValue.isToken_iff.1 h
      refine ⟨before, url, after, rfl, hurl, fun w hw => ?_⟩
      rcases List.mem_append.1 hw with hw | hw
      · simpa using hbefore w hw
      · simpa using List.filter_eq_nil_iff.1 hafter w hw
    · cases h
  · rintro ⟨before, url, after, rfl, hurl, hspace⟩
    have hbefore : before.filter (!·.isWhitespace) = [] :=
      List.filter_eq_nil_iff.2 fun w hw => by simp [hspace w (List.mem_append_left _ hw)]
    have hafter : after.filter (!·.isWhitespace) = [] :=
      List.filter_eq_nil_iff.2 fun w hw => by simp [hspace w (List.mem_append_right _ hw)]
    have hkept : (!(ComponentValue.token url).isWhitespace) = true := by
      simp [ComponentValue.isWhitespace, ComponentValue.isToken, hurl]
    simp [List.filter_append, hbefore, hafter, hkept, ComponentValue.isToken, hurl]

/-- A token has no fault exactly if it is permitted. -/
theorem tokenFaults_eq_nil_iff {p : ValuePolicy} {t : Token} :
    p.tokenFaults t = [] ↔
      t.kind.isForbidden = false ∧ (t.kind = .url → p.allowUrls = true) := by
  cases h : t.kind <;> simp [tokenFaults, h, TokenKind.isForbidden]

/-- All values of a list are without faults if all of them are permitted and no group in them lies too
deep. -/
theorem faultsAll_eq_nil_iff_of {p : ValuePolicy} {depth n : Nat} {vs : List ComponentValue}
    (h : ∀ v ∈ vs, (p.faults depth v = [] ↔ p.Permits v ∧ v.searchDepth ≤ n)) :
    p.faultsAll depth vs = [] ↔
      (∀ v ∈ vs, p.Permits v) ∧ ComponentValue.searchDepthAll vs ≤ n := by
  rw [faultsAll_eq_flatMap, List.flatMap_eq_nil_iff, ComponentValue.searchDepthAll_le_iff]
  constructor
  · intro hvs
    exact ⟨fun v hv => ((h v hv).1 (hvs v hv)).1, fun v hv => ((h v hv).1 (hvs v hv)).2⟩
  · rintro ⟨hpermits, hdepth⟩ v hv
    exact (h v hv).2 ⟨hpermits v hv, hdepth v hv⟩

/-- So it is with a url. -/
theorem urlFaults_eq_nil_iff {p : ValuePolicy} {name : Token} {contents : List ComponentValue} :
    p.urlFaults name contents = [] ↔
      p.allowUrls = true ∧ ComponentValue.IsQuotedUrl contents := by
  rw [← isUrlContent_iff]
  cases hallow : p.allowUrls <;> cases hcontent : isUrlContent contents <;>
    simp [urlFaults, hallow, hcontent]

/-- A group is without faults if the values in it are, and if it does not lie too deep itself. -/
theorem groupFaults_eq_nil_iff {p : ValuePolicy} {depth : Nat} {fault : Diagnostic}
    {vs : List ComponentValue}
    (h : ∀ v ∈ vs, (p.faults (depth + 1) v = [] ↔
      p.Permits v ∧ v.searchDepth ≤ maxGroupDepth - (depth + 1))) :
    (if maxGroupDepth ≤ depth then [fault] else p.faultsAll (depth + 1) vs) = [] ↔
      (∀ v ∈ vs, p.Permits v) ∧ ComponentValue.searchDepthAll vs + 1 ≤ maxGroupDepth - depth := by
  split
  · next hdeep =>
    refine ⟨fun h => absurd h (List.cons_ne_nil _ _), ?_⟩
    rintro ⟨-, hdepth⟩
    omega
  · next hdeep =>
    rw [faultsAll_eq_nil_iff_of h]
    refine and_congr_right fun _ => ?_
    omega

/-- A value has no fault if and only if it is permitted and no group in it lies too deep. -/
theorem faults_eq_nil_iff {p : ValuePolicy} {depth : Nat} {v : ComponentValue} (h : v.Formed) :
    p.faults depth v = [] ↔ p.Permits v ∧ v.searchDepth ≤ maxGroupDepth - depth := by
  -- the depth grows with every group, so the statement is for every depth at once
  induction h generalizing depth with
  | token =>
    rw [faults, tokenFaults_eq_nil_iff, permits_token_iff, ComponentValue.searchDepth,
      and_iff_left (Nat.zero_le _)]
  | @block opener contents hopener _ ih =>
    rw [faults, ComponentValue.searchDepth, permits_block_iff]
    split
    · next hbrace => simp [hbrace]
    · next hbrace =>
      have hkind : opener.kind = .leftBracket ∨ opener.kind = .leftParen := by
        cases hk : opener.kind <;> simp_all [TokenKind.bracketCloser?]
      rw [groupFaults_eq_nil_iff fun v hv => ih v hv, and_iff_right hkind]
  | @function name contents _ _ ih =>
    rw [faults, ComponentValue.searchDepth]
    split
    · -- the function `url` is searched as one token, so nothing in it counts as a group
      next hname =>
      rw [urlFaults_eq_nil_iff, permits_url_iff hname, and_iff_left (Nat.zero_le _)]
    · next hname =>
      rw [permits_function_iff (Bool.eq_false_iff.2 hname)]
      split
      · next hunlisted => simp_all
      · next hlisted =>
        have hlisted : containsFolded p.functions name.value = true := by simpa using hlisted
        rw [groupFaults_eq_nil_iff fun v hv => ih v hv, and_iff_right hlisted]

/-- **The gate accepts the grammar.** Values that are read from tokens have no fault if and only if
all of them are permitted. -/
theorem listFaults_eq_nil_iff_permits {p : ValuePolicy} {vs : List ComponentValue}
    (h : ∀ v ∈ vs, v.Regular 0 none) : p.listFaults vs = [] ↔ ∀ v ∈ vs, p.Permits v := by
  rw [listFaults, faultsAll_eq_flatMap, List.flatMap_eq_nil_iff]
  refine forall₂_congr fun v hv => ?_
  rw [faults_eq_nil_iff (h v hv).formed, and_iff_left (h v hv).searchDepth_le]

end ValuePolicy

end StyleGate
