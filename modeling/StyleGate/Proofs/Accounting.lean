import Mathlib.Algebra.GroupWithZero.Nat
import StyleGate.Report

/-!
# Reports account for every diagnostic

The diagnostics of a stylesheet are grouped three times: each list is counted by code, the two counts
are added up, and for every line of the summary the diagnostics of its code are looked up. All three
agree with the diagnostics themselves (`ScanReport.accounts_ofSheet`): no code is lost and none is
counted twice, whichever codes the two lists have in common.

`Report.Tallies` is what counts have to say of a list of diagnostics. It holds of counted diagnostics
and of counts that were added up, because of what one addition does to the codes, to the count of any
code and to the sum of all counts.
-/

namespace StyleGate

namespace Report

/-! ## One addition -/

/-- What counts say of a code. -/
def countOf (counts : List (String × Nat)) (code : String) : Nat :=
  ((counts.filter fun e => e.1 == code).map Prod.snd).sum

section Addition

variable (code : String) (n : Nat) (counts more : List (String × Nat))

/-- The first entry adds its number to the count of its own code alone. -/
theorem countOf_cons (e : String × Nat) :
    countOf (e :: counts) code = (if e.1 = code then e.2 else 0) + countOf counts code := by
  by_cases h : e.1 = code <;> simp [countOf, h]

/-- After an addition there is an entry for its code, and for those that had one. -/
theorem mem_codes_addCount (c : String) :
    c ∈ (addCount code n counts).map Prod.fst ↔ c = code ∨ c ∈ counts.map Prod.fst := by
  fun_induction addCount code n counts with
  | case1 => simp
  | case2 => simp
  | case3 m rest hlt => simp
  | case4 c' m rest hlt hne ih =>
    rw [List.map_cons, List.mem_cons, ih, List.map_cons, List.mem_cons]
    exact or_left_comm

/-- Codes stay in ascending order. -/
theorem ascending_addCount (h : (counts.map Prod.fst).Pairwise (· < ·)) :
    ((addCount code n counts).map Prod.fst).Pairwise (· < ·) := by
  fun_induction addCount code n counts with
  | case1 => simp
  | case2 c m rest hlt =>
    refine List.Pairwise.cons (fun c' hc' => ?_) h
    rcases List.mem_cons.1 hc' with rfl | hc'
    · exact hlt
    · exact String.lt_trans hlt ((List.pairwise_cons.1 h).1 c' hc')
  | case3 m rest hlt => exact h
  | case4 c m rest hlt hne ih =>
    obtain ⟨hfirst, hrest⟩ := List.pairwise_cons.1 h
    refine List.Pairwise.cons (fun c' hc' => ?_) (ih hrest)
    rcases (mem_codes_addCount code n rest c').1 hc' with rfl | hc'
    · exact Std.lt_of_le_of_ne hlt (Ne.symm hne)
    · exact hfirst c' hc'

/-- An addition raises the count of its own code alone. -/
theorem countOf_addCount (c : String) :
    countOf (addCount code n counts) c = countOf counts c + if code = c then n else 0 := by
  fun_induction addCount code n counts with
  | case1 => rw [countOf_cons, Nat.add_comm]
  | case2 => rw [countOf_cons, Nat.add_comm]
  | case3 m rest hlt =>
    rw [countOf_cons, countOf_cons]
    split <;> omega
  | case4 c' m rest hlt hne ih =>
    rw [countOf_cons, countOf_cons, ih]
    omega

/-- An addition raises the sum of all counts by as much. -/
theorem sum_addCount :
    ((addCount code n counts).map Prod.snd).sum = (counts.map Prod.snd).sum + n := by
  fun_induction addCount code n counts with
  | case1 | case2 => simp [Nat.add_comm]
  | case3 => simp; omega
  | case4 _ _ _ _ _ ih => simp [ih]; omega

/-! ## Counts added up -/

/-- Two counts, added up, have entries for the codes of both. -/
theorem mem_codes_addCounts (c : String) :
    c ∈ (addCounts counts more).map Prod.fst ↔ c ∈ counts.map Prod.fst ∨ c ∈ more.map Prod.fst := by
  induction more generalizing counts with
  | nil => simp [addCounts]
  | cons e rest ih =>
    rw [addCounts, List.foldl_cons, ← addCounts, ih, mem_codes_addCount, List.map_cons, List.mem_cons,
      or_assoc]
    exact or_left_comm

/-- Adding to a count keeps its codes in ascending order, so that there is one entry for each. -/
theorem ascending_addCounts (h : (counts.map Prod.fst).Pairwise (· < ·)) :
    ((addCounts counts more).map Prod.fst).Pairwise (· < ·) := by
  induction more generalizing counts with
  | nil => exact h
  | cons e rest ih => exact ih _ (ascending_addCount e.1 e.2 counts h)

/-- The count of a code in the two together is the sum of its counts. -/
theorem countOf_addCounts (c : String) :
    countOf (addCounts counts more) c = countOf counts c + countOf more c := by
  induction more generalizing counts with
  | nil => rfl
  | cons e rest ih =>
    rw [addCounts, List.foldl_cons, ← addCounts, ih, countOf_addCount, countOf_cons, Nat.add_assoc]

/-- The sum of all counts in the two together is the sum of their sums. -/
theorem sum_addCounts :
    ((addCounts counts more).map Prod.snd).sum =
      (counts.map Prod.snd).sum + (more.map Prod.snd).sum := by
  induction more generalizing counts with
  | nil => rfl
  | cons e rest ih =>
    rw [addCounts, List.foldl_cons, ← addCounts, ih, sum_addCount, List.map_cons, List.sum_cons,
      Nat.add_assoc]

/-- Counting diagnostics adds one for each of them. -/
theorem countByCode_eq (ds : List Diagnostic) :
    countByCode ds = addCounts [] (ds.map fun d => (d.code, 1)) := by
  rw [addCounts, List.foldl_map]
  rfl

/-- What counts in ascending order say of a code is its only entry. -/
theorem eq_countOf_of_mem (hascending : (counts.map Prod.fst).Pairwise (· < ·)) {e : String × Nat}
    (he : e ∈ counts) : e.2 = countOf counts e.1 := by
  induction counts with
  | nil => cases he
  | cons e' rest ih =>
    obtain ⟨hfirst, hrest⟩ := List.pairwise_cons.1 hascending
    rw [countOf_cons]
    rcases List.mem_cons.1 he with rfl | he
    · -- No later entry has this code, since all of them are above it.
      have hnone : rest.filter (fun e' => e'.1 == e.1) = [] := by
        refine List.filter_eq_nil_iff.2 fun e' he' heq => ?_
        have hlt := hfirst e'.1 (List.mem_map_of_mem he')
        rw [beq_iff_eq.1 heq] at hlt
        exact String.lt_irrefl _ hlt
      simp [countOf, hnone]
    · have hne : e'.1 ≠ e.1 := fun heq => by
        have hlt := hfirst e.1 (List.mem_map_of_mem he)
        rw [heq] at hlt
        exact String.lt_irrefl _ hlt
      rw [if_neg hne, Nat.zero_add]
      exact ih hrest he

end Addition

/-! ## What counts say of diagnostics -/

/-- What counts have to say of diagnostics: how many there are of each code that occurs, each code once
and in ascending order. -/
structure Tallies (ds : List Diagnostic) (counts : List (String × Nat)) : Prop where
  ascending : (counts.map Prod.fst).Pairwise (· < ·)
  occurs : ∀ code, code ∈ counts.map Prod.fst ↔ ∃ d ∈ ds, d.code = code
  count : ∀ e ∈ counts, e.2 = ds.countP fun d => d.code == e.1
  sum : (counts.map Prod.snd).sum = ds.length

/-- Where each diagnostic has an entry of its own, the count of a code is how many have that code. -/
theorem countOf_ones (ds : List Diagnostic) (code : String) :
    countOf (ds.map fun d => (d.code, 1)) code = ds.countP fun d => d.code == code := by
  induction ds with
  | nil => rfl
  | cons d rest ih =>
    rw [List.map_cons, countOf_cons, ih, List.countP_cons, Nat.add_comm]
    simp

/-- So it is when the entries of one code are merged. -/
theorem countOf_countByCode (ds : List Diagnostic) (code : String) :
    countOf (countByCode ds) code = ds.countP fun d => d.code == code := by
  rw [countByCode_eq, countOf_addCounts, countOf_ones]
  exact Nat.zero_add _

/-- The codes of a count come in ascending order. -/
theorem ascending_countByCode (ds : List Diagnostic) :
    ((countByCode ds).map Prod.fst).Pairwise (· < ·) := by
  rw [countByCode_eq]
  exact ascending_addCounts [] _ .nil

/-- There is an entry for just those codes that some diagnostic has. -/
theorem mem_codes_countByCode {ds : List Diagnostic} {code : String} :
    code ∈ (countByCode ds).map Prod.fst ↔ ∃ d ∈ ds, d.code = code := by
  rw [countByCode_eq, mem_codes_addCounts]
  simp

/-- All counts together make up the number of diagnostics. -/
theorem sum_countByCode (ds : List Diagnostic) :
    ((countByCode ds).map Prod.snd).sum = ds.length := by
  rw [countByCode_eq, sum_addCounts]
  induction ds with
  | nil => rfl
  | cons d rest ih =>
    rw [List.length_cons, ← ih]
    simp [Nat.add_comm]

/-- Counts of one list of diagnostics with those of another one added to them are counts of both. -/
theorem tallies_addCounts (ds more : List Diagnostic) :
    Tallies (ds ++ more) (addCounts (countByCode ds) (countByCode more)) := by
  have hascending := ascending_addCounts _ (countByCode more) (ascending_countByCode ds)
  refine ⟨hascending, fun code => ?_, fun e he => ?_, ?_⟩
  · rw [mem_codes_addCounts, mem_codes_countByCode, mem_codes_countByCode]
    simp [or_and_right, exists_or]
  · rw [eq_countOf_of_mem _ hascending he, countOf_addCounts, countOf_countByCode,
      countOf_countByCode, List.countP_append]
  · rw [sum_addCounts, sum_countByCode, sum_countByCode, List.length_append]

/-! ## Sections of the summary -/

/-- Diagnostics grouped by code: each code that occurs, once and in ascending order, with the positions
of its diagnostics in the order of recording. -/
structure Groups (ds : List Diagnostic) (groups : List (String × List Position)) : Prop where
  ascending : (groups.map Prod.fst).Pairwise (· < ·)
  occurs : ∀ code, code ∈ groups.map Prod.fst ↔ ∃ d ∈ ds, d.code = code
  positions : ∀ g ∈ groups, g.2 = (ds.filter fun d => d.code == g.1).map Diagnostic.position

/-- The groups that the lines of a section are about. -/
def groupsOf (ds : List Diagnostic) : List (String × List Position) :=
  (countByCode ds).map fun e => (e.1, (ofCode e.1 ds).map Diagnostic.position)

/-- The lines of a section are about one group for each code that occurs. -/
theorem groups_groupsOf (ds : List Diagnostic) : Groups ds (groupsOf ds) := by
  have hcodes : (groupsOf ds).map Prod.fst = (countByCode ds).map Prod.fst := by
    rw [groupsOf, List.map_map]
    rfl
  refine ⟨hcodes ▸ ascending_countByCode ds, fun code => hcodes ▸ mem_codes_countByCode, ?_⟩
  intro g hg
  obtain ⟨e, -, rfl⟩ := List.mem_map.1 hg
  rfl

/-- The line of a group: its code, the number of its positions, and these positions. -/
def groupLine (g : String × List Position) : String :=
  "  " ++ g.1 ++ " (" ++ toString g.2.length ++ ") at " ++
    String.intercalate ", " (g.2.map Position.label)

/-- The lines of a section: its title and a line for each group, unless there are none. -/
def sectionLines (title : String) (groups : List (String × List Position)) : List String :=
  if groups.isEmpty then [] else title :: groups.map groupLine

/-- A text of lines. -/
def ofLines (lines : List String) : String := String.join (lines.map (· ++ "\n"))

/-- Lines after lines make a text after a text. -/
theorem ofLines_append (lines more : List String) :
    ofLines (lines ++ more) = ofLines lines ++ ofLines more := by
  rw [ofLines, List.map_append, String.join_append]
  rfl

/-- Without colours, painting leaves a text as it is. -/
theorem paint_plain (theme : Theme) (part : ThemePart) (text : String) :
    theme.paint false part text = text := by
  unfold Theme.paint
  split <;> rfl

/-- The count that a line gives is the number of the positions on it. -/
theorem codeLine_plain (theme : Theme) {ds : List Diagnostic} {e : String × Nat}
    (he : e ∈ countByCode ds) :
    codeLine theme false ds e.1 e.2 =
      groupLine (e.1, (ofCode e.1 ds).map Diagnostic.position) ++ "\n" := by
  have hcount : e.2 = ((ofCode e.1 ds).map Diagnostic.position).length := by
    rw [eq_countOf_of_mem _ (ascending_countByCode ds) he, countOf_countByCode, List.length_map,
      ofCode, List.countP_eq_length_filter]
  rw [codeLine, groupLine, paint_plain, paint_plain, paint_plain, ← hcount, List.map_map]
  rfl

/-- Without colours a section has a line for each code that occurs. -/
theorem sectionText_plain (theme : Theme) (title : String) (ds : List Diagnostic) :
    sectionText theme false title ds = ofLines (sectionLines title (groupsOf ds)) := by
  cases ds with
  | nil => rfl
  | cons d rest =>
    have hoccurs := (groups_groupsOf (d :: rest)).occurs d.code
    have hne : groupsOf (d :: rest) ≠ [] := fun hnil => by
      rw [hnil] at hoccurs
      exact absurd (hoccurs.2 ⟨d, .head _, rfl⟩) List.not_mem_nil
    have hlines : (countByCode (d :: rest)).map (fun e => codeLine theme false (d :: rest) e.1 e.2) =
        ((groupsOf (d :: rest)).map groupLine).map (· ++ "\n") := by
      rw [groupsOf, List.map_map, List.map_map]
      exact List.map_congr_left fun e he => codeLine_plain theme he
    rw [sectionText, if_neg (by simp), paint_plain, sectionLines, if_neg (by simpa using hne), ofLines,
      List.map_cons, String.join_cons, ← hlines]

/-- Without colours the summary of diagnostics has their sections, and their number. -/
theorem summary_plain (theme : Theme) {sheet : CleanSheet} (h : sheet.isClean = false) :
    summary theme false sheet =
      ofLines (sectionLines "Parse errors:" (groupsOf sheet.parseErrors) ++
        sectionLines "Sanitization errors:" (groupsOf sheet.sanitizationErrors) ++
        [toString sheet.count ++ " diagnostic(s) in total."]) := by
  rw [summary, if_neg (by simp [h]), sectionText_plain, sectionText_plain, ofLines_append,
    ofLines_append]
  simp [ofLines, String.append_assoc]

/-! ## Lines -/

/-- A digit does not end a line. -/
theorem not_newline_of_isDigit {c : Char} (h : c.isDigit = true) : c ≠ '\n' := by
  rintro rfl
  exact absurd h (by decide)

/-- The text of a natural number is on one line. -/
theorem newline_not_mem_nat (n : Nat) : '\n' ∉ (toString n).toList := by
  rw [Nat.toString_eq_repr, Nat.toList_repr]
  exact fun h => not_newline_of_isDigit (Nat.isDigit_of_mem_toDigits (by decide) (by decide) h) rfl

/-- So is that of an integer, which may have a sign in front of it. -/
theorem newline_not_mem_int (n : Int) : '\n' ∉ (toString n).toList := by
  cases n with
  | ofNat m => exact newline_not_mem_nat m
  | negSucc m =>
    have htext : toString (Int.negSucc m) = "-" ++ toString (m + 1) := rfl
    rw [htext, String.toList_append, List.mem_append]
    exact fun h => h.elim (by decide) (newline_not_mem_nat (m + 1))

/-- So is that of a position. -/
theorem newline_not_mem_label (p : Position) : '\n' ∉ p.label.toList := by
  simp only [Position.label, String.toList_append, List.mem_append, not_or]
  exact ⟨⟨newline_not_mem_int p.line, by decide⟩, newline_not_mem_int p.column⟩

/-- The positions of a group are written on one line. -/
theorem newline_not_mem_labels (ps : List Position) :
    '\n' ∉ (String.intercalate ", " (ps.map Position.label)).toList := by
  induction ps with
  | nil => simp
  | cons p rest ih =>
    cases rest with
    | nil => simpa using newline_not_mem_label p
    | cons q rest =>
      rw [List.map_cons, List.map_cons, String.intercalate_cons_cons, String.toList_append,
        String.toList_append, List.mem_append, List.mem_append, not_or, not_or]
      exact ⟨⟨newline_not_mem_label p, by decide⟩, ih⟩

/-- The line of a group is a single one, unless its code is written on several. -/
theorem newline_mem_groupLine (g : String × List Position) :
    '\n' ∈ (groupLine g).toList ↔ '\n' ∈ g.1.toList := by
  have hcount := newline_not_mem_nat g.2.length
  have hlabels := newline_not_mem_labels g.2
  simp only [groupLine, String.toList_append, List.mem_append, hcount, hlabels, or_false]
  simp

end Report

/-- **Reports account for every diagnostic once.** The total of a report is the sum of its counts and
the number of diagnostics of both lists; it counts exactly the codes that occur in either list, each
once and by the number of its diagnostics in both. If there is any diagnostic, the summary without
colours has a section for each list that is not empty: a line for each code that occurs in the list, in
ascending order of the codes, with the number of the positions that follow, and with the positions of
exactly the diagnostics of that code in the order of recording. Such a line holds no line break but
those of its code. -/
theorem ScanReport.accounts_ofSheet (sheet : CleanSheet) :
    let r := ofSheet sheet
    r.total = (r.counts.map Prod.snd).sum ∧
      r.total = sheet.parseErrors.length + sheet.sanitizationErrors.length ∧
      Report.Tallies (sheet.parseErrors ++ sheet.sanitizationErrors) r.counts ∧
      (sheet.isClean = false → ∀ theme, ∃ parsing gate,
        Report.Groups sheet.parseErrors parsing ∧ Report.Groups sheet.sanitizationErrors gate ∧
        (∀ g ∈ parsing ++ gate, '\n' ∈ (Report.groupLine g).toList ↔ '\n' ∈ g.1.toList) ∧
        Report.summary theme false sheet =
          Report.ofLines (Report.sectionLines "Parse errors:" parsing ++
            Report.sectionLines "Sanitization errors:" gate ++
            [toString r.total ++ " diagnostic(s) in total."])) := by
  intro r
  have htallies := Report.tallies_addCounts sheet.parseErrors sheet.sanitizationErrors
  refine ⟨?_, rfl, htallies, fun hdirty theme => ?_⟩
  · exact (htallies.sum.trans List.length_append).symm
  · exact ⟨_, _, Report.groups_groupsOf _, Report.groups_groupsOf _,
      fun g _ => Report.newline_mem_groupLine g, Report.summary_plain theme hdirty⟩

/-- A code that both lists have in common, and one that occurs twice. -/
theorem ScanReport.accounts_ofSheet_colon :
    let sheet : CleanSheet :=
      { css := "", parseErrors := [⟨"expected-colon", ⟨1, 5⟩⟩]
        sanitizationErrors :=
          [⟨"misordered-rule", ⟨2, 1⟩⟩, ⟨"expected-colon", ⟨2, 5⟩⟩, ⟨"misordered-rule", ⟨3, 1⟩⟩] }
    sheet.isClean = false ∧ (ofSheet sheet).total = 4 ∧
      Report.Tallies (sheet.parseErrors ++ sheet.sanitizationErrors) (ofSheet sheet).counts ∧
      (ofSheet sheet).counts = [("expected-colon", 2), ("misordered-rule", 2)] ∧
      ∃ parsing gate,
        Report.Groups sheet.parseErrors parsing ∧ Report.Groups sheet.sanitizationErrors gate ∧
        Report.summary Theme.standard false sheet =
          Report.ofLines (Report.sectionLines "Parse errors:" parsing ++
            Report.sectionLines "Sanitization errors:" gate ++
            [toString (ofSheet sheet).total ++ " diagnostic(s) in total."]) ∧
        Report.summary Theme.standard false sheet =
          "Parse errors:\n  expected-colon (1) at 1:5\n" ++
          "Sanitization errors:\n  expected-colon (1) at 2:5\n  misordered-rule (2) at 2:1, 3:1\n" ++
          "4 diagnostic(s) in total.\n" := by
  intro sheet
  have hdirty : sheet.isClean = false := rfl
  obtain ⟨-, -, htallies, hsummary⟩ := accounts_ofSheet sheet
  obtain ⟨parsing, gate, hparsing, hgate, -, htext⟩ := hsummary hdirty Theme.standard
  exact ⟨hdirty, rfl, htallies, by decide +kernel, parsing, gate, hparsing, hgate, htext,
    by decide +kernel⟩

end StyleGate
