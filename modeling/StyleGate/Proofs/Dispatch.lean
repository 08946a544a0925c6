import StyleGate.Gate.Worker
import StyleGate.Proofs.Sifting

/-!
# Handing rules out

`handOut` is specified by the fates of the rules (`Fate`): a rule is unrecognized, out of order, or
handed to one worker, which judges it. `Dispatched` says which fate each rule has, what is left and
reported of the list by these fates, and that a worker goes through exactly the rules that were handed
to it, in their order and with an empty log before each of them. What the workers do is arbitrary: it may
depend on all that they did before.

`Dispatched.next` is one step of the loop. What carries it is the meaning of the running maximum
(`Dispatched.highest_le_iff`): it is bounded by what bounds all indexes that were set.
-/

namespace StyleGate

/-- What became of a rule in a list that was handed out: no worker handles it, it is out of order, or it
went to the worker at a place, with this judgement. -/
inductive Fate where
  | unrecognized
  | misordered
  | handed (place : Nat) (judgement : Judgement Rule)

namespace Fate

variable {σ : Type}

/-- What is left of the rule, and what is reported of it. -/
def judgement (r : Rule) : Fate → Judgement Rule
  | unrecognized => .refuse Diagnostic.unrecognizedRule r.position
  | misordered => .refuse Diagnostic.misorderedRule r.position
  | handed _ j => j

/-- The worker that the rule went to. -/
def worker? (workers : List (RuleWorker σ)) : Fate → Option (RuleWorker σ)
  | handed place _ => workers[place]?
  | _ => none

/-- The worker of a fate is one of the workers. -/
theorem mem_of_worker? {workers : List (RuleWorker σ)} {f : Fate} {w : RuleWorker σ}
    (h : f.worker? workers = some w) : w ∈ workers := by
  cases f with
  | handed place j => exact List.mem_of_getElem? h
  | unrecognized | misordered => cases h

/-- The judgement, if it is that of the worker at a place. -/
def judgementAt? (place : Nat) : Fate → Option (Judgement Rule)
  | handed p j => if p = place then some j else none
  | _ => none

end Fate

section

variable {σ α : Type}

/-- The workers that rules went to, in the order of the rules. -/
def handlers (workers : List (RuleWorker σ)) (fates : List Fate) : List (RuleWorker σ) :=
  fates.filterMap (·.worker? workers)

/-- The rules that went to the worker at a place, with its judgements on them. -/
def handedTo (place : Nat) (rules : List Rule) (fates : List Fate) : List (Rule × Judgement Rule) :=
  (rules.zip fates).filterMap fun (r, f) => (f.judgementAt? place).map (r, ·)

/-- What is left of rules with these fates, each with the worker that it went to. -/
def keptBy (workers : List (RuleWorker σ)) (rules : List Rule) (fates : List Fate) :
    List (Rule × RuleWorker σ) :=
  (rules.zip fates).filterMap fun (r, f) =>
    (f.worker? workers).bind fun w => ((f.judgement r).outcome.survivor r).map (·, w)

/-- A worker in this state goes through nodes one after another, with an empty log before each: its
judgements, and its state afterwards. -/
def serve (work : Work σ α) (s : σ) : List α → List (α × Judgement α) × σ
  | [] => ([], s)
  | node :: rest =>
    let (outcome, w) := work { state := s } node
    let (judged, s) := serve work w.state rest
    ((node, ⟨outcome, w.log⟩) :: judged, s)

/-- Whether a rule had the right fate, when the rules before it went to the workers `before`. -/
structure Decided (workers before : List (RuleWorker σ)) (r : Rule) (f : Fate) : Prop where
  unrecognized : f = .unrecognized ↔ ∀ w ∈ workers, w.handles r = false
  misordered : f = .misordered ↔
    ∃ w, workers.find? (·.handles r) = some w ∧ ∃ v ∈ before, w.index.test < v.index.set
  handed : ∀ place w, workers[place]? = some w →
    ((∃ j, f = .handed place j) ↔
      workers.findIdx? (·.handles r) = some place ∧ ∀ v ∈ before, v.index.set ≤ w.index.test)

/-- That `h` is what became of handing out rules, and how: each rule had the right fate, what is left and
what is reported follows from the fates, and each worker served the rules that were handed to it. -/
structure Dispatched (work : Work σ Rule) (log : List Diagnostic) (workers : List (RuleWorker σ))
    (rules : List Rule) (fates : List Fate) (h : Handout σ) : Prop where
  length : fates.length = rules.length
  decided : ∀ i r f, rules[i]? = some r → fates[i]? = some f →
    Decided workers (handlers workers (fates.take i)) r f
  kept : h.kept = (keptBy workers rules fates).map Prod.fst
  log : h.log = log ++ (rules.zip fates).flatMap fun (r, f) => (f.judgement r).errors
  places : h.workers.length = workers.length
  served : ∀ (place : Nat) (w : RuleWorker σ), workers[place]? = some w → ∃ s,
    serve work w.state ((handedTo place rules fates).map Prod.fst) =
      (handedTo place rules fates, s) ∧
    h.workers[place]? = some { w with state := s, log := [] }
  ordered : (handlers workers fates).Pairwise fun earlier later =>
    earlier.index.set ≤ later.index.test
  highest_le_iff : ∀ n, h.highest ≤ n ↔ ∀ v ∈ handlers workers fates, v.index.set ≤ n

/-! ## One more rule -/

section

variable {work : Work σ Rule} {log : List Diagnostic} {workers before : List (RuleWorker σ)}
  {rules : List Rule} {fates : List Fate} {h : Handout σ} {r : Rule} {f : Fate} {place : Nat}
  {w : RuleWorker σ}

/-- The worker of the last rule comes last. -/
theorem handlers_concat : handlers workers (fates ++ [f]) =
    handlers workers fates ++ (f.worker? workers).toList := by
  simp only [handlers, List.filterMap_append]
  cases hf : f.worker? workers <;> simp [hf]

/-- The last rule is the last one that its worker is handed. -/
theorem handedTo_concat (hlength : fates.length = rules.length) :
    handedTo place (rules ++ [r]) (fates ++ [f]) =
      handedTo place rules fates ++ ((f.judgementAt? place).map (r, ·)).toList := by
  simp only [handedTo, List.zip_append hlength.symm, List.filterMap_append]
  cases hf : f.judgementAt? place <;> simp [hf]

/-- What is left of the last rule comes last. -/
theorem keptBy_concat (hlength : fates.length = rules.length) :
    keptBy workers (rules ++ [r]) (fates ++ [f]) = keptBy workers rules fates ++
      ((f.worker? workers).bind fun w =>
        ((f.judgement r).outcome.survivor r).map (·, w)).toList := by
  simp only [keptBy, List.zip_append hlength.symm, List.filterMap_append]
  cases hf : f.worker? workers with
  | none => simp [hf]
  | some w => cases hr : (f.judgement r).outcome.survivor r <;> simp [hf, hr]

/-- Serving one more node. -/
theorem serve_concat (work : Work σ α) (s : σ) (nodes : List α) (node : α) :
    serve work s (nodes ++ [node]) =
      let (judged, t) := serve work s nodes
      let (outcome, w) := work { state := t } node
      (judged ++ [(node, ⟨outcome, w.log⟩)], w.state) := by
  induction nodes generalizing s with
  | nil => rfl
  | cons first rest ih => simp only [List.cons_append, serve, ih]

/-- A worker without diagnostics is handed a node. -/
theorem Logged.delegate_eq (work : Work σ α) (log : List Diagnostic) (s : σ) (node : α) :
    Logged.delegate work log { state := s } node =
      ((work { state := s } node).1, log ++ (work { state := s } node).2.log,
        { state := (work { state := s } node).2.state }) := rfl

/-- What can become of the next rule. -/
theorem Handout.next_cases (work : Work σ Rule) (h : Handout σ) (r : Rule) :
    (h.workers.findIdx? (·.handles r) = none ∧
        h.next work r = h.refuse Diagnostic.unrecognizedRule r) ∨
      ∃ place w, h.workers.findIdx? (·.handles r) = some place ∧ h.workers[place]? = some w ∧
        ((w.index.test < h.highest ∧ h.next work r = h.refuse Diagnostic.misorderedRule r) ∨
          (h.highest ≤ w.index.test ∧ h.next work r = h.give work place w r)) := by
  rw [List.findIdx?_eq_map_findFinIdx?_val, next]
  cases h.workers.findFinIdx? (·.handles r) with
  | none => exact .inl ⟨rfl, rfl⟩
  | some k =>
    refine .inr ⟨k, h.workers[k], rfl, List.getElem?_eq_getElem k.isLt, ?_⟩
    by_cases hlt : h.workers[k].index.test < h.highest
    · exact .inl ⟨hlt, if_pos hlt⟩
    · exact .inr ⟨Int32.not_lt.1 hlt, if_neg hlt⟩

/-- A rule that is found a worker is not unhandled. -/
theorem not_unhandled_of_find? (hfind : workers.find? (·.handles r) = some w) :
    ¬ ∀ w ∈ workers, w.handles r = false := by
  intro hall
  have htrue := List.find?_some hfind
  rw [hall w (List.mem_of_find?_eq_some hfind)] at htrue
  cases htrue

namespace Decided

/-- A rule that no worker handles. -/
theorem of_unhandled (hnone : workers.findIdx? (·.handles r) = none) :
    Decided workers before r .unrecognized := by
  have hall := List.findIdx?_eq_none_iff.1 hnone
  refine ⟨iff_of_true rfl hall, iff_of_false nofun ?_, fun place w _ => iff_of_false ?_ ?_⟩
  · rintro ⟨w, hw, -⟩
    exact not_unhandled_of_find? hw hall
  · rintro ⟨_, heq⟩
    cases heq
  · rintro ⟨hsome, -⟩
    cases hnone.symm.trans hsome

/-- The first worker that handles a rule, by its place. -/
theorem find?_of_findIdx? (hplace : workers.findIdx? (·.handles r) = some place)
    (hw : workers[place]? = some w) : workers.find? (·.handles r) = some w := by
  rw [List.find?_eq_bind_findIdx?_getElem?, hplace, Option.bind_some, hw]

/-- A rule whose first worker must come earlier than a worker that a rule went to. -/
theorem of_lower (hplace : workers.findIdx? (·.handles r) = some place)
    (hw : workers[place]? = some w) {v : RuleWorker σ} (hv : v ∈ before)
    (hlt : w.index.test < v.index.set) : Decided workers before r .misordered := by
  have hfind := find?_of_findIdx? hplace hw
  refine ⟨iff_of_false nofun (not_unhandled_of_find? hfind),
    iff_of_true rfl ⟨w, hfind, v, hv, hlt⟩, fun p u hu => iff_of_false ?_ ?_⟩
  · rintro ⟨_, heq⟩
    cases heq
  · rintro ⟨hp, hle⟩
    obtain rfl : place = p := Option.some.inj (hplace.symm.trans hp)
    obtain rfl : w = u := Option.some.inj (hw.symm.trans hu)
    exact Int32.not_lt.2 (hle v hv) hlt

/-- A rule that went to the first worker that handles it. -/
theorem of_handed (hplace : workers.findIdx? (·.handles r) = some place)
    (hw : workers[place]? = some w) (hle : ∀ v ∈ before, v.index.set ≤ w.index.test)
    (j : Judgement Rule) : Decided workers before r (.handed place j) := by
  have hfind := find?_of_findIdx? hplace hw
  refine ⟨iff_of_false nofun (not_unhandled_of_find? hfind), iff_of_false nofun ?_,
    fun p u hu => ⟨?_, ?_⟩⟩
  · rintro ⟨u, hu, v, hv, hlt⟩
    obtain rfl : w = u := Option.some.inj (hfind.symm.trans hu)
    exact Int32.not_lt.2 (hle v hv) hlt
  · rintro ⟨_, heq⟩
    cases heq
    obtain rfl : w = u := Option.some.inj (hw.symm.trans hu)
    exact ⟨hplace, hle⟩
  · rintro ⟨hp, -⟩
    obtain rfl : place = p := Option.some.inj (hplace.symm.trans hp)
    exact ⟨j, rfl⟩

end Decided

namespace Dispatched

/-- The workers handle the same rules as before they served any. -/
theorem findIdx?_eq (hd : Dispatched work log workers rules fates h) (r : Rule) :
    h.workers.findIdx? (·.handles r) = workers.findIdx? (·.handles r) := by
  have hsame : h.workers.map (·.handles) = workers.map (·.handles) := by
    refine List.ext_getElem? fun i => ?_
    rw [List.getElem?_map, List.getElem?_map]
    cases hw : workers[i]? with
    | none =>
      have hlength := hd.places ▸ List.getElem?_eq_none_iff.1 hw
      rw [List.getElem?_eq_none_iff.2 hlength]
    | some w =>
      obtain ⟨s, -, hs⟩ := hd.served i w hw
      rw [hs]
      rfl
  have hfind := congrArg (List.findIdx? (fun handles : Rule → Bool => handles r)) hsame
  rwa [List.findIdx?_map, List.findIdx?_map] at hfind

/-- What each rule's fate must be stays right when one more rule gets its fate. -/
theorem decided_concat (hd : Dispatched work log workers rules fates h)
    (hf : Decided workers (handlers workers fates) r f) :
    ∀ i r' f', (rules ++ [r])[i]? = some r' → (fates ++ [f])[i]? = some f' →
      Decided workers (handlers workers ((fates ++ [f]).take i)) r' f' := by
  intro i r' f' hr' hf'
  rcases Nat.lt_trichotomy i fates.length with hi | rfl | hi
  · rw [List.take_append_of_le_length (Nat.le_of_lt hi)]
    rw [List.getElem?_append_left hi] at hf'
    rw [List.getElem?_append_left (hd.length ▸ hi)] at hr'
    exact hd.decided i r' f' hr' hf'
  · rw [List.getElem?_concat_length] at hf'
    rw [hd.length, List.getElem?_concat_length] at hr'
    cases hr'
    cases hf'
    rwa [List.take_left]
  · rw [List.getElem?_eq_none (by rw [List.length_append]; exact hi)] at hf'
    cases hf'

/-- A rule that goes to no worker. -/
theorem refuse (hd : Dispatched work log workers rules fates h) {code : String}
    (hworker : f.worker? workers = none) (hjudged : ∀ place, f.judgementAt? place = none)
    (hjudgement : f.judgement r = .refuse code r.position)
    (hf : Decided workers (handlers workers fates) r f) :
    Dispatched work log workers (rules ++ [r]) (fates ++ [f]) (h.refuse code r) where
  length := by rw [List.length_append, List.length_append, hd.length]; rfl
  decided := hd.decided_concat hf
  kept := by
    rw [keptBy_concat hd.length, hworker]
    exact hd.kept.trans (congrArg _ (List.append_nil _).symm)
  log := by
    simp only [Handout.refuse, hd.log, List.zip_append hd.length.symm, List.flatMap_append,
      List.zip_cons_cons, List.zip_nil_left, List.flatMap_cons, List.flatMap_nil, hjudgement,
      Judgement.refuse, List.append_nil, List.append_assoc]
  places := hd.places
  served place w hw := by
    rw [handedTo_concat hd.length, hjudged, Option.map_none, Option.toList_none, List.append_nil]
    exact hd.served place w hw
  ordered := by
    rw [handlers_concat, hworker, Option.toList_none, List.append_nil]
    exact hd.ordered
  highest_le_iff n := by
    rw [handlers_concat, hworker, Option.toList_none, List.append_nil]
    exact hd.highest_le_iff n

/-- A rule that goes to the first worker that handles it. -/
theorem give (hd : Dispatched work log workers rules fates h) {s : σ}
    (hw : workers[place]? = some w)
    (hle : ∀ v ∈ handlers workers fates, v.index.set ≤ w.index.test)
    (hs : serve work w.state ((handedTo place rules fates).map Prod.fst) =
      (handedTo place rules fates, s))
    (hself : h.workers[place]? = some { w with state := s, log := [] })
    (hf : Decided workers (handlers workers fates) r
      (.handed place ⟨(work { state := s } r).1, (work { state := s } r).2.log⟩)) :
    Dispatched work log workers (rules ++ [r])
      (fates ++ [.handed place ⟨(work { state := s } r).1, (work { state := s } r).2.log⟩])
      (h.give work place { w with state := s, log := [] } r) where
  length := by rw [List.length_append, List.length_append, hd.length]; rfl
  decided := hd.decided_concat hf
  kept := by
    rw [keptBy_concat hd.length]
    simp only [Handout.give, Logged.delegate_eq, hd.kept, Fate.worker?, hw, Fate.judgement,
      List.map_append, Option.bind_some]
    cases (work { state := s } r).1.survivor r <;> rfl
  log := by
    simp only [Handout.give, Logged.delegate_eq, hd.log, List.zip_append hd.length.symm,
      List.flatMap_append, List.zip_cons_cons, List.zip_nil_left, List.flatMap_cons,
      List.flatMap_nil, Fate.judgement, List.append_nil, List.append_assoc]
  places := by
    simpa only [Handout.give, List.length_set] using hd.places
  served p u hu := by
    rw [handedTo_concat hd.length]
    by_cases hp : place = p
    · subst hp
      obtain rfl : w = u := Option.some.inj (hw.symm.trans hu)
      refine ⟨(work { state := s } r).2.state, ?_, ?_⟩
      · simp only [Fate.judgementAt?, if_pos, Option.map_some, Option.toList_some, List.map_append,
          List.map_cons, List.map_nil, serve_concat, hs]
      · have hplace : place < h.workers.length := (List.getElem?_eq_some_iff.1 hself).1
        simp only [Handout.give, Logged.delegate_eq, List.getElem?_set_self hplace]
    · obtain ⟨t, ht, hsame⟩ := hd.served p u hu
      refine ⟨t, ?_, ?_⟩
      · simpa only [Fate.judgementAt?, if_neg hp, Option.map_none, Option.toList_none,
          List.append_nil] using ht
      · simpa only [Handout.give, List.getElem?_set_ne hp] using hsame
  ordered := by
    rw [handlers_concat, Fate.worker?, hw]
    exact List.pairwise_append.2 ⟨hd.ordered, List.pairwise_singleton _ w, fun v hv u hu =>
      List.mem_singleton.1 hu ▸ hle v hv⟩
  highest_le_iff n := by
    simp only [Handout.give, RuleIndex.max_le_iff, hd.highest_le_iff n, handlers_concat,
      Fate.worker?, hw, Option.toList_some, List.forall_mem_append, List.forall_mem_singleton]

/-- No rule was handed out yet. -/
theorem start (work : Work σ Rule) (log : List Diagnostic) (hempty : ∀ w ∈ workers, w.log = []) :
    Dispatched work log workers [] [] { workers, log } where
  length := rfl
  decided i r f hr := by cases hr
  kept := rfl
  log := (List.append_nil log).symm
  places := rfl
  served place w hw := by
    refine ⟨w.state, rfl, ?_⟩
    rw [hw, ← hempty w (List.mem_of_getElem? hw)]
  ordered := List.Pairwise.nil
  highest_le_iff n := iff_of_true (Int32.minValue_le n) nofun

/-- **One rule is handed out.** -/
theorem next (hd : Dispatched work log workers rules fates h) (r : Rule) :
    ∃ f, Dispatched work log workers (rules ++ [r]) (fates ++ [f]) (h.next work r) := by
  rcases h.next_cases work r with ⟨hnone, hnext⟩ | ⟨place, u, hplace, hu, hcase⟩
  · rw [hd.findIdx?_eq] at hnone
    exact ⟨.unrecognized, hnext ▸ hd.refuse rfl (fun _ => rfl) rfl (.of_unhandled hnone)⟩
  rw [hd.findIdx?_eq] at hplace
  obtain ⟨hlt, -⟩ := List.findIdx?_eq_some_iff_getElem.1 hplace
  have hw := List.getElem?_eq_getElem hlt
  obtain ⟨s, hs, hself⟩ := hd.served place _ hw
  obtain rfl := Option.some.inj (hu.symm.trans hself)
  rcases hcase with ⟨hbelow, hnext⟩ | ⟨habove, hnext⟩
  · have hnot := mt (hd.highest_le_iff _).2 (Int32.not_le.2 hbelow)
    obtain ⟨v, hv⟩ := Classical.not_forall.1 hnot
    obtain ⟨hv, hset⟩ := Classical.not_imp.1 hv
    exact ⟨.misordered, hnext ▸ hd.refuse rfl (fun _ => rfl) rfl
      (.of_lower hplace hw hv (Int32.not_le.1 hset))⟩
  · have hle := (hd.highest_le_iff _).1 habove
    exact ⟨_, hnext ▸ hd.give hw hle hs hself (.of_handed hplace hw hle _)⟩

/-- The rest of a list is handed out. -/
theorem foldl_next (hd : Dispatched work log workers rules fates h) (rest : List Rule) :
    ∃ fates, Dispatched work log workers (rules ++ rest) fates (rest.foldl (Handout.next work) h) := by
  induction rest generalizing rules fates h with
  | nil => exact ⟨fates, (List.append_nil rules).symm ▸ hd⟩
  | cons r rest ih =>
    obtain ⟨f, hd⟩ := hd.next r
    obtain ⟨fates, hd⟩ := ih hd
    exact ⟨fates, List.append_cons rules r rest ▸ hd⟩

/-- Rules that are left were handed out. -/
theorem keptBy_sublist (workers : List (RuleWorker σ)) (rules : List Rule) (fates : List Fate) :
    ((keptBy workers rules fates).map Prod.snd).Sublist (handlers workers fates) := by
  induction rules generalizing fates with
  | nil => exact List.nil_sublist _
  | cons r rules ih =>
    cases fates with
    | nil => exact List.nil_sublist _
    | cons f fates =>
      have hrest := ih fates
      simp only [keptBy, handlers] at hrest ⊢
      cases hf : f.worker? workers with
      | none => simpa [hf] using hrest
      | some w =>
        cases hr : (f.judgement r).outcome.survivor r with
        | none => simpa [hf, hr] using hrest.cons w
        | some _ => simpa [hf, hr] using hrest

/-- Of two rules that are left, the later one may come after the earlier one. -/
theorem keptBy_ordered (hd : Dispatched work log workers rules fates h) :
    (keptBy workers rules fates).Pairwise fun earlier later =>
      earlier.2.index.set ≤ later.2.index.test :=
  List.pairwise_map.1 (hd.ordered.sublist (keptBy_sublist workers rules fates))

end Dispatched

end

end

/-- **Handing out rules.** However the workers judge, as long as their logs are empty at the start:
every rule has the fate that is right for it, and all else follows from the fates (`Dispatched`). Of
two rules that are left, the index of the later one is not below what the earlier one set; with plain
indexes, they are sorted. -/
theorem handOut_dispatched {σ : Type} (work : Work σ Rule) (log : List Diagnostic)
    {workers : List (RuleWorker σ)} (hempty : ∀ w ∈ workers, w.log = []) (rules : List Rule) :
    ∃ fates, Dispatched work log workers rules fates (handOut work log workers rules) ∧
      (keptBy workers rules fates).Pairwise (fun earlier later =>
        earlier.2.index.set ≤ later.2.index.test) ∧
      ((∀ w ∈ workers, w.index.isSingle = true) →
        (keptBy workers rules fates).Pairwise fun earlier later =>
          earlier.2.index.test ≤ later.2.index.test) := by
  obtain ⟨fates, hd⟩ := (Dispatched.start work log hempty).foldl_next rules
  refine ⟨fates, hd, hd.keptBy_ordered, fun hsingle => ?_⟩
  refine hd.keptBy_ordered.imp_of_mem fun {earlier later} hearlier _ hle => ?_
  have hmem : earlier.2 ∈ workers := by
    have h := (Dispatched.keptBy_sublist workers rules fates).subset (List.mem_map_of_mem hearlier)
    obtain ⟨f, -, hf⟩ := List.mem_filterMap.1 h
    exact Fate.mem_of_worker? hf
  rwa [beq_iff_eq.1 (hsingle _ hmem)]

/-- Two workers with plain indexes that count and keep the rules they get: imports come first, so the
one between other rules is dropped. -/
theorem handOut_late_import :
    let work : Work Nat Rule := fun w _ => (.kept, { w with state := w.state + 1 })
    let workers : List (RuleWorker Nat) :=
      [{ state := 0, handles := fun r => r.name? == some "import", index := .single 1 },
        { state := 0, handles := fun _ => true, index := .ordinary }]
    let rules := ["media", "import", "media"].map fun name => Rule.atRule (.ofName name)
    (∀ w ∈ workers, w.log = []) ∧ (∀ w ∈ workers, w.index.isSingle = true) ∧
      (∃ fates, Dispatched work [] workers rules fates (handOut work [] workers rules) ∧
        (keptBy workers rules fates).Pairwise fun earlier later =>
          earlier.2.index.test ≤ later.2.index.test) ∧
      (handOut work [] workers rules).log = [⟨Diagnostic.misorderedRule, Position.unknown⟩] ∧
      (handOut work [] workers rules).workers.map (·.state) = [0, 2] := by
  intro work workers rules
  have hempty : ∀ w ∈ workers, w.log = [] := by simp [workers]
  have hsingle : ∀ w ∈ workers, w.index.isSingle = true := by
    simp [workers, RuleIndex.isSingle, RuleIndex.single, RuleIndex.ordinary]
  obtain ⟨fates, hd, -, hsorted⟩ := handOut_dispatched work [] hempty rules
  exact ⟨hempty, hsingle, ⟨fates, hd, hsorted hsingle⟩, by decide, by decide⟩

end StyleGate
