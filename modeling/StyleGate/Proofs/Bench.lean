import StyleGate.Node.Bench
import StyleGate.Proofs.Nodes
import Mathlib.Data.List.Induction

/-!
# What stands on a bench

What a mutator writes into a node was built in the same way, and the tokens that the constructors looked
at stay where they are. So it does not have to look again, and all nodes on a bench are well formed. A rule
that is given a block looks whether it is in braces (`Rule.setBlock`).

One way leads past that guard. The reference to the block of a rule takes any block, also one in
parentheses (`Bench.run_parens`), and then the rule ends in neither a semicolon nor a right brace. Main
result (`Bench.formed_run`): every node is well formed but for the brackets of the blocks of rules, and all
of these are in braces at all times exactly if no step writes such a block over one of them
(`Bench.Careful`). Both halves are one proof, with the kinds of token that may open the block of a rule as
a parameter (`Bench.yields_perform`).

A step that fails leaves the whole bench as it was. This is not how steps are defined: what is written
before a failure stays, so each mutator has to fail before it writes (`Yields`).
-/

namespace StyleGate

open ComponentValue (blockEnd)

variable {openers : TokenKind → Prop}

/-! ## What a computation makes of a state -/

/-- What a computation makes of a state, and answers, has a property. It may also fail, but then it
leaves the state as it was. -/
def Yields {ε σ α : Type} (P : α → σ → Prop) (x : EStateM ε σ α) (s : σ) : Prop :=
  match x.run s with
  | .ok a s' => P a s'
  | .error _ s' => s' = s

/-- A computation leaves a state as it is, and what it answers has a property. -/
def Reads {ε σ α : Type} (Q : α → Prop) (x : EStateM ε σ α) (s : σ) : Prop :=
  Yields (fun a s' => s' = s ∧ Q a) x s

namespace Yields

variable {ε ε' σ τ α β : Type} {P P' : α → σ → Prop} {Q Q' : α → Prop} {R : β → σ → Prop}
variable {x : EStateM ε σ α} {s : σ}

/-- An answer alone writes nothing. -/
theorem pure {a : α} (h : P a s) : Yields P (pure a : EStateM ε σ α) s := h

/-- What fails at once has written nothing. -/
theorem throw {e : ε} : Yields P (throw e : EStateM ε σ α) s := rfl

/-- After writing, there is only what was written. -/
theorem set {P : Unit → σ → Prop} {t : σ} (h : P () t) : Yields P (set t : EStateM ε σ Unit) s := h

/-- After a change that cannot fail, there is the changed state. -/
theorem modify {P : Unit → σ → Prop} {f : σ → σ} (h : P () (f s)) :
    Yields P (modify f : EStateM ε σ Unit) s := h

/-- A result from elsewhere is answered, or is the failure; the state has no part in it. -/
theorem ofExcept {r : Except ε α} (h : ∀ a, r = .ok a → P a s) :
    Yields P (MonadExcept.ofExcept r : EStateM ε σ α) s := by
  cases r with
  | ok a => exact h a rfl
  | error e => exact rfl

/-- Only a computation that fails before it writes leaves the state as it was. So what comes first must
do no more than read. -/
theorem bind {f : α → EStateM ε σ β} (hx : Reads Q x s) (hf : ∀ a, Q a → Yields R (f a) s) :
    Yields R (x >>= f) s := by
  unfold Reads Yields at hx
  have hbind : (x >>= f).run s = match x.run s with
      | .ok a s' => (f a).run s'
      | .error e s' => .error e s' := EStateM.run_bind ..
  unfold Yields
  rw [hbind]
  cases hrun : x.run s with
  | ok a s' =>
    rw [hrun] at hx
    obtain ⟨rfl, hQ⟩ := hx
    exact hf a hQ
  | error e s' =>
    rw [hrun] at hx
    exact hx

/-- It is all the same how a failure is called. -/
theorem adaptExcept {f : ε → ε'} (h : Yields P x s) : Yields P (EStateM.adaptExcept f x) s := by
  have hadapt : (EStateM.adaptExcept f x).run s = match x.run s with
      | .ok a s' => .ok a s'
      | .error e s' => .error (f e) s' := by
    simp only [EStateM.run, EStateM.adaptExcept]
    cases x s <;> rfl
  unfold Yields at h ⊢
  rw [hadapt]
  cases hrun : x.run s with
  | ok a s' => rwa [hrun] at h
  | error e s' => rwa [hrun] at h

/-- If something fails on a part and leaves it as it was, then what is written back changes nothing. -/
theorem within {access : Access σ τ} {x : EStateM ε τ α} {otherwise : EStateM ε σ α}
    (hpart : ∀ t, access.part? s = some t → Yields (fun a t' => P a (access.put t' s)) x t)
    (hnone : access.part? s = none → Yields P otherwise s) :
    Yields P (access.within x otherwise) s := by
  unfold Yields at hpart hnone ⊢
  cases hs : access.part? s with
  | none =>
    rw [Access.run_within_of_none hs]
    exact hnone hs
  | some t =>
    have h := hpart t hs
    rw [Access.run_within_of_some hs]
    cases hrun : x.run t with
    | ok a t' => rwa [hrun] at h
    | error e t' =>
      rw [hrun] at h
      subst h
      exact access.put_part s t' hs

/-- What follows from the property holds as well. -/
theorem mono (h : Yields P x s) (hP : ∀ a s', P a s' → P' a s') : Yields P' x s := by
  unfold Yields at h ⊢
  cases hrun : x.run s with
  | ok a s' => exact hP a s' (by rwa [hrun] at h)
  | error e s' => rwa [hrun] at h

/-- What fails leaves the state as it was. -/
theorem of_run_eq_error (h : Yields P x s) {e : ε} {s' : σ} (hrun : x.run s = .error e s') :
    s' = s := by
  unfold Yields at h
  rwa [hrun] at h

end Yields

namespace Reads

variable {ε σ α β : Type} {Q Q' : α → Prop} {R : β → Prop} {x : EStateM ε σ α} {s : σ}

/-- An answer alone writes nothing. -/
theorem pure {a : α} (h : Q a) : Reads Q (pure a : EStateM ε σ α) s := Yields.pure ⟨rfl, h⟩

/-- Nor does a failure. -/
theorem throw {e : ε} : Reads Q (throw e : EStateM ε σ α) s := Yields.throw

/-- Nor does a result from elsewhere. -/
theorem ofExcept {r : Except ε α} (h : ∀ a, r = .ok a → Q a) :
    Reads Q (MonadExcept.ofExcept r : EStateM ε σ α) s :=
  Yields.ofExcept fun a ha => ⟨rfl, h a ha⟩

/-- What reads, one step after the other, reads as a whole. -/
theorem bind {f : α → EStateM ε σ β} (hx : Reads Q x s) (hf : ∀ a, Q a → Reads R (f a) s) :
    Reads R (x >>= f) s :=
  Yields.bind hx hf

/-- What follows from the property of the answer holds as well. -/
theorem mono (h : Reads Q x s) (hQ : ∀ a, Q a → Q' a) : Reads Q' x s :=
  Yields.mono h fun a _ ha => ⟨ha.1, hQ a ha.2⟩

end Reads

/-! ## Constructors -/

/-- Whatever a constructor builds has a property. It need not build anything. -/
def Builds {ε α : Type} (P : α → Prop) (x : Except ε α) : Prop := ∀ a, x = .ok a → P a

namespace Builds

variable {ε α β : Type} {P : α → Prop} {Q : β → Prop} {x : Except ε α}

/-- A result that is there has to have the property. -/
theorem ok {a : α} (h : P a) : Builds P (.ok a : Except ε α) := by
  rintro _ ⟨⟩
  exact h

/-- Of no result nothing has to hold. -/
theorem error {e : ε} : Builds P (.error e) := nofun

/-- What is built from something that was built has the property if it has it for all that could be
built. -/
theorem bind {f : α → Except ε β} (h : Builds P x) (hf : ∀ a, P a → Builds Q (f a)) :
    Builds Q (x >>= f) := by
  cases x with
  | ok a => exact hf a (h a rfl)
  | error => exact error

end Builds

/-- A block that was built starts with a bracket. -/
theorem Block.builds_ofOpener (opener : Token) : Builds (·.value.Formed) (ofOpener opener) := by
  unfold ofOpener
  split
  case isTrue h => exact .ok (.block h (List.forall_mem_nil _))
  case isFalse => exact .error

/-- A function that was built starts with a function token. -/
theorem FunctionCall.builds_ofName (name : Token) : Builds (·.value.Formed) (ofName name) := by
  unfold ofName
  split
  case isTrue h => exact .ok (.function h (List.forall_mem_nil _))
  case isFalse => exact .error

/-- A declaration that was built starts with an identifier. -/
theorem Declaration.builds_ofName (name : Token) : Builds Formed (ofName name) := by
  unfold ofName
  split
  case isTrue h => exact .ok ⟨h, List.forall_mem_nil _⟩
  case isFalse => exact .error

/-- An at-rule that was built starts with an at-keyword. -/
theorem AtRule.builds_ofKeyword (keyword : Token) : Builds (Formed openers) (ofKeyword keyword) := by
  unfold ofKeyword
  split
  case isTrue h => exact .ok ⟨h, List.forall_mem_nil _, by rintro _ ⟨⟩⟩
  case isFalse => exact .error

namespace ComponentValue

/-- The values of a list that is built from values which build formed ones. -/
theorem builds_assembleAll_of {vs : List ComponentValue} (h : ∀ v ∈ vs, Builds Formed v.assemble) :
    Builds (∀ v ∈ ·, v.Formed) (assembleAll vs) := by
  induction vs with
  | nil => exact .ok (List.forall_mem_nil _)
  | cons v vs ih =>
    rw [List.forall_mem_cons] at h
    refine h.1.bind fun v hv => (ih h.2).bind fun rest hrest => .ok ?_
    exact List.forall_mem_cons.2 ⟨hv, hrest⟩

/-- The constructors build formed values only. -/
theorem builds_assemble (v : ComponentValue) : Builds Formed v.assemble := by
  induction v using induct with
  | token t => exact .ok .token
  | block opener contents ih =>
    exact (Block.builds_ofOpener opener).bind fun b hb =>
      (builds_assembleAll_of ih).bind fun vs hvs => .ok (hb.block_contents hvs)
  | function name contents ih =>
    exact (FunctionCall.builds_ofName name).bind fun f hf =>
      (builds_assembleAll_of ih).bind fun vs hvs => .ok (hf.function_contents hvs)

/-- So are the values of a list. -/
theorem builds_assembleAll (vs : List ComponentValue) : Builds (∀ v ∈ ·, v.Formed) (assembleAll vs) :=
  builds_assembleAll_of fun v _ => v.builds_assemble

end ComponentValue

/-! ## Mutators -/

/-- Whether what a change brings into a list has a property. -/
def ListEdit.Brings {α : Type} (P : α → Prop) : ListEdit α → Prop
  | add a => P a
  | insert _ a => P a
  | replace list => ∀ a ∈ list, P a
  | _ => True

/-- A list whose members have a property keeps it, if what a change brings in has it too. -/
theorem ListEdit.yields_perform {α : Type} {P : α → Prop} (edit : ListEdit α) (list : List α) :
    Yields (fun _ new => (∀ a ∈ list, P a) → edit.Brings P → ∀ a ∈ new, P a) edit.perform list := by
  cases edit with
  | add a =>
    refine .modify fun hlist hedit => ?_
    exact List.forall_mem_append.2 ⟨hlist, List.forall_mem_singleton.2 hedit⟩
  | insert index a =>
    refine .bind (Q := (· = list)) ⟨rfl, rfl⟩ ?_
    rintro _ rfl
    split
    case isTrue hindex =>
      refine .set fun hlist hedit b hb => ?_
      obtain rfl | hb := (List.mem_insertIdx hindex).1 hb
      · exact hedit
      · exact hlist b hb
    case isFalse => exact .throw
  | remove index => exact .modify fun hlist _ a ha => hlist a (List.mem_of_mem_eraseIdx ha)
  | reverse => exact .modify fun hlist _ a ha => hlist a (List.mem_reverse.1 ha)
  | clear => exact .set fun _ _ => List.forall_mem_nil _
  | trim drop =>
    refine .modify fun hlist _ a ha => hlist a ?_
    have ha := List.mem_reverse.1 ((List.dropWhile_sublist drop).mem ha)
    exact List.mem_reverse.1 ((List.dropWhile_sublist drop).mem ha)
  | replace other => exact .set fun _ hedit => hedit

/-- An at-rule takes a block in braces only. -/
theorem AtRule.yields_setBlock (ho : TokenKind.Openers openers) (block : Option Block) (r : AtRule) :
    Yields (fun _ new => r.Formed openers → (∀ b, block = some b → b.value.Formed) →
      new.Formed openers) (setBlock block) r := by
  unfold Yields
  rw [run_setBlock]
  cases block with
  | none => exact fun h _ => ⟨h.keyword, h.prelude, by rintro _ ⟨⟩⟩
  | some b =>
    cases hbraces : b.isBraces with
    | true =>
      rw [withBlock, if_pos hbraces]
      refine fun h hblock => ⟨h.keyword, h.prelude, ?_⟩
      rintro _ ⟨⟩
      exact .of_isBraces hbraces (hblock b rfl) ho
    | false =>
      rw [withBlock, if_neg (Bool.eq_false_iff.1 hbraces)]

/-- A qualified rule takes a block in braces only. -/
theorem QualifiedRule.yields_setBlock (ho : TokenKind.Openers openers) (b : Block) (r : QualifiedRule) :
    Yields (fun _ new => r.Formed openers → b.value.Formed → new.Formed openers) (setBlock b) r := by
  unfold Yields
  rw [run_setBlock]
  cases hbraces : b.isBraces with
  | true =>
    rw [withBlock, if_pos hbraces]
    exact fun h hb => ⟨h.prelude, .of_isBraces hbraces hb ho⟩
  | false =>
    rw [withBlock, if_neg (Bool.eq_false_iff.1 hbraces)]

namespace Rule

variable {r : Rule}

/-- A formed rule stays so with other comments, which may be any tokens. -/
theorem Formed.withComments (h : r.Formed openers) (comments : List Token) :
    (r.withComments comments).Formed openers := by
  cases r with
  | atRule r =>
    have h : r.Formed openers := h
    exact ⟨h.keyword, h.prelude, h.block⟩
  | qualified r =>
    have h : r.Formed openers := h
    exact ⟨h.prelude, h.block⟩

/-- A formed rule stays so with another block that its kind of block may be. -/
theorem Formed.putBlock {b : Block} (h : r.Formed openers) (hb : b.Formed openers) :
    (r.putBlock b).Formed openers := by
  cases r with
  | atRule r =>
    have h : r.Formed openers := h
    exact ⟨h.keyword, h.prelude, by rintro _ ⟨⟩; exact hb⟩
  | qualified r =>
    have h : r.Formed openers := h
    exact ⟨h.prelude, hb⟩

/-- The block that is put into a rule is its block, whether it had one or not. -/
theorem block?_putBlock (b : Block) : (r.putBlock b).block? = some b := by
  cases r with
  | atRule r => rfl
  | qualified r => rfl

/-- A formed rule stays so when its block is set. -/
theorem yields_setBlock (ho : TokenKind.Openers openers) (block : Option Block) (r : Rule) :
    Yields (fun _ new => r.Formed openers → (∀ b, block = some b → b.value.Formed) →
      new.Formed openers) (setBlock block) r := by
  refine .within (fun a ha => ?_) fun _ => .within (fun q hq => ?_) fun _ => .throw
  · cases r with
    | atRule r =>
      cases ha
      exact .adaptExcept (AtRule.yields_setBlock ho block a)
    | qualified r => cases ha
  · cases r with
    | atRule r => cases hq
    | qualified r =>
      cases hq
      cases block with
      | none => exact .throw
      | some b =>
        refine .adaptExcept ((QualifiedRule.yields_setBlock ho b q).mono ?_)
        exact fun _ _ hnew h hblock => hnew h (hblock b rfl)

/-- A formed rule stays so when the contents of its block are changed in place. -/
theorem yields_contents (edit : ListEdit ComponentValue) (r : Rule) :
    Yields (fun _ new => r.Formed openers → edit.Brings ComponentValue.Formed → new.Formed openers)
      (blockAccess.within (Block.contentsAccess.within edit.perform (pure ())) (pure ())) r := by
  refine .within (fun b hb => ?_) fun _ => .pure fun h _ => h
  refine .within (fun vs hvs => ?_) nofun
  cases hvs
  refine (edit.yields_perform (P := ComponentValue.Formed) b.contents).mono fun _ _ hnew h hedit => ?_
  have hblock := h.block b hb
  exact h.putBlock ⟨hblock.opener, hnew hblock.contents hedit⟩

/-- A formed rule stays so with any block in the place of its own, if its kind of block may be that. -/
theorem yields_replace (b : Block) (r : Rule) :
    Yields (fun _ new => r.Formed openers → (r.block? ≠ none → b.Formed openers) →
      new.Formed openers) (blockAccess.within (set b) (pure ()) : EStateM EditError Rule Unit) r := by
  refine .within (fun old hold => ?_) fun _ => .pure fun h _ => h
  refine .set fun h hb => h.putBlock (hb ?_)
  rw [show r.block? = some old from hold]
  exact Option.some_ne_none old

end Rule

/-- Whether what a change brings into a node is formed. Only a replacement of a rule's block has to ask
which kinds of token may open such a block. -/
def Edit.Formed (openers : TokenKind → Prop) (n : Node) : Edit → Prop
  | values edit | block edit => edit.Brings ComponentValue.Formed
  | replaceBlock b => ∀ r, n = .rule r → r.block? ≠ none → b.Formed openers
  | declarations edit => edit.Brings Declaration.Formed
  | rules edit => edit.Brings (Rule.Formed openers)
  | setBlock new => ∀ b, new = some b → b.value.Formed
  | setImportant _ | setComments _ => True

namespace Node

variable {n : Node}

/-- A change to the rule that a formed node is. -/
theorem yields_ruleAccess {x : EStateM EditError Rule Unit} {P : Rule → Prop} (n : Node)
    (hx : ∀ r, Yields (fun _ new => r.Formed openers → P r → new.Formed openers) x r) :
    Yields (fun _ new => n.Formed openers → (∀ r, n = .rule r → P r) → new.Formed openers)
      (ruleAccess.within x (throw .unsuited)) n := by
  refine .within (fun r hr => ?_) fun _ => .throw
  cases n with
  | rule r =>
    cases hr
    exact (hx r).mono fun _ new hnew h hP => hnew h (hP r rfl)
  | _ => cases hr

/-- **A formed node stays so** under any change that brings in what is formed. -/
theorem yields_edit (ho : TokenKind.Openers openers) (e : Edit) (n : Node) :
    Yields (fun _ new => n.Formed openers → e.Formed openers n → new.Formed openers) e.perform n := by
  cases e with
  | values e =>
    refine .within (fun vs hvs => ?_) fun _ => .throw
    exact (e.yields_perform vs).mono fun _ new hnew h he => h.withValues (hnew (h.values? vs hvs) he)
  | block e =>
    exact (yields_ruleAccess n (Rule.yields_contents e)).mono fun _ new hnew h he =>
      hnew h fun _ _ => he
  | replaceBlock b => exact yields_ruleAccess n (Rule.yields_replace b)
  | declarations e =>
    refine .within (fun ds hds => ?_) fun _ => .throw
    cases n with
    | declarations ds =>
      cases hds
      exact e.yields_perform ds
    | _ => cases hds
  | rules e =>
    refine .within (fun rs hrs => ?_) fun _ => .throw
    cases n with
    | rules rs =>
      cases hrs
      exact e.yields_perform rs
    | _ => cases hrs
  | setBlock block =>
    exact (yields_ruleAccess n (Rule.yields_setBlock ho block)).mono fun _ new hnew h he =>
      hnew h fun _ _ => he
  | setImportant important =>
    rw [Edit.perform]
    refine .within (fun d hd => ?_) fun _ => .throw
    cases n with
    | declaration d =>
      cases hd
      refine .modify fun h _ => ?_
      have h : d.Formed := h
      exact ⟨h.name, h.value⟩
    | _ => cases hd
  | setComments comments =>
    rw [Edit.perform]
    have hmodify (r : Rule) : Yields (fun _ new => r.Formed openers → True → new.Formed openers)
        (modify (·.withComments comments) : EStateM EditError Rule Unit) r :=
      .modify fun h _ => h.withComments comments
    exact (yields_ruleAccess n hmodify).mono fun _ _ hnew h _ => hnew h fun _ _ => trivial

end Node

/-! ## Steps -/

namespace Bench

variable {ι α : Type} [DecidableEq ι] {bench : Bench ι} {name source : ι} {n : Node}

/-! ### Nodes by name -/

/-- The node with a name is the first one under that name. -/
theorem node_eq_ok_iff : bench.node name = .ok n ↔ bench.lookup name = some n := by
  unfold node
  cases bench.lookup name <;> simp

/-- It stands on the bench. -/
theorem mem_of_node_eq_ok (h : bench.node name = .ok n) : (name, n) ∈ bench := by
  obtain ⟨before, after, rfl, -⟩ := List.lookup_eq_some_iff.1 (node_eq_ok_iff.1 h)
  exact List.mem_append_right _ (.head _)

/-- What is put on a bench stands there. -/
theorem mem_put (name : ι) (n : Node) (bench : Bench ι) : (name, n) ∈ put name n bench := by
  induction bench with
  | nil => exact .head _
  | cons entry rest ih =>
    rw [put]
    split
    case isTrue => exact .head _
    case isFalse => exact .tail _ ih

/-- Whatever else stands there stood there before. -/
theorem mem_of_mem_put {entry : ι × Node} (h : entry ∈ put name n bench) :
    entry = (name, n) ∨ entry ∈ bench := by
  induction bench with
  | nil => exact .inl (List.mem_singleton.1 h)
  | cons other rest ih =>
    rw [put] at h
    split at h
    case isTrue => exact (List.mem_cons.1 h).imp_right (.tail _)
    case isFalse =>
      obtain rfl | h := List.mem_cons.1 h
      · exact .inr (.head _)
      · exact (ih h).imp_right (.tail _)

/-- What stands under another name stays there. -/
theorem node_put_of_ne {other : ι} (hother : other ≠ name) :
    (put name n bench).node other = bench.node other := by
  have hlookup : (put name n bench).lookup other = bench.lookup other := by
    induction bench with
    | nil => rw [put, List.lookup_cons, beq_false_of_ne hother]
    | cons entry rest ih =>
      rw [put]
      split
      case isTrue heq => rw [List.lookup_cons, List.lookup_cons, ← heq, beq_false_of_ne hother]
      case isFalse => rw [List.lookup_cons, List.lookup_cons, ih]
  rw [node, node, hlookup]

/-! ### What is read -/

/-- All nodes on a bench are formed. -/
def AllFormed (openers : TokenKind → Prop) (bench : Bench ι) : Prop :=
  ∀ entry ∈ bench, entry.2.Formed openers

/-- On a bench of formed nodes, the node with a name is formed. -/
theorem AllFormed.node (h : bench.AllFormed openers) (hn : bench.node name = .ok n) :
    n.Formed openers :=
  h (name, n) (mem_of_node_eq_ok hn)

/-- A formed node may be put on a bench of formed nodes. -/
theorem AllFormed.put (h : bench.AllFormed openers) (hn : n.Formed openers) :
    (put name n bench).AllFormed openers := fun _ hentry =>
  (mem_of_mem_put hentry).elim (fun heq => heq ▸ hn) (h _)

/-- What is seen of the node with a name. -/
def Shows (bench : Bench ι) (see : Node → Option α) (name : ι) (a : α) : Prop :=
  ∃ n, bench.node name = .ok n ∧ see n = some a

/-- To look up a name writes nothing, and finds what stands under it. -/
theorem reads_node (name : ι) (bench : Bench ι) :
    Reads (fun n => bench.node name = .ok n) (consult (·.node name)) bench :=
  .bind (Q := (· = bench)) ⟨rfl, rfl⟩ fun _ hb => .ofExcept fun _ hn => hb ▸ hn

/-- Nor does it write to look at a node as something, and what is seen is seen of that node. -/
theorem reads_view (see : Node → Option α) (name : ι) (bench : Bench ι) :
    Reads (bench.Shows see name) (view see name) bench := by
  refine (reads_node name bench).bind fun n hn => ?_
  split
  case h_1 a ha => exact .pure ⟨n, hn, ha⟩
  case h_2 => exact .throw

omit [DecidableEq ι] in
/-- What a constructor answers has the properties of what it builds. -/
theorem reads_built {P : α → Prop} {result : Except NodeError α} (h : Builds P result) :
    Reads P (built result) bench := by
  refine .ofExcept fun a ha => h a ?_
  cases result with
  | ok b =>
    cases ha
    rfl
  | error e => cases ha

/-- Constructors, and copies of what stands on the bench, make formed nodes. -/
theorem reads_make (ho : TokenKind.Openers openers) (maker : Maker ι) (bench : Bench ι) :
    Reads (fun n => bench.AllFormed openers → n.Formed openers) maker.make bench := by
  cases maker with
  | token t => exact .pure fun _ => trivial
  | values vs =>
    exact (reads_built (ComponentValue.builds_assembleAll vs)).bind fun _ h => .pure fun _ => h
  | block opener => exact (reads_built (Block.builds_ofOpener opener)).bind fun _ h => .pure fun _ => h
  | function name =>
    exact (reads_built (FunctionCall.builds_ofName name)).bind fun _ h => .pure fun _ => h
  | functionNamed name => exact .pure fun _ => .function rfl (List.forall_mem_nil _)
  | atRule keyword =>
    exact (reads_built (AtRule.builds_ofKeyword keyword)).bind fun _ h => .pure fun _ => h
  | atRuleNamed name => exact .pure fun _ => ⟨rfl, List.forall_mem_nil _, by rintro _ ⟨⟩⟩
  | qualified position =>
    exact .pure fun _ => ⟨List.forall_mem_nil _, ho.leftBrace, List.forall_mem_nil _⟩
  | declaration name =>
    exact (reads_built (Declaration.builds_ofName name)).bind fun _ h => .pure fun _ => h
  | declarations => exact .pure fun _ => List.forall_mem_nil _
  | rules => exact .pure fun _ => List.forall_mem_nil _
  | copy source => exact (reads_node source bench).mono fun n hn h => h.node hn
  | contents source =>
    refine (reads_view Node.values? source bench).bind fun vs ⟨n, hn, hvs⟩ => .pure fun h => ?_
    exact (h.node hn).values? vs hvs
  | member source index =>
    refine (reads_view _ source bench).mono fun m ⟨n, hn, hm⟩ h => ?_
    exact (h.node hn).members m (List.mem_of_getElem? hm)
  | blockOf source =>
    refine (reads_view Node.block? source bench).bind fun b ⟨n, hn, hb⟩ => .pure fun h => ?_
    exact (h.node hn).block? ho b hb
  | nested source opener depth =>
    refine (reads_view Node.value? source bench).bind fun v hv => ?_
    split
    case isTrue hopens =>
      obtain ⟨n, hn, hv⟩ := hv
      refine .pure fun h => List.forall_mem_singleton.2 ?_
      exact ComponentValue.formed_nest hopens ((h.node hn).value? v hv) depth
    case isFalse => exact reads_built .error

/-- What goes into a list has a property if what is seen of formed nodes has it. -/
theorem ListChange.reads_edit {P : α → Prop} {item : Node → Option α} {list : Node → Option (List α)}
    (hitem : ∀ n : Node, n.Formed openers → ∀ a, item n = some a → P a)
    (hlist : ∀ n : Node, n.Formed openers → ∀ as, list n = some as → ∀ a ∈ as, P a)
    (isWhitespace : α → Bool) (change : ListChange ι) (bench : Bench ι) :
    Reads (fun edit => bench.AllFormed openers → edit.Brings P)
      (change.edit (view item) (view list) isWhitespace) bench := by
  cases change with
  | add source | insert index source =>
    refine (reads_view item source bench).bind fun a ⟨n, hn, ha⟩ => .pure fun h => ?_
    exact hitem n (h.node hn) a ha
  | replace source =>
    refine (reads_view list source bench).bind fun as ⟨n, hn, has⟩ => .pure fun h => ?_
    exact hlist n (h.node hn) as has
  | _ => exact .pure fun _ => trivial

/-- What goes into a list of values is formed if all nodes on the bench are. -/
theorem reads_valuesEdit (change : ListChange ι) (bench : Bench ι) :
    Reads (fun edit => bench.AllFormed openers → edit.Brings ComponentValue.Formed)
      (valuesEdit change) bench :=
  change.reads_edit (fun _ => Node.Formed.value?) (fun _ => Node.Formed.values?) _ bench

/-! ### What is written -/

/-- Whether the block that a change writes over the block of a rule has an opening token of one of some
kinds. No other change has to be asked. -/
def Change.Fits (openers : TokenKind → Prop) (bench : Bench ι) (n : Node) : Change ι → Prop
  | replaceBlock source =>
    ∀ r, n = .rule r → r.block? ≠ none → ∀ b, bench.Shows Node.block? source b → openers b.opener.kind
  | _ => True

/-- Whether the block that a step writes over the block of a rule has an opening token of one of some
kinds. -/
def Step.Fits (openers : TokenKind → Prop) (bench : Bench ι) : Step ι → Prop
  | make _ _ => True
  | change name c => ∀ n, bench.node name = .ok n → c.Fits openers bench n

/-- No step writes over the block of a rule another one that is not in braces. -/
def Careful (steps : List (Step ι)) : Prop :=
  ∀ before step, before ++ [step] <+: steps → step.Fits (· = .leftBrace) (run before)

/-- What a change brings from a bench into a node is formed. -/
theorem Change.reads_edit (ho : TokenKind.Openers openers) (n : Node) (c : Change ι)
    (bench : Bench ι) :
    Reads (fun e => bench.AllFormed openers → c.Fits openers bench n → e.Formed openers n)
      (c.edit n) bench := by
  cases c with
  | contents change =>
    cases n with
    | declarations ds =>
      exact (change.reads_edit (fun _ => Node.Formed.declaration?) (fun _ => Node.Formed.declarations?)
        _ bench).bind fun _ he => .pure fun h _ => he h
    | rules rs =>
      exact (change.reads_edit (fun _ => Node.Formed.rule?) (fun _ => Node.Formed.rules?)
        _ bench).bind fun _ he => .pure fun h _ => he h
    | _ => exact (reads_valuesEdit change bench).bind fun _ he => .pure fun h _ => he h
  | block change => exact (reads_valuesEdit change bench).bind fun _ he => .pure fun h _ => he h
  | replaceBlock source =>
    refine (reads_view Node.block? source bench).bind fun b hb => .pure fun h hfits r hr hblock => ?_
    obtain ⟨m, hm, hmb⟩ := hb
    have hformed := (h.node hm).block? ho b hmb
    exact ⟨hfits r hr hblock b ⟨m, hm, hmb⟩, hformed.of_mem_contents⟩
  | setBlock source =>
    cases source with
    | none => exact .pure fun _ _ => by rintro _ ⟨⟩
    | some source =>
      refine (reads_view Node.block? source bench).bind fun b ⟨m, hm, hb⟩ => .pure fun h _ => ?_
      rintro _ ⟨⟩
      exact (h.node hm).block? ho b hb
  | setImportant important => exact .pure fun _ _ => trivial
  | setComments comments => exact .pure fun _ _ => trivial

/-- **A step keeps the nodes on a bench formed**, unless it writes another sort of block over that of a
rule. If it fails, it leaves the bench as it was. -/
theorem yields_perform (ho : TokenKind.Openers openers) (step : Step ι) (bench : Bench ι) :
    Yields (fun _ after => bench.AllFormed openers → step.Fits openers bench →
      after.AllFormed openers) (perform step) bench := by
  cases step with
  | make name maker =>
    exact .bind (reads_make ho maker bench) fun n hn => .modify fun h _ => h.put (hn h)
  | change name c =>
    refine .bind (reads_node name bench) fun n hn => .bind (c.reads_edit ho n bench) fun e he => ?_
    refine .within (fun m hm => ?_) fun _ => .throw
    obtain rfl : n = m := Option.some.inj ((node_eq_ok_iff.1 hn).symm.trans hm)
    refine .adaptExcept ((Node.yields_edit ho e n).mono fun _ new hnew h hfits => ?_)
    exact h.put (hnew (h.node hn) (he h (hfits n hn)))

/-- What a step makes of a bench, and what the bench was before, the bench is afterwards. -/
theorem after_of_yields {P : Bench ι → Prop} {step : Step ι}
    (h : Yields (fun _ after => P after) (perform step) bench) (hbench : P bench) :
    P (bench.after step) := by
  unfold Yields at h
  unfold after
  cases hrun : (perform step).run bench with
  | ok _ bench' => rwa [hrun] at h
  | error e bench' =>
    rw [hrun] at h
    exact h ▸ hbench

/-- The nodes on a bench are still formed after a step that fits. -/
theorem AllFormed.after (h : bench.AllFormed openers) (ho : TokenKind.Openers openers)
    {step : Step ι} (hfits : step.Fits openers bench) : (bench.after step).AllFormed openers :=
  after_of_yields ((yields_perform ho step bench).mono fun _ _ hafter => hafter h hfits) h

/-- A step has no effect on what stands under other names, copied or not. -/
theorem node_after_of_ne {step : Step ι} {other : ι} (hother : other ≠ step.name) :
    (bench.after step).node other = bench.node other := by
  refine after_of_yields (P := fun after => after.node other = bench.node other) ?_ rfl
  cases step with
  | make name maker =>
    exact .bind (reads_make TokenKind.openers_isBracket maker bench) fun n _ =>
      .modify (node_put_of_ne hother)
  | change name c =>
    refine .bind (reads_node name bench) fun n _ =>
      .bind (c.reads_edit TokenKind.openers_isBracket n bench) fun e _ =>
        .within (fun m _ => ?_) fun _ => .throw
    exact .adaptExcept ((Node.yields_edit TokenKind.openers_isBracket e m).mono fun _ _ _ =>
      node_put_of_ne hother)

/-- Any block on a bench of formed nodes has a bracket for its opening token. -/
theorem AllFormed.fits (h : bench.AllFormed TokenKind.IsBracket) (step : Step ι) :
    step.Fits TokenKind.IsBracket bench := by
  cases step with
  | make name maker => trivial
  | change name c =>
    intro n _
    cases c with
    | replaceBlock source =>
      rintro _ _ _ b ⟨m, hm, hb⟩
      exact ((h.node hm).block? TokenKind.openers_isBracket b hb).isBracket
    | _ => trivial

/-- The block that a step writes over the block of a rule is there afterwards, whatever opens it. -/
theorem after_replaceBlock {r : Rule} {b : Block} (hr : bench.node name = .ok (.rule r))
    (hblock : r.block? ≠ none) (hb : bench.Shows Node.block? source b) :
    bench.after (.change name (.replaceBlock source)) = put name (.rule (r.putBlock b)) bench := by
  obtain ⟨m, hm, hmb⟩ := hb
  obtain ⟨old, hold⟩ := Option.ne_none_iff_exists'.1 hblock
  have hview : (view Node.block? source).run bench = .ok b bench := by
    rw [view, EStateM.run_bind, run_consult, hm]
    dsimp only
    rw [hmb]
    rfl
  have hblockPart : Rule.blockAccess.part? r = some old := hold
  have hedit : (Edit.replaceBlock b).perform.run (.rule r) = .ok () (.rule (r.putBlock b)) := by
    rw [Edit.perform, Access.run_within_of_some rfl, Access.run_within_of_some hblockPart]
    rfl
  have hnode : (nodeAccess name).part? bench = some (.rule r) := node_eq_ok_iff.1 hr
  have hrun : (perform (.change name (.replaceBlock source))).run bench =
      .ok () (put name (.rule (r.putBlock b)) bench) := by
    rw [perform, EStateM.run_bind, run_consult, hr]
    dsimp only
    rw [Change.edit, EStateM.run_bind, EStateM.run_bind, hview]
    dsimp only
    rw [EStateM.run_pure]
    dsimp only
    rw [Access.run_within_of_some hnode, EStateM.run_adaptExcept, hedit]
    rfl
  rw [after, hrun]

/-! ### Runs -/

/-- Further steps are made on the bench that the first ones left. -/
theorem run_append (steps more : List (Step ι)) :
    run (steps ++ more) = more.foldl after (run steps) := by
  rw [run, run, List.foldl_append]

/-- So is the last one. -/
theorem run_concat (steps : List (Step ι)) (step : Step ι) :
    run (steps ++ [step]) = (run steps).after step :=
  run_append steps [step]

/-- After any steps all nodes on the bench are formed, but for the brackets of the blocks of rules. -/
theorem allFormed_run (steps : List (Step ι)) : (run steps).AllFormed TokenKind.IsBracket := by
  induction steps using List.reverseRecOn with
  | nil => exact List.forall_mem_nil _
  | append_singleton steps step ih =>
    rw [run_concat]
    exact ih.after TokenKind.openers_isBracket (ih.fits step)

/-- Careful steps are careful from their first one on. -/
theorem Careful.of_prefix {before steps : List (Step ι)} (h : Careful steps)
    (hinit : before <+: steps) : Careful before := fun earlier step hearlier =>
  h earlier step (hearlier.trans hinit)

/-- Steps are careful if they are so before the last one, and that one fits. -/
theorem careful_concat {steps : List (Step ι)} {step : Step ι} :
    Careful (steps ++ [step]) ↔ Careful steps ∧ step.Fits (· = .leftBrace) (run steps) := by
  constructor
  · exact fun h => ⟨h.of_prefix (List.prefix_append _ _), h steps step List.prefix_rfl⟩
  · rintro ⟨h, hfits⟩ before last hinit
    obtain heq | hinit := List.prefix_concat_iff.1 hinit
    · obtain ⟨rfl, rfl⟩ := List.append_singleton_inj.1 heq
      exact hfits
    · exact h before last hinit

/-- Steps that write no block over that of a rule are careful, whatever else they do. -/
theorem careful_of_forall {steps : List (Step ι)}
    (h : ∀ step ∈ steps, ∀ bench, step.Fits (· = .leftBrace) bench) : Careful steps :=
  fun before step hinit => h step (hinit.subset (List.mem_append_right _ (.head _))) (run before)

/-- After careful steps those brackets are braces. -/
theorem Careful.allFormed_run {steps : List (Step ι)} (h : Careful steps) :
    (run steps).AllFormed (· = .leftBrace) := by
  induction steps using List.reverseRecOn with
  | nil => exact List.forall_mem_nil _
  | append_singleton steps step ih =>
    obtain ⟨hsteps, hfits⟩ := careful_concat.1 h
    rw [run_concat]
    exact (ih hsteps).after TokenKind.openers_leftBrace hfits

/-- A step that writes over the block of a rule another one that is not in braces leaves a rule on the
bench that is not braced. -/
theorem fits_of_braced {step : Step ι}
    (h : ∀ entry ∈ bench.after step, ∀ r ∈ entry.2.rulesIn, r.Braced) :
    step.Fits (· = .leftBrace) bench := by
  cases step with
  | make name maker => trivial
  | change name c =>
    intro n hn
    cases c with
    | replaceBlock source =>
      rintro r rfl hblock b hb
      rw [after_replaceBlock hn hblock hb] at h
      have hbraced := h _ (mem_put name _ bench) _ (.head _)
      exact Block.isBraces_iff.1 (hbraced b (Rule.block?_putBlock b))
    | _ => trivial

/-- All rules are braced at all times exactly if the steps are careful. -/
theorem careful_iff (steps : List (Step ι)) :
    Careful steps ↔
      ∀ before, before <+: steps → ∀ entry ∈ run before, ∀ r ∈ entry.2.rulesIn, r.Braced := by
  constructor
  · intro h before hinit entry hentry r hr
    exact (((h.of_prefix hinit).allFormed_run entry hentry).rulesIn r hr).braced
  · intro h before step hinit
    refine fits_of_braced fun entry hentry => h _ hinit entry ?_
    rwa [run_concat]

/-- **What is built by hand is well formed, but for a block that is written over that of a rule.** After
any steps every node on the bench is formed: each block in it, however deep, ends in the bracket that
matches its opening one, and each rule ends in a semicolon or a right brace exactly if its block is in
braces. So are the blocks of all rules at all times exactly if no step writes another sort of block over
one of them. A step that fails leaves the whole bench as it was. -/
theorem formed_run :
    (∀ steps : List (Step ι), ∀ entry ∈ run steps, entry.2.Formed TokenKind.IsBracket ∧
      (∀ v ∈ entry.2.outerValues, ∀ o ∈ v.occurrences [], ∀ opener contents,
        o.node = .block opener contents →
          (opener.kind, (blockEnd opener).kind) ∈ TokenKind.brackets) ∧
      ∀ r ∈ entry.2.rulesIn, ∃ t, r.tokens.getLast? = some t ∧
        (t.kind = .semicolon ∨ t.kind = .rightBrace ↔ r.Braced)) ∧
    (∀ steps : List (Step ι), Careful steps ↔
      ∀ before, before <+: steps → ∀ entry ∈ run before, ∀ r ∈ entry.2.rulesIn, r.Braced) ∧
    ∀ (step : Step ι) (bench after : Bench ι) (e : StepError),
      (perform step).run bench = .error e after → after = bench := by
  refine ⟨fun steps entry hentry => ?_, careful_iff, fun step bench after e herror => ?_⟩
  · have h := allFormed_run steps entry hentry
    refine ⟨h, fun v hv o ho opener contents heq => ?_, fun r hr => ?_⟩
    · have hblock := (h.outerValues TokenKind.openers_isBracket v hv).of_mem_occurrences [] o ho
      rw [heq] at hblock
      exact TokenKind.mem_brackets hblock.isBracket
    · exact (h.rulesIn r hr).getLast?_tokens TokenKind.openers_isBracket
  · exact (yields_perform TokenKind.openers_isBracket step bench).of_run_eq_error herror

/-- A rule `@media` gets a block in parentheses into its prelude, and a block in braces. Then another
block in braces is written over that one, with a block in parentheses in it. When the block in parentheses
is to be the block of the rule, the step fails. -/
theorem formed_run_media :
    let parens : Block := { opener := Token.of .leftParen "" }
    let braces : Block := { opener := Token.of .leftBrace "", contents := [parens.value] }
    let rule : Rule := .atRule
      { keyword := Token.of .atKeyword "media", prelude := [parens.value], block := some braces }
    let steps : List (Step Nat) :=
      [.make 0 (.block parens.opener), .make 1 (.atRuleNamed "media"), .change 1 (.contents (.add 0)),
        .make 2 (.block braces.opener), .change 1 (.setBlock (some 2)), .change 2 (.contents (.add 0))]
    let write : Step Nat := .change 1 (.replaceBlock 2)
    let refused : Step Nat := .change 1 (.setBlock (some 0))
    let error : StepError := .edit (.node .atRuleBlockDelimiter)
    ((1, .rule rule) ∈ run (steps ++ [write]) ∧ rule.Formed TokenKind.IsBracket ∧
      (TokenKind.leftParen, (blockEnd parens.opener).kind) ∈ TokenKind.brackets ∧
      Careful (steps ++ [write]) ∧ rule.Braced ∧
      ∃ t, rule.tokens.getLast? = some t ∧ (t.kind = .semicolon ∨ t.kind = .rightBrace)) ∧
    ∃ after, (perform refused).run (run steps) = .error error after ∧ after = run steps := by
  intro parens braces rule steps write refused error
  let empty : Block := { opener := braces.opener }
  let bare : AtRule := { keyword := Token.of .atKeyword "media", prelude := [parens.value] }
  -- the run is evaluated in two parts, as each step looks at all that came before it
  have hmade : run (steps.take 4) =
      [(0, .block parens), (1, .rule (.atRule bare)), (2, .block empty)] := rfl
  have hbefore : run steps = [(0, .block parens),
      (1, .rule (.atRule { bare with block := some empty })), (2, .block braces)] := by
    have hsplit := run_append (steps.take 4) (steps.drop 4)
    rw [List.take_append_drop] at hsplit
    rw [hsplit, hmade]
    rfl
  have hrun : run (steps ++ [write]) = [(0, .block parens), (1, .rule rule), (2, .block braces)] := by
    rw [run_concat, hbefore]
    rfl
  have hrefused : (perform refused).run (run steps) = .error error (run steps) := by
    rw [hbefore]
    rfl
  have hrule : (1, .rule rule) ∈ run (steps ++ [write]) := hrun ▸ .tail _ (.head _)
  have hbraces : braces.value ∈ (Node.rule rule).outerValues := .tail _ (.tail _ (.head _))
  have hparens : ⟨parens.value, [braces.value]⟩ ∈ braces.value.occurrences [] := .tail _ (.head _)
  have hcareful : Careful (steps ++ [write]) := by
    rw [careful_concat]
    refine ⟨careful_of_forall fun step hstep bench => ?_, ?_⟩
    · simp only [steps, List.mem_cons, List.not_mem_nil, or_false] at hstep
      rcases hstep with rfl | rfl | rfl | rfl | rfl | rfl
      all_goals simp [Step.Fits, Change.Fits]
    · rintro n - r - - b ⟨m, hm, hb⟩
      rw [hbefore] at hm
      obtain rfl : .block braces = m := Except.ok.inj hm
      obtain rfl : braces = b := Option.some.inj hb
      rfl
  obtain ⟨hnodes, hbraced_iff, hfail⟩ := formed_run (ι := Nat)
  obtain ⟨hformed, hblocks, hrules⟩ := hnodes _ _ hrule
  have hbraced : rule.Braced :=
    (hbraced_iff _).1 hcareful _ List.prefix_rfl _ hrule rule (.head _)
  obtain ⟨t, hlast, hkind⟩ := hrules rule (.head _)
  exact ⟨⟨hrule, hformed, hblocks _ hbraces _ hparens _ _ rfl, hcareful, hbraced, t, hlast,
    hkind.2 hbraced⟩, run steps, hrefused, hfail refused _ _ error hrefused⟩

/-- A block in parentheses cannot be set as the block of a rule, but be written over it. The rule then
ends in a right parenthesis. -/
theorem run_parens :
    let parens : Block := { opener := Token.of .leftParen "" }
    let rule : Rule := .qualified { block := parens }
    let steps : List (Step Nat) := [.make 0 (.block parens.opener), .make 1 (.qualified Position.unknown)]
    let set : Step Nat := .change 1 (.setBlock (some 0))
    let write : Step Nat := .change 1 (.replaceBlock 0)
    let error : StepError := .edit (.node .qualifiedRuleBlockDelimiter)
    (perform set).run (run steps) = .error error (run steps) ∧
    (1, .rule rule) ∈ run (steps ++ [write]) ∧ ¬rule.Braced ∧
    ∃ t, rule.tokens.getLast? = some t ∧ ¬(t.kind = .semicolon ∨ t.kind = .rightBrace) := by
  intro parens rule steps set write error
  have hsteps : run steps = [(0, .block parens), (1, .rule (.qualified {}))] := rfl
  have hset : (perform set).run (run steps) = .error error (run steps) := by
    rw [hsteps]
    rfl
  have hrun : run (steps ++ [write]) = [(0, .block parens), (1, .rule rule)] := by
    rw [run_concat, hsteps]
    rfl
  have hrule : (1, .rule rule) ∈ run (steps ++ [write]) := hrun ▸ .tail _ (.head _)
  refine ⟨hset, hrule, fun hbraced => ?_, Token.of .rightParen "", rfl, by decide⟩
  have hbraces : parens.isBraces = true := hbraced parens rfl
  revert hbraces
  decide

end Bench

end StyleGate
