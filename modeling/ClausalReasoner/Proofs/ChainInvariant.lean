/-
This file carries a property of chains through model elimination. The search makes chains from those
it begins with by reducing, cancelling and dropping, and the proofs that the procedure reports are
backed by chains that are derived in this way. A property that survives substitution, reduction,
cancellation and dropping is therefore one of every chain behind a proof, however many steps were
made and in whatever order.

What a chain says is not just that one of its plain literals holds. A reduced literal may only be
used to cancel a head because it was once the head itself: if it does not hold, one of the plain
literals behind it does. This must be true of every reduced literal, and the whole is preserved.
-/

import ClausalReasoner.Proofs.BackedAnswers
import ClausalReasoner.Proofs.EqualReplacement

namespace ClausalReasoner

universe u

/-- A property of the literals of chains that the rules of model elimination preserve. -/
structure ChainInvariant (holds : List Literal → Prop) : Prop where
  instantiate : ∀ ls θ, holds ls → holds (Literal.substituteList θ ls)
  reduce : ∀ head rest other others θ, head.polarity ≠ other.polarity →
    head.atom.substitute θ = other.atom.substitute θ → holds (head :: rest) →
      holds (other :: others) →
        holds (Literal.substituteList θ (others ++ head.reduce :: rest))
  cancel : ∀ head rest l θ, l ∈ rest → l.reduced → l.polarity ≠ head.polarity →
    head.atom.substitute θ = l.atom.substitute θ → holds (head :: rest) →
      holds (Literal.substituteList θ rest)
  drop : ∀ head rest, head.reduced → holds (head :: rest) → holds rest

variable {holds : List Literal → Prop}

/-- Every chain of a list has a property. -/
def AllChainsHold (holds : List Literal → Prop) (chains : List Chain) : Prop :=
  ∀ chain ∈ chains, holds chain.literals

namespace ChainInvariant

/-! ### Rules for chains -/

theorem perm_of_mem_rotations {Element : Type} {before after rotation : List Element}
    (member : rotation ∈ Session.rotations before after) : rotation.Perm (before ++ after) := by
  induction after generalizing before with
  | nil => exact absurd member List.not_mem_nil
  | cons element after inductionHypothesis =>
    rcases List.mem_cons.1 member with rfl | later
    · exact List.perm_middle.symm
    · have rotated := inductionHypothesis later
      rwa [List.append_assoc] at rotated

/-- The contrapositives of a chain are permutations of it. -/
theorem contrapositives {chain : Chain}
    (permuted : ∀ ls : List Literal, ls.Perm chain.literals → holds ls) (session : Session) :
    AllChainsHold holds (session.contrapositives chain).1 := by
  intro made member
  refine foldl_invariant
    (fun collected : List Chain × Session => AllChainsHold holds collected.1)
    (fun collected ls inside all => ?_) (fun _ none => absurd none List.not_mem_nil) made
    (List.mem_reverse.1 member)
  exact List.forall_mem_cons.2
    ⟨permuted ls (perm_of_mem_rotations (List.mem_of_mem_tail inside)), all⟩

theorem chainsOf {cs : List Clause}
    (permuted : ∀ c ∈ cs, ∀ ls : List Literal, ls.Perm c.literals → holds ls)
    (session : Session) : AllChainsHold holds (ModelElimination.chainsOf session cs).1 := by
  intro chain member
  obtain ⟨group, inside, there⟩ := List.mem_flatten.1 member
  refine Session.forall_mem_mapList
    (fun c : Clause => ∀ ls : List Literal, ls.Perm c.literals → holds ls)
    (AllChainsHold holds) (fun session c given => ?_) session cs permuted group inside chain there
  exact List.forall_mem_cons.2 ⟨given c.literals (.refl _), contrapositives given _⟩

variable (invariant : ChainInvariant holds)

include invariant

theorem renameChain {chain : Chain} (given : holds chain.literals) (session : Session) :
    holds (session.renameChain chain).1.literals := by
  rw [Session.renameChain]
  dsimp only
  rw [Chain.renamed]
  split
  · exact given
  · exact invariant.instantiate _ _ given

theorem reduction {near far : Chain} (givenNear : holds near.literals)
    (givenFar : holds far.literals) {θ : Substitution} {ls : List Literal}
    (found : Session.reduction near far = some (θ, ls)) : holds ls := by
  obtain ⟨head, nearHead, rest⟩ := Option.bind_eq_some_iff.1 found
  obtain ⟨other, farHead, reduced⟩ := Option.bind_eq_some_iff.1 rest
  split at reduced
  · exact absurd reduced nofun
  · next opposite =>
    obtain ⟨unifier, unified, same⟩ := Option.map_eq_some_iff.1 reduced
    obtain ⟨rfl, rfl⟩ := Prod.mk.inj same
    obtain ⟨nearTail, nearLiterals⟩ := List.head?_eq_some_iff.1 nearHead
    obtain ⟨farTail, farLiterals⟩ := List.head?_eq_some_iff.1 farHead
    have made := invariant.reduce head nearTail other farTail unifier opposite
      (Atom.substitute_eq_of_unify unified) (nearLiterals ▸ givenNear) (farLiterals ▸ givenFar)
    rwa [Chain.tail, Chain.tail, nearLiterals, farLiterals]

theorem reduceChains {near far reduced : Chain} (givenNear : holds near.literals)
    (givenFar : holds far.literals) {session : Session}
    (found : (session.reduceChains near far).1 = some reduced) : holds reduced.literals := by
  have renamed := invariant.renameChain givenFar session
  rw [Session.reduceChains] at found
  split at found
  · exact absurd found nofun
  · dsimp only at found
    split at found
    · exact absurd found nofun
    · next θ ls resolved =>
      rw [← Option.some.inj found]
      exact invariant.reduction givenNear renamed resolved

theorem cancelHead {chain cancelled : Chain} (given : holds chain.literals)
    {session recorded : Session} (found : session.cancelHead chain = some (cancelled, recorded)) :
    holds cancelled.literals := by
  obtain ⟨head, first, rest⟩ := Option.bind_eq_some_iff.1 found
  obtain ⟨θ, cancels, concluded⟩ := Option.map_eq_some_iff.1 rest
  obtain ⟨tail, literals⟩ := List.head?_eq_some_iff.1 first
  obtain ⟨l, member, attempt⟩ := List.exists_of_findSome?_eq_some cancels
  have isTail : chain.tail = tail := by rw [Chain.tail, literals, List.tail_cons]
  split at attempt
  · next contradicts =>
    obtain ⟨isReduced, opposite⟩ := (Bool.and_eq_true _ _).mp contradicts
    obtain rfl := congrArg Prod.fst concluded
    have made := invariant.cancel head tail l θ (isTail ▸ member) isReduced
      (of_decide_eq_true opposite) (Atom.substitute_eq_of_unify attempt) (literals ▸ given)
    exact isTail ▸ made
  · exact absurd attempt (by simp)

theorem dropHead {chain dropped : Chain} (given : holds chain.literals)
    {session recorded : Session} (found : session.dropHead chain = some (dropped, recorded)) :
    holds dropped.literals := by
  obtain ⟨head, first, rest⟩ := Option.bind_eq_some_iff.1 found
  obtain ⟨tail, literals⟩ := List.head?_eq_some_iff.1 first
  have isTail : chain.tail = tail := by rw [Chain.tail, literals, List.tail_cons]
  split at rest
  · next isReduced =>
    obtain rfl := congrArg Prod.fst (Option.some.inj rest)
    have made := invariant.drop head tail isReduced (literals ▸ given)
    exact isTail ▸ made
  · exact absurd rest nofun

end ChainInvariant

/-! ### Derived chains -/

/-- The chains that are made from given ones by any number of steps: a chain is reduced with
another one, or its head is cancelled or dropped. The indices in use may be any at every step. -/
inductive Chain.DerivedFrom (starts : List Chain) : Chain → Prop
  | start {chain : Chain} (member : chain ∈ starts) : DerivedFrom starts chain
  | reduced {near far reduced : Chain} {session : Session} (fromNear : DerivedFrom starts near)
      (fromFar : DerivedFrom starts far)
      (found : (session.reduceChains near far).1 = some reduced) : DerivedFrom starts reduced
  | cancelled {chain cancelled : Chain} {session recorded : Session}
      (fromChain : DerivedFrom starts chain)
      (found : session.cancelHead chain = some (cancelled, recorded)) :
      DerivedFrom starts cancelled
  | dropped {chain dropped : Chain} {session recorded : Session}
      (fromChain : DerivedFrom starts chain)
      (found : session.dropHead chain = some (dropped, recorded)) : DerivedFrom starts dropped

/-- Some chain that is derived from given ones has exactly these literals. -/
def Literal.DerivedFrom (starts : List Chain) (ls : List Literal) : Prop :=
  ∃ chain : Chain, chain.DerivedFrom starts ∧ chain.literals = ls

/-- A property that the rules preserve passes from the given chains to all derived ones. -/
theorem ChainInvariant.derivedFrom (invariant : ChainInvariant holds) {starts : List Chain}
    (all : AllChainsHold holds starts) {chain : Chain} (derived : chain.DerivedFrom starts) :
    holds chain.literals := by
  induction derived with
  | start member => exact all _ member
  | reduced _ _ found near far => exact invariant.reduceChains near far found
  | cancelled _ found given => exact invariant.cancelHead given found
  | dropped _ found given => exact invariant.dropHead given found

/-- Cancelling and dropping as long as possible is a number of steps. -/
theorem Chain.DerivedFrom.settleChain {starts : List Chain} (times : Nat) (session : Session)
    {chain : Chain} (derived : chain.DerivedFrom starts) :
    (Session.settleChain times session chain).1.DerivedFrom starts := by
  induction times generalizing session chain with
  | zero => exact derived
  | succ times inductionHypothesis =>
    rw [Session.settleChain]
    split
    · next cancelled recorded found =>
      exact inductionHypothesis recorded (.cancelled derived found)
    · split
      · next dropped recorded found => exact inductionHypothesis recorded (.dropped derived found)
      · exact derived

/-! ### The search -/

namespace ModelElimination

/-- The books, which are those of a given refutation, are backed by derived chains. -/
structure State.Keeps (state : State) (chains : List Chain) (book : AnswerBook) : Prop where
  backed : state.book.Backed (Literal.DerivedFrom chains)
  sameQuery : book.SameQuery state.book

variable {book : AnswerBook} {state : State} {chains starts : List Chain}

/-- Every step of the search keeps the books backed. -/
theorem stepInvariant_keeps (chains : List Chain) (book : AnswerBook) :
    StepInvariant chains (fun state => state.Keeps chains book) (Chain.DerivedFrom chains) where
  reach kept _ := ⟨kept.backed, kept.sameQuery⟩
  fail kept _ _ _ := ⟨kept.backed, kept.sameQuery⟩
  settle {state near far reduced session} kept derived among found := by
    have made := derived.reduced (.start among) (congrArg Prod.fst found)
    have settled : (session.settle reduced).1.DerivedFrom chains :=
      made.settleChain reduced.size session
    have checks := state.book.checks_check (session.settle reduced).2
      (session.settle reduced).1.literals (session.settle reduced).1.origin
      (.chain (session.settle reduced).1.literals)
    exact ⟨⟨checks.backed kept.backed ⟨_, settled, rfl⟩, kept.sameQuery.trans checks.sameQuery⟩,
      settled⟩

theorem keeps_deepen (among : starts ⊆ chains) {fuel bound : Nat} {last : State}
    (keeps : state.Keeps chains book) (ran : deepen chains starts fuel bound state = some last) :
    last.Keeps chains book :=
  (stepInvariant_keeps chains book).deepen keeps (fun _ start => .start (among start)) ran

/-- The chains of the stored clauses and those of the goals, with the session after them. -/
def initialChains (refutation : Refutation) : List Chain × List Chain × Session :=
  let background := chainsOf refutation.session
    (backgroundClauses refutation.kb.clauses.toList)
  let starts := chainsOf background.2 refutation.goals
  (background.1, starts.1, starts.2)

/-- All chains that the search begins with, those of the goals first. -/
def chainsFor (refutation : Refutation) : List Chain :=
  (initialChains refutation).2.1 ++ (initialChains refutation).1

theorem ask_eq (fuel : Nat) (limit : TimeLimit) (kb : KnowledgeBase) (query : Sentence) :
    ask fuel limit kb query =
      (deepen (chainsFor (kb.refute query limit)) (initialChains (kb.refute query limit)).2.1 fuel 1
        { book := (kb.refute query limit).book
          session := (initialChains (kb.refute query limit)).2.2 }).map fun state =>
            (state.book.outcome, (kb.refute query limit).kb.afterSession state.session) := by
  unfold ask
  generalize kb.refute query limit = refutation
  obtain ⟨book, goals, session, refuted⟩ := refutation
  rfl

/-- Every proof that model elimination reports is backed by a chain that is derived from the chains
of the stored clauses and of the goals. -/
theorem backs_of_ask {fuel : Nat} {limit : TimeLimit} {kb last : KnowledgeBase} {query : Sentence}
    {answer : Answer} (isNew : (kb.refute query limit).book.IsNew)
    (asked : ask fuel limit kb query = some (.ok answer, last)) :
    ∀ proof ∈ answer.proofs, (kb.refute query limit).book.Backs
      (Literal.DerivedFrom (chainsFor (kb.refute query limit))) proof.bindings := by
  rw [ask_eq] at asked
  generalize kb.refute query limit = refutation at isNew asked ⊢
  obtain ⟨state, ran, outcome⟩ := Option.map_eq_some_iff.1 asked
  have keeps := keeps_deepen (List.subset_append_left _ _)
    ⟨isNew.backed, .refl refutation.book⟩ ran
  rw [AnswerBook.proofs_of_outcome (congrArg Prod.fst outcome)]
  exact fun proof member =>
    (keeps.sameQuery.backs_iff proof.bindings).1 (keeps.backed.proofs proof member)

/-- If model elimination fails, there is an answer predicate, and the empty chain is derived. -/
theorem derivedFrom_nil_of_ask {fuel : Nat} {limit : TimeLimit} {kb last : KnowledgeBase}
    {query : Sentence} {failure : Failure} (isNew : (kb.refute query limit).book.IsNew)
    (asked : ask fuel limit kb query = some (.error failure, last)) :
    (kb.refute query limit).book.predicate ≠ none ∧
      Literal.DerivedFrom (chainsFor (kb.refute query limit)) [] := by
  rw [ask_eq] at asked
  generalize kb.refute query limit = refutation at isNew asked ⊢
  obtain ⟨state, ran, outcome⟩ := Option.map_eq_some_iff.1 asked
  have keeps := keeps_deepen (List.subset_append_left _ _)
    ⟨isNew.backed, .refl refutation.book⟩ ran
  exact keeps.sameQuery.predicate ▸
    keeps.backed.contradiction (AnswerBook.inconsistent_of_outcome (congrArg Prod.fst outcome))

/-- The chains that the search begins with have a property that all permutations of the stored
clauses and of the goals have. -/
theorem allChainsHold_chainsFor {refutation : Refutation}
    (stored : ∀ c ∈ refutation.kb.clauses.toList, ∀ ls : List Literal, ls.Perm c.literals → holds ls)
    (goals : ∀ c ∈ refutation.goals, ∀ ls : List Literal, ls.Perm c.literals → holds ls) :
    AllChainsHold holds (chainsFor refutation) :=
  List.forall_mem_append.2 ⟨ChainInvariant.chainsOf goals _,
    ChainInvariant.chainsOf (fun c member => stored c (List.mem_of_mem_filter member)) _⟩

end ModelElimination

/-! ### What chains say -/

section Meaning

variable {Universe : Type u} {meaning : Interpretation Universe} {values : Assignment Universe}

namespace Literal

/-- One of the plain literals holds. -/
def PlainHolds (meaning : Interpretation Universe) (values : Assignment Universe)
    (ls : List Literal) : Prop :=
  ∃ l ∈ ls, l.reduced = false ∧ l.holdsIn meaning values

/-- Every reduced literal holds, unless one of the plain literals behind it does. -/
def ReducedHold (meaning : Interpretation Universe) (values : Assignment Universe) :
    List Literal → Prop
  | [] => True
  | l :: rest => (l.reduced → l.holdsIn meaning values ∨ PlainHolds meaning values rest) ∧
      ReducedHold meaning values rest

/-- The literals of a chain are valid together when under every assignment a plain one holds and the
reduced ones may be used for cancellation. -/
def ChainValid (meaning : Interpretation Universe) (ls : List Literal) : Prop :=
  ∀ values, PlainHolds meaning values ls ∧ ReducedHold meaning values ls

theorem PlainHolds.mono {ls others : List Literal} (holds : PlainHolds meaning values ls)
    (among : ls ⊆ others) : PlainHolds meaning values others :=
  holds.elim fun l ⟨member, plain⟩ => ⟨l, among member, plain⟩

theorem reducedHold_append {front back : List Literal} (inFront : ReducedHold meaning values front)
    (behind : ReducedHold meaning values back) : ReducedHold meaning values (front ++ back) := by
  induction front with
  | nil => exact behind
  | cons l front inductionHypothesis =>
    refine ⟨fun isReduced => ?_, inductionHypothesis inFront.2⟩
    exact (inFront.1 isReduced).imp_right fun plain => plain.mono (List.subset_append_left _ _)

theorem reducedHold_of_plain {ls : List Literal} (plain : ∀ l ∈ ls, l.reduced = false) :
    ReducedHold meaning values ls := by
  induction ls with
  | nil => exact True.intro
  | cons l ls inductionHypothesis =>
    obtain ⟨first, rest⟩ := List.forall_mem_cons.1 plain
    exact ⟨fun isReduced => absurd (first.symm.trans isReduced) Bool.false_ne_true,
      inductionHypothesis rest⟩

theorem plainHolds_substituteList (θ : Substitution) (ls : List Literal) :
    PlainHolds meaning values (substituteList θ ls) ↔
      PlainHolds meaning (values.through meaning θ) ls := by
  constructor
  · rintro ⟨_, member, plain, holds⟩
    obtain ⟨l, inside, rfl⟩ := List.mem_map.1 member
    exact ⟨l, inside, plain, (l.holdsIn_substitute meaning values θ).1 holds⟩
  · rintro ⟨l, inside, plain, holds⟩
    exact ⟨l.substitute θ, List.mem_map_of_mem inside, plain,
      (l.holdsIn_substitute meaning values θ).2 holds⟩

theorem reducedHold_substituteList (θ : Substitution) (ls : List Literal) :
    ReducedHold meaning values (substituteList θ ls) ↔
      ReducedHold meaning (values.through meaning θ) ls := by
  induction ls with
  | nil => exact Iff.rfl
  | cons l rest inductionHypothesis =>
    refine and_congr (imp_congr Iff.rfl (or_congr ?_ ?_)) inductionHypothesis
    · exact l.holdsIn_substitute meaning values θ
    · exact plainHolds_substituteList θ rest

/-- The head of a chain holds, be it plain or reduced, unless a plain literal behind it does. -/
theorem head_or_plainHolds {head : Literal} {rest : List Literal}
    (plain : PlainHolds meaning values (head :: rest))
    (reduced : ReducedHold meaning values (head :: rest)) :
    head.holdsIn meaning values ∨ PlainHolds meaning values rest := by
  obtain ⟨l, member, isPlain, holds⟩ := plain
  rcases List.mem_cons.1 member with rfl | behind
  · exact Or.inl holds
  · exact Or.inr ⟨l, behind, isPlain, holds⟩

theorem plainHolds_of_reduced {head : Literal} {rest : List Literal} (isReduced : head.reduced)
    (plain : PlainHolds meaning values (head :: rest)) : PlainHolds meaning values rest := by
  obtain ⟨l, member, isPlain, holds⟩ := plain
  rcases List.mem_cons.1 member with rfl | behind
  · exact absurd (isPlain.symm.trans isReduced) Bool.false_ne_true
  · exact ⟨l, behind, isPlain, holds⟩

/-- A reduced literal of a chain holds unless a plain literal of the chain does. -/
theorem ReducedHold.of_mem {ls : List Literal} (reduced : ReducedHold meaning values ls)
    {l : Literal} (member : l ∈ ls) (isReduced : l.reduced) :
    l.holdsIn meaning values ∨ PlainHolds meaning values ls := by
  induction ls with
  | nil => exact absurd member List.not_mem_nil
  | cons first rest inductionHypothesis =>
    have wider : PlainHolds meaning values rest → PlainHolds meaning values (first :: rest) :=
      fun plain => plain.mono (List.subset_cons_self _ _)
    rcases List.mem_cons.1 member with rfl | later
    · exact (reduced.1 isReduced).imp_right wider
    · exact (inductionHypothesis reduced.2 later).imp_right wider

/-- Two literals of opposite polarity do not both hold if they have the same instance. -/
theorem not_holdsIn_of_opposite {first second : Literal} {θ : Substitution}
    (opposite : first.polarity ≠ second.polarity)
    (same : first.atom.substitute θ = second.atom.substitute θ)
    (holdsFirst : first.holdsIn meaning (values.through meaning θ)) :
    ¬ second.holdsIn meaning (values.through meaning θ) := by
  rw [← holdsIn_substitute] at holdsFirst ⊢
  obtain ⟨a, polarity, reduced⟩ := first
  obtain ⟨b, other, mark⟩ := second
  simp only [substitute, holdsIn] at same holdsFirst ⊢
  cases polarity <;> cases other
  · exact absurd rfl opposite
  · exact not_not.2 (same ▸ holdsFirst)
  · exact same ▸ holdsFirst
  · exact absurd rfl opposite

/-- A clause that is valid gives valid chains, since its literals are plain. -/
theorem chainValid_of_allValid {ls : List Literal} (valid : AllValid meaning ls)
    (plain : ∀ l ∈ ls, l.reduced = false) : ChainValid meaning ls := by
  intro values
  obtain ⟨l, member, holds⟩ := valid values
  exact ⟨⟨l, member, plain l member, holds⟩, reducedHold_of_plain plain⟩

theorem ChainValid.allValid {ls : List Literal} (valid : ChainValid meaning ls) :
    AllValid meaning ls :=
  fun values => (valid values).1.elim fun l ⟨member, _, holds⟩ => ⟨l, member, holds⟩

end Literal

/-- Validity passes from chains to what model elimination makes of them. -/
theorem chainInvariant_chainValid (meaning : Interpretation Universe) :
    ChainInvariant (Literal.ChainValid meaning) where
  instantiate ls θ valid values :=
    ⟨(Literal.plainHolds_substituteList θ ls).2 (valid _).1,
      (Literal.reducedHold_substituteList θ ls).2 (valid _).2⟩
  reduce head rest other others θ opposite same near far values := by
    obtain ⟨plainNear, reducedNear⟩ := near (values.through meaning θ)
    obtain ⟨plainFar, reducedFar⟩ := far (values.through meaning θ)
    rw [Literal.plainHolds_substituteList, Literal.reducedHold_substituteList]
    have headOrRest := Literal.head_or_plainHolds plainNear reducedNear
    refine ⟨?_, Literal.reducedHold_append reducedFar.2 ⟨fun _ => headOrRest, reducedNear.2⟩⟩
    rcases Literal.head_or_plainHolds plainFar reducedFar with otherHolds | plain
    · rcases headOrRest with headHolds | plain
      · exact absurd otherHolds (Literal.not_holdsIn_of_opposite opposite same headHolds)
      · exact plain.mono fun l member => List.mem_append_right _ (List.mem_cons_of_mem _ member)
    · exact plain.mono (List.subset_append_left _ _)
  cancel head rest l θ member isReduced opposite same valid values := by
    obtain ⟨plain, reduced⟩ := valid (values.through meaning θ)
    rw [Literal.plainHolds_substituteList, Literal.reducedHold_substituteList]
    refine ⟨?_, reduced.2⟩
    rcases Literal.head_or_plainHolds plain reduced with headHolds | behind
    · exact (reduced.2.of_mem member isReduced).resolve_left
        (Literal.not_holdsIn_of_opposite opposite.symm same headHolds)
    · exact behind
  drop head rest isReduced valid values :=
    ⟨Literal.plainHolds_of_reduced isReduced (valid values).1, (valid values).2.2⟩

end Meaning

end ClausalReasoner
