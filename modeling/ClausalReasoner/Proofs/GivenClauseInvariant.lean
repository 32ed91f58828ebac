/-
This file carries a property of clauses through the given clause procedure. What is usable and what
is in the support has the property when the stored clauses and those of the negated query have it,
since resolution, paramodulation, demodulation and factoring all preserve it, and so the proofs that
the procedure reports are backed by literals that have it.
-/

import ClausalReasoner.Proofs.BackedAnswers
import ClausalReasoner.Proofs.EqualReplacement

namespace ClausalReasoner

variable {holds : List Literal → Prop} {equations : List Atom}

namespace DemodulationInvariant

/-! ### Demodulation -/

theorem split_of_demodulateFirst {equation : Atom} {ls changed : List Literal}
    (found : demodulateFirst equation ls = some changed) :
    ∃ before l after new, ls = before ++ l :: after ∧
      ClausalReasoner.demodulate equation l.atom = some new ∧
        changed = before ++ ⟨new, l.polarity, false⟩ :: after := by
  induction ls generalizing changed with
  | nil => exact absurd found nofun
  | cons l rest inductionHypothesis =>
    rw [demodulateFirst] at found
    split at found
    · next new applies =>
      obtain rfl := Option.some.inj found
      exact ⟨[], l, rest, new, rfl, applies, rfl⟩
    · obtain ⟨later, inside, rfl⟩ := Option.map_eq_some_iff.1 found
      obtain ⟨before, m, after, new, rfl, applies, rfl⟩ := inductionHypothesis inside
      exact ⟨l :: before, m, after, new, rfl, applies, rfl⟩

variable (invariant : DemodulationInvariant equations holds)

include invariant

theorem demodulateClause {equation : Atom} (member : equation ∈ equations) {c changed : Clause}
    (given : holds c.literals) {session recorded : Session}
    (found : session.demodulateClause equation c = some (changed, recorded)) :
    holds changed.literals := by
  obtain ⟨ls, first, concluded⟩ := Option.map_eq_some_iff.1 found
  obtain ⟨before, l, after, new, split, applies, rfl⟩ := split_of_demodulateFirst first
  obtain rfl := congrArg Prod.fst concluded
  exact invariant.demodulate equation member before l after new (split ▸ given) applies

theorem demodulateTimes {equation : Atom} (member : equation ∈ equations) (times : Nat)
    (session : Session) {c : Clause} (given : holds c.literals) :
    holds (Session.demodulateTimes equation times session c).1.literals := by
  induction times generalizing session c with
  | zero => exact given
  | succ times inductionHypothesis =>
    rw [Session.demodulateTimes]
    split
    · next changed recorded found =>
      exact inductionHypothesis recorded (invariant.demodulateClause member given found)
    · exact given

theorem simplify (session : Session) {c : Clause} (given : holds c.literals) :
    holds (session.simplify equations c).1.literals :=
  foldl_invariant (fun simplified : Clause × Session => holds simplified.1.literals)
    (fun simplified _ member kept => invariant.demodulateTimes member _ simplified.2 kept) given

end DemodulationInvariant

/-! ### Paramodulation -/

namespace EqualityInvariant

variable (invariant : EqualityInvariant equations holds)

include invariant

theorem addParamodulant {collection : Collection} (all : AllHold holds collection.found)
    {site : ParamodulationSite} (proper : site.Proper) (target : holds site.target.literals)
    (source : holds site.source.literals) :
    AllHold holds (addParamodulant collection site).found := by
  rw [ClausalReasoner.addParamodulant]
  split
  · exact all
  · next θ ls found =>
    have made : holds (Clause.ofLiterals (Literal.substituteList θ ls)).literals :=
      invariant.paramodulate site θ ls proper target source found
    have renamed := invariant.toResolutionInvariant.rename made collection.session
    dsimp only
    split
    · exact all
    · exact all.cons renamed

theorem paramodulants {first second : Clause} (givenFirst : holds first.literals)
    (givenSecond : holds second.literals) (session : Session) :
    AllHold holds (session.paramodulants first second).1 := by
  have apart := invariant.toResolutionInvariant.apartFrom givenSecond session first
  intro c member
  refine foldl_invariant (fun collection : Collection => AllHold holds collection.found)
    (fun collection site inside all => ?_) AllHold.nil c (List.mem_reverse.1 member)
  rcases List.mem_append.1 inside with here | there
  · obtain ⟨proper, target, source⟩ := proper_of_mem_sitesFrom here
    exact invariant.addParamodulant all proper (target ▸ givenFirst) (source ▸ apart)
  · obtain ⟨proper, target, source⟩ := proper_of_mem_sitesFrom there
    exact invariant.addParamodulant all proper (target ▸ apart) (source ▸ givenFirst)

end EqualityInvariant

/-! ### The queue -/

namespace ClauseQueue

theorem mem_place {entry other : QueuedClause} {entries : List QueuedClause} :
    other ∈ place entry entries ↔ other = entry ∨ other ∈ entries := by
  induction entries with
  | nil => simp [place]
  | cons first rest inductionHypothesis =>
    rw [place]
    split
    · exact List.mem_cons
    · rw [List.mem_cons, inductionHypothesis, List.mem_cons]
      tauto

theorem mem_of_mem_push {q : ClauseQueue} {c member : Clause}
    (inside : member ∈ (q.push c).toList) : member ∈ q.toList ∨ member = c := by
  rw [push] at inside
  split at inside
  · exact Or.inl inside
  · obtain ⟨entry, placed, rfl⟩ := List.mem_map.1 inside
    rcases mem_place.1 placed with rfl | old
    · exact Or.inr rfl
    · exact Or.inl (List.mem_map_of_mem old)

theorem mem_of_mem_erase {q : ClauseQueue} {c member : Clause}
    (inside : member ∈ (q.erase c).toList) : member ∈ q.toList := by
  obtain ⟨entry, kept, rfl⟩ := List.mem_map.1 inside
  exact List.mem_map_of_mem (List.mem_of_mem_filter kept)

theorem toList_of_pop {q rest : ClauseQueue} {c : Clause} (popped : q.pop = some (c, rest)) :
    q.toList = c :: rest.toList := by
  obtain ⟨heuristic, entries⟩ := q
  cases entries with
  | nil => exact absurd popped nofun
  | cons first others =>
    obtain ⟨rfl, rfl⟩ := Prod.mk.inj (Option.some.inj popped)
    rfl

end ClauseQueue

namespace GivenClause

/-! ### The state -/

/-- The usable clauses and the support have the property, and the books, which are those of a given
refutation, are backed. -/
structure State.Keeps (state : State) (holds : List Literal → Prop) (book : AnswerBook) :
    Prop where
  usable : AllHold holds state.usable.toList
  support : AllHold holds state.support.toList
  backed : state.book.Backed holds
  sameQuery : book.SameQuery state.book

variable {book : AnswerBook} {state : State}

theorem State.Keeps.clauses (keeps : state.Keeps holds book) : AllHold holds state.clauses :=
  keeps.support.append keeps.usable

theorem keeps_discard (keeps : state.Keeps holds book) (c : Clause) :
    (state.discard c).Keeps holds book := by
  rw [State.discard]
  split
  · exact ⟨keeps.usable, fun member inside =>
      keeps.support member (ClauseQueue.mem_of_mem_erase inside), keeps.backed, keeps.sameQuery⟩
  · exact ⟨fun member inside => keeps.usable member (ClauseSet.mem_of_mem_erase inside),
      keeps.support, keeps.backed, keeps.sameQuery⟩

theorem allHold_push {q : ClauseQueue} (all : AllHold holds q.toList) {c : Clause}
    (given : holds c.literals) : AllHold holds (q.push c).toList := by
  intro member inside
  rcases ClauseQueue.mem_of_mem_push inside with old | rfl
  · exact all member old
  · exact given

theorem keeps_addToSupport (keeps : state.Keeps holds book) {c : Clause}
    (given : holds c.literals) : (state.addToSupport c).Keeps holds book := by
  rw [State.addToSupport]
  dsimp only
  split
  · exact keeps
  · exact foldl_invariant (fun state : State => state.Keeps holds book)
      (fun state other _ kept => keeps_discard kept other)
      ⟨keeps.usable, allHold_push keeps.support given, keeps.backed, keeps.sameQuery⟩

/-! ### Inferring -/

variable {options : GivenClauseOptions}

theorem allHold_infer (invariant : EqualityInvariant options.demodulators holds) {c : Clause}
    (given : holds c.literals) {others : List Clause} (all : AllHold holds others)
    (session : Session) : AllHold holds (infer options session c others).1 := by
  refine foldl_invariant (fun found : ClauseSet × Session => AllHold holds found.1.toList)
    (fun found other member kept => ?_) AllHold.nil
  have resolved := kept.insertAll
    (invariant.toResolutionInvariant.resolvents given (all other member) found.2)
  rw [inferPair]
  dsimp only
  split
  · exact resolved.insertAll (invariant.paramodulants given (all other member) _)
  · exact resolved

/-- What examining a clause returns has the property, if the clause has it. -/
theorem keeps_examine (invariant : EqualityInvariant options.demodulators holds)
    (keeps : state.Keeps holds book) {c : Clause} (given : holds c.literals) :
    (examine options state c).2.Keeps holds book ∧
      ∀ new, (examine options state c).1 = some (some new) → holds new.literals := by
  have simplified := invariant.simplify state.session given
  rw [examine]
  dsimp only
  split
  · exact ⟨⟨keeps.usable, keeps.support, keeps.backed, keeps.sameQuery⟩, nofun⟩
  · have checks := state.book.checks_check (state.session.simplify options.demodulators c).2
      (state.session.simplify options.demodulators c).1.literals
      (state.session.simplify options.demodulators c).1.origin
      (.clause (state.session.simplify options.demodulators c).1.literals)
    refine ⟨⟨keeps.usable, keeps.support, checks.backed keeps.backed simplified,
      keeps.sameQuery.trans checks.sameQuery⟩, fun new returned => ?_⟩
    have returned := Option.some.inj returned
    split at returned
    · exact absurd returned nofun
    · rw [← Option.some.inj returned]
      exact simplified

/-- Every step of a run keeps the property. -/
theorem stepInvariant_keeps (invariant : EqualityInvariant options.demodulators holds) :
    StepInvariant options (fun state => state.Keeps holds book) fun c => holds c.literals where
  take {state given support} kept popped := by
    have entries := ClauseQueue.toList_of_pop popped
    have holdsGiven : holds given.literals := kept.support given (entries ▸ List.mem_cons_self)
    have usable : AllHold holds (state.usable.insert given).toList := kept.usable.insert holdsGiven
    exact ⟨⟨usable, fun other member => kept.support other
        (entries ▸ List.mem_cons_of_mem _ member), kept.backed, kept.sameQuery⟩,
      allHold_infer invariant holdsGiven usable state.session⟩
  examine kept given := keeps_examine invariant kept given
  factor kept given :=
    ⟨⟨kept.usable, kept.support, kept.backed, kept.sameQuery⟩,
      invariant.toResolutionInvariant.factors given _⟩
  add kept given := keeps_addToSupport kept given
  attempt {state c} kept given := by
    have units : AllHold holds (state.clauses.filter Clause.isUnit) :=
      fun other member => kept.clauses other (List.mem_of_mem_filter member)
    exact ⟨⟨kept.usable, kept.support, kept.backed, kept.sameQuery⟩,
      allHold_infer invariant given units state.session⟩

theorem keeps_run (invariant : EqualityInvariant options.demodulators holds) {fuel : Nat}
    {last : State} (keeps : state.Keeps holds book) (ran : run options fuel state = some last) :
    last.Keeps holds book :=
  (stepInvariant_keeps invariant).run keeps ran

/-! ### The start -/

theorem allHold_withoutSubsumed {set : ClauseSet} (all : AllHold holds set.toList) :
    AllHold holds (withoutSubsumed set).toList :=
  foldl_invariant (fun set : ClauseSet => AllHold holds set.toList)
    (fun _ _ _ kept member inside => kept member (ClauseSet.mem_of_mem_erase inside)) all

theorem allHold_initialUsable (invariant : EqualityInvariant equations holds)
    {cs : List Clause} (stored : AllHold holds cs) (session : Session) :
    AllHold holds (initialUsable options session cs).1.toList := by
  have factors := (invariant.toResolutionInvariant.factorsApart stored session).ofList
  rw [initialUsable]
  dsimp only
  split
  · exact factors.insert (invariant.reflexive _)
  · exact factors

theorem allHold_initialSupport (invariant : ResolutionInvariant holds) {goals : List Clause}
    (all : AllHold holds goals) (session : Session) :
    AllHold holds (initialSupport session goals).1.toList := by
  refine AllHold.ofList fun factor member => ?_
  obtain ⟨group, inside, there⟩ := List.mem_flatten.1 member
  exact Session.forall_mem_mapList (fun c : Clause => holds c.literals) (AllHold holds)
    (fun session c given => invariant.factors given session) session goals all group inside factor
    there

/-- The state in which the procedure begins. -/
def start (options : GivenClauseOptions) (refutation : Refutation) : State :=
  let usable := initialUsable options refutation.session refutation.kb.clauses.toList
  let support := initialSupport usable.2 refutation.goals
  ⟨refutation.book, support.2, withoutSubsumed usable.1,
    (withoutSubsumed support.1).toList.foldl ClauseQueue.push { heuristic := options.heuristic }⟩

theorem ask_eq (fuel : Nat) (limit : TimeLimit) (options : GivenClauseOptions)
    (kb : KnowledgeBase) (query : Sentence) :
    ask fuel limit options kb query =
      (run options fuel (start options (kb.refute query limit))).map fun state =>
        (state.book.outcome, (kb.refute query limit).kb.afterSession state.session) := by
  unfold ask
  generalize kb.refute query limit = refutation
  obtain ⟨book, goals, session, refuted⟩ := refutation
  rfl

theorem keeps_start (invariant : EqualityInvariant options.demodulators holds)
    {refutation : Refutation} (stored : AllHold holds refutation.kb.clauses.toList)
    (goals : AllHold holds refutation.goals) (isNew : refutation.book.IsNew) :
    (start options refutation).Keeps holds refutation.book where
  usable := allHold_withoutSubsumed (allHold_initialUsable invariant stored refutation.session)
  support := foldl_invariant (fun q : ClauseQueue => AllHold holds q.toList)
    (fun _ c member kept => allHold_push kept (allHold_withoutSubsumed
      (allHold_initialSupport invariant.toResolutionInvariant goals _) c member)) AllHold.nil
  backed := isNew.backed
  sameQuery := .refl refutation.book

/-- Every proof that the given clause procedure reports is backed by literals with the property, if
the stored clauses and the goals have it. -/
theorem backs_of_ask {fuel : Nat} {limit : TimeLimit} {kb last : KnowledgeBase} {query : Sentence}
    {answer : Answer} (invariant : EqualityInvariant options.demodulators holds)
    (stored : AllHold holds (kb.refute query limit).kb.clauses.toList)
    (goals : AllHold holds (kb.refute query limit).goals)
    (isNew : (kb.refute query limit).book.IsNew)
    (asked : ask fuel limit options kb query = some (.ok answer, last)) :
    ∀ proof ∈ answer.proofs, (kb.refute query limit).book.Backs holds proof.bindings := by
  rw [ask_eq] at asked
  generalize kb.refute query limit = refutation at stored goals isNew asked ⊢
  obtain ⟨state, ran, outcome⟩ := Option.map_eq_some_iff.1 asked
  have keeps := keeps_run invariant (keeps_start invariant stored goals isNew) ran
  rw [AnswerBook.proofs_of_outcome (congrArg Prod.fst outcome)]
  exact fun proof member =>
    (keeps.sameQuery.backs_iff proof.bindings).1 (keeps.backed.proofs proof member)

/-- If the given clause procedure fails, there is an answer predicate, and the empty list of
literals has the property. -/
theorem holds_nil_of_ask {fuel : Nat} {limit : TimeLimit} {kb last : KnowledgeBase}
    {query : Sentence} {failure : Failure}
    (invariant : EqualityInvariant options.demodulators holds)
    (stored : AllHold holds (kb.refute query limit).kb.clauses.toList)
    (goals : AllHold holds (kb.refute query limit).goals)
    (isNew : (kb.refute query limit).book.IsNew)
    (asked : ask fuel limit options kb query = some (.error failure, last)) :
    (kb.refute query limit).book.predicate ≠ none ∧ holds [] := by
  rw [ask_eq] at asked
  generalize kb.refute query limit = refutation at stored goals isNew asked ⊢
  obtain ⟨state, ran, outcome⟩ := Option.map_eq_some_iff.1 asked
  have keeps := keeps_run invariant (keeps_start invariant stored goals isNew) ran
  exact keeps.sameQuery.predicate ▸
    keeps.backed.contradiction (AnswerBook.inconsistent_of_outcome (congrArg Prod.fst outcome))

end GivenClause

end ClausalReasoner
