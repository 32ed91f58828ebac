/-
This file shows that every proof that a procedure hands out is a well-founded derivation. A procedure
begins with clauses whose origins are steps of a well-founded derivation, what it derives is traced
through its rules, and a proof is taken from the derivation as it is when the proof is entered in the
books.
-/

import ClausalReasoner.Proofs.Reachable
import ClausalReasoner.Proofs.TracedClauses

namespace ClausalReasoner

/-! ### Books -/

namespace AnswerBook

/-- The derivation is well-founded, and so are the proofs that were entered in the books. -/
structure InOrder (book : AnswerBook) (d : Derivation) : Prop where
  derivation : d.WellFounded
  proofs : ∀ proof ∈ book.proofs, proof.WellFounded

variable {book : AnswerBook}

theorem InOrder.grow {d later : Derivation} (inOrder : book.InOrder d) (grows : d.Grows later) :
    book.InOrder later :=
  ⟨grows.wellFounded inOrder.derivation, inOrder.proofs⟩

theorem InOrder.ofProofs {other : AnswerBook} {d : Derivation} (inOrder : book.InOrder d)
    (same : other.proofs = book.proofs) : other.InOrder d :=
  ⟨inOrder.derivation, same ▸ inOrder.proofs⟩

theorem InOrder.enter {session : Session} (inOrder : book.InOrder session.derivation)
    {last : StepNumber} (known : last < session.derivation.size) (bindings : Substitution) :
    (book.enter session last bindings).InOrder session.derivation :=
  ⟨inOrder.derivation, List.forall_mem_append.2 ⟨inOrder.proofs, fun _ member =>
    List.mem_singleton.1 member ▸ inOrder.derivation.proof known bindings⟩⟩

/-- An answer that came from nowhere is recorded as a goal, which rests on nothing. -/
theorem finalStep_grows {session : Session} {origin : Option StepNumber}
    (known : ∀ number ∈ origin.toList, number < session.derivation.size) (conclusion : Conclusion) :
    session.derivation.Grows (finalStep session origin conclusion).2.derivation ∧
      (finalStep session origin conclusion).1 <
        (finalStep session origin conclusion).2.derivation.size := by
  cases origin with
  | some number => exact ⟨.refl _, known number List.mem_cons_self⟩
  | none =>
    refine ⟨Derivation.grows_record ⟨fun _ absent => absurd absent List.not_mem_nil, ?_⟩, ?_⟩
    · exact iff_of_true rfl (Or.inr rfl)
    · exact Nat.lt_of_lt_of_eq (Nat.lt_succ_self _) (Derivation.size_record _ _).symm

/-- Looking at derived literals keeps the books in order. -/
theorem InOrder.check {session : Session} (inOrder : book.InOrder session.derivation)
    {origin : Option StepNumber}
    (known : ∀ number ∈ origin.toList, number < session.derivation.size) (ls : List Literal)
    (conclusion : Conclusion) :
    session.derivation.Grows (book.check session ls origin conclusion).2.2.derivation ∧
      (book.check session ls origin conclusion).2.1.InOrder
        (book.check session ls origin conclusion).2.2.derivation := by
  have polled := inOrder.ofProofs (proofs_poll book)
  have stays : ∀ other : AnswerBook, other.proofs = book.proofs →
      session.derivation.Grows session.derivation ∧ other.InOrder session.derivation :=
    fun other same => ⟨.refl _, inOrder.ofProofs same⟩
  obtain ⟨grows, ends⟩ := finalStep_grows known conclusion
  have entered := (inOrder.grow grows).enter ends
  rw [AnswerBook.check]
  split
  · split
    · exact ⟨grows, (entered ∅).ofProofs (proofs_poll _)⟩
    · exact stays _ (proofs_poll book)
  · split
    · exact stays _ rfl
    · split
      · exact stays _ (proofs_poll book)
      · dsimp only
        split
        · exact stays _ (proofs_poll book)
        · exact ⟨grows, (entered _).ofProofs (proofs_poll _)⟩

end AnswerBook

/-! ### Saturation -/

namespace Saturation

/-- The derivation has grown, the books are in order, and all clauses are traced. -/
structure State.TracedFrom (d : Derivation) (state : State) : Prop where
  grows : d.Grows state.session.derivation
  book : state.book.InOrder state.session.derivation
  known : AllTraced state.session.derivation state.known.toList
  added : AllTraced state.session.derivation state.added.toList

namespace State.TracedFrom

variable {d later : Derivation} {state : State}

theorem sooner (kept : state.TracedFrom later) (grows : d.Grows later) : state.TracedFrom d :=
  ⟨grows.trans kept.grows, kept.book, kept.known, kept.added⟩

/-- The derivation of a state may grow. -/
theorem grow (kept : state.TracedFrom d) {session : Session}
    (grows : state.session.derivation.Grows session.derivation) :
    TracedFrom session.derivation { state with session := session } :=
  ⟨.refl _, kept.book.grow grows, kept.known.grow grows, kept.added.grow grows⟩

variable (kept : state.TracedFrom d)

include kept

theorem consider {c : Clause} (traced : c.TracedIn d) :
    (consider state c).TracedFrom d := by
  rw [Saturation.consider]
  split
  · exact kept
  · have now := traced.grow kept.grows
    obtain ⟨grows, inOrder⟩ := kept.book.check now.known c.literals (.clause c.literals)
    refine ⟨kept.grows.trans grows, inOrder, kept.known.grow grows, fun member inside => ?_⟩
    rcases ClauseSet.mem_of_mem_insert inside with old | rfl
    · exact (kept.added member old).grow grows
    · exact now.grow grows

theorem considerFactors {resolvent : Clause} (traced : resolvent.TracedIn d) :
    (considerFactors state resolvent).TracedFrom d := by
  rw [Saturation.considerFactors]
  split
  · exact kept
  · have factors := state.session.traced_factors (traced.grow kept.grows)
    exact (foldl_invariant (TracedFrom _) (fun state c member kept =>
      kept.consider (factors.made c member)) (kept.grow factors.grows)).sooner
        (kept.grows.trans factors.grows)

theorem resolvePair {first second : Clause} (tracedFirst : first.TracedIn d)
    (tracedSecond : second.TracedIn d) : (resolvePair first state second).TracedFrom d := by
  rw [Saturation.resolvePair]
  split
  · exact kept
  · have resolvents := state.session.traced_resolvents (tracedFirst.grow kept.grows)
      (tracedSecond.grow kept.grows)
    exact (foldl_invariant (TracedFrom _) (fun state c member kept =>
      kept.considerFactors (resolvents.made c member)) (kept.grow resolvents.grows)).sooner
        (kept.grows.trans resolvents.grows)

theorem resolveAll {cs : List Clause} (traced : AllTraced d cs) :
    (resolveAll cs state).TracedFrom d := by
  induction cs generalizing state with
  | nil => exact kept
  | cons first rest inductionHypothesis =>
    exact inductionHypothesis (foldl_invariant (TracedFrom d) (fun state second member kept =>
      kept.resolvePair (traced first List.mem_cons_self) (traced second member)) kept)
        fun c member => traced c (List.mem_cons_of_mem _ member)

end State.TracedFrom

theorem inOrder_saturate {fuel : Nat} {d : Derivation} {state last : State}
    (kept : state.TracedFrom d) (ran : saturate fuel state = some last) :
    last.book.InOrder last.session.derivation := by
  induction fuel generalizing state d with
  | zero => exact absurd ran nofun
  | succ fuel inductionHypothesis =>
    have passed : (pass state).TracedFrom state.session.derivation :=
      State.TracedFrom.resolveAll (kept.grow (.refl _)) kept.known
    rw [saturate] at ran
    dsimp only at ran
    split at ran
    · rw [← Option.some.inj ran]
      exact passed.book
    · have grown : State.TracedFrom d { book := (pass state).book, session := (pass state).session
                                        known := (pass state).known.insertAll
                                          (pass state).added.toList } :=
        ⟨kept.grows.trans passed.grows, passed.book,
          fun c member => (ClauseSet.mem_of_mem_insertAll member).elim (passed.known c)
            (passed.added c),
          fun _ absent => absurd absent List.not_mem_nil⟩
      exact inductionHypothesis grown ran

end Saturation

/-! ### Given clauses -/

namespace GivenClause

/-- The derivation has grown, the books are in order, and all clauses are traced. -/
structure State.TracedFrom (d : Derivation) (state : State) : Prop where
  grows : d.Grows state.session.derivation
  book : state.book.InOrder state.session.derivation
  usable : AllTraced state.session.derivation state.usable.toList
  support : AllTraced state.session.derivation state.support.toList

variable (options : GivenClauseOptions)

theorem traced_infer {session : Session} {c : Clause} (traced : c.TracedIn session.derivation)
    {others : List Clause} (all : AllTraced session.derivation others) :
    session.Yields AllTraced (infer options session c others) := by
  refine foldl_invariant (fun found : ClauseSet × Session =>
      session.Yields AllTraced (found.1.toList, found.2)) (fun found other member kept => ?_)
    ⟨.refl _, fun _ absent => absurd absent List.not_mem_nil⟩
  have now := traced.grow kept.grows
  have otherNow := (all other member).grow kept.grows
  have resolvents := found.2.traced_resolvents now otherNow
  have resolved : session.Yields AllTraced
      ((found.1.insertAll (found.2.resolvents c other).1).toList,
        (found.2.resolvents c other).2) :=
    ⟨kept.grows.trans resolvents.grows, fun d inside =>
      (ClauseSet.mem_of_mem_insertAll inside).elim
        (fun old => (kept.made d old).grow resolvents.grows) (resolvents.made d)⟩
  rw [inferPair]
  dsimp only
  split
  · have paramodulants := (found.2.resolvents c other).2.traced_paramodulants
      (now.grow resolvents.grows) (otherNow.grow resolvents.grows)
    exact ⟨resolved.grows.trans paramodulants.grows, fun d inside =>
      (ClauseSet.mem_of_mem_insertAll inside).elim
        (fun old => (resolved.made d old).grow paramodulants.grows) (paramodulants.made d)⟩
  · exact resolved

namespace State.TracedFrom

variable {d later : Derivation} {state : State}

theorem sooner (kept : state.TracedFrom later) (grows : d.Grows later) : state.TracedFrom d :=
  ⟨grows.trans kept.grows, kept.book, kept.usable, kept.support⟩

theorem grow (kept : state.TracedFrom d) {session : Session}
    (grows : state.session.derivation.Grows session.derivation) :
    TracedFrom session.derivation { state with session := session } :=
  ⟨.refl _, kept.book.grow grows, kept.usable.grow grows, kept.support.grow grows⟩

variable (kept : state.TracedFrom d)

include kept

theorem clauses : AllTraced state.session.derivation state.clauses :=
  List.forall_mem_append.2 ⟨kept.support, kept.usable⟩

theorem discard (c : Clause) : (state.discard c).TracedFrom d := by
  rw [State.discard]
  split
  · exact ⟨kept.grows, kept.book, kept.usable, fun member inside =>
      kept.support member (ClauseQueue.mem_of_mem_erase inside)⟩
  · exact ⟨kept.grows, kept.book, fun member inside =>
      kept.usable member (ClauseSet.mem_of_mem_erase inside), kept.support⟩

theorem addToSupport {c : Clause} (traced : c.TracedIn state.session.derivation) :
    (state.addToSupport c).TracedFrom d := by
  rw [State.addToSupport]
  dsimp only
  split
  · exact kept
  · refine foldl_invariant (TracedFrom d) (fun state other _ kept => kept.discard other)
      ⟨kept.grows, kept.book, kept.usable, fun member inside => ?_⟩
    rcases ClauseQueue.mem_of_mem_push inside with old | rfl
    · exact kept.support member old
    · exact traced

/-- What comes back of examining a clause is traced in the state after it. -/
theorem examine {c : Clause} (traced : c.TracedIn d) :
    (examine options state c).2.TracedFrom d ∧
      ∀ new, (examine options state c).1 = some (some new) →
        new.TracedIn (examine options state c).2.session.derivation := by
  have simplified := state.session.traced_simplify options.demodulators
    (traced.grow kept.grows)
  have after := (kept.grow simplified.grows).sooner (kept.grows.trans simplified.grows)
  rw [GivenClause.examine]
  dsimp only
  split
  · refine ⟨after, fun new returned => ?_⟩
    cases returned
  · obtain ⟨grows, inOrder⟩ := after.book.check simplified.made.known
      (state.session.simplify options.demodulators c).1.literals
      (.clause (state.session.simplify options.demodulators c).1.literals)
    refine ⟨⟨after.grows.trans grows, inOrder, after.usable.grow grows, after.support.grow grows⟩,
      fun new returned => ?_⟩
    have returned := Option.some.inj returned
    split at returned
    · cases returned
    · rw [← Option.some.inj returned]
      exact simplified.made.grow grows

theorem processUnits {cs : List Clause} (all : AllTraced d cs) :
    (processUnits options cs state).TracedFrom d := by
  induction cs generalizing state with
  | nil => exact kept
  | cons c rest inductionHypothesis =>
    have later : AllTraced d rest := fun other member => all other (List.mem_cons_of_mem _ member)
    obtain ⟨after, returned⟩ := kept.examine options (all c List.mem_cons_self)
    rw [GivenClause.processUnits]
    generalize GivenClause.examine options state c = examined at after returned
    obtain ⟨_ | new, examined⟩ := examined
    · exact inductionHypothesis after later
    · have goesOn : ∀ added : State, added.TracedFrom d → (if added.book.isClosed then added
          else GivenClause.processUnits options rest added).TracedFrom d := by
        intro added kept
        split
        · exact kept
        · exact inductionHypothesis kept later
      cases new with
      | none => exact goesOn examined after
      | some new => exact goesOn _ (after.addToSupport (returned new rfl))

theorem tryUnits {c : Clause} (traced : c.TracedIn d) :
    (tryUnits options state c).TracedFrom d := by
  rw [GivenClause.tryUnits]
  split
  · have units : AllTraced state.session.derivation (state.clauses.filter Clause.isUnit) :=
      fun other member => kept.clauses other (List.mem_of_mem_filter member)
    have inferred := traced_infer options (traced.grow kept.grows) units
    exact ((kept.grow inferred.grows).processUnits options inferred.made).sooner
      (kept.grows.trans inferred.grows)
  · exact kept

theorem addFactor {factor : Clause} (traced : factor.TracedIn d) :
    (addFactor options state factor).TracedFrom d := by
  rw [GivenClause.addFactor]
  split
  · exact kept
  · exact (kept.addToSupport (traced.grow kept.grows)).tryUnits options traced

theorem takeIn {new : Option Clause}
    (traced : ∀ c, new = some c → c.TracedIn state.session.derivation) :
    (takeIn options new state).TracedFrom d := by
  cases new with
  | none => exact kept
  | some c =>
    have factors := state.session.traced_factors (traced c rfl)
    exact (foldl_invariant (TracedFrom _) (fun state factor member kept =>
      kept.addFactor options (factors.made factor member)) (kept.grow factors.grows)).sooner
        (kept.grows.trans factors.grows)

theorem process {cs : List Clause} (all : AllTraced d cs) :
    (process options cs state).TracedFrom d := by
  induction cs generalizing state with
  | nil => exact kept
  | cons c rest inductionHypothesis =>
    have later : AllTraced d rest := fun other member => all other (List.mem_cons_of_mem _ member)
    obtain ⟨after, returned⟩ := kept.examine options (all c List.mem_cons_self)
    rw [process_cons]
    generalize GivenClause.examine options state c = examined at after returned
    obtain ⟨_ | new, examined⟩ := examined
    · exact inductionHypothesis after later
    · have taken := after.takeIn options fun c same => returned c (congrArg some same)
      dsimp only
      split
      · exact taken
      · exact inductionHypothesis taken later

end State.TracedFrom

theorem inOrder_run {fuel : Nat} {d : Derivation} {state last : State}
    (kept : state.TracedFrom d) (ran : run options fuel state = some last) :
    last.book.InOrder last.session.derivation := by
  induction fuel generalizing state d with
  | zero => exact absurd ran nofun
  | succ fuel inductionHypothesis =>
    rw [run] at ran
    split at ran
    · exact Option.some.inj ran ▸ kept.book
    · split at ran
      · exact Option.some.inj ran ▸ kept.book
      · next given support popped =>
        have entries := ClauseQueue.toList_of_pop popped
        have traced := kept.support given (entries ▸ List.mem_cons_self)
        have usable : AllTraced state.session.derivation (state.usable.insert given).toList :=
          fun c member => (ClauseSet.mem_of_mem_insert member).elim (kept.usable c)
            fun same => same ▸ traced
        have inferred := traced_infer options traced usable
        have moved : State.TracedFrom (infer options state.session given
            (state.usable.insert given).toList).2.derivation ⟨state.book,
              (infer options state.session given (state.usable.insert given).toList).2,
              state.usable.insert given, support⟩ :=
          ⟨.refl _, kept.book.grow inferred.grows, usable.grow inferred.grows, fun c member =>
            (kept.support c (entries ▸ List.mem_cons_of_mem _ member)).grow inferred.grows⟩
        exact inductionHypothesis (moved.process options inferred.made) ran

/-! ### The start of a search with given clauses -/

theorem traced_withoutSubsumed {d : Derivation} {set : ClauseSet} (all : AllTraced d set.toList) :
    AllTraced d (withoutSubsumed set).toList :=
  foldl_invariant (fun set : ClauseSet => AllTraced d set.toList)
    (fun _ _ _ kept member inside => kept member (ClauseSet.mem_of_mem_erase inside)) all

/-- Reflexivity is a premise. -/
theorem traced_reflexivity (session : Session) :
    session.Yields (fun d made => made.TracedIn d) (reflexivity session) := by
  let x := Term.var ⟨"x", some session.supply.take.1⟩
  have fits : Step.Fits ⟨.premise, .clause (Clause.ofLiterals [.positive (.equality x x)]).literals,
      .text "reflexivity", []⟩ session.derivation.size :=
    ⟨fun _ absent => absurd absent List.not_mem_nil, iff_of_true rfl (Or.inl rfl)⟩
  have concluded := Session.has_conclude ⟨session.supply.take.2, session.derivation⟩ fits
  exact ⟨concluded.grows, Or.inl concluded.made⟩

theorem traced_initialUsable {session : Session} {cs : List Clause}
    (stored : AllTraced session.derivation cs) :
    session.Yields (fun d made => AllTraced d made.toList) (initialUsable options session cs) := by
  have factors := session.traced_factorsApart stored
  have all : AllTraced (session.factorsApart cs).2.derivation
      (ClauseSet.ofList (session.factorsApart cs).1).toList :=
    fun c member => factors.made c (ClauseSet.mem_of_mem_ofList member)
  rw [initialUsable]
  dsimp only
  split
  · have reflexive := traced_reflexivity (session.factorsApart cs).2
    exact ⟨factors.grows.trans reflexive.grows, fun c member =>
      (ClauseSet.mem_of_mem_insert member).elim
        (fun old => (all c old).grow reflexive.grows) fun same => same ▸ reflexive.made⟩
  · exact ⟨factors.grows, all⟩

theorem traced_initialSupport {session : Session} {goals : List Clause}
    (given : AllTraced session.derivation goals) :
    session.Yields (fun d made => AllTraced d made.toList) (initialSupport session goals) := by
  have all : session.Yields (fun d groups => ∀ group ∈ groups, AllTraced d group)
      (session.mapList Session.factors goals) :=
    Session.yields_mapList (fun _ _ _ grows made => made.grow grows) fun later grows c member =>
      later.traced_factors ((given c member).grow grows)
  refine ⟨all.grows, fun factor member => ?_⟩
  obtain ⟨group, inside, there⟩ := List.mem_flatten.1 (ClauseSet.mem_of_mem_ofList member)
  exact all.made group inside factor there

end GivenClause

/-! ### Model elimination -/

namespace ModelElimination

/-- Every chain of a list has a step of the derivation as its origin. -/
def AllHave (d : Derivation) (chains : List Chain) : Prop :=
  ∀ chain ∈ chains, d.Has chain.origin

theorem AllHave.grow {d later : Derivation} {chains : List Chain} (all : AllHave d chains)
    (grows : d.Grows later) : AllHave later chains :=
  fun chain member => (all chain member).grow grows

theorem allHave_chainsOf {session : Session} {cs : List Clause}
    (given : ∀ c ∈ cs, session.derivation.Has c.origin) :
    session.Yields AllHave (chainsOf session cs) := by
  have all : session.Yields (fun d groups => ∀ group ∈ groups, AllHave d group)
      (session.mapList (fun session c =>
        ((session.chainOfClause c).1 ::
            ((session.chainOfClause c).2.contrapositives (session.chainOfClause c).1).1,
          ((session.chainOfClause c).2.contrapositives (session.chainOfClause c).1).2)) cs) := by
    refine Session.yields_mapList (fun _ _ _ grows made => made.grow grows)
      fun later grows c member => ?_
    have chain : later.Yields (fun d made => d.Has made.origin) (later.chainOfClause c) :=
      later.has_concludeChain ((given c member).grow grows).supports .chainOfClause rfl _ _
    have others := (later.chainOfClause c).2.has_contrapositives chain.made
    exact ⟨chain.grows.trans others.grows,
      List.forall_mem_cons.2 ⟨chain.made.grow others.grows, others.made⟩⟩
  refine ⟨all.grows, fun chain member => ?_⟩
  obtain ⟨group, inside, there⟩ := List.mem_flatten.1 member
  exact all.made group inside chain there

/-- The derivation has grown, and the books are in order. -/
structure State.InOrderFrom (d : Derivation) (state : State) : Prop where
  grows : d.Grows state.session.derivation
  book : state.book.InOrder state.session.derivation

theorem State.InOrderFrom.sooner {d later : Derivation} {state : State}
    (kept : state.InOrderFrom later) (grows : d.Grows later) : state.InOrderFrom d :=
  ⟨grows.trans kept.grows, kept.book⟩

theorem inOrderFrom_search {d : Derivation} {chains : List Chain} (all : AllHave d chains)
    (remaining depth : Nat) {state : State} (kept : state.InOrderFrom d) {near : Chain}
    (has : state.session.derivation.Has near.origin) :
    (search chains remaining depth state near).InOrderFrom d := by
  induction remaining generalizing depth state near d with
  | zero => exact ⟨kept.grows, kept.book⟩
  | succ remaining inductionHypothesis =>
    rw [search]
    dsimp only
    split
    · exact ⟨kept.grows, kept.book⟩
    · next head _ =>
      have start : State.InOrderFrom state.session.derivation
          { state with deepest := max state.deepest depth } := ⟨.refl _, kept.book⟩
      refine (foldl_invariant (State.InOrderFrom state.session.derivation)
        (fun before far member going => ?_) start).sooner kept.grows
      split
      · exact going
      · have hasFar := (all far (List.mem_of_mem_filter member)).grow
          (kept.grows.trans going.grows)
        have reduced := before.session.has_reduceChains (has.grow going.grows) hasFar
        split
        · next later found =>
          rw [found] at reduced
          exact ⟨going.grows.trans reduced.grows, going.book.grow reduced.grows⟩
        · next chain later found =>
          rw [found] at reduced
          have settled : later.Yields (fun d made => d.Has made.origin) (later.settle chain) :=
            later.has_settleChain chain.size (reduced.made chain rfl)
          have toSettled := (going.grows.trans reduced.grows).trans settled.grows
          obtain ⟨grows, inOrder⟩ := (going.book.grow (reduced.grows.trans settled.grows)).check
            settled.made.supports.known (later.settle chain).1.literals
            (.chain (later.settle chain).1.literals)
          have checked := toSettled.trans grows
          split
          · exact ⟨checked, inOrder⟩
          · refine inductionHypothesis ?_ _ ⟨checked, inOrder⟩ (settled.made.grow grows)
            exact all.grow kept.grows

theorem inOrder_deepen {d : Derivation} {chains starts : List Chain} (all : AllHave d chains)
    (among : AllHave d starts) {fuel bound : Nat} {state last : State}
    (kept : state.InOrderFrom d) (ran : deepen chains starts fuel bound state = some last) :
    last.book.InOrder last.session.derivation := by
  induction fuel generalizing bound state with
  | zero => exact absurd ran nofun
  | succ fuel inductionHypothesis =>
    have start : State.InOrderFrom d { state with deepest := 0 } := ⟨kept.grows, kept.book⟩
    have searched : (searchAll chains starts bound state).InOrderFrom d :=
      foldl_invariant (State.InOrderFrom d) (fun before near member going => by
        split
        · exact going
        · exact inOrderFrom_search all bound 0 going ((among near member).grow going.grows)) start
    rw [deepen] at ran
    split at ran
    · exact Option.some.inj ran ▸ searched.book
    · exact inductionHypothesis searched ran

end ModelElimination

/-! ### Chaining backward -/

namespace BackwardChaining

/-- If an answer came from a step, the derivation has it. -/
def GoalAnswer.TracedIn (d : Derivation) (answer : GoalAnswer) : Prop :=
  ∀ number ∈ answer.step.toList, number < d.size

theorem GoalAnswer.TracedIn.grow {d later : Derivation} {answer : GoalAnswer}
    (traced : answer.TracedIn d) (grows : d.Grows later) : answer.TracedIn later :=
  fun number member => Nat.lt_of_lt_of_le (traced number member) grows.size

theorem traced_recordReductions {session : Session} {sources : List StepNumber}
    (supports : session.derivation.Supports sources) (goal : Literal) (θ : Substitution)
    {below : List GoalAnswer} (traced : ∀ answer ∈ below, answer.TracedIn session.derivation) :
    session.Yields (fun d answers => ∀ answer ∈ answers, answer.TracedIn d)
      (recordReductions goal θ sources session below) :=
  Session.yields_mapList (fun _ _ _ grows traced => traced.grow grows)
    fun later grows answer member => by
      have supportsNow := (supports.grow grows).append ((traced answer member).grow grows)
      have fits := supportsNow.fits .goalReduction rfl
        (.literal (goal.substitute answer.bindings)) (.unifier θ)
      exact ⟨Derivation.grows_record fits, (Derivation.has_record _ _).supports.known⟩

/-- What a step finds for every input in any later session is found in going through a list. -/
theorem yields_gather {Input Output : Type}
    {step : Session → Input → Option (List Output × Session)} {made : Derivation → Output → Prop}
    (lasts : ∀ d later output, d.Grows later → made d output → made later output)
    {session : Session} {inputs : List Input}
    (each : ∀ later : Session, session.derivation.Grows later.derivation → ∀ input ∈ inputs,
      ∀ found, step later input = some found →
        later.Yields (fun d outputs => ∀ output ∈ outputs, made d output) found)
    {result : List Output × Session} (ran : gather step session inputs = some result) :
    session.Yields (fun d outputs => ∀ output ∈ outputs, made d output) result := by
  induction inputs generalizing session result with
  | nil =>
    rw [← Option.some.inj ran]
    exact ⟨.refl _, fun _ absent => absurd absent List.not_mem_nil⟩
  | cons input rest inductionHypothesis =>
    rw [gather] at ran
    split at ran
    · cases ran
    · next found between stepped =>
      have first := each session (.refl _) input List.mem_cons_self (found, between) stepped
      split at ran
      · cases ran
      · next others last gathered =>
        have later := inductionHypothesis (fun later grows other member =>
          each later (first.grows.trans grows) other (List.mem_cons_of_mem _ member)) gathered
        rw [← Option.some.inj ran]
        exact ⟨first.grows.trans later.grows, List.forall_mem_append.2
          ⟨fun output member => lasts _ _ _ later.grows (first.made output member), later.made⟩⟩

theorem traced_prove {definites : List Clause} {depth : Nat} {goals : List Literal}
    {θ : Substitution} {session : Session}
    (origins : ∀ c ∈ definites, session.derivation.Has c.origin)
    {result : List GoalAnswer × Session} (ran : prove definites depth goals θ session = some result) :
    session.Yields (fun d answers => ∀ answer ∈ answers, answer.TracedIn d) result := by
  induction depth generalizing goals θ session result with
  | zero => exact absurd ran nofun
  | succ depth inductionHypothesis =>
    cases goals with
    | nil =>
      rw [← Option.some.inj ran]
      refine ⟨.refl _, fun answer member => ?_⟩
      rw [List.mem_singleton.1 member]
      exact fun _ absent => absurd absent List.not_mem_nil
    | cons first rest =>
      refine yields_gather (fun _ _ _ grows traced => traced.grow grows) ?_ ran
      intro later grows rule member found stepped
      have nothing : later.Yields (fun d answers => ∀ answer ∈ answers, answer.TracedIn d)
          (([] : List GoalAnswer), (later.rename rule).2) :=
        ⟨.refl _, fun _ absent => absurd absent List.not_mem_nil⟩
      have has := (origins rule member).grow grows
      dsimp only at stepped
      split at stepped
      · exact Option.some.inj stepped ▸ nothing
      · split at stepped
        · exact Option.some.inj stepped ▸ nothing
        · next unifier _ =>
          split at stepped
          · exact absurd stepped nofun
          · next below after proved =>
            have originsNow : ∀ c ∈ definites, (later.rename rule).2.derivation.Has c.origin :=
              fun c inside => (origins c inside).grow grows
            have lower := inductionHypothesis originsNow proved
            have supports : after.derivation.Supports (later.rename rule).1.sources := by
              rw [Clause.sources, Session.origin_rename]
              exact (has.grow lower.grows).supports
            have recorded := traced_recordReductions supports (first.substitute θ) unifier
              lower.made
            exact Option.some.inj stepped ▸ ⟨lower.grows.trans recorded.grows, recorded.made⟩

end BackwardChaining

end ClausalReasoner
