/-
This file accounts for all that happens in a run of the given clause procedure. It is listed as
events: a clause is used with others, which infers clauses, or a new clause is factored. Nothing that
was entered in the books is ever taken out again, and as long as the premises do not turn out to
contradict each other every clause that was inferred is simplified and looked at. So in the end what
was inferred has been reported as far as it consists of answers, and what was factored was none.
-/

import ClausalReasoner.Proofs.FormedClauses
import ClausalReasoner.Proofs.GivenClauseInvariant

namespace ClausalReasoner

/-! ### Books that collect answers -/

namespace AnswerBook

/-- There is an answer predicate and no time limit, so that nothing but a contradiction ends the
search. -/
structure Collecting (book : AnswerBook) : Prop where
  predicate : book.predicate ≠ none
  limit : book.limit = none
  incomplete : book.complete = false

/-- Nothing that was found is lost. -/
structure Grows (book after : AnswerBook) : Prop where
  sameQuery : book.SameQuery after
  proofs : book.proofs ⊆ after.proofs
  inconsistent : book.inconsistent = true → after.inconsistent = true

/-- If literals consist of the answer literal alone, its bindings are those of a proof. -/
def Reports (book : AnswerBook) (ls : List Literal) : Prop :=
  ∀ predicate l, book.predicate = some predicate → answerLiteral? predicate ls = some l →
    ∃ proof ∈ book.proofs, proof.bindings = book.bindings l

variable {book after last : AnswerBook} {ls : List Literal}

theorem Grows.refl (book : AnswerBook) : book.Grows book :=
  ⟨.refl book, List.Subset.refl _, id⟩

theorem Grows.trans (first : book.Grows after) (second : after.Grows last) : book.Grows last :=
  ⟨first.sameQuery.trans second.sameQuery, List.Subset.trans first.proofs second.proofs,
    second.inconsistent ∘ first.inconsistent⟩

theorem Grows.reports (grows : book.Grows after) (reports : book.Reports ls) :
    after.Reports ls := by
  intro predicate l isPredicate answers
  obtain ⟨proof, member, same⟩ :=
    reports predicate l (grows.sameQuery.predicate ▸ isPredicate) answers
  refine ⟨proof, grows.proofs member, ?_⟩
  rw [same, AnswerBook.bindings, AnswerBook.bindings, grows.sameQuery.vars]

theorem Collecting.isClosed_eq (collecting : book.Collecting) :
    book.isClosed = book.inconsistent := by
  rw [isClosed, collecting.incomplete, Bool.false_or]

theorem Collecting.poll (collecting : book.Collecting) : book.poll = book :=
  poll_of_noLimit collecting.limit

/-- Looking at derived literals goes on collecting, loses nothing, and reports an answer unless a
contradiction is found. -/
theorem Checks.collects (checks : book.Checks ls after) (collecting : book.Collecting) :
    after.Collecting ∧ book.Grows after ∧ (after.inconsistent = false → after.Reports ls) := by
  have reportsOnly : ∀ {books : AnswerBook} {predicate : String} {l : Literal},
      books.predicate = some predicate → answerLiteral? predicate ls = some l →
        (∃ proof ∈ books.proofs, proof.bindings = books.bindings l) → books.Reports ls := by
    intro books predicate l isPredicate answers entered other m isOther answersToo
    obtain rfl := Option.some.inj (isPredicate.symm.trans isOther)
    obtain rfl := Option.some.inj (answers.symm.trans answersToo)
    exact entered
  cases checks with
  | unrefuted noPredicate => exact absurd noPredicate collecting.predicate
  | refuted noPredicate => exact absurd noPredicate collecting.predicate
  | contradictory =>
    exact ⟨⟨collecting.predicate, collecting.limit, collecting.incomplete⟩,
      ⟨⟨rfl, rfl⟩, List.Subset.refl _, fun _ => rfl⟩, fun consistent => absurd consistent nofun⟩
  | unanswered isPredicate _ other =>
    rw [collecting.poll]
    refine ⟨collecting, .refl book, fun _ predicate l isOther answers => ?_⟩
    obtain rfl := Option.some.inj (isPredicate.symm.trans isOther)
    exact absurd (other.symm.trans answers) nofun
  | repeated isPredicate answers entered same =>
    rw [collecting.poll]
    exact ⟨collecting, .refl book, fun _ => reportsOnly isPredicate answers ⟨_, entered, same⟩⟩
  | @answered predicate l isPredicate answers session step =>
    have entered : (book.enter session step (book.bindings l)).Collecting :=
      ⟨collecting.predicate, collecting.limit, collecting.incomplete⟩
    rw [entered.poll]
    exact ⟨entered, ⟨⟨rfl, rfl⟩, List.subset_append_left _ _, id⟩, fun _ =>
      reportsOnly isPredicate answers
        ⟨_, List.mem_append_right _ (List.mem_singleton_self _), rfl⟩⟩

end AnswerBook

/-! ### Simplified clauses -/

/-- The clause that demodulators make of a clause. -/
def Clause.simplified (equations : List Atom) (c : Clause) : Clause :=
  (({} : Session).simplify equations c).1

namespace Session

/-- Clauses with the same literals are demodulated to clauses with the same literals, wherever the
steps are recorded. -/
theorem literals_demodulateTimes (equation : Atom) (times : Nat) {first second : Session}
    {c d : Clause} (same : c.literals = d.literals) :
    (demodulateTimes equation times first c).1.literals =
      (demodulateTimes equation times second d).1.literals := by
  induction times generalizing first second c d with
  | zero => exact same
  | succ times inductionHypothesis =>
    rw [demodulateTimes, demodulateTimes, demodulateClause, demodulateClause, same]
    cases demodulateFirst equation d.literals with
    | none => exact same
    | some changed =>
      have changedAlike : ∀ (session : Session) (c : Clause),
          (session.conclude .demodulation (Clause.ofLiterals changed) (.demodulator equation)
            c.sources).1.literals = (Clause.ofLiterals changed).literals := fun _ _ => rfl
      exact inductionHypothesis ((changedAlike first c).trans (changedAlike second d).symm)

theorem literals_simplify (session : Session) (equations : List Atom) (c : Clause) :
    (session.simplify equations c).1.literals = (c.simplified equations).literals := by
  have all : ∀ first second : Clause × Session, first.1.literals = second.1.literals →
      (equations.foldl (fun found equation =>
        found.2.demodulateTimes equation maxApplications found.1) first).1.literals =
      (equations.foldl (fun found equation =>
        found.2.demodulateTimes equation maxApplications found.1) second).1.literals := by
    induction equations with
    | nil => exact fun first second same => same
    | cons equation rest inductionHypothesis =>
      exact fun first second same =>
        inductionHypothesis _ _ (literals_demodulateTimes equation maxApplications same)
  exact all (c, session) (c, {}) rfl

end Session

/-- Literals that are found to be neither an answer nor a contradiction are neither. -/
theorem AnswerBook.answerLiteral?_of_check {book : AnswerBook} {session : Session}
    {ls : List Literal} {origin : Option StepNumber} {conclusion : Conclusion} {predicate : String}
    (isPredicate : book.predicate = some predicate)
    (other : (book.check session ls origin conclusion).1 = false)
    (consistent : (book.check session ls origin conclusion).2.1.inconsistent = false) :
    ls ≠ [] ∧ answerLiteral? predicate ls = none := by
  unfold check at other consistent
  rw [isPredicate] at other consistent
  dsimp only at other consistent
  split at other
  · next none =>
    rw [if_pos none] at consistent
    exact absurd consistent nofun
  · next some =>
    refine ⟨fun none => some (List.isEmpty_iff.2 none), ?_⟩
    split at other
    · next unanswered => exact unanswered
    · split at other <;> exact absurd other nofun

/-! ### The events of a run -/

namespace GivenClause

/-- What happens in a run. -/
inductive Event where
  /-- A clause is used with others. -/
  | inference (session : Session) (c : Clause) (others : List Clause)
  /-- A new clause is factored. -/
  | factoring (session : Session) (c : Clause)

variable (options : GivenClauseOptions)

/-- The clauses that the rules make of a clause and others, with those that are left out because
another one has their key. -/
def inferred (session : Session) (c : Clause) (others : List Clause) : List Clause :=
  foldFormed (inferPair options.paramodulation c)
    (fun found other =>
      let resolvents := found.2.resolvents c other
      resolvents.1 ++
        if options.paramodulation then (resolvents.2.paramodulants c other).1 else [])
    (∅, session) others

/-- A clause is used with the unit clauses if it is one literal away from an answer. -/
def traceOfTrying (state : State) (c : Clause) : List Event :=
  if isNearAnswer state.book c then
    [.inference state.session c (state.clauses.filter Clause.isUnit)]
  else []

/-- What happens when factors are added one after the other. -/
def traceOfFactors : List Clause → State → List Event
  | [], _ => []
  | factor :: rest, state =>
    (if state.book.inconsistent || state.isKnown factor then []
      else traceOfTrying (state.addToSupport factor) factor) ++
      traceOfFactors rest (addFactor options state factor)

/-- What happens when a new clause is taken in. -/
def traceOfTakingIn (new : Option Clause) (state : State) : List Event :=
  match new with
  | none => []
  | some c =>
    .factoring state.session c :: traceOfFactors options (state.session.factors c).1
      { state with session := (state.session.factors c).2 }

/-- What happens when the clauses inferred from a given clause are worked through. -/
def traceOfProcess : List Clause → State → List Event
  | [], _ => []
  | c :: rest, state =>
    match examine options state c with
    | (none, state) => traceOfProcess rest state
    | (some new, state) =>
      let taken := takeIn options new state
      traceOfTakingIn options new state ++
        if taken.book.isClosed then [] else traceOfProcess rest taken

/-- All that happens in a run. -/
def trace : Nat → State → List Event
  | 0, _ => []
  | fuel + 1, state =>
    if state.book.isClosed then []
    else
      match state.support.pop with
      | none => []
      | some (given, support) =>
        let usable := state.usable.insert given
        let found := infer options state.session given usable.toList
        let start : State := ⟨state.book, found.2, usable, support⟩
        .inference state.session given usable.toList :: traceOfProcess options found.1 start ++
          trace fuel (process options found.1 start)

/-! ### What the events achieve -/

variable {options}

/-- What was inferred has been reported as far as it gives answers; what was factored was neither an
answer nor a contradiction. -/
def Event.Settled (options : GivenClauseOptions) (book : AnswerBook) : Event → Prop
  | .inference session c others => ∀ kept ∈ (infer options session c others).1,
      book.Reports (kept.simplified options.demodulators).literals
  | .factoring _ c => ∀ predicate, book.predicate = some predicate →
      c.literals ≠ [] ∧ AnswerBook.answerLiteral? predicate c.literals = none

/-- What a part of the search makes of the books: unless a contradiction was found, the clauses that
were looked at are reported and the events are settled. -/
structure Achieves (options : GivenClauseOptions) (cs : List Clause) (events : List Event)
    (book after : AnswerBook) : Prop where
  collecting : after.Collecting
  grows : book.Grows after
  reported : after.inconsistent = false →
    ∀ c ∈ cs, after.Reports (c.simplified options.demodulators).literals
  settled : after.inconsistent = false → ∀ event ∈ events, event.Settled options after

variable {book between after : AnswerBook} {cs ds : List Clause} {events others : List Event}
  {state : State}

theorem Event.Settled.grows {event : Event} (settled : event.Settled options book)
    (grows : book.Grows after) : event.Settled options after := by
  cases event with
  | inference session c others => exact fun kept member => grows.reports (settled kept member)
  | factoring session c =>
    exact fun predicate isPredicate =>
      settled predicate (grows.sameQuery.predicate ▸ isPredicate)

namespace Achieves

theorem refl (collecting : book.Collecting) : Achieves options [] [] book book :=
  ⟨collecting, .refl book, fun _ _ absent => absurd absent List.not_mem_nil,
    fun _ _ absent => absurd absent List.not_mem_nil⟩

theorem trans (first : Achieves options cs events book between)
    (second : Achieves options ds others between after) :
    Achieves options (cs ++ ds) (events ++ others) book after := by
  have consistent : after.inconsistent = false → between.inconsistent = false := by
    intro later
    by_contra before
    rw [second.grows.inconsistent (Bool.not_eq_false _ ▸ before)] at later
    exact absurd later nofun
  refine ⟨second.collecting, first.grows.trans second.grows, fun later => ?_, fun later => ?_⟩
  · exact List.forall_mem_append.2
      ⟨fun c member => second.grows.reports (first.reported (consistent later) c member),
        second.reported later⟩
  · exact List.forall_mem_append.2
      ⟨fun event member => (first.settled (consistent later) event member).grows second.grows,
        second.settled later⟩

/-- Nothing is claimed of a search that a contradiction has ended. -/
theorem ofClosed (achieves : Achieves options cs events book after) (closed : after.isClosed)
    (ds : List Clause) : Achieves options ds events book after := by
  rw [achieves.collecting.isClosed_eq] at closed
  exact ⟨achieves.collecting, achieves.grows,
    fun consistent => absurd (consistent.symm.trans closed) Bool.false_ne_true, achieves.settled⟩

/-- An inference is settled when what it has inferred is reported. -/
theorem inference {session : Session} {c : Clause} {used : List Clause}
    (achieves : Achieves options (infer options session c used).1 events book after) :
    Achieves options [] (.inference session c used :: events) book after :=
  ⟨achieves.collecting, achieves.grows, fun _ _ absent => absurd absent List.not_mem_nil,
    fun consistent => List.forall_mem_cons.2
      ⟨achieves.reported consistent, achieves.settled consistent⟩⟩

end Achieves

/-- A tautology is no answer. -/
theorem reports_of_isTautology {c : Clause} (tautology : c.isTautology) :
    book.Reports c.literals := by
  intro predicate l _ answers
  obtain ⟨alone, positive, _⟩ := AnswerBook.of_answerLiteral? answers
  obtain ⟨_, _, denied⟩ := List.any_eq_true.1 tautology
  obtain ⟨m, negative, _⟩ := List.any_eq_true.1 denied
  obtain ⟨inside, isNegative⟩ := List.mem_filter.1 negative
  rw [alone] at inside
  rw [List.mem_singleton.1 inside, Literal.isNegative, positive] at isNegative
  exact absurd isNegative Bool.false_ne_true

section

variable (options state)

/-- A clause that is looked at is reported; if it comes back it is neither an answer nor empty. -/
theorem achieves_examine (collecting : state.book.Collecting) (c : Clause) :
    Achieves options [c] [] state.book (examine options state c).2.book ∧
      ∀ new, (examine options state c).1 = some (some new) → ∀ predicate,
        (examine options state c).2.book.predicate = some predicate →
          new.literals ≠ [] ∧ AnswerBook.answerLiteral? predicate new.literals = none := by
  have literals := state.session.literals_simplify options.demodulators c
  rw [examine]
  dsimp only
  split
  · next tautology =>
    refine ⟨⟨collecting, .refl _, fun _ d member => ?_,
      fun _ _ absent => absurd absent List.not_mem_nil⟩,
      fun _ returned => absurd returned.symm (Option.some_ne_none _)⟩
    rw [List.mem_singleton.1 member, ← literals]
    exact reports_of_isTautology tautology
  · have checks := state.book.checks_check (state.session.simplify options.demodulators c).2
      (state.session.simplify options.demodulators c).1.literals
      (state.session.simplify options.demodulators c).1.origin
      (.clause (state.session.simplify options.demodulators c).1.literals)
    obtain ⟨goesOn, grows, reports⟩ := checks.collects collecting
    refine ⟨⟨goesOn, grows, fun consistent d member => ?_,
      fun _ _ absent => absurd absent List.not_mem_nil⟩,
      fun new returned predicate isPredicate => ?_⟩
    · rw [List.mem_singleton.1 member, ← literals]
      exact reports consistent
    · have returned := Option.some.inj returned
      split at returned
      · exact absurd returned.symm (Option.some_ne_none _)
      · next other =>
        rw [← Option.some.inj returned]
        rw [Bool.not_eq_true, Bool.or_eq_false_iff, Bool.or_eq_false_iff] at other
        exact AnswerBook.answerLiteral?_of_check
          (grows.sameQuery.predicate.symm.trans isPredicate) other.1.1 other.1.2

theorem book_addToSupport (state : State) (c : Clause) :
    (state.addToSupport c).book = state.book := by
  rw [State.addToSupport]
  dsimp only
  split
  · rfl
  · refine foldl_invariant (fun added : State => added.book = state.book)
      (fun added other _ same => ?_) rfl
    rw [State.discard]
    split <;> exact same

theorem achieves_processUnits (collecting : state.book.Collecting) (cs : List Clause) :
    Achieves options cs [] state.book (processUnits options cs state).book := by
  induction cs generalizing state with
  | nil => exact .refl collecting
  | cons c rest inductionHypothesis =>
    obtain ⟨examines, _⟩ := achieves_examine options state collecting c
    rw [processUnits]
    split
    · next after examined =>
      rw [examined] at examines
      exact examines.trans (inductionHypothesis _ examines.collecting)
    · next new after examined =>
      rw [examined] at examines
      have goesOn : ∀ added : State, added.book = after.book →
          Achieves options (c :: rest) [] state.book
            (if added.book.isClosed then added else processUnits options rest added).book := by
        intro added same
        have examines : Achieves options [c] [] state.book added.book := same ▸ examines
        split
        · next closed => exact examines.ofClosed closed (c :: rest)
        · exact examines.trans (inductionHypothesis _ examines.collecting)
      cases new with
      | none => exact goesOn after rfl
      | some c => exact goesOn _ (book_addToSupport after c)

theorem achieves_tryUnits (collecting : state.book.Collecting) (c : Clause) :
    Achieves options [] (traceOfTrying state c) state.book (tryUnits options state c).book := by
  let found := infer options state.session c (state.clauses.filter Clause.isUnit)
  have processes := achieves_processUnits options
    ⟨state.book, found.2, state.usable, state.support⟩ collecting found.1
  rw [tryUnits, traceOfTrying]
  split
  · exact processes.inference
  · exact .refl collecting

theorem achieves_addFactors (collecting : state.book.Collecting) (factors : List Clause) :
    Achieves options [] (traceOfFactors options factors state) state.book
      (factors.foldl (addFactor options) state).book := by
  induction factors generalizing state with
  | nil => exact .refl collecting
  | cons factor rest inductionHypothesis =>
    have first : Achieves options []
        (if state.book.inconsistent || state.isKnown factor then []
          else traceOfTrying (state.addToSupport factor) factor)
        state.book (addFactor options state factor).book := by
      rw [addFactor]
      split
      · exact .refl collecting
      · rw [← book_addToSupport state factor] at collecting ⊢
        exact achieves_tryUnits _ _ collecting factor
    exact first.trans (inductionHypothesis _ first.collecting)

theorem achieves_takeIn (collecting : state.book.Collecting) {new : Option Clause}
    (isNew : ∀ c, new = some c → ∀ predicate, state.book.predicate = some predicate →
      c.literals ≠ [] ∧ AnswerBook.answerLiteral? predicate c.literals = none) :
    Achieves options [] (traceOfTakingIn options new state) state.book
      (takeIn options new state).book := by
  cases new with
  | none => exact .refl collecting
  | some c =>
    have factored : Achieves options [] [.factoring state.session c] state.book state.book :=
      ⟨collecting, .refl _, fun _ _ absent => absurd absent List.not_mem_nil,
        fun _ event member => List.mem_singleton.1 member ▸ isNew c rfl⟩
    exact factored.trans (achieves_addFactors options
      { state with session := (state.session.factors c).2 } collecting _)

theorem achieves_process (collecting : state.book.Collecting) (cs : List Clause) :
    Achieves options cs (traceOfProcess options cs state) state.book
      (process options cs state).book := by
  induction cs generalizing state with
  | nil => exact .refl collecting
  | cons c rest inductionHypothesis =>
    obtain ⟨examines, isNew⟩ := achieves_examine options state collecting c
    rw [process_cons, traceOfProcess]
    generalize examine options state c = examined at examines isNew
    obtain ⟨_ | new, after⟩ := examined
    · exact examines.trans (inductionHypothesis _ examines.collecting)
    · have takesIn := achieves_takeIn options _ examines.collecting
        fun d same => isNew d (congrArg some same)
      have both := examines.trans takesIn
      dsimp only
      split
      · next closed =>
        rw [List.append_nil]
        exact both.ofClosed closed (c :: rest)
      · exact both.trans (inductionHypothesis _ both.collecting)

end

/-- All events of a run are settled in the end, unless a contradiction was found. -/
theorem achieves_run {fuel : Nat} {last : State} (collecting : state.book.Collecting)
    (ran : run options fuel state = some last) :
    Achieves options [] (trace options fuel state) state.book last.book := by
  induction fuel generalizing state with
  | zero => exact absurd ran nofun
  | succ fuel inductionHypothesis =>
    rw [run] at ran
    rw [trace]
    split at ran
    · next closed =>
      rw [if_pos closed, ← Option.some.inj ran]
      exact .refl collecting
    · next goesOn =>
      rw [if_neg goesOn]
      rcases popped : state.support.pop with _ | ⟨given, support⟩
      · simp only [popped] at ran ⊢
        rw [← Option.some.inj ran]
        exact .refl collecting
      · simp only [popped] at ran ⊢
        have processes := achieves_process options ⟨state.book,
          (infer options state.session given (state.usable.insert given).toList).2,
          state.usable.insert given, support⟩ collecting
          (infer options state.session given (state.usable.insert given).toList).1
        exact processes.inference.trans (inductionHypothesis processes.collecting ran)

/-- The proofs that a run without a contradiction ends with settle all that has happened in it. -/
theorem exists_settled_of_ask {fuel : Nat} {limit : TimeLimit} {kb last : KnowledgeBase}
    {query : Sentence} {answer : Answer} (collecting : (kb.refute query limit).book.Collecting)
    (asked : ask fuel limit options kb query = some (.ok answer, last)) :
    ∃ book, (kb.refute query limit).book.SameQuery book ∧ answer.proofs = book.proofs ∧
      ∀ event ∈ trace options fuel (start options (kb.refute query limit)),
        event.Settled options book := by
  rw [ask_eq] at asked
  generalize kb.refute query limit = refutation at collecting asked ⊢
  obtain ⟨final, ran, outcome⟩ := Option.map_eq_some_iff.1 asked
  have outcome := congrArg Prod.fst outcome
  have achieves : Achieves options [] _ (start options refutation).book final.book :=
    achieves_run collecting ran
  exact ⟨final.book, achieves.grows.sameQuery, AnswerBook.proofs_of_outcome outcome,
    achieves.settled (AnswerBook.consistent_of_outcome outcome)⟩

end GivenClause

end ClausalReasoner
