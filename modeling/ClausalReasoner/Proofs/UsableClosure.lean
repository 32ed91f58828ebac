/-
This file shows what the given clause procedure has done with its usable clauses when the support
runs empty. Of two usable clauses of which one was given, the one that came in later was given when
the other was there, or the other one was there all along; either way everything that follows from
the two was inferred and worked through. A resolvent of them was found to be a tautology or an
answer, or it got a stand-in, and no later part of the search loses a stand-in.

Of the clauses that are inferred from one given clause only the first with each key is kept, and past
the limit on ties clauses may share a key that are no variants of each other. That a resolvent has
the key of a tautology that was inferred from the given clause therefore means that it is one only
within the limit; past it, the resolvent is lost.
-/

import ClausalReasoner.Proofs.FiledClauses
import ClausalReasoner.Proofs.ReportedAnswers
import ClausalReasoner.Proofs.StandIns

namespace ClausalReasoner

/-! ### Clauses that are not kept -/

namespace Clause

/-- There is an answer predicate, and the clause is an answer literal alone. -/
def IsAnswerFor (predicate : Option String) (c : Clause) : Prop :=
  ∃ name l, predicate = some name ∧ AnswerBook.answerLiteral? name c.literals = some l

/-- Among the clauses kept of what was inferred there is a tautology with the key of the clause, and
one of the two is past the limit on ties. -/
def TiedWithTautology (c : Clause) (inferred : List Clause) : Prop :=
  ∃ t ∈ inferred, t.isTautology ∧ t.key = c.key ∧
    ¬(WithinTieLimit t.literals ∧ WithinTieLimit c.literals)

/-- Replacing variables leaves a tautology one. -/
theorem isTautology_of_covers {c d : Clause} (covers : Covers c.literals d.literals)
    (tautology : c.isTautology) : d.isTautology := by
  obtain ⟨value, permutation⟩ := covers
  obtain ⟨l, here, m, there, positive, negative, same⟩ := isTautology_iff.1 tautology
  have inside : ∀ {k : Literal}, k ∈ c.literals → k.replace value ∈ d.literals :=
    fun member => permutation.subset (List.mem_map_of_mem member)
  exact isTautology_iff.2 ⟨_, inside here, _, inside there, positive, negative,
    congrArg (Atom.replace value) same⟩

/-- What has the key of an inferred tautology is one or past the limit on ties. -/
theorem isTautology_of_key_eq {inferred : List Clause} {c t : Clause} (member : t ∈ inferred)
    (tautology : t.isTautology) (same : t.key = c.key) :
    c.isTautology ∨ c.TiedWithTautology inferred := by
  by_cases within : WithinTieLimit t.literals ∧ WithinTieLimit c.literals
  · rw [key_eq, key_eq] at same
    exact Or.inl (isTautology_of_covers
      (covers_of_canonicalKey_eq within.1 within.2 same) tautology)
  · exact Or.inr ⟨t, member, tautology, same, within⟩

end Clause

namespace GivenClause

variable {options : GivenClauseOptions} {book : AnswerBook} {state later last : State}

/-! ### What became of an inferred clause -/

/-- A clause has the key of an inferred tautology, is an answer, or has a stand-in in a state. -/
def State.Accounts (state : State) (inferred : List Clause) (c : Clause) : Prop :=
  (∃ t ∈ inferred, t.isTautology ∧ t.key = c.key) ∨ c.IsAnswerFor state.book.predicate ∨
    c.HasStandIn state.clauses

namespace State.Accounts

variable {inferred : List Clause} {c d : Clause}

/-- Clauses with one key are accounted for alike. -/
theorem of_key_eq (accounts : state.Accounts inferred d) (same : d.key = c.key) :
    state.Accounts inferred c := by
  rcases accounts with ⟨t, member, tautology, key⟩ | ⟨predicate, l, isPredicate, answers⟩ | standIn
  · exact Or.inl ⟨t, member, tautology, key.trans same⟩
  · obtain ⟨_, m, answersToo⟩ := exists_answer_of_key_eq answers same.symm
    exact Or.inr (Or.inl ⟨predicate, m, isPredicate, answersToo⟩)
  · exact Or.inr (Or.inr (standIn.of_givesWay (Or.inl same)))

theorem mono (accounts : state.Accounts inferred c) (sameQuery : state.book.SameQuery later.book)
    (standIns : ∀ c ∈ state.clauses, c.HasStandIn later.clauses) : later.Accounts inferred c := by
  rcases accounts with tautology | ⟨predicate, l, isPredicate, answers⟩ | standIn
  · exact Or.inl tautology
  · exact Or.inr (Or.inl ⟨predicate, l, sameQuery.predicate.trans isPredicate, answers⟩)
  · exact Or.inr (Or.inr (standIn.trans standIns))

theorem upholds (accounts : state.Accounts inferred c) (upholds : state.Upholds later) :
    later.Accounts inferred c :=
  accounts.mono upholds.sameQuery upholds.standIns

end State.Accounts

section

variable (noParamodulation : options.paramodulation = false)
  (noDemodulators : options.demodulators = [])

include noParamodulation noDemodulators

/-- The clauses that were worked through are accounted for, unless the books are closed. -/
theorem accounts_process (proper : state.Proper book) {inferred cs : List Clause}
    (among : cs ⊆ inferred) (plain : ∀ c ∈ cs, c.Plain)
    (below : ∀ c ∈ cs, c.VariablesBelow state.session.supply.next) :
    (process options cs state).Proper book ∧ state.Upholds (process options cs state) ∧
      ((process options cs state).book.isClosed = false →
        ∀ c ∈ cs, (process options cs state).Accounts inferred c) := by
  induction cs generalizing state with
  | nil => exact ⟨proper, .refl state, fun _ c none => absurd none List.not_mem_nil⟩
  | cons c rest inductionHypothesis =>
    obtain ⟨plainHere, plainLater⟩ := List.forall_mem_cons.1 plain
    obtain ⟨belowHere, belowLater⟩ := List.forall_mem_cons.1 below
    obtain ⟨amongHere, amongLater⟩ := List.cons_subset.1 among
    obtain ⟨examined, upholds, returned⟩ := upholds_examine noDemodulators proper c
    have goesOn : ∀ added : State, added.Proper book → state.Upholds added →
        (added.book.isClosed = false → added.Accounts inferred c) →
        (process options rest added).Proper book ∧
          state.Upholds (process options rest added) ∧
          ((process options rest added).book.isClosed = false →
            ∀ d ∈ c :: rest, (process options rest added).Accounts inferred d) := by
      intro added proper upholds accounts
      obtain ⟨properLater, upholdsLater, accountsLater⟩ := inductionHypothesis proper amongLater
        plainLater fun d member => (belowLater d member).mono upholds.supply
      exact ⟨properLater, upholds.trans upholdsLater, fun isOpen => List.forall_mem_cons.2
        ⟨(accounts (upholdsLater.isOpen isOpen)).upholds upholdsLater, accountsLater isOpen⟩⟩
    have stops : ∀ added : State, added.Proper book → state.Upholds added →
        (added.book.isClosed = false → added.Accounts inferred c) →
        let after := if added.book.isClosed then added else process options rest added
        after.Proper book ∧ state.Upholds after ∧
          (after.book.isClosed = false → ∀ d ∈ c :: rest, after.Accounts inferred d) := by
      intro added proper upholds accounts
      dsimp only
      split
      · next closed =>
        refine ⟨proper, upholds, fun isOpen => ?_⟩
        rw [closed] at isOpen
        exact absurd isOpen.symm Bool.false_ne_true
      · exact goesOn added proper upholds accounts
    rw [process_cons]
    generalize examine options state c = found at examined upholds returned
    obtain ⟨_ | _ | new, after⟩ := found
    · exact goesOn after examined upholds fun _ => Or.inl ⟨c, amongHere, returned, rfl⟩
    · refine stops after examined upholds fun isOpen => ?_
      rcases returned isOpen with answer | known
      · exact Or.inr (Or.inl answer)
      · exact Or.inr (Or.inr (.of_key_mem (isKnown_iff.1 known)))
    · obtain ⟨rfl, _⟩ := returned
      obtain ⟨properTaken, upholdsTaken, standIn⟩ := upholds_takeIn noParamodulation noDemodulators
        examined plainHere (belowHere.mono upholds.supply)
      exact stops _ properTaken (upholds.trans upholdsTaken) fun isOpen =>
        Or.inr (Or.inr (standIn isOpen))

end

/-! ### Given clauses -/

/-- The state after a clause was taken from the support and everything that follows from it and the
usable clauses was worked through. -/
def State.afterGiven (options : GivenClauseOptions) (state : State) (given : Clause)
    (support : ClauseQueue) : State :=
  let found := infer options state.session given (state.usable.insert given).toList
  process options found.1 ⟨state.book, found.2, state.usable.insert given, support⟩

/-- A clause that was given with what was inferred from it and the usable clauses: of the clauses
with one key the first. -/
structure GivenStep where
  given : Clause
  inferred : List Clause

/-- The given clauses of a run with what was inferred from them, in order. -/
def givenSteps (options : GivenClauseOptions) : (fuel : Nat) → State → List GivenStep
  | 0, _ => []
  | fuel + 1, state =>
    if state.book.isClosed then []
    else
      match state.support.pop with
      | none => []
      | some (given, support) =>
        ⟨given, (infer options state.session given (state.usable.insert given).toList).1⟩ ::
          givenSteps options fuel (state.afterGiven options given support)

theorem run_succ (fuel : Nat) (state : State) : run options (fuel + 1) state =
    if state.book.isClosed then some state
    else
      match state.support.pop with
      | none => some state
      | some (given, support) => run options fuel (state.afterGiven options given support) := rfl

/-- Every resolvent of two usable clauses, the first of which is a copy of a given one, was accounted
for when one of the two was given. -/
def State.Settles (state : State) (steps : List GivenStep) : Prop :=
  ∀ c ∈ state.usable.toList, ∀ d ∈ state.usable.toList, (∃ step ∈ steps, c.CopyOf step.given) →
    ∀ r : Clause, r.IsResolvent c d →
      ∃ step ∈ steps, (c.CopyOf step.given ∨ d.CopyOf step.given) ∧ state.Accounts step.inferred r

section

variable (noParamodulation : options.paramodulation = false)
  (noDemodulators : options.demodulators = [])

include noParamodulation noDemodulators

/-- The resolvents of usable clauses stay accounted for, and those with a new given clause are
accounted for as well. -/
theorem settles_afterGiven (proper : state.Proper book) {steps : List GivenStep}
    (settles : state.Settles steps) {given : Clause} {support : ClauseQueue}
    (popped : state.support.pop = some (given, support)) :
    let inferred := (infer options state.session given (state.usable.insert given).toList).1
    (state.afterGiven options given support).Proper book ∧
      ((state.afterGiven options given support).book.isClosed = false →
        (state.afterGiven options given support).Settles (steps ++ [⟨given, inferred⟩])) := by
  intro inferred
  have entries := ClauseQueue.toList_of_pop popped
  have isGiven : given ∈ state.clauses :=
    List.mem_append_left _ (entries ▸ List.mem_cons_self)
  have usable : ∀ d ∈ (state.usable.insert given).toList, d ∈ state.usable.toList ∨ d = given :=
    fun d member => ClauseSet.mem_of_mem_insert member
  have plainUsable : ∀ d ∈ (state.usable.insert given).toList, d.Plain := by
    intro d member
    rcases usable d member with old | rfl
    · exact proper.plain d (List.mem_append_right _ old)
    · exact proper.plain d isGiven
  let found := infer options state.session given (state.usable.insert given).toList
  let start : State := ⟨state.book, found.2, state.usable.insert given, support⟩
  obtain ⟨supply, made, complete⟩ := keyed_infer noParamodulation state.session
    (proper.plain given isGiven) (proper.below given isGiven) plainUsable
  have among : ∀ d ∈ start.clauses, d ∈ state.clauses := by
    intro d member
    rcases List.mem_append.1 member with supported | there
    · exact List.mem_append_left _ (entries ▸ List.mem_cons_of_mem _ supported)
    · rcases usable d there with old | rfl
      · exact List.mem_append_right _ old
      · exact isGiven
  have standIns : ∀ d ∈ state.clauses, d.HasStandIn start.clauses := by
    intro d member
    rcases List.mem_append.1 member with supported | there
    · rw [entries] at supported
      rcases List.mem_cons.1 supported with rfl | rest
      · obtain ⟨kept, inside, same⟩ := state.usable.exists_key_insert d
        exact .of_key_mem (List.mem_map.2 ⟨kept, List.mem_append_right _ inside, same⟩)
      · exact .of_mem (List.mem_append_left _ rest)
    · exact .of_mem (List.mem_append_right _ (ClauseSet.subset_insert _ _ there))
  have properStart : start.Proper book :=
    ⟨fun d member => proper.plain d (among d member),
      fun d member => (proper.below d (among d member)).mono supply, proper.ends, proper.sameQuery⟩
  obtain ⟨properNow, upholds, accounts⟩ := accounts_process noParamodulation noDemodulators
    properStart (List.Subset.refl _) (fun k member => (made k member).1)
    fun k member => (made k member).2
  refine ⟨properNow, fun isOpen c here d there wasGiven r resolvent => ?_⟩
  -- a resolvent with a copy of the given clause was inferred up to its key
  have accounted : ∀ {c d r : Clause}, c.CopyOf given → d ∈ start.usable.toList →
      r.IsResolvent c d → (state.afterGiven options given support).Accounts inferred r := by
    intro c d r isCopy member resolvent
    obtain ⟨k, kept, same⟩ := List.mem_map.1 (complete d member r (resolvent.of_copies isCopy (.refl d)))
    exact (accounts isOpen k kept).of_key_eq same
  have now : (⟨given, inferred⟩ : GivenStep) ∈ steps ++ [⟨given, inferred⟩] :=
    List.mem_append_right _ List.mem_cons_self
  obtain ⟨source, member, isCopy⟩ := wasGiven
  rcases List.mem_append.1 member with before | isNow
  · rcases usable c (upholds.usable here) with oldFirst | rfl
    · rcases usable d (upholds.usable there) with oldSecond | rfl
      · obtain ⟨step, earlier, ofOne, early⟩ :=
          settles c oldFirst d oldSecond ⟨source, before, isCopy⟩ r resolvent
        have atStart : start.Accounts step.inferred r := early.mono (.refl _) standIns
        exact ⟨step, List.mem_append_left _ earlier, ofOne, atStart.upholds upholds⟩
      · exact ⟨_, now, Or.inr (.refl d),
          accounted (.refl d) (upholds.usable here) resolvent.symm⟩
    · exact ⟨_, now, Or.inl (.refl c), accounted (.refl c) (upholds.usable there) resolvent⟩
  · rw [List.mem_singleton.1 isNow] at isCopy
    exact ⟨_, now, Or.inl isCopy, accounted isCopy (upholds.usable there) resolvent⟩

/-- When a run ends with open books, the support is empty and the resolvents of usable clauses with
given ones are accounted for. -/
theorem settles_of_run {fuel : Nat} (proper : state.Proper book) {steps : List GivenStep}
    (settles : state.book.isClosed = false → state.Settles steps)
    (ran : run options fuel state = some last) :
    last.Proper book ∧ (last.book.isClosed = false →
      last.Settles (steps ++ givenSteps options fuel state) ∧ last.support.toList = []) := by
  induction fuel generalizing state steps with
  | zero => cases ran
  | succ fuel inductionHypothesis =>
    rw [run_succ] at ran
    rw [givenSteps]
    split at ran
    · next closed =>
      obtain rfl := Option.some.inj ran
      refine ⟨proper, fun isOpen => ?_⟩
      rw [isOpen] at closed
      exact absurd closed Bool.false_ne_true
    · next goesOn =>
      rw [if_neg goesOn]
      rcases popped : state.support.pop with _ | ⟨given, support⟩
      · simp only [popped] at ran ⊢
        obtain rfl := Option.some.inj ran
        refine ⟨proper, fun isOpen => ⟨by rw [List.append_nil]; exact settles isOpen, ?_⟩⟩
        rw [ClauseQueue.pop] at popped
        split at popped
        · next none => rw [ClauseQueue.toList, none, List.map_nil]
        · cases popped
      · simp only [popped] at ran ⊢
        obtain ⟨properNow, settlesNow⟩ := settles_afterGiven noParamodulation noDemodulators proper
          (settles (Bool.eq_false_iff.2 goesOn)) popped
        have ends := inductionHypothesis properNow settlesNow ran
        rwa [List.append_assoc, List.singleton_append] at ends

end

/-- The usable clauses that a run ends with, if it ends within the fuel. -/
def finalUsable (options : GivenClauseOptions) (fuel : Nat) (refutation : Refutation) :
    List Clause :=
  match run options fuel (start options refutation) with
  | some state => state.usable.toList
  | none => []

/-- The clause is a copy of one that was given. -/
def WasGiven (options : GivenClauseOptions) (fuel : Nat) (refutation : Refutation) (c : Clause) :
    Prop :=
  ∃ step ∈ givenSteps options fuel (start options refutation), c.CopyOf step.given

/-- Every resolvent of two of the last usable clauses of a run, one of which was given, is a
tautology, an answer, has a stand-in among them, or is tied with a tautology that was inferred when
one of the two was given. -/
def UsableClosed (options : GivenClauseOptions) (fuel : Nat) (refutation : Refutation) : Prop :=
  ∀ c ∈ finalUsable options fuel refutation, ∀ d ∈ finalUsable options fuel refutation,
    WasGiven options fuel refutation c ∨ WasGiven options fuel refutation d →
      ∀ r : Clause, r.IsResolvent c d →
        r.isTautology ∨ r.IsAnswerFor refutation.book.predicate ∨
          r.HasStandIn (finalUsable options fuel refutation) ∨
          ∃ step ∈ givenSteps options fuel (start options refutation),
            (c.CopyOf step.given ∨ d.CopyOf step.given) ∧ r.TiedWithTautology step.inferred

end GivenClause

/-! ### The start -/

namespace GivenClause

variable {options : GivenClauseOptions}

theorem mem_of_mem_withoutSubsumed {set : ClauseSet} {c : Clause}
    (member : c ∈ (withoutSubsumed set).toList) : c ∈ set.toList :=
  have subset : (withoutSubsumed set).toList ⊆ set.toList :=
    foldl_invariant (fun after : ClauseSet => after.toList ⊆ set.toList)
      (fun _ _ _ kept _ inside => kept (ClauseSet.mem_of_mem_erase inside)) (List.Subset.refl _)
  subset member

/-- The first state has plain clauses that are older than the supply. -/
theorem proper_start (noParamodulation : options.paramodulation = false) {refutation : Refutation}
    (stored : ∀ c ∈ refutation.kb.clauses.toList, c.Plain)
    (goals : ∀ c ∈ refutation.goals, c.Plain ∧ c.VariablesBelow refutation.session.supply.next)
    (ends : refutation.book.EndsByRefuting) :
    (start options refutation).Proper refutation.book := by
  let usable := initialUsable options refutation.session refutation.kb.clauses.toList
  let support := initialSupport usable.2 refutation.goals
  have factored : usable =
      (ClauseSet.ofList (refutation.session.factorsApart refutation.kb.clauses.toList).1,
        (refutation.session.factorsApart refutation.kb.clauses.toList).2) := by
    simp only [usable, initialUsable, noParamodulation, Bool.false_eq_true, if_false]
  have good : ∀ c ∈ usable.1.toList, c.Plain ∧ c.VariablesBelow usable.2.supply.next := by
    intro c member
    rw [factored] at member ⊢
    obtain ⟨made, _⟩ := refutation.session.keyed_factorsApart stored
    obtain ⟨plain, below, _⟩ := made c (ClauseSet.mem_of_mem_ofList member)
    exact ⟨plain, below⟩
  have older : refutation.session.supply.next ≤ usable.2.supply.next := by
    rw [factored]
    exact refutation.session.next_le_factorsApart _
  have supported : ∀ c ∈ support.1.toList, c.Plain ∧ c.VariablesBelow support.2.supply.next := by
    intro c member
    obtain ⟨group, inside, there⟩ := List.mem_flatten.1 (ClauseSet.mem_of_mem_ofList member)
    exact Session.mapList_forall
      (fun (bound : Nat) (c : Clause) => c.Plain ∧ c.VariablesBelow bound)
      (fun (bound : Nat) (group : List Clause) => ∀ c ∈ group, c.Plain ∧ c.VariablesBelow bound)
      (fun le given => ⟨given.1, given.2.mono le⟩)
      (fun le made c member => ⟨(made c member).1, (made c member).2.mono le⟩)
      Session.next_le_factors
      (fun session c given f member =>
        have factors := session.keyedFactors_factors given.1 given.2
        ⟨factors.plain f member, factors.below f member⟩)
      usable.2 (fun c member => ⟨(goals c member).1, (goals c member).2.mono older⟩)
      group inside c there
  have grown : usable.2.supply.next ≤ support.2.supply.next :=
    Session.next_le_mapList _ Session.next_le_factors refutation.goals
  have all : ∀ c ∈ (start options refutation).clauses,
      c.Plain ∧ c.VariablesBelow support.2.supply.next := by
    refine List.forall_mem_append.2 ⟨?_, fun c member => ?_⟩
    · refine foldl_invariant
        (fun q : ClauseQueue => ∀ c ∈ q.toList, c.Plain ∧ c.VariablesBelow support.2.supply.next)
        (fun q c member kept d inside => ?_) fun d none => absurd none List.not_mem_nil
      rcases ClauseQueue.mem_of_mem_push inside with old | rfl
      · exact kept d old
      · exact supported d (mem_of_mem_withoutSubsumed member)
    · obtain ⟨plain, below⟩ := good c (mem_of_mem_withoutSubsumed member)
      exact ⟨plain, below.mono grown⟩
  exact ⟨fun c member => (all c member).1, fun c member => (all c member).2, ends, .refl _⟩

/-- **The given clause procedure closes its usable clauses.** If a run without paramodulation and
demodulators ends with open books, every resolvent of two of the usable clauses that are left, one
of which was given, is a tautology, an answer or has a stand-in among them, unless it is tied with a
tautology that was inferred from the same given clause. -/
theorem closed_of_run (noParamodulation : options.paramodulation = false)
    (noDemodulators : options.demodulators = []) {refutation : Refutation}
    (stored : ∀ c ∈ refutation.kb.clauses.toList, c.Plain)
    (goals : ∀ c ∈ refutation.goals, c.Plain ∧ c.VariablesBelow refutation.session.supply.next)
    (ends : refutation.book.EndsByRefuting) {fuel : Nat} {last : State}
    (ran : run options fuel (start options refutation) = some last) :
    last.book.EndsByRefuting ∧ refutation.book.SameQuery last.book ∧
      (last.book.isClosed = false → UsableClosed options fuel refutation) := by
  obtain ⟨proper, settles⟩ := settles_of_run noParamodulation noDemodulators
    (proper_start noParamodulation stored goals ends)
    (fun _ c _ d _ none => absurd none.choose_spec.1 List.not_mem_nil) ran
  refine ⟨proper.ends, proper.sameQuery, fun isOpen => ?_⟩
  obtain ⟨settled, empty⟩ := settles isOpen
  have final : finalUsable options fuel refutation = last.usable.toList := by
    rw [finalUsable, ran]
  have clauses : last.clauses = last.usable.toList := by
    rw [State.clauses, empty, List.nil_append]
  rw [UsableClosed, final]
  intro c here d there given r resolvent
  obtain ⟨step, taken, ofOne, accounts⟩ :
      ∃ step ∈ givenSteps options fuel (start options refutation),
        (c.CopyOf step.given ∨ d.CopyOf step.given) ∧ last.Accounts step.inferred r := by
    rcases given with isGiven | isGiven
    · exact settled c here d there isGiven r resolvent
    · obtain ⟨step, taken, ofOne, accounts⟩ := settled d there c here isGiven r resolvent.symm
      exact ⟨step, taken, ofOne.symm, accounts⟩
  rw [State.Accounts, clauses, proper.sameQuery.predicate] at accounts
  rcases accounts with ⟨t, member, tautology, key⟩ | answer | standIn
  · exact (Clause.isTautology_of_key_eq member tautology key).imp_right
      fun tied => Or.inr (Or.inr ⟨step, taken, ofOne, tied⟩)
  · exact Or.inr (Or.inl answer)
  · exact Or.inr (Or.inr (Or.inl standIn))

end GivenClause

/-! ### Closure of the usable clauses -/

namespace KnowledgeBase

variable {kb last : KnowledgeBase} {query : Sentence} {options : GivenClauseOptions} {fuel : Nat}
  {answer : Answer}

/-- **Asking with a set of support closes the usable clauses.** When a reachable knowledge base
answers without paramodulation, demodulators and time limit and does not come upon a refutation, so
that the support ran empty, every resolvent of two of the usable clauses that are left, one of which
was given, is a tautology, an answer or has a stand-in among them, unless it is tied with a
tautology that was inferred from the same given clause. -/
theorem Reachable.usableClosed_of_ask (reachable : kb.Reachable)
    (procedure : kb.procedure = .givenClause none options)
    (noParamodulation : options.paramodulation = false) (noDemodulators : options.demodulators = [])
    (asked : kb.ask fuel query = some (.ok answer, last))
    (unrefuted : (kb.refutationOf query).book.predicate = none → answer.proofs = []) :
    GivenClause.UsableClosed options fuel (kb.refutationOf query) := by
  obtain ⟨found, ran, proofs⟩ := exists_answer_of_ask asked
  rw [procedure, Procedure.ask, GivenClause.ask_eq] at ran
  have stored : ∀ c ∈ (kb.refutationOf query).kb.clauses.toList, c.Plain := by
    rw [refutationOf, refute_eq]
    exact reachable.regular.plain
  have plainGoals : ∀ c ∈ (kb.refutationOf query).goals, c.Plain :=
    (kb.atQuery query).plain_of_mem_goals (kb.freshQuery query) none
  have belowGoals : ∀ c ∈ (kb.refutationOf query).goals,
      c.VariablesBelow (kb.refutationOf query).session.supply.next := by
    rw [refutationOf]
    exact (kb.atQuery query).below_of_mem_goals (kb.freshQuery query) none
  have book : (kb.refutationOf query).book.EndsByRefuting := by
    rw [refutationOf, refute_eq]
    exact ⟨⟨rfl, fun complete => absurd complete Bool.false_ne_true⟩,
      fun complete => absurd complete Bool.false_ne_true⟩
  obtain ⟨state, run, outcome⟩ := Option.map_eq_some_iff.1 ran
  obtain ⟨ends, sameQuery, closed⟩ := GivenClause.closed_of_run noParamodulation noDemodulators
    stored (fun c member => ⟨plainGoals c member, belowGoals c member⟩) book run
  refine closed (ends.isClosed_eq_false (congrArg Prod.fst outcome) fun none => ?_)
  rw [sameQuery.predicate] at none
  exact List.map_eq_nil_iff.1 (proofs.symm.trans (unrefuted none))

/-! ### Neighbours on a street, given one by one -/

/-- The options without paramodulation. -/
def resolvingOnly : GivenClauseOptions :=
  { paramodulation := false }

/-- The empty knowledge base that refutes with a set of support, without paramodulation and time
limit. -/
def supporting : KnowledgeBase :=
  { procedure := .givenClause none resolvingOnly }

/-- The knowledge base that refutes with a set of support and was told that `A` is near everything
or everything near `B`. -/
def supportedStreet : KnowledgeBase :=
  supporting.telling nearOneEnd

set_option maxRecDepth 10000 in
theorem isUnproved_supportedStreet : supportedStreet.isUnproved 4 nearItself := by cbv

/-- The goal resolves with the told clause to `Near(z, B)`, which is given next. -/
theorem usableClosed_supportedStreet :
    supportedStreet.isUnproved 4 nearItself ∧
      GivenClause.UsableClosed resolvingOnly 4 (supportedStreet.refutationOf nearItself) := by
  obtain ⟨answer, last, asked, noProofs⟩ := exists_of_isUnproved isUnproved_supportedStreet
  have reachable : supportedStreet.Reachable := (Reachable.initial _).telling nearOneEnd
  have procedure : supportedStreet.procedure = .givenClause none resolvingOnly :=
    procedure_telling _ _
  exact ⟨isUnproved_supportedStreet,
    reachable.usableClosed_of_ask procedure rfl rfl asked fun _ => noProofs⟩

end KnowledgeBase

end ClausalReasoner
