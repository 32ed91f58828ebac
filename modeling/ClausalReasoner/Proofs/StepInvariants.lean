/-
This file says what it takes for something to stay true during a search. The three refutation procedures
go through the same few steps again and again: they make clauses or chains, look at what was made and
store it. What every step of a procedure preserves, given what is known of the clauses or chains that
were made, a whole run of it preserves, however long it is.
-/

import ClausalReasoner.Procedure.GivenClause
import ClausalReasoner.Procedure.ModelElimination
import ClausalReasoner.Procedure.Saturation
import ClausalReasoner.Proofs.ResolutionInvariant

namespace ClausalReasoner

/-! ### Saturation -/

namespace Saturation

/-- The state after a pass, in which everything that was added is known. -/
def State.grown (passed : State) : State :=
  ⟨passed.book, passed.session, passed.known.insertAll passed.added.toList, ∅⟩

theorem saturate_succ (fuel : Nat) (state : State) : saturate (fuel + 1) state =
    if (pass state).book.isClosed || (pass state).added.isEmpty then some (pass state).grown
    else saturate fuel (pass state).grown := rfl

/-- What the steps of saturation preserve, and what they make: known clauses are resolved, factors are
made of what was made, each is considered, and after a pass the known clauses grow. -/
structure StepInvariant (holds : State → Prop) (made : Clause → Prop) : Prop where
  resolve : ∀ {state first second}, holds state → first ∈ state.known.toList →
    second ∈ state.known.toList →
      holds { state with session := (state.session.resolvents first second).2 } ∧
        ∀ c ∈ (state.session.resolvents first second).1, made c
  factor : ∀ {state c}, holds state → made c →
    holds { state with session := (state.session.factors c).2 } ∧
      ∀ d ∈ (state.session.factors c).1, made d
  consider : ∀ {state c}, holds state → made c → holds (consider state c)
  grow : ∀ {state}, holds state → holds state.grown

namespace StepInvariant

variable {holds : State → Prop} {made : Clause → Prop} (invariant : StepInvariant holds made)
  {state : State} {known : ClauseSet}

include invariant

/-- A step before the end of a pass leaves the known clauses as they are. -/
theorem considerFactors (kept : holds state ∧ state.known = known) {c : Clause} (given : made c) :
    holds (considerFactors state c) ∧ (Saturation.considerFactors state c).known = known := by
  rw [Saturation.considerFactors]
  split
  · exact kept
  · obtain ⟨begun, factors⟩ := invariant.factor kept.1 given
    refine foldl_invariant (fun later : State => holds later ∧ later.known = known)
      (fun later factor member kept =>
        ⟨invariant.consider kept.1 (factors factor member), ?_⟩) ⟨begun, kept.2⟩
    rw [Saturation.consider]
    split <;> exact kept.2

theorem resolvePair (kept : holds state ∧ state.known = known) {first second : Clause}
    (firstKnown : first ∈ known.toList) (secondKnown : second ∈ known.toList) :
    holds (resolvePair first state second) ∧
      (Saturation.resolvePair first state second).known = known := by
  obtain ⟨holdsHere, rfl⟩ := kept
  rw [Saturation.resolvePair]
  split
  · exact ⟨holdsHere, rfl⟩
  · obtain ⟨begun, resolvents⟩ := invariant.resolve holdsHere firstKnown secondKnown
    exact foldl_invariant (fun later : State => holds later ∧ later.known = state.known)
      (fun later resolvent member kept =>
        invariant.considerFactors kept (resolvents resolvent member)) ⟨begun, rfl⟩

theorem resolveAll {cs : List Clause} (among : cs ⊆ known.toList)
    (kept : holds state ∧ state.known = known) :
    holds (resolveAll cs state) ∧ (Saturation.resolveAll cs state).known = known := by
  induction cs generalizing state with
  | nil => exact kept
  | cons first rest inductionHypothesis =>
    obtain ⟨firstKnown, later⟩ := List.cons_subset.1 among
    refine inductionHypothesis later ?_
    exact foldl_invariant (fun state : State => holds state ∧ state.known = known)
      (fun state second member kept =>
        invariant.resolvePair kept firstKnown (among member)) kept

theorem saturate {fuel : Nat} {last : State} (kept : holds state)
    (ran : saturate fuel state = some last) : holds last := by
  induction fuel generalizing state with
  | zero => exact absurd ran nofun
  | succ fuel inductionHypothesis =>
    have passed : holds (pass state) :=
      (invariant.resolveAll (List.Subset.refl _) ⟨kept, rfl⟩).1
    rw [saturate_succ] at ran
    split at ran
    · exact Option.some.inj ran ▸ invariant.grow passed
    · exact inductionHypothesis (invariant.grow passed) ran

end StepInvariant

end Saturation

/-! ### Given clauses -/

namespace GivenClause

variable (options : GivenClauseOptions)

/-- The state after a new clause, if there is one, was taken in with its factors. -/
def takeIn (new : Option Clause) (state : State) : State :=
  match new with
  | none => state
  | some c =>
    (state.session.factors c).1.foldl (addFactor options)
      { state with session := (state.session.factors c).2 }

/-- Working through inferred clauses takes in what comes back of each. -/
theorem process_cons (state : State) (c : Clause) (rest : List Clause) :
    process options (c :: rest) state =
      match examine options state c with
      | (none, state) => process options rest state
      | (some new, state) =>
        if (takeIn options new state).book.isClosed then takeIn options new state
        else process options rest (takeIn options new state) := by
  rw [process]
  rcases examine options state c with ⟨_ | _ | new, after⟩ <;> rfl

/-- What the steps of a run preserve, and what they make: the given clause is taken from the support
and clauses are inferred from it, each is examined, factors are made of a new one, each is added to the
support and tried on the unit clauses. -/
structure StepInvariant (holds : State → Prop) (made : Clause → Prop) : Prop where
  take : ∀ {state given support}, holds state → state.support.pop = some (given, support) →
    let usable := state.usable.insert given
    let inferred := infer options state.session given usable.toList
    holds ⟨state.book, inferred.2, usable, support⟩ ∧ ∀ c ∈ inferred.1, made c
  examine : ∀ {state c}, holds state → made c →
    holds (examine options state c).2 ∧
      ∀ new, (examine options state c).1 = some (some new) → made new
  factor : ∀ {state c}, holds state → made c →
    holds { state with session := (state.session.factors c).2 } ∧
      ∀ d ∈ (state.session.factors c).1, made d
  add : ∀ {state c}, holds state → made c → holds (state.addToSupport c)
  attempt : ∀ {state c}, holds state → made c →
    let inferred := infer options state.session c (state.clauses.filter Clause.isUnit)
    holds { state with session := inferred.2 } ∧ ∀ d ∈ inferred.1, made d

namespace StepInvariant

variable {options} {holds : State → Prop} {made : Clause → Prop}
  (invariant : StepInvariant options holds made) {state : State} {cs : List Clause}

include invariant

theorem processUnits (kept : holds state) (all : ∀ c ∈ cs, made c) :
    holds (processUnits options cs state) := by
  induction cs generalizing state with
  | nil => exact kept
  | cons c rest inductionHypothesis =>
    obtain ⟨here, later⟩ := List.forall_mem_cons.1 all
    obtain ⟨examined, returned⟩ := invariant.examine kept here
    have goesOn : ∀ added : State, holds added → holds (if added.book.isClosed then added
        else GivenClause.processUnits options rest added) := by
      intro added kept
      split
      · exact kept
      · exact inductionHypothesis kept later
    rw [GivenClause.processUnits]
    generalize GivenClause.examine options state c = found at examined returned
    obtain ⟨_ | _ | new, after⟩ := found
    · exact inductionHypothesis examined later
    · exact goesOn after examined
    · exact goesOn _ (invariant.add examined (returned new rfl))

theorem addFactor (kept : holds state) {factor : Clause} (given : made factor) :
    holds (addFactor options state factor) := by
  rw [GivenClause.addFactor]
  split
  · exact kept
  · have added := invariant.add kept given
    rw [tryUnits]
    split
    · obtain ⟨begun, inferred⟩ := invariant.attempt added given
      exact invariant.processUnits begun inferred
    · exact added

theorem takeIn (kept : holds state) {new : Option Clause} (given : ∀ c, new = some c → made c) :
    holds (takeIn options new state) := by
  cases new with
  | none => exact kept
  | some c =>
    obtain ⟨begun, factors⟩ := invariant.factor kept (given c rfl)
    exact foldl_invariant holds
      (fun state factor member kept => invariant.addFactor kept (factors factor member)) begun

theorem process (kept : holds state) (all : ∀ c ∈ cs, made c) :
    holds (process options cs state) := by
  induction cs generalizing state with
  | nil => exact kept
  | cons c rest inductionHypothesis =>
    obtain ⟨here, later⟩ := List.forall_mem_cons.1 all
    obtain ⟨examined, returned⟩ := invariant.examine kept here
    rw [process_cons]
    generalize GivenClause.examine options state c = found at examined returned
    obtain ⟨_ | new, after⟩ := found
    · exact inductionHypothesis examined later
    · have taken := invariant.takeIn examined fun c same => returned c (congrArg some same)
      dsimp only
      split
      · exact taken
      · exact inductionHypothesis taken later

theorem run {fuel : Nat} {last : State} (kept : holds state)
    (ran : run options fuel state = some last) : holds last := by
  induction fuel generalizing state with
  | zero => exact absurd ran nofun
  | succ fuel inductionHypothesis =>
    rw [GivenClause.run] at ran
    split at ran
    · exact Option.some.inj ran ▸ kept
    · split at ran
      · exact Option.some.inj ran ▸ kept
      · next given support popped =>
        obtain ⟨begun, inferred⟩ := invariant.take kept popped
        exact inductionHypothesis (invariant.process begun inferred) ran

end StepInvariant

end GivenClause

/-! ### Model elimination -/

namespace ModelElimination

/-- What the steps of a search among given chains preserve, and what they make: a depth is reached, a
chain that was made is reduced with one of the given chains, and what comes of it is settled and
checked. -/
structure StepInvariant (chains : List Chain) (holds : State → Prop) (made : Chain → Prop) :
    Prop where
  reach : ∀ {state}, holds state → ∀ depth, holds { state with deepest := depth }
  fail : ∀ {state near far session}, holds state → made near → far ∈ chains →
    state.session.reduceChains near far = (none, session) → holds { state with session }
  settle : ∀ {state near far reduced session}, holds state → made near → far ∈ chains →
    state.session.reduceChains near far = (some reduced, session) →
      let settled := session.settle reduced
      let checked := state.book.checkChain settled.2 settled.1
      holds ⟨checked.2.1, checked.2.2, state.deepest⟩ ∧ made settled.1

namespace StepInvariant

variable {chains starts : List Chain} {holds : State → Prop} {made : Chain → Prop}
  (invariant : StepInvariant chains holds made) {state : State}

include invariant

theorem search (remaining depth : Nat) {near : Chain} (kept : holds state) (given : made near) :
    holds (search chains remaining depth state near) := by
  induction remaining generalizing depth state near with
  | zero => exact invariant.reach kept _
  | succ remaining inductionHypothesis =>
    rw [ModelElimination.search]
    dsimp only
    split
    · exact invariant.reach kept _
    · refine foldl_invariant holds (fun state far member kept => ?_) (invariant.reach kept _)
      have among : far ∈ chains := List.mem_of_mem_filter member
      split
      · exact kept
      · split
        · next failed => exact invariant.fail kept given among failed
        · next reduced session found =>
          obtain ⟨checked, settled⟩ := invariant.settle kept given among found
          split
          · exact checked
          · exact inductionHypothesis (depth + 1) checked settled

theorem searchAll (bound : Nat) (kept : holds state) (all : ∀ chain ∈ starts, made chain) :
    holds (searchAll chains starts bound state) := by
  refine foldl_invariant holds (fun state near member kept => ?_) (invariant.reach kept 0)
  split
  · exact kept
  · exact invariant.search bound 0 kept (all near member)

theorem deepen {fuel bound : Nat} {last : State} (kept : holds state)
    (all : ∀ chain ∈ starts, made chain) (ran : deepen chains starts fuel bound state = some last) :
    holds last := by
  induction fuel generalizing bound state with
  | zero => exact absurd ran nofun
  | succ fuel inductionHypothesis =>
    have searched := invariant.searchAll bound kept all
    rw [ModelElimination.deepen] at ran
    split at ran
    · exact Option.some.inj ran ▸ searched
    · exact inductionHypothesis searched ran

end StepInvariant

end ModelElimination

end ClausalReasoner
