/-
This file shows that the given clause procedure never loses a clause that it holds. What the support
and the usable clauses hold is listed for every moment of a run at which it changes: when a clause is
pushed, after each one that is taken out because of it, when a given clause was popped, and when it
has joined the usable clauses. At every later moment each clause held has a stand-in among those held
then, whatever the options are and wherever the run ends. What is discarded gives way to the clause
that was just pushed, which has another key and so is not discarded with it.
-/

import ClausalReasoner.Proofs.UsableClosure

namespace ClausalReasoner

/-! ### What is held one moment after the other -/

/-- Every clause held earlier has a stand-in among those held later. -/
def StandInsRemain (earlier later : List Clause) : Prop :=
  ∀ c ∈ earlier, c.HasStandIn later

namespace StandInsRemain

variable {first second third : List Clause}

theorem of_subset (subset : first ⊆ second) : StandInsRemain first second :=
  fun _ member => .of_mem (subset member)

theorem trans (here : StandInsRemain first second) (there : StandInsRemain second third) :
    StandInsRemain first third :=
  fun c member => (here c member).trans there

end StandInsRemain

/-- From what is held first, through the moments listed, to what is held last, stand-ins remain from
each moment to the next. -/
inductive PassesThrough : List Clause → List (List Clause) → List Clause → Prop
  | stay (held : List Clause) : PassesThrough held [] held
  | next {held next last : List Clause} {moments : List (List Clause)}
      (remain : StandInsRemain held next) (later : PassesThrough next moments last) :
      PassesThrough held (next :: moments) last

namespace PassesThrough

variable {first second third : List Clause} {moments others : List (List Clause)}

theorem append (here : PassesThrough first moments second)
    (there : PassesThrough second others third) : PassesThrough first (moments ++ others) third := by
  induction here with
  | stay => exact there
  | next remain _ inductionHypothesis => exact .next remain (inductionHypothesis there)

theorem getLast_eq (passes : PassesThrough first moments second) :
    (first :: moments).getLast (List.cons_ne_nil _ _) = second := by
  induction passes with
  | stay => rfl
  | next _ _ inductionHypothesis =>
    rw [List.getLast_cons (List.cons_ne_nil _ _)]
    exact inductionHypothesis

/-- Stand-ins remain from every moment to every later one. -/
theorem pairwise (passes : PassesThrough first moments second) :
    (first :: moments).Pairwise StandInsRemain := by
  induction passes with
  | stay => exact List.pairwise_singleton _ _
  | @next held between _ moments remain _ inductionHypothesis =>
    refine List.pairwise_cons.2 ⟨List.forall_mem_cons.2 ⟨remain, fun later member => ?_⟩,
      inductionHypothesis⟩
    exact remain.trans ((List.pairwise_cons.1 inductionHypothesis).1 later member)

end PassesThrough

namespace GivenClause

variable (options : GivenClauseOptions)

/-! ### The moments of a run -/

/-- What is held after each clause that is discarded. -/
def heldInDiscarding : List Clause → State → List (List Clause)
  | [], _ => []
  | c :: rest, state => (state.discard c).clauses :: heldInDiscarding rest (state.discard c)

/-- What is held when a clause is added: after it was pushed and after each one that it subsumes was
taken out. -/
def heldInAdding (c : Clause) (state : State) : List (List Clause) :=
  if state.clauses.any fun other => other.subsumes c then []
  else
    let pushed : State := { state with support := state.support.push c }
    pushed.clauses :: heldInDiscarding (state.clauses.filter fun other => c.subsumes other) pushed

/-- What is held while the clauses inferred from a near answer are worked through. -/
def heldInUnits : List Clause → State → List (List Clause)
  | [], _ => []
  | c :: rest, state =>
    match examine options state c with
    | (none, state) => heldInUnits rest state
    | (some none, state) => if state.book.isClosed then [] else heldInUnits rest state
    | (some (some c), state) =>
      let added := state.addToSupport c
      heldInAdding c state ++ if added.book.isClosed then [] else heldInUnits rest added

/-- What is held while a clause that is one literal away from an answer is tried on unit clauses. -/
def heldInTrying (c : Clause) (state : State) : List (List Clause) :=
  if isNearAnswer state.book c then
    let found := infer options state.session c (state.clauses.filter Clause.isUnit)
    heldInUnits options found.1 { state with session := found.2 }
  else []

/-- What is held while factors are added and tried one after the other. -/
def heldInFactors : List Clause → State → List (List Clause)
  | [], _ => []
  | factor :: rest, state =>
    (if state.book.inconsistent || state.isKnown factor then []
      else heldInAdding factor state ++ heldInTrying options factor (state.addToSupport factor)) ++
      heldInFactors rest (addFactor options state factor)

/-- What is held while a new clause, if there is one, is taken in with its factors. -/
def heldInTakingIn (new : Option Clause) (state : State) : List (List Clause) :=
  match new with
  | none => []
  | some c => heldInFactors options (state.session.factors c).1
      { state with session := (state.session.factors c).2 }

/-- What is held while the clauses inferred from a given clause are worked through. -/
def heldInProcess : List Clause → State → List (List Clause)
  | [], _ => []
  | c :: rest, state =>
    match examine options state c with
    | (none, state) => heldInProcess rest state
    | (some new, state) =>
      let taken := takeIn options new state
      heldInTakingIn options new state ++
        if taken.book.isClosed then [] else heldInProcess rest taken

/-- What is held from moment to moment in a run. Between leaving the support and joining the usable
clauses, the given clause is held beside them. -/
def heldInRun : Nat → State → List (List Clause)
  | 0, _ => []
  | fuel + 1, state =>
    if state.book.isClosed then []
    else
      match state.support.pop with
      | none => []
      | some (given, support) =>
        let usable := state.usable.insert given
        let found := infer options state.session given usable.toList
        let start : State := ⟨state.book, found.2, usable, support⟩
        (support.toList ++ given :: state.usable.toList) :: start.clauses ::
          (heldInProcess options found.1 start ++ heldInRun fuel (process options found.1 start))

variable {options} {state : State} {c : Clause}

/-! ### Adding to the support -/

/-- What is discarded gives way to a clause that subsumes it and has another key. -/
theorem passesThrough_discards (member : c ∈ state.clauses) {subsumed : List Clause}
    (each : ∀ d ∈ subsumed, c.subsumes d ∧ d.key ≠ c.key) :
    PassesThrough state.clauses (heldInDiscarding subsumed state)
      (subsumed.foldl State.discard state).clauses := by
  induction subsumed generalizing state with
  | nil => exact .stay _
  | cons d rest inductionHypothesis =>
    obtain ⟨⟨subsumes, different⟩, later⟩ := List.forall_mem_cons.1 each
    have stays : c ∈ (state.discard d).clauses :=
      (mem_clauses_discard member).resolve_right (Ne.symm different)
    refine .next (fun e inside => ?_) (inductionHypothesis stays later)
    rcases mem_clauses_discard (c := d) inside with here | same
    · exact .of_mem here
    · exact ((Clause.HasStandIn.of_mem stays).of_givesWay (Or.inr subsumes)).of_givesWay
        (Or.inl same.symm)

theorem passesThrough_addToSupport (unknown : state.isKnown c = false) :
    PassesThrough state.clauses (heldInAdding c state) (state.addToSupport c).clauses := by
  have differs : ∀ d ∈ state.clauses, d.key ≠ c.key := by
    intro d member same
    rw [← Bool.not_eq_true, isKnown_iff] at unknown
    exact unknown (same ▸ List.mem_map_of_mem member)
  rw [State.addToSupport, heldInAdding]
  dsimp only
  split
  · exact .stay _
  · let pushed : State := { state with support := state.support.push c }
    have inPushed : ∀ d, d ∈ pushed.clauses ↔ d = c ∨ d ∈ state.clauses := by
      intro d
      rw [State.clauses, State.clauses, List.mem_append, List.mem_append,
        ClauseQueue.mem_push (Bool.or_eq_false_iff.1 unknown).1, or_assoc]
    refine .next (.of_subset fun d member => (inPushed d).2 (Or.inr member)) ?_
    have member : c ∈ pushed.clauses := (inPushed c).2 (Or.inl rfl)
    exact passesThrough_discards member
      fun d among => ⟨(List.mem_filter.1 among).2, differs d (List.mem_filter.1 among).1⟩

/-! ### Working through inferred clauses -/

variable (options state)

/-- Looking at a clause changes nothing that is held, and what comes back is not known. -/
theorem clauses_examine (c : Clause) :
    (examine options state c).2.clauses = state.clauses ∧
      ∀ new, (examine options state c).1 = some (some new) →
        (examine options state c).2.isKnown new = false := by
  rw [examine]
  dsimp only
  split
  · exact ⟨rfl, fun new returned => absurd returned.symm (Option.some_ne_none (some new))⟩
  · refine ⟨rfl, fun new returned => ?_⟩
    have returned := Option.some.inj returned
    split at returned
    · cases returned
    · next unknown =>
      rw [Bool.not_eq_true, Bool.or_eq_false_iff] at unknown
      exact Option.some.inj returned ▸ unknown.2

theorem passesThrough_processUnits (cs : List Clause) :
    PassesThrough state.clauses (heldInUnits options cs state)
      (processUnits options cs state).clauses := by
  induction cs generalizing state with
  | nil => exact .stay _
  | cons c rest inductionHypothesis =>
    obtain ⟨same, unknown⟩ := clauses_examine options state c
    rw [heldInUnits, processUnits, ← same]
    generalize examine options state c = examined at unknown
    obtain ⟨_ | _ | new, after⟩ := examined
    · exact inductionHypothesis after
    · dsimp only
      split
      · exact .stay _
      · exact inductionHypothesis after
    · refine (passesThrough_addToSupport (unknown new rfl)).append ?_
      dsimp only
      split
      · exact .stay _
      · exact inductionHypothesis _

theorem passesThrough_tryUnits (c : Clause) :
    PassesThrough state.clauses (heldInTrying options c state)
      (tryUnits options state c).clauses := by
  rw [tryUnits, heldInTrying]
  split
  · let found := infer options state.session c (state.clauses.filter Clause.isUnit)
    exact passesThrough_processUnits options { state with session := found.2 } found.1
  · exact .stay _

theorem passesThrough_addFactors (factors : List Clause) :
    PassesThrough state.clauses (heldInFactors options factors state)
      (factors.foldl (addFactor options) state).clauses := by
  induction factors generalizing state with
  | nil => exact .stay _
  | cons factor rest inductionHypothesis =>
    refine PassesThrough.append ?_ (inductionHypothesis _)
    rw [addFactor]
    split
    · exact .stay _
    · next added =>
      rw [Bool.not_eq_true, Bool.or_eq_false_iff] at added
      exact (passesThrough_addToSupport added.2).append (passesThrough_tryUnits options _ factor)

theorem passesThrough_takeIn (new : Option Clause) :
    PassesThrough state.clauses (heldInTakingIn options new state)
      (takeIn options new state).clauses := by
  cases new with
  | none => exact .stay _
  | some c =>
    exact passesThrough_addFactors options { state with session := (state.session.factors c).2 } _

theorem passesThrough_process (cs : List Clause) :
    PassesThrough state.clauses (heldInProcess options cs state)
      (process options cs state).clauses := by
  induction cs generalizing state with
  | nil => exact .stay _
  | cons c rest inductionHypothesis =>
    obtain ⟨same, _⟩ := clauses_examine options state c
    rw [heldInProcess, process_cons, ← same]
    generalize examine options state c = examined
    obtain ⟨_ | new, after⟩ := examined
    · exact inductionHypothesis after
    · refine (passesThrough_takeIn options after new).append ?_
      dsimp only
      split
      · exact .stay _
      · exact inductionHypothesis _

/-! ### Whole runs -/

/-- A given clause is held when it was popped and has its key among the usable clauses then. -/
theorem passesThrough_given {given : Clause} {support : ClauseQueue}
    (popped : state.support.pop = some (given, support)) (session : Session) :
    PassesThrough state.clauses
      [support.toList ++ given :: state.usable.toList,
        support.toList ++ (state.usable.insert given).toList]
      (⟨state.book, session, state.usable.insert given, support⟩ : State).clauses := by
  refine .next (.of_subset fun c member => ?_) (.next (fun c member => ?_) (.stay _))
  · rw [State.clauses, ClauseQueue.toList_of_pop popped] at member
    exact List.perm_middle.mem_iff.2 member
  · rcases List.mem_append.1 member with queued | used
    · exact .of_mem (List.mem_append_left _ queued)
    · rcases List.mem_cons.1 used with rfl | old
      · refine .of_key_mem (List.mem_map.2 ?_)
        obtain ⟨kept, inside, same⟩ := state.usable.exists_key_insert c
        exact ⟨kept, List.mem_append_right _ inside, same⟩
      · exact .of_mem (List.mem_append_right _ (state.usable.subset_insert given old))

/-- A run passes through the moments listed for it, and ends with the last one if it ends. -/
theorem exists_passesThrough_run (fuel : Nat) :
    ∃ last, PassesThrough state.clauses (heldInRun options fuel state) last ∧
      ∀ final, run options fuel state = some final → last = final.clauses := by
  induction fuel generalizing state with
  | zero => exact ⟨_, .stay _, fun _ ran => absurd ran nofun⟩
  | succ fuel inductionHypothesis =>
    rw [heldInRun, run]
    split
    · exact ⟨_, .stay _, fun final ran => congrArg State.clauses (Option.some.inj ran)⟩
    · rcases popped : state.support.pop with _ | ⟨given, support⟩
      · exact ⟨_, .stay _, fun final ran => congrArg State.clauses (Option.some.inj ran)⟩
      · let usable := state.usable.insert given
        let found := infer options state.session given usable.toList
        let start : State := ⟨state.book, found.2, usable, support⟩
        obtain ⟨last, passes, ends⟩ := inductionHypothesis (process options found.1 start)
        exact ⟨last, (passesThrough_given state popped found.2).append
          ((passesThrough_process options start found.1).append passes), ends⟩

/-- More fuel only adds later moments. -/
theorem heldInRun_isPrefix (fuel : Nat) :
    heldInRun options fuel state <+: heldInRun options (fuel + 1) state := by
  induction fuel generalizing state with
  | zero => exact List.nil_prefix
  | succ fuel inductionHypothesis =>
    rw [heldInRun, heldInRun]
    split
    · exact List.nil_prefix
    · rcases state.support.pop with _ | ⟨given, support⟩
      · exact List.nil_prefix
      · simp only [List.cons_prefix_cons, true_and]
        exact (List.prefix_append_right_inj _).2 (inductionHypothesis _)

/-- **No clause that is held is lost.** In a search with any options and any time limit, each clause
held at some moment of the run has a stand-in among those held at any later moment. A longer run
goes through the same moments first, and a run that ends with an answer ends at the last of them. -/
theorem standIns_remain (options : GivenClauseOptions) (limit : TimeLimit) (kb : KnowledgeBase)
    (query : Sentence) (fuel : Nat) :
    let start := start options (kb.refute query limit)
    (start.clauses :: heldInRun options fuel start).Pairwise StandInsRemain ∧
      heldInRun options fuel start <+: heldInRun options (fuel + 1) start ∧
      ∀ answer last, ask fuel limit options kb query = some (answer, last) →
        ∃ final : State, final.book.outcome = answer ∧
          (start.clauses :: heldInRun options fuel start).getLast (List.cons_ne_nil _ _) =
            final.clauses := by
  dsimp only
  obtain ⟨last, passes, ends⟩ :=
    exists_passesThrough_run options (start options (kb.refute query limit)) fuel
  refine ⟨passes.pairwise, heldInRun_isPrefix options _ fuel, fun answer later asked => ?_⟩
  rw [ask_eq] at asked
  obtain ⟨final, ran, outcome⟩ := Option.map_eq_some_iff.1 asked
  exact ⟨final, congrArg Prod.fst outcome, passes.getLast_eq.trans (ends final ran)⟩

end GivenClause

/-! ### A rule that a fact subsumes -/

namespace KnowledgeBase

/-- The knowledge base that was told that all sing if it is summer. -/
def singing : KnowledgeBase :=
  supporting.telling (.connected .implication (.atom (.predicate "Summer" []))
    (.atom (.predicate "Sings" [.var ⟨"x", none⟩])))

/-- It is not summer. -/
def notSummer : Sentence :=
  .negation (.atom (.predicate "Summer" []))

set_option maxRecDepth 10000 in
theorem isSome_ask_singing :
    (GivenClause.ask 4 none resolvingOnly singing notSummer).isSome := by cbv

/-- `Sings(x)` takes the place of the rule that was told, and everything held at the start has a
stand-in when the search ends with an answer. -/
theorem standIns_remain_singing :
    ∃ answer last, GivenClause.ask 4 none resolvingOnly singing notSummer = some (answer, last) ∧
      ∃ final : GivenClause.State, final.book.outcome = answer ∧ StandInsRemain
        (GivenClause.start resolvingOnly (singing.refute notSummer none)).clauses final.clauses := by
  obtain ⟨pairwise, _, ends⟩ := GivenClause.standIns_remain resolvingOnly none singing notSummer 4
  obtain ⟨⟨answer, last⟩, asked⟩ := Option.isSome_iff_exists.1 isSome_ask_singing
  obtain ⟨final, outcome, isLast⟩ := ends answer last asked
  refine ⟨answer, last, asked, final, outcome, ?_⟩
  rcases List.mem_cons.1 (isLast ▸ List.getLast_mem (List.cons_ne_nil _ _)) with same | later
  · exact .of_subset (fun _ member => same ▸ member)
  · exact (List.pairwise_cons.1 pairwise).1 _ later

end KnowledgeBase

end ClausalReasoner
