/-
This file shows that indices are only ever used up. Every rule of inference hands back a session whose
supply begins no earlier than before, hence so does every part of a search and every procedure. An
index that a query has seen handed out is therefore not handed out again after it.
-/

import ClausalReasoner.Proofs.BackwardSoundness
import ClausalReasoner.Proofs.GivenClauseEvents
import ClausalReasoner.Proofs.SaturationClosure
import ClausalReasoner.Proofs.StoredClauses

namespace ClausalReasoner

/-- Going through a list uses up what its elements use up. -/
theorem next_le_foldl {State Element : Type} {step : State → Element → State} (next : State → Nat)
    {list : List Element} (each : ∀ state, ∀ element ∈ list, next state ≤ next (step state element))
    (state : State) : next state ≤ next (list.foldl step state) :=
  foldl_invariant (fun later => next state ≤ next later)
    (fun later element member le => Nat.le_trans le (each later element member)) (Nat.le_refl _)

/-! ### The rules -/

namespace Session

variable (session : Session)

theorem next_le_mapList {Input Output : Type} {step : Session → Input → Output × Session}
    (each : ∀ session input, session.supply.next ≤ (step session input).2.supply.next)
    (inputs : List Input) : session.supply.next ≤ (session.mapList step inputs).2.supply.next := by
  induction inputs generalizing session with
  | nil => exact Nat.le_refl _
  | cons input rest inductionHypothesis =>
    exact Nat.le_trans (each session input) (inductionHypothesis (step session input).2)

theorem next_le_rename (c : Clause) : session.supply.next ≤ (session.rename c).2.supply.next :=
  (session.copyOf_rename c).2.1

theorem next_le_standardizeApart (c : Clause) :
    session.supply.next ≤ (session.standardizeApart c).2.supply.next :=
  (session.copyOf_standardizeApart c).2.1

theorem next_le_apartFrom (first second : Clause) :
    session.supply.next ≤ (session.apartFrom first second).2.supply.next := by
  rw [apartFrom]
  split
  · exact session.next_le_rename second
  · exact Nat.le_refl _

end Session

/-- What a step makes of an input has a property that depends on the indices that are used up, if the
input has one, and neither property is lost as more are used up. -/
theorem Session.mapList_forall {Input Output : Type} {step : Session → Input → Output × Session}
    (fits : Nat → Input → Prop) (made : Nat → Output → Prop)
    (fitsLater : ∀ {m n input}, m ≤ n → fits m input → fits n input)
    (madeLater : ∀ {m n output}, m ≤ n → made m output → made n output)
    (grows : ∀ session input, session.supply.next ≤ (step session input).2.supply.next)
    (each : ∀ (session : Session) (input : Input), fits session.supply.next input →
      made (step session input).2.supply.next (step session input).1)
    (session : Session) {inputs : List Input}
    (all : ∀ input ∈ inputs, fits session.supply.next input) :
    ∀ output ∈ (session.mapList step inputs).1,
      made (session.mapList step inputs).2.supply.next output := by
  induction inputs generalizing session with
  | nil => exact fun _ none => absurd none List.not_mem_nil
  | cons input rest inductionHypothesis =>
    obtain ⟨here, later⟩ := List.forall_mem_cons.1 all
    refine List.forall_mem_cons.2 ⟨?_, inductionHypothesis _ fun other member =>
      fitsLater (grows session input) (later other member)⟩
    exact madeLater (Session.next_le_mapList _ grows rest) (each session input here)

namespace Collection

variable (collection : Collection)

theorem next_le_add (rule : Rule) (c : Clause) (θ : Substitution) (sources : List StepNumber) :
    collection.session.supply.next ≤
      (collection.add rule c θ sources).session.supply.next := by
  rw [add]
  split <;> exact Nat.le_refl _

theorem next_le_addUnified (rule : Rule) (ls : List Literal) (θ : Substitution)
    (sources : List StepNumber) : collection.session.supply.next ≤
      (collection.addUnified rule ls θ sources).session.supply.next :=
  Nat.le_trans (collection.session.next_le_rename _) (next_le_add ⟨_, _, _⟩ rule _ θ sources)

theorem next_le_addFactor (c : Clause) (pair : Literal × Literal) :
    collection.session.supply.next ≤ (addFactor c collection pair).session.supply.next := by
  rw [addFactor]
  split
  · exact Nat.le_refl _
  · exact collection.next_le_addUnified _ _ _ _

theorem next_le_collectFactors (depth : Nat) (c : Clause) :
    collection.session.supply.next ≤
      (collectFactors depth c collection).session.supply.next := by
  induction depth generalizing c collection with
  | zero => exact Nat.le_refl _
  | succ depth inductionHypothesis =>
    have direct := next_le_foldl (fun collection : Collection => collection.session.supply.next)
      (fun collection pair (_ : pair ∈ c.factorPairs) => collection.next_le_addFactor c pair)
      ⟨collection.session, collection.seen, []⟩
    rw [collectFactors]
    generalize c.factorPairs.foldl (addFactor c) ⟨collection.session, collection.seen, []⟩ = found
      at direct
    exact Nat.le_trans direct
      (next_le_foldl (fun collection : Collection => collection.session.supply.next)
        (fun collection factor _ => inductionHypothesis collection factor)
        ⟨found.session, found.seen, found.found ++ collection.found⟩)

theorem next_le_addResolvent (pair : ResolutionPair) :
    collection.session.supply.next ≤ (addResolvent collection pair).session.supply.next := by
  rw [addResolvent]
  split
  · exact Nat.le_refl _
  · exact collection.next_le_addUnified _ _ _ _

theorem next_le_foldl_addResolvent (pairs : List ResolutionPair) :
    collection.session.supply.next ≤ (pairs.foldl addResolvent collection).session.supply.next :=
  next_le_foldl (fun collection : Collection => collection.session.supply.next)
    (fun collection pair _ => collection.next_le_addResolvent pair) collection

theorem next_le_addParamodulant (site : ParamodulationSite) :
    collection.session.supply.next ≤ (addParamodulant collection site).session.supply.next := by
  rw [addParamodulant]
  split
  · exact Nat.le_refl _
  · dsimp only
    split <;> exact collection.session.next_le_rename _

end Collection

namespace Session

variable (session : Session)

theorem next_le_factors (c : Clause) :
    session.supply.next ≤ (session.factors c).2.supply.next :=
  Collection.next_le_collectFactors ⟨session, [c.key], [c]⟩ _ c

theorem next_le_factorsApart (cs : List Clause) :
    session.supply.next ≤ (session.factorsApart cs).2.supply.next :=
  session.next_le_mapList (fun session c => Nat.le_trans (session.next_le_standardizeApart c)
    ((session.standardizeApart c).2.next_le_factors _)) cs

theorem next_le_resolvents (first second : Clause) :
    session.supply.next ≤ (session.resolvents first second).2.supply.next := by
  rw [resolvents]
  split
  · exact Nat.le_refl _
  · exact Nat.le_trans (session.next_le_apartFrom first second)
      (Collection.next_le_foldl_addResolvent ⟨(session.apartFrom first second).2, [], []⟩ _)

theorem next_le_paramodulants (first second : Clause) :
    session.supply.next ≤ (session.paramodulants first second).2.supply.next :=
  Nat.le_trans (session.next_le_apartFrom first second)
    (next_le_foldl (fun collection : Collection => collection.session.supply.next)
      (fun collection site _ => collection.next_le_addParamodulant site)
      ⟨(session.apartFrom first second).2, [], []⟩)

/-- Demodulation makes no variables. -/
theorem supply_demodulateTimes (equation : Atom) (times : Nat) (c : Clause) :
    (demodulateTimes equation times session c).2.supply = session.supply := by
  induction times generalizing session c with
  | zero => rfl
  | succ times inductionHypothesis =>
    rw [demodulateTimes, demodulateClause]
    cases demodulateFirst equation c.literals with
    | none => rfl
    | some changed => exact inductionHypothesis _ _

theorem supply_simplify (equations : List Atom) (c : Clause) :
    (session.simplify equations c).2.supply = session.supply :=
  foldl_invariant (fun found : Clause × Session => found.2.supply = session.supply)
    (fun found equation _ same => (found.2.supply_demodulateTimes equation _ found.1).trans same) rfl

theorem next_le_renameChain (chain : Chain) :
    session.supply.next ≤ (session.renameChain chain).2.supply.next := by
  show session.supply.next ≤ (chain.renamed session.supply).2.next
  rw [Chain.renamed]
  split
  · exact Nat.le_refl _
  · exact Supply.next_le_freshen session.supply chain.vars

theorem next_le_reduceChains (near far : Chain) :
    session.supply.next ≤ (session.reduceChains near far).2.supply.next := by
  rw [reduceChains]
  split
  · exact Nat.le_refl _
  · dsimp only
    split <;> exact session.next_le_renameChain far

/-- Cancelling and dropping heads makes no variables. -/
theorem supply_settleChain (times : Nat) (chain : Chain) :
    (settleChain times session chain).2.supply = session.supply := by
  induction times generalizing session chain with
  | zero => rfl
  | succ times inductionHypothesis =>
    have cancels : ∀ found, session.cancelHead chain = some found →
        found.2.supply = session.supply := by
      intro found cancelled
      obtain ⟨head, _, concluded⟩ := Option.bind_eq_some_iff.1 cancelled
      obtain ⟨θ, _, rfl⟩ := Option.map_eq_some_iff.1 concluded
      rfl
    have drops : ∀ found, session.dropHead chain = some found →
        found.2.supply = session.supply := by
      intro found dropped
      obtain ⟨head, _, concluded⟩ := Option.bind_eq_some_iff.1 dropped
      split at concluded
      · rw [← Option.some.inj concluded]
        rfl
      · exact absurd concluded nofun
    rw [settleChain]
    split
    · next cancelled recorded found => exact (inductionHypothesis _ _).trans (cancels _ found)
    · split
      · next dropped recorded found => exact (inductionHypothesis _ _).trans (drops _ found)
      · rfl

/-- Moving literals makes no variables. -/
theorem supply_contrapositives (chain : Chain) :
    (session.contrapositives chain).2.supply = session.supply := by
  change (List.foldl _ ([], session) _ : List Chain × Session).2.supply = session.supply
  refine foldl_invariant (fun found : List Chain × Session => found.2.supply = session.supply)
    (fun found ls _ same => ?_) rfl
  exact same

end Session

/-! ### The procedures -/

namespace Saturation

variable (state : State)

theorem next_le_consider (c : Clause) :
    state.session.supply.next ≤ (consider state c).session.supply.next := by
  rw [consider]
  split
  · exact Nat.le_refl _
  · exact Nat.le_of_eq (congrArg Supply.next (state.book.supply_checkClause state.session c)).symm

/-- Every step of saturation leaves at least as many indices used up. -/
theorem stepInvariant_next (least : Nat) :
    StepInvariant (fun state => least ≤ state.session.supply.next) fun _ => True where
  resolve {state first second} le _ _ :=
    ⟨Nat.le_trans le (state.session.next_le_resolvents first second), fun _ _ => trivial⟩
  factor {state c} le _ := ⟨Nat.le_trans le (state.session.next_le_factors c), fun _ _ => trivial⟩
  consider {state c} le _ := Nat.le_trans le (next_le_consider state c)
  grow le := le

theorem next_le_saturate {state last : State} {fuel : Nat} (ran : saturate fuel state = some last) :
    state.session.supply.next ≤ last.session.supply.next :=
  (stepInvariant_next state.session.supply.next).saturate (Nat.le_refl _) ran

theorem next_le_start (refutation : Refutation) :
    refutation.session.supply.next ≤ (start refutation).session.supply.next :=
  refutation.session.next_le_factorsApart _

end Saturation

namespace GivenClause

variable (options : GivenClauseOptions) (state : State)

theorem next_le_inferPair (paramodulation : Bool) (c : Clause) (found : ClauseSet × Session)
    (other : Clause) :
    found.2.supply.next ≤ (inferPair paramodulation c found other).2.supply.next := by
  have resolves := found.2.next_le_resolvents c other
  rw [inferPair]
  dsimp only
  split
  · exact Nat.le_trans resolves ((found.2.resolvents c other).2.next_le_paramodulants c other)
  · exact resolves

theorem next_le_infer (session : Session) (c : Clause) (others : List Clause) :
    session.supply.next ≤ (infer options session c others).2.supply.next :=
  next_le_foldl (fun found : ClauseSet × Session => found.2.supply.next)
    (fun found other _ => next_le_inferPair options.paramodulation c found other) (∅, session)

theorem next_le_examine (c : Clause) :
    state.session.supply.next ≤ (examine options state c).2.session.supply.next := by
  have simplified := state.session.supply_simplify options.demodulators c
  rw [examine]
  dsimp only
  split
  · rw [simplified]
  · rw [AnswerBook.supply_checkClause, simplified]

theorem supply_addToSupport (c : Clause) :
    (state.addToSupport c).session.supply = state.session.supply := by
  rw [State.addToSupport]
  dsimp only
  split
  · rfl
  · refine foldl_invariant (fun added : State => added.session.supply = state.session.supply)
      (fun added other _ same => ?_) rfl
    rw [State.discard]
    split <;> exact same

/-- Every step of a run leaves at least as many indices used up. -/
theorem stepInvariant_next (least : Nat) :
    StepInvariant options (fun state => least ≤ state.session.supply.next) fun _ => True where
  take {state given _} le _ :=
    ⟨Nat.le_trans le (next_le_infer options state.session given _), fun _ _ => trivial⟩
  examine {state c} le _ :=
    ⟨Nat.le_trans le (next_le_examine options state c), fun _ _ => trivial⟩
  factor {state c} le _ := ⟨Nat.le_trans le (state.session.next_le_factors c), fun _ _ => trivial⟩
  add {state c} le _ := by
    rw [supply_addToSupport]
    exact le
  attempt {state c} le _ :=
    ⟨Nat.le_trans le (next_le_infer options state.session c _), fun _ _ => trivial⟩

variable {options state}

theorem next_le_run {fuel : Nat} {last : State} (ran : run options fuel state = some last) :
    state.session.supply.next ≤ last.session.supply.next :=
  (stepInvariant_next options state.session.supply.next).run (Nat.le_refl _) ran

theorem next_le_start (options : GivenClauseOptions) (refutation : Refutation) :
    refutation.session.supply.next ≤ (start options refutation).session.supply.next := by
  have usable : refutation.session.supply.next ≤
      (initialUsable options refutation.session refutation.kb.clauses.toList).2.supply.next := by
    have factors := refutation.session.next_le_factorsApart refutation.kb.clauses.toList
    rw [initialUsable]
    dsimp only
    split
    · exact Nat.le_succ_of_le factors
    · exact factors
  exact Nat.le_trans usable (Session.next_le_mapList _ Session.next_le_factors refutation.goals)

end GivenClause

namespace ModelElimination

/-- Every step of the search leaves at least as many indices used up. -/
theorem stepInvariant_next (chains : List Chain) (least : Nat) :
    StepInvariant chains (fun state => least ≤ state.session.supply.next) fun _ => True where
  reach le _ := le
  fail {state near far session} le _ _ failed := by
    have reduces := state.session.next_le_reduceChains near far
    rw [failed] at reduces
    exact Nat.le_trans le reduces
  settle {state near far reduced session} le _ _ found := by
    have reduces := state.session.next_le_reduceChains near far
    rw [found] at reduces
    refine ⟨?_, trivial⟩
    rw [AnswerBook.checkChain, AnswerBook.supply_check, Session.settle, Session.supply_settleChain]
    exact Nat.le_trans le reduces

theorem next_le_deepen {chains starts : List Chain} {fuel bound : Nat} {state last : State}
    (ran : deepen chains starts fuel bound state = some last) :
    state.session.supply.next ≤ last.session.supply.next :=
  (stepInvariant_next chains state.session.supply.next).deepen (Nat.le_refl _)
    (fun _ _ => trivial) ran

theorem next_le_chainsOf (session : Session) (cs : List Clause) :
    session.supply.next ≤ (chainsOf session cs).2.supply.next := by
  refine session.next_le_mapList (fun session c => ?_) cs
  exact Nat.le_of_eq (congrArg Supply.next
    ((session.chainOfClause c).2.supply_contrapositives (session.chainOfClause c).1)).symm

theorem next_le_initialChains (refutation : Refutation) :
    refutation.session.supply.next ≤ (initialChains refutation).2.2.supply.next :=
  Nat.le_trans (next_le_chainsOf _ _) (next_le_chainsOf _ refutation.goals)

end ModelElimination

namespace ForwardChaining

variable {kb : KnowledgeBase}

theorem next_le_round (kb : KnowledgeBase) (query : Literal) (session : Session) :
    session.supply.next ≤ (round kb query session).session.supply.next := by
  refine next_le_foldl (fun round : Round => round.session.supply.next) (fun round rule _ => ?_)
    { session := session }
  have renames := round.session.next_le_standardizeApart rule
  rw [tryRule]
  split
  · exact Nat.le_refl _
  · dsimp only
    split
    · exact renames
    · refine Nat.le_trans renames (next_le_foldl
        (fun round : Round => round.session.supply.next) (fun collecting join _ => ?_) ⟨_, _, _⟩)
      rw [collect]
      split
      · exact Nat.le_refl _
      · dsimp only
        split <;> exact Nat.le_refl _

end ForwardChaining

/-! ### Asking -/

namespace KnowledgeBase

variable {kb last : KnowledgeBase}

/-- A refutation begins by using up indices for its goals. -/
theorem next_le_refute (kb : KnowledgeBase) (query : Sentence) (limit : TimeLimit) :
    kb.supply.next ≤ (kb.refute query limit).session.supply.next := by
  have adds : ∀ (session : Session) (c : Clause),
      session.supply.next ≤ (session.addGoal c).2.supply.next :=
    fun session c => session.next_le_rename c
  rw [refute_eq]
  exact kb.session.next_le_mapList adds _

/-- The goals are older than the supply that is left. -/
theorem below_of_mem_goals (kb : KnowledgeBase) (query : Sentence) (limit : TimeLimit) :
    ∀ c ∈ (kb.refute query limit).goals,
      c.VariablesBelow (kb.refute query limit).session.supply.next := by
  rw [refute_eq]
  have grows : ∀ (session : Session) (c : Clause),
      session.supply.next ≤ (session.addGoal c).2.supply.next :=
    fun session c => session.next_le_rename c
  have added : ∀ (session : Session) (c : Clause), True →
      (session.addGoal c).1.VariablesBelow (session.addGoal c).2.supply.next :=
    fun session c _ => (session.copyOf_rename c).2.2
  exact Session.mapList_forall (fun _ _ => True)
    (fun (bound : Nat) (c : Clause) => c.VariablesBelow bound) (fun _ => id)
    (fun le below => below.mono le) grows added kb.session fun _ _ => trivial

/-- No index of before a query is left to be handed out after it. Chaining forward is left out here:
it renames what it stores, which is looked at with the stored clauses. -/
theorem next_le_of_ask {procedure : Procedure} (other : procedure ≠ .forwardChaining) {fuel : Nat}
    {query : Sentence} {outcome : Except Failure Answer}
    (asked : procedure.ask fuel kb query = some (outcome, last)) :
    kb.supply.next ≤ last.supply.next := by
  cases procedure with
  | forwardChaining => exact absurd rfl other
  | backwardChaining =>
    rw [Procedure.ask] at asked
    unfold BackwardChaining.ask at asked
    split at asked
    · obtain ⟨⟨answers, session⟩, proved, same⟩ := Option.map_eq_some_iff.1 asked
      obtain ⟨_, rfl⟩ := Prod.mk.inj same
      exact (BackwardChaining.answered_of_prove proved).1
    · obtain ⟨_, rfl⟩ := Prod.mk.inj (Option.some.inj asked)
      exact Nat.le_refl _
  | saturation limit =>
    rw [Procedure.ask, Saturation.ask_eq] at asked
    obtain ⟨state, ran, same⟩ := Option.map_eq_some_iff.1 asked
    obtain ⟨_, rfl⟩ := Prod.mk.inj same
    exact Nat.le_trans (kb.next_le_refute query limit)
      (Nat.le_trans (Saturation.next_le_start _) (Saturation.next_le_saturate ran))
  | givenClause limit options =>
    rw [Procedure.ask, GivenClause.ask_eq] at asked
    obtain ⟨state, ran, same⟩ := Option.map_eq_some_iff.1 asked
    obtain ⟨_, rfl⟩ := Prod.mk.inj same
    exact Nat.le_trans (kb.next_le_refute query limit)
      (Nat.le_trans (GivenClause.next_le_start options _) (GivenClause.next_le_run ran))
  | modelElimination limit =>
    rw [Procedure.ask, ModelElimination.ask_eq] at asked
    obtain ⟨state, ran, same⟩ := Option.map_eq_some_iff.1 asked
    obtain ⟨_, rfl⟩ := Prod.mk.inj same
    have refutes := kb.next_le_refute query limit
    generalize kb.refute query limit = refutation at ran refutes
    have deepens := ModelElimination.next_le_deepen ran
    exact Nat.le_trans refutes
      (Nat.le_trans (ModelElimination.next_le_initialChains refutation) deepens)

end KnowledgeBase

end ClausalReasoner
