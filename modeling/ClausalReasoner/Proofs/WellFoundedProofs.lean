/-
This file shows that every proof that is handed out is a well-founded derivation. The derivation of a
knowledge base in use is well-founded and has the origin of every stored clause. Telling adds a
premise and what it is turned into; a query works on a copy of the derivation, which is thrown away
with it, except that chaining forward leaves behind the steps of its rounds together with the facts
that they derived.
-/

import ClausalReasoner.Proofs.ForwardSoundness
import ClausalReasoner.Proofs.TracedProcedures

namespace ClausalReasoner

namespace KnowledgeBase

/-! ### Stored clauses -/

/-- The derivation is well-founded and has the origins of the stored clauses. -/
structure Traced (kb : KnowledgeBase) : Prop where
  derivation : kb.derivation.WellFounded
  origins : ∀ c ∈ kb.clauses.toList, kb.derivation.Has c.origin

variable {kb told last : KnowledgeBase}

theorem Traced.ofEmpty (clauses : kb.clauses = ∅) (derivation : kb.derivation = {}) :
    kb.Traced := by
  refine ⟨derivation ▸ .empty, fun c member => ?_⟩
  rw [clauses] at member
  exact absurd member List.not_mem_nil

theorem Traced.ofSame (traced : kb.Traced) (clauses : last.clauses = kb.clauses)
    (derivation : last.derivation = kb.derivation) : last.Traced :=
  ⟨derivation ▸ traced.derivation, fun c member => derivation ▸ traced.origins c (clauses ▸ member)⟩

theorem mem_of_mem_store {c stored : Clause} (member : stored ∈ (kb.store c).clauses.toList) :
    stored ∈ kb.clauses.toList ∨ stored = c := by
  rw [store] at member
  split at member
  · exact Or.inl member
  · exact ClauseSet.mem_of_mem_insert member

theorem derivation_store (kb : KnowledgeBase) (c : Clause) :
    (kb.store c).derivation = kb.derivation := by
  rw [store]
  split <;> rfl

/-- A clause of a sentence rests on the premise, which stays known. -/
theorem Traced.storeClausified (traced : kb.Traced) {premise : StepNumber}
    (known : premise < kb.derivation.size) (c : Clause) :
    (kb.storeClausified premise c).Traced ∧
      premise < (kb.storeClausified premise c).derivation.size := by
  rw [KnowledgeBase.storeClausified]
  dsimp only
  split
  · exact ⟨⟨traced.derivation, traced.origins⟩, known⟩
  · have supports : kb.derivation.Supports [premise] :=
      ⟨List.cons_ne_nil _ _, fun source member => List.mem_singleton.1 member ▸ known⟩
    have grows := Derivation.grows_record (supports.fits .clausified rfl
      (.clause (c.renamed kb.supply).1.literals) .none)
    refine ⟨⟨?_, fun stored member => ?_⟩, ?_⟩
    · rw [derivation_store]
      exact grows.wellFounded traced.derivation
    · rw [derivation_store]
      rcases mem_of_mem_store member with old | rfl
      · exact (traced.origins stored old).grow grows
      · exact Derivation.has_record _ _
    · rw [derivation_store]
      exact Nat.lt_of_lt_of_le known grows.size

theorem Traced.tell (traced : kb.Traced) (s : Sentence) : (kb.tell s).2.Traced := by
  refine tell_preserves traced s fun _ => ?_
  have grows : kb.derivation.Grows (kb.derivation.record ⟨.premise, .sentence s, .none, []⟩).2 :=
    Derivation.grows_record
      ⟨fun _ absent => absurd absent List.not_mem_nil, iff_of_true rfl (Or.inl rfl)⟩
  have known : kb.derivation.size <
      (kb.derivation.record ⟨.premise, .sentence s, .none, []⟩).2.size :=
    Nat.lt_of_lt_of_eq (Nat.lt_succ_self _) (Derivation.size_record _ _).symm
  let recorded : KnowledgeBase :=
    { kb with
      vocabulary := (s.clausalForm (kb.vocabulary.registerSentence s)).2
      derivation := (kb.derivation.record ⟨.premise, .sentence s, .none, []⟩).2 }
  have start : recorded.Traced :=
    ⟨grows.wellFounded traced.derivation, fun c member => (traced.origins c member).grow grows⟩
  have stored : ((s.clausalForm (kb.vocabulary.registerSentence s)).1.foldl
      (KnowledgeBase.storeClausified kb.derivation.size) recorded).Traced :=
    (foldl_invariant
      (fun later : KnowledgeBase => later.Traced ∧ kb.derivation.size < later.derivation.size)
      (fun later c _ kept => kept.1.storeClausified kept.2 c) ⟨start, known⟩).1
  exact ⟨stored.derivation, stored.origins⟩

end KnowledgeBase

/-! ### Chaining forward -/

namespace ForwardChaining

open KnowledgeBase

/-- The derivation has grown, and what was collected was made by its steps. -/
structure Round.TracedFrom (d : Derivation) (round : Round) : Prop where
  grows : d.Grows round.session.derivation
  collected : ∀ entry ∈ round.collected, entry.2 < round.session.derivation.size

variable {kb : KnowledgeBase}

/-- Collecting a fact records a step that rests on the rule and the facts of a join. -/
theorem Round.TracedFrom.collect {d : Derivation} {round : Round} (kept : round.TracedFrom d)
    {sources : List StepNumber} (supports : d.Supports sources)
    {join : Substitution × List StepNumber} (known : ∀ number ∈ join.2, number < d.size)
    (query head : Literal) : (collect kb query head sources round join).TracedFrom d := by
  rw [ForwardChaining.collect]
  split
  · exact kept
  · dsimp only
    split
    · exact kept
    · have fits := ((supports.append known).grow kept.grows).fits .assertedFact rfl
        (.literal (head.substitute join.1)) (.unifier join.1)
      have grows := Derivation.grows_record fits
      refine ⟨kept.grows.trans grows, List.forall_mem_append.2 ⟨fun entry member => ?_,
        fun entry member => ?_⟩⟩
      · exact Nat.lt_of_lt_of_le (kept.collected entry member) grows.size
      · rw [List.mem_singleton.1 member]
        exact (Derivation.has_record _ _).supports.known _ List.mem_cons_self

section

variable (traced : kb.Traced) (filed : kb.Filed)

include traced filed

theorem has_of_mem_fetchFacts {l : Literal} {found : Substitution × Option StepNumber}
    (member : found ∈ kb.fetchFacts l) : kb.derivation.Has found.2 := by
  obtain ⟨c, under, matched⟩ := List.mem_filterMap.1 member
  obtain ⟨_, _, unified⟩ := Option.bind_eq_some_iff.1 matched
  obtain ⟨_, _, rfl⟩ := Option.map_eq_some_iff.1 unified
  rw [filed.facts] at under
  exact traced.origins c (List.mem_of_mem_filter under)

theorem lt_size_of_mem_joinFacts {ls : List Literal} {θ : Substitution}
    {origins : List StepNumber} (known : ∀ number ∈ origins, number < kb.derivation.size) :
    ∀ found ∈ kb.joinFacts ls θ origins, ∀ number ∈ found.2, number < kb.derivation.size := by
  induction ls generalizing θ origins with
  | nil =>
    intro found member
    rw [List.mem_singleton.1 member]
    exact known
  | cons l rest inductionHypothesis =>
    intro found member
    obtain ⟨fetched, fact, inside⟩ := List.mem_flatMap.1 member
    have has := has_of_mem_fetchFacts traced filed fact
    exact inductionHypothesis (List.forall_mem_append.2 ⟨known, has.supports.known⟩) found inside

theorem lt_size_of_mem_fetchAllFacts {ls : List Literal} :
    ∀ found ∈ kb.fetchAllFacts ls, ∀ number ∈ found.2, number < kb.derivation.size :=
  lt_size_of_mem_joinFacts traced filed fun _ absent => absurd absent List.not_mem_nil

theorem Round.TracedFrom.tryRule {round : Round} (kept : round.TracedFrom kb.derivation)
    {rule : Clause} (member : rule ∈ kb.rules) (query : Literal) :
    (tryRule kb query round rule).TracedFrom kb.derivation := by
  rw [ForwardChaining.tryRule]
  split
  · exact kept
  · rw [filed.rules] at member
    have has := traced.origins rule (List.mem_of_mem_filter member)
    have apart := Session.traced_standardizeApart (Or.inl (has.grow kept.grows) :
      rule.TracedIn round.session.derivation)
    dsimp only
    have grown := kept.grows.trans apart.grows
    have collected : ∀ entry ∈ round.collected,
        entry.2 < (round.session.standardizeApart rule).2.derivation.size :=
      fun entry inside => Nat.lt_of_lt_of_le (kept.collected entry inside) apart.grows.size
    split
    · exact ⟨grown, collected⟩
    · next head _ positives =>
      have isHead : head ∈ (round.session.standardizeApart rule).1.literals :=
        List.mem_of_mem_filter (positives ▸ List.mem_cons_self)
      have all : Round.TracedFrom (round.session.standardizeApart rule).2.derivation
          ((kb.fetchAllFacts ((round.session.standardizeApart rule).1.negatives.map
            fun l => Literal.positive l.atom)).foldl
              (ForwardChaining.collect kb query head (round.session.standardizeApart rule).1.sources)
              ⟨(round.session.standardizeApart rule).2, round.collected, round.answered⟩) :=
        foldl_invariant (Round.TracedFrom _) (fun later join inside going =>
          going.collect (apart.made.supports isHead) (fun number source => Nat.lt_of_lt_of_le
            (lt_size_of_mem_fetchAllFacts traced filed join inside number source) grown.size)
            query head) ⟨.refl _, collected⟩
      exact ⟨grown.trans all.grows, all.collected⟩

/-- What chaining forward leaves behind has the steps of the round and the facts made by them. -/
theorem traced_close (query : Literal) : (close kb (roundOf kb query)).Traced := by
  have went : (roundOf kb query).TracedFrom kb.derivation :=
    foldl_invariant (Round.TracedFrom kb.derivation)
      (fun round rule member kept => kept.tryRule traced filed member query)
      ⟨.refl _, fun _ absent => absurd absent List.not_mem_nil⟩
  refine ⟨went.grows.wellFounded traced.derivation, ?_⟩
  exact foldl_invariant (fun later : KnowledgeBase => ∀ c ∈ later.clauses.toList,
      (roundOf kb query).session.derivation.Has c.origin)
    (fun later entry inside kept c member => by
      rcases mem_of_mem_store member with old | rfl
      · exact kept c old
      · exact ⟨entry.2, went.collected entry inside, rfl⟩)
    fun c member => (traced.origins c member).grow went.grows

theorem wellFounded_proofsFromFacts (query : Literal) :
    ∀ proof ∈ proofsFromFacts kb query kb.derivation, proof.WellFounded := by
  intro proof member
  obtain ⟨found, fetched, made⟩ := List.mem_filterMap.1 member
  obtain ⟨number, origin, rfl⟩ := Option.map_eq_some_iff.1 made
  have has := has_of_mem_fetchFacts traced filed fetched
  rw [origin] at has
  exact traced.derivation.proof (has.supports.known number List.mem_cons_self) _

end

/-- The last step of each proof is recorded behind those of the proofs before. -/
theorem wellFounded_proofsFromKnownFacts (query : Literal)
    {found : List (Substitution × Option StepNumber)} {d : Derivation}
    (wellFounded : d.WellFounded) (has : ∀ fact ∈ found, d.Has fact.2) :
    ∀ proof ∈ proofsFromKnownFacts query found d, proof.WellFounded := by
  induction found generalizing d with
  | nil => exact fun _ absent => absurd absent List.not_mem_nil
  | cons fact rest inductionHypothesis =>
    obtain ⟨first, others⟩ := List.forall_mem_cons.1 has
    obtain ⟨θ, origin⟩ := fact
    cases origin with
    | none => exact inductionHypothesis wellFounded others
    | some number =>
      have grows := Derivation.grows_record
        (first.supports.fits .knownFact rfl (.literal query) (.unifier θ))
      have recorded := grows.wellFounded wellFounded
      refine List.forall_mem_cons.2 ⟨?_, inductionHypothesis recorded fun other member =>
        (others other member).grow grows⟩
      exact recorded.proof ((Derivation.has_record _ _).supports.known _ List.mem_cons_self) _

/-- Chaining forward keeps origins known, and its proofs are well-founded. -/
theorem traced_ask (traced : kb.Traced) (filed : kb.Filed) {fuel : Nat} {query : Sentence}
    {outcome : Except Failure Answer} {last : KnowledgeBase}
    (asked : ask fuel kb query = some (outcome, last)) :
    last.Traced ∧ ∀ answer, outcome = .ok answer → ∀ proof ∈ answer.proofs, proof.WellFounded := by
  have step : ∀ (goal : Literal) (later : KnowledgeBase), later.Traced ∧ later.Filed →
      (close later (roundOf later goal)).Traced ∧ (close later (roundOf later goal)).Filed := by
    rintro goal later ⟨traced, filed⟩
    obtain ⟨_, closed, _⟩ := exists_adds_close later (roundOf later goal)
    exact ⟨traced_close traced filed goal, filed.adds closed⟩
  unfold ask at asked
  split at asked
  · next a =>
    dsimp only at asked
    split at asked
    · obtain ⟨⟨found, after⟩, ran, same⟩ := Option.map_eq_some_iff.1 asked
      obtain ⟨rfl, rfl⟩ := Prod.mk.inj same
      obtain ⟨before, kept, rfl, ends⟩ :=
        exists_last_round _ (fun later kept _ => step _ later kept) ⟨traced, filed⟩ ran
      obtain ⟨tracedLast, filedLast⟩ := step _ before kept
      refine ⟨tracedLast, fun answer ok => ?_⟩
      obtain rfl := Except.ok.inj ok
      rcases ends with ⟨_, proofs⟩ | ⟨_, _, proofs⟩
      · rw [proofs]
        exact wellFounded_proofsFromFacts tracedLast filedLast _
      · rw [proofs]
        exact fun _ absent => absurd absent List.not_mem_nil
    · obtain ⟨rfl, rfl⟩ := Prod.mk.inj (Option.some.inj asked)
      refine ⟨traced, fun answer ok => ?_⟩
      obtain rfl := Except.ok.inj ok
      exact wellFounded_proofsFromKnownFacts _ traced.derivation fun fact member =>
        has_of_mem_fetchFacts traced filed member
  · obtain ⟨rfl, rfl⟩ := Prod.mk.inj (Option.some.inj asked)
    exact ⟨traced, nofun⟩

end ForwardChaining

/-! ### The other procedures -/

theorem BackwardChaining.wellFounded_proofs {kb last : KnowledgeBase} (traced : kb.Traced)
    (filed : kb.Filed) {depth : Nat} {query : Sentence} {answer : Answer}
    (asked : ask depth kb query = some (.ok answer, last)) :
    ∀ proof ∈ answer.proofs, proof.WellFounded := by
  unfold ask at asked
  split at asked
  · obtain ⟨⟨answers, session⟩, ran, same⟩ := Option.map_eq_some_iff.1 asked
    obtain ⟨ok, rfl⟩ := Prod.mk.inj same
    obtain rfl := Except.ok.inj ok
    have origins : ∀ c ∈ kb.definites, kb.session.derivation.Has c.origin := by
      intro c member
      rw [filed.definites] at member
      exact traced.origins c (List.mem_of_mem_filter member)
    have proved := traced_prove origins ran
    intro proof member
    obtain ⟨found, inside, made⟩ := List.mem_filterMap.1 member
    obtain ⟨number, isStep, rfl⟩ := Option.map_eq_some_iff.1 made
    have known := proved.made found inside number (by rw [isStep]; exact List.mem_cons_self)
    have wellFounded : session.derivation.WellFounded :=
      proved.grows.wellFounded traced.derivation
    exact wellFounded.proof known _
  · obtain ⟨failed, _⟩ := Prod.mk.inj (Option.some.inj asked)
    exact absurd failed nofun

/-- A refutation begins with the steps of the knowledge base and of its goals, and with books in which
there is no proof. -/
structure Refutation.Traced (refutation : Refutation) : Prop where
  book : refutation.book.InOrder refutation.session.derivation
  stored : ∀ c ∈ refutation.kb.clauses.toList, refutation.session.derivation.Has c.origin
  goals : ∀ c ∈ refutation.goals, refutation.session.derivation.Has c.origin

theorem Session.has_addGoal (session : Session) (c : Clause) :
    session.Yields (fun d made => d.Has made.origin) (session.addGoal c) := by
  have fits : Step.Fits ⟨.goal, .clause (session.rename c).1.literals, .none, []⟩
      (session.rename c).2.derivation.size :=
    ⟨fun _ absent => absurd absent List.not_mem_nil, iff_of_true rfl (Or.inr rfl)⟩
  have concluded := (session.rename c).2.has_conclude fits
  exact ⟨concluded.grows, concluded.made⟩

namespace KnowledgeBase

variable {kb last : KnowledgeBase}

theorem Traced.refute (traced : kb.Traced) (query : Sentence) (limit : TimeLimit) :
    (kb.refute query limit).Traced := by
  have goals : kb.session.Yields (fun d goals => ∀ c ∈ goals, d.Has c.origin)
      (kb.session.mapList Session.addGoal
        ((kb.goalFor query).clausalForm (kb.vocabularyFor query)).1) :=
    Session.yields_mapList (fun _ _ _ grows has => has.grow grows)
      fun later _ c _ => later.has_addGoal c
  rw [refute_eq]
  exact ⟨⟨goals.grows.wellFounded traced.derivation, fun _ absent => absurd absent List.not_mem_nil⟩,
    fun c member => (traced.origins c member).grow goals.grows, goals.made⟩

end KnowledgeBase

namespace Refutation.Traced

variable {refutation : Refutation} (traced : refutation.Traced)

include traced

theorem saturation : (Saturation.start refutation).TracedFrom refutation.session.derivation := by
  have factors := refutation.session.traced_factorsApart
    (List.forall_mem_append.2 ⟨fun c member => Or.inl (traced.stored c member),
      fun c member => Or.inl (traced.goals c member)⟩)
  exact ⟨factors.grows, traced.book.grow factors.grows,
    fun c member => factors.made c (ClauseSet.mem_of_mem_ofList member),
    fun _ absent => absurd absent List.not_mem_nil⟩

theorem givenClause (options : GivenClauseOptions) :
    (GivenClause.start options refutation).TracedFrom refutation.session.derivation := by
  have stored : AllTraced refutation.session.derivation refutation.kb.clauses.toList :=
    fun c member => Or.inl (traced.stored c member)
  have usable := GivenClause.traced_initialUsable options stored
  have goals : AllTraced (GivenClause.initialUsable options refutation.session
      refutation.kb.clauses.toList).2.derivation refutation.goals :=
    fun c member => Or.inl ((traced.goals c member).grow usable.grows)
  have support := GivenClause.traced_initialSupport goals
  have grows := usable.grows.trans support.grows
  refine ⟨grows, traced.book.grow grows,
    GivenClause.traced_withoutSubsumed (usable.made.grow support.grows), ?_⟩
  refine foldl_invariant (fun q : ClauseQueue => AllTraced _ q.toList)
    (fun q c member kept other inside => ?_) fun _ absent => absurd absent List.not_mem_nil
  rcases ClauseQueue.mem_of_mem_push inside with old | rfl
  · exact kept other old
  · exact GivenClause.traced_withoutSubsumed support.made other member

theorem modelElimination :
    refutation.session.derivation.Grows
      (ModelElimination.initialChains refutation).2.2.derivation ∧
    ModelElimination.AllHave (ModelElimination.initialChains refutation).2.2.derivation
      (ModelElimination.chainsFor refutation) := by
  have stored : ∀ c ∈ ModelElimination.backgroundClauses refutation.kb.clauses.toList,
      refutation.session.derivation.Has c.origin :=
    fun c member => traced.stored c (List.mem_of_mem_filter member)
  have background := ModelElimination.allHave_chainsOf stored
  have starts := ModelElimination.allHave_chainsOf
    fun c member => (traced.goals c member).grow background.grows
  exact ⟨background.grows.trans starts.grows, List.forall_mem_append.2
    ⟨starts.made, background.made.grow starts.grows⟩⟩

end Refutation.Traced

namespace KnowledgeBase

variable {kb last : KnowledgeBase}

/-- Every proof of every procedure is well-founded. -/
theorem Traced.procedureAsk (traced : kb.Traced) (filed : kb.Filed) {procedure : Procedure}
    {fuel : Nat} {query : Sentence} {answer : Answer}
    (asked : procedure.ask fuel kb query = some (.ok answer, last)) :
    ∀ proof ∈ answer.proofs, proof.WellFounded := by
  cases procedure with
  | forwardChaining => exact (ForwardChaining.traced_ask traced filed asked).2 answer rfl
  | backwardChaining => exact BackwardChaining.wellFounded_proofs traced filed asked
  | saturation limit =>
    rw [Procedure.ask, Saturation.ask_eq] at asked
    have begun := traced.refute query limit
    generalize kb.refute query limit = refutation at begun asked
    obtain ⟨state, ran, outcome⟩ := Option.map_eq_some_iff.1 asked
    have inOrder := Saturation.inOrder_saturate begun.saturation ran
    rw [AnswerBook.proofs_of_outcome (congrArg Prod.fst outcome)]
    exact inOrder.proofs
  | givenClause limit options =>
    rw [Procedure.ask, GivenClause.ask_eq] at asked
    have begun := traced.refute query limit
    generalize kb.refute query limit = refutation at begun asked
    obtain ⟨state, ran, outcome⟩ := Option.map_eq_some_iff.1 asked
    have inOrder := GivenClause.inOrder_run options (begun.givenClause options) ran
    rw [AnswerBook.proofs_of_outcome (congrArg Prod.fst outcome)]
    exact inOrder.proofs
  | modelElimination limit =>
    rw [Procedure.ask, ModelElimination.ask_eq] at asked
    have begun := traced.refute query limit
    generalize kb.refute query limit = refutation at begun asked
    obtain ⟨state, ran, outcome⟩ := Option.map_eq_some_iff.1 asked
    obtain ⟨grows, all⟩ := begun.modelElimination
    have inOrder := ModelElimination.inOrder_deepen all
      (fun chain member => all chain (List.mem_append_left _ member))
      ⟨.refl _, begun.book.grow grows⟩ ran
    rw [AnswerBook.proofs_of_outcome (congrArg Prod.fst outcome)]
    exact inOrder.proofs

/-- No procedure but forward chaining leaves steps behind. -/
theorem derivation_of_ask {procedure : Procedure} (other : procedure ≠ .forwardChaining)
    {fuel : Nat} {query : Sentence} {outcome : Except Failure Answer}
    (asked : procedure.ask fuel kb query = some (outcome, last)) :
    last.derivation = kb.derivation := by
  have refuted : ∀ limit session,
      ((kb.refute query limit).kb.afterSession session).derivation = kb.derivation := by
    intro limit session
    rw [refute_eq]
    rfl
  cases procedure with
  | forwardChaining => exact absurd rfl other
  | backwardChaining =>
    rw [Procedure.ask] at asked
    unfold BackwardChaining.ask at asked
    split at asked
    · obtain ⟨found, _, same⟩ := Option.map_eq_some_iff.1 asked
      obtain ⟨_, rfl⟩ := Prod.mk.inj same
      rfl
    · obtain ⟨_, rfl⟩ := Prod.mk.inj (Option.some.inj asked)
      rfl
  | saturation limit =>
    rw [Procedure.ask, Saturation.ask_eq] at asked
    obtain ⟨state, _, same⟩ := Option.map_eq_some_iff.1 asked
    obtain ⟨_, rfl⟩ := Prod.mk.inj same
    exact refuted limit state.session
  | givenClause limit options =>
    rw [Procedure.ask, GivenClause.ask_eq] at asked
    obtain ⟨state, _, same⟩ := Option.map_eq_some_iff.1 asked
    obtain ⟨_, rfl⟩ := Prod.mk.inj same
    exact refuted limit state.session
  | modelElimination limit =>
    rw [Procedure.ask, ModelElimination.ask_eq] at asked
    obtain ⟨state, _, same⟩ := Option.map_eq_some_iff.1 asked
    obtain ⟨_, rfl⟩ := Prod.mk.inj same
    exact refuted limit state.session

/-- In a reachable knowledge base the origin of every stored clause is known. -/
theorem Reachable.traced (reachable : kb.Reachable) : kb.Traced := by
  induction reachable with
  | initial procedure => exact .ofEmpty rfl rfl
  | tell _ s inductionHypothesis => exact inductionHypothesis.tell s
  | @ask kb last fuel query outcome before asked inductionHypothesis =>
    obtain ⟨found, ran, _⟩ := exists_of_ask asked
    have traced : (kb.atQuery query).Traced := inductionHypothesis.ofSame rfl rfl
    have filed : (kb.atQuery query).Filed := before.filed.adds (.ofSame rfl rfl rfl rfl)
    by_cases forward : kb.procedure = .forwardChaining
    · rw [forward] at ran
      exact (ForwardChaining.traced_ask traced filed ran).1
    · exact traced.ofSame (storesSame_of_ask forward ran).clauses (derivation_of_ask forward ran)
  | setProcedure _ procedure inductionHypothesis => exact inductionHypothesis.ofSame rfl rfl
  | clear _ _ => exact .ofEmpty rfl rfl
  | widen _ within inductionHypothesis => exact inductionHypothesis.ofSame rfl rfl
  | supply _ supply inductionHypothesis => exact inductionHypothesis.ofSame rfl rfl

/-- **Proofs are well-founded derivations.** In every proof that a query to a reachable knowledge
base is answered with, by whatever procedure, the lines are numbered from one, each rests on lines
with smaller numbers, those that rest on nothing are the premises and the goals, and the last line
rests, directly or not, on all others. -/
theorem Reachable.wellFounded_of_ask (reachable : kb.Reachable) {fuel : Nat} {query : Sentence}
    {answer : Answer} (asked : kb.ask fuel query = some (.ok answer, last)) :
    ∀ proof ∈ answer.proofs, proof.WellFounded := by
  obtain ⟨found, ran, proofs⟩ := exists_answer_of_ask asked
  have traced : (kb.atQuery query).Traced := reachable.traced.ofSame rfl rfl
  have filed : (kb.atQuery query).Filed := reachable.filed.adds (.ofSame rfl rfl rfl rfl)
  intro proof member
  rw [proofs] at member
  obtain ⟨before, inside, rfl⟩ := List.mem_map.1 member
  obtain ⟨numbered, earlier, connected, given⟩ := traced.procedureAsk filed ran before inside
  exact ⟨numbered, earlier, connected, given⟩

set_option maxRecDepth 10000 in
/-- The proof that Plato is good, from two premises. -/
theorem wellFounded_of_ask_academy :
    academy.Reachable ∧ ∃ answer last proof,
      academy.ask 2 (.atom someoneGood) = some (.ok answer, last) ∧ proof ∈ answer.proofs ∧
        proof.WellFounded := by
  obtain ⟨answer, last, proof, asked, member⟩ := exists_of_isProved
    (by cbv : academy.isProved 2 (.atom someoneGood))
  exact ⟨reachable_academy, answer, last, proof, asked, member,
    reachable_academy.wellFounded_of_ask asked proof member⟩

end KnowledgeBase

end ClausalReasoner
