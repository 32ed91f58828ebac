/-
This file says which knowledge bases there can be and what is true of all of them. One starts empty
with some procedure; it is told sentences and asked queries, it is given other procedures, it is
cleared, its vocabulary grows, and its supply of indices is used by others. In every knowledge base
that comes about in this way the literals of what is stored have only symbols that the vocabulary
knows, and none of them is marked as reduced.
-/

import ClausalReasoner.Asking
import ClausalReasoner.Proofs.ChainInvariant
import ClausalReasoner.Proofs.GivenClauseInvariant
import ClausalReasoner.Proofs.Refutations

namespace ClausalReasoner

/-! ### Literals of the knowledge base -/

/-- A literal that may be stored: it is no reduced one and its symbols are known. -/
structure Literal.Regular (known : Symbol → Prop) (l : Literal) : Prop where
  plain : l.reduced = false
  knows : ∀ symbol ∈ l.symbols, known symbol

/-- All literals of a clause may be stored. -/
def Clause.Regular (known : Symbol → Prop) (c : Clause) : Prop :=
  ∀ l ∈ c.literals, l.Regular known

variable {known wider : Symbol → Prop}

theorem Literal.Regular.mono {l : Literal} (regular : l.Regular known)
    (grown : ∀ symbol, known symbol → wider symbol) : l.Regular wider :=
  ⟨regular.plain, fun symbol inside => grown symbol (regular.knows symbol inside)⟩

theorem Clause.Regular.mono {c : Clause} (regular : c.Regular known)
    (grown : ∀ symbol, known symbol → wider symbol) : c.Regular wider :=
  fun l member => (regular l member).mono grown

theorem Literal.Regular.arguments {l : Literal} (regular : l.Regular known) :
    ∀ t ∈ l.atom.arguments, t.BuiltFrom (fun _ => True) known := fun t member =>
  ⟨fun _ _ => trivial, fun symbol inside => regular.knows symbol
    (List.mem_append_right _ (Term.mem_symbolsList.2 ⟨t, member, inside⟩))⟩

theorem Literal.Regular.substitute {l : Literal} (regular : l.Regular known) {θ : Substitution}
    (built : θ.BuiltFrom (fun _ => True) known) : (l.substitute θ).Regular known := by
  refine ⟨regular.plain, fun symbol inside => ?_⟩
  rcases Atom.mem_symbols_replace.1 inside with own | ⟨v, _, new⟩
  · exact regular.knows symbol own
  · exact (built.value trivial).2 symbol new

theorem builtFrom_freshRenaming (supply : Supply) (vs : List Variable) :
    (supply.freshRenaming vs).1.BuiltFrom (fun _ => True) known := by
  intro entry member
  obtain ⟨pair, _, rfl⟩ := List.mem_map.1 (Substitution.mem_of_mem_bindings_ofList member)
  exact ⟨trivial, .ofVariable trivial⟩

theorem Clause.Regular.renamed {c : Clause} (regular : c.Regular known) (supply : Supply) :
    (c.renamed supply).1.Regular known := by
  rw [Clause.renamed]
  split
  · exact regular
  · intro l member
    obtain ⟨old, inside, rfl⟩ := List.mem_map.1 (mem_firstOccurrences.1 member)
    exact (regular old inside).substitute (builtFrom_freshRenaming supply _)

theorem Clause.Regular.standardizeApart {c : Clause} (regular : c.Regular known)
    (session : Session) : (session.standardizeApart c).1.Regular known := by
  rw [Session.standardizeApart]
  split
  · exact regular
  · exact regular.renamed session.supply

/-! ### The clauses of a sentence -/

namespace Sentence

theorem plain_of_mem_disjuncts {s : Sentence} {polarity : Polarity} {l : Literal}
    (member : l ∈ s.disjuncts polarity) : l.reduced = false := by
  induction s generalizing polarity with
  | atom a => rw [List.mem_singleton.1 member]
  | negation body inductionHypothesis => exact inductionHypothesis member
  | connected connective left right leftHypothesis rightHypothesis =>
    exact (List.mem_append.1 member).elim leftHypothesis rightHypothesis
  | quantified quantifier bound body inductionHypothesis => exact inductionHypothesis member

theorem plain_of_mem_conjuncts {s : Sentence} {ls : List Literal} (member : ls ∈ s.conjuncts) :
    ∀ l ∈ ls, l.reduced = false := by
  induction s with
  | connected connective left right leftHypothesis rightHypothesis =>
    cases connective with
    | conjunction => exact (List.mem_append.1 member).elim leftHypothesis rightHypothesis
    | _ =>
      rw [List.mem_singleton.1 member]
      exact fun l inside => plain_of_mem_disjuncts inside
  | _ =>
    rw [List.mem_singleton.1 member]
    exact fun l inside => plain_of_mem_disjuncts inside

/-- The clauses of a sentence whose symbols are registered may be stored. -/
theorem regular_clausalForm {s : Sentence} {voc : Vocabulary}
    (registered : ∀ symbol ∈ s.symbols, voc.knows symbol) :
    ∀ c ∈ (s.clausalForm voc).1, c.Regular fun symbol => (s.clausalForm voc).2.knows symbol := by
  intro c member l inside
  refine ⟨?_, fun symbol here => knows_clausalForm registered c member symbol
    (Clause.mem_symbols.2 ⟨l, inside, here⟩)⟩
  obtain ⟨ls, there, rfl, _⟩ := mem_clauses.1 member
  exact plain_of_mem_conjuncts there l (mem_firstOccurrences.1 inside)

end Sentence

/-! ### What is stored -/

namespace KnowledgeBase

/-- Everything that is stored has regular literals. -/
structure Regular (kb : KnowledgeBase) : Prop where
  clauses : ∀ c ∈ kb.clauses.toList, c.Regular fun symbol => kb.vocabulary.knows symbol
  rules : ∀ c ∈ kb.rules, c.Regular fun symbol => kb.vocabulary.knows symbol
  facts : ∀ entry ∈ kb.facts, ∀ c ∈ entry.2, c.Regular fun symbol => kb.vocabulary.knows symbol

theorem Regular.knowsClauses {kb : KnowledgeBase} (regular : kb.Regular) : kb.KnowsClauses := by
  intro c member symbol inside
  obtain ⟨l, literal, here⟩ := Clause.mem_symbols.1 inside
  exact (regular.clauses c member l literal).knows symbol here

theorem Regular.plain {kb : KnowledgeBase} (regular : kb.Regular) :
    ∀ c ∈ kb.clauses.toList, ∀ l ∈ c.literals, l.reduced = false :=
  fun c member l inside => (regular.clauses c member l inside).plain

/-- The same is stored in two knowledge bases, and the vocabulary of the second is not smaller. -/
structure StoresSame (kb later : KnowledgeBase) : Prop where
  clauses : later.clauses = kb.clauses
  definites : later.definites = kb.definites
  rules : later.rules = kb.rules
  facts : later.facts = kb.facts
  within : kb.vocabulary.Within later.vocabulary

theorem Regular.ofSame {kb later : KnowledgeBase} (regular : kb.Regular)
    (same : kb.StoresSame later) : later.Regular := by
  refine ⟨?_, ?_, ?_⟩
  · rw [same.clauses]
    exact fun c member => (regular.clauses c member).mono same.within
  · rw [same.rules]
    exact fun c member => (regular.rules c member).mono same.within
  · rw [same.facts]
    exact fun entry filed c member => (regular.facts entry filed c member).mono same.within

/-- The supply and the recorded steps make no difference. -/
theorem Regular.supplied {kb : KnowledgeBase} (regular : kb.Regular) (supply : Supply)
    (derivation : Derivation) :
    KnowledgeBase.Regular { kb with supply := supply, derivation := derivation } :=
  ⟨regular.clauses, regular.rules, regular.facts⟩

theorem mem_file {heading : String} {c : Clause} {facts : FactIndex}
    {entry : String × List Clause} (filed : entry ∈ FactIndex.file heading c facts) :
    ∀ member ∈ entry.2, member = c ∨ ∃ old ∈ facts, member ∈ old.2 := by
  induction facts with
  | nil =>
    rw [List.mem_singleton.1 filed]
    exact fun member inside => Or.inl (List.mem_singleton.1 inside)
  | cons first rest inductionHypothesis =>
    obtain ⟨other, kept⟩ := first
    rw [FactIndex.file] at filed
    split at filed
    · rcases List.mem_cons.1 filed with rfl | later
      · intro member inside
        rcases List.mem_append.1 inside with old | new
        · exact Or.inr ⟨_, List.mem_cons_self, old⟩
        · exact Or.inl (List.mem_singleton.1 new)
      · exact fun member inside => Or.inr ⟨entry, List.mem_cons_of_mem _ later, inside⟩
    · rcases List.mem_cons.1 filed with rfl | later
      · exact fun member inside => Or.inr ⟨_, List.mem_cons_self, inside⟩
      · intro member inside
        exact (inductionHypothesis later member inside).imp_right fun ⟨old, there, member⟩ =>
          ⟨old, List.mem_cons_of_mem _ there, member⟩

theorem Regular.store {kb : KnowledgeBase} (regular : kb.Regular) {c : Clause}
    (given : c.Regular fun symbol => kb.vocabulary.knows symbol) : (kb.store c).Regular := by
  rw [KnowledgeBase.store]
  split
  · exact regular
  · refine ⟨fun member inside => ?_, fun member inside => ?_, fun entry filed member inside => ?_⟩
    · rcases ClauseSet.mem_of_mem_insert inside with old | rfl
      · exact regular.clauses member old
      · exact given
    · dsimp only at inside
      split at inside
      · rcases List.mem_append.1 inside with old | new
        · exact regular.rules member old
        · rw [List.mem_singleton.1 new]
          exact given
      · exact regular.rules member inside
    · dsimp only at filed
      split at filed
      · rcases mem_file filed member inside with rfl | ⟨old, there, kept⟩
        · exact given
        · exact regular.facts old there member kept
      · exact regular.facts entry filed member inside

theorem vocabulary_store (kb : KnowledgeBase) (c : Clause) :
    (kb.store c).vocabulary = kb.vocabulary := by
  rw [KnowledgeBase.store]
  split <;> rfl

/-! ### Telling -/

theorem Regular.storeClausified {kb : KnowledgeBase} (regular : kb.Regular)
    (premise : StepNumber) {c : Clause}
    (given : c.Regular fun symbol => kb.vocabulary.knows symbol) :
    (kb.storeClausified premise c).Regular ∧
      (kb.storeClausified premise c).vocabulary = kb.vocabulary := by
  rw [KnowledgeBase.storeClausified]
  dsimp only
  split
  · exact ⟨regular.supplied _ _, rfl⟩
  · exact ⟨(regular.supplied _ _).store (given.renamed kb.supply), vocabulary_store _ _⟩

theorem Regular.storeAll {kb : KnowledgeBase} (regular : kb.Regular) (premise : StepNumber)
    {cs : List Clause} (given : ∀ c ∈ cs, c.Regular fun symbol => kb.vocabulary.knows symbol) :
    (cs.foldl (KnowledgeBase.storeClausified premise) kb).Regular := by
  induction cs generalizing kb with
  | nil => exact regular
  | cons c rest inductionHypothesis =>
    obtain ⟨first, later⟩ := List.forall_mem_cons.1 given
    obtain ⟨stored, vocabulary⟩ := regular.storeClausified premise first
    exact inductionHypothesis stored (vocabulary ▸ later)

/-- What holds of a knowledge base holds after telling it a sentence, if it holds when the sentence
is taken in: in all other cases the knowledge base is as it was. -/
theorem tell_preserves {holds : KnowledgeBase → Prop} {kb : KnowledgeBase} (given : holds kb)
    (s : Sentence)
    (accepts : obviouslyUnsatisfiable (s.clausalForm (kb.vocabulary.registerSentence s)).1
        kb.supply = false →
      holds (kb.accept s (s.clausalForm (kb.vocabulary.registerSentence s)).1
        (s.clausalForm (kb.vocabulary.registerSentence s)).2)) :
    holds (kb.tell s).2 := by
  rw [KnowledgeBase.tell]
  split
  · exact given
  · dsimp only
    split
    · exact given
    · next satisfiable => exact accepts (Bool.eq_false_iff.2 satisfiable)

theorem Regular.tell {kb : KnowledgeBase} (regular : kb.Regular) (s : Sentence) :
    (kb.tell s).2.Regular := by
  refine tell_preserves regular s fun _ => ?_
  let premise := (kb.derivation.record ⟨.premise, .sentence s, .none, []⟩).1
  let derivation := (kb.derivation.record ⟨.premise, .sentence s, .none, []⟩).2
  let voc := (s.clausalForm (kb.vocabulary.registerSentence s)).2
  have registered : ∀ symbol ∈ s.symbols, (kb.vocabulary.registerSentence s).knows symbol :=
    fun symbol inside => (Vocabulary.knows_registerSentence _ _).2 (Or.inr inside)
  have within : kb.vocabulary.Within voc := fun symbol old =>
    Sentence.within_clausalForm _ _ symbol
      ((Vocabulary.knows_registerSentence _ _).2 (Or.inl old))
  have extended : KnowledgeBase.Regular { kb with vocabulary := voc, derivation := derivation } :=
    regular.ofSame ⟨rfl, rfl, rfl, rfl, within⟩
  have stored := extended.storeAll premise (Sentence.regular_clausalForm registered)
  exact ⟨stored.clauses, stored.rules, stored.facts⟩

/-! ### Chaining forward -/

theorem builtFrom_of_mem_fetchFacts {kb : KnowledgeBase} (regular : kb.Regular) {l : Literal}
    (given : l.Regular fun symbol => kb.vocabulary.knows symbol)
    {found : Substitution × Option StepNumber} (member : found ∈ kb.fetchFacts l) :
    found.1.BuiltFrom (fun _ => True) fun symbol => kb.vocabulary.knows symbol := by
  obtain ⟨fact, filed, matched⟩ := List.mem_filterMap.1 member
  obtain ⟨factLiteral, head, unified⟩ := Option.bind_eq_some_iff.1 matched
  obtain ⟨θ, unifier, rfl⟩ := Option.map_eq_some_iff.1 unified
  have stored : fact.Regular fun symbol => kb.vocabulary.knows symbol := by
    have under : ∀ facts : FactIndex, fact ∈ FactIndex.under facts l.heading →
        ∃ entry ∈ facts, fact ∈ entry.2 := by
      intro facts
      induction facts with
      | nil => exact fun absent => absurd absent List.not_mem_nil
      | cons entry rest inductionHypothesis =>
        obtain ⟨other, kept⟩ := entry
        intro inside
        rw [FactIndex.under] at inside
        split at inside
        · exact ⟨_, List.mem_cons_self, inside⟩
        · obtain ⟨old, there, here⟩ := inductionHypothesis inside
          exact ⟨old, List.mem_cons_of_mem _ there, here⟩
    obtain ⟨entry, there, here⟩ := under kb.facts filed
    exact regular.facts entry there fact here
  exact Atom.builtFrom_of_unify given.arguments
    (stored factLiteral (List.mem_of_mem_head? head)).arguments unifier

theorem builtFrom_of_mem_joinFacts {kb : KnowledgeBase} (regular : kb.Regular)
    {ls : List Literal} (given : ∀ l ∈ ls, l.Regular fun symbol => kb.vocabulary.knows symbol)
    {θ : Substitution} (built : θ.BuiltFrom (fun _ => True) fun symbol => kb.vocabulary.knows symbol)
    {origins : List StepNumber} {found : Substitution × List StepNumber}
    (member : found ∈ kb.joinFacts ls θ origins) :
    found.1.BuiltFrom (fun _ => True) fun symbol => kb.vocabulary.knows symbol := by
  induction ls generalizing θ origins with
  | nil =>
    rw [List.mem_singleton.1 member]
    exact built
  | cons l rest inductionHypothesis =>
    obtain ⟨first, later⟩ := List.forall_mem_cons.1 given
    obtain ⟨⟨binding, origin⟩, fetched, inside⟩ := List.mem_flatMap.1 member
    have here := builtFrom_of_mem_fetchFacts regular (first.substitute built) fetched
    exact inductionHypothesis later (built.compose here) inside

end KnowledgeBase

namespace ForwardChaining

open KnowledgeBase

variable {kb : KnowledgeBase} {query : Literal}

/-- What is true of the head of every rule under every way to join its body with the facts, unless
it is known under that one, is true of all facts that a round collects. -/
theorem forall_mem_collected (good : Literal → Prop)
    (fires : ∀ rule ∈ kb.rules, ∀ session : Session,
      ∀ head ∈ (session.standardizeApart rule).1.positives,
        ∀ join ∈ kb.fetchAllFacts
            ((session.standardizeApart rule).1.negatives.map fun l => .positive l.atom),
          kb.isRenamingOfFact (head.substitute join.1) = false →
            good (head.substitute join.1)) (session : Session) :
    ∀ entry ∈ (round kb query session).collected, good entry.1 := by
  refine foldl_invariant (fun round : Round => ∀ entry ∈ round.collected, good entry.1)
    (fun round rule isRule kept => ?_) fun _ absent => absurd absent List.not_mem_nil
  rw [tryRule]
  split
  · exact kept
  · dsimp only
    split
    · exact kept
    · next head rest positives =>
      have isHead : head ∈ (round.session.standardizeApart rule).1.positives :=
        positives ▸ List.mem_cons_self
      refine foldl_invariant (fun round : Round => ∀ entry ∈ round.collected, good entry.1)
        (fun collecting join member kept => ?_) kept
      rw [collect]
      split
      · exact kept
      · dsimp only
        split
        · exact kept
        · next unknown =>
          intro entry inside
          rcases List.mem_append.1 inside with old | new
          · exact kept entry old
          · rw [List.mem_singleton.1 new]
            exact fires rule isRule round.session head isHead join member
              (Bool.or_eq_false_iff.1 (Bool.eq_false_iff.2 unknown)).1

/-- The facts collected in a round may be stored. -/
theorem regular_round (stored : kb.Regular) (session : Session) :
    ∀ entry ∈ (round kb query session).collected,
      entry.1.Regular fun symbol => kb.vocabulary.knows symbol := by
  refine forall_mem_collected _ (fun rule isRule session head isHead join member _ => ?_) session
  have apart := (stored.rules rule isRule).standardizeApart session
  refine (apart head (List.mem_of_mem_filter isHead)).substitute
    (builtFrom_of_mem_joinFacts stored (fun l inside => ?_) Substitution.builtFrom_empty member)
  obtain ⟨negative, there, rfl⟩ := List.mem_map.1 inside
  exact ⟨rfl, (apart negative (List.mem_of_mem_filter there)).knows⟩

theorem regular_close (stored : kb.Regular) {round : Round}
    (regular : ∀ entry ∈ round.collected,
      entry.1.Regular fun symbol => kb.vocabulary.knows symbol) : (close kb round).Regular := by
  have storeAll : ∀ (entries : List (Literal × StepNumber)) (kb : KnowledgeBase), kb.Regular →
      (∀ entry ∈ entries, entry.1.Regular fun symbol => kb.vocabulary.knows symbol) →
        (entries.foldl (fun kb entry => kb.storeDerived entry.1 entry.2) kb).Regular := by
    intro entries
    induction entries with
    | nil => exact fun kb stored _ => stored
    | cons entry rest inductionHypothesis =>
      intro kb stored given
      obtain ⟨first, later⟩ := List.forall_mem_cons.1 given
      have alone : (Clause.ofLiterals [entry.1]).Regular fun symbol => kb.vocabulary.knows symbol :=
        fun l member => List.mem_singleton.1 (mem_firstOccurrences.1 member) ▸ first
      have vocabulary : (kb.storeDerived entry.1 entry.2).vocabulary = kb.vocabulary :=
        vocabulary_store _ _
      exact inductionHypothesis _
        ((stored.supplied _ kb.derivation).store (alone.renamed kb.supply)) (vocabulary ▸ later)
  have closed := storeAll round.collected (kb.afterSession round.session)
    (stored.supplied _ kb.derivation) regular
  exact ⟨closed.clauses, closed.rules, closed.facts⟩

theorem regular_rounds (stored : kb.Regular) {fuel : Nat} {answer : Answer} {last : KnowledgeBase}
    (ran : rounds query fuel kb = some (answer, last)) : last.Regular := by
  induction fuel generalizing kb with
  | zero => exact absurd ran nofun
  | succ fuel inductionHypothesis =>
    have closed : (close kb (round kb query kb.session)).Regular :=
      regular_close stored (regular_round stored kb.session)
    rw [rounds] at ran
    split at ran
    · obtain ⟨_, rfl⟩ := Prod.mk.inj (Option.some.inj ran)
      exact closed
    · split at ran
      · obtain ⟨_, rfl⟩ := Prod.mk.inj (Option.some.inj ran)
        exact closed
      · exact inductionHypothesis closed ran

theorem regular_ask (stored : kb.Regular) {fuel : Nat} {query : Sentence}
    {outcome : Except Failure Answer} {last : KnowledgeBase}
    (asked : ask fuel kb query = some (outcome, last)) : last.Regular := by
  unfold ask at asked
  split at asked
  · dsimp only at asked
    split at asked
    · obtain ⟨⟨answer, after⟩, ran, same⟩ := Option.map_eq_some_iff.1 asked
      obtain ⟨_, rfl⟩ := Prod.mk.inj same
      exact regular_rounds stored ran
    · obtain ⟨_, rfl⟩ := Prod.mk.inj (Option.some.inj asked)
      exact stored
  · obtain ⟨_, rfl⟩ := Prod.mk.inj (Option.some.inj asked)
    exact stored

end ForwardChaining

/-! ### Asking -/

/-- Backward chaining leaves everything but the supply as it is. -/
theorem BackwardChaining.storesSame_of_ask {depth : Nat} {kb last : KnowledgeBase}
    {query : Sentence} {outcome : Except Failure Answer}
    (asked : ask depth kb query = some (outcome, last)) : kb.StoresSame last := by
  unfold ask at asked
  split at asked
  · obtain ⟨⟨answers, session⟩, _, same⟩ := Option.map_eq_some_iff.1 asked
    obtain ⟨_, rfl⟩ := Prod.mk.inj same
    exact ⟨rfl, rfl, rfl, rfl, .refl _⟩
  · obtain ⟨_, rfl⟩ := Prod.mk.inj (Option.some.inj asked)
    exact ⟨rfl, rfl, rfl, rfl, .refl _⟩

namespace KnowledgeBase

variable {kb last : KnowledgeBase}

/-- A refutation adds symbols to the vocabulary and nothing to what is stored. -/
theorem storesSame_refute (kb : KnowledgeBase) (query : Sentence) (limit : TimeLimit)
    (session : Session) : kb.StoresSame ((kb.refute query limit).kb.afterSession session) := by
  rw [refute_eq]
  refine ⟨rfl, rfl, rfl, rfl, fun symbol old => Sentence.within_clausalForm _ _ symbol ?_⟩
  exact (knows_vocabularyFor kb query).2 (Or.inl old)

/-- No procedure but forward chaining changes what is stored. -/
theorem storesSame_of_ask {procedure : Procedure} (other : procedure ≠ .forwardChaining)
    {fuel : Nat} {query : Sentence} {outcome : Except Failure Answer}
    (asked : procedure.ask fuel kb query = some (outcome, last)) : kb.StoresSame last := by
  cases procedure with
  | forwardChaining => exact absurd rfl other
  | backwardChaining => exact BackwardChaining.storesSame_of_ask asked
  | saturation limit =>
    rw [Procedure.ask, Saturation.ask_eq] at asked
    obtain ⟨state, _, same⟩ := Option.map_eq_some_iff.1 asked
    obtain ⟨_, rfl⟩ := Prod.mk.inj same
    exact storesSame_refute kb query limit _
  | givenClause limit options =>
    rw [Procedure.ask, GivenClause.ask_eq] at asked
    obtain ⟨state, _, same⟩ := Option.map_eq_some_iff.1 asked
    obtain ⟨_, rfl⟩ := Prod.mk.inj same
    exact storesSame_refute kb query limit _
  | modelElimination limit =>
    rw [Procedure.ask, ModelElimination.ask_eq] at asked
    obtain ⟨state, _, same⟩ := Option.map_eq_some_iff.1 asked
    obtain ⟨_, rfl⟩ := Prod.mk.inj same
    exact storesSame_refute kb query limit _

theorem Regular.procedureAsk (regular : kb.Regular) {procedure : Procedure} {fuel : Nat}
    {query : Sentence} {outcome : Except Failure Answer}
    (asked : procedure.ask fuel kb query = some (outcome, last)) : last.Regular := by
  by_cases forward : procedure = .forwardChaining
  · rw [forward] at asked
    exact ForwardChaining.regular_ask regular asked
  · exact regular.ofSame (storesSame_of_ask forward asked)

/-- The query with fresh variables. -/
def freshQuery (kb : KnowledgeBase) (query : Sentence) : Sentence :=
  (query.standardizeApart kb.supply).1.standardized

/-- The knowledge base that a procedure answers the query with fresh variables from. -/
def atQuery (kb : KnowledgeBase) (query : Sentence) : KnowledgeBase :=
  { kb with supply := (query.standardizeApart kb.supply).2 }

/-- What an answer to a query comes from: the procedure has answered the query with fresh variables,
and its bindings are told in terms of the query. -/
theorem exists_of_ask {fuel : Nat} {query : Sentence} {outcome : Except Failure Answer}
    (asked : kb.ask fuel query = some (outcome, last)) :
    ∃ found : Except Failure Answer,
      kb.procedure.ask fuel (kb.atQuery query) (kb.freshQuery query) = some (found, last) ∧
      outcome = found.map fun answer =>
        { answer with
          proofs := answer.proofs.map fun proof =>
            { proof with bindings :=
                proof.bindings.inTermsOf (query.standardizeApart kb.supply).1.reverse } } := by
  unfold ask at asked
  obtain ⟨⟨found, after⟩, ran, same⟩ := Option.map_eq_some_iff.1 asked
  obtain ⟨rfl, rfl⟩ := Prod.mk.inj same
  exact ⟨found, ran, rfl⟩

/-- The proofs in an answer are those that the procedure has found for the query with fresh
variables. -/
theorem exists_answer_of_ask {fuel : Nat} {query : Sentence} {answer : Answer}
    (asked : kb.ask fuel query = some (.ok answer, last)) :
    ∃ found : Answer,
      kb.procedure.ask fuel (kb.atQuery query) (kb.freshQuery query) = some (.ok found, last) ∧
      answer.proofs = found.proofs.map fun proof =>
        { proof with bindings :=
            proof.bindings.inTermsOf (query.standardizeApart kb.supply).1.reverse } := by
  obtain ⟨outcome, ran, same⟩ := exists_of_ask asked
  cases outcome with
  | error failure => exact absurd same nofun
  | ok found => exact ⟨found, ran, congrArg Answer.proofs (Except.ok.inj same)⟩

theorem Regular.ask (regular : kb.Regular) {fuel : Nat} {query : Sentence}
    {outcome : Except Failure Answer} (asked : kb.ask fuel query = some (outcome, last)) :
    last.Regular := by
  obtain ⟨found, ran, _⟩ := exists_of_ask asked
  exact (regular.supplied _ kb.derivation).procedureAsk ran

/-! ### Reachable knowledge bases -/

/-- The knowledge bases that come about by using one from the start. Whatever adds symbols to the
vocabulary or uses up indices may happen in between. -/
inductive Reachable : KnowledgeBase → Prop
  | initial (procedure : Procedure) : Reachable { procedure := procedure }
  | tell {kb : KnowledgeBase} (before : Reachable kb) (s : Sentence) : Reachable (kb.tell s).2
  | ask {kb last : KnowledgeBase} {fuel : Nat} {query : Sentence}
      {outcome : Except Failure Answer} (before : Reachable kb)
      (asked : kb.ask fuel query = some (outcome, last)) : Reachable last
  | setProcedure {kb : KnowledgeBase} (before : Reachable kb) (procedure : Procedure) :
      Reachable { kb with procedure := procedure }
  | clear {kb : KnowledgeBase} (before : Reachable kb) : Reachable kb.clear
  | widen {kb : KnowledgeBase} {voc : Vocabulary} (before : Reachable kb)
      (within : kb.vocabulary.Within voc) : Reachable { kb with vocabulary := voc }
  | supply {kb : KnowledgeBase} (before : Reachable kb) (supply : Supply) :
      Reachable { kb with supply := supply }

/-- Everything that is stored in a reachable knowledge base has regular literals. -/
theorem Reachable.regular (reachable : kb.Reachable) : kb.Regular := by
  induction reachable with
  | initial procedure =>
    exact ⟨fun c absent => absurd absent List.not_mem_nil,
      fun c absent => absurd absent List.not_mem_nil,
      fun entry absent => absurd absent List.not_mem_nil⟩
  | tell _ s inductionHypothesis => exact inductionHypothesis.tell s
  | ask _ asked inductionHypothesis => exact inductionHypothesis.ask asked
  | setProcedure _ procedure inductionHypothesis =>
    exact inductionHypothesis.ofSame ⟨rfl, rfl, rfl, rfl, .refl _⟩
  | clear _ inductionHypothesis =>
    exact ⟨fun c absent => absurd absent List.not_mem_nil,
      fun c absent => absurd absent List.not_mem_nil,
      fun entry absent => absurd absent List.not_mem_nil⟩
  | widen _ within inductionHypothesis =>
    exact inductionHypothesis.ofSame ⟨rfl, rfl, rfl, rfl, within⟩
  | supply _ supply inductionHypothesis => exact inductionHypothesis.supplied supply _

end KnowledgeBase

end ClausalReasoner
