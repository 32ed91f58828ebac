/-
This file says what the proofs of a refutation prove. The clauses that it starts from are those of
the negated query, with the answer literal joined to it. If the stored clauses are valid in an
interpretation and the query holds only for values that the answer predicate is chosen to be true
of, the invented symbols can be interpreted so that all these clauses are valid as well. Literals
that are derived from them are valid too then: an answer literal gives values for which the query
holds, and without an answer literal the query cannot have failed to hold everywhere.
-/

import ClausalReasoner.Proofs.BackedAnswers
import ClausalReasoner.Proofs.ConservativeForm
import ClausalReasoner.Proofs.EqualReplacement
import ClausalReasoner.Proofs.QueryVariables

namespace ClausalReasoner

universe u

variable {Universe : Type u} {meaning : Interpretation Universe} {values : Assignment Universe}

/-! ### The start of a refutation -/

theorem Term.occurrencesList_map_var (vs : List Variable) :
    occurrencesList (vs.map var) = vs := by
  rw [occurrencesList_eq_flatMap, List.flatMap_map]
  exact List.flatMap_singleton' vs

theorem Term.symbolsList_map_var (vs : List Variable) : symbolsList (vs.map var) = [] := by
  induction vs with
  | nil => rfl
  | cons v vs inductionHypothesis => exact inductionHypothesis

/-- No predicate stands in a term. -/
theorem Term.not_predicate_of_mem_symbols {t : Term} {symbol : Symbol} (inside : symbol ∈ t.symbols)
    (name : String) : symbol ≠ .predicate name := by
  induction t with
  | constant other =>
    rw [List.mem_singleton.1 inside]
    exact nofun
  | var v => exact absurd inside List.not_mem_nil
  | app function ts inductionHypothesis =>
    rcases List.mem_cons.1 inside with rfl | below
    · exact nofun
    · obtain ⟨t, member, there⟩ := mem_symbolsList.1 below
      exact inductionHypothesis t member there

namespace KnowledgeBase

variable (kb : KnowledgeBase) (query : Sentence) (limit : TimeLimit)

/-- The answer predicate that is invented for the next query. -/
def nextAnswerPredicate : String :=
  kb.vocabulary.answerPredicate.1

/-- The answer literal for a query, as an atom. -/
def answerFor : Atom :=
  .predicate kb.nextAnswerPredicate (query.vars.map .var)

/-- The sentence that is refuted: the negated query, with the answer literal if there are variables
to answer for. -/
def goalFor : Sentence :=
  if query.vars = [] then .negation query else .or (.negation query) (.atom (kb.answerFor query))

theorem vars_answerFor : (kb.answerFor query).vars = query.vars := by
  rw [Atom.vars, Atom.occurrences, answerFor, Atom.arguments, Term.occurrencesList_map_var]
  exact firstOccurrences_of_nodup (nodup_firstOccurrences _)

/-- The vocabulary before the clauses of the goal are formed. -/
def vocabularyFor : Vocabulary :=
  kb.vocabulary.answerPredicate.2.registerSentence (kb.goalFor query)

theorem refute_eq : kb.refute query limit =
    { book := { predicate := if query.vars = [] then none else some kb.nextAnswerPredicate
                vars := query.vars, limit := limit }
      goals := (kb.session.mapList Session.addGoal
        ((kb.goalFor query).clausalForm (kb.vocabularyFor query)).1).1
      session := (kb.session.mapList Session.addGoal
        ((kb.goalFor query).clausalForm (kb.vocabularyFor query)).1).2
      kb := { kb with
        vocabulary := ((kb.goalFor query).clausalForm (kb.vocabularyFor query)).2 } } := by
  have atoms : (kb.answerAtom (.negation query)).1 = kb.answerFor query := rfl
  have answerVars : (kb.answerAtom (.negation query)).1.vars = query.vars := by
    rw [atoms, vars_answerFor]
  unfold refute
  dsimp only
  rw [answerVars]
  by_cases none : query.vars = []
  · simp only [none, List.isEmpty_nil, if_true, clausesOf, session, answerAtom, goalFor,
      vocabularyFor]
  · have some : query.vars.isEmpty = false := List.isEmpty_eq_false_iff.2 none
    simp only [none, some, if_false, Bool.false_eq_true, clausesOf, session, answerAtom, goalFor,
      vocabularyFor]
    rfl

/-- What is known then is what was known, the answer predicate and the symbols of the query. -/
theorem knows_vocabularyFor {symbol : Symbol} :
    (kb.vocabularyFor query).knows symbol ↔ kb.vocabulary.knows symbol ∨
      symbol = .predicate kb.nextAnswerPredicate ∨ symbol ∈ query.symbols := by
  have goalSymbols : symbol ∈ (kb.goalFor query).symbols ↔
      symbol ∈ query.symbols ∨
        query.vars ≠ [] ∧ symbol = .predicate kb.nextAnswerPredicate := by
    rw [goalFor]
    split
    · next none => simp [Sentence.symbols, none]
    · next some =>
      simp [Sentence.symbols, Atom.symbols, Atom.predicateSymbols, Atom.arguments, answerFor,
        Term.symbolsList_map_var, some]
  rw [vocabularyFor, Vocabulary.knows_registerSentence,
    kb.vocabulary.answerPredicate_invents.knows_iff, goalSymbols]
  tauto

/-- The symbols that are invented for a query are those that are known afterwards and that neither
the knowledge base nor the query had. -/
def Invented (symbol : Symbol) : Prop :=
  (kb.vocabulary.registerSentence query).IsNewIn (kb.refute query limit).kb.vocabulary symbol

theorem not_knows_nextAnswerPredicate :
    ¬ kb.vocabulary.knows (.predicate kb.nextAnswerPredicate) :=
  kb.vocabulary.answerPredicate_invents.unknown

end KnowledgeBase

/-! ### A meaning for the answer predicate -/

/-- The interpretation in which one predicate is given another meaning. -/
def Interpretation.withPredicate (meaning : Interpretation Universe) (name : String)
    (relation : List Universe → Prop) : Interpretation Universe :=
  { meaning with
    predicate := fun other => if other = name then relation else meaning.predicate other }

theorem Interpretation.agree_withPredicate (meaning : Interpretation Universe) (name : String)
    (relation : List Universe → Prop) :
    meaning.Agree (fun symbol => symbol ≠ .predicate name)
      (meaning.withPredicate name relation) := by
  refine ⟨rfl, fun symbol different => ?_⟩
  cases symbol with
  | predicate other =>
    have apart : other ≠ name := fun same => different (congrArg _ same)
    exact (if_neg apart).symm
  | _ => rfl

theorem Interpretation.predicate_withPredicate (meaning : Interpretation Universe) (name : String)
    (relation : List Universe → Prop) :
    (meaning.withPredicate name relation).predicate name = relation :=
  if_pos rfl

/-! ### The goals in a model of the stored clauses -/

namespace KnowledgeBase

variable {kb : KnowledgeBase} {query : Sentence} {limit : TimeLimit}

/-- The stored clauses have known symbols only. -/
def KnowsClauses (kb : KnowledgeBase) : Prop :=
  ∀ c ∈ kb.clauses.toList, ∀ symbol ∈ c.symbols, kb.vocabulary.knows symbol

/-- The goal holds when the answer predicate is true of all values for which the query holds. -/
theorem holdsIn_goalFor {relation : List Universe → Prop}
    (unmentioned : Symbol.predicate kb.nextAnswerPredicate ∉ query.symbols)
    (answers : ∀ values, query.holdsIn meaning values →
      query.vars ≠ [] ∧ relation (query.vars.map values)) (values : Assignment Universe) :
    (kb.goalFor query).holdsIn (meaning.withPredicate kb.nextAnswerPredicate relation) values := by
  have same : query.holdsIn meaning values ↔
      query.holdsIn (meaning.withPredicate kb.nextAnswerPredicate relation) values :=
    query.holdsIn_congr_meaning (meaning.agree_withPredicate _ relation)
      fun symbol inside isAnswer => unmentioned (isAnswer ▸ inside)
  rw [goalFor]
  split
  · next none => exact fun holds => (answers values (same.2 holds)).1 none
  · by_cases holds : query.holdsIn meaning values
    · refine Or.inr ?_
      show (meaning.withPredicate kb.nextAnswerPredicate relation).predicate _ _
      rw [Interpretation.predicate_withPredicate, Term.valuesIn_eq_map, List.map_map]
      exact (answers values holds).2
    · exact Or.inl fun holdsToo => holds (same.2 holdsToo)

theorem anchored_goalFor (anchored : query.Anchored false fun _ => False) :
    (kb.goalFor query).Anchored true fun _ => False := by
  rw [goalFor]
  split
  · exact anchored
  · exact ⟨anchored, trivial⟩

/-- A clause of the goal is stored with other variables, which makes no difference to its
validity. -/
theorem validIn_goals {session : Session} {cs : List Clause}
    (valid : ∀ c ∈ cs, c.ValidIn meaning) :
    ∀ c ∈ (session.mapList Session.addGoal cs).1, c.ValidIn meaning := by
  have added : ∀ (session : Session) (c : Clause), c.ValidIn meaning →
      (session.addGoal c).1.ValidIn meaning := fun session c valid =>
    (resolutionInvariant_allValid meaning).rename valid session
  exact Session.forall_mem_mapList _ (fun c : Clause => c.ValidIn meaning) added session cs valid

/-- A model of the stored clauses becomes one of the goals as well when the answer predicate is true
of all values for which the query holds and the Skolem symbols are interpreted suitably. -/
theorem exists_model_of_goals (limit : TimeLimit) (knows : kb.KnowsClauses)
    (unmentioned : Symbol.predicate kb.nextAnswerPredicate ∉ query.symbols)
    (anchored : query.Anchored false fun _ => False)
    (valid : ∀ c ∈ kb.clauses.toList, c.ValidIn meaning) (relation : List Universe → Prop)
    (answers : ∀ values, query.holdsIn meaning values →
      query.vars ≠ [] ∧ relation (query.vars.map values)) :
    ∃ chosen : Interpretation Universe,
      (meaning.withPredicate kb.nextAnswerPredicate relation).Agree
        (fun symbol => ¬ (kb.vocabularyFor query).IsNewIn
          ((kb.goalFor query).clausalForm (kb.vocabularyFor query)).2 symbol) chosen ∧
      chosen.predicate kb.nextAnswerPredicate = relation ∧
      (∀ c ∈ (kb.refute query limit).kb.clauses.toList, c.ValidIn chosen) ∧
      ∀ c ∈ (kb.refute query limit).goals, c.ValidIn chosen := by
  have registered : ∀ symbol ∈ (kb.goalFor query).symbols,
      (kb.vocabularyFor query).knows symbol := fun symbol inside =>
    (Vocabulary.knows_registerSentence _ _).2 (Or.inr inside)
  obtain ⟨chosen, agree, holds⟩ := Sentence.exists_interpretation_of_clausalForm
    (anchored_goalFor anchored) registered
    (meaning.withPredicate kb.nextAnswerPredicate relation)
  refine ⟨chosen, agree, ?_, ?_, ?_⟩
  · have kept := agree.symbols (.predicate kb.nextAnswerPredicate)
      fun new => new.2 (Sentence.knows_predicate_skolemize.1 new.1)
    exact Eq.trans (Eq.symm kept) (meaning.predicate_withPredicate _ relation)
  · rw [refute_eq]
    intro c member
    have stored : (meaning.withPredicate kb.nextAnswerPredicate relation).Agree
        (fun symbol => kb.vocabulary.knows symbol) chosen :=
      agree.mono fun symbol known new => new.2 ((knows_vocabularyFor kb query).2 (Or.inl known))
    have apart : meaning.Agree (fun symbol => kb.vocabulary.knows symbol)
        (meaning.withPredicate kb.nextAnswerPredicate relation) :=
      (meaning.agree_withPredicate _ relation).mono fun symbol known isAnswer =>
        kb.not_knows_nextAnswerPredicate (isAnswer ▸ known)
    exact (c.validIn_congr_meaning (apart.trans stored) (knows c member)).1 (valid c member)
  · rw [refute_eq]
    exact validIn_goals fun c member values =>
      holds values (holdsIn_goalFor unmentioned answers values) c member

/-- Nothing but the answer predicate and the Skolem symbols was given another meaning. -/
theorem agree_of_not_invented {relation : List Universe → Prop} {chosen : Interpretation Universe}
    (unmentioned : Symbol.predicate kb.nextAnswerPredicate ∉ query.symbols)
    (agree : (meaning.withPredicate kb.nextAnswerPredicate relation).Agree
      (fun symbol => ¬ (kb.vocabularyFor query).IsNewIn
        ((kb.goalFor query).clausalForm (kb.vocabularyFor query)).2 symbol) chosen) :
    meaning.Agree (fun symbol => ¬ kb.Invented query limit symbol) chosen := by
  have invented : ∀ symbol, (kb.vocabularyFor query).knows symbol → ¬ kb.vocabulary.knows symbol →
      symbol ∉ query.symbols → kb.Invented query limit symbol := by
    intro symbol known unknown absent
    rw [Invented, refute_eq]
    refine ⟨Sentence.within_clausalForm _ _ symbol known, fun before => ?_⟩
    exact ((Vocabulary.knows_registerSentence _ _).1 before).elim unknown absent
  refine ((meaning.agree_withPredicate _ relation).mono fun symbol old isAnswer => ?_).trans
    (agree.mono fun symbol old new => ?_)
  · rw [isAnswer] at old
    exact old (invented _ ((knows_vocabularyFor kb query).2 (Or.inr (Or.inl rfl)))
      kb.not_knows_nextAnswerPredicate unmentioned)
  · refine old ?_
    rw [Invented, refute_eq]
    refine ⟨new.1, fun before => new.2 ((knows_vocabularyFor kb query).2 ?_)⟩
    exact ((Vocabulary.knows_registerSentence _ _).1 before).imp_right Or.inr

end KnowledgeBase

/-! ### What the proofs prove -/

/-- A proof is backed by valid literals in every admitted interpretation in which the stored clauses
and the goals are valid. -/
def Refutation.Proves (refutation : Refutation) (admitted : Interpretation Universe → Prop)
    (bindings : Substitution) : Prop :=
  ∀ meaning : Interpretation Universe, admitted meaning →
    (∀ c ∈ refutation.kb.clauses.toList, c.ValidIn meaning) →
      (∀ c ∈ refutation.goals, c.ValidIn meaning) →
        refutation.book.Backs (Literal.AllValid meaning) bindings

namespace KnowledgeBase

variable {kb : KnowledgeBase} {query : Sentence} {limit : TimeLimit}
  {admitted : Interpretation Universe → Prop} {bindings : Substitution}

theorem not_allValid_nil (meaning : Interpretation Universe) :
    ¬ Literal.AllValid meaning [] := fun valid => by
  obtain ⟨l, member, _⟩ := valid fun _ => meaning.constant ""
  exact absurd member List.not_mem_nil

/-- Valid literals back a proof by an answer literal that is valid, and its arguments are the
bindings. -/
theorem arguments_of_backs
    (backs : (kb.refute query limit).book.Backs (Literal.AllValid meaning) bindings) :
    query.vars ≠ [] ∧ ∃ arguments : List Term,
      (∀ values, meaning.predicate kb.nextAnswerPredicate
        (arguments.map (Term.valueIn meaning values))) ∧
      bindings = Substitution.ofList (query.vars.zip arguments) := by
  rw [refute_eq] at backs
  cases backs with
  | refuted noPredicate given => exact absurd given (not_allValid_nil meaning)
  | answered isPredicate given positive atom =>
    dsimp only at isPredicate
    split at isPredicate
    · exact absurd isPredicate nofun
    · next predicate arguments l some =>
      refine ⟨some, arguments, fun values => ?_, by rw [AnswerBook.bindings, atom]; rfl⟩
      obtain ⟨other, member, holds⟩ := given values
      rw [List.mem_singleton.1 member, Literal.holdsIn, positive, atom] at holds
      rw [Option.some.inj isPredicate, ← Term.valuesIn_eq_map]
      exact holds

/-- Where the stored clauses are valid, a query with a proof holds for some values. -/
theorem exists_holdsIn_of_proves (knows : kb.KnowsClauses)
    (unmentioned : Symbol.predicate kb.nextAnswerPredicate ∉ query.symbols)
    (anchored : query.Anchored false fun _ => False)
    (proves : (kb.refute query limit).Proves admitted bindings)
    (valid : ∀ c ∈ kb.clauses.toList, c.ValidIn meaning)
    (admits : ∀ chosen, meaning.Agree (fun symbol => ¬ kb.Invented query limit symbol) chosen →
      admitted chosen) : ∃ values, query.holdsIn meaning values := by
  by_contra nowhere
  -- An answer predicate that is true of nothing accounts for a query that holds nowhere.
  obtain ⟨chosen, agree, isRelation, stored, goals⟩ :=
    exists_model_of_goals limit knows unmentioned anchored valid (fun _ => False)
      fun values holds => absurd ⟨values, holds⟩ nowhere
  have backs := proves chosen (admits chosen (agree_of_not_invented unmentioned agree)) stored goals
  obtain ⟨_, arguments, holds, _⟩ := arguments_of_backs backs
  have somewhere := holds fun _ => meaning.constant ""
  rw [isRelation] at somewhere
  exact somewhere

end KnowledgeBase

/-! ### Reading the bindings off -/

namespace Substitution

/-- Variables that are bound to terms one by one get the values of the terms. -/
theorem valueIn_value_ofList_zip {vs : List Variable} (distinct : vs.Nodup)
    {arguments : List Term} {inside : Assignment Universe}
    (same : vs.map inside = arguments.map (Term.valueIn meaning values)) {v : Variable}
    (member : v ∈ vs) :
    ((ofList (vs.zip arguments)).value v).valueIn meaning values = inside v := by
  have lengths : vs.length = arguments.length := by simpa using congrArg List.length same
  have keys : (vs.zip arguments).map Prod.fst = vs := List.map_fst_zip (Nat.le_of_eq lengths)
  obtain ⟨⟨w, t⟩, listed, rfl⟩ := List.mem_map.1 (keys.symm ▸ member)
  rw [value_of_get?_some (get?_ofList_of_mem (keys.symm ▸ distinct) listed)]
  obtain ⟨place, there⟩ := List.mem_iff_getElem?.1 listed
  obtain ⟨variableThere, termThere⟩ := List.getElem?_zip_eq_some.1 there
  have equal := congrArg (fun list : List Universe => list[place]?) same
  simp only [List.getElem?_map, variableThere, termThere, Option.map_some] at equal
  exact (Option.some.inj equal).symm

end Substitution

namespace KnowledgeBase

variable {kb : KnowledgeBase} {query : Sentence} {limit : TimeLimit}
  {admitted : Interpretation Universe → Prop} {bindings : Substitution}

/-- A query without quantifiers needs no Skolem symbols, and terms keep their values. -/
theorem valueIn_eq_of_isQuantifierFree (plain : query.isQuantifierFree)
    {relation : List Universe → Prop} {chosen : Interpretation Universe}
    (agree : (meaning.withPredicate kb.nextAnswerPredicate relation).Agree
      (fun symbol => ¬ (kb.vocabularyFor query).IsNewIn
        ((kb.goalFor query).clausalForm (kb.vocabularyFor query)).2 symbol) chosen) (t : Term) :
    t.valueIn meaning values = t.valueIn chosen values := by
  have plainGoal : (kb.goalFor query).isQuantifierFree := by
    rw [goalFor]
    split <;> simpa [Sentence.isQuantifierFree] using plain
  rw [Sentence.clausalForm_of_isQuantifierFree plainGoal] at agree
  have same := ((meaning.agree_withPredicate kb.nextAnswerPredicate relation).trans
    (agree.mono fun _ _ new => new.2 new.1)).symbols
  exact Term.valueIn_congr (fun symbol inside => same symbol
    (Term.not_predicate_of_mem_symbols inside _)) fun _ _ => rfl

/-- Where the stored clauses are valid, a query without quantifiers holds for the values that the
bindings of a proof give to its variables. -/
theorem holdsIn_through_of_proves (knows : kb.KnowsClauses)
    (unmentioned : Symbol.predicate kb.nextAnswerPredicate ∉ query.symbols)
    (plain : query.isQuantifierFree)
    (proves : (kb.refute query limit).Proves admitted bindings)
    (valid : ∀ c ∈ kb.clauses.toList, c.ValidIn meaning)
    (admits : ∀ chosen, meaning.Agree (fun symbol => ¬ kb.Invented query limit symbol) chosen →
      admitted chosen) :
    (query.vars ≠ [] → bindings.IsFunctional) ∧
      ∀ values : Assignment Universe,
        query.holdsIn meaning (values.through meaning bindings) := by
  have anchored : query.Anchored false fun _ => False :=
    Sentence.anchored_of_isQuantifierFree plain _ _
  have listed : ∀ v ∈ query.freeVars, v ∈ query.vars := fun v free =>
    mem_firstOccurrences.2 (Sentence.mem_occurrences_of_mem_freeVars free)
  by_cases none : query.vars = []
  · obtain ⟨somewhere, holds⟩ :=
      exists_holdsIn_of_proves knows unmentioned anchored proves valid admits
    refine ⟨fun some => absurd none some, fun values => ?_⟩
    refine (Sentence.holdsIn_congr_values fun v free => ?_).1 holds
    exact absurd (none ▸ listed v free) List.not_mem_nil
  · -- The answer predicate is true of the values for which the query holds, and of no others.
    obtain ⟨chosen, agree, isRelation, stored, goals⟩ :=
      exists_model_of_goals limit knows unmentioned anchored valid
        (fun arguments => ∃ inside : Assignment Universe,
          query.vars.map inside = arguments ∧ query.holdsIn meaning inside)
        fun inside holds => ⟨none, inside, rfl, holds⟩
    have backs :=
      proves chosen (admits chosen (agree_of_not_invented unmentioned agree)) stored goals
    obtain ⟨_, arguments, answered, rfl⟩ := arguments_of_backs backs
    rw [isRelation] at answered
    refine ⟨fun _ => ?_, fun values => ?_⟩
    · obtain ⟨inside, same, _⟩ := answered fun _ => meaning.constant ""
      have lengths : query.vars.length = arguments.length := by simpa using congrArg List.length same
      refine Substitution.isFunctional_ofList ?_
      rw [List.map_fst_zip (Nat.le_of_eq lengths)]
      exact nodup_firstOccurrences _
    · obtain ⟨inside, same, holds⟩ := answered values
      have terms : ∀ t : Term, t.valueIn chosen values = t.valueIn meaning values := fun t =>
        (valueIn_eq_of_isQuantifierFree plain agree t).symm
      rw [List.map_congr_left fun t _ => terms t] at same
      refine (Sentence.holdsIn_congr_values fun v free => ?_).1 holds
      exact (Substitution.valueIn_value_ofList_zip (nodup_firstOccurrences _) same
        (listed v free)).symm

end KnowledgeBase

end ClausalReasoner
