/-
This file says what the proofs that are reported for a query are worth. A proof by saturation or by
model elimination is one in all interpretations, and a proof by the given clause procedure in the
normal ones in which the demodulators are valid, provided that these leave alone the symbols that are
invented for the query. A closed query with a proof is entailed, and so is a query without
quantifiers under the bindings of the proof. A query that mixes free variables and quantifiers is
entailed for some values of its free variables, if none of them stands below a quantifier that
has to be refuted by a Skolem term.
-/

import Mathlib
import ClausalReasoner.Proofs.Reachable

namespace ClausalReasoner

universe u

/-- What a proof with some bindings says about a query that is closed or without quantifiers: the
clauses entail the query, or the query under the bindings. -/
structure Sentence.FollowsUnder (query : Sentence)
    (admitted : ∀ {Universe : Type u}, Interpretation Universe → Prop) (cs : List Clause)
    (bindings : Substitution) : Prop where
  closed : query.IsClosed → Entails admitted cs query
  plain : query.isQuantifierFree → Entails admitted cs (query.substitute bindings)

/-! ### What the procedures prove -/

section Procedures

variable {Universe : Type u} {kb last : KnowledgeBase} {query : Sentence} {limit : TimeLimit}
  {fuel : Nat} {answer : Answer}

theorem isNew_refute (kb : KnowledgeBase) (query : Sentence) (limit : TimeLimit) :
    (kb.refute query limit).book.IsNew := by
  rw [KnowledgeBase.refute_eq]
  exact ⟨rfl, rfl⟩

theorem Saturation.proves_of_ask (asked : ask fuel limit kb query = some (.ok answer, last)) :
    ∀ proof ∈ answer.proofs,
      (kb.refute query limit).Proves (fun _ : Interpretation Universe => True) proof.bindings :=
  fun proof member meaning _ stored goals => backs_of_ask (resolutionInvariant_allValid meaning)
    stored goals (isNew_refute kb query limit) asked proof member

/-- The interpretations that the given clause procedure reasons about. -/
def Interpretation.RespectsEquations (equations : List Atom) (meaning : Interpretation Universe) :
    Prop :=
  meaning.IsNormal ∧
    ∀ equation ∈ equationsAmong equations, ∀ values, equation.holdsIn meaning values

theorem GivenClause.proves_of_ask {options : GivenClauseOptions}
    (asked : ask fuel limit options kb query = some (.ok answer, last)) :
    ∀ proof ∈ answer.proofs, (kb.refute query limit).Proves
      (fun meaning : Interpretation Universe => meaning.RespectsEquations options.demodulators)
      proof.bindings :=
  fun proof member _ respects stored goals =>
    backs_of_ask (equalityInvariant_allValid respects.1 respects.2) stored goals
      (isNew_refute kb query limit) asked proof member

theorem AnswerBook.Backs.imp {book : AnswerBook} {holds wider : List Literal → Prop}
    {bindings : Substitution} (backs : book.Backs holds bindings)
    (weaker : ∀ ls, holds ls → wider ls) : book.Backs wider bindings := by
  cases backs with
  | refuted noPredicate given => exact .refuted noPredicate (weaker [] given)
  | answered isPredicate given positive atom =>
    exact .answered isPredicate (weaker _ given) positive atom

/-- The literals of the goals are plain, as are those of the stored clauses. -/
theorem KnowledgeBase.plain_of_mem_goals (kb : KnowledgeBase) (query : Sentence)
    (limit : TimeLimit) :
    ∀ c ∈ (kb.refute query limit).goals, ∀ l ∈ c.literals, l.reduced = false := by
  have registered : ∀ symbol ∈ (kb.goalFor query).symbols, (kb.vocabularyFor query).knows symbol :=
    fun symbol inside => (Vocabulary.knows_registerSentence _ _).2 (Or.inr inside)
  let known : Symbol → Prop := fun symbol =>
    ((kb.goalFor query).clausalForm (kb.vocabularyFor query)).2.knows symbol
  have added : ∀ (session : Session) (c : Clause), c.Regular known →
      (session.addGoal c).1.Regular known := fun session c regular => regular.renamed session.supply
  rw [refute_eq]
  intro c member l inside
  exact (Session.forall_mem_mapList _ (fun c : Clause => c.Regular known) added kb.session _
    (Sentence.regular_clausalForm registered) c member l inside).plain

namespace ModelElimination

/-- Where the stored clauses and the goals are valid, so are the chains that are derived from
them. -/
theorem allValid_of_derivedFrom (regular : kb.Regular) {meaning : Interpretation Universe}
    (stored : ∀ c ∈ (kb.refute query limit).kb.clauses.toList, c.ValidIn meaning)
    (goals : ∀ c ∈ (kb.refute query limit).goals, c.ValidIn meaning) {ls : List Literal}
    (derived : Literal.DerivedFrom (chainsFor (kb.refute query limit)) ls) :
    Literal.AllValid meaning ls := by
  have permuted : ∀ c : Clause, c.ValidIn meaning → (∀ l ∈ c.literals, l.reduced = false) →
      ∀ ls : List Literal, ls.Perm c.literals → Literal.ChainValid meaning ls := by
    intro c valid plain ls permutation
    refine Literal.chainValid_of_allValid (fun values => ?_) fun l inside =>
      plain l (permutation.mem_iff.1 inside)
    obtain ⟨l, inside, holds⟩ := valid values
    exact ⟨l, permutation.mem_iff.2 inside, holds⟩
  have plainStored : ∀ c ∈ (kb.refute query limit).kb.clauses.toList, ∀ l ∈ c.literals,
      l.reduced = false := by
    rw [KnowledgeBase.refute_eq]
    exact regular.plain
  have starts : AllChainsHold (Literal.ChainValid meaning) (chainsFor (kb.refute query limit)) :=
    allChainsHold_chainsFor
      (fun c inside => permuted c (stored c inside) (plainStored c inside))
      (fun c inside => permuted c (goals c inside) (kb.plain_of_mem_goals query limit c inside))
  obtain ⟨chain, made, rfl⟩ := derived
  exact ((chainInvariant_chainValid meaning).derivedFrom starts made).allValid

/-- Bindings that a derived chain accounts for are proved by it. -/
theorem proves_of_backs (regular : kb.Regular) {bindings : Substitution}
    (backs : (kb.refute query limit).book.Backs
      (Literal.DerivedFrom (chainsFor (kb.refute query limit))) bindings) :
    (kb.refute query limit).Proves (fun _ : Interpretation Universe => True) bindings :=
  fun _ _ stored goals =>
    backs.imp fun _ derived => allValid_of_derivedFrom regular stored goals derived

theorem proves_of_ask (regular : kb.Regular)
    (asked : ask fuel limit kb query = some (.ok answer, last)) :
    ∀ proof ∈ answer.proofs,
      (kb.refute query limit).Proves (fun _ : Interpretation Universe => True)
        proof.bindings :=
  fun proof member =>
    proves_of_backs regular (backs_of_ask (isNew_refute kb query limit) asked proof member)

end ModelElimination

end Procedures

/-! ### From the renamed query to the query -/

namespace KnowledgeBase

variable {kb : KnowledgeBase} {query : Sentence} {limit : TimeLimit}
  {admitted : ∀ {Universe : Type u}, Interpretation Universe → Prop} {bindings : Substitution}

/-- The proof that a procedure finds is one for the query with fresh variables. -/
def ProvesFresh (kb : KnowledgeBase) (query : Sentence) (limit : TimeLimit)
    (admitted : ∀ {Universe : Type u}, Interpretation Universe → Prop) (bindings : Substitution) :
    Prop :=
  ∀ Universe : Type u, ((kb.atQuery query).refute (kb.freshQuery query) limit).Proves
    (@admitted Universe) bindings

/-- Whether an interpretation is admitted does not depend on the symbols invented for the query. -/
def AdmitsInventions (kb : KnowledgeBase) (query : Sentence) (limit : TimeLimit)
    (admitted : ∀ {Universe : Type u}, Interpretation Universe → Prop) : Prop :=
  ∀ (Universe : Type u) (meaning chosen : Interpretation Universe), admitted meaning →
    meaning.Agree
      (fun symbol => ¬ (kb.atQuery query).Invented (kb.freshQuery query) limit symbol) chosen →
        admitted chosen

theorem exists_renamesVariables_query (kb : KnowledgeBase) (query : Sentence) :
    ∃ rename, RenamesVariables (query.standardizeApart kb.supply).1.forward query.allVariables
      rename :=
  kb.supply.exists_renamesVariables (nodup_firstOccurrences _)

theorem mem_symbols_freshQuery {symbol : Symbol} :
    symbol ∈ (kb.freshQuery query).symbols ↔ symbol ∈ query.symbols := by
  obtain ⟨rename, renames⟩ := kb.exists_renamesVariables_query query
  exact Sentence.mem_symbols_renamed renames

theorem unmentioned_freshQuery
    (unmentioned : Symbol.predicate kb.nextAnswerPredicate ∉ query.symbols) :
    Symbol.predicate (kb.atQuery query).nextAnswerPredicate ∉ (kb.freshQuery query).symbols :=
  fun inside => unmentioned (mem_symbols_freshQuery.1 inside)

theorem anchored_freshQuery (kb : KnowledgeBase)
    (anchored : query.Anchored false fun _ => False) :
    (kb.freshQuery query).Anchored false fun _ => False := by
  obtain ⟨rename, renames⟩ := kb.exists_renamesVariables_query query
  exact anchored.renamed renames fun _ reach => reach

/-- Where the stored clauses are valid, a query with a proof holds for some values. -/
theorem exists_holdsIn_of_provesFresh (regular : kb.Regular)
    (unmentioned : Symbol.predicate kb.nextAnswerPredicate ∉ query.symbols)
    (anchored : query.Anchored false fun _ => False)
    (proves : kb.ProvesFresh query limit @admitted bindings)
    (admits : kb.AdmitsInventions query limit @admitted) {Universe : Type u}
    {meaning : Interpretation Universe} (isAdmitted : admitted meaning)
    (valid : ∀ c ∈ kb.clauses.toList, c.ValidIn meaning) :
    ∃ values, query.holdsIn meaning values := by
  obtain ⟨rename, renames⟩ := kb.exists_renamesVariables_query query
  have knows : (kb.atQuery query).KnowsClauses := regular.knowsClauses
  obtain ⟨values, holds⟩ := exists_holdsIn_of_proves knows (unmentioned_freshQuery unmentioned)
    (kb.anchored_freshQuery anchored) (proves Universe) valid
    (admits Universe meaning · isAdmitted)
  exact ⟨_, (Sentence.holdsIn_renamed renames query.inside_allVariables values).1 holds⟩

/-- Where the stored clauses are valid, a query without quantifiers is valid under the bindings of
a proof, told in its own variables. -/
theorem validIn_substitute_of_provesFresh (regular : kb.Regular)
    (unmentioned : Symbol.predicate kb.nextAnswerPredicate ∉ query.symbols)
    (plain : query.isQuantifierFree)
    (proves : kb.ProvesFresh query limit @admitted bindings)
    (admits : kb.AdmitsInventions query limit @admitted) {Universe : Type u}
    {meaning : Interpretation Universe} (isAdmitted : admitted meaning)
    (valid : ∀ c ∈ kb.clauses.toList, c.ValidIn meaning) :
    (query.substitute
      (bindings.inTermsOf (query.standardizeApart kb.supply).1.reverse)).ValidIn meaning := by
  obtain ⟨rename, renames⟩ := kb.exists_renamesVariables_query query
  have knows : (kb.atQuery query).KnowsClauses := regular.knowsClauses
  obtain ⟨functional, holds⟩ := holdsIn_through_of_proves knows (unmentioned_freshQuery unmentioned)
    (Sentence.isQuantifierFree_renamed plain) (proves Universe) valid
    (admits Universe meaning · isAdmitted)
  intro values
  rw [Sentence.holdsIn_substitute_of_isQuantifierFree plain]
  -- A variable of the query has the value of its new variable under the values renamed back.
  have renamedBack := (Sentence.holdsIn_renamed renames query.inside_allVariables _).1
    (holds (values.through meaning (query.standardizeApart kb.supply).1.reverse))
  refine (Sentence.holdsIn_congr_values fun v free => ?_).1 renamedBack
  have member : v ∈ query.allVariables := query.inside_allVariables.freeVars v free
  have someVariable : (kb.freshQuery query).vars ≠ [] := by
    have occurs := Sentence.mem_occurrences_renamed renames
      (Sentence.mem_occurrences_of_mem_freeVars free)
    exact List.ne_nil_of_mem (mem_firstOccurrences.2 occurs)
  have told := renames.value_inTermsOf (functional someVariable) member
  exact ((bindings.value (rename v)).valueIn_substitute meaning values _).symm.trans
    (congrArg (Term.valueIn meaning values) told).symm

/-- A closed query with a proof is entailed, and so is a query without quantifiers under the bindings
of the proof. -/
theorem followsUnder_of_provesFresh (regular : kb.Regular)
    (unmentioned : Symbol.predicate kb.nextAnswerPredicate ∉ query.symbols)
    (proves : kb.ProvesFresh query limit @admitted bindings)
    (admits : kb.AdmitsInventions query limit @admitted) :
    query.FollowsUnder @admitted kb.clauses.toList
      (bindings.inTermsOf (query.standardizeApart kb.supply).1.reverse) where
  closed isClosed Universe meaning isAdmitted valid := by
    obtain ⟨values, holds⟩ := exists_holdsIn_of_provesFresh regular unmentioned
      (isClosed.anchored false _) proves admits isAdmitted valid
    exact (isClosed.validIn_iff values).2 holds
  plain isPlain Universe meaning isAdmitted valid :=
    validIn_substitute_of_provesFresh regular unmentioned isPlain proves admits isAdmitted valid

/-- A query with a proof is entailed for some values of its free variables, if these are not in the
scope of quantifiers that call for Skolem terms. -/
theorem entails_existential_of_provesFresh (regular : kb.Regular)
    (unmentioned : Symbol.predicate kb.nextAnswerPredicate ∉ query.symbols)
    (anchored : query.Anchored false fun _ => False)
    (proves : kb.ProvesFresh query limit @admitted bindings)
    (admits : kb.AdmitsInventions query limit @admitted) :
    Entails @admitted kb.clauses.toList (.quantify .existential query.freeVars query) := by
  intro Universe meaning isAdmitted valid values
  obtain ⟨somewhere, holds⟩ := exists_holdsIn_of_provesFresh regular unmentioned anchored proves
    admits isAdmitted valid
  rw [Sentence.holdsIn_quantify, Quantifier.holdsOver_existential_iff]
  refine ⟨values.override query.freeVars somewhere, Assignment.agreeOff_override, ?_⟩
  refine (Sentence.holdsIn_congr_values fun v free => ?_).1 holds
  exact (Assignment.override_of_mem free).symm

/-- All interpretations are admitted, whatever is invented. -/
theorem admitsInventions_true (kb : KnowledgeBase) (query : Sentence) (limit : TimeLimit) :
    kb.AdmitsInventions query limit fun {_ : Type u} _ => True :=
  fun _ _ _ _ _ => trivial

/-- The interpretations for the given clause procedure stay what they are when the demodulators have
none of the invented symbols. -/
theorem admitsInventions_respectsEquations {equations : List Atom}
    (untouched : ∀ equation ∈ equationsAmong equations, ∀ symbol ∈ equation.symbols,
      ¬ (kb.atQuery query).Invented (kb.freshQuery query) limit symbol) :
    kb.AdmitsInventions query limit (Interpretation.RespectsEquations.{u} equations) := by
  intro Universe meaning chosen respects agree
  refine ⟨agree.isNormal respects.1, fun equation member values => ?_⟩
  refine (Atom.holdsIn_congr agree.equality (fun symbol inside => ?_) fun _ _ => rfl).1
    (respects.2 equation member values)
  exact agree.symbols symbol (untouched equation member symbol inside)

theorem vocabulary_afterSession (kb : KnowledgeBase) (session : Session) :
    (kb.afterSession session).vocabulary = kb.vocabulary := rfl

/-- What is invented for the query with fresh variables is what is new after the query. -/
theorem invented_freshQuery_iff {session : Session} {symbol : Symbol} :
    (kb.atQuery query).Invented (kb.freshQuery query) limit symbol ↔
      (kb.vocabulary.registerSentence query).IsNewIn
        (((kb.atQuery query).refute (kb.freshQuery query) limit).kb.afterSession
          session).vocabulary symbol := by
  have vocabulary : (kb.atQuery query).vocabulary = kb.vocabulary := rfl
  rw [Invented, vocabulary_afterSession, Vocabulary.IsNewIn, Vocabulary.IsNewIn,
    Vocabulary.knows_registerSentence, Vocabulary.knows_registerSentence, mem_symbols_freshQuery,
    vocabulary]

end KnowledgeBase

/-! ### The answers of the knowledge base -/

namespace Procedure

/-- The equations by which a procedure simplifies. -/
def demodulators : Procedure → List Atom
  | .givenClause _ options => options.demodulators
  | _ => []

/-- The interpretations that a procedure reasons about. -/
def Admits {Universe : Type u} : Procedure → Interpretation Universe → Prop
  | .givenClause _ options, meaning => meaning.RespectsEquations options.demodulators
  | _, _ => True

/-- Whether a procedure refutes by resolution. -/
def isResolution : Procedure → Bool
  | .saturation _ => true
  | .givenClause _ _ => true
  | _ => false

/-- Whether a procedure refutes the negation of the query. -/
def isRefutation : Procedure → Bool
  | .modelElimination _ => true
  | procedure => procedure.isResolution

end Procedure

/-- An answer that is true has a proof. -/
theorem Answer.exists_proof {answer : Answer} (proved : answer.isTrue) :
    ∃ proof, proof ∈ answer.proofs := by
  refine List.exists_mem_of_ne_nil _ fun none => ?_
  rw [isTrue, none] at proved
  exact absurd proved Bool.false_ne_true

namespace KnowledgeBase

variable {kb last : KnowledgeBase} {query : Sentence} {fuel : Nat} {answer : Answer}

/-- A proof that is reported for a query is one that the procedure has found for the query with
fresh variables, if the invented symbols do not occur in the demodulators. -/
theorem exists_provesFresh_of_ask (regular : kb.Regular)
    (refutation : kb.procedure.isRefutation)
    (asked : kb.ask fuel query = some (.ok answer, last))
    (untouched : ∀ equation ∈ equationsAmong kb.procedure.demodulators,
      ∀ symbol ∈ equation.symbols,
        ¬ (kb.vocabulary.registerSentence query).IsNewIn last.vocabulary symbol) :
    ∀ proof ∈ answer.proofs, ∃ limit bindings,
      kb.ProvesFresh query limit (Procedure.Admits.{u} kb.procedure) bindings ∧
      kb.AdmitsInventions query limit (Procedure.Admits.{u} kb.procedure) ∧
      proof.bindings = bindings.inTermsOf (query.standardizeApart kb.supply).1.reverse := by
  intro proof member
  obtain ⟨found, ran, proofs⟩ := exists_answer_of_ask asked
  obtain ⟨before, inside, rfl⟩ := List.mem_map.1 (proofs ▸ member)
  cases isProcedure : kb.procedure with
  | forwardChaining =>
    rw [isProcedure] at refutation
    exact absurd refutation Bool.false_ne_true
  | backwardChaining =>
    rw [isProcedure] at refutation
    exact absurd refutation Bool.false_ne_true
  | saturation limit =>
    rw [isProcedure, Procedure.ask] at ran
    exact ⟨limit, before.bindings, fun Universe => Saturation.proves_of_ask ran before inside,
      admitsInventions_true kb query limit, rfl⟩
  | modelElimination limit =>
    rw [isProcedure, Procedure.ask] at ran
    have regularFresh : (kb.atQuery query).Regular := regular.supplied _ kb.derivation
    exact ⟨limit, before.bindings,
      fun Universe => ModelElimination.proves_of_ask regularFresh ran before inside,
      admitsInventions_true kb query limit, rfl⟩
  | givenClause limit options =>
    rw [isProcedure, Procedure.ask] at ran
    rw [isProcedure] at untouched
    refine ⟨limit, before.bindings, fun Universe => GivenClause.proves_of_ask ran before inside,
      admitsInventions_respectsEquations fun equation listed symbol occurs invented => ?_, rfl⟩
    rw [GivenClause.ask_eq] at ran
    obtain ⟨state, _, same⟩ := Option.map_eq_some_iff.1 ran
    obtain ⟨_, rfl⟩ := Prod.mk.inj same
    exact untouched equation listed symbol occurs (invented_freshQuery_iff.1 invented)

/-! ### Running small examples -/

/-- Whether a query is answered with a proof within the given fuel. -/
def isProved (kb : KnowledgeBase) (fuel : Nat) (query : Sentence) : Bool :=
  ((kb.ask fuel query).map fun reply =>
    match reply.1 with
    | .ok answer => answer.isTrue
    | .error _ => false).getD false

theorem exists_of_isProved (proved : kb.isProved fuel query) :
    ∃ answer last proof, kb.ask fuel query = some (.ok answer, last) ∧ proof ∈ answer.proofs := by
  unfold isProved at proved
  cases asked : kb.ask fuel query with
  | none =>
    rw [asked] at proved
    exact absurd proved Bool.false_ne_true
  | some reply =>
    obtain ⟨outcome, last⟩ := reply
    rw [asked] at proved
    cases outcome with
    | error failure => exact absurd proved Bool.false_ne_true
    | ok answer =>
      have proved : answer.isTrue := proved
      obtain ⟨proof, member⟩ := answer.exists_proof proved
      exact ⟨answer, last, proof, rfl, member⟩

/-- Whether the search for a proof comes to its end without one within the given fuel. -/
def isUnproved (kb : KnowledgeBase) (fuel : Nat) (query : Sentence) : Bool :=
  ((kb.ask fuel query).map fun reply =>
    match reply.1 with
    | .ok answer => answer.isPossiblyFalse
    | .error _ => false).getD false

theorem exists_of_isUnproved (unproved : kb.isUnproved fuel query) :
    ∃ answer last, kb.ask fuel query = some (.ok answer, last) ∧ answer.proofs = [] := by
  unfold isUnproved at unproved
  cases asked : kb.ask fuel query with
  | none =>
    rw [asked] at unproved
    exact absurd unproved Bool.false_ne_true
  | some reply =>
    obtain ⟨outcome, last⟩ := reply
    rw [asked] at unproved
    cases outcome with
    | error failure => exact absurd unproved Bool.false_ne_true
    | ok answer =>
      have unproved : answer.isPossiblyFalse := unproved
      rw [Answer.isPossiblyFalse, Bool.and_eq_true, List.isEmpty_iff] at unproved
      exact ⟨answer, last, rfl, unproved.2⟩

/-- The bindings of the proofs of a query, if it is answered within the given fuel. -/
def bindingsOf (kb : KnowledgeBase) (fuel : Nat) (query : Sentence) : Option (List Substitution) :=
  (kb.ask fuel query).bind fun reply =>
    match reply.1 with
    | .ok answer => some (answer.proofs.map Proof.bindings)
    | .error _ => none

theorem exists_of_bindingsOf {bindings : List Substitution}
    (found : kb.bindingsOf fuel query = some bindings) :
    ∃ answer last, kb.ask fuel query = some (.ok answer, last) ∧
      answer.proofs.map Proof.bindings = bindings := by
  obtain ⟨⟨outcome, last⟩, asked, told⟩ := Option.bind_eq_some_iff.1 found
  cases outcome with
  | error failure => exact absurd told nofun
  | ok answer => exact ⟨answer, last, asked, Option.some.inj told⟩

/-- The knowledge base after a sentence was told. -/
def telling (kb : KnowledgeBase) (s : Sentence) : KnowledgeBase :=
  (kb.tell s).2

theorem Reachable.telling (reachable : kb.Reachable) (s : Sentence) :
    (kb.telling s).Reachable :=
  reachable.tell s

/-- The empty knowledge base that simplifies by an equation between constants. -/
def simplifying (left right : String) : KnowledgeBase :=
  { procedure := .givenClause (some 0)
      { paramodulation := false, demodulators := [.equality (.constant left) (.constant right)] } }

/-! ### Soundness -/

/-- **The proofs of the resolution procedures are correct.** In a reachable knowledge base, for a
query that does not mention the answer predicate, and with demodulators that do not mention the
symbols invented for it: when a proof is reported, a closed query is entailed by the stored clauses,
and a query without quantifiers is entailed under the bindings of the proof. -/
theorem Reachable.followsUnder_of_ask (reachable : kb.Reachable)
    (resolution : kb.procedure.isResolution)
    (unmentioned : Symbol.predicate kb.nextAnswerPredicate ∉ query.symbols)
    (asked : kb.ask fuel query = some (.ok answer, last))
    (untouched : ∀ equation ∈ equationsAmong kb.procedure.demodulators,
      ∀ symbol ∈ equation.symbols,
        ¬ (kb.vocabulary.registerSentence query).IsNewIn last.vocabulary symbol) :
    ∀ proof ∈ answer.proofs, query.FollowsUnder (Procedure.Admits.{u} kb.procedure)
      kb.clauses.toList proof.bindings := by
  intro proof member
  have refutation : kb.procedure.isRefutation := by
    cases isProcedure : kb.procedure <;> rw [isProcedure] at resolution <;>
      first | rfl | exact absurd resolution Bool.false_ne_true
  obtain ⟨limit, bindings, proves, admits, same⟩ :=
    exists_provesFresh_of_ask reachable.regular refutation asked untouched proof member
  rw [same]
  exact followsUnder_of_provesFresh reachable.regular unmentioned proves admits

/-- `P(B, C)`. -/
def pairStands : Sentence :=
  .atom (.predicate "P" [.constant "B", .constant "C"])

set_option maxRecDepth 10000 in
/-- What was told is proved from what was told, with `B = C` as a demodulator. -/
theorem followsUnder_of_ask_pairStands :
    ∃ answer last proof,
      ((simplifying "B" "C").telling pairStands).ask 3 pairStands = some (.ok answer, last) ∧
      proof ∈ answer.proofs ∧
      pairStands.FollowsUnder
        (Procedure.Admits.{u} ((simplifying "B" "C").telling pairStands).procedure)
        ((simplifying "B" "C").telling pairStands).clauses.toList proof.bindings := by
  have reachable : ((simplifying "B" "C").telling pairStands).Reachable :=
    (Reachable.initial _).telling pairStands
  have procedure : ((simplifying "B" "C").telling pairStands).procedure =
      (simplifying "B" "C").procedure := by cbv
  obtain ⟨answer, last, proof, asked, member⟩ := exists_of_isProved
    (by cbv : ((simplifying "B" "C").telling pairStands).isProved 3 pairStands)
  refine ⟨answer, last, proof, asked, member, reachable.followsUnder_of_ask ?_ ?_ asked ?_ proof
    member⟩
  · rw [procedure]
    rfl
  · have name : ((simplifying "B" "C").telling pairStands).nextAnswerPredicate = "Answer0" := by
      cbv
    rw [name]
    decide
  · rw [procedure]
    intro equation listed symbol inside new
    obtain rfl : equation = .equality (.constant "B") (.constant "C") :=
      List.mem_singleton.1 (List.mem_of_mem_filter listed)
    have among : symbol ∈ pairStands.symbols :=
      List.mem_cons_of_mem _ inside
    exact new.2 ((Vocabulary.knows_registerSentence _ _).2 (Or.inr among))

/-- `P(B)`. -/
def onlyB : Sentence :=
  .atom (.predicate "P" [.constant "B"])

/-- `∀x (P(x) ∧ P(B))`, whose negation calls for a Skolem constant. -/
def everything : Sentence :=
  .quantified .universal [⟨"x", none⟩] (.and (.atom (.predicate "P" [.var ⟨"x", none⟩])) onlyB)

/-- Two values, of which `P` is true of one. That one is named by all constants. -/
def oneOfTwo : Interpretation Bool where
  constant _ := true
  function _ _ := true
  predicate _ arguments := arguments = [true]
  equality := Eq

set_option maxRecDepth 10000 in
/-- Demodulators must leave the invented symbols alone: `P(B)` does not entail that everything has
the property, but with `B = SC0` as a demodulator it is proved, since `SC0` is the Skolem constant
that the negation of the query is given. -/
theorem not_entails_everything_of_ask :
    ((simplifying "B" "SC0").telling onlyB).Reachable ∧
      ((simplifying "B" "SC0").telling onlyB).procedure.isResolution ∧
      everything.IsClosed ∧
      Symbol.predicate ((simplifying "B" "SC0").telling onlyB).nextAnswerPredicate ∉
        everything.symbols ∧
      (∃ answer last proof,
        ((simplifying "B" "SC0").telling onlyB).ask 3 everything = some (.ok answer, last) ∧
        proof ∈ answer.proofs) ∧
      ¬ Entails.{0} (Procedure.Admits ((simplifying "B" "SC0").telling onlyB).procedure)
        ((simplifying "B" "SC0").telling onlyB).clauses.toList everything := by
  have procedure : ((simplifying "B" "SC0").telling onlyB).procedure =
      (simplifying "B" "SC0").procedure := by cbv
  have name : ((simplifying "B" "SC0").telling onlyB).nextAnswerPredicate = "Answer0" := by cbv
  have stored : ((simplifying "B" "SC0").telling onlyB).clauses.toList.map Clause.literals =
      [[.positive (.predicate "P" [.constant "B"])]] := by cbv
  refine ⟨(Reachable.initial _).telling onlyB, procedure ▸ rfl, by decide, by rw [name]; decide,
    exists_of_isProved (by cbv), fun entails => ?_⟩
  rw [procedure] at entails
  have respects : oneOfTwo.RespectsEquations [.equality (.constant "B") (.constant "SC0")] := by
    refine ⟨fun _ _ => Iff.rfl, fun equation listed values => ?_⟩
    rw [List.mem_singleton.1 (List.mem_of_mem_filter listed)]
    rfl
  have valid := entails Bool oneOfTwo respects (fun c member values => ?_) fun _ => true
  · exact absurd (valid false).1 (by simp [Sentence.holdsIn, Atom.holdsIn, oneOfTwo,
      Term.valuesIn, Term.valueIn, Assignment.set])
  · have literals : c.literals ∈ [[Literal.positive (.predicate "P" [.constant "B"])]] :=
      stored ▸ List.mem_map_of_mem member
    rw [Clause.holdsIn, List.mem_singleton.1 literals]
    exact ⟨_, List.mem_singleton_self _, rfl⟩

/-- **Proofs of queries that mix free variables and quantifiers.** In a reachable knowledge base, for
a query that does not mention the answer predicate and in which no free variable stands in the scope
of a quantifier that its negation makes existential: when saturation, model elimination, or the
given clause procedure without demodulators reports a proof, the stored clauses entail the query for
some values of its free variables. -/
theorem Reachable.entails_existential_of_ask (reachable : kb.Reachable)
    (refutation : kb.procedure.isRefutation) (noEquations : kb.procedure.demodulators = [])
    (unmentioned : Symbol.predicate kb.nextAnswerPredicate ∉ query.symbols)
    (anchored : query.Anchored false fun _ => False)
    (asked : kb.ask fuel query = some (.ok answer, last)) (proved : answer.isTrue) :
    Entails (Procedure.Admits.{u} kb.procedure) kb.clauses.toList
      (.quantify .existential query.freeVars query) := by
  obtain ⟨proof, member⟩ := answer.exists_proof proved
  have untouched : ∀ equation ∈ equationsAmong kb.procedure.demodulators,
      ∀ symbol ∈ equation.symbols,
        ¬ (kb.vocabulary.registerSentence query).IsNewIn last.vocabulary symbol := by
    rw [noEquations]
    exact fun _ absent => absurd absent List.not_mem_nil
  obtain ⟨limit, bindings, proves, admits, _⟩ :=
    exists_provesFresh_of_ask reachable.regular refutation asked untouched proof member
  exact entails_existential_of_provesFresh reachable.regular unmentioned anchored proves admits

/-- `∀Y p(f(Y), Y)`. -/
def imagesAreNear : Sentence :=
  .quantified .universal [⟨"Y", none⟩]
    (.atom (.predicate "p" [.app "f" [.var ⟨"Y", none⟩], .var ⟨"Y", none⟩]))

/-- `X` is near to some or to all `Y`, depending on the quantifier. -/
def isNear (quantifier : Quantifier) : Sentence :=
  .quantified quantifier [⟨"Y", none⟩]
    (.atom (.predicate "p" [.var ⟨"X", none⟩, .var ⟨"Y", none⟩]))

/-- The knowledge base that saturates and was told that images are near. -/
def images : KnowledgeBase :=
  KnowledgeBase.telling { procedure := .saturation (some 0) } imagesAreNear

theorem procedure_images : images.procedure = .saturation (some 0) := by cbv

theorem nextAnswerPredicate_images : images.nextAnswerPredicate = "Answer0" := by cbv

theorem reachable_images : images.Reachable :=
  (Reachable.initial _).telling imagesAreNear

set_option maxRecDepth 10000 in
/-- Something is near to something, and this is proved. -/
theorem entails_existential_of_ask_isNear :
    images.isProved 3 (isNear .existential) ∧
      Entails (Procedure.Admits.{u} images.procedure) images.clauses.toList
        (.quantify .existential (isNear .existential).freeVars (isNear .existential)) := by
  have proved : images.isProved 3 (isNear .existential) := by cbv
  obtain ⟨answer, last, proof, asked, member⟩ := exists_of_isProved proved
  refine ⟨proved, reachable_images.entails_existential_of_ask ?_ ?_ ?_ ?_ asked ?_⟩
  · rw [procedure_images]
    rfl
  · rw [procedure_images]
    rfl
  · rw [nextAnswerPredicate_images]
    decide
  · exact ⟨fun existential => absurd existential (by decide), trivial⟩
  · rw [Answer.isTrue, List.isEmpty_eq_false_iff.2 (List.ne_nil_of_mem member)]
    rfl

/-- Two values, of which each is its own image and near to itself only. -/
def selfNear : Interpretation Bool where
  constant _ := true
  function _ arguments := arguments.headD true
  predicate _ arguments := ∃ value, arguments = [value, value]
  equality := Eq

set_option maxRecDepth 10000 in
/-- The condition on the free variables cannot be left out. That `X` is near to everything is proved
from images being near, since the Skolem constant for `Y` does not depend on `X`, but nothing need
be near to everything. -/
theorem not_entails_existential_isNear :
    images.Reachable ∧ images.procedure = .saturation (some 0) ∧
      (isNear .universal).freeVars = [⟨"X", none⟩] ∧
      Symbol.predicate images.nextAnswerPredicate ∉ (isNear .universal).symbols ∧
      (∃ answer last proof, images.ask 3 (isNear .universal) = some (.ok answer, last) ∧
        proof ∈ answer.proofs) ∧
      ¬ Entails.{0} (fun _ => True) images.clauses.toList
        (.quantify .existential (isNear .universal).freeVars (isNear .universal)) := by
  have stored : images.clauses.toList.map Clause.literals =
      [[.positive (.predicate "p" [.app "f" [.var ⟨"Y", some 0⟩], .var ⟨"Y", some 0⟩])]] := by cbv
  refine ⟨reachable_images, procedure_images, rfl, by rw [nextAnswerPredicate_images]; decide,
    exists_of_isProved (by cbv), fun entails => ?_⟩
  have valid := entails Bool selfNear trivial (fun c member values => ?_) fun _ => true
  · obtain ⟨x, holds⟩ := valid
    obtain ⟨value, same⟩ := holds !x
    obtain ⟨isX, rest⟩ := List.cons.inj (show [x, !x] = [value, value] from same)
    have swapped : (!x) = x := (List.cons.inj rest).1.trans isX.symm
    exact (Bool.not_eq_self x).1 swapped
  · have literals : c.literals ∈ [[Literal.positive
        (.predicate "p" [.app "f" [.var ⟨"Y", some 0⟩], .var ⟨"Y", some 0⟩])]] :=
      stored ▸ List.mem_map_of_mem member
    rw [Clause.holdsIn, List.mem_singleton.1 literals]
    exact ⟨_, List.mem_singleton_self _, values ⟨"Y", some 0⟩, rfl⟩

end KnowledgeBase

end ClausalReasoner
