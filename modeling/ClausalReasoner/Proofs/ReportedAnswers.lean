/-
This file says which answers the given clause procedure reports. Every inferred clause that is an
answer is reported, and of those that were left out because of their keys a variant is. The factors
of new clauses are not looked at, but an answer among them can only come from a clause of several
answer literals.
-/

import ClausalReasoner.Proofs.GivenClauseEvents
import ClausalReasoner.Proofs.NegativeVerdict

namespace ClausalReasoner

/-! ### Answers among inferred clauses and factors -/

namespace GivenClause

variable {options : GivenClauseOptions}

/-- What is inferred joins the set, unless its key is there. -/
theorem exists_key_inferPair (paramodulation : Bool) (c other : Clause)
    (found : ClauseSet × Session) :
    found.1.toList ⊆ (inferPair paramodulation c found other).1.toList ∧
      ∀ d ∈ (found.2.resolvents c other).1 ++
          (if paramodulation then ((found.2.resolvents c other).2.paramodulants c other).1 else []),
        ∃ kept ∈ (inferPair paramodulation c found other).1.toList, kept.key = d.key := by
  have resolved := found.1.subset_insertAll (found.2.resolvents c other).1
  rw [inferPair]
  dsimp only
  split
  · have changed := ClauseSet.subset_insertAll (found.1.insertAll (found.2.resolvents c other).1)
      ((found.2.resolvents c other).2.paramodulants c other).1
    refine ⟨List.Subset.trans resolved changed, fun d member => ?_⟩
    rcases List.mem_append.1 member with here | there
    · obtain ⟨kept, inside, same⟩ := found.1.exists_key_insertAll here
      exact ⟨kept, changed inside, same⟩
    · exact ClauseSet.exists_key_insertAll _ there
  · refine ⟨resolved, fun d member => found.1.exists_key_insertAll ?_⟩
    rwa [List.append_nil] at member

/-- A clause that the rules make is kept, or another one with its key is. -/
theorem exists_key_of_mem_inferred {session : Session} {c d : Clause} {used : List Clause}
    (member : d ∈ inferred options session c used) :
    ∃ kept ∈ (infer options session c used).1, kept.key = d.key := by
  have all : ∀ (used : List Clause) (found : ClauseSet × Session),
      found.1.toList ⊆ (used.foldl (inferPair options.paramodulation c) found).1.toList ∧
      ∀ d ∈ foldFormed (inferPair options.paramodulation c)
          (fun found other => (found.2.resolvents c other).1 ++
            if options.paramodulation then ((found.2.resolvents c other).2.paramodulants c other).1
            else []) found used,
        ∃ kept ∈ (used.foldl (inferPair options.paramodulation c) found).1.toList,
          kept.key = d.key := by
    intro used
    induction used with
    | nil => exact fun found => ⟨List.Subset.refl _, fun d absent => absurd absent List.not_mem_nil⟩
    | cons other rest inductionHypothesis =>
      intro found
      obtain ⟨grown, here⟩ := exists_key_inferPair options.paramodulation c other found
      obtain ⟨grownLater, later⟩ :=
        inductionHypothesis (inferPair options.paramodulation c found other)
      refine ⟨List.Subset.trans grown grownLater, List.forall_mem_append.2 ⟨fun d made => ?_, later⟩⟩
      obtain ⟨kept, inside, same⟩ := here d made
      exact ⟨kept, grownLater inside, same⟩
  exact (all used (∅, session)).2 d member

end GivenClause

namespace AnswerBook

variable {predicate : String}

theorem isAnswer_of_answerLiteral? {ls : List Literal} {l : Literal}
    (answers : answerLiteral? predicate ls = some l) : ls = [l] ∧ l.isAnswer predicate := by
  obtain ⟨alone, positive, atom⟩ := of_answerLiteral? answers
  exact ⟨alone, Literal.isAnswer_iff.2 ⟨positive, atom⟩⟩

theorem answerLiteral?_of_isAnswer {l : Literal} (isAnswer : l.isAnswer predicate) :
    answerLiteral? predicate [l] = some l := by
  obtain ⟨positive, arguments, atom⟩ := Literal.isAnswer_iff.1 isAnswer
  rw [answerLiteral?, positive, atom]
  exact if_pos rfl

end AnswerBook

/-- A clause with the key of an answer is an answer as well, the same one up to the names of
variables. -/
theorem exists_answer_of_key_eq {predicate : String} {c d : Clause} {l : Literal}
    (answers : AnswerBook.answerLiteral? predicate d.literals = some l) (same : c.key = d.key) :
    (Covers c.literals d.literals ∧ Covers d.literals c.literals) ∧
      ∃ m, AnswerBook.answerLiteral? predicate c.literals = some m := by
  obtain ⟨alone, isAnswer⟩ := AnswerBook.isAnswer_of_answerLiteral? answers
  rw [Clause.key_eq, Clause.key_eq, alone] at same
  obtain ⟨m, number, other, isAlone, replaced⟩ := exists_singleton_of_canonicalKey_eq same
  rw [isAlone] at same
  rw [isAlone, alone]
  have covers :=
    covers_of_canonicalKey_eq (withinTieLimit_singleton m) (withinTieLimit_singleton l) same
  refine ⟨⟨covers, covers_of_canonicalKey_eq (withinTieLimit_singleton l)
    (withinTieLimit_singleton m) same.symm⟩, m, AnswerBook.answerLiteral?_of_isAnswer ?_⟩
  have numbered := (Literal.symbolic_isAnswer predicate l (byNumber other)).2 isAnswer
  exact (Literal.symbolic_isAnswer predicate m (byNumber number)).1 (replaced ▸ numbered)

/-- Demodulators make answers of answers. -/
theorem Clause.exists_answer_simplified {predicate : String} (equations : List Atom) {c : Clause}
    {l : Literal} (answers : AnswerBook.answerLiteral? predicate c.literals = some l) :
    ∃ m, AnswerBook.answerLiteral? predicate (c.simplified equations).literals = some m := by
  have invariant : DemodulationInvariant equations fun ls =>
      ∃ m, AnswerBook.answerLiteral? predicate ls = some m := by
    refine ⟨fun equation _ before l after changed given found => ?_⟩
    obtain ⟨m, answers⟩ := given
    obtain ⟨alone, isAnswer⟩ := AnswerBook.isAnswer_of_answerLiteral? answers
    obtain ⟨rfl, same⟩ | ⟨_, none⟩ := List.append_eq_singleton_iff.1 alone
    · obtain ⟨rfl, rfl⟩ := List.cons.inj same
      obtain ⟨positive, arguments, atom⟩ := Literal.isAnswer_iff.1 isAnswer
      obtain ⟨new, position, rfl⟩ := exists_of_demodulate found
      refine ⟨_, AnswerBook.answerLiteral?_of_isAnswer (Literal.isAnswer_iff.2 ⟨positive, ?_⟩)⟩
      rw [atom]
      cases position <;> exact ⟨_, rfl⟩
    · exact absurd none nofun
  exact invariant.simplify {} ⟨l, answers⟩

/-- A clause of answer literals that is neither empty nor an answer has several. -/
theorem Clause.one_lt_size_of_onlyAnswers {predicate : String} {c : Clause}
    (only : c.onlyAnswers predicate) (some : c.literals ≠ [])
    (unanswered : AnswerBook.answerLiteral? predicate c.literals = none) : 1 < c.size := by
  by_contra few
  rw [Clause.size] at few
  obtain ⟨l, alone⟩ := List.length_eq_one_iff.1
    (Nat.le_antisymm (Nat.not_lt.1 few) (List.length_pos_iff.2 some))
  have isAnswer := List.all_eq_true.1 only l (alone ▸ List.mem_singleton_self l)
  rw [alone, AnswerBook.answerLiteral?_of_isAnswer isAnswer] at unanswered
  exact absurd unanswered (Option.some_ne_none _)

/-- A factor has instances of all literals of the clause. -/
theorem Session.exists_replace_of_mem_factors {session : Session} {c d : Clause}
    (member : d ∈ (session.factors c).1) :
    ∃ value : Variable → Term, ∀ k ∈ c.literals, k.replace value ∈ d.literals := by
  have invariant : InstanceInvariant fun ls =>
      ∃ value : Variable → Term, ∀ k ∈ c.literals, k.replace value ∈ ls := by
    refine ⟨fun ls θ given => ?_⟩
    obtain ⟨value, images⟩ := given
    refine ⟨fun v => (value v).substitute θ, fun k inside => mem_firstOccurrences.2 ?_⟩
    exact List.mem_map.2 ⟨_, images k inside, k.replace_replace value θ.value⟩
  refine invariant.factors ⟨.var, fun k inside => ?_⟩ session d member
  rw [Literal.replace, Atom.replace_var]
  exact inside

/-- If a factor of a clause is an answer, the clause has nothing but answer literals. -/
theorem onlyAnswers_of_mem_factors {predicate : String} {session : Session} {c d : Clause}
    {l : Literal} (member : d ∈ (session.factors c).1)
    (answers : AnswerBook.answerLiteral? predicate d.literals = some l) :
    c.onlyAnswers predicate := by
  obtain ⟨value, images⟩ := Session.exists_replace_of_mem_factors member
  obtain ⟨alone, isAnswer⟩ := AnswerBook.isAnswer_of_answerLiteral? answers
  refine List.all_eq_true.2 fun k inside => ?_
  have image : k.replace value = l := List.mem_singleton.1 (alone ▸ images k inside)
  exact (Literal.symbolic_isAnswer predicate k value).1 (image ▸ isAnswer)

/-! ### The report -/

namespace KnowledgeBase

variable {kb last : KnowledgeBase} {query : Sentence} {fuel : Nat} {answer : Answer}
  {options : GivenClauseOptions}

/-- All that happens when a query is answered by the given clause procedure without a time limit. -/
def events (kb : KnowledgeBase) (options : GivenClauseOptions) (fuel : Nat) (query : Sentence) :
    List GivenClause.Event :=
  GivenClause.trace options fuel (GivenClause.start options (kb.refutationOf query))

/-- One of the proofs has the values that an answer literal gives to the variables of a query. -/
def Tells (kb : KnowledgeBase) (query : Sentence) (answer : Answer) (l : Literal) : Prop :=
  ∃ proof ∈ answer.proofs, proof.bindings =
    (Substitution.ofList ((kb.freshQuery query).vars.zip l.atom.arguments)).inTermsOf
      (query.standardizeApart kb.supply).1.reverse

/-- A query with variables has some when it was given fresh ones. -/
theorem vars_freshQuery_ne_nil (some : query.vars ≠ []) : (kb.freshQuery query).vars ≠ [] := by
  obtain ⟨rename, renames⟩ := kb.exists_renamesVariables_query query
  obtain ⟨v, member⟩ := List.exists_mem_of_ne_nil _ some
  have occurs := Sentence.mem_occurrences_renamed renames (mem_firstOccurrences.1 member)
  exact List.ne_nil_of_mem (mem_firstOccurrences.2 occurs)

/-- The books of a refutation without a time limit collect the answers, if a query has variables. -/
theorem collecting_refutationOf (varies : (kb.freshQuery query).vars ≠ []) :
    (kb.refutationOf query).book.Collecting ∧
      (kb.refutationOf query).book.predicate = some kb.nextAnswerPredicate ∧
      (kb.refutationOf query).book.vars = (kb.freshQuery query).vars := by
  have predicate : (kb.refutationOf query).book.predicate = some kb.nextAnswerPredicate := by
    rw [refutationOf, refute_eq]
    exact if_neg varies
  refine ⟨⟨?_, ?_, ?_⟩, predicate, ?_⟩
  · rw [predicate]
    exact Option.some_ne_none _
  all_goals rw [refutationOf, refute_eq]

/-- **The given clause procedure reports the answers that it infers.** For a query with variables and
a run without a time limit that comes to its end: every inferred clause of which the demodulators
make an answer is reported with its bindings. Of the inferred answers that were left out because
another clause has their key, a variant was kept and is reported as what the demodulators make of
it. An answer that is a factor of a new clause comes from a clause of several answer literals. -/
theorem reports_inferredAnswers (procedure : kb.procedure = .givenClause none options)
    (someVariable : query.vars ≠ []) (asked : kb.ask fuel query = some (.ok answer, last)) :
    (∀ session c others, .inference session c others ∈ kb.events options fuel query →
      (∀ kept ∈ (GivenClause.infer options session c others).1, ∀ l,
        AnswerBook.answerLiteral? kb.nextAnswerPredicate
            (kept.simplified options.demodulators).literals = some l →
          kb.Tells query answer l) ∧
      ∀ d ∈ GivenClause.inferred options session c others, ∀ l,
        AnswerBook.answerLiteral? kb.nextAnswerPredicate d.literals = some l →
          ∃ kept ∈ (GivenClause.infer options session c others).1,
            (Covers kept.literals d.literals ∧ Covers d.literals kept.literals) ∧
            ∃ m, AnswerBook.answerLiteral? kb.nextAnswerPredicate
                (kept.simplified options.demodulators).literals = some m ∧
              kb.Tells query answer m) ∧
    ∀ session c, .factoring session c ∈ kb.events options fuel query →
      ∀ d ∈ (session.factors c).1, ∀ l,
        AnswerBook.answerLiteral? kb.nextAnswerPredicate d.literals = some l →
          1 < c.size ∧ c.onlyAnswers kb.nextAnswerPredicate := by
  obtain ⟨found, ran, proofs⟩ := exists_answer_of_ask asked
  rw [procedure, Procedure.ask] at ran
  have varies : (kb.freshQuery query).vars ≠ [] := vars_freshQuery_ne_nil someVariable
  obtain ⟨collecting, isPredicate, vars⟩ := collecting_refutationOf varies
  rw [refutationOf] at collecting isPredicate vars
  obtain ⟨book, sameQuery, reported, settled⟩ := GivenClause.exists_settled_of_ask collecting ran
  have predicate := sameQuery.predicate.trans isPredicate
  have tells : ∀ {ls : List Literal} {l : Literal}, book.Reports ls →
      AnswerBook.answerLiteral? kb.nextAnswerPredicate ls = some l → kb.Tells query answer l := by
    intro ls l reports answers
    obtain ⟨proof, member, bindings⟩ := reports _ l predicate answers
    rw [AnswerBook.bindings, sameQuery.vars, vars] at bindings
    rw [Tells, proofs, reported, ← bindings]
    exact ⟨_, List.mem_map_of_mem member, rfl⟩
  refine ⟨fun session c others happens => ?_, fun session c happens d member l answers => ?_⟩
  · have looked := settled _ happens
    refine ⟨fun kept inside l answers => tells (looked kept inside) answers,
      fun d made l answers => ?_⟩
    obtain ⟨kept, inside, same⟩ := GivenClause.exists_key_of_mem_inferred made
    obtain ⟨variants, k, isAnswer⟩ := exists_answer_of_key_eq answers same
    obtain ⟨m, simplified⟩ := Clause.exists_answer_simplified options.demodulators isAnswer
    exact ⟨kept, inside, variants, m, simplified, tells (looked kept inside) simplified⟩
  · obtain ⟨some, unanswered⟩ := settled _ happens _ predicate
    have only := onlyAnswers_of_mem_factors member answers
    exact ⟨Clause.one_lt_size_of_onlyAnswers only some unanswered, only⟩

/-- `Able(Plato)`. -/
def platoIsAble : Sentence :=
  .atom (.predicate "Able" [.constant "Plato"])

/-- `Able(x)`. -/
def someoneIsAble : Sentence :=
  .atom (.predicate "Able" [.var ⟨"x", none⟩])

/-- The empty knowledge base that takes given clauses without a time limit. -/
def takingGiven : KnowledgeBase :=
  { procedure := .givenClause none {} }

/-- The knowledge base that takes given clauses and was told that Plato is able. -/
def ableSages : KnowledgeBase :=
  takingGiven.telling platoIsAble

/-- Whether an answer is inferred. -/
def infersAnswer (predicate : String) : GivenClause.Event → Bool
  | .inference session c others => (GivenClause.inferred {} session c others).any fun d =>
      (AnswerBook.answerLiteral? predicate d.literals).isSome
  | .factoring _ _ => false

set_option maxRecDepth 10000 in
/-- Who is able is answered by an inferred clause, and this is reported. -/
theorem reports_inferredAnswers_ableSages :
    ∃ answer last, ableSages.ask 3 someoneIsAble = some (.ok answer, last) ∧
      ∃ session c others, .inference session c others ∈ ableSages.events {} 3 someoneIsAble ∧
        ∃ kept ∈ (GivenClause.infer {} session c others).1, ∃ m,
          AnswerBook.answerLiteral? ableSages.nextAnswerPredicate (kept.simplified []).literals =
            some m ∧
          ableSages.Tells someoneIsAble answer m := by
  have procedure : ableSages.procedure = .givenClause none {} := by cbv
  have infers : (ableSages.events {} 3 someoneIsAble).any
    (infersAnswer ableSages.nextAnswerPredicate) := by cbv
  obtain ⟨answer, last, _, asked, _⟩ :=
    exists_of_isProved (by cbv : ableSages.isProved 3 someoneIsAble)
  obtain ⟨event, happens, infersHere⟩ := List.any_eq_true.1 infers
  cases event with
  | inference session c others =>
    obtain ⟨d, made, isAnswer⟩ := List.any_eq_true.1 infersHere
    obtain ⟨l, answers⟩ := Option.isSome_iff_exists.1 isAnswer
    obtain ⟨kept, inside, _, m, simplified, tells⟩ :=
      ((reports_inferredAnswers procedure (by decide) asked).1 session c others happens).2 d made l
        answers
    exact ⟨answer, last, asked, session, c, others, happens, kept, inside, m, simplified, tells⟩
  | factoring session c => exact absurd infersHere Bool.false_ne_true

/-- `Able(x) ∨ ¬Able(Plato)`. -/
def someoneIsAbleOrPlatoIsNot : Sentence :=
  .or someoneIsAble (.negation platoIsAble)

/-- Whether an answer is among the factors that are made. -/
def factorsToAnswer (predicate : String) : GivenClause.Event → Bool
  | .inference _ _ _ => false
  | .factoring session c => (session.factors c).1.any fun d =>
      (AnswerBook.answerLiteral? predicate d.literals).isSome

set_option maxRecDepth 10000 in
/-- Answers among factors are missed: that Plato is as asked for comes about as a factor of two
answer literals, but the run ends without a proof. -/
theorem not_reports_factors_takingGiven :
    takingGiven.Reachable ∧ takingGiven.procedure = .givenClause none {} ∧
      someoneIsAbleOrPlatoIsNot.vars ≠ [] ∧
      ∃ answer last, takingGiven.ask 4 someoneIsAbleOrPlatoIsNot = some (.ok answer, last) ∧
        answer.proofs = [] ∧
        ∃ session c, .factoring session c ∈ takingGiven.events {} 4 someoneIsAbleOrPlatoIsNot ∧
          ∃ d ∈ (session.factors c).1, ∃ l,
            AnswerBook.answerLiteral? takingGiven.nextAnswerPredicate d.literals = some l := by
  have factors : (takingGiven.events {} 4 someoneIsAbleOrPlatoIsNot).any
    (factorsToAnswer takingGiven.nextAnswerPredicate) := by cbv
  obtain ⟨answer, last, asked, noProofs⟩ :=
    exists_of_isUnproved (by cbv : takingGiven.isUnproved 4 someoneIsAbleOrPlatoIsNot)
  obtain ⟨event, happens, factorsHere⟩ := List.any_eq_true.1 factors
  refine ⟨.initial _, rfl, by decide, answer, last, asked, noProofs, ?_⟩
  cases event with
  | inference session c others => exact absurd factorsHere Bool.false_ne_true
  | factoring session c =>
    obtain ⟨d, member, isAnswer⟩ := List.any_eq_true.1 factorsHere
    exact ⟨session, c, happens, d, member, Option.isSome_iff_exists.1 isAnswer⟩

end KnowledgeBase

end ClausalReasoner
