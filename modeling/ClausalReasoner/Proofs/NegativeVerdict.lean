/-
This file says what it is worth when saturation ends without a proof. The clauses it ends with are
saturated and cover the stored clauses and the goals, so they have a model in which no answer
literal holds, unless one of them has nothing but answer literals. In that model the negated query
holds: the query is not entailed. A final clause that has nothing but answer literals is a
disjunctive answer. It means that the query is entailed, but saturation counts as answers only
those clauses that have a single literal, and reports nothing.
-/

import ClausalReasoner.Proofs.SaturationClosure
import ClausalReasoner.Proofs.Soundness

namespace ClausalReasoner

universe u

/-! ### Clauses that are closed are saturated -/

/-- A literal that an instance makes equal to another one is merged with it in a smaller clause that
covers the instance. -/
theorem Clause.FactorsIn.exists_smaller {cs : List Clause} {c : Clause} (factors : c.FactorsIn cs)
    (plain : c.Plain) {value : Variable → Term} {pair : Literal × Literal}
    (member : pair ∈ c.factorPairs) (same : pair.1.replace value = pair.2.replace value) :
    ∃ d ∈ cs, d.size < c.size ∧ ∃ into : Variable → Term,
      ∀ k ∈ d.literals, k.replace into ∈ c.literals.map (Literal.replace value) := by
  obtain ⟨θ, found, respects⟩ := Atom.exists_unify (congrArg Literal.atom same)
  obtain ⟨d, among, into, perm⟩ := factors pair member θ found
  refine ⟨d, among, ?_, fun v => (into v).replace value, fun k inside => ?_⟩
  · have lengths := perm.length_eq
    rw [List.length_map] at lengths
    exact lt_of_eq_of_lt lengths (Clause.length_factor_lt plain member found)
  · have image := perm.subset (List.mem_map_of_mem inside)
    obtain ⟨source, origin, becomes⟩ := List.mem_map.1 (mem_firstOccurrences.1 image)
    rw [← Literal.replace_replace, ← becomes, Literal.replace_substitute respects]
    exact List.mem_map_of_mem origin

/-- Clauses whose factors and resolvents are represented are saturated. -/
theorem saturated_of_closed {cs : List Clause} (plain : ∀ c ∈ cs, c.Plain)
    (factors : ∀ c ∈ cs, c.FactorsIn cs)
    (resolvents : ∀ c ∈ cs, ∀ d ∈ cs, ResolvesIn cs c d) : Saturated cs where
  factor c member l left m right different value same := by
    have polarity := congrArg Literal.polarity same
    rcases Clause.mem_factorPairs_or left right different polarity with forth | back
    · exact (factors c member).exists_smaller (plain c member) forth same
    · exact (factors c member).exists_smaller (plain c member) back same.symm
  resolvent := resolvents

/-! ### Clauses that are represented are valid -/

variable {Universe : Type u} {meaning : Interpretation Universe}

theorem Literal.holdsIn_replace (meaning : Interpretation Universe) (values : Assignment Universe)
    (value : Variable → Term) (l : Literal) :
    (l.replace value).holdsIn meaning values ↔
      l.holdsIn meaning fun v => (value v).valueIn meaning values := by
  obtain ⟨atom, polarity, reduced⟩ := l
  cases polarity with
  | positive => exact atom.holdsIn_replace meaning values value
  | negative => exact not_congr (atom.holdsIn_replace meaning values value)

/-- Where clauses are valid, so is what one of them represents. -/
theorem Represented.validIn {cs : List Clause} {c : Clause}
    (represented : Represented cs c.literals) (valid : ∀ d ∈ cs, d.ValidIn meaning) :
    c.ValidIn meaning := by
  obtain ⟨d, member, value, perm⟩ := represented
  intro values
  obtain ⟨l, inside, holds⟩ := valid d member fun v => (value v).valueIn meaning values
  exact ⟨l.replace value, perm.subset (List.mem_map_of_mem inside),
    (l.holdsIn_replace meaning values value).2 holds⟩

/-- Where the goals are valid, so are the clauses that they were made from. -/
theorem validIn_of_goals {session : Session} {cs : List Clause}
    (valid : ∀ c ∈ (session.mapList Session.addGoal cs).1, c.ValidIn meaning) :
    ∀ c ∈ cs, c.ValidIn meaning := by
  induction cs generalizing session with
  | nil => exact fun c none => absurd none List.not_mem_nil
  | cons first rest inductionHypothesis =>
    obtain ⟨here, later⟩ := List.forall_mem_cons.1 valid
    have isCopy : (session.addGoal first).1.CopyOf first := (first.copyOf_renamed session.supply).1
    refine List.forall_mem_cons.2 ⟨?_, inductionHypothesis later⟩
    have represented : Represented [(session.addGoal first).1] first.literals :=
      ⟨_, List.mem_singleton.2 rfl, isCopy.covers.2⟩
    exact represented.validIn fun d member => List.mem_singleton.1 member ▸ here

namespace Sentence

/-- Where the clauses of a closed sentence or an atom are valid and the atom is false, the sentence
is valid. -/
theorem validIn_of_clausalForm_or {s : Sentence} (closed : s.IsClosed) {a : Atom}
    (never : ∀ values, ¬ a.holdsIn meaning values) {voc : Vocabulary}
    (valid : ∀ c ∈ ((Sentence.or s (.atom a)).clausalForm voc).1, c.ValidIn meaning) :
    s.ValidIn meaning := by
  let inward := s.withoutImplications.negationsInward
  let whole := Sentence.or inward (.atom a)
  -- The variables of the atom only make more names count as taken for the sentence.
  have renames := whole.renames_variableNames
  have within : inward.Inside fun v => v ∈ whole.occurrences ∨ v ∈ whole.binders :=
    whole.inside_self.connected.1
  have able : Skolemizable [] .var (s.preparedBeside a) :=
    ⟨(distinctFrom_renameBinders false renames within).nodup,
      fun _ member => absurd member List.not_mem_nil, fun _ _ => rfl⟩
  have apart : ValuesApart .var (s.preparedBeside a) := by
    intro v free
    obtain ⟨w, freeInside, _⟩ := (mem_freeVars_renameBinders false renames within).1 free
    have freeBefore : w ∈ s.freeVars :=
      mem_freeVars_withoutImplications.1 (mem_freeVars_settle.1 freeInside)
    rw [closed] at freeBefore
    exact absurd freeBefore List.not_mem_nil
  have normal : (s.preparedBeside a).IsNegationNormal :=
    (s.isNegationNormal_settle false true).renameBinders false id _
  intro values
  have holds : (s.preparedBeside a).holdsIn meaning values := by
    refine holdsIn_of_skolemize normal able apart voc fun chosen _ => ?_
    have both := (holdsIn_clausalForm (Sentence.or s (.atom a)) voc).1
      fun c member => valid c member chosen
    rw [matrix_or_atom] at both
    exact both.resolve_right (never chosen)
  have inwardHolds := (holdsIn_renameBinders false renames within values).1 holds
  exact (holdsIn_withoutImplications s).1 (((holdsIn_settle _ _ _).1 inwardHolds).2 rfl)

end Sentence

/-! ### Clauses of answer literals -/

/-- Whether a literal answers a query by the given predicate. -/
def Literal.isAnswer (predicate : String) (l : Literal) : Bool :=
  match l.polarity, l.atom with
  | .positive, .predicate name _ => name = predicate
  | _, _ => false

theorem Literal.isAnswer_iff {predicate : String} {l : Literal} :
    l.isAnswer predicate ↔
      l.polarity = .positive ∧ ∃ arguments, l.atom = .predicate predicate arguments := by
  obtain ⟨atom, polarity, reduced⟩ := l
  cases polarity <;> cases atom <;> simp [isAnswer]

/-- Instances of answer literals, and nothing else, are answer literals. -/
theorem Literal.symbolic_isAnswer (predicate : String) :
    Saturated.Symbolic fun l => l.isAnswer predicate := by
  intro l value
  obtain ⟨atom, polarity, reduced⟩ := l
  cases polarity <;> cases atom <;> exact Iff.rfl

/-- Whether a clause has nothing but answer literals, and so says that one of several answers is
right without telling which. -/
def Clause.onlyAnswers (predicate : String) (c : Clause) : Bool :=
  c.literals.all fun l => l.isAnswer predicate

/-- A clause of answer literals is not valid where the answer predicate is true of nothing. -/
theorem Clause.not_validIn_of_onlyAnswers {predicate : String} {c : Clause}
    (only : c.onlyAnswers predicate) (never : meaning.predicate predicate = fun _ => False) :
    ¬ c.ValidIn meaning := by
  intro valid
  obtain ⟨l, inside, holds⟩ := valid fun _ => meaning.constant ""
  obtain ⟨positive, arguments, atom⟩ := Literal.isAnswer_iff.1 (List.all_eq_true.1 only l inside)
  rw [Literal.holdsIn, positive, atom] at holds
  have holds : meaning.predicate predicate _ := holds
  rw [never] at holds
  exact holds

namespace Saturation

/-- The clauses that a saturation ends with, if it ends within the fuel. -/
def finalClauses (fuel : Nat) (refutation : Refutation) : List Clause :=
  match saturate fuel (start refutation) with
  | some state => state.known.toList
  | none => []

/-- Whatever can be inferred from a final clause is covered by one, and so is what the saturation
began with. -/
theorem saturated_finalClauses {fuel : Nat} {kb last : KnowledgeBase} {query : Sentence}
    {answer : Answer} (stored : ∀ c ∈ kb.clauses.toList, c.Plain)
    (asked : ask fuel none kb query = some (.ok answer, last)) (noProofs : answer.proofs = [])
    (within : ∀ c ∈ formed fuel (kb.refute query none), WithinTieLimit c.literals) :
    Saturated (finalClauses fuel (kb.refute query none)) ∧
      (∀ c ∈ finalClauses fuel (kb.refute query none), c.Plain) ∧
      ∀ c ∈ kb.clauses.toList ++ (kb.refute query none).goals,
        Represented (finalClauses fuel (kb.refute query none)) c.literals := by
  have goals := kb.plain_of_mem_goals query none
  have unlimited : (kb.refute query none).book.Unlimited := by
    rw [KnowledgeBase.refute_eq]
    exact ⟨rfl, fun complete => absurd complete Bool.false_ne_true⟩
  have same : (kb.refute query none).kb.clauses = kb.clauses := by
    rw [KnowledgeBase.refute_eq]
  rw [ask_eq] at asked
  generalize kb.refute query none = refutation at goals unlimited same asked within ⊢
  obtain ⟨state, run, outcome⟩ := Option.map_eq_some_iff.1 asked
  obtain ⟨withinStart, withinRun⟩ := List.forall_mem_append.1 within
  obtain ⟨sound, closed, represented⟩ := sound_start rfl
    (List.forall_mem_append.2 ⟨same ▸ stored, goals⟩) unlimited withinStart
  have ends := closedFrom_of_saturate sound closed run withinRun
  have isOpen := ends.book.isClosed_eq_false (congrArg Prod.fst outcome) noProofs
  have final : finalClauses fuel refutation = state.known.toList := by
    rw [finalClauses, run]
  rw [final]
  refine ⟨saturated_of_closed ends.plain (ends.factors isOpen) (ends.resolvents isOpen),
    ends.plain, fun c member => ?_⟩
  exact (represented c (same.symm ▸ member)).trans ends.represented

/-- What is valid in the beginning of a saturation is valid in the end. -/
theorem validIn_finalClauses {fuel : Nat} {refutation : Refutation}
    (stored : ∀ c ∈ refutation.kb.clauses.toList, c.ValidIn meaning)
    (goals : ∀ c ∈ refutation.goals, c.ValidIn meaning)
    (isNew : refutation.book.IsNew) :
    ∀ c ∈ finalClauses fuel refutation, c.ValidIn meaning := by
  have invariant := resolutionInvariant_allValid meaning
  have keeps := keeps_start invariant stored goals isNew
  rw [finalClauses]
  split
  · next state run => exact (keeps_saturate invariant keeps run).known
  · exact fun c none => absurd none List.not_mem_nil

end Saturation

/-! ### The verdict -/

namespace KnowledgeBase

variable {kb last : KnowledgeBase} {query : Sentence} {limit : TimeLimit} {fuel : Nat}
  {answer : Answer}

/-- Where the answer predicate is true of nothing and the clauses of the goal are valid, a closed
query is false. -/
theorem validIn_negation_of_goals (closed : query.IsClosed)
    (never : meaning.predicate kb.nextAnswerPredicate = fun _ => False)
    (valid : ∀ c ∈ (kb.refute query limit).goals, c.ValidIn meaning) :
    (Sentence.negation query).ValidIn meaning := by
  rw [refute_eq] at valid
  have clauses := validIn_of_goals valid
  have closed : (Sentence.negation query).IsClosed := closed
  rw [goalFor] at clauses
  split at clauses
  · exact Sentence.validIn_of_clausalForm closed clauses
  · refine Sentence.validIn_of_clausalForm_or closed (fun values holds => ?_) clauses
    have holds : meaning.predicate kb.nextAnswerPredicate _ := holds
    rw [never] at holds
    exact holds

/-- If saturation ends without a proof and without a clause of answer literals, there is a model of
the stored clauses in which the query is false. -/
theorem exists_countermodel (closed : query.IsClosed)
    (stored : ∀ c ∈ kb.clauses.toList, c.Plain)
    (asked : Saturation.ask fuel none kb query = some (.ok answer, last))
    (noProofs : answer.proofs = [])
    (within : ∀ c ∈ Saturation.formed fuel (kb.refute query none), WithinTieLimit c.literals)
    (undecided : ∀ c ∈ Saturation.finalClauses fuel (kb.refute query none),
      ¬ c.onlyAnswers kb.nextAnswerPredicate) :
    ∃ meaning : Interpretation (ULift.{u} Term),
      (∀ c ∈ kb.clauses.toList, c.ValidIn meaning) ∧
        (Sentence.negation query).ValidIn meaning := by
  obtain ⟨saturated, plain, represented⟩ :=
    Saturation.saturated_finalClauses stored asked noProofs within
  obtain ⟨truth, never, valid⟩ := saturated.exists_model.{u} plain
    (Literal.symbolic_isAnswer kb.nextAnswerPredicate) fun c member => by
      simpa only [Clause.onlyAnswers, List.all_eq_true, not_forall, exists_prop]
        using undecided c member
  have all : ∀ c ∈ kb.clauses.toList ++ (kb.refute query none).goals,
      c.ValidIn (Interpretation.ofTerms.{u} truth) :=
    fun c member => (represented c member).validIn valid
  obtain ⟨validStored, validGoals⟩ := List.forall_mem_append.1 all
  refine ⟨.ofTerms truth, validStored, validIn_negation_of_goals closed ?_ validGoals⟩
  exact funext fun values => eq_false (never _ (Literal.isAnswer_iff.2 ⟨rfl, _, rfl⟩))

/-- A clause of answer literals that saturation ends with means that the query holds for some
values wherever the stored clauses are valid. -/
theorem exists_holdsIn_of_onlyAnswers (knows : kb.KnowsClauses)
    (unmentioned : Symbol.predicate kb.nextAnswerPredicate ∉ query.symbols)
    (anchored : query.Anchored false fun _ => False) {c : Clause}
    (member : c ∈ Saturation.finalClauses fuel (kb.refute query limit))
    (only : c.onlyAnswers kb.nextAnswerPredicate)
    (valid : ∀ c ∈ kb.clauses.toList, c.ValidIn meaning) :
    ∃ values, query.holdsIn meaning values := by
  by_contra nowhere
  obtain ⟨chosen, _, isRelation, stored, goals⟩ :=
    exists_model_of_goals limit knows unmentioned anchored valid (fun _ => False)
      fun values holds => absurd ⟨values, holds⟩ nowhere
  exact Clause.not_validIn_of_onlyAnswers only isRelation (Saturation.validIn_finalClauses stored
    goals (isNew_refute kb query limit) c member)

/-- The refutation that saturation begins with for a query: that of the query with fresh variables,
without a time limit. -/
def refutationOf (kb : KnowledgeBase) (query : Sentence) : Refutation :=
  (kb.atQuery query).refute (kb.freshQuery query) none

/-- All clauses that are formed in answering a query by saturation, from the factors of the stored
clauses and the goals on, whether they are kept or not. -/
def formedClauses (kb : KnowledgeBase) (fuel : Nat) (query : Sentence) : List Clause :=
  Saturation.formed fuel (kb.refutationOf query)

/-- Whether answering a query by saturation ends with a clause of nothing but answer literals. -/
def answersDisjunctively (kb : KnowledgeBase) (fuel : Nat) (query : Sentence) : Bool :=
  (Saturation.finalClauses fuel (kb.refutationOf query)).any fun c =>
    c.onlyAnswers kb.nextAnswerPredicate

/-- **The negative verdict of saturation.** In a reachable knowledge base without a time limit, when
saturation reports no proof for a closed query and every clause that was formed is within the limit
on ties: unless a final clause has nothing but answer literals, the stored clauses do not entail the
query; and if a final clause does, and the query does not mention the answer predicate, they do. -/
theorem Reachable.not_entails_of_ask (reachable : kb.Reachable)
    (procedure : kb.procedure = .saturation none) (closed : query.IsClosed)
    (asked : kb.ask fuel query = some (.ok answer, last)) (noProofs : answer.proofs = [])
    (within : ∀ c ∈ kb.formedClauses fuel query, WithinTieLimit c.literals) :
    (¬ kb.answersDisjunctively fuel query →
      ¬ Entails.{u} (fun _ => True) kb.clauses.toList query) ∧
    (Symbol.predicate kb.nextAnswerPredicate ∉ query.symbols → kb.answersDisjunctively fuel query →
      Entails.{u} (fun _ => True) kb.clauses.toList query) := by
  obtain ⟨rename, renames⟩ := kb.exists_renamesVariables_query query
  have renamed : ∀ {Universe : Type u} {meaning : Interpretation Universe} values,
      (kb.freshQuery query).holdsIn meaning values ↔
        query.holdsIn meaning fun v => values (rename v) :=
    fun values => Sentence.holdsIn_renamed renames query.inside_allVariables values
  refine ⟨fun decided entails => ?_, fun unmentioned disjunctive Universe meaning _ valid => ?_⟩
  · obtain ⟨found, ran, proofs⟩ := exists_answer_of_ask asked
    rw [procedure, Procedure.ask] at ran
    have closedFresh : (kb.freshQuery query).IsClosed := by
      refine List.eq_nil_iff_forall_not_mem.2 fun v free => ?_
      obtain ⟨w, inside, _⟩ := Sentence.exists_of_mem_freeVars_renamed renames free
      rw [closed] at inside
      exact absurd inside List.not_mem_nil
    have stored : ∀ c ∈ (kb.atQuery query).clauses.toList, c.Plain := reachable.regular.plain
    obtain ⟨meaning, valid, denied⟩ := exists_countermodel.{u} closedFresh stored ran
      (List.map_eq_nil_iff.1 (proofs.symm.trans noProofs)) within fun c member only =>
        decided (List.any_eq_true.2 ⟨c, member, only⟩)
    let values : Assignment (ULift.{u} Term) := fun _ => ⟨.constant ""⟩
    exact denied values ((renamed values).2 (entails _ meaning trivial valid _))
  · obtain ⟨c, member, only⟩ := List.any_eq_true.1 disjunctive
    have knows : (kb.atQuery query).KnowsClauses := reachable.regular.knowsClauses
    obtain ⟨values, holds⟩ := exists_holdsIn_of_onlyAnswers knows
      (unmentioned_freshQuery unmentioned) (kb.anchored_freshQuery (closed.anchored false _)) member
      only valid
    exact (closed.validIn_iff _).2 ((renamed values).1 holds)

/-! ### Two negative verdicts -/

/-- `Able(A)`. -/
def oneIsAble : Sentence :=
  .atom (.predicate "Able" [.constant "A"])

/-- `∃x (Able(x) ∧ Willing(x))`. -/
def someIsAbleAndWilling : Sentence :=
  .quantified .existential [⟨"x", none⟩] (.and (.atom (.predicate "Able" [.var ⟨"x", none⟩]))
    (.atom (.predicate "Willing" [.var ⟨"x", none⟩])))

/-- The knowledge base that saturates without a time limit and was told that one is able. -/
def ableOnes : KnowledgeBase :=
  KnowledgeBase.telling { procedure := .saturation none } oneIsAble

set_option maxRecDepth 10000 in
/-- That one is able does not entail that one is able and willing, and this is not proved. -/
theorem not_entails_someIsAbleAndWilling :
    ableOnes.isUnproved 3 someIsAbleAndWilling ∧
      ¬ Entails.{u} (fun _ => True) ableOnes.clauses.toList someIsAbleAndWilling := by
  have unproved : ableOnes.isUnproved 3 someIsAbleAndWilling := by cbv
  obtain ⟨answer, last, asked, noProofs⟩ := exists_of_isUnproved unproved
  have reachable : ableOnes.Reachable := (Reachable.initial _).telling oneIsAble
  have procedure : ableOnes.procedure = .saturation none := by cbv
  have within : (ableOnes.formedClauses 3 someIsAbleAndWilling).all
      fun c => decide (WithinTieLimit c.literals) := by cbv
  have decided : ableOnes.answersDisjunctively 3 someIsAbleAndWilling = false := by cbv
  refine ⟨unproved, (reachable.not_entails_of_ask procedure (by decide) asked noProofs
    fun c member => ?_).1 (Bool.not_eq_true _ ▸ decided)⟩
  exact of_decide_eq_true (List.all_eq_true.1 within c member)

/-- `∃x (Above(A, x) ∨ ¬Above(x, B))`. -/
def someEndsAbove : Sentence :=
  .quantified .existential [⟨"x", none⟩]
    (.or (.atom (.predicate "Above" [.constant "A", .var ⟨"x", none⟩]))
      (.negation (.atom (.predicate "Above" [.var ⟨"x", none⟩, .constant "B"]))))

/-- The empty knowledge base that saturates without a time limit. -/
def saturating : KnowledgeBase :=
  { procedure := .saturation none }

set_option maxRecDepth 10000 in
/-- Disjunctive answers are missed: `A` or `B` is always an `x` as asked for, so nothing at all
entails the query, but saturation ends without a proof. -/
theorem entails_someEndsAbove_of_isUnproved :
    saturating.Reachable ∧ saturating.procedure = .saturation none ∧ someEndsAbove.IsClosed ∧
      saturating.isUnproved 3 someEndsAbove ∧
      (∀ c ∈ saturating.formedClauses 3 someEndsAbove, WithinTieLimit c.literals) ∧
      Entails.{u} (fun _ => True) saturating.clauses.toList someEndsAbove := by
  have within : (saturating.formedClauses 3 someEndsAbove).all
      fun c => decide (WithinTieLimit c.literals) := by cbv
  refine ⟨.initial _, rfl, by decide, by cbv,
    fun c member => of_decide_eq_true (List.all_eq_true.1 within c member), ?_⟩
  intro Universe meaning _ _ values
  by_cases above : meaning.predicate "Above" [meaning.constant "A", meaning.constant "B"]
  · refine ⟨meaning.constant "B", Or.inl ?_⟩
    simpa [Sentence.holdsIn, Atom.holdsIn, Term.valuesIn, Term.valueIn, Assignment.set] using above
  · refine ⟨meaning.constant "A", Or.inr ?_⟩
    simpa [Sentence.holdsIn, Atom.holdsIn, Term.valuesIn, Term.valueIn, Assignment.set] using above

end KnowledgeBase

end ClausalReasoner
