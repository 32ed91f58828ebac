/-
This file says how fresh the answer predicate is. Its name is none of the symbols that are known when
it is invented, so no stored clause has it, and a query can only have it as a symbol that was not
known before. If the query has no such predicate, the answer literal is the only source of it:
whatever a procedure derives from the stored clauses and the goals by its rules has the answer
predicate in positive instances of the answer literal only, and the proofs that are reported come
from such literals.
-/

import ClausalReasoner.Proofs.AnswerLiterals
import ClausalReasoner.Proofs.Soundness

namespace ClausalReasoner

/-- The name of a symbol. -/
def Symbol.name : Symbol → String
  | .constant name | .function name | .predicate name => name

/-- The invented name is none that was known, for whatever kind of symbol. -/
theorem Vocabulary.name_ne_answerPredicate {voc : Vocabulary} {symbol : Symbol}
    (known : voc.knows symbol) : symbol.name ≠ voc.answerPredicate.1 := by
  intro same
  have unknown := not_knows_of_not_isKnown
    (not_isKnown_unusedNumber voc "Answer" voc.nextAnswer)
  have named : symbol.name = "Answer" ++ toString (voc.unusedNumber "Answer" voc.nextAnswer) := same
  cases symbol with
  | constant name => exact unknown.1 (named ▸ known)
  | function name => exact unknown.2.1 (named ▸ known)
  | predicate name => exact unknown.2.2 (named ▸ known)

/-! ### Literals that affirm a predicate -/

/-- If a literal has the given predicate, it is positive and has so many arguments. -/
def Literal.Affirms (predicate : String) (size : Nat) (l : Literal) : Prop :=
  ∀ arguments, l.atom = .predicate predicate arguments →
    l.polarity = .positive ∧ arguments.length = size

section Affirming

variable {predicate : String} {size : Nat}

/-- A literal whose atom differs from another one's in the arguments only, of the same polarity. -/
theorem Literal.Affirms.ofSame {l k : Literal} (affirms : l.Affirms predicate size)
    (polarity : k.polarity = l.polarity)
    (atom : ∀ arguments, k.atom = .predicate predicate arguments → ∃ others,
      l.atom = .predicate predicate others ∧ others.length = arguments.length) :
    k.Affirms predicate size := by
  intro arguments same
  obtain ⟨others, isAtom, length⟩ := atom arguments same
  obtain ⟨positive, sized⟩ := affirms others isAtom
  exact ⟨polarity.trans positive, length.symm.trans sized⟩

theorem Literal.Affirms.substitute {l : Literal} (affirms : l.Affirms predicate size)
    (θ : Substitution) : (l.substitute θ).Affirms predicate size := by
  refine affirms.ofSame rfl fun arguments same => ?_
  obtain ⟨atom, polarity, reduced⟩ := l
  cases atom with
  | equality left right => exact absurd same nofun
  | predicate name ts =>
    obtain ⟨rfl, rfl⟩ := Atom.predicate.inj same
    exact ⟨ts, rfl, (Term.length_replaceList θ.value ts).symm⟩

theorem Literal.Affirms.replaceAt {l : Literal} (affirms : l.Affirms predicate size) (new : Term)
    (position : Position) :
    (⟨l.atom.replaceAt new position, l.polarity, false⟩ : Literal).Affirms predicate size := by
  refine affirms.ofSame rfl fun arguments same => ?_
  obtain ⟨atom, polarity, reduced⟩ := l
  cases position with
  | nil => exact ⟨arguments, same, rfl⟩
  | cons argument rest =>
    cases atom with
    | equality left right =>
      have same : (Atom.equality left right).withArguments
          ([left, right].modify argument (Term.replaceAt new rest)) =
            .predicate predicate arguments := same
      generalize [left, right].modify argument (Term.replaceAt new rest) = ts at same
      -- An equality stays one, with too few arguments as well as with enough.
      rcases ts with _ | ⟨_, _ | _⟩ <;> exact absurd same nofun
    | predicate name ts =>
      obtain ⟨rfl, rfl⟩ := Atom.predicate.inj same
      exact ⟨ts, rfl, (List.length_modify _ _ _).symm⟩

/-- Instantiating literals keeps them affirming. -/
theorem affirms_substituteList {ls : List Literal} (all : ∀ l ∈ ls, l.Affirms predicate size)
    (θ : Substitution) : ∀ l ∈ Literal.substituteList θ ls, l.Affirms predicate size := by
  intro l member
  obtain ⟨source, origin, rfl⟩ := List.mem_map.1 member
  exact (all source origin).substitute θ

/-- All rules of the given clause procedure keep literals affirming. -/
theorem equalityInvariant_affirms (equations : List Atom) (predicate : String) (size : Nat) :
    EqualityInvariant equations fun ls => ∀ l ∈ ls, l.Affirms predicate size where
  instantiate ls θ all l member :=
    affirms_substituteList all θ l (mem_firstOccurrences.1 member)
  resolve first second l m θ allFirst allSecond _ _ _ _ _ k member := by
    refine affirms_substituteList (fun k remaining => ?_) θ k (mem_firstOccurrences.1 member)
    rcases List.mem_append.1 remaining with here | there
    · exact allFirst k (List.mem_of_mem_erase here)
    · exact allSecond k (List.mem_of_mem_erase there)
  demodulate equation _ before l after changed all found k member := by
    obtain ⟨early, here, late⟩ : (∀ k ∈ before, k.Affirms predicate size) ∧
        l.Affirms predicate size ∧ ∀ k ∈ after, k.Affirms predicate size := by
      simpa only [List.forall_mem_append, List.forall_mem_cons] using all
    obtain ⟨new, position, rfl⟩ := exists_of_demodulate found
    rcases List.mem_append.1 (mem_firstOccurrences.1 member) with inBefore | inRest
    · exact early k inBefore
    · rcases List.mem_cons.1 inRest with rfl | inAfter
      · exact here.replaceAt _ _
      · exact late k inAfter
  paramodulate site θ ls proper target source found k member := by
    obtain ⟨position, subterm, _, _, rfl⟩ := site.unified_of_result found
    obtain ⟨early, here, late⟩ : (∀ k ∈ site.before, k.Affirms predicate size) ∧
        site.literal.Affirms predicate size ∧ ∀ k ∈ site.after, k.Affirms predicate size := by
      rw [proper.target] at target
      simpa only [List.forall_mem_append, List.forall_mem_cons] using target
    refine affirms_substituteList (fun k remaining => ?_) θ k (mem_firstOccurrences.1 member)
    rcases List.mem_append.1 remaining with inTarget | inSource
    · rcases List.mem_append.1 inTarget with inBefore | inRest
      · exact early k inBefore
      · rcases List.mem_cons.1 inRest with rfl | inAfter
        · exact here.replaceAt _ _
        · exact late k inAfter
    · exact source k (List.mem_of_mem_erase inSource)
  reflexive x l member arguments same := by
    rw [List.mem_singleton.1 member] at same
    exact absurd same nofun

/-- So do the rules of model elimination. -/
theorem chainInvariant_affirms (predicate : String) (size : Nat) :
    ChainInvariant fun ls => ∀ l ∈ ls, l.Affirms predicate size where
  instantiate ls θ all := affirms_substituteList all θ
  reduce head rest other others θ _ _ near far := by
    obtain ⟨isHead, behind⟩ := List.forall_mem_cons.1 near
    obtain ⟨_, instead⟩ := List.forall_mem_cons.1 far
    have reduced : head.reduce.Affirms predicate size := isHead
    exact affirms_substituteList
      (List.forall_mem_append.2 ⟨instead, List.forall_mem_cons.2 ⟨reduced, behind⟩⟩) θ
  cancel head rest l θ _ _ _ _ all :=
    affirms_substituteList (List.forall_mem_cons.1 all).2 θ
  drop head rest _ all := (List.forall_mem_cons.1 all).2

end Affirming

/-! ### What a refutation derives -/

/-- The literals that a refutation derives: the least collection of lists that has those of the
stored clauses and of the goals and is closed under the rules of the procedure. -/
def Refutation.Derives (refutation : Refutation) : Procedure → List Literal → Prop
  | .saturation _, ls => ∀ holds, ResolutionInvariant holds →
      AllHold holds (refutation.kb.clauses.toList ++ refutation.goals) → holds ls
  | .givenClause _ options, ls => ∀ holds, EqualityInvariant options.demodulators holds →
      AllHold holds (refutation.kb.clauses.toList ++ refutation.goals) → holds ls
  | .modelElimination _, ls => Literal.DerivedFrom (ModelElimination.chainsFor refutation) ls
  | _, _ => False

theorem resolutionInvariant_derives (refutation : Refutation) (limit : TimeLimit) :
    ResolutionInvariant (refutation.Derives (.saturation limit)) where
  instantiate ls θ given holds invariant starts :=
    invariant.instantiate ls θ (given holds invariant starts)
  resolve first second l m θ givenFirst givenSecond inFirst inSecond positive negative same
      holds invariant starts :=
    invariant.resolve first second l m θ (givenFirst holds invariant starts)
      (givenSecond holds invariant starts) inFirst inSecond positive negative same

theorem equalityInvariant_derives (refutation : Refutation) (limit : TimeLimit)
    (options : GivenClauseOptions) :
    EqualityInvariant options.demodulators (refutation.Derives (.givenClause limit options)) where
  instantiate ls θ given holds invariant starts :=
    invariant.instantiate ls θ (given holds invariant starts)
  resolve first second l m θ givenFirst givenSecond inFirst inSecond positive negative same
      holds invariant starts :=
    invariant.resolve first second l m θ (givenFirst holds invariant starts)
      (givenSecond holds invariant starts) inFirst inSecond positive negative same
  demodulate equation listed before l after changed given found holds invariant starts :=
    invariant.demodulate equation listed before l after changed (given holds invariant starts) found
  paramodulate site θ ls proper target source found holds invariant starts :=
    invariant.paramodulate site θ ls proper (target holds invariant starts)
      (source holds invariant starts) found
  reflexive x _ invariant _ := invariant.reflexive x

/-- The time limit of a procedure, if it has any. -/
def Procedure.limit : Procedure → TimeLimit
  | .saturation limit | .givenClause limit _ | .modelElimination limit => limit
  | _ => none

namespace KnowledgeBase

variable {kb last : KnowledgeBase} {query : Sentence} {fuel : Nat}

/-- Every proof that a procedure reports comes from literals that it derives. -/
theorem backs_derives_of_ask {procedure : Procedure} {answer : Answer}
    (isRefutation : procedure.isRefutation)
    (asked : procedure.ask fuel kb query = some (.ok answer, last)) :
    ∀ proof ∈ answer.proofs, (kb.refute query procedure.limit).book.Backs
      ((kb.refute query procedure.limit).Derives procedure) proof.bindings := by
  have isNew := isNew_refute kb query procedure.limit
  cases procedure with
  | forwardChaining => exact absurd isRefutation Bool.false_ne_true
  | backwardChaining => exact absurd isRefutation Bool.false_ne_true
  | saturation limit =>
    exact Saturation.backs_of_ask (resolutionInvariant_derives _ limit)
      (fun c stored _ _ starts => starts c (List.mem_append_left _ stored))
      (fun c goal _ _ starts => starts c (List.mem_append_right _ goal)) isNew asked
  | givenClause limit options =>
    exact GivenClause.backs_of_ask (equalityInvariant_derives _ limit options)
      (fun c stored _ _ starts => starts c (List.mem_append_left _ stored))
      (fun c goal _ _ starts => starts c (List.mem_append_right _ goal)) isNew asked
  | modelElimination limit => exact ModelElimination.backs_of_ask isNew asked

/-! ### The source of answers -/

/-- Different variables can be given any values. -/
theorem exists_map_eq {vs : List Variable} (distinct : vs.Nodup) {ts : List Term}
    (length : ts.length = vs.length) : ∃ value : Variable → Term, vs.map value = ts := by
  induction vs generalizing ts with
  | nil => exact ⟨.var, (List.length_eq_zero_iff.1 length).symm⟩
  | cons v vs inductionHypothesis =>
    obtain ⟨t, rest, rfl⟩ := List.exists_cons_of_length_eq_add_one length
    obtain ⟨fresh, distinct⟩ := List.nodup_cons.1 distinct
    obtain ⟨value, given⟩ := inductionHypothesis distinct (Nat.succ.inj length)
    refine ⟨fun w => if w = v then t else value w, List.cons_eq_cons.2 ⟨if_pos rfl, ?_⟩⟩
    rw [← given]
    exact List.map_congr_left fun w member => if_neg fun same : w = v => fresh (same ▸ member)

/-- A literal that affirms the answer predicate is an instance of the answer literal. -/
theorem exists_instance_of_affirms {l : Literal}
    (affirms : l.Affirms kb.nextAnswerPredicate query.vars.length) {arguments : List Term}
    (atom : l.atom = .predicate kb.nextAnswerPredicate arguments) :
    l.polarity = .positive ∧ ∃ value : Variable → Term,
      l.atom = (kb.answerFor query).replace value := by
  obtain ⟨positive, length⟩ := affirms arguments atom
  obtain ⟨value, given⟩ := exists_map_eq (nodup_firstOccurrences _) length
  refine ⟨positive, value, ?_⟩
  have values : Term.replaceList value (query.vars.map .var) = arguments := by
    rw [Term.replaceList_eq_map, List.map_map, ← given]
    rfl
  rw [atom, answerFor, Atom.replace, values]

/-- At the start every literal of the answer predicate affirms it, if the query does not mention
it. -/
theorem affirms_of_mem_start (knows : kb.KnowsClauses) (limit : TimeLimit)
    (unmentioned : Symbol.predicate kb.nextAnswerPredicate ∉ query.symbols) :
    ∀ c ∈ (kb.refute query limit).kb.clauses.toList ++ (kb.refute query limit).goals,
      ∀ l ∈ c.literals, l.Affirms kb.nextAnswerPredicate query.vars.length := by
  have named : ∀ {l : Literal} {arguments : List Term},
      l.atom = .predicate kb.nextAnswerPredicate arguments →
        Symbol.predicate kb.nextAnswerPredicate ∈ l.symbols := by
    intro l arguments atom
    rw [Literal.symbols, atom]
    exact List.mem_cons_self
  intro c member l inside arguments atom
  rcases List.mem_append.1 member with stored | goal
  · rw [refute_eq] at stored
    exact absurd (knows c stored _ (Clause.mem_symbols.2 ⟨l, inside, named atom⟩))
      kb.not_knows_nextAnswerPredicate
  · obtain ⟨forward, _, others⟩ := exists_answer_of_mem_goals goal
    by_cases isAnswer : l = .positive ((kb.answerFor query).replace forward)
    · subst isAnswer
      refine ⟨rfl, ?_⟩
      rw [← (Atom.predicate.inj atom).2, Term.length_replaceList, List.length_map]
    · exact absurd (others l inside isAnswer _ (named atom)) unmentioned

/-- Whatever is derived has the answer predicate in instances of the answer literal only. -/
theorem affirms_of_derives (regular : kb.Regular) {limit : TimeLimit} {procedure : Procedure}
    (unmentioned : Symbol.predicate kb.nextAnswerPredicate ∉ query.symbols) {ls : List Literal}
    (derived : (kb.refute query limit).Derives procedure ls) :
    ∀ l ∈ ls, l.Affirms kb.nextAnswerPredicate query.vars.length := by
  have starts := affirms_of_mem_start regular.knowsClauses limit unmentioned
  cases procedure with
  | forwardChaining => exact derived.elim
  | backwardChaining => exact derived.elim
  | saturation limit => exact derived _ (equalityInvariant_affirms [] _ _).1 starts
  | givenClause limit options => exact derived _ (equalityInvariant_affirms _ _ _) starts
  | modelElimination limit =>
    obtain ⟨chain, made, rfl⟩ := derived
    have permuted : ∀ c ∈ (kb.refute query _).kb.clauses.toList ++ (kb.refute query _).goals,
        ∀ ls : List Literal, ls.Perm c.literals →
          ∀ l ∈ ls, l.Affirms kb.nextAnswerPredicate query.vars.length :=
      fun c member ls permutation l inside => starts c member l (permutation.mem_iff.1 inside)
    exact (chainInvariant_affirms _ _).derivedFrom (ModelElimination.allChainsHold_chainsFor
      (fun c stored => permuted c (List.mem_append_left _ stored))
      (fun c goal => permuted c (List.mem_append_right _ goal))) made

/-- The refutation that the procedure of a knowledge base begins with for a query: that of the query
with fresh variables. -/
def beginning (kb : KnowledgeBase) (query : Sentence) : Refutation :=
  (kb.atQuery query).refute (kb.freshQuery query) kb.procedure.limit

/-- The answer literal over the fresh variables of a query. -/
def freshAnswer (kb : KnowledgeBase) (query : Sentence) : Atom :=
  (kb.atQuery query).answerFor (kb.freshQuery query)

/-- Answers to a query stem from the answer literal that was joined to its negation. -/
structure AnswersStem (kb : KnowledgeBase) (query : Sentence) : Prop where
  /-- A clause of the goal has no other literal of the answer predicate. -/
  goals : ∀ c ∈ (kb.beginning query).goals, ∃ forward : Variable → Term,
    ∀ l ∈ c.literals, ∀ arguments, l.atom = .predicate kb.nextAnswerPredicate arguments →
      l = .positive ((kb.freshAnswer query).replace forward)
  /-- Whatever is derived has instances of it only. -/
  derived : ∀ ls, (kb.beginning query).Derives kb.procedure ls → ∀ l ∈ ls, ∀ arguments,
    l.atom = .predicate kb.nextAnswerPredicate arguments →
      l.polarity = .positive ∧ ∃ value : Variable → Term,
        l.atom = (kb.freshAnswer query).replace value
  /-- Every proof that is reported comes from literals that are derived. -/
  reported : ∀ fuel answer last, kb.ask fuel query = some (.ok answer, last) →
    ∀ proof ∈ answer.proofs, ∃ found : Substitution,
      (kb.beginning query).book.Backs ((kb.beginning query).Derives kb.procedure) found ∧
        proof.bindings = found.inTermsOf (query.standardizeApart kb.supply).1.reverse

/-- **The answer predicate is fresh, unless the query happens to have it.** In a reachable knowledge
base, for the name of the answer predicate that is invented for a query: no symbol of a stored clause
has the name, and no symbol of the query that was known before the query. If the query does not have
the predicate as one that was not known, its answers stem from the answer literal. -/
theorem Reachable.answerPredicate_isFresh (reachable : kb.Reachable)
    (refutation : kb.procedure.isRefutation) :
    (∀ c ∈ kb.clauses.toList, ∀ symbol ∈ c.symbols, symbol.name ≠ kb.nextAnswerPredicate) ∧
    (∀ symbol ∈ query.symbols, kb.vocabulary.knows symbol →
      symbol.name ≠ kb.nextAnswerPredicate) ∧
    (Symbol.predicate kb.nextAnswerPredicate ∉ query.symbols → kb.AnswersStem query) := by
  have knows : kb.KnowsClauses := reachable.regular.knowsClauses
  refine ⟨fun c stored symbol inside =>
      Vocabulary.name_ne_answerPredicate (knows c stored symbol inside),
    fun symbol _ known => Vocabulary.name_ne_answerPredicate known, fun unmentioned => ?_⟩
  have regular : (kb.atQuery query).Regular := reachable.regular.supplied _ kb.derivation
  have unmentionedFresh := unmentioned_freshQuery unmentioned
  refine ⟨fun c goal => ?_, fun ls derived l inside arguments atom => ?_,
    fun fuel answer last asked proof member => ?_⟩
  · obtain ⟨forward, _, others⟩ := exists_answer_of_mem_goals goal
    refine ⟨forward, fun l inside arguments atom => ?_⟩
    by_contra different
    refine unmentionedFresh (others l inside different _ ?_)
    rw [Literal.symbols, atom]
    exact List.mem_cons_self
  · exact exists_instance_of_affirms
      (affirms_of_derives regular unmentionedFresh derived l inside) atom
  · obtain ⟨found, ran, proofs⟩ := exists_answer_of_ask asked
    obtain ⟨before, inside, rfl⟩ := List.mem_map.1 (proofs ▸ member)
    exact ⟨before.bindings, backs_derives_of_ask refutation ran before inside, rfl⟩

/-- `Wise(Plato)`. -/
def oneIsWise : Sentence :=
  .atom (.predicate "Wise" [.constant "Plato"])

/-- `Wise(x)`. -/
def someoneIsWise : Sentence :=
  .atom (.predicate "Wise" [.var ⟨"x", none⟩])

/-- The knowledge base that saturates and was told that Plato is wise. -/
def sages : KnowledgeBase :=
  KnowledgeBase.telling { procedure := .saturation none } oneIsWise

theorem reachable_sages : sages.Reachable :=
  (Reachable.initial _).telling oneIsWise

theorem procedure_sages : sages.procedure = .saturation none := by cbv

theorem nextAnswerPredicate_sages : sages.nextAnswerPredicate = "Answer0" := by cbv

set_option maxRecDepth 10000 in
/-- Who is wise is answered, and the answer stems from the answer literal. -/
theorem answerPredicate_isFresh_sages :
    sages.isProved 3 someoneIsWise ∧
      Symbol.predicate sages.nextAnswerPredicate ∉ someoneIsWise.symbols ∧
      sages.AnswersStem someoneIsWise := by
  have refutation : sages.procedure.isRefutation := by
    rw [procedure_sages]
    rfl
  have unmentioned : Symbol.predicate sages.nextAnswerPredicate ∉ someoneIsWise.symbols := by
    rw [nextAnswerPredicate_sages]
    decide
  exact ⟨by cbv, unmentioned,
    (reachable_sages.answerPredicate_isFresh refutation).2.2 unmentioned⟩

/-- `Wise(x) ∧ ¬Answer0(x)`. -/
def someoneIsWiseButNoAnswer : Sentence :=
  .and someoneIsWise (.negation (.atom (.predicate "Answer0" [.var ⟨"x", none⟩])))

set_option maxRecDepth 10000 in
/-- A query can have the answer predicate that is invented for it. Its own literal then counts as the
answer literal: that Plato is wise but no answer is reported as proved, and nothing entails it. -/
theorem mentions_answerPredicate_sages :
    sages.Reachable ∧ sages.procedure = .saturation none ∧
      Symbol.predicate sages.nextAnswerPredicate ∈ someoneIsWiseButNoAnswer.symbols ∧
      ∃ answer last proof,
        sages.ask 3 someoneIsWiseButNoAnswer = some (.ok answer, last) ∧ proof ∈ answer.proofs ∧
        ¬ Entails.{0} (fun _ => True) sages.clauses.toList
          (someoneIsWiseButNoAnswer.substitute proof.bindings) := by
  have plato : sages.bindingsOf 3 someoneIsWiseButNoAnswer =
      some [.ofList [(⟨"x", none⟩, .constant "Plato")]] := by cbv
  have stored : sages.clauses.toList.map Clause.literals =
      [[.positive (.predicate "Wise" [.constant "Plato"])]] := by cbv
  obtain ⟨answer, last, asked, bindings⟩ := exists_of_bindingsOf plato
  obtain ⟨proof, member, isPlato⟩ := List.mem_map.1 (bindings ▸ List.mem_singleton_self _)
  refine ⟨reachable_sages, procedure_sages, ?_, answer, last, proof, asked, member,
    fun entails => ?_⟩
  · rw [nextAnswerPredicate_sages]
    decide
  · let everything : Interpretation Unit := ⟨fun _ => (), fun _ _ => (), fun _ _ => True, Eq⟩
    have valid := entails Unit everything trivial (fun c inside values => ?_) fun _ => ()
    · exact valid.2 trivial
    · have literals : c.literals ∈ [[Literal.positive (.predicate "Wise" [.constant "Plato"])]] :=
        stored ▸ List.mem_map_of_mem inside
      rw [Clause.holdsIn, List.mem_singleton.1 literals]
      exact ⟨_, List.mem_singleton_self _, trivial⟩

end KnowledgeBase

end ClausalReasoner
