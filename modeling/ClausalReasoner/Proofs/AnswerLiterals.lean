/-
This file says where the answer literal stands when a refutation begins. It is joined to the negated
query as a disjunct, and it comes through all stations of the clausal form: every clause of the goal
still has it, over the variables that the clause was given. If the query does not mention the answer
predicate, it is the only literal of the clause that does.
-/

import ClausalReasoner.Proofs.ClausesApart
import ClausalReasoner.Proofs.Refutations

namespace ClausalReasoner

/-- A replacement brings in no predicate and loses none. -/
theorem Atom.predicate_mem_symbols_replace {a : Atom} {value : Variable → Term} {name : String} :
    Symbol.predicate name ∈ (a.replace value).symbols ↔ Symbol.predicate name ∈ a.symbols := by
  refine Atom.mem_symbols_replace.trans (or_iff_left ?_)
  rintro ⟨v, _, inside⟩
  exact Term.not_predicate_of_mem_symbols inside name rfl

namespace Sentence

/-! ### An atom that is joined to a sentence -/

/-- An atom that is joined to a conjunction of disjunctions stands at the end of every conjunct. -/
theorem conjuncts_joinConjunctions_atom (s : Sentence) (a : Atom) :
    (joinConjunctions s (.atom a)).conjuncts = s.conjuncts.map (· ++ [.positive a]) := by
  induction s with
  | connected connective left right leftHypothesis rightHypothesis =>
    cases connective with
    | conjunction =>
      rw [joinConjunctions, conjuncts, conjuncts, leftHypothesis, rightHypothesis,
        List.map_append]
    | _ => rfl
  | _ => rfl

/-- Removing the quantifiers brings in no predicate and loses none. -/
theorem predicate_mem_symbols_skolemize {s : Sentence} {scope : List Variable}
    {value : Variable → Term} {voc : Vocabulary} {name : String} :
    Symbol.predicate name ∈ (s.skolemize scope value voc).1.symbols ↔
      Symbol.predicate name ∈ s.symbols := by
  induction s generalizing scope value voc with
  | atom a => exact Atom.predicate_mem_symbols_replace
  | negation body inductionHypothesis => exact inductionHypothesis
  | connected connective left right leftHypothesis rightHypothesis =>
    rw [skolemize, symbols, symbols, List.mem_append, List.mem_append, leftHypothesis,
      rightHypothesis]
  | quantified quantifier bound body inductionHypothesis =>
    cases quantifier <;> exact inductionHypothesis

/-- Clauses have no predicates but those of the sentence that they are formed from. -/
theorem predicate_mem_symbols_of_mem_clausalForm {s : Sentence} {voc : Vocabulary} {c : Clause}
    (member : c ∈ (s.clausalForm voc).1) {l : Literal} (inside : l ∈ c.literals) {name : String}
    (occurs : Symbol.predicate name ∈ l.symbols) : Symbol.predicate name ∈ s.symbols := by
  have inMatrix := mem_symbols_of_mem_clauses member _ (Clause.mem_symbols.2 ⟨l, inside, occurs⟩)
  exact mem_symbols_prepared.1
    (predicate_mem_symbols_skolemize.1 (mem_symbols_distribute.1 inMatrix))

/-- A clause of a sentence or an atom has the literals of a clause of the sentence, which mention no
predicates but those of the sentence, and the atom. -/
theorem exists_front_of_mem_clausalForm {s : Sentence} {a : Atom} {voc : Vocabulary} {c : Clause}
    (member : c ∈ ((Sentence.or s (.atom a)).clausalForm voc).1) :
    ∃ front : List Literal, (∀ l, l ∈ c.literals ↔ l ∈ front ∨ l = .positive a) ∧
      ∀ l ∈ front, ∀ name, Symbol.predicate name ∈ l.symbols →
        Symbol.predicate name ∈ s.symbols := by
  have inMatrix : c ∈ (joinConjunctions
      ((s.preparedBeside a).skolemize [] .var voc).1.distribute (.atom a)).clauses := by
    have formed : c ∈ ((Sentence.or s (.atom a)).matrix voc).distribute.clauses := member
    rw [matrix_or_atom] at formed
    exact formed
  obtain ⟨ls, conjunct, rfl, _⟩ := mem_clauses.1 inMatrix
  rw [conjuncts_joinConjunctions_atom] at conjunct
  obtain ⟨front, there, rfl⟩ := List.mem_map.1 conjunct
  refine ⟨front, fun l => ?_, fun l inside name occurs => ?_⟩
  · rw [Clause.literals_ofLiterals, mem_firstOccurrences, List.mem_append, List.mem_singleton]
  · have distributed := mem_symbols_of_mem_conjuncts there l inside _ occurs
    have prepared := predicate_mem_symbols_skolemize.1 (mem_symbols_distribute.1 distributed)
    exact mem_symbols_withoutImplications.1
      (mem_symbols_settle.1 (mem_symbols_renameBinders.1 prepared))

end Sentence

/-! ### The answer literal in the goals -/

namespace KnowledgeBase

variable {kb : KnowledgeBase} {query : Sentence} {limit : TimeLimit}

/-- A clause of the goal has the answer literal, over the variables that the clause was given, if the
query has variables to answer for. Apart from that it has only literals of the predicates of the
query. -/
theorem exists_answer_of_mem_goals {c : Clause} (member : c ∈ (kb.refute query limit).goals) :
    ∃ forward : Variable → Term,
      (query.vars ≠ [] → .positive ((kb.answerFor query).replace forward) ∈ c.literals) ∧
      ∀ l ∈ c.literals, l ≠ .positive ((kb.answerFor query).replace forward) →
        ∀ name, Symbol.predicate name ∈ l.symbols → Symbol.predicate name ∈ query.symbols := by
  rw [refute_eq] at member
  let formed := ((kb.goalFor query).clausalForm (kb.vocabularyFor query)).1
  obtain ⟨original, inside, forward, back, copied, _⟩ :
      ∃ original ∈ formed, c.CopyOf original :=
    Session.forall_mem_mapList (· ∈ formed) (fun c : Clause => ∃ original ∈ formed,
      c.CopyOf original) (fun session original inside =>
        ⟨original, inside, (original.copyOf_renamed session.supply).1⟩) kb.session formed
      (fun _ inside => inside) c member
  have becomes : ∀ l ∈ c.literals, ∃ source ∈ original.literals, source.replace forward = l :=
    fun l there => List.mem_map.1 (copied ▸ there)
  dsimp only [formed] at inside
  by_cases none : query.vars = []
  · rw [goalFor, if_pos none] at inside
    refine ⟨forward, fun some => absurd none some, fun l there _ name occurs => ?_⟩
    obtain ⟨source, origin, rfl⟩ := becomes l there
    exact Sentence.predicate_mem_symbols_of_mem_clausalForm inside origin
      (Atom.predicate_mem_symbols_replace.1 occurs)
  · rw [goalFor, if_neg none] at inside
    obtain ⟨front, literals, symbols⟩ := Sentence.exists_front_of_mem_clausalForm inside
    refine ⟨forward, fun _ => ?_, fun l there different name occurs => ?_⟩
    · rw [copied]
      exact List.mem_map.2 ⟨_, (literals _).2 (Or.inr rfl), rfl⟩
    · obtain ⟨source, origin, rfl⟩ := becomes l there
      rcases (literals source).1 origin with before | rfl
      · exact symbols source before name (Atom.predicate_mem_symbols_replace.1 occurs)
      · exact absurd rfl different

end KnowledgeBase

end ClausalReasoner
