/-
This file shows that the last two stations on the way to clauses keep what a sentence says. Moving
disjunctions below conjunctions does so for every sentence. Reading off the clauses does so for the
conjunctions of disjunctions of literals that come out of it; the clauses left out are tautologies,
which hold anyway.
-/

import ClausalReasoner.Proofs.NegationNormal

namespace ClausalReasoner

universe u

variable {Universe : Type u} {meaning : Interpretation Universe} {values : Assignment Universe}

namespace Sentence

/-! ### Moving disjunctions below conjunctions -/

theorem holdsIn_joinLeft (disjunct s : Sentence) :
    (joinLeft disjunct s).holdsIn meaning values ↔
      disjunct.holdsIn meaning values ∨ s.holdsIn meaning values := by
  induction s with
  | connected connective left right leftHypothesis rightHypothesis =>
    cases connective with
    | conjunction =>
      rw [joinLeft, holdsIn, Connective.joins, leftHypothesis, rightHypothesis]
      exact or_and_left.symm
    | _ => exact Iff.rfl
  | _ => exact Iff.rfl

theorem holdsIn_joinConjunctions (s other : Sentence) :
    (joinConjunctions s other).holdsIn meaning values ↔
      s.holdsIn meaning values ∨ other.holdsIn meaning values := by
  induction s with
  | connected connective left right leftHypothesis rightHypothesis =>
    cases connective with
    | conjunction =>
      rw [joinConjunctions, holdsIn, Connective.joins, leftHypothesis, rightHypothesis]
      exact and_or_right.symm
    | _ => exact holdsIn_joinLeft _ other
  | _ => exact holdsIn_joinLeft _ other

theorem holdsIn_distribute (s : Sentence) :
    s.distribute.holdsIn meaning values ↔ s.holdsIn meaning values := by
  induction s generalizing values with
  | atom a => exact Iff.rfl
  | negation body => exact Iff.rfl
  | connected connective left right leftHypothesis rightHypothesis =>
    cases connective with
    | disjunction =>
      rw [distribute, holdsIn_joinConjunctions, leftHypothesis, rightHypothesis]
      exact Iff.rfl
    | _ =>
      rw [distribute, holdsIn, holdsIn, propext leftHypothesis, propext rightHypothesis]
      decide
  | quantified quantifier bound body inductionHypothesis =>
    have same : body.distribute.holdsIn meaning = body.holdsIn meaning :=
      funext fun _ => propext inductionHypothesis
    rw [distribute, holdsIn, holdsIn, same]

/-! ### Conjunctions of disjunctions -/

/-- A disjunction of literals. -/
inductive IsDisjunctive : Sentence → Prop
  | atom (a : Atom) : IsDisjunctive (.atom a)
  | negation (a : Atom) : IsDisjunctive (.negation (.atom a))
  | disjunction {left right : Sentence} : IsDisjunctive left → IsDisjunctive right →
      IsDisjunctive (.or left right)

/-- A conjunction of disjunctions of literals. -/
inductive IsConjunctive : Sentence → Prop
  | single {s : Sentence} : IsDisjunctive s → IsConjunctive s
  | conjunction {left right : Sentence} : IsConjunctive left → IsConjunctive right →
      IsConjunctive (.and left right)

theorem IsConjunctive.joinLeft {disjunct s : Sentence} (single : disjunct.IsDisjunctive)
    (conjunctive : s.IsConjunctive) : (joinLeft disjunct s).IsConjunctive := by
  induction conjunctive with
  | single disjunctive =>
    cases disjunctive with
    | atom a => exact .single (.disjunction single (.atom a))
    | negation a => exact .single (.disjunction single (.negation a))
    | disjunction left right => exact .single (.disjunction single (.disjunction left right))
  | conjunction _ _ leftHypothesis rightHypothesis =>
    exact .conjunction leftHypothesis rightHypothesis

theorem IsConjunctive.joinConjunctions {s other : Sentence} (conjunctive : s.IsConjunctive)
    (conjunctiveOther : other.IsConjunctive) : (joinConjunctions s other).IsConjunctive := by
  induction conjunctive with
  | single disjunctive =>
    cases disjunctive with
    | atom a => exact conjunctiveOther.joinLeft (.atom a)
    | negation a => exact conjunctiveOther.joinLeft (.negation a)
    | disjunction left right => exact conjunctiveOther.joinLeft (.disjunction left right)
  | conjunction _ _ leftHypothesis rightHypothesis =>
    exact .conjunction leftHypothesis rightHypothesis

/-- Distribution makes conjunctions of disjunctions of what has no quantifiers. -/
theorem IsNegationNormal.distribute {s : Sentence} (normal : s.IsNegationNormal)
    (plain : s.isQuantifierFree) : s.distribute.IsConjunctive := by
  induction normal with
  | atom a => exact .single (.atom a)
  | negation a => exact .single (.negation a)
  | conjunction _ _ leftHypothesis rightHypothesis =>
    obtain ⟨first, second⟩ := (Bool.and_eq_true _ _).mp plain
    exact .conjunction (leftHypothesis first) (rightHypothesis second)
  | disjunction _ _ leftHypothesis rightHypothesis =>
    obtain ⟨first, second⟩ := (Bool.and_eq_true _ _).mp plain
    exact (leftHypothesis first).joinConjunctions (rightHypothesis second)
  | quantified => exact absurd plain Bool.false_ne_true

/-! ### Reading off the clauses -/

/-- A disjunction has a part. -/
theorem disjuncts_ne_nil (s : Sentence) (polarity : Polarity) :
    s.disjuncts polarity ≠ [] := by
  induction s generalizing polarity with
  | atom a => exact List.cons_ne_nil _ _
  | negation body inductionHypothesis => exact inductionHypothesis polarity.flip
  | connected connective left right leftHypothesis _ =>
    exact List.append_ne_nil_of_left_ne_nil (leftHypothesis polarity) _
  | quantified quantifier bound body inductionHypothesis => exact inductionHypothesis polarity

/-- The parts below the conjunctions are not empty. -/
theorem ne_nil_of_mem_conjuncts {s : Sentence} {ls : List Literal}
    (member : ls ∈ s.conjuncts) : ls ≠ [] := by
  fun_induction conjuncts s with
  | case1 left right leftHypothesis rightHypothesis =>
    exact (List.mem_append.1 member).elim leftHypothesis rightHypothesis
  | case2 s _ =>
    rw [List.mem_singleton.1 member]
    exact s.disjuncts_ne_nil .positive

theorem IsDisjunctive.holdsIn_disjuncts {s : Sentence} (disjunctive : s.IsDisjunctive) :
    (∃ l ∈ s.disjuncts .positive, l.holdsIn meaning values) ↔ s.holdsIn meaning values := by
  induction disjunctive with
  | atom a => simp [disjuncts, Literal.holdsIn, holdsIn]
  | negation a => simp [disjuncts, Polarity.flip, Literal.holdsIn, holdsIn]
  | disjunction _ _ leftHypothesis rightHypothesis =>
    simp only [disjuncts, List.mem_append, or_and_right, exists_or, leftHypothesis,
      rightHypothesis]
    exact Iff.rfl

theorem IsConjunctive.holdsIn_conjuncts {s : Sentence} (conjunctive : s.IsConjunctive) :
    (∀ ls ∈ s.conjuncts, ∃ l ∈ ls, l.holdsIn meaning values) ↔ s.holdsIn meaning values := by
  induction conjunctive with
  | single disjunctive =>
    rw [← disjunctive.holdsIn_disjuncts]
    cases disjunctive <;> simp [conjuncts]
  | conjunction _ _ leftHypothesis rightHypothesis =>
    rw [holdsIn, Connective.joins, ← leftHypothesis, ← rightHypothesis, conjuncts,
      List.forall_mem_append]

end Sentence

/-- A tautology holds under every assignment. -/
theorem Clause.holdsIn_of_isTautology {c : Clause} (tautology : c.isTautology)
    (meaning : Interpretation Universe) (values : Assignment Universe) :
    c.holdsIn meaning values := by
  simp only [isTautology, positives, negatives, List.any_eq_true, List.mem_filter,
    Literal.isPositive, Literal.isNegative, Literal.isNegationOf, Bool.and_eq_true,
    decide_eq_true_iff] at tautology
  obtain ⟨l, ⟨member, positive⟩, k, ⟨memberNegative, negative⟩, _, same⟩ := tautology
  by_cases holds : l.atom.holdsIn meaning values
  · refine ⟨l, member, ?_⟩
    rw [Literal.holdsIn, positive]
    exact holds
  · refine ⟨k, memberNegative, ?_⟩
    rw [Literal.holdsIn, negative, ← same]
    exact holds

namespace Sentence

theorem mem_clauses {s : Sentence} {c : Clause} :
    c ∈ s.clauses ↔ ∃ ls ∈ s.conjuncts, Clause.ofLiterals ls = c ∧ ¬ c.isTautology := by
  rw [clauses, List.mem_filter, List.mem_map, Bool.not_eq_true', Bool.not_eq_true]
  constructor
  · rintro ⟨⟨ls, member, rfl⟩, kept⟩
    exact ⟨ls, member, rfl, kept⟩
  · rintro ⟨ls, member, rfl, kept⟩
    exact ⟨⟨ls, member, rfl⟩, kept⟩

/-- The clauses all hold where the conjunction of disjunctions holds. -/
theorem IsConjunctive.holdsIn_clauses {s : Sentence} (conjunctive : s.IsConjunctive) :
    (∀ c ∈ s.clauses, c.holdsIn meaning values) ↔ s.holdsIn meaning values := by
  rw [← conjunctive.holdsIn_conjuncts]
  constructor
  · intro holds ls member
    rw [← Clause.holdsIn_ofLiterals meaning values ls none]
    by_cases tautology : (Clause.ofLiterals ls).isTautology
    · exact Clause.holdsIn_of_isTautology tautology meaning values
    · exact holds _ (mem_clauses.2 ⟨ls, member, rfl, tautology⟩)
  · intro holds c member
    obtain ⟨ls, there, rfl, _⟩ := mem_clauses.1 member
    exact (Clause.holdsIn_ofLiterals meaning values ls none).2 (holds ls there)

/-! ### The literals and the symbols of the clauses -/

theorem mem_symbols_of_mem_disjuncts {s : Sentence} {polarity : Polarity} {l : Literal}
    (member : l ∈ s.disjuncts polarity) : ∀ symbol ∈ l.symbols, symbol ∈ s.symbols := by
  induction s generalizing polarity with
  | atom a =>
    rw [List.mem_singleton.1 member]
    exact fun _ inside => inside
  | negation body inductionHypothesis => exact inductionHypothesis member
  | connected connective left right leftHypothesis rightHypothesis =>
    intro symbol inside
    rcases List.mem_append.1 member with here | there
    · exact List.mem_append_left _ (leftHypothesis here symbol inside)
    · exact List.mem_append_right _ (rightHypothesis there symbol inside)
  | quantified quantifier bound body inductionHypothesis => exact inductionHypothesis member

theorem mem_symbols_of_mem_conjuncts {s : Sentence} {ls : List Literal}
    (member : ls ∈ s.conjuncts) :
    ∀ l ∈ ls, ∀ symbol ∈ l.symbols, symbol ∈ s.symbols := by
  induction s with
  | connected connective left right leftHypothesis rightHypothesis =>
    cases connective with
    | conjunction =>
      intro l there symbol inside
      rcases List.mem_append.1 member with first | second
      · exact List.mem_append_left _ (leftHypothesis first l there symbol inside)
      · exact List.mem_append_right _ (rightHypothesis second l there symbol inside)
    | _ =>
      rw [List.mem_singleton.1 member]
      exact fun l => mem_symbols_of_mem_disjuncts
  | _ =>
    rw [List.mem_singleton.1 member]
    exact fun l => mem_symbols_of_mem_disjuncts

theorem mem_symbols_joinLeft {disjunct s : Sentence} {symbol : Symbol} :
    symbol ∈ (joinLeft disjunct s).symbols ↔ symbol ∈ disjunct.symbols ∨ symbol ∈ s.symbols := by
  induction s with
  | connected connective left right leftHypothesis rightHypothesis =>
    cases connective with
    | conjunction =>
      rw [joinLeft, symbols, symbols, List.mem_append, List.mem_append, leftHypothesis,
        rightHypothesis]
      exact or_or_distrib_left.symm
    | _ => exact List.mem_append
  | _ => exact List.mem_append

theorem mem_symbols_joinConjunctions {s other : Sentence} {symbol : Symbol} :
    symbol ∈ (joinConjunctions s other).symbols ↔
      symbol ∈ s.symbols ∨ symbol ∈ other.symbols := by
  induction s with
  | connected connective left right leftHypothesis rightHypothesis =>
    cases connective with
    | conjunction =>
      rw [joinConjunctions, symbols, symbols, List.mem_append, List.mem_append, leftHypothesis,
        rightHypothesis]
      exact or_or_distrib_right.symm
    | _ => exact mem_symbols_joinLeft
  | _ => exact mem_symbols_joinLeft

theorem mem_symbols_distribute {s : Sentence} {symbol : Symbol} :
    symbol ∈ s.distribute.symbols ↔ symbol ∈ s.symbols := by
  induction s with
  | atom a => exact Iff.rfl
  | negation body => exact Iff.rfl
  | connected connective left right leftHypothesis rightHypothesis =>
    cases connective with
    | disjunction =>
      rw [distribute, mem_symbols_joinConjunctions, leftHypothesis, rightHypothesis]
      exact List.mem_append.symm
    | _ =>
      rw [distribute, symbols, symbols, List.mem_append, List.mem_append, leftHypothesis,
        rightHypothesis]
      decide
  | quantified quantifier bound body inductionHypothesis => exact inductionHypothesis

/-- The clauses have no symbols but those of the sentence. -/
theorem mem_symbols_of_mem_clauses {s : Sentence} {c : Clause} (member : c ∈ s.clauses) :
    ∀ symbol ∈ c.symbols, symbol ∈ s.symbols := by
  intro symbol inside
  obtain ⟨ls, there, rfl, _⟩ := mem_clauses.1 member
  obtain ⟨l, literal, inside⟩ := Clause.mem_symbols.1 inside
  exact mem_symbols_of_mem_conjuncts there l (mem_firstOccurrences.1 literal) symbol inside

end Sentence

end ClausalReasoner
