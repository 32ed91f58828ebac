/-
This file says what terms, sentences and clauses mean. An interpretation gives a value to every
constant, a function on values to every function symbol and a relation between values to every
predicate. Equality is interpreted like a predicate, since resolution by itself knows no more about
it; an interpretation in which it is the identity of values is called normal, and that is what
replacing equals by equals relies on. Variables get their values from an assignment. A clause is
valid in an interpretation when it holds under every assignment, which reads its variables
universally.

The one fact that everything else about substitutions rests on is that substituting and then taking
the value is the same as taking the value under an assignment that was changed accordingly.
-/

import ClausalReasoner.Chain

namespace ClausalReasoner

universe u

/-! ### Interpretations and assignments -/

/-- What the symbols mean over a universe of values. A symbol may be applied to any number of
arguments, and its meaning may depend on how many there are. -/
structure Interpretation (Universe : Type u) where
  constant : String → Universe
  function : String → List Universe → Universe
  predicate : String → List Universe → Prop
  equality : Universe → Universe → Prop

/-- An interpretation is normal when only a value and itself are equal. -/
def Interpretation.IsNormal {Universe : Type u} (meaning : Interpretation Universe) : Prop :=
  ∀ left right, meaning.equality left right ↔ left = right

/-- The values of the variables. -/
abbrev Assignment (Universe : Type u) := Variable → Universe

/-- The assignment that gives a variable another value. -/
def Assignment.set {Universe : Type u} (values : Assignment Universe) (v : Variable)
    (value : Universe) : Assignment Universe :=
  fun w => if w = v then value else values w

variable {Universe : Type u}

/-! ### The values of terms -/

namespace Term

mutual

/-- The value of a term. -/
def valueIn (meaning : Interpretation Universe) (values : Assignment Universe) : Term → Universe
  | .constant name => meaning.constant name
  | .var v => values v
  | .app function ts => meaning.function function (valuesIn meaning values ts)

/-- The values of the terms of a list. -/
def valuesIn (meaning : Interpretation Universe) (values : Assignment Universe) :
    List Term → List Universe
  | [] => []
  | t :: ts => valueIn meaning values t :: valuesIn meaning values ts

end

variable (meaning : Interpretation Universe) (values : Assignment Universe)

mutual

/-- Replacing the variables of a term amounts to giving them the values of what replaces them. -/
theorem valueIn_replace (value : Variable → Term) : ∀ t : Term,
    (t.replace value).valueIn meaning values =
      t.valueIn meaning fun v => (value v).valueIn meaning values
  | .constant _ => rfl
  | .var _ => rfl
  | .app function ts => by
    simp only [replace, valueIn, valuesIn_replaceList value ts]

/-- Replacing the variables of the terms of a list amounts to giving them the values of what
replaces them. -/
theorem valuesIn_replaceList (value : Variable → Term) : ∀ ts : List Term,
    valuesIn meaning values (replaceList value ts) =
      valuesIn meaning (fun v => (value v).valueIn meaning values) ts
  | [] => rfl
  | t :: ts => by
    simp only [replaceList, valuesIn, valueIn_replace value t, valuesIn_replaceList value ts]

end

end Term

/-- The assignment under which an expression means what it means after the substitution. -/
def Assignment.through (values : Assignment Universe) (meaning : Interpretation Universe)
    (σ : Substitution) : Assignment Universe :=
  fun v => (σ.value v).valueIn meaning values

theorem Term.valueIn_substitute (meaning : Interpretation Universe) (values : Assignment Universe)
    (σ : Substitution) (t : Term) :
    (t.substitute σ).valueIn meaning values = t.valueIn meaning (values.through meaning σ) :=
  t.valueIn_replace meaning values σ.value

/-! ### The truth of atoms, literals and sentences -/

/-- Whether an atom holds. -/
def Atom.holdsIn (meaning : Interpretation Universe) (values : Assignment Universe) : Atom → Prop
  | .predicate name ts => meaning.predicate name (Term.valuesIn meaning values ts)
  | .equality left right =>
    meaning.equality (left.valueIn meaning values) (right.valueIn meaning values)

theorem Atom.holdsIn_substitute (meaning : Interpretation Universe)
    (values : Assignment Universe) (σ : Substitution) (a : Atom) :
    (a.substitute σ).holdsIn meaning values ↔ a.holdsIn meaning (values.through meaning σ) := by
  cases a with
  | predicate name ts =>
    simp only [substitute, replace, holdsIn, Term.valuesIn_replaceList]
    rfl
  | equality left right =>
    simp only [substitute, replace, holdsIn, Term.valueIn_replace]
    rfl

/-- Whether a literal holds. The mark of a reduced literal makes no difference. -/
def Literal.holdsIn (meaning : Interpretation Universe) (values : Assignment Universe)
    (l : Literal) : Prop :=
  match l.polarity with
  | .positive => l.atom.holdsIn meaning values
  | .negative => ¬ l.atom.holdsIn meaning values

theorem Literal.holdsIn_substitute (meaning : Interpretation Universe)
    (values : Assignment Universe) (σ : Substitution) (l : Literal) :
    (l.substitute σ).holdsIn meaning values ↔ l.holdsIn meaning (values.through meaning σ) := by
  obtain ⟨atom, polarity, reduced⟩ := l
  cases polarity <;> simp [substitute, holdsIn, Atom.holdsIn_substitute]

/-- Whether something holds for all values, or for some values, of the variables in a quantifier
list. Of a variable that is repeated in the list the last value counts. -/
def Quantifier.holdsOver (quantifier : Quantifier) (body : Assignment Universe → Prop) :
    List Variable → Assignment Universe → Prop
  | [], values => body values
  | v :: vs, values =>
    match quantifier with
    | .universal => ∀ value, quantifier.holdsOver body vs (values.set v value)
    | .existential => ∃ value, quantifier.holdsOver body vs (values.set v value)

/-- How a connective joins two truth values. -/
def Connective.joins : Connective → Prop → Prop → Prop
  | .conjunction, left, right => left ∧ right
  | .disjunction, left, right => left ∨ right
  | .implication, left, right => left → right
  | .biconditional, left, right => left ↔ right

/-- Whether a sentence holds. -/
def Sentence.holdsIn (meaning : Interpretation Universe) : Sentence → Assignment Universe → Prop
  | .atom a, values => a.holdsIn meaning values
  | .negation body, values => ¬ body.holdsIn meaning values
  | .connected connective left right, values =>
    connective.joins (left.holdsIn meaning values) (right.holdsIn meaning values)
  | .quantified quantifier bound body, values =>
    quantifier.holdsOver (body.holdsIn meaning) bound values

/-- A sentence is valid in an interpretation when it holds under every assignment, which reads its
free variables universally. -/
def Sentence.ValidIn (meaning : Interpretation Universe) (s : Sentence) : Prop :=
  ∀ values, s.holdsIn meaning values

/-! ### The truth of clauses -/

namespace Clause

/-- A clause holds when one of its literals does. -/
def holdsIn (meaning : Interpretation Universe) (values : Assignment Universe) (c : Clause) :
    Prop :=
  ∃ l ∈ c.literals, l.holdsIn meaning values

/-- A clause is valid in an interpretation when it holds under every assignment. -/
def ValidIn (meaning : Interpretation Universe) (c : Clause) : Prop :=
  ∀ values, c.holdsIn meaning values

/-- The clause of some literals holds when one of them does, however often they are repeated. -/
theorem holdsIn_ofLiterals (meaning : Interpretation Universe) (values : Assignment Universe)
    (ls : List Literal) (origin : Option StepNumber) :
    (ofLiterals ls origin).holdsIn meaning values ↔ ∃ l ∈ ls, l.holdsIn meaning values := by
  simp only [holdsIn, literals_ofLiterals, mem_firstOccurrences]

end Clause

/-- Clauses entail a sentence when it is valid wherever all of them are, among the interpretations
that are admitted. -/
def Entails (admitted : ∀ {Universe : Type u}, Interpretation Universe → Prop)
    (cs : List Clause) (s : Sentence) : Prop :=
  ∀ (Universe : Type u) (meaning : Interpretation Universe), admitted meaning →
    (∀ c ∈ cs, c.ValidIn meaning) → s.ValidIn meaning

end ClausalReasoner
