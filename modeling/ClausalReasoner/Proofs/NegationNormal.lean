/-
This file shows that writing out implications and moving negations to the atoms keep what a
sentence says: its truth under every assignment, its free variables and its symbols. What comes out
is a sentence in negation normal form, in which a quantifier has the effect that it shows. Before
that a quantifier may stand below a negation or on the left of an implication and have the effect
of its dual; below a biconditional it has both effects.

For Skolem terms it matters that the existential quantifiers, in the sense of their effect, speak
of no variables but those that quantifiers further out have bound. A sentence is anchored when they
do. Closed sentences are anchored, and so are sentences without quantifiers.
-/

import ClausalReasoner.Proofs.FreshNames

namespace ClausalReasoner

universe u

variable {Universe : Type u} {meaning : Interpretation Universe} {values : Assignment Universe}

namespace Sentence

/-! ### Writing out implications -/

theorem holdsIn_withoutImplications (s : Sentence) :
    s.withoutImplications.holdsIn meaning values ↔ s.holdsIn meaning values := by
  induction s generalizing values with
  | atom a => exact Iff.rfl
  | negation body inductionHypothesis => exact not_congr inductionHypothesis
  | connected connective left right leftHypothesis rightHypothesis =>
    cases connective with
    | conjunction => exact and_congr leftHypothesis rightHypothesis
    | disjunction => exact or_congr leftHypothesis rightHypothesis
    | implication =>
      simp only [withoutImplications, holdsIn, Connective.joins, leftHypothesis, rightHypothesis]
      exact imp_iff_not_or.symm
    | biconditional =>
      simp only [withoutImplications, holdsIn, Connective.joins, leftHypothesis, rightHypothesis]
      rw [← imp_iff_not_or, or_comm, ← imp_iff_not_or]
      exact iff_def.symm
  | quantified quantifier bound body inductionHypothesis =>
    have same : body.withoutImplications.holdsIn meaning = body.holdsIn meaning :=
      funext fun _ => propext inductionHypothesis
    rw [withoutImplications, holdsIn, holdsIn, same]

theorem mem_freeVars_withoutImplications {s : Sentence} {v : Variable} :
    v ∈ s.withoutImplications.freeVars ↔ v ∈ s.freeVars := by
  induction s with
  | atom a => exact Iff.rfl
  | negation body inductionHypothesis => exact inductionHypothesis
  | connected connective left right leftHypothesis rightHypothesis =>
    cases connective <;>
      simp only [withoutImplications, freeVars, List.mem_append, leftHypothesis, rightHypothesis]
    tauto
  | quantified quantifier bound body inductionHypothesis =>
    rw [withoutImplications, mem_freeVars_quantified, mem_freeVars_quantified, inductionHypothesis]

theorem mem_symbols_withoutImplications {s : Sentence} {symbol : Symbol} :
    symbol ∈ s.withoutImplications.symbols ↔ symbol ∈ s.symbols := by
  induction s with
  | atom a => exact Iff.rfl
  | negation body inductionHypothesis => exact inductionHypothesis
  | connected connective left right leftHypothesis rightHypothesis =>
    cases connective <;>
      simp only [withoutImplications, symbols, List.mem_append, leftHypothesis, rightHypothesis]
    tauto
  | quantified quantifier bound body inductionHypothesis => exact inductionHypothesis

theorem mem_binders_withoutImplications {s : Sentence} {v : Variable} :
    v ∈ s.withoutImplications.binders ↔ v ∈ s.binders := by
  induction s with
  | atom a => exact Iff.rfl
  | negation body inductionHypothesis => exact inductionHypothesis
  | connected connective left right leftHypothesis rightHypothesis =>
    cases connective <;>
      simp only [withoutImplications, binders, List.mem_append, leftHypothesis, rightHypothesis]
    tauto
  | quantified quantifier bound body inductionHypothesis =>
    rw [withoutImplications, binders, binders, List.mem_append, List.mem_append,
      inductionHypothesis]

/-! ### Negation normal form -/

/-- A sentence is in negation normal form when it is built from literals by conjunction,
disjunction and quantifiers. -/
inductive IsNegationNormal : Sentence → Prop
  | atom (a : Atom) : IsNegationNormal (.atom a)
  | negation (a : Atom) : IsNegationNormal (.negation (.atom a))
  | conjunction {left right : Sentence} : IsNegationNormal left → IsNegationNormal right →
      IsNegationNormal (.and left right)
  | disjunction {left right : Sentence} : IsNegationNormal left → IsNegationNormal right →
      IsNegationNormal (.or left right)
  | quantified (quantifier : Quantifier) (bound : List Variable) {body : Sentence} :
      IsNegationNormal body → IsNegationNormal (.quantified quantifier bound body)

/-! ### Moving negations to the atoms -/

/-- Moving negations inward yields the sentence or its negation, as asked for. -/
theorem holdsIn_settle (s : Sentence) (expanding affirmed : Bool) :
    (s.settle expanding affirmed).holdsIn meaning values ↔
      (s.holdsIn meaning values ↔ affirmed = true) := by
  induction s generalizing expanding affirmed values with
  | atom a => cases affirmed <;> simp [settle, holdsIn]
  | negation body inductionHypothesis =>
    rw [settle, inductionHypothesis, holdsIn]
    cases affirmed <;> simp
  | connected connective left right leftHypothesis rightHypothesis =>
    cases connective with
    | conjunction =>
      cases affirmed <;>
        simp [settle, holdsIn, Connective.joins, leftHypothesis, rightHypothesis, imp_iff_not_or]
    | disjunction =>
      cases affirmed <;>
        simp [settle, holdsIn, Connective.joins, leftHypothesis, rightHypothesis]
    | implication =>
      cases affirmed <;> cases expanding <;>
        simp [settle, holdsIn, Connective.joins, leftHypothesis, rightHypothesis, imp_iff_not_or]
    | biconditional =>
      cases affirmed <;> cases expanding <;>
        simp only [settle, holdsIn, Connective.joins, leftHypothesis, rightHypothesis, iff_true,
          Bool.false_eq_true, iff_false, if_true, if_false] <;> tauto
  | quantified quantifier bound body inductionHypothesis =>
    cases affirmed with
    | false =>
      have negated : (body.settle expanding false).holdsIn meaning =
          fun inside => ¬ body.holdsIn meaning inside :=
        funext fun inside => propext ((inductionHypothesis expanding false).trans (by simp))
      simp only [settle, holdsIn, negated, Bool.false_eq_true, iff_false, if_false]
      exact quantifier.not_holdsOver_iff.symm
    | true =>
      have same : (body.settle expanding true).holdsIn meaning = body.holdsIn meaning :=
        funext fun inside => propext ((inductionHypothesis expanding true).trans (by simp))
      simp only [settle, holdsIn, same, iff_true, if_true]

theorem mem_freeVars_settle {s : Sentence} {expanding affirmed : Bool} {v : Variable} :
    v ∈ (s.settle expanding affirmed).freeVars ↔ v ∈ s.freeVars := by
  induction s generalizing expanding affirmed with
  | atom a => cases affirmed <;> exact Iff.rfl
  | negation body inductionHypothesis => exact inductionHypothesis
  | connected connective left right leftHypothesis rightHypothesis =>
    cases connective <;> cases affirmed <;> cases expanding <;>
      simp only [settle, freeVars, List.mem_append, leftHypothesis, rightHypothesis, Bool.false_eq_true,
        if_true, if_false] <;> tauto
  | quantified quantifier bound body inductionHypothesis =>
    rw [settle, mem_freeVars_quantified, mem_freeVars_quantified, inductionHypothesis]

theorem mem_symbols_settle {s : Sentence} {expanding affirmed : Bool} {symbol : Symbol} :
    symbol ∈ (s.settle expanding affirmed).symbols ↔ symbol ∈ s.symbols := by
  induction s generalizing expanding affirmed with
  | atom a => cases affirmed <;> exact Iff.rfl
  | negation body inductionHypothesis => exact inductionHypothesis
  | connected connective left right leftHypothesis rightHypothesis =>
    cases connective <;> cases affirmed <;> cases expanding <;>
      simp only [settle, symbols, List.mem_append, leftHypothesis, rightHypothesis, Bool.false_eq_true,
        if_true, if_false] <;> tauto
  | quantified quantifier bound body inductionHypothesis => exact inductionHypothesis

theorem mem_binders_settle {s : Sentence} {expanding affirmed : Bool} {v : Variable} :
    v ∈ (s.settle expanding affirmed).binders ↔ v ∈ s.binders := by
  induction s generalizing expanding affirmed with
  | atom a => cases affirmed <;> exact Iff.rfl
  | negation body inductionHypothesis => exact inductionHypothesis
  | connected connective left right leftHypothesis rightHypothesis =>
    cases connective <;> cases affirmed <;> cases expanding <;>
      simp only [settle, binders, List.mem_append, leftHypothesis, rightHypothesis,
        Bool.false_eq_true, if_true, if_false] <;> tauto
  | quantified quantifier bound body inductionHypothesis =>
    rw [settle, binders, binders, List.mem_append, List.mem_append, inductionHypothesis]

/-- Without implications nothing is left to be written out. -/
theorem isNegationNormal_settle (s : Sentence) (expanding affirmed : Bool) :
    (s.withoutImplications.settle expanding affirmed).IsNegationNormal := by
  induction s generalizing expanding affirmed with
  | atom a =>
    cases affirmed with
    | false => exact .negation a
    | true => exact .atom a
  | negation body inductionHypothesis => exact inductionHypothesis expanding (!affirmed)
  | connected connective left right leftHypothesis rightHypothesis =>
    have first := leftHypothesis expanding
    have second := rightHypothesis expanding
    cases affirmed with
    | false =>
      cases connective with
      | conjunction => exact .disjunction (first false) (second false)
      | disjunction => exact .conjunction (first false) (second false)
      | implication => exact .conjunction (first true) (second false)
      | biconditional =>
        exact .disjunction (.conjunction (first true) (second false))
          (.conjunction (first false) (second true))
    | true =>
      cases connective with
      | conjunction => exact .conjunction (first true) (second true)
      | disjunction => exact .disjunction (first true) (second true)
      | implication => exact .disjunction (first false) (second true)
      | biconditional =>
        exact .conjunction (.disjunction (first false) (second true))
          (.disjunction (first true) (second false))
  | quantified quantifier bound body inductionHypothesis =>
    exact .quantified _ bound (inductionHypothesis expanding affirmed)

/-! ### Anchored sentences -/

/-- The quantifiers that have the effect of existential ones speak only of variables that are
anchored: those given, and those that quantifiers further out have bound. The sentence is affirmed
or denied. -/
def Anchored (affirmed : Bool) (anchored : Variable → Prop) : Sentence → Prop
  | .atom _ => True
  | .negation body => body.Anchored (!affirmed) anchored
  | .connected .implication left right =>
    left.Anchored (!affirmed) anchored ∧ right.Anchored affirmed anchored
  | .connected .biconditional left right =>
    (left.Anchored false anchored ∧ left.Anchored true anchored) ∧
      right.Anchored false anchored ∧ right.Anchored true anchored
  | .connected _ left right => left.Anchored affirmed anchored ∧ right.Anchored affirmed anchored
  | .quantified quantifier bound body =>
    ((if affirmed then quantifier else quantifier.dual) = .existential →
        ∀ v ∈ body.freeVars, v ∉ bound → anchored v) ∧
      body.Anchored affirmed fun v => anchored v ∨ v ∈ bound

theorem Anchored.mono {s : Sentence} {affirmed : Bool} {anchored wider : Variable → Prop}
    (narrow : s.Anchored affirmed anchored) (wide : ∀ v, anchored v → wider v) :
    s.Anchored affirmed wider := by
  induction s generalizing affirmed anchored wider with
  | atom a => trivial
  | negation body inductionHypothesis => exact inductionHypothesis narrow wide
  | connected connective left right leftHypothesis rightHypothesis =>
    cases connective with
    | biconditional =>
      exact ⟨⟨leftHypothesis narrow.1.1 wide, leftHypothesis narrow.1.2 wide⟩,
        rightHypothesis narrow.2.1 wide, rightHypothesis narrow.2.2 wide⟩
    | _ => exact ⟨leftHypothesis narrow.1 wide, rightHypothesis narrow.2 wide⟩
  | quantified quantifier bound body inductionHypothesis =>
    refine ⟨fun effect v free absent => wide v (narrow.1 effect v free absent), ?_⟩
    exact inductionHypothesis narrow.2 fun v => Or.imp_left (wide v)

/-- A sentence whose free variables are all anchored is anchored. -/
theorem anchored_of_freeVars {s : Sentence} {affirmed : Bool} {anchored : Variable → Prop}
    (free : ∀ v ∈ s.freeVars, anchored v) : s.Anchored affirmed anchored := by
  induction s generalizing affirmed anchored with
  | atom a => trivial
  | negation body inductionHypothesis => exact inductionHypothesis free
  | connected connective left right leftHypothesis rightHypothesis =>
    have first : ∀ v ∈ left.freeVars, anchored v := fun v here => free v (List.mem_append_left _ here)
    have second : ∀ v ∈ right.freeVars, anchored v :=
      fun v there => free v (List.mem_append_right _ there)
    cases connective with
    | biconditional =>
      exact ⟨⟨leftHypothesis first, leftHypothesis first⟩, rightHypothesis second,
        rightHypothesis second⟩
    | _ => exact ⟨leftHypothesis first, rightHypothesis second⟩
  | quantified quantifier bound body inductionHypothesis =>
    refine ⟨fun _ v here absent => free v (mem_freeVars_quantified.2 ⟨here, absent⟩), ?_⟩
    refine inductionHypothesis fun v here => ?_
    by_cases listed : v ∈ bound
    · exact Or.inr listed
    · exact Or.inl (free v (mem_freeVars_quantified.2 ⟨here, listed⟩))

theorem IsClosed.anchored {s : Sentence} (closed : s.IsClosed) (affirmed : Bool)
    (anchored : Variable → Prop) : s.Anchored affirmed anchored :=
  anchored_of_freeVars fun _ free => absurd (closed ▸ free) List.not_mem_nil

theorem anchored_of_isQuantifierFree {s : Sentence} (plain : s.isQuantifierFree)
    (affirmed : Bool) (anchored : Variable → Prop) : s.Anchored affirmed anchored := by
  induction s generalizing affirmed with
  | atom a => trivial
  | negation body inductionHypothesis => exact inductionHypothesis plain _
  | connected connective left right leftHypothesis rightHypothesis =>
    rw [isQuantifierFree, Bool.and_eq_true] at plain
    have first := leftHypothesis plain.1
    have second := rightHypothesis plain.2
    cases connective with
    | biconditional => exact ⟨⟨first _, first _⟩, second _, second _⟩
    | _ => exact ⟨first _, second _⟩
  | quantified quantifier bound body => exact absurd plain Bool.false_ne_true

/-- The negation normal form of an anchored sentence, affirmed or denied, is anchored. -/
theorem Anchored.settle {s : Sentence} {affirmed : Bool} {anchored : Variable → Prop}
    (given : s.Anchored affirmed anchored) (expanding : Bool) :
    (s.withoutImplications.settle expanding affirmed).Anchored true anchored := by
  induction s generalizing affirmed anchored with
  | atom a => cases affirmed <;> trivial
  | negation body inductionHypothesis => exact inductionHypothesis given
  | connected connective left right leftHypothesis rightHypothesis =>
    cases connective with
    | biconditional =>
      have first := leftHypothesis given.1.1
      have second := leftHypothesis given.1.2
      have third := rightHypothesis given.2.1
      have fourth := rightHypothesis given.2.2
      cases affirmed with
      | false => exact ⟨⟨second, third⟩, first, fourth⟩
      | true => exact ⟨⟨first, fourth⟩, second, third⟩
    | _ => cases affirmed <;> exact ⟨leftHypothesis given.1, rightHypothesis given.2⟩
  | quantified quantifier bound body inductionHypothesis =>
    refine ⟨fun effect v free absent => given.1 effect v ?_ absent, inductionHypothesis given.2⟩
    exact mem_freeVars_withoutImplications.1 (mem_freeVars_settle.1 free)

end Sentence

end ClausalReasoner
