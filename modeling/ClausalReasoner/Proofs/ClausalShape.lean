/-
This file shows that moving disjunctions below conjunctions by calls comes to an end, and in which
shape. The disjunctions that are called for again consist of parts that were distributed already, so
they are no parts of the given sentence. But there is nothing left to do inside their two sides, and
with each further call one conjunction fewer stands on top of them; what is called for again is
joined as `joinConjunctions` joins it. The sides are never higher than the parts that they came from
have connectives, which bounds how deep the calls nest by the size of the given sentence.

Of a sentence in negation normal form without quantifiers the result is a conjunction of
disjunctions of literals. Only of that shape does it make no difference that whatever stands below
the conjunctions is read as a disjunction when the clauses are collected.
-/

import ClausalReasoner.ClausalForm.Reapplied
import ClausalReasoner.Proofs.Distribution

namespace ClausalReasoner

universe u

namespace Sentence

/-! ### Joining parts of conjunctions -/

@[simp]
theorem conjunction?_and (left right : Sentence) :
    (Sentence.and left right).conjunction? = some (left, right) := rfl

theorem conjunction?_eq_none {s : Sentence} (other : ∀ left right, s ≠ .and left right) :
    s.conjunction? = none := by
  unfold conjunction?
  split
  · exact absurd rfl (other _ _)
  · rfl

/-- To be joined with conjunctions makes a sentence higher by their heights at most. -/
theorem height_joinLeft_le (disjunct s : Sentence) :
    (joinLeft disjunct s).height ≤ disjunct.height + s.height + 1 := by
  fun_induction joinLeft disjunct s with
  | case1 left right leftHypothesis rightHypothesis =>
    simp only [height]
    omega
  | case2 s _ =>
    simp only [height]
    omega

theorem height_joinConjunctions_le (s other : Sentence) :
    (joinConjunctions s other).height ≤ s.height + other.height + 1 := by
  fun_induction joinConjunctions s other with
  | case1 left right other leftHypothesis rightHypothesis =>
    simp only [height]
    omega
  | case2 s other _ => exact height_joinLeft_le s other

theorem height_le_size (s : Sentence) : s.height ≤ s.size := by
  induction s <;> simp only [height, size] <;> omega

/-- What comes out is no higher than the sentence is large. -/
theorem height_distribute_le (s : Sentence) : s.distribute.height ≤ s.size := by
  induction s with
  | atom a => exact Nat.le_refl _
  | negation body => exact height_le_size _
  | connected connective left right leftHypothesis rightHypothesis =>
    cases connective with
    | disjunction =>
      have joined := height_joinConjunctions_le left.distribute right.distribute
      simp only [distribute, size]
      omega
    | _ =>
      simp only [distribute, height, size]
      omega
  | quantified quantifier bound body inductionHypothesis =>
    simp only [distribute, height, size]
    omega

/-! ### Sentences that are distributed already -/

/-- No disjunction has a conjunction for one of its sides, except below a negation. -/
inductive IsDistributed : Sentence → Prop
  | atom (a : Atom) : IsDistributed (.atom a)
  | negation (body : Sentence) : IsDistributed (.negation body)
  | disjunction {left right : Sentence} : IsDistributed left → IsDistributed right →
      left.conjunction? = none → right.conjunction? = none → IsDistributed (.or left right)
  | connected {connective : Connective} {left right : Sentence} : connective ≠ .disjunction →
      IsDistributed left → IsDistributed right → IsDistributed (.connected connective left right)
  | quantified (quantifier : Quantifier) (bound : List Variable) {body : Sentence} :
      IsDistributed body → IsDistributed (.quantified quantifier bound body)

/-- The two parts of a distributed conjunction are distributed. -/
theorem IsDistributed.parts {left right : Sentence} (distributed : (left.and right).IsDistributed) :
    left.IsDistributed ∧ right.IsDistributed := by
  cases distributed with
  | connected _ first second => exact ⟨first, second⟩

theorem IsDistributed.joinLeft {disjunct s : Sentence} (first : disjunct.IsDistributed)
    (single : disjunct.conjunction? = none) (second : s.IsDistributed) :
    (joinLeft disjunct s).IsDistributed := by
  fun_induction Sentence.joinLeft disjunct s with
  | case1 left right leftHypothesis rightHypothesis =>
    obtain ⟨one, other⟩ := second.parts
    exact .connected (by decide) (leftHypothesis one) (rightHypothesis other)
  | case2 s noConjunction =>
    exact .disjunction first second single (conjunction?_eq_none noConjunction)

theorem IsDistributed.joinConjunctions {s other : Sentence} (first : s.IsDistributed)
    (second : other.IsDistributed) : (joinConjunctions s other).IsDistributed := by
  fun_induction Sentence.joinConjunctions s other with
  | case1 left right other leftHypothesis rightHypothesis =>
    obtain ⟨one, two⟩ := first.parts
    exact .connected (by decide) (leftHypothesis one second) (rightHypothesis two second)
  | case2 s other noConjunction =>
    exact first.joinLeft (conjunction?_eq_none noConjunction) second

theorem isDistributed_distribute (s : Sentence) : s.distribute.IsDistributed := by
  induction s with
  | atom a => exact .atom a
  | negation body => exact .negation body
  | connected connective left right leftHypothesis rightHypothesis =>
    cases connective with
    | disjunction => exact leftHypothesis.joinConjunctions rightHypothesis
    | _ => exact .connected (by decide) leftHypothesis rightHypothesis
  | quantified quantifier bound body inductionHypothesis =>
    exact .quantified quantifier bound inductionHypothesis

/-! ### The calls come to an end -/

/-- A call for a sentence that is distributed already goes through it once. -/
theorem IsDistributed.distributeAgain_eq {s : Sentence} (distributed : s.IsDistributed)
    {depth : Nat} (deep : s.height < depth) : s.distributeAgain depth = some s := by
  induction distributed generalizing depth with
  | atom a => cases depth <;> simp [height, distributeAgain] at deep ⊢
  | negation body => cases depth <;> simp [distributeAgain] at deep ⊢
  | @disjunction left right _ _ firstSingle secondSingle leftHypothesis rightHypothesis =>
    rw [height] at deep
    obtain ⟨rest, rfl⟩ := Nat.exists_eq_add_one_of_ne_zero (Nat.ne_zero_of_lt deep)
    have first := leftHypothesis (show left.height < rest by omega)
    have second := rightHypothesis (show right.height < rest by omega)
    simp [distributeAgain, first, second, firstSingle, secondSingle]
  | @connected connective left right other _ _ leftHypothesis rightHypothesis =>
    rw [height] at deep
    obtain ⟨rest, rfl⟩ := Nat.exists_eq_add_one_of_ne_zero (Nat.ne_zero_of_lt deep)
    have first := leftHypothesis (show left.height < rest by omega)
    have second := rightHypothesis (show right.height < rest by omega)
    cases connective with
    | disjunction => exact absurd rfl other
    | _ => simp [distributeAgain, first, second]
  | @quantified quantifier bound body _ inductionHypothesis =>
    rw [height] at deep
    obtain ⟨rest, rfl⟩ := Nat.exists_eq_add_one_of_ne_zero (Nat.ne_zero_of_lt deep)
    simp [distributeAgain, inductionHypothesis (show body.height < rest by omega)]

/-- A call for a disjunction of a single sentence with a distributed one joins the two. With every
further call one conjunction fewer stands on the right. -/
theorem IsDistributed.distributeAgain_joinLeft {disjunct s : Sentence}
    (first : disjunct.IsDistributed) (single : disjunct.conjunction? = none)
    (second : s.IsDistributed) {depth : Nat} (deep : disjunct.height + s.height + 1 < depth) :
    (disjunct.or s).distributeAgain depth = some (Sentence.joinLeft disjunct s) := by
  fun_induction Sentence.joinLeft disjunct s generalizing depth with
  | case1 one other oneHypothesis otherHypothesis =>
    obtain ⟨rest, rfl⟩ := Nat.exists_eq_add_one_of_ne_zero (Nat.ne_zero_of_lt deep)
    have left := first.distributeAgain_eq (show disjunct.height < rest by omega)
    have right := second.distributeAgain_eq
      (show (Sentence.connected .conjunction one other).height < rest by omega)
    rw [height] at deep
    simp [distributeAgain, left, right, single,
      oneHypothesis second.parts.1 (show disjunct.height + one.height + 1 < rest by omega),
      otherHypothesis second.parts.2 (show disjunct.height + other.height + 1 < rest by omega)]
  | case2 s noConjunction =>
    obtain ⟨rest, rfl⟩ := Nat.exists_eq_add_one_of_ne_zero (Nat.ne_zero_of_lt deep)
    have left := first.distributeAgain_eq (show disjunct.height < rest by omega)
    have right := second.distributeAgain_eq (show s.height < rest by omega)
    simp [distributeAgain, left, right, single, conjunction?_eq_none noConjunction]

/-- A call for a disjunction of distributed sentences joins the two. With every further call one
conjunction fewer stands on the left, until there is none. -/
theorem IsDistributed.distributeAgain_joinConjunctions {s other : Sentence}
    (first : s.IsDistributed) (second : other.IsDistributed) {depth : Nat}
    (deep : s.height + other.height + 1 < depth) :
    (s.or other).distributeAgain depth = some (Sentence.joinConjunctions s other) := by
  fun_induction Sentence.joinConjunctions s other generalizing depth with
  | case1 one two other oneHypothesis twoHypothesis =>
    obtain ⟨rest, rfl⟩ := Nat.exists_eq_add_one_of_ne_zero (Nat.ne_zero_of_lt deep)
    have left := first.distributeAgain_eq
      (show (Sentence.connected .conjunction one two).height < rest by omega)
    have right := second.distributeAgain_eq (show other.height < rest by omega)
    rw [height] at deep
    simp [distributeAgain, left, right,
      oneHypothesis first.parts.1 second (show one.height + other.height + 1 < rest by omega),
      twoHypothesis first.parts.2 second (show two.height + other.height + 1 < rest by omega)]
  | case2 s other noConjunction =>
    exact first.distributeAgain_joinLeft (conjunction?_eq_none noConjunction) second deep

/-- **Distribution comes to an end.** When the calls may nest deeper than the sentence has
connectives and quantifiers, they give what `distribute` gives. -/
theorem distributeAgain_eq (s : Sentence) {depth : Nat} (deep : s.size < depth) :
    s.distributeAgain depth = some s.distribute := by
  induction s generalizing depth with
  | atom a => cases depth <;> simp [distributeAgain, distribute] at deep ⊢
  | negation body => cases depth <;> simp [distributeAgain, distribute] at deep ⊢
  | connected connective left right leftHypothesis rightHypothesis =>
    rw [size] at deep
    obtain ⟨rest, rfl⟩ := Nat.exists_eq_add_one_of_ne_zero (Nat.ne_zero_of_lt deep)
    have first := leftHypothesis (show left.size < rest by omega)
    have second := rightHypothesis (show right.size < rest by omega)
    cases connective with
    | disjunction =>
      have leftHeight := height_distribute_le left
      have rightHeight := height_distribute_le right
      have leftDone := (isDistributed_distribute left).distributeAgain_eq
        (show left.distribute.height < rest by omega)
      have rightDone := (isDistributed_distribute right).distributeAgain_eq
        (show right.distribute.height < rest by omega)
      -- the two sides may as well have been distributed before the call
      calc (left.or right).distributeAgain (rest + 1)
          = (left.distribute.or right.distribute).distributeAgain (rest + 1) := by
            simp only [distributeAgain, first, second, leftDone, rightDone]
        _ = some (left.or right).distribute :=
            (isDistributed_distribute left).distributeAgain_joinConjunctions
              (isDistributed_distribute right) (by omega)
    | _ => simp [distributeAgain, distribute, first, second]
  | quantified quantifier bound body inductionHypothesis =>
    rw [size] at deep
    obtain ⟨rest, rfl⟩ := Nat.exists_eq_add_one_of_ne_zero (Nat.ne_zero_of_lt deep)
    simp [distributeAgain, distribute, inductionHypothesis (show body.size < rest by omega)]

/-! ### The shape of the result -/

/-- **Distribution ends in clausal shape.** For every sentence the calls that move its disjunctions
below its conjunctions come to an end, at a depth that grows with the size of the sentence only, and
their result is `distribute`. Of a sentence in negation normal form without quantifiers that is a
conjunction of disjunctions of literals which says what the sentence says, and so do, together, the
clauses that are read off it. -/
theorem distribute_isClausal (s : Sentence) :
    (∀ depth > s.size, s.distributeAgain depth = some s.distribute) ∧
    (s.IsNegationNormal → s.isQuantifierFree → s.distribute.IsConjunctive ∧
      ∀ {Universe : Type u} (meaning : Interpretation Universe) (values : Assignment Universe),
        (s.distribute.holdsIn meaning values ↔ s.holdsIn meaning values) ∧
        ((∀ c ∈ s.distribute.clauses, c.holdsIn meaning values) ↔ s.holdsIn meaning values)) := by
  refine ⟨fun depth => s.distributeAgain_eq, fun normal plain => ?_⟩
  have conjunctive := normal.distribute plain
  refine ⟨conjunctive, fun meaning values => ?_⟩
  have same : s.distribute.holdsIn meaning values ↔ s.holdsIn meaning values :=
    s.holdsIn_distribute
  exact ⟨same, conjunctive.holdsIn_clauses.trans same⟩

/-- `(Wise ∧ Rich) ∨ (Good ∧ ¬Poor)`. -/
def wiseAndRich : Sentence :=
  .or (.and (.atom (.predicate "Wise" [])) (.atom (.predicate "Rich" [])))
    (.and (.atom (.predicate "Good" [])) (.negation (.atom (.predicate "Poor" []))))

/-- The two conjunctions come to four disjunctions, by calls that nest five times. -/
theorem distribute_isClausal_wiseAndRich :
    wiseAndRich.IsNegationNormal ∧ wiseAndRich.isQuantifierFree ∧
      wiseAndRich.distributeAgain 5 = some wiseAndRich.distribute ∧
      wiseAndRich.distribute.IsConjunctive ∧ wiseAndRich.distribute.conjuncts.length = 4 ∧
      ∀ (meaning : Interpretation Nat) (values : Assignment Nat),
        (∀ c ∈ wiseAndRich.distribute.clauses, c.holdsIn meaning values) ↔
          wiseAndRich.holdsIn meaning values := by
  have normal : wiseAndRich.IsNegationNormal :=
    .disjunction (.conjunction (.atom _) (.atom _)) (.conjunction (.atom _) (.negation _))
  obtain ⟨ends, shape⟩ := wiseAndRich.distribute_isClausal
  obtain ⟨conjunctive, same⟩ := shape normal rfl
  exact ⟨normal, rfl, ends 5 (by decide), conjunctive, rfl, fun meaning values =>
    (same meaning values).2⟩

end Sentence

end ClausalReasoner
