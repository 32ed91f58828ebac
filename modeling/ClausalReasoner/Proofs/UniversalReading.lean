/-
This file is about sentences with free variables. The variables of clauses are read universally, and
so a sentence with free variables should mean its universal closure. It does as long as the free
variables keep out of the way of the quantifiers, and there are two ways in which they may not.

An existential quantifier may speak of a free variable. Skolem terms are made of the universal
variables in scope, and since nothing binds the free variable it is not among them: the Skolem term
stands for one value where the closure allows a value for each of the free variable. And a free
variable may share its name with a bound one. When the quantifiers are dropped the two become one
variable, and a disjunction that spoke of all pairs of values speaks of equal ones only.
-/

import ClausalReasoner.Proofs.ConservativeForm

namespace ClausalReasoner

universe u

variable {Universe : Type u} {meaning : Interpretation Universe}

namespace Sentence

/-! ### Universal closures -/

/-- The sentence with a universal quantifier for its free variables. -/
def universalClosure (s : Sentence) : Sentence :=
  .quantify .universal s.freeVars s

theorem validIn_universalClosure {s : Sentence} :
    s.universalClosure.ValidIn meaning ↔ s.ValidIn meaning := by
  have unfolded : ∀ values, s.universalClosure.holdsIn meaning values ↔
      ∀ inside, Assignment.AgreeOff s.freeVars inside values → s.holdsIn meaning inside :=
    fun values => (holdsIn_quantify _ _ _).trans Quantifier.holdsOver_universal_iff
  constructor
  · exact fun valid values => (unfolded values).1 (valid values) values fun _ _ => rfl
  · exact fun valid values => (unfolded values).2 fun inside _ => valid inside

/-! ### When clauses are read as the universal closure is -/

/-- **The clausal form of a sentence with free variables.** Every interpretation in which the clauses
are valid satisfies the universal closure, provided that the sentence binds none of its free
variables. Every interpretation that satisfies the universal closure satisfies the clauses too once
the symbols invented for them are interpreted, provided that no quantifier with the effect of an
existential one speaks of a free variable. -/
theorem clausalForm_universal (s : Sentence) (voc : Vocabulary)
    (registered : ∀ symbol ∈ s.symbols, voc.knows symbol) (meaning : Interpretation Universe) :
    ((∀ v ∈ s.freeVars, v ∉ s.binders) →
      (∀ c ∈ (s.clausalForm voc).1, c.ValidIn meaning) → s.universalClosure.ValidIn meaning) ∧
    (s.Anchored true (fun _ => False) → s.universalClosure.ValidIn meaning →
      ∃ chosen : Interpretation Universe,
        meaning.Agree (fun symbol => ¬ voc.IsNewIn (s.clausalForm voc).2 symbol) chosen ∧
          ∀ c ∈ (s.clausalForm voc).1, c.ValidIn chosen) := by
  refine ⟨fun unbound valid => ?_, fun anchored valid => ?_⟩
  · exact validIn_universalClosure.2 (validIn_of_clausalForm_of_unbound unbound valid)
  · obtain ⟨chosen, agree, holds⟩ :=
      exists_interpretation_of_clausalForm anchored registered meaning
    exact ⟨chosen, agree, fun c member values =>
      holds values (validIn_universalClosure.1 valid values) c member⟩

/-- `wise(x) → ∀y ∃z below(y, z)`. -/
def wisdomIsEndless : Sentence :=
  .implies (.atom (.predicate "wise" [.var ⟨"x", none⟩]))
    (.quantified .universal [⟨"y", none⟩] (.quantified .existential [⟨"z", none⟩]
      (.atom (.predicate "below" [.var ⟨"y", none⟩, .var ⟨"z", none⟩]))))

/-- The numbers become a model of the clauses, and then they satisfy the universal closure. -/
theorem clausalForm_universal_wisdomIsEndless :
    wisdomIsEndless.freeVars = [⟨"x", none⟩] ∧
      ∃ chosen : Interpretation Nat,
        numbersInOrder.Agree (fun symbol =>
          ¬ (({} : Vocabulary).registerSentence wisdomIsEndless).IsNewIn
            (wisdomIsEndless.clausalForm
              (({} : Vocabulary).registerSentence wisdomIsEndless)).2 symbol) chosen ∧
        (∀ c ∈ (wisdomIsEndless.clausalForm
          (({} : Vocabulary).registerSentence wisdomIsEndless)).1, c.ValidIn chosen) ∧
        wisdomIsEndless.universalClosure.ValidIn chosen := by
  have registered : ∀ symbol ∈ wisdomIsEndless.symbols,
      (({} : Vocabulary).registerSentence wisdomIsEndless).knows symbol := by decide
  have anchored : wisdomIsEndless.Anchored true fun _ => False := by
    refine ⟨trivial, fun effect => absurd effect (by decide), fun _ v free unlisted => ?_, trivial⟩
    have among : v ∈ [(⟨"y", none⟩ : Variable), ⟨"z", none⟩] := free
    rcases List.mem_cons.1 among with isY | isZ
    · exact Or.inr (isY ▸ List.mem_cons_self)
    · exact absurd isZ unlisted
  have satisfied : wisdomIsEndless.universalClosure.ValidIn numbersInOrder := by
    refine validIn_universalClosure.2 fun values _ y => ⟨y + 1, ?_⟩
    simp [holdsIn, Atom.holdsIn, Term.valuesIn, Term.valueIn, Assignment.set, numbersInOrder,
      Quantifier.holdsOver]
  obtain ⟨chosen, agree, valid⟩ :=
    (clausalForm_universal wisdomIsEndless _ registered numbersInOrder).2 anchored satisfied
  exact ⟨rfl, chosen, agree, valid,
    (clausalForm_universal wisdomIsEndless _ registered chosen).1 (by decide) valid⟩

/-- `∃y near(x, y)`. -/
def someoneIsNear : Sentence :=
  .quantified .existential [⟨"y", none⟩]
    (.atom (.predicate "near" [.var ⟨"x", none⟩, .var ⟨"y", none⟩]))

/-- `small(x) ∨ ∀x large(x)`. -/
def smallOrAllLarge : Sentence :=
  .or (.atom (.predicate "small" [.var ⟨"x", none⟩]))
    (.quantified .universal [⟨"x", none⟩] (.atom (.predicate "large" [.var ⟨"x", none⟩])))

/-- Two values, each near to itself only, of which one is small and the other one is large. -/
def twoSizes : Interpretation Bool where
  constant _ := true
  function _ _ := true
  predicate name arguments :=
    if name = "near" then ∃ value, arguments = [value, value]
    else arguments = [decide (name = "small")]
  equality := Eq

/-- Neither condition can be left out. That someone is near to `x` is so for every `x` when everyone
is near to himself only, but the Skolem constant cannot be near to all. And when everyone is small
or large it need not be that one is small or else all are large, which the clause does not tell
apart. -/
theorem not_clausalForm_universal_twoSizes :
    (someoneIsNear.freeVars = [⟨"x", none⟩] ∧
      (∀ symbol ∈ someoneIsNear.symbols,
        (({} : Vocabulary).registerSentence someoneIsNear).knows symbol) ∧
      someoneIsNear.universalClosure.ValidIn twoSizes ∧
      ¬ ∃ chosen : Interpretation Bool,
        twoSizes.Agree (fun symbol => ¬ (({} : Vocabulary).registerSentence someoneIsNear).IsNewIn
          (someoneIsNear.clausalForm (({} : Vocabulary).registerSentence someoneIsNear)).2
          symbol) chosen ∧
        ∀ c ∈ (someoneIsNear.clausalForm
          (({} : Vocabulary).registerSentence someoneIsNear)).1, c.ValidIn chosen) ∧
    smallOrAllLarge.freeVars = [⟨"x", none⟩] ∧
      (∀ symbol ∈ smallOrAllLarge.symbols,
        (({} : Vocabulary).registerSentence smallOrAllLarge).knows symbol) ∧
      (∀ c ∈ (smallOrAllLarge.clausalForm
        (({} : Vocabulary).registerSentence smallOrAllLarge)).1, c.ValidIn twoSizes) ∧
      ¬ smallOrAllLarge.universalClosure.ValidIn twoSizes := by
  refine ⟨⟨rfl, by decide, ?_, ?_⟩, rfl, by decide, ?_, ?_⟩
  · exact validIn_universalClosure.2 fun values => ⟨values ⟨"x", none⟩, values ⟨"x", none⟩, rfl⟩
  · rintro ⟨chosen, agree, valid⟩
    have near : twoSizes.predicate "near" = chosen.predicate "near" :=
      agree.symbols (.predicate "near") fun new => new.2 (by decide)
    have clauses : (someoneIsNear.clausalForm
        (({} : Vocabulary).registerSentence someoneIsNear)).1.map Clause.literals =
          [[.positive (.predicate "near" [.var ⟨"x", none⟩, .constant "SC0"])]] := rfl
    obtain ⟨c, member, literals⟩ := List.mem_map.1 (clauses ▸ List.mem_singleton_self _)
    obtain ⟨l, inside, holds⟩ := valid c member fun _ => !chosen.constant "SC0"
    rw [literals] at inside
    rw [List.mem_singleton.1 inside] at holds
    have other : chosen.predicate "near" [!chosen.constant "SC0", chosen.constant "SC0"] := holds
    rw [← near] at other
    obtain ⟨value, same⟩ := other
    obtain ⟨isOther, rest⟩ := List.cons.inj same
    exact Bool.not_eq_self _ |>.1 (isOther.trans (List.cons.inj rest).1.symm)
  · intro c member values
    have clauses : (smallOrAllLarge.clausalForm
        (({} : Vocabulary).registerSentence smallOrAllLarge)).1.map Clause.literals =
          [[.positive (.predicate "small" [.var ⟨"x", none⟩]),
            .positive (.predicate "large" [.var ⟨"x", none⟩])]] := rfl
    have literals := List.mem_singleton.1 (clauses ▸ List.mem_map_of_mem member)
    rw [Clause.holdsIn, literals]
    cases size : values ⟨"x", none⟩ with
    | true => exact ⟨_, List.mem_cons_self, congrArg (fun b => [b]) size⟩
    | false =>
      exact ⟨_, List.mem_cons_of_mem _ List.mem_cons_self, congrArg (fun b => [b]) size⟩
  · intro valid
    rcases validIn_universalClosure.1 valid fun _ => false with small | large
    · exact absurd (List.cons.inj (show [false] = [true] from small)).1 Bool.false_ne_true
    · exact absurd (List.cons.inj (show [true] = [false] from large true)).1.symm
        Bool.false_ne_true

end Sentence

end ClausalReasoner
