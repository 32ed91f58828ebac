/-
This file says that replacing equals by equals is sound, for every pair of clauses and every list of
demodulators. A paramodulant is valid in every normal interpretation in which the two clauses are
valid, whatever variables these have in common. Demodulation does more: in a normal interpretation
in which the demodulators are valid, the clause that comes out holds under exactly the assignments
under which the given one holds. A demodulator is valid under every assignment, so its instance
under the matching substitution has two sides of one value, also where the clause knows its
variables by the same names and where a variable of the left side is bound by no match and joins
those of the clause.
-/

import Mathlib
import ClausalReasoner.Proofs.GivenClauseInvariant

namespace ClausalReasoner

universe u

variable {Universe : Type u} {meaning : Interpretation Universe}

/-! ### One equation and many -/

/-- A clause that is demodulated once holds under the same assignments as before. -/
theorem holdsIn_demodulateClause (normal : meaning.IsNormal) {equation : Atom}
    (valid : ∀ values, equation.holdsIn meaning values) {session recorded : Session}
    {c changed : Clause} (found : session.demodulateClause equation c = some (changed, recorded))
    (values : Assignment Universe) :
    changed.holdsIn meaning values ↔ c.holdsIn meaning values := by
  have listed : ∀ other ∈ equationsAmong [equation], ∀ values, other.holdsIn meaning values := by
    intro other member
    rw [List.mem_singleton.1 (List.mem_of_mem_filter member)]
    exact valid
  have truth := demodulationInvariant_truth normal listed values (c.holdsIn meaning values)
  exact truth.demodulateClause (List.mem_singleton_self equation) Iff.rfl found

/-- So does a clause that is demodulated with the equations of a list as often as they apply. -/
theorem holdsIn_simplify (normal : meaning.IsNormal) {equations : List Atom}
    (valid : ∀ equation ∈ equationsAmong equations, ∀ values, equation.holdsIn meaning values)
    (session : Session) (c : Clause) (values : Assignment Universe) :
    (session.simplify equations c).1.holdsIn meaning values ↔ c.holdsIn meaning values :=
  (demodulationInvariant_truth normal valid values (c.holdsIn meaning values)).simplify session
    Iff.rfl

/-- Paramodulants are valid wherever the two clauses are. -/
theorem validIn_of_mem_paramodulants (normal : meaning.IsNormal) {session : Session}
    {first second c : Clause} (validFirst : first.ValidIn meaning)
    (validSecond : second.ValidIn meaning) (member : c ∈ (session.paramodulants first second).1) :
    c.ValidIn meaning := by
  have none : ∀ equation ∈ equationsAmong [], ∀ values, equation.holdsIn meaning values :=
    fun _ absent => absurd absent List.not_mem_nil
  have invariant := equalityInvariant_allValid normal none
  exact invariant.paramodulants validFirst validSecond session c member

/-! ### Soundness -/

/-- **Replacing equals by equals is sound.** In a normal interpretation, what paramodulation makes
of two valid clauses is valid, whether or not they share variables and also when they are one
clause; and what demodulation makes of a clause, with one equation that is valid there or with the
equations of a list until they do not apply any more, holds under exactly the assignments under
which the clause holds. -/
theorem Interpretation.IsNormal.replacements_sound (normal : meaning.IsNormal) (session : Session) :
    (∀ first second : Clause, first.ValidIn meaning → second.ValidIn meaning →
      ∀ c ∈ (session.paramodulants first second).1, c.ValidIn meaning) ∧
    (∀ (equation : Atom) (c changed : Clause) (recorded : Session),
      (∀ values, equation.holdsIn meaning values) →
        session.demodulateClause equation c = some (changed, recorded) →
          ∀ values, changed.holdsIn meaning values ↔ c.holdsIn meaning values) ∧
    ∀ (equations : List Atom) (c : Clause),
      (∀ equation ∈ equationsAmong equations, ∀ values, equation.holdsIn meaning values) →
        ∀ values, (session.simplify equations c).1.holdsIn meaning values ↔
          c.holdsIn meaning values :=
  ⟨fun _ _ validFirst validSecond _ member =>
      validIn_of_mem_paramodulants normal validFirst validSecond member,
    fun _ _ _ _ valid found => holdsIn_demodulateClause normal valid found,
    fun _ c valid => holdsIn_simplify normal valid session c⟩

/-- Two values; every function comes to its first argument, and `P` is true of equal values. -/
def firstArguments : Interpretation Bool where
  constant _ := true
  function _ arguments := arguments.headD true
  predicate _ arguments := ∃ value, arguments = [value, value]
  equality := Eq

/-- `G(x, z) = F(x)`, whose left side has a variable that the right side lacks. -/
def wrapping : Atom :=
  .equality (.app "G" [.var ⟨"x", none⟩, .var ⟨"z", none⟩]) (.app "F" [.var ⟨"x", none⟩])

/-- `P(F(F(x)), x)`, which knows the variable `x` as well. -/
def twiceWrapped : Clause :=
  .ofLiterals [.positive
    (.predicate "P" [.app "F" [.app "F" [.var ⟨"x", none⟩]], .var ⟨"x", none⟩])]

/-- Both applications of `F` are replaced, from the outside in, and `z` is left behind as a variable
of the clause. -/
theorem replacements_sound_twiceWrapped :
    ((Session.simplify {} [wrapping] twiceWrapped).1.literals =
      [.positive (.predicate "P" [.app "G" [.app "G" [.var ⟨"x", none⟩, .var ⟨"z", none⟩],
        .var ⟨"z", none⟩], .var ⟨"x", none⟩])]) ∧
    (∀ values, (Session.simplify {} [wrapping] twiceWrapped).1.holdsIn firstArguments values ↔
      twiceWrapped.holdsIn firstArguments values) ∧
    ((Session.paramodulants {} twiceWrapped (.ofLiterals [.positive wrapping])).1.length = 1) ∧
    ∀ c ∈ (Session.paramodulants {} twiceWrapped (.ofLiterals [.positive wrapping])).1,
      c.ValidIn firstArguments := by
  have normal : firstArguments.IsNormal := fun _ _ => Iff.rfl
  have valid : ∀ values, wrapping.holdsIn firstArguments values := fun _ => rfl
  obtain ⟨paramodulants, _, simplified⟩ := normal.replacements_sound {}
  refine ⟨by cbv, simplified [wrapping] twiceWrapped fun equation member => ?_, by cbv,
    paramodulants _ _ (fun values => ?_) fun values => ?_⟩
  · rw [List.mem_singleton.1 (List.mem_of_mem_filter member)]
    exact valid
  · exact ⟨_, List.mem_singleton_self _, values ⟨"x", none⟩, rfl⟩
  · exact ⟨_, List.mem_singleton_self _, valid values⟩

end ClausalReasoner
