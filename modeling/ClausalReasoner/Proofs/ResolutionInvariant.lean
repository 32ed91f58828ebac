/-
This file carries a property of clauses through factoring and resolution. If the property survives
substitution and passes from two clauses to what is left of them when a pair of literals is
resolved upon, then every clause that the rules produce has it, however the results are renamed,
collected and recorded. Validity in an interpretation is such a property, and so is having no
symbols but known ones.
-/

import ClausalReasoner.Resolution
import ClausalReasoner.Proofs.UnificationCorrect

namespace ClausalReasoner

/-- A property of the literals of clauses that passes to their instances, and so to their factors. -/
structure InstanceInvariant (holds : List Literal → Prop) : Prop where
  instantiate : ∀ ls θ, holds ls → holds (firstOccurrences (Literal.substituteList θ ls))

/-- A property of the literals of clauses that factoring and resolution preserve. -/
structure ResolutionInvariant (holds : List Literal → Prop) : Prop
    extends InstanceInvariant holds where
  resolve : ∀ first second l m θ, holds first → holds second → l ∈ first → m ∈ second →
    l.isPositive → m.isNegative → l.atom.substitute θ = m.atom.substitute θ →
      holds (firstOccurrences (Literal.substituteList θ (first.erase l ++ second.erase m)))

/-- Every clause of a list has a property. -/
def AllHold (holds : List Literal → Prop) (cs : List Clause) : Prop :=
  ∀ c ∈ cs, holds c.literals

namespace AllHold

variable {holds : List Literal → Prop} {cs : List Clause}

theorem nil : AllHold holds [] :=
  fun _ member => absurd member List.not_mem_nil

theorem cons {c : Clause} (first : holds c.literals) (rest : AllHold holds cs) :
    AllHold holds (c :: cs) :=
  List.forall_mem_cons.2 ⟨first, rest⟩

theorem append {others : List Clause} (first : AllHold holds cs) (second : AllHold holds others) :
    AllHold holds (cs ++ others) :=
  List.forall_mem_append.2 ⟨first, second⟩

end AllHold

/-! ### Going through a list with a session -/

/-- What a step makes of every single input holds of all outputs. -/
theorem Session.forall_mem_mapList {Input Output : Type}
    {step : Session → Input → Output × Session} (given : Input → Prop) (made : Output → Prop)
    (each : ∀ session input, given input → made (step session input).1) (session : Session)
    (inputs : List Input) (all : ∀ input ∈ inputs, given input) :
    ∀ output ∈ (session.mapList step inputs).1, made output := by
  induction inputs generalizing session with
  | nil => exact fun _ member => absurd member List.not_mem_nil
  | cons input rest inductionHypothesis =>
    obtain ⟨first, later⟩ := List.forall_mem_cons.1 all
    exact List.forall_mem_cons.2 ⟨each session input first, inductionHypothesis _ later⟩

/-- An invariant of a fold that every element preserves. -/
theorem foldl_invariant {State Element : Type} {step : State → Element → State}
    (keeps : State → Prop) {list : List Element}
    (each : ∀ state, ∀ element ∈ list, keeps state → keeps (step state element)) {state : State}
    (start : keeps state) : keeps (list.foldl step state) := by
  induction list generalizing state with
  | nil => exact start
  | cons element rest inductionHypothesis =>
    exact inductionHypothesis
      (fun state later member => each state later (List.mem_cons_of_mem _ member))
      (each state element List.mem_cons_self start)

namespace InstanceInvariant

variable {holds : List Literal → Prop}

/-! ### Renaming -/

theorem renamed (invariant : InstanceInvariant holds) {c : Clause} (given : holds c.literals)
    (supply : Supply) : holds (c.renamed supply).1.literals := by
  rw [Clause.renamed]
  split
  · exact given
  · exact invariant.instantiate _ _ given

theorem rename (invariant : InstanceInvariant holds) {c : Clause} (given : holds c.literals)
    (session : Session) : holds (session.rename c).1.literals :=
  invariant.renamed given session.supply

theorem standardizeApart (invariant : InstanceInvariant holds) {c : Clause}
    (given : holds c.literals) (session : Session) :
    holds (session.standardizeApart c).1.literals := by
  rw [Session.standardizeApart]
  split
  · exact given
  · exact invariant.rename given session

theorem apartFrom (invariant : InstanceInvariant holds) {second : Clause}
    (given : holds second.literals) (session : Session) (first : Clause) :
    holds (session.apartFrom first second).1.literals := by
  rw [Session.apartFrom]
  split
  · exact invariant.rename given session
  · exact given

/-! ### Collecting results -/

theorem add {collection : Collection} (all : AllHold holds collection.found) {c : Clause}
    (given : holds c.literals) (rule : Rule) (θ : Substitution) (sources : List StepNumber) :
    AllHold holds (collection.add rule c θ sources).found := by
  rw [Collection.add]
  split
  · exact all
  · exact all.cons given

theorem addUnified (invariant : InstanceInvariant holds) {collection : Collection}
    (all : AllHold holds collection.found) {ls : List Literal} {θ : Substitution}
    (given : holds (firstOccurrences (Literal.substituteList θ ls))) (rule : Rule)
    (sources : List StepNumber) :
    AllHold holds (collection.addUnified rule ls θ sources).found := by
  rw [Collection.addUnified]
  have made : holds (Clause.ofLiterals (Literal.substituteList θ ls)).literals := given
  let supplied := (collection.session.rename (Clause.ofLiterals (Literal.substituteList θ ls))).2
  have before : AllHold holds (⟨supplied, collection.seen, collection.found⟩ : Collection).found :=
    all
  exact add before (invariant.rename made collection.session) rule θ sources

/-! ### Factoring -/

theorem addFactor (invariant : InstanceInvariant holds) {c : Clause} (given : holds c.literals)
    {collection : Collection} (all : AllHold holds collection.found) (pair : Literal × Literal) :
    AllHold holds (addFactor c collection pair).found := by
  rw [ClausalReasoner.addFactor]
  split
  · exact all
  · exact invariant.addUnified all (invariant.instantiate _ _ given) _ _

theorem collectFactors (invariant : InstanceInvariant holds) (depth : Nat) {c : Clause}
    (given : holds c.literals) {collection : Collection}
    (all : AllHold holds collection.found) :
    AllHold holds (collectFactors depth c collection).found := by
  induction depth generalizing c collection with
  | zero => exact all
  | succ depth inductionHypothesis =>
    rw [ClausalReasoner.collectFactors]
    have direct : AllHold holds (c.factorPairs.foldl (ClausalReasoner.addFactor c)
        ⟨collection.session, collection.seen, []⟩).found :=
      foldl_invariant (fun collection : Collection => AllHold holds collection.found)
        (fun collection pair _ found => invariant.addFactor given found pair) AllHold.nil
    refine foldl_invariant (fun collection : Collection => AllHold holds collection.found)
      (fun collection factor member found => ?_) (direct.append all)
    exact inductionHypothesis (direct factor member) found

theorem factors (invariant : InstanceInvariant holds) {c : Clause} (given : holds c.literals)
    (session : Session) : AllHold holds (session.factors c).1 := by
  intro factor member
  have start : AllHold holds (⟨session, [c.key], [c]⟩ : Collection).found := AllHold.nil.cons given
  exact invariant.collectFactors (c.size + c.vars.length + 1) given start factor
    (List.mem_reverse.1 member)

theorem factorsApart (invariant : InstanceInvariant holds) {cs : List Clause}
    (all : AllHold holds cs) (session : Session) :
    AllHold holds (session.factorsApart cs).1 := by
  intro factor member
  obtain ⟨group, inside, there⟩ := List.mem_flatten.1 member
  refine Session.forall_mem_mapList (fun c : Clause => holds c.literals)
    (AllHold holds) (fun session c given => ?_) session cs all group inside factor there
  exact invariant.factors (invariant.standardizeApart given session) _

end InstanceInvariant

/-! ### Binary resolution -/

namespace ResolutionInvariant

variable {holds : List Literal → Prop}

/-- What is left of a pair of literals of two clauses under a unifier has the property. -/
theorem remaining (invariant : ResolutionInvariant holds) {first second : Clause}
    (givenFirst : holds first.literals) (givenSecond : holds second.literals)
    {pair : ResolutionPair} (tried : pair ∈ resolutionPairs first second) {θ : Substitution}
    (unified : pair.positive.atom.unify pair.negative.atom = some θ) :
    holds (firstOccurrences (Literal.substituteList θ pair.remaining)) := by
  have ofSides : ∀ {first second : Clause}, holds first.literals → holds second.literals →
      pair ∈ pairsFrom first second →
        holds (firstOccurrences (Literal.substituteList θ pair.remaining)) := by
    intro first second positiveSide negativeSide inside
    obtain ⟨l, positive, others⟩ := List.mem_flatMap.1 inside
    obtain ⟨m, negative, rfl⟩ := List.mem_map.1 others
    obtain ⟨memberPositive, isPositive⟩ := List.mem_filter.1 positive
    obtain ⟨memberNegative, isNegative⟩ := List.mem_filter.1 negative
    exact invariant.resolve _ _ _ _ θ positiveSide negativeSide memberPositive memberNegative
      isPositive isNegative (Atom.substitute_eq_of_unify unified)
  rcases List.mem_append.1 tried with here | there
  · exact ofSides givenFirst givenSecond here
  · exact ofSides givenSecond givenFirst there

theorem addResolvent (invariant : ResolutionInvariant holds) {collection : Collection}
    (all : AllHold holds collection.found) {pair : ResolutionPair}
    (given : ∀ θ, pair.positive.atom.unify pair.negative.atom = some θ →
      holds (firstOccurrences (Literal.substituteList θ pair.remaining))) :
    AllHold holds (addResolvent collection pair).found := by
  rw [ClausalReasoner.addResolvent]
  split
  · exact all
  · next θ unified => exact invariant.addUnified all (given θ unified) _ _

/-- Only two empty clauses have nothing to resolve upon and yet a resolvent. -/
theorem empty_of_isEmpty {first second : Clause} (givenFirst : holds first.literals)
    (bothEmpty : (first.isEmpty && second.isEmpty) = true) :
    AllHold holds [Clause.empty] := by
  have none : first.literals = [] := List.isEmpty_iff.1 ((Bool.and_eq_true _ _).mp bothEmpty).1
  refine AllHold.nil.cons ?_
  rw [Clause.empty, Clause.literals_ofLiterals, firstOccurrences, ← none]
  exact givenFirst

theorem resolvents (invariant : ResolutionInvariant holds) {first second : Clause}
    (givenFirst : holds first.literals) (givenSecond : holds second.literals)
    (session : Session) : AllHold holds (session.resolvents first second).1 := by
  rw [Session.resolvents]
  split
  · next bothEmpty => exact empty_of_isEmpty givenFirst bothEmpty
  · have apart := invariant.apartFrom givenSecond session first
    intro c member
    exact foldl_invariant (fun collection : Collection => AllHold holds collection.found)
      (fun collection pair inside all => invariant.addResolvent all fun _ unified =>
        invariant.remaining givenFirst apart inside unified)
      AllHold.nil c (List.mem_reverse.1 member)

end ResolutionInvariant

end ClausalReasoner
