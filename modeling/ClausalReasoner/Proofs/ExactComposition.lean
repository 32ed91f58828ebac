/-
This file says when composing two substitutions is exact. The later one is applied to the range of
the first one and its bindings for other variables are added, which gives every variable what the two
give it in turn. What spoils this is the cascading that follows. It has nothing to do if both
substitutions are solved and the range of the later one holds no variable that the first one binds,
even where the two bind the same variables and where the later one binds what stands in the range of
the first one.

Backward chaining only composes such pairs. The substitution found so far is solved, the goal has been
put through it, and the variables of the clause are fresh, so the unifier of the head of the clause
with the goal speaks of no variable that is bound already. Hence the composed substitution is solved
in turn, whatever the length of the derivation.
-/

import ClausalReasoner.Proofs.BackwardCompleteness
import ClausalReasoner.Proofs.RetrievalTermination
import ClausalReasoner.Proofs.UnificationTermination

namespace ClausalReasoner

namespace Substitution

variable {first later : Substitution}

/-! ### Composing two solved substitutions -/

/-- Two substitutions that go together without a further round: both are solved, and the range of the
later one, which binds no variable twice, holds no variable that the first one binds. -/
structure Composable (first later : Substitution) : Prop where
  solvedFirst : first.IsSolved
  solvedLater : later.IsSolved
  functional : later.IsFunctional
  free : first.RangeFree later

/-- What one application of a substitution does is what two substitutions do in turn. -/
structure AppliesInTurn (first later composed : Substitution) : Prop where
  terms : ∀ t : Term, t.substitute composed = (t.substitute first).substitute later
  atoms : ∀ a : Atom, a.substitute composed = (a.substitute first).substitute later

/-- Substitutions that give every variable its values in turn are applied in turn. -/
theorem AppliesInTurn.of_value {composed : Substitution}
    (values : ∀ v, composed.value v = (first.value v).substitute later) :
    AppliesInTurn first later composed where
  terms t :=
    calc t.replace composed.value
        = t.replace fun v => (first.value v).substitute later :=
          Term.replace_congr fun v _ => values v
      _ = (t.replace first.value).replace later.value :=
          (Term.replace_replace first.value later.value t).symm
  atoms a :=
    calc a.replace composed.value
        = a.replace fun v => (first.value v).substitute later :=
          Atom.replace_congr fun v _ => values v
      _ = (a.replace first.value).replace later.value :=
          (Atom.replace_replace first.value later.value a).symm

namespace Composable

variable (composable : first.Composable later)

include composable

theorem isSolved_joinedWith : (first.joinedWith later).IsSolved :=
  composable.solvedFirst.joinedWith composable.solvedLater composable.functional composable.free

/-- There is nothing to cascade. -/
theorem compose_eq : first.compose later = first.joinedWith later :=
  cascadeWithin_of_fixed composable.isSolved_joinedWith.cascadeRound_eq

theorem isSolved_compose : (first.compose later).IsSolved :=
  composable.compose_eq ▸ composable.isSolved_joinedWith

/-- Without a bound on the rounds cascading ends too, after the one that changes nothing. -/
theorem cascadeToRest_joinedWith (rounds : Nat) :
    (first.joinedWith later).cascadeToRest (rounds + 1) = some (first.compose later) := by
  exact composable.isSolved_joinedWith.cascadeToRest_succ rounds

theorem appliesInTurn : AppliesInTurn first later (first.compose later) := by
  rw [composable.compose_eq]
  exact .of_value fun v => value_joinedWith composable.functional v

end Composable

end Substitution

namespace BackwardChaining

open Substitution

variable {definites : List Clause} {depth first next middle : Nat} {goal head : Literal}
  {goals rest : List Literal} {θ unifier : Substitution} {session last : Session}
  {own : List Variable} {copy : Clause} {answers : List GoalAnswer}

/-! ### One reduction -/

/-- The unifier that reduces a goal goes together with a solved substitution found so far. -/
theorem Confined.composable (confined : Confined own first next (goal :: rest) θ)
    (older : Variable.AllBelow first own) (solved : θ.IsSolved)
    (fresh : ∀ v ∈ Literal.occurrencesList copy.literals,
      ∃ index, v.index = some index ∧ next ≤ index ∧ index < middle)
    (isHead : head ∈ copy.positives)
    (unifies : head.atom.unify (goal.substitute θ).atom = some unifier) :
    θ.Composable unifier := by
  obtain ⟨solvedUnifier, speaks⟩ := Atom.isSolved_of_unify unifies
  refine ⟨solved, solvedUnifier, Atom.isFunctional_of_unify unifies,
    rangeFree_of_mentioned fun v mentioned => ?_⟩
  rcases speaks v mentioned with ofHead | ofGoal
  · -- The index of the variable is handed out after all that was bound so far.
    obtain ⟨index, indexed, above, _⟩ :=
      fresh v (Clause.mem_occurrencesList (List.mem_of_mem_filter isHead) ofHead)
    by_contra bound
    obtain ⟨t, found⟩ := Option.ne_none_iff_exists'.1 bound
    have met : v.InSearch own first next := (confined.bindings _ (mem_of_lookup found)).1
    exact Nat.not_lt.2 above (met.index_lt older confined.le indexed)
  · obtain ⟨w, _, image⟩ := Atom.mem_occurrences_replace.1 ofGoal
    exact solved.unbound image

/-! ### All compositions of a search -/

/-- The pairs that are composed while a list is gone through, until the step gives up. -/
def composedAlong {Input Output : Type}
    (step : Session → Input → Option (List Output × Session))
    (composed : Session → Input → List (Substitution × Substitution)) :
    Session → List Input → List (Substitution × Substitution)
  | _, [] => []
  | session, input :: rest =>
    composed session input ++
      match step session input with
      | none => []
      | some (_, between) => composedAlong step composed between rest

/-- The pairs that are composed while the first goal is reduced by a clause. If its head unifies with
the goal, there are those of the goals that the clause makes of it, too. -/
def composedBy (below : List Literal → Substitution → Session → List (Substitution × Substitution))
    (first : Literal) (rest : List Literal) (θ : Substitution) (session : Session) (rule : Clause) :
    List (Substitution × Substitution) :=
  match (session.rename rule).1.positives with
  | [] => []
  | head :: _ =>
    match head.atom.unify (first.substitute θ).atom with
    | none => []
    | some unifier =>
      (θ, unifier) ::
        below (body (session.rename rule).1 ++ rest) (θ.compose unifier) (session.rename rule).2

/-- The pairs that are composed while goals are proved, those on the ways that run into the bound on
the depth included. -/
def composedWhileProving (definites : List Clause) : (depth : Nat) → List Literal →
    Substitution → Session → List (Substitution × Substitution)
  | 0, _, _, _ => []
  | _ + 1, [], _, _ => []
  | depth + 1, first :: rest, θ, session =>
    composedAlong (reduceBy definites depth first rest θ)
      (composedBy (composedWhileProving definites depth) first rest θ) session definites

section Along

variable {Input Output : Type} {step : Session → Input → Option (List Output × Session)}
  {composed : Session → Input → List (Substitution × Substitution)} {inputs : List Input}

/-- What is composed along a list is composed for an input, in a session after the first one. -/
theorem exists_of_mem_composedAlong
    (grows : ∀ {before input made after}, step before input = some (made, after) →
      before.supply.next ≤ after.supply.next) {pair : Substitution × Substitution}
    (member : pair ∈ composedAlong step composed session inputs) :
    ∃ input before, session.supply.next ≤ before.supply.next ∧ pair ∈ composed before input := by
  induction inputs generalizing session with
  | nil => exact absurd member List.not_mem_nil
  | cons input rest inductionHypothesis =>
    rcases List.mem_append.1 member with here | further
    · exact ⟨input, session, Nat.le_refl _, here⟩
    · split at further
      · exact absurd further List.not_mem_nil
      · next made between stepped =>
        obtain ⟨source, before, later, inside⟩ := inductionHypothesis further
        exact ⟨source, before, Nat.le_trans (grows stepped) later, inside⟩

/-- What is gathered is made by a step, of which all pairs are among those composed on the way. -/
theorem exists_step_of_mem_gather {found : List Output}
    (ran : gather step session inputs = some (found, last)) :
    ∀ output ∈ found, ∃ input before made after, step before input = some (made, after) ∧
      output ∈ made ∧ composed before input ⊆ composedAlong step composed session inputs := by
  induction inputs generalizing session found with
  | nil =>
    obtain ⟨rfl, rfl⟩ := Prod.mk.inj (Option.some.inj ran)
    exact fun _ absent => absurd absent List.not_mem_nil
  | cons input rest inductionHypothesis =>
    rw [gather] at ran
    cases here : step session input with
    | none => simp only [here, reduceCtorEq] at ran
    | some reply =>
      obtain ⟨made, between⟩ := reply
      cases there : gather step between rest with
      | none => simp only [here, there, reduceCtorEq] at ran
      | some reply =>
        simp only [here, there] at ran
        obtain ⟨rfl, rfl⟩ := Prod.mk.inj (Option.some.inj ran)
        intro output member
        simp only [composedAlong, here]
        rcases List.mem_append.1 member with isMade | isOther
        · exact ⟨input, session, made, between, here, isMade, List.subset_append_left _ _⟩
        · obtain ⟨source, before, made, after, stepped, isMade, inside⟩ :=
            inductionHypothesis there output isOther
          exact ⟨source, before, made, after, stepped, isMade,
            List.Subset.trans inside (List.subset_append_right _ _)⟩

end Along

/-- Whatever is composed on the way goes together. -/
theorem composable_of_mem_composed (older : Variable.AllBelow first own)
    (confined : Confined own first session.supply.next goals θ) (solved : θ.IsSolved) :
    ∀ pair ∈ composedWhileProving definites depth goals θ session, pair.1.Composable pair.2 := by
  induction depth generalizing goals θ session with
  | zero => exact fun _ absent => absurd absent List.not_mem_nil
  | succ depth inductionHypothesis =>
    cases goals with
    | nil => exact fun _ absent => absurd absent List.not_mem_nil
    | cons goal rest =>
      intro pair member
      obtain ⟨rule, before, later, inside⟩ :=
        exists_of_mem_composedAlong next_le_of_reduceBy member
      obtain ⟨_, grows, fresh⟩ := rule.copyOf_renamed before.supply
      have widened := confined.mono later
      unfold composedBy at inside
      split at inside
      · exact absurd inside List.not_mem_nil
      · next head others positives =>
        have isHead : head ∈ (before.rename rule).1.positives :=
          positives ▸ List.mem_cons_self
        split at inside
        · exact absurd inside List.not_mem_nil
        · next unifier unifies =>
          have composable := widened.composable older solved fresh isHead unifies
          rcases List.mem_cons.1 inside with rfl | below
          · exact composable
          · exact inductionHypothesis (widened.reduce grows fresh isHead unifies)
              composable.isSolved_compose pair below

/-- What is found is what was bound before or comes of one of the pairs. -/
theorem exists_composed_of_prove
    (ran : prove definites depth goals θ session = some (answers, last)) :
    ∀ answer ∈ answers, answer.bindings = θ ∨
      ∃ pair ∈ composedWhileProving definites depth goals θ session,
        answer.bindings = pair.1.compose pair.2 := by
  induction depth generalizing goals θ session answers last with
  | zero => exact absurd ran nofun
  | succ depth inductionHypothesis =>
    cases goals with
    | nil =>
      obtain ⟨rfl, rfl⟩ := Prod.mk.inj (Option.some.inj ran)
      exact fun answer member => Or.inl (List.mem_singleton.1 member ▸ rfl)
    | cons goal rest =>
      intro answer member
      let compositions := composedBy (composedWhileProving definites depth) goal rest θ
      obtain ⟨rule, before, made, after, reduced, isMade, (inside : compositions before rule ⊆ _)⟩ :=
        exists_step_of_mem_gather ran answer member
      obtain ⟨rfl, _⟩ | ⟨head, unifier, found, final, isFirst, unifies, proved, _, bindings, _⟩ :=
        cases_of_reduceBy reduced
      · exact absurd isMade List.not_mem_nil
      obtain ⟨others, positives⟩ := List.head?_eq_some_iff.1 isFirst
      have pairs : compositions before rule =
          (θ, unifier) :: composedWhileProving definites depth (body (before.rename rule).1 ++ rest)
            (θ.compose unifier) (before.rename rule).2 := by
        simp only [compositions, composedBy, positives, unifies]
      rw [pairs] at inside
      obtain ⟨below, among, same⟩ :=
        List.mem_map.1 (bindings ▸ List.mem_map_of_mem isMade : answer.bindings ∈ _)
      right
      rcases inductionHypothesis proved below among with atOnce | ⟨pair, composed, later⟩
      · exact ⟨_, inside List.mem_cons_self, same.symm.trans atOnce⟩
      · exact ⟨pair, inside (List.mem_cons_of_mem _ composed), same.symm.trans later⟩

end BackwardChaining

namespace KnowledgeBase

/-- The pairs that are composed while a knowledge base answers an atom by chaining backward. -/
def composedWhileAsking (kb : KnowledgeBase) (depth : Nat) (a : Atom) :
    List (Substitution × Substitution) :=
  BackwardChaining.composedWhileProving (kb.atQuery (.atom a)).definites depth
    [.positive (kb.freshAtom a)] ∅ (kb.atQuery (.atom a)).session

/-- Every composition made while an atom is answered is one of substitutions that go together. -/
theorem composable_of_mem_composedWhileAsking (kb : KnowledgeBase) (depth : Nat) (a : Atom) :
    ∀ pair ∈ kb.composedWhileAsking depth a, pair.1.Composable pair.2 :=
  BackwardChaining.composable_of_mem_composed (kb.allBelow_fresh a)
    ⟨Nat.le_refl _, List.forall_mem_singleton.2 fun _ occurs => Or.inl occurs,
      Substitution.builtFrom_empty⟩ Substitution.isSolved_empty

end KnowledgeBase

namespace Substitution

/-! ### Exact compositions -/

/-- **Composition means applying in turn.** Let two substitutions be solved, and let no variable that
the first one binds stand in the range of the later one. Then composing them ends, however many
rounds of cascading are allowed, in a solved substitution, and to apply it once to a term or an atom
is to apply the two in turn. All compositions that backward chaining makes on the way to the answers
of a query are of this kind, whatever the depth at which it gives up, and what it finds is nothing
or one of them. -/
theorem composition_applies_in_turn :
    (∀ first later : Substitution, first.Composable later →
      (∀ rounds, (first.joinedWith later).cascadeToRest (rounds + 1) = some (first.compose later)) ∧
      (first.compose later).IsSolved ∧ AppliesInTurn first later (first.compose later)) ∧
    ∀ (kb : KnowledgeBase) (depth : Nat) (a : Atom),
      (∀ pair ∈ kb.composedWhileAsking depth a, pair.1.Composable pair.2) ∧
      ∀ answers last, BackwardChaining.prove (kb.atQuery (.atom a)).definites depth
          [.positive (kb.freshAtom a)] ∅ (kb.atQuery (.atom a)).session = some (answers, last) →
        ∀ answer ∈ answers, answer.bindings = ∅ ∨
          ∃ pair ∈ kb.composedWhileAsking depth a, answer.bindings = pair.1.compose pair.2 :=
  ⟨fun _ _ composable => ⟨composable.cascadeToRest_joinedWith, composable.isSolved_compose,
      composable.appliesInTurn⟩,
    fun kb depth a => ⟨kb.composable_of_mem_composedWhileAsking depth a,
      fun _ _ ran => BackwardChaining.exists_composed_of_prove ran⟩⟩

/-- `{x=Roof(y)}`. -/
def roofOverWall : Substitution :=
  .ofList [(⟨"x", none⟩, .app "Roof" [.var ⟨"y", none⟩])]

/-- `{x=z, y=Wall(z)}`. -/
def wallOfHouse : Substitution :=
  .ofList [(⟨"x", none⟩, .var ⟨"z", none⟩), (⟨"y", none⟩, .app "Wall" [.var ⟨"z", none⟩])]

theorem composable_roofOverWall : roofOverWall.Composable wallOfHouse where
  solvedFirst := by unfold IsSolved; decide
  solvedLater := by unfold IsSolved; decide
  functional := isFunctional_ofList (by decide)
  free := by unfold RangeFree; decide

/-- Both substitutions bind `x`, and the later one binds the variable in the range of the first one:
`x` becomes `Roof(Wall(z))`. The query of the lyceum makes two compositions. -/
theorem composition_applies_in_turn_roofOverWall :
    (roofOverWall.compose wallOfHouse).IsSolved ∧
      AppliesInTurn roofOverWall wallOfHouse (roofOverWall.compose wallOfHouse) ∧
      (roofOverWall.compose wallOfHouse).value ⟨"x", none⟩ =
        .app "Roof" [.app "Wall" [.var ⟨"z", none⟩]] ∧
      (KnowledgeBase.lyceum.composedWhileAsking 3 KnowledgeBase.someoneGood).length = 2 ∧
      ∀ pair ∈ KnowledgeBase.lyceum.composedWhileAsking 3 KnowledgeBase.someoneGood,
        pair.1.Composable pair.2 := by
  obtain ⟨_, solved, inTurn⟩ := composition_applies_in_turn.1 _ _ composable_roofOverWall
  exact ⟨solved, inTurn, by decide, by cbv,
    (composition_applies_in_turn.2 KnowledgeBase.lyceum 3 KnowledgeBase.someoneGood).1⟩

end Substitution

end ClausalReasoner
