/-
This file says what backward chaining does on the way to an answer, and that its answers are
consequences. A goal is reduced to the body of a copy of a definite clause, whose variables carry
indices that nothing met so far carries; the substitution is composed with the unifier and refined
from then on. So what is found at the end makes the head of every copy that was used equal to the
goal that was reduced by it, and where the definite clauses are valid the goals become valid one
after the other, the last one first.
-/

import ClausalReasoner.Proofs.ForwardSoundness
import ClausalReasoner.Proofs.NegativeVerdict

namespace ClausalReasoner

universe u

/-! ### The variables of a search -/

/-- A variable of a search: one that it began with, or one whose index was handed out since. -/
def Variable.InSearch (own : List Variable) (first next : Nat) (v : Variable) : Prop :=
  v ∈ own ∨ ∃ index, v.index = some index ∧ first ≤ index ∧ index < next

/-- The variables carry no index from a bound on. -/
def Variable.AllBelow (bound : Nat) (vs : List Variable) : Prop :=
  ∀ v ∈ vs, ∀ index, v.index = some index → index < bound

namespace Variable.InSearch

variable {own : List Variable} {first next later : Nat} {v : Variable}

theorem mono (inside : v.InSearch own first next) (le : next ≤ later) :
    v.InSearch own first later := by
  rcases inside with isOwn | ⟨index, indexed, above, below⟩
  · exact Or.inl isOwn
  · exact Or.inr ⟨index, indexed, above, Nat.lt_of_lt_of_le below le⟩

/-- An index that is still to be handed out is carried by no variable of the search. -/
theorem index_lt (older : AllBelow first own) (le : first ≤ next)
    (inside : v.InSearch own first next) {index : Nat} (indexed : v.index = some index) :
    index < next := by
  rcases inside with isOwn | ⟨other, same, _, below⟩
  · exact Nat.lt_of_lt_of_le (older v isOwn index indexed) le
  · obtain rfl := Option.some.inj (indexed.symm.trans same)
    exact below

end Variable.InSearch

/-- A substitution binds given variables only, to terms over such variables. -/
abbrev Substitution.Uses (allowed : Variable → Prop) (σ : Substitution) : Prop :=
  σ.BuiltFrom allowed fun _ => True

/-- The variables of an atom are among the given ones. -/
def Atom.Uses (allowed : Variable → Prop) (a : Atom) : Prop :=
  ∀ v ∈ a.occurrences, allowed v

section Uses

variable {allowed wider : Variable → Prop} {σ : Substitution} {a b : Atom}

theorem Substitution.Uses.mono (uses : σ.Uses allowed) (grown : ∀ v, allowed v → wider v) :
    σ.Uses wider :=
  fun entry member => ⟨grown _ (uses entry member).1,
    fun v occurs => grown v ((uses entry member).2.1 v occurs), fun _ _ => trivial⟩

/-- A substitution leaves the variables alone that are not among the given ones. -/
theorem Substitution.Uses.value_of_not (uses : σ.Uses allowed) {v : Variable}
    (outside : ¬ allowed v) : σ.value v = .var v := by
  cases bound : σ.get? v with
  | none => exact value_of_get?_none bound
  | some t => exact absurd (uses _ (mem_of_lookup bound)).1 outside

theorem Atom.Uses.mono (uses : a.Uses allowed) (grown : ∀ v, allowed v → wider v) :
    a.Uses wider :=
  fun v occurs => grown v (uses v occurs)

theorem Atom.Uses.arguments (uses : a.Uses allowed) :
    ∀ t ∈ a.arguments, t.BuiltFrom allowed fun _ => True :=
  fun t member => ⟨fun v occurs => uses v (Term.mem_occurrencesList.2 ⟨t, member, occurs⟩),
    fun _ _ => trivial⟩

theorem Atom.Uses.substitute (uses : a.Uses allowed) (bindings : σ.Uses allowed) :
    (a.substitute σ).Uses allowed := by
  intro w occurs
  obtain ⟨v, here, there⟩ := Atom.mem_occurrences_replace.1 occurs
  exact (bindings.value (uses v here)).1 w there

theorem Substitution.over_of_unify (left : a.Uses allowed) (right : b.Uses allowed)
    (unifies : a.unify b = some σ) : σ.Uses allowed :=
  Atom.builtFrom_of_unify left.arguments right.arguments unifies

end Uses

namespace BackwardChaining

/-! ### Ways to an answer -/

/-- The goals that a definite clause makes of a goal that its head is unified with. -/
def body (c : Clause) : List Literal :=
  c.negatives.map fun l => .positive l.atom

/-- A way from goals and a substitution to an answer. Every goal is reduced by a copy of a definite
clause whose variables carry indices from the next one on, and the last of the indices that are
handed out on the way lies below a bound. -/
inductive Answered (definites : List Clause) (bound : Nat) :
    Nat → List Literal → Substitution → Substitution → Prop
  | done {next : Nat} {θ : Substitution} (within : next ≤ bound) :
      Answered definites bound next [] θ θ
  | reduced {next middle : Nat} {first head : Literal} {rest : List Literal}
      {θ unifier σ : Substitution} {rule copy : Clause} (member : rule ∈ definites)
      (isCopy : copy.CopyOf rule) (grows : next ≤ middle)
      (fresh : ∀ v ∈ Literal.occurrencesList copy.literals,
        ∃ index, v.index = some index ∧ next ≤ index ∧ index < middle)
      (isHead : head ∈ copy.positives)
      (unifies : head.atom.unify (first.substitute θ).atom = some unifier)
      (remaining : Answered definites bound middle (body copy ++ rest) (θ.compose unifier) σ) :
      Answered definites bound next (first :: rest) θ σ

namespace Answered

variable {definites : List Clause} {bound wider next first : Nat} {goals : List Literal}
  {θ σ : Substitution} {own : List Variable}

theorem widen (answered : Answered definites bound next goals θ σ) (le : bound ≤ wider) :
    Answered definites wider next goals θ σ := by
  induction answered with
  | done within => exact .done (Nat.le_trans within le)
  | reduced member isCopy grows fresh isHead unifies _ inductionHypothesis =>
    exact .reduced member isCopy grows fresh isHead unifies inductionHypothesis

theorem sooner (answered : Answered definites bound next goals θ σ) (le : first ≤ next) :
    Answered definites bound first goals θ σ := by
  cases answered with
  | done within => exact .done (Nat.le_trans le within)
  | reduced member isCopy grows fresh isHead unifies remaining =>
    refine .reduced member isCopy (Nat.le_trans le grows) (fun v occurs => ?_) isHead unifies
      remaining
    obtain ⟨index, indexed, above, below⟩ := fresh v occurs
    exact ⟨index, indexed, Nat.le_trans le above, below⟩

/-- An answer refines the substitution that the search started from. -/
theorem refines (answered : Answered definites bound next goals θ σ) : σ.Refines θ.value := by
  induction answered with
  | done => exact .refl _
  | reduced _ _ _ _ _ unifies _ inductionHypothesis =>
    exact (inductionHypothesis.trans
      (Substitution.refines_compose (Atom.isFunctional_of_unify unifies))).ofSubstitute

end Answered

/-- The goals and the substitution speak of the variables that were met so far. -/
structure Confined (own : List Variable) (first next : Nat) (goals : List Literal)
    (θ : Substitution) : Prop where
  le : first ≤ next
  goals : ∀ goal ∈ goals, goal.atom.Uses (Variable.InSearch own first next)
  bindings : θ.Uses (Variable.InSearch own first next)

namespace Confined

variable {own : List Variable} {first next middle : Nat} {goal head : Literal}
  {rest : List Literal} {θ unifier : Substitution} {copy : Clause}

theorem mono {goals : List Literal} (confined : Confined own first next goals θ)
    (le : next ≤ middle) : Confined own first middle goals θ :=
  ⟨Nat.le_trans confined.le le,
    fun goal member => (confined.goals goal member).mono fun _ inside => inside.mono le,
    confined.bindings.mono fun _ inside => inside.mono le⟩

/-- The literals of a fresh copy speak of variables that have been met afterwards. -/
theorem over_of_fresh (le : first ≤ next) (fresh : ∀ v ∈ Literal.occurrencesList copy.literals,
      ∃ index, v.index = some index ∧ next ≤ index ∧ index < middle) {l : Literal}
    (member : l ∈ copy.literals) : l.atom.Uses (Variable.InSearch own first middle) := by
  intro v occurs
  obtain ⟨index, indexed, above, below⟩ := fresh v (Clause.mem_occurrencesList member occurs)
  exact Or.inr ⟨index, indexed, Nat.le_trans le above, below⟩

/-- Reducing a goal by a fresh copy of a clause keeps the search confined. -/
theorem reduce (confined : Confined own first next (goal :: rest) θ) (grows : next ≤ middle)
    (fresh : ∀ v ∈ Literal.occurrencesList copy.literals,
      ∃ index, v.index = some index ∧ next ≤ index ∧ index < middle)
    (isHead : head ∈ copy.positives)
    (unifies : head.atom.unify (goal.substitute θ).atom = some unifier) :
    Confined own first middle (body copy ++ rest) (θ.compose unifier) := by
  have widened := confined.mono grows
  have ofCopy : ∀ l ∈ copy.literals, l.atom.Uses (Variable.InSearch own first middle) :=
    fun l member => over_of_fresh confined.le fresh member
  have overGoal : (goal.substitute θ).atom.Uses (Variable.InSearch own first middle) :=
    (widened.goals goal List.mem_cons_self).substitute widened.bindings
  refine ⟨widened.le, fun l member => ?_, widened.bindings.compose
    (Substitution.over_of_unify (ofCopy head (List.mem_of_mem_filter isHead)) overGoal unifies)⟩
  rcases List.mem_append.1 member with isBody | inRest
  · obtain ⟨negative, inside, rfl⟩ := List.mem_map.1 isBody
    exact ofCopy negative (List.mem_of_mem_filter inside)
  · exact widened.goals l (List.mem_cons_of_mem _ inRest)

/-- What the search has bound so far leaves a fresh copy alone. -/
theorem substitute_of_fresh (confined : Confined own first next (goal :: rest) θ)
    (older : Variable.AllBelow first own)
    (fresh : ∀ v ∈ Literal.occurrencesList copy.literals,
      ∃ index, v.index = some index ∧ next ≤ index ∧ index < middle) {l : Literal}
    (member : l ∈ copy.literals) : l.atom.substitute θ = l.atom := by
  refine Atom.replace_eq_self fun v occurs => confined.bindings.value_of_not fun inside => ?_
  obtain ⟨index, indexed, above, _⟩ := fresh v (Clause.mem_occurrencesList member occurs)
  exact Nat.not_lt.2 above (inside.index_lt older confined.le indexed)

end Confined

namespace Answered

variable {definites : List Clause} {bound next first : Nat} {goals : List Literal}
  {θ σ : Substitution} {own : List Variable}

/-- An answer speaks of variables of the search. -/
theorem uses (answered : Answered definites bound next goals θ σ)
    (confined : Confined own first next goals θ) : σ.Uses (Variable.InSearch own first bound) := by
  induction answered with
  | done within => exact confined.bindings.mono fun _ inside => inside.mono within
  | reduced _ _ grows fresh isHead unifies _ inductionHypothesis =>
    exact inductionHypothesis (confined.reduce grows fresh isHead unifies)

/-- An answer makes a goal that was reduced equal to the head that it was unified with. -/
theorem substitute_head {head goal : Literal} {unifier : Substitution}
    (refines : σ.Refines (θ.compose unifier).value)
    (unifies : head.atom.unify (goal.substitute θ).atom = some unifier)
    (apart : head.atom.substitute θ = head.atom) :
    goal.atom.substitute σ = head.atom.substitute σ := by
  have composed := refines.trans
    (Substitution.refines_compose (Atom.isFunctional_of_unify unifies))
  obtain ⟨change, changed⟩ := composed
  have instances : ∀ a : Atom,
      a.substitute σ = ((a.substitute θ).substitute unifier).replace change := by
    intro a
    rw [Atom.substitute, Atom.substitute, Atom.substitute, Atom.replace_replace,
      Atom.replace_replace]
    refine Atom.replace_congr fun v _ => (changed v).trans ?_
    exact Term.replace_replace _ _ _
  calc goal.atom.substitute σ
      = ((goal.substitute θ).atom.substitute unifier).replace change := instances goal.atom
    _ = (head.atom.substitute unifier).replace change := by
        rw [Atom.substitute_eq_of_unify unifies]
    _ = head.atom.substitute σ := by rw [instances head.atom, apart]

/-- Where the definite clauses are valid, an answer makes all goals valid. -/
theorem validIn {Universe : Type u} {meaning : Interpretation Universe}
    (definite : ∀ c ∈ definites, c.isDefinite) (valid : ∀ c ∈ definites, c.ValidIn meaning)
    (older : Variable.AllBelow first own) (answered : Answered definites bound next goals θ σ)
    (confined : Confined own first next goals θ) :
    ∀ goal ∈ goals, (Sentence.atom (goal.atom.substitute σ)).ValidIn meaning := by
  induction answered with
  | done => exact fun _ absent => absurd absent List.not_mem_nil
  | @reduced next middle goal head rest θ unifier σ rule copy member isCopy grows fresh isHead
      unifies remaining inductionHypothesis =>
    have validRest := inductionHypothesis (confined.reduce grows fresh isHead unifies)
    refine List.forall_mem_cons.2
      ⟨?_, fun l inRest => validRest l (List.mem_append_right _ inRest)⟩
    have represented : Represented definites copy.literals := ⟨rule, member, isCopy.covers.1⟩
    have validHead := (represented.validIn valid).head (isCopy.isDefinite (definite rule member)) isHead
      fun l isBody => validRest (.positive l.atom)
        (List.mem_append_left _ (List.mem_map_of_mem isBody))
    have apart := confined.substitute_of_fresh older fresh (List.mem_of_mem_filter isHead)
    rw [substitute_head remaining.refines unifies apart]
    exact validHead

end Answered

/-! ### The run -/

section Run

variable {Input Output : Type}

/-- A step is made for an input somewhere between two sessions. -/
def StepsBetween (step : Session → Input → Option (List Output × Session)) (session last : Session)
    (input : Input) (made : List Output) : Prop :=
  ∃ before after, step before input = some (made, after) ∧
    session.supply.next ≤ before.supply.next ∧ after.supply.next ≤ last.supply.next

/-- What is gathered is what the step makes of the inputs, in one session after the other. -/
theorem gather_steps {step : Session → Input → Option (List Output × Session)}
    (grows : ∀ {before input made after}, step before input = some (made, after) →
      before.supply.next ≤ after.supply.next) {inputs : List Input} {session last : Session}
    {found : List Output} (ran : gather step session inputs = some (found, last)) :
    session.supply.next ≤ last.supply.next ∧
      (∀ output ∈ found, ∃ input ∈ inputs, ∃ made, StepsBetween step session last input made ∧
        output ∈ made) ∧
      ∀ input ∈ inputs, ∃ made, StepsBetween step session last input made ∧
        ∀ output ∈ made, output ∈ found := by
  induction inputs generalizing session found with
  | nil =>
    obtain ⟨rfl, rfl⟩ := Prod.mk.inj (Option.some.inj ran)
    exact ⟨Nat.le_refl _, fun _ absent => absurd absent List.not_mem_nil,
      fun _ absent => absurd absent List.not_mem_nil⟩
  | cons input rest inductionHypothesis =>
    rw [gather] at ran
    cases here : step session input with
    | none => rw [here] at ran; exact absurd ran nofun
    | some reply =>
      obtain ⟨made, between⟩ := reply
      cases there : gather step between rest with
      | none => simp only [here, there] at ran; exact absurd ran nofun
      | some reply =>
        obtain ⟨others, final⟩ := reply
        simp only [here, there] at ran
        obtain ⟨rfl, rfl⟩ := Prod.mk.inj (Option.some.inj ran)
        obtain ⟨le, backward, forward⟩ := inductionHypothesis there
        have first := grows here
        have earlier : ∀ {input made}, StepsBetween step between final input made →
            StepsBetween step session final input made := by
          rintro input made ⟨before, after, stepped, lower, upper⟩
          exact ⟨before, after, stepped, Nat.le_trans first lower, upper⟩
        have now : StepsBetween step session final input made :=
          ⟨session, between, here, Nat.le_refl _, le⟩
        refine ⟨Nat.le_trans first le, fun output member => ?_, List.forall_mem_cons.2
          ⟨⟨made, now, fun output member => List.mem_append_left _ member⟩, ?_⟩⟩
        · rcases List.mem_append.1 member with isMade | isOther
          · exact ⟨input, List.mem_cons_self, made, now, isMade⟩
          · obtain ⟨source, inside, made, stepped, isMade⟩ := backward output isOther
            exact ⟨source, List.mem_cons_of_mem _ inside, made, earlier stepped, isMade⟩
        · intro source inside
          obtain ⟨made, stepped, kept⟩ := forward source inside
          exact ⟨made, earlier stepped, fun output isMade =>
            List.mem_append_right _ (kept output isMade)⟩

end Run

/-- Recording how a goal was reduced changes neither the bindings nor the supply, and every answer
has a step then. -/
theorem recordReductions_keeps (goal : Literal) (θ : Substitution) (sources : List StepNumber)
    (session : Session) (below : List GoalAnswer) :
    (recordReductions goal θ sources session below).1.map GoalAnswer.bindings =
        below.map GoalAnswer.bindings ∧
      (recordReductions goal θ sources session below).2.supply = session.supply ∧
      ∀ answer ∈ (recordReductions goal θ sources session below).1, answer.step.isSome := by
  induction below generalizing session with
  | nil => exact ⟨rfl, rfl, fun _ absent => absurd absent List.not_mem_nil⟩
  | cons answer rest inductionHypothesis =>
    obtain ⟨bindings, supply, steps⟩ := inductionHypothesis (session.record
      ⟨.goalReduction, .literal (goal.substitute answer.bindings), .unifier θ,
        sources ++ answer.step.toList⟩).2
    exact ⟨congrArg (answer.bindings :: ·) bindings, supply,
      List.forall_mem_cons.2 ⟨rfl, steps⟩⟩

variable {definites : List Clause} {depth : Nat} {first : Literal} {rest goals : List Literal}
  {θ : Substitution} {session last : Session} {answers : List GoalAnswer}

/-- Reduce the first of the goals by a clause. -/
def reduceBy (definites : List Clause) (depth : Nat) (first : Literal) (rest : List Literal)
    (θ : Substitution) (session : Session) (rule : Clause) :
    Option (List GoalAnswer × Session) :=
  let goal := first.substitute θ
  let (copy, session) := session.rename rule
  match copy.positives with
  | [] => some ([], session)
  | head :: _ =>
    match head.atom.unify goal.atom with
    | none => some ([], session)
    | some unifier =>
      match prove definites depth (body copy ++ rest) (θ.compose unifier) session with
      | none => none
      | some (below, session) => some (recordReductions goal unifier copy.sources session below)

theorem prove_cons : prove definites (depth + 1) (first :: rest) θ session =
    gather (reduceBy definites depth first rest θ) session definites := rfl

/-- What comes of reducing a goal by a clause: nothing, if the goal does not unify with the head of
the fresh copy, and otherwise the answers to the goals that there are then. -/
theorem cases_of_reduceBy {rule : Clause}
    (ran : reduceBy definites depth first rest θ session rule = some (answers, last)) :
    (answers = [] ∧ last = (session.rename rule).2 ∧
      ∀ head, (session.rename rule).1.positives.head? = some head →
        head.atom.unify (first.substitute θ).atom = none) ∨
    ∃ head unifier below final, (session.rename rule).1.positives.head? = some head ∧
      head.atom.unify (first.substitute θ).atom = some unifier ∧
      prove definites depth (body (session.rename rule).1 ++ rest) (θ.compose unifier)
        (session.rename rule).2 = some (below, final) ∧
      last.supply = final.supply ∧
      answers.map GoalAnswer.bindings = below.map GoalAnswer.bindings ∧
      ∀ answer ∈ answers, answer.step.isSome := by
  unfold reduceBy at ran
  cases positives : (session.rename rule).1.positives with
  | nil =>
    simp only [positives] at ran
    obtain ⟨rfl, rfl⟩ := Prod.mk.inj (Option.some.inj ran)
    exact Or.inl ⟨rfl, rfl, fun _ absent => absurd absent nofun⟩
  | cons head others =>
    cases unified : head.atom.unify (first.substitute θ).atom with
    | none =>
      simp only [positives, unified] at ran
      obtain ⟨rfl, rfl⟩ := Prod.mk.inj (Option.some.inj ran)
      exact Or.inl ⟨rfl, rfl, fun other same => Option.some.inj same ▸ unified⟩
    | some unifier =>
      cases proved : prove definites depth (body (session.rename rule).1 ++ rest)
          (θ.compose unifier) (session.rename rule).2 with
      | none =>
        simp only [positives, unified, proved] at ran
        exact absurd ran nofun
      | some reply =>
        obtain ⟨below, final⟩ := reply
        simp only [positives, unified, proved] at ran
        obtain ⟨bindings, supply, steps⟩ := recordReductions_keeps (first.substitute θ) unifier
          (session.rename rule).1.sources final below
        have same := Option.some.inj ran
        obtain rfl : _ = answers := congrArg Prod.fst same
        obtain rfl : _ = last := congrArg Prod.snd same
        exact Or.inr ⟨head, unifier, below, final, rfl, unified, proved, supply, bindings, steps⟩

/-- Every answer of a run has a way that leads to it, and the run hands out the indices that are
used on the way. -/
theorem answered_of_prove (ran : prove definites depth goals θ session = some (answers, last)) :
    session.supply.next ≤ last.supply.next ∧ ∀ answer ∈ answers,
      Answered definites last.supply.next session.supply.next goals θ answer.bindings := by
  induction depth generalizing goals θ session answers last with
  | zero => exact absurd ran nofun
  | succ depth inductionHypothesis =>
    cases goals with
    | nil =>
      obtain ⟨rfl, rfl⟩ := Prod.mk.inj (Option.some.inj ran)
      refine ⟨Nat.le_refl _, fun answer member => ?_⟩
      rw [List.mem_singleton.1 member]
      exact .done (Nat.le_refl _)
    | cons goal rest =>
      rw [prove_cons] at ran
      have reduces : ∀ {before : Session} {rule : Clause} {made : List GoalAnswer} {after : Session},
          reduceBy definites depth goal rest θ before rule = some (made, after) →
            before.supply.next ≤ after.supply.next ∧ (rule ∈ definites → ∀ answer ∈ made,
              Answered definites after.supply.next before.supply.next (goal :: rest) θ
                answer.bindings) := by
        intro before rule made after reduced
        obtain ⟨isCopy, grows, fresh⟩ := rule.copyOf_renamed before.supply
        obtain ⟨rfl, rfl, _⟩ | ⟨head, unifier, below, final, isFirst, unifies, proved, supply,
          bindings, _⟩ := cases_of_reduceBy reduced
        · exact ⟨grows, fun _ _ absent => absurd absent List.not_mem_nil⟩
        · obtain ⟨le, answered⟩ := inductionHypothesis proved
          rw [supply]
          refine ⟨Nat.le_trans grows le, fun member answer isMade => ?_⟩
          have image : answer.bindings ∈ below.map GoalAnswer.bindings :=
            bindings ▸ List.mem_map_of_mem isMade
          obtain ⟨found, inside, same⟩ := List.mem_map.1 image
          exact .reduced member isCopy grows fresh (List.mem_of_mem_head? isFirst) unifies
            (same ▸ answered found inside)
      obtain ⟨le, backward, _⟩ := gather_steps (fun reduced => (reduces reduced).1) ran
      refine ⟨le, fun answer member => ?_⟩
      obtain ⟨rule, among, made, ⟨before, after, reduced, lower, upper⟩, isMade⟩ :=
        backward answer member
      exact (((reduces reduced).2 among answer isMade).widen upper).sooner lower

theorem next_le_of_reduceBy {rule : Clause}
    (ran : reduceBy definites depth first rest θ session rule = some (answers, last)) :
    session.supply.next ≤ last.supply.next := by
  have grows := (rule.copyOf_renamed session.supply).2.1
  obtain ⟨_, rfl, _⟩ | ⟨_, _, _, _, _, _, proved, supply, _⟩ := cases_of_reduceBy ran
  · exact grows
  · exact supply ▸ Nat.le_trans grows (answered_of_prove proved).1

/-- The answers to goals, if there are any goals, have steps. -/
theorem isSome_step_of_prove
    (ran : prove definites depth (first :: rest) θ session = some (answers, last)) :
    ∀ answer ∈ answers, answer.step.isSome := by
  cases depth with
  | zero => exact absurd ran nofun
  | succ depth =>
    rw [prove_cons] at ran
    obtain ⟨_, backward, _⟩ := gather_steps next_le_of_reduceBy ran
    intro answer member
    obtain ⟨rule, _, made, ⟨before, after, reduced, _⟩, isMade⟩ := backward answer member
    obtain ⟨rfl, _⟩ | ⟨_, _, _, _, _, _, _, _, _, steps⟩ := cases_of_reduceBy reduced
    · exact absurd isMade List.not_mem_nil
    · exact steps answer isMade

end BackwardChaining

end ClausalReasoner
