/-
This file says what retrieval returns for a conjunction when no cascade is cut short. Where it returns
something, that is what the bounded cascades give, and every solution is found that uses each fact
for one instance of it. One fact can get into the way of itself, because it is not given fresh
variables when it is used a second time: `P(y)` serves `P(A)` and then no longer `P(x)`, except where
`x` is `A`. Where no fact with variables serves two of the literals, retrieval returns, and every
solution is found.
-/

import ClausalReasoner.KnowledgeBase.Unbounded
import ClausalReasoner.Proofs.CascadesAtRest
import ClausalReasoner.Proofs.RetrievalTermination
import ClausalReasoner.Proofs.UnificationTermination

namespace ClausalReasoner

/-! ### Gathering -/

section

variable {Input Output : Type} {attempt : Input → Option (List Output)}

/-- If all attempts give what a function does, then they are gathered to what that function gives. -/
theorem gatherAll_eq {give : Input → List Output} {inputs : List Input}
    (gives : ∀ input ∈ inputs, attempt input = some (give input)) :
    gatherAll attempt inputs = some (inputs.flatMap give) := by
  induction inputs with
  | nil => rfl
  | cons input rest inductionHypothesis =>
    obtain ⟨here, later⟩ := List.forall_mem_cons.1 gives
    rw [gatherAll, here, inductionHypothesis later]
    rfl

theorem exists_of_gatherAll {inputs : List Input} {found : List Output}
    (gathered : gatherAll attempt inputs = some found) :
    ∀ input ∈ inputs, ∃ here, attempt input = some here := by
  induction inputs generalizing found with
  | nil => exact fun _ absent => absurd absent List.not_mem_nil
  | cons input rest inductionHypothesis =>
    obtain ⟨here, attempted, others⟩ := Option.bind_eq_some_iff.1 gathered
    obtain ⟨later, gatheredLater, _⟩ := Option.map_eq_some_iff.1 others
    exact List.forall_mem_cons.2 ⟨⟨here, attempted⟩, inductionHypothesis gatheredLater⟩

/-- What is gathered is what a function gives, if the attempts that give something give that. -/
theorem eq_of_gatherAll {give : Input → List Output} {inputs : List Input} {found : List Output}
    (gives : ∀ input ∈ inputs, ∀ here, attempt input = some here → here = give input)
    (gathered : gatherAll attempt inputs = some found) : found = inputs.flatMap give := by
  induction inputs generalizing found with
  | nil => exact (Option.some.inj gathered).symm
  | cons input rest inductionHypothesis =>
    obtain ⟨givesHere, givesLater⟩ := List.forall_mem_cons.1 gives
    obtain ⟨here, attempted, others⟩ := Option.bind_eq_some_iff.1 gathered
    obtain ⟨later, gatheredLater, rfl⟩ := Option.map_eq_some_iff.1 others
    rw [givesHere here attempted, inductionHypothesis givesLater gatheredLater, List.flatMap_cons]

end

namespace KnowledgeBase

variable {kb : KnowledgeBase} {ls : List Literal} {θ : Substitution} {origins : List StepNumber}
  {value : Variable → Term} {rounds : Nat}

/-! ### Where joining returns -/

/-- A join that returns gives what the join with bounded cascades gives. -/
theorem eq_of_joinFactsToRest {found : List (Substitution × List StepNumber)}
    (returns : kb.joinFactsToRest rounds ls θ origins = some found) :
    found = kb.joinFacts ls θ origins := by
  induction ls generalizing θ origins found with
  | nil => exact (Option.some.inj returns).symm
  | cons l rest inductionHypothesis =>
    refine eq_of_gatherAll (fun (binding, origin) _ here attempted => ?_) returns
    obtain ⟨composed, ended, joined⟩ := Option.bind_eq_some_iff.1 attempted
    obtain rfl : θ.compose binding = composed := Substitution.cascade_eq_of_cascadeToRest ended
    exact inductionHypothesis joined

/-- In a join that returns every cascade comes to rest. -/
theorem comesToRest_of_joinFactsToRest {found : List (Substitution × List StepNumber)}
    (returns : kb.joinFactsToRest rounds ls θ origins = some found) :
    ∀ σ ∈ kb.cascadedWhileJoining ls θ, σ.ComesToRest := by
  induction ls generalizing θ origins found with
  | nil => exact fun σ absent => absurd absent List.not_mem_nil
  | cons l rest inductionHypothesis =>
    intro σ member
    obtain ⟨binding, isFetched, inside⟩ := List.mem_flatMap.1 member
    obtain ⟨⟨_, origin⟩, fetched, rfl⟩ := List.mem_map.1 isFetched
    obtain ⟨here, attempted⟩ := exists_of_gatherAll returns _ fetched
    obtain ⟨composed, ended, joined⟩ := Option.bind_eq_some_iff.1 attempted
    rcases List.mem_cons.1 inside with rfl | later
    · obtain ⟨needed, _, rfl, fixed⟩ := Substitution.exists_iterate_of_cascadeToRest ended
      exact ⟨needed, fixed⟩
    · rw [Substitution.compose, Substitution.cascade_eq_of_cascadeToRest ended] at later
      exact inductionHypothesis joined σ later

/-- A join returns if there are rounds enough for every cascade. -/
theorem joinFactsToRest_eq
    (enough : ∀ σ ∈ kb.cascadedWhileJoining ls θ, σ.cascadeToRest rounds = some σ.cascade) :
    kb.joinFactsToRest rounds ls θ origins = some (kb.joinFacts ls θ origins) := by
  induction ls generalizing θ origins with
  | nil => rfl
  | cons l rest inductionHypothesis =>
    refine gatherAll_eq fun (binding, origin) fetched => ?_
    have inside : ∀ {σ}, σ ∈ θ.joinedWith binding ::
        kb.cascadedWhileJoining rest (θ.compose binding) →
          σ.cascadeToRest rounds = some σ.cascade := fun member =>
      enough _ (List.mem_flatMap.2 ⟨binding, List.mem_map_of_mem fetched, member⟩)
    have ended : θ.composeToRest rounds binding = some (θ.compose binding) :=
      inside List.mem_cons_self
    exact Option.bind_eq_some_iff.2 ⟨_, ended,
      inductionHypothesis fun σ later => inside (List.mem_cons_of_mem _ later)⟩

/-- Retrieval returns exactly if every cascade comes to rest. -/
theorem exists_fetchAllToRest_iff : (∃ rounds found, kb.fetchAllToRest rounds ls = some found) ↔
    ∀ σ ∈ kb.cascadedWhileJoining ls ∅, σ.ComesToRest := by
  constructor
  · rintro ⟨rounds, found, returns⟩
    obtain ⟨joined, returned, _⟩ := Option.map_eq_some_iff.1 returns
    exact comesToRest_of_joinFactsToRest returned
  · intro atRest
    obtain ⟨bound, sizes⟩ : ∃ bound, ∀ σ ∈ kb.cascadedWhileJoining ls ∅, σ.size ≤ bound :=
      ⟨((kb.cascadedWhileJoining ls ∅).map Substitution.size).sum, fun σ member =>
        List.le_sum_of_mem (List.mem_map_of_mem member)⟩
    refine ⟨bound + 1, kb.fetchAll ls, ?_⟩
    rw [fetchAllToRest, joinFactsToRest_eq fun σ member =>
      (atRest σ member).cascadeToRest_eq (Nat.lt_succ_of_le (sizes σ member))]
    rfl

/-! ### Facts that serve one literal -/

/-- A literal meets a stored unit clause that it becomes an instance of. -/
theorem IsApartFrom.meets_of_isSolvedBy (apart : kb.IsApartFrom ls) {l k : Literal}
    (member : l ∈ ls) (stored : kb.StoresUnit k) (solved : l.IsSolvedBy value k) : l.Meets k := by
  obtain ⟨change, common⟩ := solved.common
  obtain ⟨c, inside, literals⟩ := stored
  have separate : ∀ v ∈ Literal.occurrencesList [l], v ∉ Literal.occurrencesList [k] := by
    intro v here
    refine literals ▸ apart c inside v (List.mem_flatMap.2 ⟨l, member, ?_⟩)
    simpa [Literal.occurrencesList] using here
  obtain ⟨joint, onLiteral, onFact⟩ := Literal.exists_joint separate value change
  have equal : l.atom.replace joint = k.atom.replace joint := by
    have first := congrArg Literal.atom (onLiteral l (List.mem_singleton_self l))
    have second := congrArg Literal.atom (onFact k (List.mem_singleton_self k))
    exact first.trans (common.trans second.symm)
  obtain ⟨found, unifier, _⟩ := Atom.exists_unify equal
  exact ⟨solved.polarity, by rw [unifier]; rfl⟩

/-- A solution uses a fact that serves one literal, or has no variables, for one instance. -/
theorem ServesOnce.sameInstance (once : kb.ServesOnce ls) (apart : kb.IsApartFrom ls)
    {l m k : Literal} (here : l ∈ ls) (there : m ∈ ls) (stored : kb.StoresUnit k)
    (solved : l.IsSolvedBy value k) (solvedToo : m.IsSolvedBy value k) :
    l.atom.replace value = m.atom.replace value := by
  by_cases same : l = m
  · rw [same]
  · have symmetric : Std.Symm fun l m : Literal =>
        ∀ k, kb.StoresUnit k → l.Meets k → m.Meets k → k.occurrences = [] :=
      ⟨fun _ _ ground k stored first second => ground k stored second first⟩
    have ground : k.occurrences = [] := once.forall here there same k stored
      (apart.meets_of_isSolvedBy here stored solved)
      (apart.meets_of_isSolvedBy there stored solvedToo)
    have fixed : ∀ change : Variable → Term, k.atom.replace change = k.atom.replace .var :=
      fun change => Atom.replace_congr fun v (occurs : v ∈ k.occurrences) =>
        absurd (ground ▸ occurs) List.not_mem_nil
    obtain ⟨change, common⟩ := solved.common
    obtain ⟨changeToo, commonToo⟩ := solvedToo.common
    rw [common, commonToo, fixed, fixed changeToo]

/-! ### Completeness -/

/-- **Retrieval is complete for facts that are used once.** In a knowledge base in use, for literals
that have no variable of a stored clause: retrieval returns exactly if every cascade comes to rest.
Where it returns, it returns what is found with bounded cascades, and every solution is found that
uses no stored unit clause for two different instances. If no stored unit clause with variables meets
two of the literals, then retrieval returns and every solution is found. -/
theorem Obtainable.fetchAll_complete (obtainable : kb.Obtainable) (apart : kb.IsApartFrom ls) :
    ((∃ rounds found, kb.fetchAllToRest rounds ls = some found) ↔
      ∀ σ ∈ kb.cascadedWhileJoining ls ∅, σ.ComesToRest) ∧
    (∀ rounds found, kb.fetchAllToRest rounds ls = some found → found = kb.fetchAll ls ∧
      ∀ (value : Variable → Term) (fact : Literal → Literal),
        (∀ l ∈ ls, kb.StoresUnit (fact l)) → (∀ l ∈ ls, l.IsSolvedBy value (fact l)) →
        (∀ l ∈ ls, ∀ m ∈ ls, fact l = fact m → l.atom.replace value = m.atom.replace value) →
          IsFoundAmong value ls found) ∧
    (kb.ServesOnce ls → ∀ rounds, kb.fetchAllToRest (rounds + 1) ls = some (kb.fetchAll ls) ∧
      ∀ value : Variable → Term, (∀ l ∈ ls, ∃ k, kb.StoresUnit k ∧ l.IsSolvedBy value k) →
        IsFoundAmong value ls (kb.fetchAll ls)) := by
  have keeps := obtainable.keepsApart
  have filed := obtainable.reachable.filed
  refine ⟨exists_fetchAllToRest_iff, fun rounds found returns => ?_,
    fun serves rounds => ⟨?_, fun value solutions => ?_⟩⟩
  · obtain ⟨joined, returned, rfl⟩ := Option.map_eq_some_iff.1 returns
    rw [eq_of_joinFactsToRest returned]
    exact ⟨rfl, fun value fact stored solved once =>
      keeps.isFoundAmong_fetchAll filed apart stored solved once⟩
  · have solved := keeps.isSolved_of_mem_cascaded obtainable.reachable apart serves
      Substitution.isSolved_empty (fun _ _ _ _ _ _ _ absent => absurd absent List.not_mem_nil)
    rw [fetchAllToRest, joinFactsToRest_eq fun σ member =>
      (solved σ member).cascadeToRest_succ rounds]
    rfl
  · choose! fact stored solved using solutions
    refine keeps.isFoundAmong_fetchAll filed apart stored solved fun l here m there same => ?_
    exact serves.sameInstance apart here there (stored l here) (solved l here)
      (same ▸ solved m there)

/-- `u` is Plato and `w` the lyceum. -/
def platoAndLyceum (v : Variable) : Term :=
  .constant (if v.name = "u" then "Plato" else "Lyceum")

/-- Of the two facts that `Visits(u, w)` meets, the one with a variable serves `Visits(u, Agora)` as
well. That Plato visits the lyceum solves both literals with different facts. -/
theorem fetchAll_complete_visitors :
    visitors.Obtainable ∧ visitors.IsApartFrom [visitsAgora, visitsSomething] ∧
      ∃ found, visitors.fetchAllToRest 1 [visitsAgora, visitsSomething] = some found ∧
        IsFoundAmong platoAndLyceum [visitsAgora, visitsSomething] found := by
  have obtainable : visitors.Obtainable := .tellAll (.initial _) _
  have apart : visitors.IsApartFrom [visitsAgora, visitsSomething] :=
    obtainable.keepsApart.isApartFrom (by decide)
  have literals : visitors.clauses.toList.map Clause.literals =
      [[everyoneVisitsAgora], [platoVisitsLyceum]] := by cbv
  have everyone : visitors.StoresUnit everyoneVisitsAgora :=
    storesUnit_iff.2 (by simp [literals])
  have plato : visitors.StoresUnit platoVisitsLyceum :=
    storesUnit_iff.2 (by simp [literals])
  have agora : visitsAgora.IsSolvedBy platoAndLyceum everyoneVisitsAgora :=
    ⟨rfl, fun _ => .constant "Plato", by decide⟩
  have lyceum : visitsSomething.IsSolvedBy platoAndLyceum platoVisitsLyceum :=
    ⟨rfl, .var, by decide⟩
  obtain ⟨found, returned⟩ : ∃ found,
      visitors.fetchAllToRest 1 [visitsAgora, visitsSomething] = some found :=
    Option.isSome_iff_exists.1 (by cbv)
  let fact : Literal → Literal := fun l =>
    if l = visitsAgora then everyoneVisitsAgora else platoVisitsLyceum
  obtain ⟨_, complete⟩ := (obtainable.fetchAll_complete apart).2.1 1 found returned
  refine ⟨obtainable, apart, found, returned, complete platoAndLyceum fact ?_ ?_ ?_⟩
  · exact List.forall_mem_cons.2 ⟨everyone, List.forall_mem_singleton.2 plato⟩
  · exact List.forall_mem_cons.2 ⟨agora, List.forall_mem_singleton.2 lyceum⟩
  · decide

/-! ### A fact that is used for two instances -/

/-- `P(A)`, `P(x)` and `Q(x)`. -/
def neededTwice : List Literal :=
  [.positive (.predicate "P" [.constant "A"]), .positive (.predicate "P" [.var ⟨"x", none⟩]),
    .positive (.predicate "Q" [.var ⟨"x", none⟩])]

/-- `P(A)`, `P(B)` and `Q(B)` are instances of facts, but retrieval returns nothing for `P(A)`,
`P(x)` and `Q(x)`, since `y` is `A` once `P(y)` has served `P(A)`. -/
theorem not_isFoundAmong_universalFact :
    universalFact.Obtainable ∧ universalFact.IsApartFrom neededTwice ∧
      (∀ l ∈ neededTwice, ∃ k, universalFact.StoresUnit k ∧
        l.IsSolvedBy (fun _ => .constant "B") k) ∧
      universalFact.fetchAllToRest 2 neededTwice = some [] ∧
      ¬ IsFoundAmong (fun _ => .constant "B") neededTwice [] := by
  have obtainable : universalFact.Obtainable := .tellAll (.initial _) _
  have literals : universalFact.clauses.toList.map Clause.literals =
      [[.positive (.predicate "P" [.var ⟨"y", some 0⟩])],
        [.positive (.predicate "Q" [.constant "B"])]] := by cbv
  have nothing : universalFact.fetchAllToRest 2 neededTwice = some [] := by cbv
  have first : universalFact.StoresUnit (.positive (.predicate "P" [.var ⟨"y", some 0⟩])) :=
    storesUnit_iff.2 (by simp [literals])
  have second : universalFact.StoresUnit (.positive (.predicate "Q" [.constant "B"])) :=
    storesUnit_iff.2 (by simp [literals])
  refine ⟨obtainable, obtainable.keepsApart.isApartFrom (by decide), ?_, nothing, ?_⟩
  · simp only [neededTwice, List.forall_mem_cons]
    exact ⟨⟨_, first, rfl, fun _ => .constant "A", rfl⟩,
      ⟨_, first, rfl, fun _ => .constant "B", rfl⟩, ⟨_, second, rfl, .var, rfl⟩,
      List.forall_mem_nil _⟩
  · rintro ⟨σ, member, _⟩
    exact absurd member List.not_mem_nil

end KnowledgeBase

end ClausalReasoner
