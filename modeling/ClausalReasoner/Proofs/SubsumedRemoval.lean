/-
This file proves that nothing is lost when all subsumed clauses are removed at once. Subsumption is
a strict order: a clause subsumes neither itself nor a copy of itself, since it subsumes only longer
ones, and what turns one clause into part of a second and the second into part of a third turns the
first into part of the third. The clauses along a chain of subsumption get shorter, so every
subsumed clause is subsumed by one that nothing subsumes. That one stays, and the removed clause
follows from it.
-/

import ClausalReasoner.Proofs.SubsumedClauses

namespace ClausalReasoner

universe u

/-! ### Subsumption is a strict order -/

/-- Literals that are turned into others are turned into whatever those are turned into. -/
theorem Literal.EmbedIn.trans {first second : Variable → Term} {ls ms targets : List Literal}
    (here : EmbedIn first ls ms) (there : EmbedIn second ms targets) :
    EmbedIn (fun v => (first v).replace second) ls targets := by
  intro l member
  obtain ⟨m, between, polarity, image⟩ := here l member
  obtain ⟨target, inside, same, imageLater⟩ := there m between
  refine ⟨target, inside, same.trans polarity, ?_⟩
  rw [imageLater, image, Atom.replace_replace]

namespace Clause

variable {c d e : Clause} {cs : List Clause}

theorem Generalizes.trans (first : c.Generalizes d) (second : d.Generalizes e) :
    c.Generalizes e where
  shorter := first.shorter.trans second.shorter
  positives := first.positives.trans second.positives
  negatives := first.negatives.trans second.negatives
  kinds kind := (first.kinds kind).trans (second.kinds kind)
  exists_value := by
    obtain ⟨_, here⟩ := first.exists_value
    obtain ⟨_, there⟩ := second.exists_value
    exact ⟨_, here.trans there⟩

theorem subsumes_trans (first : c.subsumes d) (second : d.subsumes e) : c.subsumes e :=
  subsumes_iff.2 ((subsumes_iff.1 first).trans (subsumes_iff.1 second))

instance : IsStrictOrder Clause fun c d => c.subsumes d where
  irrefl c subsumes := Nat.lt_irrefl c.size (size_lt_of_subsumes subsumes)
  trans _ _ _ := subsumes_trans

/-- A clause that some clause of a list subsumes is subsumed by one that no clause of the list
subsumes. -/
theorem exists_unsubsumed (member : d ∈ cs) (subsumes : d.subsumes c) :
    ∃ survivor ∈ cs, survivor.subsumes c ∧ ∀ e ∈ cs, ¬ e.subsumes survivor := by
  induction length : d.size using Nat.strong_induction_on generalizing d with
  | h bound inductionHypothesis =>
    by_cases above : ∃ e ∈ cs, e.subsumes d
    · obtain ⟨e, inside, first⟩ := above
      have shorter : e.size < bound := length ▸ size_lt_of_subsumes first
      exact inductionHypothesis e.size shorter inside (subsumes_trans first subsumes) rfl
    · exact ⟨d, member, subsumes, fun e inside first => above ⟨e, inside, first⟩⟩

end Clause

/-! ### The clauses that are removed -/

theorem mem_subsumedClauses {c : Clause} {cs : List Clause} :
    c ∈ subsumedClauses cs ↔ c ∈ cs ∧ ∃ d ∈ cs, d.subsumes c := by
  rw [subsumedClauses, List.mem_filter, List.any_eq_true]

/-- Every clause that is removed is subsumed by one that stays. -/
theorem exists_subsumes_not_mem_subsumedClauses {c : Clause} {cs : List Clause}
    (removed : c ∈ subsumedClauses cs) :
    ∃ d ∈ cs, d.subsumes c ∧ d ∉ subsumedClauses cs := by
  obtain ⟨_, d, member, subsumes⟩ := mem_subsumedClauses.1 removed
  obtain ⟨survivor, inside, stays, unsubsumed⟩ := Clause.exists_unsubsumed member subsumes
  refine ⟨survivor, inside, stays, fun listed => ?_⟩
  obtain ⟨_, e, there, subsumesIt⟩ := mem_subsumedClauses.1 listed
  exact unsubsumed e there subsumesIt

/-! ### Consequences -/

/-- Two lists of clauses have the same consequences: they are valid in the same interpretations, and
so they entail the same sentences, whatever interpretations are admitted. -/
structure SameConsequences (cs ds : List Clause) : Prop where
  models : ∀ {Universe : Type u} (meaning : Interpretation Universe),
    (∀ c ∈ cs, c.ValidIn meaning) ↔ ∀ d ∈ ds, d.ValidIn meaning
  sentences : ∀ (admitted : ∀ {Universe : Type u}, Interpretation Universe → Prop) (s : Sentence),
    Entails admitted cs s ↔ Entails admitted ds s

theorem SameConsequences.of_models {cs ds : List Clause}
    (models : ∀ {Universe : Type u} (meaning : Interpretation Universe),
      (∀ c ∈ cs, c.ValidIn meaning) ↔ ∀ d ∈ ds, d.ValidIn meaning) :
    SameConsequences.{u} cs ds where
  models := models
  sentences _ _ := forall_congr' fun _ => forall_congr' fun meaning =>
    forall_congr' fun _ => imp_congr_left (models meaning)

/-- What stays when the subsumed clauses are removed has the same consequences. -/
theorem sameConsequences_of_mem_iff {kept cs : List Clause}
    (stays : ∀ c, c ∈ kept ↔ c ∈ cs ∧ c ∉ subsumedClauses cs) : SameConsequences.{u} kept cs := by
  refine .of_models fun meaning => ⟨fun valid c member => ?_, fun valid c member => ?_⟩
  · by_cases removed : c ∈ subsumedClauses cs
    · obtain ⟨d, inside, subsumes, unsubsumed⟩ := exists_subsumes_not_mem_subsumedClauses removed
      exact (valid d ((stays d).2 ⟨inside, unsubsumed⟩)).of_subsumes subsumes
    · exact valid c ((stays c).2 ⟨member, removed⟩)
  · exact valid c ((stays c).1 member).1

/-! ### Removing from a set -/

/-- The background of model elimination is what the given clause loop leaves of a set. -/
theorem backgroundClauses_toList (set : ClauseSet) :
    ModelElimination.backgroundClauses set.toList = (GivenClause.withoutSubsumed set).toList := by
  rw [GivenClause.withoutSubsumed, ClauseSet.toList_foldl_erase,
    ModelElimination.backgroundClauses]
  refine List.filter_congr fun c _ => ?_
  rw [Bool.eq_iff_iff, Bool.not_eq_true', decide_eq_true_iff, ← Bool.not_eq_true,
    List.contains_iff_mem]

theorem mem_withoutSubsumed_iff {set : ClauseSet} {c : Clause} :
    c ∈ (GivenClause.withoutSubsumed set).toList ↔
      c ∈ set.toList ∧ c ∉ subsumedClauses set.toList := by
  rw [GivenClause.toList_withoutSubsumed, List.mem_filter, mem_subsumedClauses, Bool.not_eq_true',
    ← Bool.not_eq_true, List.any_eq_true]
  exact and_congr_right fun member => not_congr (and_iff_right member).symm

open Classical in
/-- Deleting subsumed clauses loses nothing. Every clause that is found to be subsumed is subsumed
by a clause of the list that is not. So what is left when all of them are removed at once has the
same consequences, and that goes for the sets that the given clause loop starts with and for the
background of model elimination, too. -/
theorem removing_subsumedClauses_loses_nothing (cs : List Clause) (set : ClauseSet) :
    (∀ c ∈ subsumedClauses cs, ∃ d ∈ cs, d.subsumes c ∧ d ∉ subsumedClauses cs) ∧
    SameConsequences.{u} (cs.filter fun c => c ∉ subsumedClauses cs) cs ∧
    SameConsequences.{u} (GivenClause.withoutSubsumed set).toList set.toList ∧
    SameConsequences.{u} (ModelElimination.backgroundClauses set.toList) set.toList := by
  have fromSet : SameConsequences.{u} (GivenClause.withoutSubsumed set).toList set.toList :=
    sameConsequences_of_mem_iff fun c => mem_withoutSubsumed_iff
  refine ⟨fun c removed => exists_subsumes_not_mem_subsumedClauses removed, ?_, fromSet, ?_⟩
  · refine sameConsequences_of_mem_iff fun c => ?_
    rw [List.mem_filter, decide_eq_true_iff]
  · rw [backgroundClauses_toList]
    exact fromSet

namespace Ladder

/-- Something is `P`. -/
def first : Clause :=
  .ofLiterals [.positive (.predicate "P" [.var ⟨"x", none⟩])]

/-- Another variant of the first clause. -/
def variant : Clause :=
  .ofLiterals [.positive (.predicate "P" [.var ⟨"z", none⟩])]

/-- A clause that the first one subsumes. -/
def second : Clause :=
  .ofLiterals [.positive (.predicate "P" [.constant "A"]),
    .positive (.predicate "Q" [.var ⟨"y", none⟩])]

/-- A clause that the first two subsume. -/
def third : Clause :=
  .ofLiterals [.positive (.predicate "P" [.constant "A"]),
    .positive (.predicate "Q" [.constant "B"]), .negative (.predicate "R" [])]

/-- A chain of subsumption, with the first clause in two variants and the last one twice. -/
def clauses : List Clause :=
  [third, second, first, variant, third]

/-- The last clause is removed together with one that subsumes it, and one that stays subsumes
it, too. -/
theorem removing_subsumedClauses_third :
    second.subsumes third ∧ third ∈ subsumedClauses clauses ∧ second ∈ subsumedClauses clauses ∧
    (∃ d ∈ clauses, d.subsumes third ∧ d ∉ subsumedClauses clauses) ∧
    SameConsequences.{0} (GivenClause.withoutSubsumed (.ofList clauses)).toList
      (ClauseSet.ofList clauses).toList := by
  have below : second.subsumes third := by cbv
  have removed : third ∈ subsumedClauses clauses :=
    mem_subsumedClauses.2 ⟨by simp [clauses], second, by simp [clauses], below⟩
  have removedToo : second ∈ subsumedClauses clauses :=
    mem_subsumedClauses.2 ⟨by simp [clauses], first, by simp [clauses], by cbv⟩
  have nothingLost := removing_subsumedClauses_loses_nothing clauses (.ofList clauses)
  exact ⟨below, removed, removedToo, nothingLost.1 third removed, nothingLost.2.2.1⟩

end Ladder

end ClausalReasoner
