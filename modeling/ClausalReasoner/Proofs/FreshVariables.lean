/-
This file shows that the variables of stored clauses are fresh. Whatever is stored is renamed first,
so its variables carry indices that the supply has just handed out, whatever the variables of the
sentence were; and since indices are never handed out twice, no two stored clauses share a variable,
and neither does a query, which is renamed as well. Nothing that is done with a knowledge base breaks
this: a sentence that is refused or repeated stores nothing, a procedure that stores nothing only
uses indices up, and the facts that chaining forward stores are renamed like the clauses of a
sentence.
-/

import ClausalReasoner.Proofs.Soundness
import ClausalReasoner.Proofs.SupplyGrowth

namespace ClausalReasoner

/-- The variables that a sentence is left with when it is renamed are new ones. -/
theorem Sentence.exists_of_mem_renamed {forward : Substitution} {vs : List Variable}
    {rename : Variable → Variable} (renames : RenamesVariables forward vs rename) {s : Sentence}
    (within : s.Inside fun v => v ∈ vs) {v : Variable}
    (member : v ∈ (s.substitute forward).occurrences ++ (s.substitute forward).binders) :
    ∃ w ∈ vs, rename w = v := by
  induction s with
  | atom a =>
    obtain ⟨w, occurs, here⟩ := Atom.mem_occurrences_replace.1 (List.append_nil _ ▸ member)
    rw [renames.value] at here
    exact ⟨w, within.1 w occurs, (List.mem_singleton.1 here).symm⟩
  | negation body inductionHypothesis => exact inductionHypothesis within member
  | connected connective left right leftHypothesis rightHypothesis =>
    have sides : v ∈ (left.substitute forward).occurrences ++ (left.substitute forward).binders ∨
        v ∈ (right.substitute forward).occurrences ++ (right.substitute forward).binders := by
      simp only [substitute, occurrences, binders, List.mem_append] at member ⊢
      tauto
    exact sides.elim (leftHypothesis within.connected.1) (rightHypothesis within.connected.2)
  | quantified quantifier bound body inductionHypothesis =>
    have sides : v ∈ (body.substitute forward).occurrences ++ (body.substitute forward).binders ∨
        v ∈ bound.map rename := by
      rw [substitute, List.mem_append, binders_quantify,
        replaceBinders_eq_map fun v _ => renames.value v] at member
      have same : ∀ bound : List Variable, (quantify quantifier bound
          (body.substitute forward)).occurrences = (body.substitute forward).occurrences := by
        intro bound
        cases bound <;> rfl
      rw [same] at member
      simp only [List.mem_append] at member ⊢
      tauto
    rcases sides with inside | listed
    · exact inductionHypothesis within.quantified.2 inside
    · obtain ⟨w, here, same⟩ := List.mem_map.1 listed
      exact ⟨w, within.quantified.1 w here, same⟩

namespace KnowledgeBase

variable {kb told last : KnowledgeBase}

/-! ### Clauses that are kept apart -/

/-- Every variable of a stored clause carries an index that the supply has handed out, and no
variable stands in two of the stored clauses. -/
structure KeepsApart (kb : KnowledgeBase) : Prop where
  indexed : ∀ c ∈ kb.clauses.toList, ∀ v ∈ Literal.occurrencesList c.literals,
    ∃ index, v.index = some index ∧ index < kb.supply.next
  apart : kb.clauses.toList.Pairwise Clause.Apart

theorem KeepsApart.ofEmpty (none : kb.clauses.toList = []) : kb.KeepsApart := by
  refine ⟨fun c member => ?_, ?_⟩
  · rw [none] at member
    exact absurd member List.not_mem_nil
  · rw [none]
    exact List.Pairwise.nil

/-- The same clauses are still kept apart when more indices were handed out. -/
theorem KeepsApart.ofSame (keeps : kb.KeepsApart) (clauses : last.clauses = kb.clauses)
    (grows : kb.supply.next ≤ last.supply.next) : last.KeepsApart := by
  refine ⟨fun c member v occurs => ?_, clauses ▸ keeps.apart⟩
  obtain ⟨index, indexed, below⟩ := keeps.indexed c (clauses ▸ member) v occurs
  exact ⟨index, indexed, Nat.lt_of_lt_of_le below grows⟩

/-- Storing a clause that is renamed with the supply keeps the clauses apart. -/
theorem KeepsApart.storeRenamed (keeps : kb.KeepsApart) (c : Clause) (supplied : KnowledgeBase)
    (clauses : supplied.clauses = kb.clauses) (supply : supplied.supply = (c.renamed kb.supply).2)
    (origin : Option StepNumber) :
    (supplied.store ((c.renamed kb.supply).1.withOrigin origin)).KeepsApart := by
  obtain ⟨_, grows, fresh⟩ := c.copyOf_renamed kb.supply
  have older : supplied.KeepsApart := keeps.ofSame clauses (supply ▸ grows)
  rw [store]
  split
  · exact older
  · next new =>
    have stored := ClauseSet.toList_insert (Bool.not_eq_true _ ▸ new)
    refine ⟨fun d member v occurs => ?_, ?_⟩
    · rcases List.mem_append.1 (stored ▸ member) with old | isNew
      · exact older.indexed d old v occurs
      · rw [List.mem_singleton.1 isNew] at occurs
        obtain ⟨index, indexed, _, below⟩ := fresh v occurs
        exact ⟨index, indexed, supply ▸ below⟩
    · rw [stored, List.pairwise_append]
      refine ⟨older.apart, List.pairwise_singleton _ _, fun d old e isNew v here there => ?_⟩
      rw [List.mem_singleton.1 isNew] at there
      obtain ⟨index, indexed, above, _⟩ := fresh v there
      obtain ⟨_, same, below⟩ := keeps.indexed d (clauses ▸ old) v here
      obtain rfl := Option.some.inj (indexed.symm.trans same)
      exact absurd above (Nat.not_le.2 below)

theorem KeepsApart.storeClausified (keeps : kb.KeepsApart) (premise : StepNumber) (c : Clause) :
    (kb.storeClausified premise c).KeepsApart := by
  obtain ⟨_, grows, _⟩ := c.copyOf_renamed kb.supply
  rw [KnowledgeBase.storeClausified]
  dsimp only
  split
  · exact keeps.ofSame rfl grows
  · refine keeps.storeRenamed c _ ?_ ?_ _ <;> rfl

theorem KeepsApart.tell (keeps : kb.KeepsApart) (s : Sentence) : (kb.tell s).2.KeepsApart := by
  refine tell_preserves keeps s fun _ => ?_
  refine KeepsApart.ofSame (foldl_invariant KeepsApart
    (fun kb c _ keeps => keeps.storeClausified _ c) ?_) rfl (Nat.le_refl _)
  exact keeps.ofSame rfl (Nat.le_refl _)

/-- What telling a sentence preserves is preserved by telling sentences one after the other. -/
theorem tellAll_preserves {holds : KnowledgeBase → Prop}
    (tell : ∀ (kb : KnowledgeBase) (s : Sentence), holds kb → holds (kb.tell s).2)
    (given : holds kb) (sentences : List Sentence) : holds (kb.tellAll sentences).1 := by
  induction sentences generalizing kb with
  | nil => exact given
  | cons s rest inductionHypothesis =>
    have told := tell kb s given
    rw [KnowledgeBase.tellAll]
    split <;> rename_i outcome
    · rw [outcome] at told
      exact inductionHypothesis told
    · rwa [outcome] at told

/-- A round of chaining forward uses indices up, and the facts that it stores are renamed. -/
theorem KeepsApart.close (keeps : kb.KeepsApart) (query : Literal) :
    (ForwardChaining.close kb (ForwardChaining.roundOf kb query)).KeepsApart := by
  have supplied : (kb.afterSession (ForwardChaining.roundOf kb query).session).KeepsApart :=
    keeps.ofSame rfl (ForwardChaining.next_le_round kb query kb.session)
  refine KeepsApart.ofSame (foldl_invariant KeepsApart (fun kb entry _ keeps => ?_) supplied) rfl
    (Nat.le_refl _)
  exact keeps.storeRenamed (Clause.ofLiterals [entry.1])
    { kb with supply := ((Clause.ofLiterals [entry.1]).renamed kb.supply).2 } rfl rfl (some entry.2)

theorem KeepsApart.forwardChaining (keeps : kb.KeepsApart) {fuel : Nat} {query : Sentence}
    {outcome : Except Failure Answer}
    (asked : ForwardChaining.ask fuel kb query = some (outcome, last)) : last.KeepsApart := by
  unfold ForwardChaining.ask at asked
  split at asked
  · dsimp only at asked
    split at asked
    · obtain ⟨⟨answer, after⟩, ran, same⟩ := Option.map_eq_some_iff.1 asked
      obtain ⟨_, rfl⟩ := Prod.mk.inj same
      obtain ⟨before, kept, rfl, _⟩ := ForwardChaining.exists_last_round KeepsApart
        (fun kb kept _ => kept.close _) keeps ran
      exact kept.close _
    · obtain ⟨_, rfl⟩ := Prod.mk.inj (Option.some.inj asked)
      exact keeps
  · obtain ⟨_, rfl⟩ := Prod.mk.inj (Option.some.inj asked)
    exact keeps

/-- The query is renamed before a procedure sees it. -/
theorem KeepsApart.atQuery (keeps : kb.KeepsApart) (query : Sentence) :
    (kb.atQuery query).KeepsApart :=
  keeps.ofSame rfl (Supply.next_le_freshen kb.supply query.allVariables)

theorem KeepsApart.ask (keeps : kb.KeepsApart) {fuel : Nat} {query : Sentence}
    {outcome : Except Failure Answer} (asked : kb.ask fuel query = some (outcome, last)) :
    last.KeepsApart := by
  obtain ⟨found, ran, _⟩ := exists_of_ask asked
  by_cases forward : kb.procedure = .forwardChaining
  · rw [forward] at ran
    exact (keeps.atQuery query).forwardChaining ran
  · exact (keeps.atQuery query).ofSame (storesSame_of_ask forward ran).clauses
      (next_le_of_ask forward ran)

/-- The query that a procedure is given has no variable of a stored clause, neither free nor
bound. -/
theorem KeepsApart.freshQuery (keeps : kb.KeepsApart) (query : Sentence) {c : Clause}
    (member : c ∈ kb.clauses.toList) {v : Variable}
    (here : v ∈ (kb.freshQuery query).allVariables) : v ∉ Literal.occurrencesList c.literals := by
  intro there
  obtain ⟨rename, renames⟩ := kb.exists_renamesVariables_query query
  obtain ⟨w, listed, rfl⟩ := Sentence.exists_of_mem_renamed renames query.inside_allVariables
    (mem_firstOccurrences.1 here)
  obtain ⟨index, indexed, above, _⟩ := Clause.index_of_renamesVariables renames listed
  obtain ⟨_, same, below⟩ := keeps.indexed c member (rename w) there
  obtain rfl := Option.some.inj (indexed.symm.trans same)
  exact absurd above (Nat.not_le.2 below)

/-! ### Knowledge bases in use -/

/-- The knowledge bases that come about from an empty one by telling it sentences, asking it queries,
giving it procedures and clearing it, and in no other way. A query without an outcome leaves no
knowledge base behind. -/
inductive Obtainable : KnowledgeBase → Prop
  | initial (procedure : Procedure) : Obtainable { procedure := procedure }
  | tell {kb : KnowledgeBase} (before : Obtainable kb) (s : Sentence) : Obtainable (kb.tell s).2
  | tellAll {kb : KnowledgeBase} (before : Obtainable kb) (sentences : List Sentence) :
      Obtainable (kb.tellAll sentences).1
  | ask {kb last : KnowledgeBase} {fuel : Nat} {query : Sentence}
      {outcome : Except Failure Answer} (before : Obtainable kb)
      (asked : kb.ask fuel query = some (outcome, last)) : Obtainable last
  | setProcedure {kb : KnowledgeBase} (before : Obtainable kb) (procedure : Procedure) :
      Obtainable { kb with procedure := procedure }
  | clear {kb : KnowledgeBase} (before : Obtainable kb) : Obtainable kb.clear

theorem Reachable.tellAll (reachable : kb.Reachable) (sentences : List Sentence) :
    (kb.tellAll sentences).1.Reachable :=
  tellAll_preserves (fun _ s before => before.tell s) reachable sentences

theorem Obtainable.reachable (obtainable : kb.Obtainable) : kb.Reachable := by
  induction obtainable with
  | initial procedure => exact .initial procedure
  | tell _ s inductionHypothesis => exact inductionHypothesis.tell s
  | tellAll _ sentences inductionHypothesis => exact inductionHypothesis.tellAll sentences
  | ask _ asked inductionHypothesis => exact inductionHypothesis.ask asked
  | setProcedure _ procedure inductionHypothesis =>
    exact inductionHypothesis.setProcedure procedure
  | clear _ inductionHypothesis => exact inductionHypothesis.clear

theorem Obtainable.keepsApart (obtainable : kb.Obtainable) : kb.KeepsApart := by
  induction obtainable with
  | initial procedure => exact .ofEmpty rfl
  | tell _ s inductionHypothesis => exact inductionHypothesis.tell s
  | tellAll _ sentences inductionHypothesis =>
    exact tellAll_preserves (fun _ s keeps => keeps.tell s) inductionHypothesis sentences
  | ask _ asked inductionHypothesis => exact inductionHypothesis.ask asked
  | setProcedure _ procedure inductionHypothesis =>
    exact inductionHypothesis.ofSame rfl (Nat.le_refl _)
  | clear _ _ => exact .ofEmpty rfl

end KnowledgeBase

end ClausalReasoner
