/-
This file says how a knowledge base keeps its clauses. Storing only ever adds clauses at the end, and
the clauses that are added are filed at once: under the definite ones, under the rules, and a unit
under the heading of its literal. In every reachable knowledge base the definite clauses, the rules
and the facts are therefore what one finds by going through all clauses, and every clause remembers
the step that it came from.
-/

import ClausalReasoner.Proofs.ClausesApart
import ClausalReasoner.Proofs.Reachable

namespace ClausalReasoner

/-- Whether a clause is a unit whose literal has a heading. -/
def Clause.isUnder (heading : String) (c : Clause) : Bool :=
  match c.literals with
  | [l] => l.heading = heading
  | _ => false

theorem Clause.exists_of_isUnder {heading : String} {c : Clause} (under : c.isUnder heading) :
    ∃ l, c.literals = [l] ∧ l.heading = heading := by
  unfold isUnder at under
  split at under
  · next l literals => exact ⟨l, literals, of_decide_eq_true under⟩
  · exact absurd under Bool.false_ne_true

theorem Clause.isUnder_of_literals {c : Clause} {l : Literal} (literals : c.literals = [l])
    (heading : String) : c.isUnder heading = decide (l.heading = heading) := by
  rw [isUnder, literals]

theorem ClauseSet.toList_insert {s : ClauseSet} {c : Clause} (fresh : s.contains c = false) :
    (s.insert c).toList = s.toList ++ [c] := by
  rw [insert, dif_neg (Bool.not_eq_true _ ▸ fresh)]
  exact Array.toList_push

theorem FactIndex.under_file (heading other : String) (c : Clause) (facts : FactIndex) :
    under (file heading c facts) other =
      under facts other ++ if heading = other then [c] else [] := by
  induction facts with
  | nil => rw [file, under, under, under, List.nil_append]
  | cons entry rest inductionHypothesis =>
    obtain ⟨filedUnder, filed⟩ := entry
    rw [file]
    split
    · next same =>
      subst same
      rw [under, under]
      split <;> simp
    · next different =>
      rw [under, under, inductionHypothesis]
      split
      · next same => rw [if_neg (same ▸ Ne.symm different), List.append_nil]
      · rfl

namespace KnowledgeBase

/-! ### Adding clauses -/

/-- What was stored since, in order, has been filed by what it can be used for. -/
structure Adds (kb later : KnowledgeBase) (added : List Clause) : Prop where
  clauses : later.clauses.toList = kb.clauses.toList ++ added
  definites : later.definites = kb.definites ++ added.filter Clause.isDefinite
  rules : later.rules = kb.rules ++ added.filter Clause.isRule
  facts : ∀ heading, FactIndex.under later.facts heading =
    FactIndex.under kb.facts heading ++ added.filter (Clause.isUnder heading)
  origins : ∀ c ∈ added, c.origin.isSome

namespace Adds

variable {kb later last : KnowledgeBase} {added more : List Clause}

theorem ofSame (clauses : later.clauses = kb.clauses) (definites : later.definites = kb.definites)
    (rules : later.rules = kb.rules) (facts : later.facts = kb.facts) : kb.Adds later [] where
  clauses := by rw [clauses, List.append_nil]
  definites := by rw [definites, List.filter_nil, List.append_nil]
  rules := by rw [rules, List.filter_nil, List.append_nil]
  facts heading := by rw [facts, List.filter_nil, List.append_nil]
  origins _ absent := absurd absent List.not_mem_nil

theorem refl (kb : KnowledgeBase) : kb.Adds kb [] :=
  .ofSame rfl rfl rfl rfl

theorem trans (first : kb.Adds later added) (second : later.Adds last more) :
    kb.Adds last (added ++ more) where
  clauses := by rw [second.clauses, first.clauses, List.append_assoc]
  definites := by rw [second.definites, first.definites, List.append_assoc, List.filter_append]
  rules := by rw [second.rules, first.rules, List.append_assoc, List.filter_append]
  facts heading := by
    rw [second.facts, first.facts, List.append_assoc, List.filter_append]
  origins := List.forall_mem_append.2 ⟨first.origins, second.origins⟩

end Adds

/-- A clause that remembers its origin is added, unless a stored one has its key. -/
theorem adds_store (kb : KnowledgeBase) {c : Clause} (origin : c.origin.isSome) :
    kb.Adds (kb.store c) (if kb.clauses.contains c then [] else [c]) := by
  rw [store]
  split
  · exact .refl kb
  · next fresh =>
    refine ⟨ClauseSet.toList_insert (Bool.not_eq_true _ ▸ fresh), ?_, ?_, fun heading => ?_, ?_⟩
    · show (if c.isDefinite then _ else _) = _
      cases isDefinite : c.isDefinite <;> simp [isDefinite]
    · show (if c.isRule then _ else _) = _
      cases isRule : c.isRule <;> simp [isRule]
    · show FactIndex.under (match c.literals with | [l] => _ | _ => _) heading = _
      split
      · next l literals =>
        rw [FactIndex.under_file, List.filter_cons, c.isUnder_of_literals literals]
        by_cases same : l.heading = heading <;> simp [same]
      · next notUnit =>
        have other : c.isUnder heading = false := by
          refine Bool.eq_false_iff.2 fun isUnder => ?_
          obtain ⟨l, literals, _⟩ := Clause.exists_of_isUnder isUnder
          exact notUnit l literals
        rw [List.filter_cons_of_neg (by rw [other]; exact Bool.false_ne_true), List.filter_nil,
          List.append_nil]
    · exact fun member inside => List.mem_singleton.1 inside ▸ origin

theorem exists_adds_storeClausified (premise : StepNumber) (kb : KnowledgeBase) (c : Clause) :
    ∃ added, kb.Adds (kb.storeClausified premise c) added := by
  rw [storeClausified]
  dsimp only
  split
  · exact ⟨[], .ofSame rfl rfl rfl rfl⟩
  · refine ⟨_, Adds.trans (.ofSame ?_ ?_ ?_ ?_) (adds_store _ ?_)⟩ <;> rfl

theorem exists_adds_of_tell (kb : KnowledgeBase) (s : Sentence) :
    ∃ added, kb.Adds (kb.tell s).2 added := by
  have storeAll : ∀ (premise : StepNumber) (cs : List Clause) (kb : KnowledgeBase),
      ∃ added, kb.Adds (cs.foldl (storeClausified premise) kb) added := by
    intro premise cs
    induction cs with
    | nil => exact fun kb => ⟨[], .refl kb⟩
    | cons c rest inductionHypothesis =>
      intro kb
      obtain ⟨_, first⟩ := exists_adds_storeClausified premise kb c
      obtain ⟨_, later⟩ := inductionHypothesis (kb.storeClausified premise c)
      exact ⟨_, first.trans later⟩
  refine @tell_preserves (fun told => ∃ added, kb.Adds told added) kb ⟨[], .refl kb⟩ s fun _ => ?_
  obtain ⟨_, stored⟩ := storeAll (kb.derivation.record ⟨.premise, .sentence s, .none, []⟩).1
    (s.clausalForm (kb.vocabulary.registerSentence s)).1
    { kb with
      vocabulary := (s.clausalForm (kb.vocabulary.registerSentence s)).2
      derivation := (kb.derivation.record ⟨.premise, .sentence s, .none, []⟩).2 }
  refine ⟨_, Adds.trans (.ofSame ?_ ?_ ?_ ?_) (stored.trans (.ofSame ?_ ?_ ?_ ?_))⟩ <;> rfl

end KnowledgeBase

namespace ForwardChaining

open KnowledgeBase

variable {kb : KnowledgeBase} {query : Literal}

/-- The clause as which a derived fact is stored. -/
def factClause (kb : KnowledgeBase) (entry : Literal × StepNumber) : Clause :=
  ((Clause.ofLiterals [entry.1]).renamed kb.supply).1.withOrigin (some entry.2)

theorem adds_storeDerived (kb : KnowledgeBase) (entry : Literal × StepNumber) :
    kb.Adds (kb.storeDerived entry.1 entry.2)
      (if kb.clauses.contains (factClause kb entry) then [] else [factClause kb entry]) := by
  have stored := adds_store { kb with supply := ((Clause.ofLiterals [entry.1]).renamed kb.supply).2 }
    (c := factClause kb entry) rfl
  exact ⟨stored.clauses, stored.definites, stored.rules, stored.facts, stored.origins⟩

/-- What is added when facts are stored one after the other are copies of them, and each of them is
then stored, or has the key of a clause that is. -/
theorem exists_adds_storeAll (entries : List (Literal × StepNumber)) (kb : KnowledgeBase) :
    ∃ added, kb.Adds (entries.foldl (fun kb entry => kb.storeDerived entry.1 entry.2) kb) added ∧
      (∀ c ∈ added, ∃ entry ∈ entries, c.CopyOf (Clause.ofLiterals [entry.1])) ∧
      ∀ entry ∈ entries, ∃ copy : Clause, copy.CopyOf (Clause.ofLiterals [entry.1]) ∧
        ∃ c ∈ kb.clauses.toList ++ added, c.key = copy.key := by
  induction entries generalizing kb with
  | nil =>
    exact ⟨[], .refl kb, fun _ absent => absurd absent List.not_mem_nil,
      fun _ absent => absurd absent List.not_mem_nil⟩
  | cons entry rest inductionHypothesis =>
    obtain ⟨added, adds, copies, stored⟩ := inductionHypothesis (kb.storeDerived entry.1 entry.2)
    have first := adds_storeDerived kb entry
    have isCopy : (factClause kb entry).CopyOf (Clause.ofLiterals [entry.1]) :=
      (Clause.copyOf_renamed _ kb.supply).1
    refine ⟨_, first.trans adds, fun c member => ?_, fun other among => ?_⟩
    · rcases List.mem_append.1 member with new | later
      · split at new
        · exact absurd new List.not_mem_nil
        · exact ⟨entry, List.mem_cons_self, List.mem_singleton.1 new ▸ isCopy⟩
      · obtain ⟨other, among, isCopy⟩ := copies c later
        exact ⟨other, List.mem_cons_of_mem _ among, isCopy⟩
    · rw [← List.append_assoc, ← first.clauses]
      rcases List.mem_cons.1 among with rfl | later
      · refine ⟨factClause kb other, isCopy, ?_⟩
        rw [first.clauses]
        split
        · next known =>
          obtain ⟨c, member, same⟩ := ClauseSet.contains_iff.1 known
          exact ⟨c, List.mem_append_left _ (List.mem_append_left _ member), same⟩
        · exact ⟨_, List.mem_append_left _ (List.mem_append_right _ List.mem_cons_self), rfl⟩
      · exact stored other later

/-- What closing a round adds are copies of the collected facts, and each of these is then stored, or
has the key of a clause that is. -/
theorem exists_adds_close (kb : KnowledgeBase) (round : Round) :
    ∃ added, kb.Adds (close kb round) added ∧
      (∀ c ∈ added, ∃ entry ∈ round.collected, c.CopyOf (Clause.ofLiterals [entry.1])) ∧
      ∀ entry ∈ round.collected, ∃ copy : Clause, copy.CopyOf (Clause.ofLiterals [entry.1]) ∧
        ∃ c ∈ (close kb round).clauses.toList, c.key = copy.key := by
  obtain ⟨added, adds, copies, stored⟩ :=
    exists_adds_storeAll round.collected (kb.afterSession round.session)
  have closed : kb.Adds (close kb round) added :=
    ⟨adds.clauses, adds.definites, adds.rules, adds.facts, adds.origins⟩
  refine ⟨added, closed, copies, ?_⟩
  rw [closed.clauses]
  exact stored

/-! ### The rounds -/

/-- A round that the search goes through. -/
def roundOf (kb : KnowledgeBase) (query : Literal) : Round :=
  round kb query kb.session

/-- How the rounds end. What every round that does not answer the query preserves holds before the
last round as it did at the start, and the last round has either answered the query or collected
nothing. -/
theorem exists_last_round (preserved : KnowledgeBase → Prop)
    (step : ∀ kb, preserved kb → (roundOf kb query).answered = false →
      preserved (close kb (roundOf kb query))) {fuel : Nat}
    {answer : Answer} {last : KnowledgeBase} (start : preserved kb)
    (ran : rounds query fuel kb = some (answer, last)) :
    ∃ before, preserved before ∧ last = close before (roundOf before query) ∧
      ((roundOf before query).answered = true ∧
          answer.proofs = proofsFromFacts last query last.derivation ∨
        (roundOf before query).answered = false ∧ (roundOf before query).collected = [] ∧
          answer.proofs = []) := by
  induction fuel generalizing kb with
  | zero => exact absurd ran nofun
  | succ fuel inductionHypothesis =>
    rw [rounds] at ran
    split at ran
    · next answered =>
      obtain ⟨rfl, rfl⟩ := Prod.mk.inj (Option.some.inj ran)
      exact ⟨kb, start, rfl, Or.inl ⟨answered, rfl⟩⟩
    · next unanswered =>
      split at ran
      · next nothing =>
        obtain ⟨rfl, rfl⟩ := Prod.mk.inj (Option.some.inj ran)
        exact ⟨kb, start, rfl,
          Or.inr ⟨Bool.not_eq_true _ ▸ unanswered, List.isEmpty_iff.1 nothing, rfl⟩⟩
      · exact inductionHypothesis (step kb start (Bool.not_eq_true _ ▸ unanswered)) ran

theorem exists_adds_of_ask {fuel : Nat} {query : Sentence} {outcome : Except Failure Answer}
    {last : KnowledgeBase} (asked : ask fuel kb query = some (outcome, last)) :
    ∃ added, kb.Adds last added := by
  have step : ∀ (goal : Literal) (later : KnowledgeBase), (∃ added, kb.Adds later added) →
      ∃ added, kb.Adds (close later (roundOf later goal)) added := by
    rintro goal later ⟨added, adds⟩
    obtain ⟨more, closed, _⟩ := exists_adds_close later (roundOf later goal)
    exact ⟨_, adds.trans closed⟩
  unfold ask at asked
  split at asked
  · dsimp only at asked
    split at asked
    · obtain ⟨⟨answer, after⟩, ran, same⟩ := Option.map_eq_some_iff.1 asked
      obtain ⟨_, rfl⟩ := Prod.mk.inj same
      obtain ⟨before, adds, rfl, _⟩ :=
        exists_last_round _ (fun later adds _ => step _ later adds) ⟨[], .refl kb⟩ ran
      exact step _ before adds
    · obtain ⟨_, rfl⟩ := Prod.mk.inj (Option.some.inj asked)
      exact ⟨[], .refl kb⟩
  · obtain ⟨_, rfl⟩ := Prod.mk.inj (Option.some.inj asked)
    exact ⟨[], .refl kb⟩

end ForwardChaining

/-! ### How reachable knowledge bases are filed -/

namespace KnowledgeBase

variable {kb later : KnowledgeBase}

/-- The clauses are filed by what they can be used for, and each remembers its origin. -/
structure Filed (kb : KnowledgeBase) : Prop where
  definites : kb.definites = kb.clauses.toList.filter Clause.isDefinite
  rules : kb.rules = kb.clauses.toList.filter Clause.isRule
  facts : ∀ heading, FactIndex.under kb.facts heading =
    kb.clauses.toList.filter (Clause.isUnder heading)
  origins : ∀ c ∈ kb.clauses.toList, c.origin.isSome

theorem Filed.adds (filed : kb.Filed) {added : List Clause} (adds : kb.Adds later added) :
    later.Filed where
  definites := by rw [adds.definites, adds.clauses, filed.definites, List.filter_append]
  rules := by rw [adds.rules, adds.clauses, filed.rules, List.filter_append]
  facts heading := by rw [adds.facts, adds.clauses, filed.facts, List.filter_append]
  origins := by
    rw [adds.clauses]
    exact List.forall_mem_append.2 ⟨filed.origins, adds.origins⟩

/-- Every reachable knowledge base is filed. -/
theorem Reachable.filed (reachable : kb.Reachable) : kb.Filed := by
  induction reachable with
  | initial procedure =>
    exact ⟨rfl, rfl, fun _ => rfl, fun c absent => absurd absent List.not_mem_nil⟩
  | @tell kb _ s inductionHypothesis =>
    obtain ⟨_, adds⟩ := exists_adds_of_tell kb s
    exact inductionHypothesis.adds adds
  | @ask kb last fuel query outcome _ asked inductionHypothesis =>
    obtain ⟨found, ran, _⟩ := exists_of_ask asked
    have filed : (kb.atQuery query).Filed := inductionHypothesis.adds (.ofSame rfl rfl rfl rfl)
    by_cases forward : kb.procedure = .forwardChaining
    · rw [forward] at ran
      obtain ⟨_, adds⟩ := ForwardChaining.exists_adds_of_ask ran
      exact filed.adds adds
    · have same := storesSame_of_ask forward ran
      exact filed.adds (.ofSame same.clauses same.definites same.rules same.facts)
  | setProcedure _ procedure inductionHypothesis =>
    exact inductionHypothesis.adds (.ofSame rfl rfl rfl rfl)
  | clear _ _ => exact ⟨rfl, rfl, fun _ => rfl, fun c absent => absurd absent List.not_mem_nil⟩
  | widen _ within inductionHypothesis =>
    exact inductionHypothesis.adds (.ofSame rfl rfl rfl rfl)
  | supply _ supply inductionHypothesis =>
    exact inductionHypothesis.adds (.ofSame rfl rfl rfl rfl)

end KnowledgeBase

end ClausalReasoner
