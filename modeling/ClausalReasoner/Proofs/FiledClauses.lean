/-
This file shows that the collections of a knowledge base agree with each other. The definite clauses,
the rules and the facts are kept beside the clauses and are added to wherever a clause is stored, so
they are what one finds by going through the clauses. Storing only happens to clauses that are
neither empty nor tautologies: the clausal form leaves tautologies out, a sentence with an empty
clause is refused, and a derived fact is a single literal. Looking a literal up under its heading
therefore finds just what one finds by trying the unit clauses in the order in which they were
stored, for the heading is made of what unifiable literals of one polarity have in common.
-/

import ClausalReasoner.Proofs.FactJoins
import ClausalReasoner.Proofs.FreshVariables

namespace ClausalReasoner

/-! ### Clauses that are not trivial -/

/-- A clause that is neither empty nor a tautology. -/
structure Clause.Contentful (c : Clause) : Prop where
  nonempty : c.literals ≠ []
  noTautology : c.isTautology = false

namespace Clause

theorem isTautology_iff {c : Clause} : c.isTautology ↔
    ∃ l ∈ c.literals, ∃ m ∈ c.literals, l.isPositive ∧ m.isNegative ∧ l.atom = m.atom := by
  have opposite : ∀ {l m : Literal}, l.isPositive → m.isNegative →
      (l.isNegationOf m ↔ l.atom = m.atom) := by
    intro l m positive negative
    have isPositive : l.polarity = .positive := of_decide_eq_true positive
    have isNegative : m.polarity = .negative := of_decide_eq_true negative
    simp [Literal.isNegationOf, isPositive, isNegative, Polarity.flip]
  simp only [isTautology, positives, negatives, List.any_eq_true, List.mem_filter]
  constructor
  · rintro ⟨l, ⟨here, positive⟩, m, ⟨there, negative⟩, denied⟩
    exact ⟨l, here, m, there, positive, negative, (opposite positive negative).1 denied⟩
  · rintro ⟨l, here, m, there, positive, negative, same⟩
    exact ⟨l, ⟨here, positive⟩, m, ⟨there, negative⟩, (opposite positive negative).2 same⟩

theorem CopyOf.contentful {copy c : Clause} (isCopy : copy.CopyOf c) (given : c.Contentful) :
    copy.Contentful := by
  obtain ⟨forward, back, literals, undone⟩ := isCopy
  refine ⟨fun none => ?_, Bool.eq_false_iff.2 fun tautology => ?_⟩
  · rw [literals] at none
    exact given.nonempty (List.map_eq_nil_iff.1 none)
  · obtain ⟨l, here, m, there, positive, negative, same⟩ := isTautology_iff.1 tautology
    rw [literals] at here there
    obtain ⟨l, inside, rfl⟩ := List.mem_map.1 here
    obtain ⟨m, among, rfl⟩ := List.mem_map.1 there
    have equal : l.atom = m.atom := by
      have back : (l.atom.replace forward).replace back = (m.atom.replace forward).replace back :=
        congrArg (Atom.replace back) same
      rwa [show (l.atom.replace forward).replace _ = l.atom from congrArg Literal.atom (undone l inside),
        show (m.atom.replace forward).replace _ = m.atom from congrArg Literal.atom (undone m among)]
        at back
    exact Bool.eq_false_iff.1 given.noTautology
      (isTautology_iff.2 ⟨l, inside, m, among, positive, negative, equal⟩)

theorem contentful_singleton (l : Literal) : (ofLiterals [l]).Contentful := by
  refine ⟨List.cons_ne_nil _ _, Bool.eq_false_iff.2 fun tautology => ?_⟩
  obtain ⟨m, here, k, there, positive, negative, _⟩ := isTautology_iff.1 tautology
  obtain rfl := List.mem_singleton.1 here
  obtain rfl := List.mem_singleton.1 there
  exact absurd ((of_decide_eq_true positive).symm.trans (of_decide_eq_true negative)) nofun

end Clause

/-- The clausal form of a sentence has no tautologies, and no empty clause unless the sentence is
seen to be unsatisfiable. -/
theorem contentful_clausalForm {s : Sentence} {voc : Vocabulary} {supply : Supply}
    (satisfiable : ¬ KnowledgeBase.obviouslyUnsatisfiable (s.clausalForm voc).1 supply) :
    ∀ c ∈ (s.clausalForm voc).1, c.Contentful := by
  intro c member
  obtain ⟨_, _, _, noTautology⟩ := Sentence.mem_clauses.1 member
  refine ⟨fun none => satisfiable ?_, Bool.eq_false_iff.2 noTautology⟩
  rw [KnowledgeBase.obviouslyUnsatisfiable, Bool.or_eq_true]
  exact Or.inl (List.any_eq_true.2 ⟨c, member, List.isEmpty_iff.2 none⟩)

namespace KnowledgeBase

variable {kb told last : KnowledgeBase}

/-! ### Induction on what is stored -/

section Induction

variable {holds : ClauseSet → FactIndex → Prop}

/-- Storing a clause that is not trivial preserves a property of the clauses and the facts. -/
def PreservedByStoring (holds : ClauseSet → FactIndex → Prop) : Prop :=
  ∀ (kb : KnowledgeBase) (c : Clause), c.Contentful → holds kb.clauses kb.facts →
    holds (kb.store c).clauses (kb.store c).facts

theorem PreservedByStoring.storeClausified (preserved : PreservedByStoring holds)
    (premise : StepNumber) {c : Clause} (contentful : c.Contentful)
    (given : holds kb.clauses kb.facts) :
    holds (kb.storeClausified premise c).clauses (kb.storeClausified premise c).facts := by
  have renamed : (c.renamed kb.supply).1.Contentful :=
    (c.copyOf_renamed kb.supply).1.contentful contentful
  rw [KnowledgeBase.storeClausified]
  dsimp only
  split
  · exact given
  · exact preserved _ _ ⟨renamed.nonempty, renamed.noTautology⟩ given

theorem PreservedByStoring.storeDerived (preserved : PreservedByStoring holds)
    (entry : Literal × StepNumber) (given : holds kb.clauses kb.facts) :
    holds (kb.storeDerived entry.1 entry.2).clauses (kb.storeDerived entry.1 entry.2).facts := by
  have renamed : ((Clause.ofLiterals [entry.1]).renamed kb.supply).1.Contentful :=
    ((Clause.ofLiterals [entry.1]).copyOf_renamed kb.supply).1.contentful
      (Clause.contentful_singleton entry.1)
  exact preserved _ _ ⟨renamed.nonempty, renamed.noTautology⟩ given

theorem PreservedByStoring.tell (preserved : PreservedByStoring holds)
    (given : holds kb.clauses kb.facts) (s : Sentence) :
    holds (kb.tell s).2.clauses (kb.tell s).2.facts := by
  let stored := fun kb : KnowledgeBase => holds kb.clauses kb.facts
  refine @tell_preserves stored kb given s fun satisfiable => ?_
  exact foldl_invariant stored (fun kb c member given => preserved.storeClausified _
    (contentful_clausalForm (Bool.eq_false_iff.1 satisfiable) c member) given) given

theorem PreservedByStoring.forwardChaining (preserved : PreservedByStoring holds)
    (given : holds kb.clauses kb.facts) {fuel : Nat} {query : Sentence}
    {outcome : Except Failure Answer}
    (asked : ForwardChaining.ask fuel kb query = some (outcome, last)) :
    holds last.clauses last.facts := by
  have closes : ∀ (kb : KnowledgeBase) (round : ForwardChaining.Round),
      holds kb.clauses kb.facts → holds (ForwardChaining.close kb round).clauses
        (ForwardChaining.close kb round).facts := by
    intro kb round given
    have supplied : holds (kb.afterSession round.session).clauses
        (kb.afterSession round.session).facts := given
    exact foldl_invariant (fun kb : KnowledgeBase => holds kb.clauses kb.facts)
      (fun kb entry _ given => preserved.storeDerived entry given) supplied
  unfold ForwardChaining.ask at asked
  split at asked
  · dsimp only at asked
    split at asked
    · obtain ⟨⟨answer, after⟩, ran, same⟩ := Option.map_eq_some_iff.1 asked
      obtain ⟨_, rfl⟩ := Prod.mk.inj same
      obtain ⟨before, kept, rfl, _⟩ := ForwardChaining.exists_last_round
        (fun kb => holds kb.clauses kb.facts) (fun kb kept _ => closes kb _ kept) given ran
      exact closes before _ kept
    · obtain ⟨_, rfl⟩ := Prod.mk.inj (Option.some.inj asked)
      exact given
  · obtain ⟨_, rfl⟩ := Prod.mk.inj (Option.some.inj asked)
    exact given

/-- A property of the clauses and the facts that holds when there are none, and that storing
preserves, holds in every reachable knowledge base. -/
theorem Reachable.induction_on_stored (holds : ClauseSet → FactIndex → Prop)
    (reachable : kb.Reachable) (preserved : PreservedByStoring holds) (none : holds ∅ []) : holds kb.clauses kb.facts := by
  induction reachable with
  | initial procedure => exact none
  | tell _ s inductionHypothesis => exact preserved.tell inductionHypothesis s
  | @ask kb last fuel query outcome _ asked inductionHypothesis =>
    obtain ⟨found, ran, _⟩ := exists_of_ask asked
    by_cases forward : kb.procedure = .forwardChaining
    · rw [forward] at ran
      have atQuery : holds (kb.atQuery query).clauses (kb.atQuery query).facts :=
        inductionHypothesis
      exact preserved.forwardChaining atQuery ran
    · have same := storesSame_of_ask forward ran
      rw [same.clauses, same.facts]
      exact inductionHypothesis
  | setProcedure _ _ inductionHypothesis => exact inductionHypothesis
  | clear _ _ => exact none
  | widen _ _ inductionHypothesis => exact inductionHypothesis
  | supply _ _ inductionHypothesis => exact inductionHypothesis

end Induction

/-- No stored clause is empty or a tautology. -/
theorem Reachable.contentful (reachable : kb.Reachable) :
    ∀ c ∈ kb.clauses.toList, c.Contentful := by
  refine reachable.induction_on_stored (fun clauses _ => ∀ c ∈ clauses.toList, c.Contentful)
    (fun kb c contentful given d member => ?_) fun _ absent => absurd absent List.not_mem_nil
  rw [store] at member
  split at member
  · exact given d member
  · rcases ClauseSet.mem_of_mem_insert member with old | rfl
    · exact given d old
    · exact contentful

end KnowledgeBase

/-! ### The index of the facts -/

/-- The clauses of an index under all of its headings. -/
def FactIndex.filed (facts : FactIndex) : List Clause :=
  facts.flatMap (·.2)

theorem FactIndex.perm_filed_file (heading : String) (c : Clause) (facts : FactIndex) :
    (file heading c facts).filed.Perm (facts.filed ++ [c]) := by
  induction facts with
  | nil => exact .refl _
  | cons entry rest inductionHypothesis =>
    obtain ⟨other, filed⟩ := entry
    rw [file]
    split
    · have moved : ([c] ++ FactIndex.filed rest).Perm (FactIndex.filed rest ++ [c]) :=
        List.perm_append_comm
      show ((filed ++ [c]) ++ FactIndex.filed rest).Perm ((filed ++ FactIndex.filed rest) ++ [c])
      rw [List.append_assoc, List.append_assoc]
      exact moved.append_left filed
    · show (filed ++ (file heading c rest).filed).Perm ((filed ++ FactIndex.filed rest) ++ [c])
      rw [List.append_assoc]
      exact inductionHypothesis.append_left filed

theorem Clause.isUnit_iff {c : Clause} : c.isUnit ↔ ∃ l, c.literals = [l] := by
  rw [isUnit, size, decide_eq_true_iff, List.length_eq_one_iff]

/-- The index of a reachable knowledge base holds the stored unit clauses, each as often as it is
stored. -/
theorem KnowledgeBase.Reachable.perm_filed {kb : KnowledgeBase} (reachable : kb.Reachable) :
    kb.facts.filed.Perm (kb.clauses.toList.filter Clause.isUnit) := by
  refine reachable.induction_on_stored
    (fun clauses facts => facts.filed.Perm (clauses.toList.filter Clause.isUnit))
    (fun kb c _ given => ?_) .nil
  rw [store]
  split
  · exact given
  · next fresh =>
    rw [ClauseSet.toList_insert (Bool.not_eq_true _ ▸ fresh), List.filter_append]
    dsimp only
    split
    · next l literals =>
      rw [List.filter_cons_of_pos (Clause.isUnit_iff.2 ⟨l, literals⟩), List.filter_nil]
      exact (FactIndex.perm_filed_file _ c kb.facts).trans (given.append_right [c])
    · next several =>
      have notUnit : ¬ c.isUnit := by
        intro isUnit
        obtain ⟨l, literals⟩ := Clause.isUnit_iff.1 isUnit
        exact several l literals
      rw [List.filter_cons_of_neg notUnit, List.filter_nil, List.append_nil]
      exact given

/-! ### Looking up facts -/

/-- A heading tells the polarity and the symbol of a literal, even where a predicate is called like
the sign of equality. -/
theorem Literal.heading_eq_iff {l m : Literal} :
    l.heading = m.heading ↔ l.polarity = m.polarity ∧ l.atom.symbol = m.atom.symbol := by
  constructor
  · intro same
    have characters := congrArg String.toList same
    unfold heading at characters
    cases first : l.polarity <;> cases second : m.polarity <;>
      simp only [first, second, String.toList_append] at characters
    · exact ⟨rfl, String.toList_inj.1 (List.append_cancel_left characters)⟩
    · exact absurd (List.cons.inj characters).1 (by decide)
    · exact absurd (List.cons.inj characters).1 (by decide)
    · exact ⟨rfl, String.toList_inj.1 (List.append_cancel_left characters)⟩
  · rintro ⟨polarity, symbol⟩
    rw [heading, heading, polarity, symbol]

/-- The unifier of a literal with a unit clause of its polarity, if there is one. -/
def Literal.unifyUnit (l : Literal) (c : Clause) : Option Substitution :=
  match c.literals with
  | [m] => if m.polarity = l.polarity then l.atom.unify m.atom else none
  | _ => none

theorem Literal.unifyUnit_of_literals (l : Literal) {c : Clause} {m : Literal}
    (literals : c.literals = [m]) :
    l.unifyUnit c = if m.polarity = l.polarity then l.atom.unify m.atom else none := by
  rw [unifyUnit, literals]

namespace KnowledgeBase

/-- Looking a literal up is trying the stored clauses one after the other. -/
theorem Reachable.fetch_eq {kb : KnowledgeBase} (reachable : kb.Reachable) (l : Literal) :
    kb.fetch l = kb.clauses.toList.filterMap l.unifyUnit := by
  rw [fetch, fetchFacts, reachable.filed.facts, List.map_filterMap, List.filterMap_filter]
  refine List.filterMap_congr fun c _ => ?_
  by_cases isUnit : ∃ m, c.literals = [m]
  · obtain ⟨m, literals⟩ := isUnit
    rw [c.isUnder_of_literals literals, l.unifyUnit_of_literals literals, literals]
    by_cases polarity : m.polarity = l.polarity
    · by_cases symbol : m.atom.symbol = l.atom.symbol
      · rw [if_pos (decide_eq_true (Literal.heading_eq_iff.2 ⟨polarity, symbol⟩)),
          if_pos polarity]
        cases found : l.atom.unify m.atom <;> simp [found]
      · have noUnifier : l.atom.unify m.atom = none := Option.eq_none_iff_forall_ne_some.2
          fun θ found => symbol (Atom.symbol_eq_of_unify found).symm
        rw [if_neg fun same => symbol (Literal.heading_eq_iff.1 (of_decide_eq_true same)).2,
          if_pos polarity, noUnifier]
    · rw [if_neg fun same => polarity (Literal.heading_eq_iff.1 (of_decide_eq_true same)).1,
        if_neg polarity]
  · have other : ¬ c.isUnder l.heading := by
      intro under
      obtain ⟨m, literals, _⟩ := Clause.exists_of_isUnder under
      exact isUnit ⟨m, literals⟩
    rw [if_neg other, Literal.unifyUnit]
    split
    · next m literals => exact absurd ⟨m, literals⟩ isUnit
    · rfl

/-- **The collections of a knowledge base agree.** In a knowledge base in use the definite clauses and
the rules are the stored clauses of these kinds in the order of storing, the index holds each stored
unit clause once, no two stored clauses have one key, none is empty or a tautology, and the literals
that are looked up in the index are found as if all stored clauses were tried in order. -/
theorem Obtainable.collections_agree {kb : KnowledgeBase} (obtainable : kb.Obtainable) :
    kb.definites = kb.clauses.toList.filter Clause.isDefinite ∧
      kb.rules = kb.clauses.toList.filter Clause.isRule ∧
      kb.facts.filed.Perm (kb.clauses.toList.filter Clause.isUnit) ∧
      (kb.clauses.toList.map Clause.key).Nodup ∧
      (∀ c ∈ kb.clauses.toList, c.literals ≠ [] ∧ c.isTautology = false) ∧
      ∀ l, kb.fetch l = kb.clauses.toList.filterMap l.unifyUnit := by
  have reachable := obtainable.reachable
  have filed := reachable.filed
  refine ⟨filed.definites, filed.rules, reachable.perm_filed, kb.clauses.distinct,
    fun c member => ?_, reachable.fetch_eq⟩
  have contentful := reachable.contentful c member
  exact ⟨contentful.nonempty, contentful.noTautology⟩

/-- The knowledge base after a query, or as it was if the query has no outcome. -/
def asking (kb : KnowledgeBase) (fuel : Nat) (query : Sentence) : KnowledgeBase :=
  match kb.ask fuel query with
  | some (_, last) => last
  | none => kb

theorem Obtainable.asking {kb : KnowledgeBase} (obtainable : kb.Obtainable) (fuel : Nat)
    (query : Sentence) : (kb.asking fuel query).Obtainable := by
  rw [KnowledgeBase.asking]
  split
  · next outcome last asked => exact obtainable.ask asked
  · exact obtainable

/-- The knowledge base that chains forward, was told an equality, a fact under a predicate that is
called like the sign of equality, and a rule, and was then asked for a fact that the rule makes. -/
def askedForward : KnowledgeBase :=
  (KnowledgeBase.tellAll { procedure := .forwardChaining } [
    .atom (.equality (.constant "A") (.constant "B")),
    .atom (.predicate "=" [.constant "A", .constant "B"]),
    .implies (.atom (.predicate "=" [.var ⟨"x", none⟩, .var ⟨"y", none⟩]))
      (.atom (.predicate "Same" [.var ⟨"y", none⟩, .var ⟨"x", none⟩]))]).1.asking 2
    (.atom (.predicate "Same" [.constant "B", .constant "A"]))

theorem collections_agree_askedForward :
    askedForward.Obtainable ∧ askedForward.clauses.toList.length = 4 ∧
      askedForward.definites = askedForward.clauses.toList.filter Clause.isDefinite ∧
      askedForward.rules = askedForward.clauses.toList.filter Clause.isRule ∧
      askedForward.facts.filed.Perm (askedForward.clauses.toList.filter Clause.isUnit) ∧
      (askedForward.clauses.toList.map Clause.key).Nodup ∧
      (∀ c ∈ askedForward.clauses.toList, c.literals ≠ [] ∧ c.isTautology = false) ∧
      ∀ l, askedForward.fetch l = askedForward.clauses.toList.filterMap l.unifyUnit := by
  have obtainable : askedForward.Obtainable := ((Obtainable.initial _).tellAll _).asking 2 _
  exact ⟨obtainable, by cbv, obtainable.collections_agree⟩

end KnowledgeBase

end ClausalReasoner
