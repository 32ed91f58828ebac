/-
This file says what a clause has in common with those that it gives way to. Some replacement of
variables makes every literal of a subsuming clause into one of the subsumed clause, and clauses
with one key differ in nothing but the names of their variables, though past the limit on ties the
names need not correspond. Either way every kind of literal in a clause that stands in for another
one is there in the other one, too.

When a set is freed of what its members subsume, the other members stay in their order.
-/

import ClausalReasoner.Proofs.ExactSubsumption
import ClausalReasoner.Proofs.StandIns

namespace ClausalReasoner

namespace Clause

variable {c d : Clause}

/-! ### Keys -/

/-- Clauses with one key have the same literals up to order and names of variables. -/
theorem exists_perm_of_key_eq (same : c.key = d.key) : ∃ number other : Variable → Nat,
    (c.literals.map (Literal.replace (byNumber number))).Perm
      (d.literals.map (Literal.replace (byNumber other))) := by
  rw [key_eq, key_eq] at same
  obtain ⟨number, texts, isTexts, joined⟩ := exists_texts_of_canonicalKey c.literals
  obtain ⟨other, others, isOthers, joinedOthers⟩ := exists_texts_of_canonicalKey d.literals
  obtain ⟨ls, order, rfl⟩ := exists_perm_of_perm_map isTexts
  obtain ⟨ms, orderToo, rfl⟩ := exists_perm_of_perm_map isOthers
  have equal := Literal.map_replace_eq_of_join_eq (joined.symm.trans (same.trans joinedOthers))
  refine ⟨number, other, (order.map _).symm.trans ?_⟩
  rw [equal]
  exact orderToo.map _

/-! ### Kinds of literals -/

/-- Every kind of literal in a clause to which another one gives way is there in the other one. -/
theorem GivesWayTo.exists_kind (gives : c.GivesWayTo d) {l : Literal} (member : l ∈ d.literals) :
    ∃ m ∈ c.literals, m.kind = l.kind := by
  rcases gives with same | subsumes
  · obtain ⟨number, other, perm⟩ := exists_perm_of_key_eq same
    obtain ⟨m, inside, image⟩ := List.mem_map.1 (perm.subset (List.mem_map_of_mem member))
    refine ⟨m, inside, ?_⟩
    rw [← m.kind_replace (byNumber other), image, l.kind_replace]
  · obtain ⟨_, into⟩ := (subsumes_iff.1 subsumes).exists_value
    obtain ⟨m, inside, polarity, image⟩ := into l member
    exact ⟨m, inside, Literal.kind_eq_of_image polarity image⟩

/-- Every kind of literal in a stand-in is there in the clause that it stands in for. -/
theorem HasStandIn.exists_kinds {cs : List Clause} (standIn : c.HasStandIn cs) :
    ∃ d ∈ cs, ∀ l ∈ d.literals, ∃ m ∈ c.literals, m.kind = l.kind := by
  obtain ⟨d, inside, reached⟩ := standIn
  refine ⟨d, inside, ?_⟩
  clear inside
  induction reached with
  | refl => exact fun l member => ⟨l, member, rfl⟩
  | tail _ gives inductionHypothesis =>
    intro l member
    obtain ⟨m, between, kind⟩ := gives.exists_kind member
    obtain ⟨k, inFirst, same⟩ := inductionHypothesis m between
    exact ⟨k, inFirst, same.trans kind⟩

end Clause

/-! ### Taking out of a set -/

namespace ClauseSet

theorem toList_erase (s : ClauseSet) (c : Clause) :
    (s.erase c).toList = s.toList.filter fun member => member.key != c.key :=
  Array.toList_filter

theorem toList_foldl_erase (s : ClauseSet) (cs : List Clause) :
    (cs.foldl erase s).toList = s.toList.filter fun member => member.key ∉ cs.map Clause.key := by
  induction cs generalizing s with
  | nil => simp
  | cons c rest inductionHypothesis =>
    rw [List.foldl_cons, inductionHypothesis, toList_erase, List.filter_filter]
    refine List.filter_congr fun member _ => ?_
    rw [List.map_cons, Bool.eq_iff_iff, Bool.and_eq_true, bne_iff_ne, decide_eq_true_iff,
      decide_eq_true_iff, List.mem_cons, not_or, and_comm]

/-- Members with one key are one member. -/
theorem eq_of_key_eq {s : ClauseSet} {c d : Clause} (here : c ∈ s.toList) (there : d ∈ s.toList)
    (same : c.key = d.key) : c = d :=
  List.inj_on_of_nodup_map s.distinct here there same

end ClauseSet

/-- What is left of a set are the members that no member subsumes, in their order. -/
theorem GivenClause.toList_withoutSubsumed (set : ClauseSet) :
    (withoutSubsumed set).toList =
      set.toList.filter fun c => !set.toList.any fun d => d.subsumes c := by
  rw [withoutSubsumed, ClauseSet.toList_foldl_erase]
  refine List.filter_congr fun c member => ?_
  have listed : c.key ∈ (subsumedClauses set.toList).map Clause.key ↔
      set.toList.any (fun d => d.subsumes c) := by
    rw [List.mem_map]
    constructor
    · rintro ⟨d, subsumed, same⟩
      obtain ⟨inside, byOther⟩ := List.mem_filter.1 subsumed
      rwa [← ClauseSet.eq_of_key_eq inside member same]
    · exact fun byOther => ⟨c, List.mem_filter.2 ⟨member, byOther⟩, rfl⟩
  rw [Bool.eq_iff_iff, decide_eq_true_iff, listed, Bool.not_eq_true', Bool.not_eq_true]

end ClausalReasoner
