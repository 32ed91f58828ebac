/-
This file holds sets of clauses in which every key occurs once. The members keep the order in which
they came in, and of two clauses with one key the earlier one stays. The keys are kept beside the
members so that membership is decided without going through them.
-/

import ClausalReasoner.Clause
import Std.Data.HashSet.Lemmas

namespace ClausalReasoner

/-- A set of clauses, in order of insertion, with pairwise different keys. -/
structure ClauseSet where
  members : Array Clause
  keys : Std.HashSet String
  /-- The kept keys are those of the members. -/
  mem_keys : ∀ key, key ∈ keys ↔ key ∈ members.toList.map Clause.key
  /-- No key occurs twice. -/
  distinct : (members.toList.map Clause.key).Nodup

namespace ClauseSet

/-- The set without members. -/
def empty : ClauseSet where
  members := #[]
  keys := ∅
  mem_keys := by simp
  distinct := by simp

instance : EmptyCollection ClauseSet := ⟨empty⟩
instance : Inhabited ClauseSet := ⟨empty⟩

/-- The members in order of insertion. -/
def toList (s : ClauseSet) : List Clause :=
  s.members.toList

/-- The number of members. -/
def size (s : ClauseSet) : Nat :=
  s.members.size

/-- Whether there is no member. -/
def isEmpty (s : ClauseSet) : Bool :=
  s.members.isEmpty

/-- The member at a place, counted from zero. -/
def get? (s : ClauseSet) (place : Nat) : Option Clause :=
  s.members[place]?

/-- Whether a member has the key of a clause. -/
def contains (s : ClauseSet) (c : Clause) : Bool :=
  s.keys.contains c.key

theorem contains_iff {s : ClauseSet} {c : Clause} :
    s.contains c = true ↔ ∃ member ∈ s.toList, member.key = c.key := by
  unfold contains
  rw [← Std.HashSet.mem_iff_contains, s.mem_keys, List.mem_map]
  rfl

/-- Put a clause at the end, unless a member has its key. -/
def insert (s : ClauseSet) (c : Clause) : ClauseSet :=
  if fresh : s.contains c then s
  else
    { members := s.members.push c
      keys := s.keys.insert c.key
      mem_keys := by
        intro key
        simp only [Std.HashSet.mem_insert, s.mem_keys, Array.toList_push, List.map_append,
          List.mem_append, List.map_cons, List.map_nil, List.mem_singleton, beq_iff_eq]
        constructor
        · rintro (same | member)
          · exact Or.inr same.symm
          · exact Or.inl member
        · rintro (member | same)
          · exact Or.inr member
          · exact Or.inl same.symm
      distinct := by
        simp only [Array.toList_push, List.map_append, List.map_cons, List.map_nil]
        rw [List.nodup_append]
        refine ⟨s.distinct, by simp, ?_⟩
        intro key member other singleton same
        rw [List.mem_singleton] at singleton
        subst same
        subst singleton
        exact fresh (contains_iff.2 (List.mem_map.1 member)) }

/-- Take out the member that has the key of a clause. -/
def erase (s : ClauseSet) (c : Clause) : ClauseSet where
  members := s.members.filter fun member => member.key != c.key
  keys := s.keys.erase c.key
  mem_keys := by
    intro key
    simp only [Std.HashSet.mem_erase, s.mem_keys, Array.toList_filter, List.mem_map,
      List.mem_filter, bne_iff_ne, beq_eq_false_iff_ne]
    constructor
    · rintro ⟨different, member, present, same⟩
      exact ⟨member, ⟨present, by rw [same]; exact different.symm⟩, same⟩
    · rintro ⟨member, ⟨present, different⟩, same⟩
      exact ⟨by rw [← same]; exact different.symm, member, present, same⟩
  distinct := by
    rw [Array.toList_filter]
    exact s.distinct.sublist (List.filter_sublist.map _)

/-- The set of the clauses of a list. -/
def ofList (cs : List Clause) : ClauseSet :=
  cs.foldl insert ∅

/-- Put the clauses of a list in, one after the other. -/
def insertAll (s : ClauseSet) (cs : List Clause) : ClauseSet :=
  cs.foldl insert s

end ClauseSet

end ClausalReasoner
