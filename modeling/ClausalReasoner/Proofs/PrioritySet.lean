/-
This file says that a queue with an index is a set of clauses from which the least one is taken, and
that the order in which clauses came in makes no difference. Whatever is asked of the queue, the
sorted list of clauses without an index replies the same.

Under the heuristics that count literals or symbols the weight of a clause follows from its key,
since clauses with one key have the same literals but for the names of variables. Then it is the keys
that are ordered, and which of several clauses with one key came first cannot change the order in
which keys are taken out.
-/

import ClausalReasoner.Proofs.AlikeCollections
import ClausalReasoner.Proofs.MapsInStep
import ClausalReasoner.Proofs.SubsumedClauses

namespace ClausalReasoner

/-! ### Weights and keys -/

/-- A heuristic under which clauses with one key have one weight. -/
def Heuristic.FollowsKey (heuristic : Heuristic) : Prop :=
  ∀ ⦃c d : Clause⦄, c.key = d.key → heuristic.weight c = heuristic.weight d

namespace Heuristic

theorem followsKey_fewestLiterals : fewestLiterals.FollowsKey := by
  intro c d same
  obtain ⟨number, other, perm⟩ := Clause.exists_perm_of_key_eq same
  show c.literals.length = d.literals.length
  simpa using perm.length_eq

theorem followsKey_fewestSymbols : fewestSymbols.FollowsKey := by
  intro c d same
  obtain ⟨number, other, perm⟩ := Clause.exists_perm_of_key_eq same
  have kept : ∀ (number : Variable → Nat) (ls : List Literal),
      (ls.map (Literal.replace (byNumber number))).map Literal.weight =
        ls.map Literal.weight := by
    intro number ls
    rw [List.map_map]
    exact List.map_congr_left fun l _ => l.weight_renamingBy
  have weights := (perm.map Literal.weight).sum_eq
  rw [kept, kept] at weights
  show c.weight = d.weight
  rw [Clause.weight_eq_sum, Clause.weight_eq_sum, weights]

end Heuristic

namespace IndexedQueue

variable {q : IndexedQueue} {c d : NumberedClause}

/-! ### All sequences of requests -/

/-- What is asked of a queue. -/
inductive Request where
  | push (c : NumberedClause)
  | remove (c : NumberedClause)
  | contains (c : NumberedClause)
  | pop
  | size

/-- Do what is asked. -/
def serve (q : IndexedQueue) : Request → Reply × IndexedQueue
  | .push c => (.truth (q.push c).1, (q.push c).2)
  | .remove c => (.truth (q.remove c).1, (q.remove c).2)
  | .contains c => (.truth (q.contains c), q)
  | .pop =>
    match q.pop with
    | some (c, rest) => (.clause (some c.clause), rest)
    | none => (.clause none, q)
  | .size => (.number q.size, q)

/-- The replies to requests, one after the other. -/
def replies (q : IndexedQueue) : List Request → List Reply
  | [] => []
  | request :: rest => (q.serve request).1 :: (q.serve request).2.replies rest

/-- The queue after requests, one after the other. -/
def after (q : IndexedQueue) (requests : List Request) : IndexedQueue :=
  requests.foldl (fun q request => (q.serve request).2) q

/-- The queue after clauses have been pushed, one after the other. -/
def pushAll (q : IndexedQueue) (cs : List NumberedClause) : IndexedQueue :=
  cs.foldl (fun q c => (q.push c).2) q

/-- The keys of the clauses that are taken out when that is tried so many times. -/
def popKeys : Nat → IndexedQueue → List String
  | 0, _ => []
  | count + 1, q =>
    match q.pop with
    | none => []
    | some (c, rest) => c.key :: rest.popKeys count

/-- The request that is made of the queue without an index. -/
def Request.plain : Request → ClauseQueue.Request
  | .push c => .push c.clause
  | .remove c => .erase c.clause
  | .contains c => .contains c.clause
  | .pop => .pop
  | .size => .size

/-- The entry of a clause in the queue without an index. -/
def entry (q : IndexedQueue) (c : NumberedClause) : QueuedClause :=
  ⟨q.heuristic.weight c.clause, c.clause⟩

/-- The sorted list of clauses without an index. -/
def plain (q : IndexedQueue) : ClauseQueue :=
  ⟨q.heuristic, q.toList.map q.entry⟩

theorem plain_eq {r : IndexedQueue} (heuristic : r.heuristic = q.heuristic) :
    r.plain = ⟨q.heuristic, r.toList.map q.entry⟩ := by
  have entries : r.entry = q.entry := by
    funext c
    rw [entry, entry, heuristic]
  rw [plain, heuristic, entries]

namespace InStep

theorem contains_plain (inStep : q.InStep) (c : NumberedClause) :
    q.plain.contains c.clause = q.contains c := by
  rw [Bool.eq_iff_iff, inStep.contains_iff, ClauseQueue.contains_iff, plain, ClauseQueue.toList,
    List.map_map, List.map_map, List.mem_map]
  rfl

theorem push_plain (inStep : q.InStep) (c : NumberedClause) :
    (q.push c).2.plain = q.plain.push c.clause := by
  rw [ClauseQueue.push, inStep.contains_plain]
  cases present : q.contains c with
  | true => rw [push_of_contains present, if_pos rfl]
  | false =>
    rw [if_neg Bool.false_ne_true]
    have entries : (q.push c).2.toList.map q.entry =
        ClauseQueue.place (q.entry c) (q.toList.map q.entry) := by
      refine eq_of_pairwise_of_mem_iff QueuedClause.asymmetric ?_
        (ClauseQueue.pairwise_place (List.pairwise_map.2 inStep.pairwise_precedes) ?_) fun other => ?_
      · have ordered := (inStep.push c).pairwise_precedes
        rw [heuristic_push] at ordered
        exact List.pairwise_map.2 ordered
      · rintro other listed equal
        obtain ⟨d, inside, rfl⟩ := List.mem_map.1 listed
        rw [inStep.contains_iff.2 ⟨d, inside, (QueuedClause.key_eq_of_order equal).symm⟩] at present
        exact Bool.noConfusion present
      · simp only [List.mem_map, ClauseQueue.mem_place, inStep.mem_toList_push, present, and_true]
        constructor
        · rintro ⟨d, inside | rfl, rfl⟩
          · exact Or.inr ⟨d, inside, rfl⟩
          · exact Or.inl rfl
        · rintro (rfl | ⟨d, inside, rfl⟩)
          · exact ⟨c, Or.inr rfl, rfl⟩
          · exact ⟨d, Or.inl inside, rfl⟩
    rw [plain_eq (heuristic_push q c), entries]
    rfl

theorem erase_plain (inStep : q.InStep) (c : NumberedClause) :
    (q.remove c).2.plain = q.plain.erase c.clause := by
  rw [plain_eq (heuristic_remove q c), inStep.toList_remove, ClauseQueue.erase, plain,
    List.filter_map]
  rfl

theorem remove_fst (inStep : q.InStep) (c : NumberedClause) : (q.remove c).1 = q.contains c := by
  obtain ⟨absent, same⟩ | ⟨_, _, _, present, same⟩ := inStep.remove_eq c
  · rw [same, absent]
  · rw [same, present]

theorem size_plain (q : IndexedQueue) : q.plain.size = q.size := by
  rw [ClauseQueue.size, plain, List.length_map, toList, List.length_map, Std.TreeMap.length_toList]
  rfl

/-- One request keeps the maps in step, and the list of clauses is asked with the same outcome. -/
theorem serve (inStep : q.InStep) (request : Request) :
    (q.serve request).2.InStep ∧ (q.plain.serve request.plain).1 = (q.serve request).1 ∧
      (q.plain.serve request.plain).2 = (q.serve request).2.plain := by
  cases request with
  | push c =>
    refine ⟨inStep.push c, ?_, (inStep.push_plain c).symm⟩
    show Reply.truth (!q.plain.contains c.clause) = .truth (q.push c).1
    rw [inStep.contains_plain, push_fst]
  | remove c =>
    refine ⟨inStep.remove c, ?_, (inStep.erase_plain c).symm⟩
    show Reply.truth (q.plain.contains c.clause) = .truth (q.remove c).1
    rw [inStep.contains_plain, inStep.remove_fst]
  | contains c =>
    refine ⟨inStep, ?_, rfl⟩
    show Reply.truth (q.plain.contains c.clause) = .truth (q.contains c)
    rw [inStep.contains_plain]
  | pop =>
    rw [IndexedQueue.serve, Request.plain, ClauseQueue.serve, ClauseQueue.pop]
    obtain ⟨empty, nothing⟩ | ⟨c, member, taken, listed⟩ := inStep.pop_cases
    · rw [nothing, show q.plain.entries = [] from congrArg (List.map q.entry) empty]
      exact ⟨inStep, rfl, rfl⟩
    · rw [taken, show q.plain.entries = _ from congrArg (List.map q.entry) listed]
      exact ⟨inStep.without member, rfl, rfl⟩
  | size => exact ⟨inStep, congrArg Reply.number (size_plain q), rfl⟩

theorem after (inStep : q.InStep) (requests : List Request) : (q.after requests).InStep := by
  induction requests generalizing q with
  | nil => exact inStep
  | cons request rest inductionHypothesis => exact inductionHypothesis (inStep.serve request).1

theorem replies_eq (inStep : q.InStep) (requests : List Request) :
    q.plain.replies (requests.map Request.plain) = q.replies requests := by
  induction requests generalizing q with
  | nil => rfl
  | cons request rest inductionHypothesis =>
    obtain ⟨still, reply, plain⟩ := inStep.serve request
    rw [List.map_cons, ClauseQueue.replies, IndexedQueue.replies, reply, plain,
      inductionHypothesis still]

end InStep

/-! ### The order of insertion -/

namespace InStep

/-- What is queued after clauses were pushed has the keys that were there and those of the clauses. -/
theorem pushAll (inStep : q.InStep) (cs : List NumberedClause) :
    (q.pushAll cs).InStep ∧ (q.pushAll cs).heuristic = q.heuristic ∧
      ∀ key, (∃ c ∈ (q.pushAll cs).toList, c.key = key) ↔
        (∃ c ∈ q.toList, c.key = key) ∨ ∃ c ∈ cs, c.key = key := by
  induction cs generalizing q with
  | nil => exact ⟨inStep, rfl, by simp [IndexedQueue.pushAll]⟩
  | cons first rest inductionHypothesis =>
    obtain ⟨still, heuristic, keys⟩ := inductionHypothesis (inStep.push first)
    refine ⟨still, heuristic.trans (heuristic_push q first), fun key => (keys key).trans ?_⟩
    have pushed : (∃ c ∈ (q.push first).2.toList, c.key = key) ↔
        (∃ c ∈ q.toList, c.key = key) ∨ first.key = key := by
      simp only [inStep.mem_toList_push]
      constructor
      · rintro ⟨c, inside | ⟨rfl, _⟩, same⟩
        · exact Or.inl ⟨c, inside, same⟩
        · exact Or.inr same
      · rintro (⟨c, inside, same⟩ | same)
        · exact ⟨c, Or.inl inside, same⟩
        · cases present : q.contains first with
          | true =>
            obtain ⟨m, inside, equal⟩ := inStep.contains_iff.1 present
            exact ⟨m, Or.inl inside, equal.trans same⟩
          | false => exact ⟨first, Or.inr ⟨rfl, rfl⟩, same⟩
    rw [pushed, or_assoc]
    simp

/-- Queues under one heuristic with the same keys have them in the same order. -/
theorem map_key_eq (inStep : q.InStep) {r : IndexedQueue} (inStepOther : r.InStep)
    (heuristic : r.heuristic = q.heuristic) (follows : q.heuristic.FollowsKey)
    (same : ∀ key, (∃ c ∈ q.toList, c.key = key) ↔ ∃ c ∈ r.toList, c.key = key) :
    q.toList.map NumberedClause.key = r.toList.map NumberedClause.key := by
  -- Keys are ordered, since the weight of a clause follows from its key.
  let before : String → String → Prop := fun key other =>
    ∃ c d : Clause, c.key = key ∧ d.key = other ∧ q.heuristic.Precedes c d
  have asymmetric : ∀ key other, before key other → ¬ before other key := by
    rintro key other ⟨c, d, rfl, rfl, less⟩ ⟨d', c', sameD, sameC, greater⟩
    refine QueuedClause.asymmetric _ _ less ?_
    rw [Heuristic.Precedes, QueuedClause.order, sameC, sameD, follows sameC,
      follows sameD] at greater
    exact greater
  refine eq_of_pairwise_of_mem_iff asymmetric ?_ ?_ fun key => ?_
  · exact List.pairwise_map.2 (inStep.pairwise_precedes.imp fun less => ⟨_, _, rfl, rfl, less⟩)
  · exact List.pairwise_map.2 (inStepOther.pairwise_precedes.imp fun less =>
      ⟨_, _, rfl, rfl, heuristic ▸ less⟩)
  · rw [List.mem_map, List.mem_map]
    exact same key

/-- The keys are taken out in the order of the queue. -/
theorem popKeys_eq (inStep : q.InStep) (count : Nat) :
    popKeys count q = (q.toList.map NumberedClause.key).take count := by
  induction count generalizing q with
  | zero => rfl
  | succ count inductionHypothesis =>
    rw [popKeys]
    obtain ⟨empty, nothing⟩ | ⟨c, member, taken, listed⟩ := inStep.pop_cases
    · rw [nothing, empty]
      rfl
    · rw [taken, listed]
      exact congrArg (c.key :: ·) (inductionHypothesis (inStep.without member))

end InStep

/-! ### The queue as a set -/

/-- How a queue behaves as a set of clauses of which the least one is taken out. -/
structure IsPrioritySet (q : IndexedQueue) : Prop where
  /-- The index has the rank of each clause in the map under its key, and nothing else. -/
  index : ∀ key rank, q.index[key]? = some rank ↔
    ∃ c ∈ q.toList, c.key = key ∧ q.heuristic.rank c = rank
  distinct : (q.toList.map NumberedClause.key).Nodup
  ordered : q.toList.Pairwise fun c d => q.heuristic.Precedes c.clause d.clause
  contains : ∀ c, q.contains c = true ↔ c.key ∈ q.toList.map NumberedClause.key
  push : ∀ c, (q.push c).1 = !q.contains c ∧
    ∀ d, d ∈ (q.push c).2.toList ↔ d ∈ q.toList ∨ d = c ∧ q.contains c = false
  remove : ∀ c, (q.remove c).1 = q.contains c ∧
    (q.remove c).2.toList = q.toList.filter fun d => d.key ≠ c.key
  pop : (q.toList = [] ∧ q.pop = none) ∨
    ∃ c rest, q.pop = some (c, rest) ∧ q.toList = c :: rest.toList ∧
      ∀ d ∈ rest.toList, q.heuristic.Precedes c.clause d.clause

theorem InStep.isPrioritySet (inStep : q.InStep) : q.IsPrioritySet where
  index _ _ := inStep.index_eq_some_iff
  distinct := inStep.nodup_keys
  ordered := inStep.pairwise_precedes
  contains _ := inStep.contains_iff.trans List.mem_map.symm
  push c := ⟨push_fst q c, fun _ => inStep.mem_toList_push⟩
  remove c := ⟨inStep.remove_fst c, inStep.toList_remove c⟩
  pop := by
    obtain empty | ⟨c, _, taken, listed⟩ := inStep.pop_cases
    · exact Or.inl empty
    · have ordered := inStep.pairwise_precedes
      rw [listed] at ordered
      exact Or.inr ⟨c, q.without c, taken, listed, (List.pairwise_cons.1 ordered).1⟩

/-- **The queue is a set of clauses of which the least one is taken out.** Under any heuristic,
whatever was asked of a queue that was empty at first, the index and the ordered map hold the same
clauses, every key once. A clause counts as queued, is taken in and is taken out by its key, and the
clause that is taken from the queue is the least one by weight, length of the key and key. The sorted
list of clauses without an index replies the same. Under a heuristic by which the weight follows from
the key, as the number of literals and the number of symbols do, two queues into which the same
clauses were pushed in any two orders give up the same keys one after the other. -/
theorem prioritySet :
    (∀ (heuristic : Heuristic) requests, ((empty heuristic).after requests).IsPrioritySet ∧
      ClauseQueue.replies { heuristic } (requests.map Request.plain) =
        (empty heuristic).replies requests) ∧
    Heuristic.fewestLiterals.FollowsKey ∧ Heuristic.fewestSymbols.FollowsKey ∧
    ∀ heuristic : Heuristic, heuristic.FollowsKey →
      ∀ cs ds : List NumberedClause, cs.Perm ds → ∀ count,
        popKeys count ((empty heuristic).pushAll cs) =
          popKeys count ((empty heuristic).pushAll ds) := by
  refine ⟨fun heuristic requests => ?_, Heuristic.followsKey_fewestLiterals,
    Heuristic.followsKey_fewestSymbols, fun heuristic follows cs ds perm count => ?_⟩
  · have inStep := inStep_empty heuristic
    have plain : (empty heuristic).plain = { heuristic } := rfl
    exact ⟨(inStep.after requests).isPrioritySet, plain ▸ inStep.replies_eq requests⟩
  · have inStep := inStep_empty heuristic
    obtain ⟨first, heuristicFirst, keys⟩ := inStep.pushAll cs
    obtain ⟨second, heuristicSecond, keysSecond⟩ := inStep.pushAll ds
    rw [first.popKeys_eq, second.popKeys_eq]
    refine congrArg (List.take count) (first.map_key_eq second
      (heuristicSecond.trans heuristicFirst.symm) (heuristicFirst ▸ follows) fun key => ?_)
    rw [keys, keysSecond]
    simp only [perm.mem_iff]

/-- `P(x)`, `P(y)` and `~Q()`, numbered from zero. -/
def twoVariants : List NumberedClause :=
  [⟨0, .ofLiterals [.positive (.predicate "P" [.var ⟨"x", none⟩])]⟩,
    ⟨1, .ofLiterals [.positive (.predicate "P" [.var ⟨"y", none⟩])]⟩,
    ⟨2, .ofLiterals [.negative (.predicate "Q" [])]⟩]

/-- Whichever of the first two clauses comes first, the other one is not taken in, and the keys are
taken out in the same order. -/
theorem prioritySet_twoVariants :
    twoVariants.Perm twoVariants.reverse ∧ ∀ count,
      popKeys count ((empty .fewestSymbols).pushAll twoVariants) =
        popKeys count ((empty .fewestSymbols).pushAll twoVariants.reverse) :=
  ⟨(List.reverse_perm _).symm,
    prioritySet.2.2.2 _ Heuristic.followsKey_fewestSymbols _ _ (List.reverse_perm _).symm⟩

end IndexedQueue

end ClausalReasoner
