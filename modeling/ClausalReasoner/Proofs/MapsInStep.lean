/-
This file keeps the two maps of a queue with an index in step. The index has the rank of every clause
in the ordered map under its key, and nothing else. So a key is queued once, and the number of a
clause, which is the last thing that ranks are compared by, is never looked at. What is taken in and
taken out is taken in and taken out of both maps, whichever clause with the key is asked for.
-/

import ClausalReasoner.ClauseQueue.Indexed
import ClausalReasoner.Proofs.GivenClauseInvariant

namespace ClausalReasoner

/-! ### Orders -/

/-- Under a heuristic a clause comes before another one: it is lighter, or as heavy with a shorter
key, or also the keys are equally long and its key is less. -/
def Heuristic.Precedes (heuristic : Heuristic) (c d : Clause) : Prop :=
  QueuedClause.order ⟨heuristic.weight c, c⟩ ⟨heuristic.weight d, d⟩ = .lt

/-- Lists that are strictly ordered have their members at the same places. -/
theorem eq_of_pairwise_of_mem_iff {Element : Type} {before : Element → Element → Prop}
    (asymmetric : ∀ a b, before a b → ¬ before b a) {list other : List Element}
    (ordered : list.Pairwise before) (orderedOther : other.Pairwise before)
    (same : ∀ a, a ∈ list ↔ a ∈ other) : list = other := by
  have distinct : ∀ {list : List Element}, list.Pairwise before → list.Nodup := by
    refine fun ordered => ordered.imp fun {a b} here equal => ?_
    rw [equal] at here
    exact asymmetric b b here here
  exact List.Perm.eq_of_pairwise (fun a b _ _ here there => absurd there (asymmetric a b here))
    ordered orderedOther
    ((List.perm_ext_iff_of_nodup (distinct ordered) (distinct orderedOther)).2 same)

namespace QueuedClause

instance : Std.TransCmp order :=
  inferInstanceAs (Std.TransCmp (compareLex (compareOn QueuedClause.weight) <|
    compareLex (compareOn fun entry => entry.clause.key.utf8ByteSize) <|
    compareOn fun entry => entry.clause.key))

theorem asymmetric (entry other : QueuedClause) (here : entry.order other = .lt) :
    ¬ other.order entry = .lt := by
  have swapped : other.order entry = (entry.order other).swap := Std.OrientedCmp.eq_swap
  rw [swapped, here]
  exact nofun

/-- Entries that count as equal have the same key. -/
theorem key_eq_of_order {entry other : QueuedClause} (equal : entry.order other = .eq) :
    entry.clause.key = other.clause.key := by
  simp only [order, Ordering.then_eq_eq] at equal
  exact Std.LawfulEqCmp.compare_eq_iff_eq.1 equal.2.2

end QueuedClause

/-- An entry that counts as equal to none is placed in strict order. -/
theorem ClauseQueue.pairwise_place {entry : QueuedClause} {entries : List QueuedClause}
    (ordered : entries.Pairwise fun first second => first.order second = .lt)
    (apart : ∀ other ∈ entries, entry.order other ≠ .eq) :
    (place entry entries).Pairwise fun first second => first.order second = .lt := by
  induction entries with
  | nil => exact List.pairwise_singleton _ _
  | cons first rest inductionHypothesis =>
    obtain ⟨below, later⟩ := List.pairwise_cons.1 ordered
    obtain ⟨here, apartRest⟩ := List.forall_mem_cons.1 apart
    rw [place]
    split
    · next less =>
      exact List.pairwise_cons.2 ⟨List.forall_mem_cons.2
        ⟨less, fun other inside => Std.TransCmp.lt_trans less (below other inside)⟩, ordered⟩
    · next notLess =>
      refine List.pairwise_cons.2 ⟨fun other placed => ?_, inductionHypothesis later apartRest⟩
      rcases mem_place.1 placed with rfl | inside
      · cases order : other.order first with
        | lt => exact absurd order notLess
        | eq => exact absurd order here
        | gt => exact Std.OrientedCmp.gt_iff_lt.1 order
      · exact below other inside

namespace QueueRank

instance : Std.TransCmp order :=
  inferInstanceAs (Std.TransCmp (compareLex (compareOn QueueRank.weight) <|
    compareLex (compareOn QueueRank.length) <|
    compareLex (compareOn QueueRank.key) (compareOn QueueRank.number)))

instance : Std.LawfulEqCmp order where
  eq_of_compare {rank other} equal := by
    simp only [order, compareLex, compareOn, Ordering.then_eq_eq,
      Std.LawfulEqCmp.compare_eq_iff_eq] at equal
    cases rank
    cases other
    simp_all

end QueueRank

/-- Ranks are ordered like the entries, and the number of the clauses decides what is left open. -/
theorem Heuristic.order_rank (heuristic : Heuristic) (c d : NumberedClause) :
    (heuristic.rank c).order (heuristic.rank d) =
      (QueuedClause.order ⟨heuristic.weight c.clause, c.clause⟩
        ⟨heuristic.weight d.clause, d.clause⟩).then (compare c.number d.number) := by
  simp only [QueueRank.order, compareLex, compareOn, rank, QueuedClause.order, Ordering.then_assoc]
  rfl

/-- Of two clauses with different keys the one of the lower rank precedes the other. -/
theorem Heuristic.precedes_of_isLE_rank {heuristic : Heuristic} {c d : NumberedClause}
    (le : ((heuristic.rank c).order (heuristic.rank d)).isLE) (different : d.key ≠ c.key) :
    heuristic.Precedes c.clause d.clause := by
  rw [order_rank] at le
  cases order : QueuedClause.order ⟨heuristic.weight c.clause, c.clause⟩
      ⟨heuristic.weight d.clause, d.clause⟩ with
  | lt => exact order
  | eq => exact absurd (QueuedClause.key_eq_of_order order).symm different
  | gt => rw [order] at le; exact Bool.noConfusion le

namespace IndexedQueue

variable {q : IndexedQueue} {c d : NumberedClause}

/-! ### Two maps in step -/

/-- The map holds every clause at its rank, and the index has under a key the rank with that key at
which a clause is held. -/
structure InStep (q : IndexedQueue) : Prop where
  ranked : ∀ {rank c}, q.queue[rank]? = some c → q.heuristic.rank c = rank
  indexed : ∀ key rank, q.index[key]? = some rank ↔ rank.key = key ∧ rank ∈ q.queue

/-- A clause counts as queued if the index has a rank for its key. -/
theorem contains_eq (q : IndexedQueue) (c : NumberedClause) :
    q.contains c = q.index[c.key]?.isSome :=
  Std.HashMap.contains_eq_isSome_getElem?

namespace InStep

theorem mem_toList (inStep : q.InStep) : c ∈ q.toList ↔ q.queue[q.heuristic.rank c]? = some c := by
  simp only [toList, List.mem_map, Prod.exists, Std.TreeMap.mem_toList_iff_getElem?_eq_some]
  constructor
  · rintro ⟨rank, _, held, rfl⟩
    rwa [inStep.ranked held]
  · exact fun held => ⟨_, _, held, rfl⟩

/-- The index has exactly the ranks of the queued clauses, each under its key. -/
theorem index_eq_some_iff (inStep : q.InStep) {key : String} {rank : QueueRank} :
    q.index[key]? = some rank ↔ ∃ c ∈ q.toList, c.key = key ∧ q.heuristic.rank c = rank := by
  rw [inStep.indexed]
  constructor
  · rintro ⟨rfl, member⟩
    obtain ⟨c, held⟩ := Option.isSome_iff_exists.1 (Std.TreeMap.mem_iff_isSome_getElem?.1 member)
    have isRank := inStep.ranked held
    exact ⟨c, inStep.mem_toList.2 (isRank ▸ held), congrArg QueueRank.key isRank, isRank⟩
  · rintro ⟨c, member, rfl, rfl⟩
    exact ⟨rfl, Std.TreeMap.mem_iff_isSome_getElem?.2
      (Option.isSome_iff_exists.2 ⟨c, inStep.mem_toList.1 member⟩)⟩

/-- Queued clauses with one key are one clause. -/
theorem eq_of_key_eq (inStep : q.InStep) (here : c ∈ q.toList) (there : d ∈ q.toList)
    (same : c.key = d.key) : c = d := by
  have first := inStep.index_eq_some_iff.2 ⟨c, here, same, rfl⟩
  have second := inStep.index_eq_some_iff.2 ⟨d, there, rfl, rfl⟩
  have held := inStep.mem_toList.1 here
  rw [Option.some.inj (first.symm.trans second), inStep.mem_toList.1 there] at held
  exact (Option.some.inj held).symm

theorem contains_iff (inStep : q.InStep) : q.contains c = true ↔ ∃ m ∈ q.toList, m.key = c.key := by
  rw [contains_eq, Option.isSome_iff_exists]
  constructor
  · rintro ⟨rank, found⟩
    obtain ⟨m, member, same, _⟩ := inStep.index_eq_some_iff.1 found
    exact ⟨m, member, same⟩
  · rintro ⟨m, member, same⟩
    exact ⟨_, inStep.index_eq_some_iff.2 ⟨m, member, same, rfl⟩⟩

/-- The clauses are in strict order, and their numbers are not needed for that. -/
theorem pairwise_precedes (inStep : q.InStep) :
    q.toList.Pairwise fun c d => q.heuristic.Precedes c.clause d.clause := by
  rw [toList, List.pairwise_map]
  refine Std.TreeMap.ordered_keys_toList.imp_of_mem fun {a b} here there less => ?_
  have first := Std.TreeMap.mem_toList_iff_getElem?_eq_some.1 here
  have second := Std.TreeMap.mem_toList_iff_getElem?_eq_some.1 there
  rw [← inStep.ranked first, ← inStep.ranked second, Heuristic.order_rank, Ordering.then_eq_lt] at less
  rcases less with less | ⟨equal, numbers⟩
  · exact less
  · have same : a.2 = b.2 := inStep.eq_of_key_eq (List.mem_map_of_mem here)
      (List.mem_map_of_mem there) (QueuedClause.key_eq_of_order equal)
    rw [same] at numbers
    exact absurd numbers (by simp)

theorem nodup_keys (inStep : q.InStep) : (q.toList.map NumberedClause.key).Nodup := by
  rw [List.Nodup, List.pairwise_map]
  refine inStep.pairwise_precedes.imp_of_mem fun {c d} here there less same => ?_
  rw [inStep.eq_of_key_eq here there same] at less
  exact QueuedClause.asymmetric _ _ less less

/-- Lists in the order of the queue are the same if they have the same members. -/
theorem toList_eq (inStep : q.InStep) {list : List NumberedClause}
    (ordered : list.Pairwise fun c d => q.heuristic.Precedes c.clause d.clause)
    (same : ∀ c, c ∈ q.toList ↔ c ∈ list) : q.toList = list :=
  eq_of_pairwise_of_mem_iff (fun _ _ => QueuedClause.asymmetric _ _) inStep.pairwise_precedes
    ordered same

end InStep

/-! ### What is asked of a queue -/

theorem inStep_empty (heuristic : Heuristic) : (empty heuristic).InStep where
  ranked found := by simp [empty] at found
  indexed := by simp [empty]

theorem push_of_contains (present : q.contains c = true) : q.push c = (false, q) :=
  if_pos present

theorem push_of_not_contains (absent : q.contains c = false) :
    q.push c = (true, { q with
      queue := q.queue.insert (q.heuristic.rank c) c
      index := q.index.insert c.key (q.heuristic.rank c) }) :=
  if_neg (by rw [← contains, absent]; exact Bool.false_ne_true)

theorem push_fst (q : IndexedQueue) (c : NumberedClause) : (q.push c).1 = !q.contains c := by
  cases present : q.contains c with
  | true => rw [push_of_contains present]; rfl
  | false => rw [push_of_not_contains present]; rfl

theorem heuristic_push (q : IndexedQueue) (c : NumberedClause) :
    (q.push c).2.heuristic = q.heuristic := by
  unfold push
  split <;> rfl

theorem heuristic_remove (q : IndexedQueue) (c : NumberedClause) :
    (q.remove c).2.heuristic = q.heuristic := by
  unfold remove
  split <;> rfl

namespace InStep

/-- No rank that is taken has the key of a clause that is not queued. -/
theorem key_ne_of_mem (inStep : q.InStep) (absent : q.contains c = false) {rank : QueueRank}
    (member : rank ∈ q.queue) : rank.key ≠ c.key := by
  intro same
  rw [contains_eq, (inStep.indexed c.key rank).2 ⟨same, member⟩] at absent
  exact absurd absent nofun

theorem push (inStep : q.InStep) (c : NumberedClause) : (q.push c).2.InStep := by
  cases present : q.contains c with
  | true => rwa [push_of_contains present]
  | false =>
    rw [push_of_not_contains present]
    constructor
    · intro rank d found
      rw [Std.TreeMap.getElem?_insert] at found
      split at found
      · next equal =>
        rw [← Option.some.inj found]
        exact Std.LawfulEqCmp.compare_eq_iff_eq.1 equal
      · exact inStep.ranked found
    · intro key rank
      rw [Std.HashMap.getElem?_insert, Std.TreeMap.mem_insert, Std.LawfulEqCmp.compare_eq_iff_eq]
      by_cases same : c.key = key
      · subst same
        rw [if_pos (beq_self_eq_true _), Option.some.injEq]
        constructor
        · rintro rfl
          exact ⟨rfl, Or.inl rfl⟩
        · rintro ⟨key, rfl | member⟩
          · rfl
          · exact absurd key (inStep.key_ne_of_mem present member)
      · rw [if_neg (by simpa using same), inStep.indexed]
        constructor
        · exact fun ⟨key, member⟩ => ⟨key, Or.inr member⟩
        · rintro ⟨key, rfl | member⟩
          · exact absurd key same
          · exact ⟨key, member⟩

theorem mem_toList_push (inStep : q.InStep) :
    d ∈ (q.push c).2.toList ↔ d ∈ q.toList ∨ d = c ∧ q.contains c = false := by
  rw [(inStep.push c).mem_toList]
  cases present : q.contains c with
  | true =>
    rw [push_of_contains present, inStep.mem_toList]
    simp
  | false =>
    simp only [push_of_not_contains present, Std.TreeMap.getElem?_insert,
      Std.LawfulEqCmp.compare_eq_iff_eq, inStep.mem_toList]
    split
    · next same =>
      have free : q.queue[q.heuristic.rank d]? = none := by
        rw [← same]
        exact Std.TreeMap.getElem?_eq_none fun member => inStep.key_ne_of_mem present member rfl
      rw [free]
      simp [eq_comm]
    · next different =>
      have other : d ≠ c := fun same => different (same ▸ rfl)
      simp [other]

end InStep

/-- The queue without what is held at the rank of a clause. -/
def without (q : IndexedQueue) (c : NumberedClause) : IndexedQueue :=
  { q with
    queue := q.queue.erase (q.heuristic.rank c)
    index := q.index.erase c.key }

namespace InStep

/-- Taking a queued clause out of both maps keeps them in step. -/
theorem without (inStep : q.InStep) (member : c ∈ q.toList) : (q.without c).InStep := by
  constructor
  · intro rank d found
    rw [IndexedQueue.without, Std.TreeMap.getElem?_erase] at found
    split at found
    · exact absurd found nofun
    · exact inStep.ranked found
  · intro key rank
    rw [IndexedQueue.without, Std.HashMap.getElem?_erase, Std.TreeMap.mem_erase, ne_eq,
      Std.LawfulEqCmp.compare_eq_iff_eq]
    by_cases same : c.key = key
    · rw [if_pos (by simpa using same)]
      refine ⟨nofun, fun ⟨isKey, other, held⟩ => absurd ?_ other⟩
      have first := inStep.index_eq_some_iff.2 ⟨c, member, same, rfl⟩
      exact Option.some.inj (first.symm.trans ((inStep.indexed key rank).2 ⟨isKey, held⟩))
    · rw [if_neg (by simpa using same), inStep.indexed]
      refine ⟨fun ⟨isKey, held⟩ => ⟨isKey, fun equal => same ?_, held⟩,
        fun ⟨isKey, _, held⟩ => ⟨isKey, held⟩⟩
      rw [← isKey, ← equal]
      rfl

/-- All but the clauses with the key are left. -/
theorem mem_toList_without (inStep : q.InStep) (member : c ∈ q.toList) :
    d ∈ (q.without c).toList ↔ d ∈ q.toList ∧ d.key ≠ c.key := by
  rw [(inStep.without member).mem_toList, inStep.mem_toList]
  show (q.queue.erase (q.heuristic.rank c))[q.heuristic.rank d]? = some d ↔ _
  simp only [Std.TreeMap.getElem?_erase, Std.LawfulEqCmp.compare_eq_iff_eq]
  split
  · next same => exact ⟨nofun, fun ⟨_, other⟩ => absurd (congrArg QueueRank.key same).symm other⟩
  · next different =>
    refine ⟨fun held => ⟨held, fun same => different ?_⟩, And.left⟩
    rw [inStep.eq_of_key_eq (inStep.mem_toList.2 held) member same]

theorem toList_without (inStep : q.InStep) (member : c ∈ q.toList) :
    (q.without c).toList = q.toList.filter fun d => d.key ≠ c.key :=
  (inStep.without member).toList_eq (inStep.pairwise_precedes.filter _) fun d => by
    rw [inStep.mem_toList_without member, List.mem_filter, decide_eq_true_iff]

/-- A clause that is not queued leaves the queue as it is, and otherwise the clause with its key is
taken out. -/
theorem remove_eq (inStep : q.InStep) (c : NumberedClause) :
    (q.contains c = false ∧ q.remove c = (false, q)) ∨
      ∃ m ∈ q.toList, m.key = c.key ∧ q.contains c = true ∧ q.remove c = (true, q.without m) := by
  cases found : q.index[c.key]? with
  | none =>
    refine Or.inl ⟨?_, by rw [IndexedQueue.remove, found]⟩
    rw [contains_eq, found]
    rfl
  | some rank =>
    obtain ⟨m, member, same, rfl⟩ := inStep.index_eq_some_iff.1 found
    have held : q.queue.contains (q.heuristic.rank m) = true :=
      Std.TreeMap.mem_iff_contains.1 ((inStep.indexed _ _).1 found).2
    refine Or.inr ⟨m, member, same, inStep.contains_iff.2 ⟨m, member, same⟩, ?_⟩
    rw [IndexedQueue.remove, found]
    simp only [held, IndexedQueue.without, same]

theorem remove (inStep : q.InStep) (c : NumberedClause) : (q.remove c).2.InStep := by
  obtain ⟨_, same⟩ | ⟨m, member, _, _, same⟩ := inStep.remove_eq c
  · rwa [same]
  · rw [same]
    exact inStep.without member

theorem toList_remove (inStep : q.InStep) (c : NumberedClause) :
    (q.remove c).2.toList = q.toList.filter fun d => d.key ≠ c.key := by
  obtain ⟨absent, same⟩ | ⟨m, member, key, _, same⟩ := inStep.remove_eq c
  · rw [same]
    refine (List.filter_eq_self.2 fun d inside => ?_).symm
    rw [decide_eq_true_iff]
    intro equal
    rw [inStep.contains_iff.2 ⟨d, inside, equal⟩] at absent
    exact absurd absent nofun
  · rw [same, inStep.toList_without member, key]

theorem mem_toList_iff_mem_without (inStep : q.InStep) (member : c ∈ q.toList) :
    d ∈ q.toList ↔ d = c ∨ d ∈ (q.without c).toList := by
  rw [inStep.mem_toList_without member]
  constructor
  · intro inside
    by_cases same : d.key = c.key
    · exact Or.inl (inStep.eq_of_key_eq inside member same)
    · exact Or.inr ⟨inside, same⟩
  · rintro (rfl | ⟨inside, _⟩)
    · exact member
    · exact inside

/-- Nothing is taken out where nothing is queued, and otherwise the first clause is. -/
theorem pop_cases (inStep : q.InStep) :
    (q.toList = [] ∧ q.pop = none) ∨
      ∃ c ∈ q.toList, q.pop = some (c, q.without c) ∧ q.toList = c :: (q.without c).toList := by
  cases least : q.queue.minKey? with
  | none =>
    have empty : q.queue.toList = [] := by
      rw [← List.isEmpty_iff, Std.TreeMap.isEmpty_toList]
      exact Std.TreeMap.minKey?_eq_none_iff.1 least
    exact Or.inl ⟨congrArg (List.map Prod.snd) empty, by rw [pop, least]; rfl⟩
  | some rank =>
    obtain ⟨held, below⟩ := Std.TreeMap.minKey?_eq_some_iff_mem_and_forall.1 least
    obtain ⟨c, found⟩ := Option.isSome_iff_exists.1 (Std.TreeMap.mem_iff_isSome_getElem?.1 held)
    obtain rfl := inStep.ranked found
    have member : c ∈ q.toList := inStep.mem_toList.2 found
    refine Or.inr ⟨c, member, ?_, inStep.toList_eq (List.pairwise_cons.2
      ⟨fun d inside => ?_, (inStep.without member).pairwise_precedes⟩) fun d => ?_⟩
    · rw [pop, least, Option.bind_some, found]
      rfl
    · obtain ⟨other, different⟩ := (inStep.mem_toList_without member).1 inside
      refine Heuristic.precedes_of_isLE_rank (below _ ?_) different
      exact Std.TreeMap.mem_iff_isSome_getElem?.2 (by rw [inStep.mem_toList.1 other]; rfl)
    · rw [List.mem_cons]
      exact inStep.mem_toList_iff_mem_without member

end InStep

end IndexedQueue

end ClausalReasoner
