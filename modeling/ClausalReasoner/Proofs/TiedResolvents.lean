/-
This file shows that the given clause procedure can lose a resolvent. What is inferred from a given
clause is collected up to the key, and tautologies are dropped only afterwards. Past the limit on
ties a clause may have the key of a tautology without being one, and if the tautology is inferred
first, the other clause is never looked at.

This happens with clauses that speak about the edges of graphs. The edges of a ring of five, and
their reverses under a negation, get the key that a ring of three next to a pair of opposite edges
gets; the latter make a tautology, since each edge of the pair is the reverse of the other. The two
graphs are told one after the other, and resolving away the literal that both clauses share with the
goal leaves the edges.
-/

import ClausalReasoner.Proofs.ExhaustedSearch
import ClausalReasoner.Proofs.MergedLiterals
import ClausalReasoner.Proofs.SubsumedClauses
import ClausalReasoner.Proofs.UsableClosure

namespace ClausalReasoner

/-! ### Sets in order -/

namespace ClauseSet

/-- Putting clauses in adds some of them at the end, in their order. -/
theorem exists_toList_insertAll (s : ClauseSet) (cs : List Clause) :
    ∃ new, (s.insertAll cs).toList = s.toList ++ new ∧ new.Sublist cs := by
  induction cs generalizing s with
  | nil => exact ⟨[], (List.append_nil _).symm, .slnil⟩
  | cons c rest inductionHypothesis =>
    obtain ⟨new, added, inOrder⟩ := inductionHypothesis (s.insert c)
    cases fresh : s.contains c with
    | true =>
      rw [insert, dif_pos fresh] at added
      refine ⟨new, ?_, inOrder.cons c⟩
      rw [insertAll, List.foldl_cons, insert, dif_pos fresh]
      exact added
    | false =>
      rw [toList_insert fresh, List.append_assoc] at added
      exact ⟨c :: new, added, inOrder.cons_cons c⟩

/-- The set of the clauses of a list begins with the first of them. -/
theorem exists_toList_ofList (c : Clause) (cs : List Clause) :
    ∃ new, (ofList (c :: cs)).toList = c :: new ∧ new.Sublist cs := by
  obtain ⟨new, added, inOrder⟩ := ((∅ : ClauseSet).insert c).exists_toList_insertAll cs
  have fresh : (∅ : ClauseSet).contains c = false := by
    refine Bool.eq_false_iff.2 fun known => ?_
    obtain ⟨d, none, _⟩ := contains_iff.1 known
    exact absurd none List.not_mem_nil
  rw [toList_insert fresh] at added
  exact ⟨new, added, inOrder⟩

end ClauseSet

/-! ### Merged literals -/

namespace Literal.MergeInto

variable {ls ls' ms : List Literal}

/-- What merges literals of a variant merges literals of the list itself. -/
theorem of_areVariants (merged : MergeInto ls' ms) (variants : AreVariants ls ls') :
    MergeInto ls ms := by
  obtain ⟨forward, back, rfl, undone⟩ := variants
  obtain ⟨value, images, l', here, k', there, different, polarity, equal⟩ := merged
  obtain ⟨l, member, rfl⟩ := List.mem_map.1 here
  obtain ⟨k, memberToo, rfl⟩ := List.mem_map.1 there
  refine ⟨fun v => (forward v).replace value, fun m => ?_, l, member, k, memberToo,
    fun same => different (same ▸ rfl), polarity, ?_⟩
  · rw [images, List.map_map]
    exact iff_of_eq (congrArg _ (List.map_congr_left fun n _ => n.replace_replace forward value))
  · rw [← Atom.replace_replace, ← Atom.replace_replace]
    exact equal

/-- Merging makes a list shorter. -/
theorem length_lt (merged : MergeInto ls ms) (plain : ∀ l ∈ ls, l.reduced = false)
    (distinct : ms.Nodup) : ms.length < ls.length := by
  obtain ⟨value, images, l, here, k, there, different, polarity, equal⟩ := merged
  have same : l.replace value = k.replace value := by
    rw [replace, replace, equal, polarity, plain l here, plain k there]
  have among : ms ⊆ (ls.erase l).map (replace value) := by
    intro m inside
    obtain ⟨source, member, rfl⟩ := List.mem_map.1 ((images m).1 inside)
    by_cases isFirst : source = l
    · rw [isFirst, same]
      exact List.mem_map_of_mem ((List.mem_erase_of_ne different.symm).2 there)
    · exact List.mem_map_of_mem ((List.mem_erase_of_ne isFirst).2 member)
  have le : ms.length ≤ ((ls.erase l).map (replace value)).length :=
    (List.subperm_of_subset distinct among).length_le
  have nonempty : 0 < ls.length := List.length_pos_of_mem here
  rw [List.length_map, List.length_erase_of_mem here] at le
  omega

end Literal.MergeInto

namespace Clause

variable {c d : Clause}

theorem size_eq_of_key_eq (same : c.key = d.key) : c.size = d.size := by
  obtain ⟨_, _, perm⟩ := exists_perm_of_key_eq same
  simpa [size] using perm.length_eq

theorem CopyOf.size_eq (isCopy : c.CopyOf d) : c.size = d.size :=
  size_eq_of_key_eq isCopy.key_eq

end Clause

namespace GivenClause

variable {options : GivenClauseOptions}

/-! ### Tautologies are dropped -/

/-- Working through tautologies changes nothing. -/
theorem process_of_tautologies (noDemodulators : options.demodulators = []) {cs : List Clause}
    (tautologies : ∀ c ∈ cs, c.isTautology) (state : State) : process options cs state = state := by
  induction cs with
  | nil => rfl
  | cons c rest inductionHypothesis =>
    obtain ⟨first, later⟩ := List.forall_mem_cons.1 tautologies
    have examined : examine options state c = (none, state) := by
      rw [examine, noDemodulators]
      simp [Session.simplify, first]
    rw [process, examined]
    exact inductionHypothesis later

/-- If a clause has a resolvent with the first of some others that has a certain key, and everything
that is found there has a property, then of the other resolvents those with the key are not
inferred. -/
theorem forall_mem_infer (noParamodulation : options.paramodulation = false) {c first : Clause}
    {rest : List Clause} {key : String} {holds : Clause → Prop}
    (found : ∀ session : Session, key ∈ (session.resolvents c first).1.map Clause.key ∧
      ∀ r ∈ (session.resolvents c first).1, holds r)
    (others : ∀ d ∈ rest, ∀ session : Session, ∀ r ∈ (session.resolvents c d).1,
      holds r ∨ r.key = key) (session : Session) :
    ∀ r ∈ (infer options session c (first :: rest)).1, holds r := by
  have pair : ∀ (found : ClauseSet × Session) (d : Clause),
      inferPair options.paramodulation c found d =
        (found.1.insertAll (found.2.resolvents c d).1, (found.2.resolvents c d).2) := by
    intro found d
    rw [inferPair, noParamodulation]
    rfl
  let keeps : ClauseSet × Session → Prop := fun found =>
    key ∈ found.1.toList.map Clause.key ∧ ∀ r ∈ found.1.toList, holds r
  have start : keeps (inferPair options.paramodulation c (∅, session) first) := by
    rw [pair]
    obtain ⟨hasKey, all⟩ := found session
    obtain ⟨r, member, same⟩ := List.mem_map.1 hasKey
    obtain ⟨kept, inside, sameKey⟩ := (∅ : ClauseSet).exists_key_insertAll member
    exact ⟨List.mem_map.2 ⟨kept, inside, sameKey.trans same⟩, fun r inside =>
      all r ((ClauseSet.mem_of_mem_insertAll inside).resolve_left List.not_mem_nil)⟩
  refine (foldl_invariant keeps (fun found d member kept => ?_) start).2
  rw [pair]
  refine foldl_invariant (fun set : ClauseSet =>
    key ∈ set.toList.map Clause.key ∧ ∀ r ∈ set.toList, holds r) (fun set r new kept => ?_) kept
  refine ⟨List.map_subset _ (set.subset_insert r) kept.1, fun s inside => ?_⟩
  cases fresh : set.contains r with
  | true =>
    rw [ClauseSet.insert, dif_pos fresh] at inside
    exact kept.2 s inside
  | false =>
    rw [ClauseSet.toList_insert fresh] at inside
    rcases List.mem_append.1 inside with old | isNew
    · exact kept.2 s old
    · rw [List.mem_singleton.1 isNew]
      refine (others d member found.2 r new).resolve_right fun same => ?_
      rw [ClauseSet.contains_iff.2 (List.mem_map.1 (same ▸ kept.1))] at fresh
      exact absurd fresh.symm Bool.false_ne_true

/-- **A resolvent behind the key of a tautology is lost.** If all resolvents of a clause without
variables and the first of some others are tautologies, and one of them has a certain key, then
nothing but tautologies is inferred when all other resolvents are tautologies or have that key. -/
theorem isTautology_of_mem_infer (noParamodulation : options.paramodulation = false)
    {c first : Clause} {rest : List Clause} {key : String}
    (below : ∀ bound, c.VariablesBelow bound) (nonempty : c.isEmpty = false)
    (plain : c.Plain ∧ first.Plain) (shared : ∃ r : Clause, r.IsResolvent c first ∧ r.key = key)
    (tautologies : ∀ r : Clause, r.IsResolvent c first → r.isTautology)
    (others : ∀ d ∈ rest, ∀ r : Clause, r.IsResolvent c d → r.isTautology ∨ r.key = key)
    (session : Session) : ∀ r ∈ (infer options session c (first :: rest)).1, r.isTautology := by
  have isResolvent : ∀ (session : Session) (d r : Clause), r ∈ (session.resolvents c d).1 →
      ∃ s : Clause, s.IsResolvent c d ∧ r.CopyOf s := fun session d r member =>
    session.exists_resolvent_of_mem (below _) (by rw [nonempty, Bool.false_and]) member
  have first : ∀ session : Session, key ∈ (session.resolvents c first).1.map Clause.key ∧
      ∀ r ∈ (session.resolvents c first).1, r.isTautology := by
    intro session
    obtain ⟨r, resolvent, same⟩ := shared
    refine ⟨same ▸ (session.keyed_resolvents (below _) plain.1 plain.2).2 r resolvent,
      fun r member => ?_⟩
    obtain ⟨s, resolvent, isCopy⟩ := isResolvent session first r member
    exact Clause.isTautology_of_covers isCopy.covers.1 (tautologies s resolvent)
  have later : ∀ d ∈ rest, ∀ session : Session, ∀ r ∈ (session.resolvents c d).1,
      r.isTautology ∨ r.key = key := by
    intro d inside session r member
    obtain ⟨s, resolvent, isCopy⟩ := isResolvent session d r member
    exact (others d inside s resolvent).imp (Clause.isTautology_of_covers isCopy.covers.1)
      isCopy.key_eq.trans
  exact forall_mem_infer noParamodulation first later session

/-! ### The start of a run -/

/-- The usable clauses at the start are the factors that no other one subsumes. -/
theorem usable_start (noParamodulation : options.paramodulation = false) (refutation : Refutation) :
    (start options refutation).usable = withoutSubsumed (ClauseSet.ofList
      (refutation.session.factorsApart refutation.kb.clauses.toList).1) := by
  simp only [start, initialUsable, noParamodulation, Bool.false_eq_true, if_false]

theorem factors_of_unit (session : Session) {c : Clause} {l : Literal} (unit : c.literals = [l]) :
    (session.factors c).1 = [c] := by
  obtain ⟨merged, factors, merges⟩ := session.exists_factors_eq_cons c
  rw [factors, List.cons.injEq, List.eq_nil_iff_forall_not_mem]
  refine ⟨rfl, fun f member => ?_⟩
  obtain ⟨_, _, k, here, m, there, different, _⟩ := merges f member
  rw [unit, List.mem_singleton] at here there
  exact different (here.trans there.symm)

/-- If the negated query is a single unit clause, then this is the first and only given clause. -/
theorem exists_pop_start {refutation : Refutation} {g : Clause} {l : Literal}
    (goals : refutation.goals = [g]) (unit : g.literals = [l]) :
    ∃ rest, (start options refutation).support.pop = some (g, rest) ∧ rest.pop = none := by
  let usable := initialUsable options refutation.session refutation.kb.clauses.toList
  have supported : (withoutSubsumed (initialSupport usable.2 refutation.goals).1).toList = [g] := by
    have single : (initialSupport usable.2 refutation.goals).1 = ClauseSet.ofList [g] := by
      rw [goals]
      show ClauseSet.ofList [(usable.2.factors g).1].flatten = _
      rw [factors_of_unit usable.2 unit]
      rfl
    obtain ⟨new, members, inOrder⟩ := ClauseSet.exists_toList_ofList g []
    rw [toList_withoutSubsumed, single, members, List.sublist_nil.1 inOrder]
    simp [Clause.not_subsumes_self]
  refine ⟨{ heuristic := options.heuristic }, ?_, rfl⟩
  show ClauseQueue.pop ((withoutSubsumed (initialSupport usable.2 refutation.goals).1).toList.foldl
    ClauseQueue.push { heuristic := options.heuristic }) = _
  rw [supported]
  rfl

/-- If the negated query is a single unit clause and what follows from it and the usable clauses are
tautologies, then the search ends when it was given, and nothing else was done. -/
theorem exists_run_of_tautologies (noDemodulators : options.demodulators = [])
    {refutation : Refutation} {g : Clause} {l : Literal} (goals : refutation.goals = [g])
    (unit : g.literals = [l]) (isOpen : refutation.book.isClosed = false)
    (tautologies : ∀ session : Session, ∀ r ∈ (infer options session g
      ((start options refutation).usable.insert g).toList).1, r.isTautology) (fuel : Nat) :
    ∃ last, run options (fuel + 2) (start options refutation) = some last ∧
      last.book = refutation.book ∧ last.usable = (start options refutation).usable.insert g ∧
      ∃ step ∈ givenSteps options (fuel + 2) (start options refutation), step.given = g := by
  obtain ⟨rest, popped, empty⟩ : ∃ rest,
      (start options refutation).support.pop = some (g, rest) ∧ rest.pop = none :=
    exists_pop_start goals unit
  have openStart : (start options refutation).book.isClosed = false := isOpen
  let last : State := ⟨refutation.book, (infer options (start options refutation).session g
    ((start options refutation).usable.insert g).toList).2,
    (start options refutation).usable.insert g, rest⟩
  have given : (start options refutation).afterGiven options g rest = last :=
    process_of_tautologies noDemodulators (tautologies _) _
  refine ⟨last, ?_, rfl, rfl, ?_⟩
  · rw [run_succ, openStart, if_neg Bool.false_ne_true, popped]
    dsimp only
    rw [given, run_succ, isOpen, if_neg Bool.false_ne_true, empty]
  · rw [givenSteps, openStart, if_neg Bool.false_ne_true, popped]
    exact ⟨_, List.mem_cons_self, rfl⟩

/-! ### Two stored clauses -/

section

variable {c d : Clause}

/-- The factors of two clauses begin with copies of them, and in all others literals are merged. -/
theorem exists_factorsApart_pair (session : Session) (c d : Clause) :
    ∃ c' d' : Clause, c'.CopyOf c ∧ d'.CopyOf d ∧ ∃ merged mergedToo : List Clause,
      (session.factorsApart [c, d]).1 = c' :: (merged ++ d' :: mergedToo) ∧
        (∀ f ∈ merged, Literal.MergeInto c'.literals f.literals) ∧
        ∀ f ∈ mergedToo, Literal.MergeInto d'.literals f.literals := by
  obtain ⟨isCopy, _⟩ := session.copyOf_standardizeApart c
  obtain ⟨merged, factors, merges⟩ :=
    (session.standardizeApart c).2.exists_factors_eq_cons (session.standardizeApart c).1
  let between := ((session.standardizeApart c).2.factors (session.standardizeApart c).1).2
  obtain ⟨isCopyToo, _⟩ := between.copyOf_standardizeApart d
  obtain ⟨mergedToo, factorsToo, mergesToo⟩ :=
    (between.standardizeApart d).2.exists_factors_eq_cons (between.standardizeApart d).1
  refine ⟨_, _, isCopy, isCopyToo, merged, mergedToo, ?_, merges, mergesToo⟩
  show [((session.standardizeApart c).2.factors (session.standardizeApart c).1).1,
    ((between.standardizeApart d).2.factors (between.standardizeApart d).1).1].flatten = _
  rw [factors, factorsToo]
  simp

/-- Two stored clauses of one size, which their proper factors do not subsume, are usable from the
start in fresh variables, and the first of them comes first. All others are proper factors. -/
theorem exists_usable_start (noParamodulation : options.paramodulation = false)
    {refutation : Refutation} (stored : refutation.kb.clauses.toList = [c, d])
    (plain : c.Plain ∧ d.Plain) (size : c.size = d.size) (keys : c.key ≠ d.key)
    (merging : ∀ f : Clause,
      Literal.MergeInto c.literals f.literals ∨ Literal.MergeInto d.literals f.literals →
        ∀ e : Clause, e.CopyOf c ∨ e.CopyOf d → ¬f.subsumes e) :
    ∃ c' d' : Clause, c'.CopyOf c ∧ d'.CopyOf d ∧ ∃ rest,
      (start options refutation).usable.toList = c' :: rest ∧ d' ∈ rest ∧
        ∀ f ∈ rest, f = d' ∨ Literal.MergeInto c.literals f.literals ∨
          Literal.MergeInto d.literals f.literals := by
  obtain ⟨c', d', isCopy, isCopyToo, merged, mergedToo, factors, merges, mergesToo⟩ :=
    exists_factorsApart_pair refutation.session c d
  obtain ⟨new, listed, inOrder⟩ := ClauseSet.exists_toList_ofList c' (merged ++ d' :: mergedToo)
  have usable : (start options refutation).usable.toList =
      (c' :: new).filter fun e => !(c' :: new).any fun f => f.subsumes e := by
    rw [usable_start noParamodulation, stored, factors, toList_withoutSubsumed, listed]
  have others : ∀ f ∈ new, f = d' ∨ Literal.MergeInto c.literals f.literals ∨
      Literal.MergeInto d.literals f.literals := by
    intro f member
    rcases List.mem_append.1 (inOrder.subset member) with here | there
    · exact Or.inr (Or.inl ((merges f here).of_areVariants isCopy))
    · exact (List.mem_cons.1 there).imp_right fun later =>
        Or.inr ((mergesToo f later).of_areVariants isCopyToo)
  have smaller : ∀ f : Clause, Literal.MergeInto c.literals f.literals ∨
      Literal.MergeInto d.literals f.literals → f.size < d.size := by
    rintro f (merge | merge)
    · exact size ▸ merge.length_lt plain.1 f.distinct
    · exact merge.length_lt plain.2 f.distinct
  -- the two clauses are of one size, so neither subsumes the other
  have stays : ∀ e : Clause, e.CopyOf c ∨ e.CopyOf d →
      (!(c' :: new).any fun f => f.subsumes e) = true := by
    intro e isEither
    have sizes : e.size = d.size := isEither.elim (fun left => left.size_eq.trans size) (·.size_eq)
    rw [Bool.not_eq_true', List.any_eq_false]
    intro f inside subsumes
    have shorter := Clause.size_lt_of_subsumes subsumes
    rcases List.mem_cons.1 inside with rfl | later
    · rw [isCopy.size_eq, size, sizes] at shorter
      exact absurd shorter (Nat.lt_irrefl _)
    · rcases others f later with rfl | merge
      · rw [isCopyToo.size_eq, sizes] at shorter
        exact absurd shorter (Nat.lt_irrefl _)
      · exact merging f merge e isEither subsumes
  have second : d' ∈ new := by
    obtain ⟨kept, inside, same⟩ := (∅ : ClauseSet).exists_key_insertAll
      (List.mem_cons_of_mem c' (List.mem_append_right merged List.mem_cons_self) :
        d' ∈ c' :: (merged ++ d' :: mergedToo))
    have inside : kept ∈ c' :: new := listed ▸ inside
    rcases List.mem_cons.1 inside with rfl | later
    · exact absurd (isCopy.key_eq.symm.trans (same.trans isCopyToo.key_eq)) keys
    · rcases others kept later with rfl | merge
      · exact later
      · have shorter := smaller kept merge
        rw [Clause.size_eq_of_key_eq same, isCopyToo.size_eq] at shorter
        exact absurd shorter (Nat.lt_irrefl _)
  rw [List.filter_cons_of_pos (p := fun e => !(c' :: new).any fun f => f.subsumes e)
    (stays c' (Or.inl isCopy))] at usable
  exact ⟨c', d', isCopy, isCopyToo, _, usable,
    List.mem_filter.2 ⟨second, stays d' (Or.inr isCopyToo)⟩,
    fun f member => others f (List.mem_filter.1 member).1⟩

end

end GivenClause

/-! ### Telling a single clause -/

namespace KnowledgeBase

variable {kb : KnowledgeBase} {s : Sentence} {c : Clause}

/-- A clause whose key is new is stored behind the others. -/
theorem storeClausified_of_fresh (premise : StepNumber)
    (other : ∀ d ∈ kb.clauses.toList, d.key ≠ c.key) :
    (storeClausified premise kb c).sentences = kb.sentences ∧ ∃ copy : Clause, copy.CopyOf c ∧
      (storeClausified premise kb c).clauses.toList = kb.clauses.toList ++ [copy] := by
  have copied := (c.copyOf_renamed kb.supply).1
  have fresh : kb.clauses.contains (c.renamed kb.supply).1 = false := by
    refine Bool.eq_false_iff.2 fun known => ?_
    obtain ⟨d, member, same⟩ := ClauseSet.contains_iff.1 known
    exact other d member (same.trans copied.key_eq)
  have freshStep : ∀ origin : Option StepNumber,
      kb.clauses.contains ((c.renamed kb.supply).1.withOrigin origin) = false := fun _ => fresh
  simp only [storeClausified, fresh, Bool.false_eq_true, if_false, store, freshStep]
  refine ⟨trivial, _, ?_, ClauseSet.toList_insert (freshStep _)⟩
  exact copied

/-- Telling a new sentence that is a clause of more than one literal stores a copy of the clause
behind the others, if its key is new. -/
theorem exists_toList_telling (new : s ∉ kb.sentences)
    (clauses : (kb.clausesOf s).1.map Clause.literals = [c.literals]) (long : 1 < c.size)
    (other : ∀ d ∈ kb.clauses.toList, d.key ≠ c.key) :
    (kb.telling s).sentences = kb.sentences ++ [s] ∧ ∃ copy : Clause, copy.CopyOf c ∧
      (kb.telling s).clauses.toList = kb.clauses.toList ++ [copy] := by
  have unseen : kb.sentences.contains s = false := by simpa using new
  obtain ⟨formed, single, same⟩ := List.map_eq_singleton_iff.1 clauses
  have single : (s.clausalForm (kb.vocabulary.registerSentence s)).1 = [formed] := single
  have satisfiable : obviouslyUnsatisfiable [formed] kb.supply = false := by
    rw [Clause.size, ← same] at long
    have notUnit : formed.isUnit = false := decide_eq_false (Nat.ne_of_gt long)
    have notEmpty : formed.isEmpty = false := by
      rw [Clause.isEmpty, List.isEmpty_eq_false_iff]
      exact List.ne_nil_of_length_pos (Nat.zero_lt_of_lt long)
    simp [obviouslyUnsatisfiable, notUnit, notEmpty, unitsContradict]
  have otherKeys : ∀ d ∈ kb.clauses.toList, d.key ≠ formed.key := by
    simpa only [Clause.key_eq, same] using other
  rw [telling, tell, unseen]
  simp only [Bool.false_eq_true, if_false, single, satisfiable]
  let registered : KnowledgeBase :=
    { kb with
      vocabulary := (s.clausalForm (kb.vocabulary.registerSentence s)).2
      derivation := (kb.derivation.record ⟨.premise, .sentence s, .none, []⟩).2 }
  obtain ⟨sentences, copy, ⟨forward, back, literals, undone⟩, stored⟩ :=
    @storeClausified_of_fresh registered formed
      (kb.derivation.record ⟨.premise, .sentence s, .none, []⟩).1 otherKeys
  rw [same] at literals undone
  exact ⟨congrArg (· ++ [s]) sentences, copy, ⟨forward, back, literals, undone⟩, stored⟩

end KnowledgeBase

/-! ### Resolving with a unit clause -/

namespace Clause

section

variable {g c r : Clause} {a : Atom} (unit : g.literals = [.positive a]) (ground : a.isGround)

include unit ground

theorem literals_of_copyOf_unit {copy : Clause} (isCopy : copy.CopyOf g) :
    copy.literals = [.positive a] := by
  obtain ⟨forward, back, literals, _⟩ := isCopy
  rw [literals, unit, List.map_singleton, Literal.replace_of_isGround ground]

theorem not_mem_occurrencesList_of_unit (v : Variable) :
    v ∉ Literal.occurrencesList g.literals := by
  intro here
  obtain ⟨l, member, occurs⟩ := List.mem_flatMap.1 here
  rw [unit, List.mem_singleton] at member
  rw [member] at occurs
  exact absurd occurs (Atom.isGround_iff.1 ground v)

/-- In resolving with a unit clause that affirms an atom, the negative literal comes from the other
clause. -/
theorem IsResolvent.resolvesTo_of_unit (resolvent : r.IsResolvent g c) : g.ResolvesTo c r := by
  refine resolvent.resolve_right ?_
  rintro ⟨_, right, _, isRight, _, _, _, m, negative, _⟩
  obtain ⟨here, isNegative⟩ := List.mem_filter.1 negative
  rw [literals_of_copyOf_unit unit ground isRight, List.mem_singleton] at here
  rw [here] at isNegative
  exact absurd isNegative Bool.false_ne_true

/-- When a clause is resolved with a unit clause that affirms an atom without variables, some
replacement of variables makes one of its literals into the denial of the atom and all others into
literals of the resolvent. -/
theorem IsResolvent.exists_value_of_unit (resolvent : r.IsResolvent g c) :
    ∃ m ∈ c.negatives, ∃ value : Variable → Term, m.atom.replace value = a ∧
      ∀ l ∈ c.literals, l ≠ m → l.replace value ∈ r.literals := by
  obtain ⟨left, right, isLeft, ⟨forward, back, literals, undone⟩, _, l, positive, m', negative, θ,
    unify, result⟩ := resolvent.resolvesTo_of_unit unit ground
  obtain ⟨here, _⟩ := List.mem_filter.1 positive
  rw [literals_of_copyOf_unit unit ground isLeft, List.mem_singleton] at here
  obtain ⟨there, isNegative⟩ := List.mem_filter.1 negative
  rw [literals] at there
  obtain ⟨m, member, rfl⟩ := List.mem_map.1 there
  refine ⟨m, List.mem_filter.2 ⟨member, isNegative⟩, fun v => (forward v).replace θ.value, ?_,
    fun k inside different => ?_⟩
  · have equal := Atom.substitute_eq_of_unify unify
    rw [here, Atom.substitute, Atom.replace_of_isGround ground] at equal
    rw [← Atom.replace_replace]
    exact equal.symm
  · rw [result, mem_firstOccurrences, ← Literal.replace_replace]
    refine List.mem_map_of_mem (List.mem_append_right _ ?_)
    refine (mem_erase_image literals undone member _).2 (List.mem_map_of_mem ?_)
    exact (List.Nodup.mem_erase_iff c.distinct).2 ⟨different, inside⟩

/-- What is left when the unit clause is resolved with a literal of the clause is a resolvent. -/
theorem isResolvent_of_unit (m : Literal) (θ : Substitution) (negative : m ∈ c.negatives)
    (unify : a.unify m.atom = some θ)
    (literals : r.literals = firstOccurrences (Literal.substituteList θ (c.literals.erase m))) :
    r.IsResolvent g c := by
  refine Or.inl ⟨g, c, .refl g, .refl c, ?_, .positive a, ?_, m, negative, θ, unify, ?_⟩
  · exact fun v here => absurd here (not_mem_occurrencesList_of_unit unit ground v)
  · rw [positives, unit]
    exact List.mem_singleton_self _
  · rw [literals, unit, List.erase_cons_head, List.nil_append]

/-- If the denial of the atom is a literal of the clause, and no other one can be made into it, then
the resolvents have the key of what is left of the clause. -/
theorem IsResolvent.key_eq_of_unit {rest : List Literal}
    (literals : c.literals = .negative a :: rest)
    (only : ∀ l ∈ rest, l.atom.symbol ≠ a.symbol) (resolvent : r.IsResolvent g c) :
    r.key = canonicalKey rest := by
  have apart : g.Apart c := fun v here =>
    absurd here (not_mem_occurrencesList_of_unit unit ground v)
  obtain ⟨l, positive, m, negative, θ, unify, same⟩ :=
    (resolvent.resolvesTo_of_unit unit ground).exists_unify (.refl g) (.refl c) apart
  obtain ⟨here, _⟩ := List.mem_filter.1 positive
  obtain ⟨there, _⟩ := List.mem_filter.1 negative
  rw [unit, List.mem_singleton] at here
  rw [literals] at there
  rcases List.mem_cons.1 there with rfl | later
  · rw [here] at unify same
    rw [canonicalKey_substitute_of_unify_self unify, unit, literals] at same
    have distinct : rest.Nodup := (literals ▸ c.distinct : (_ :: rest).Nodup).of_cons
    rw [← same, List.erase_cons_head, List.erase_cons_head, List.nil_append,
      firstOccurrences_of_nodup distinct]
  · have equal := congrArg Atom.symbol (Atom.substitute_eq_of_unify unify)
    rw [here, Atom.substitute, Atom.substitute, ModelElimination.symbol_replace,
      ModelElimination.symbol_replace] at equal
    exact absurd equal.symm (only m later)

end

/-- If what a replacement makes of some literals subsumes a copy of a clause, a further replacement
makes all of them into literals of the clause. -/
theorem exists_value_of_subsumes_copy {ls : List Literal} {f d copy : Clause}
    {value : Variable → Term}
    (images : ∀ m, m ∈ f.literals ↔ m ∈ ls.map (Literal.replace value)) (isCopy : copy.CopyOf d)
    (subsumes : f.subsumes copy) : ∃ turned : Variable → Term, ∀ l ∈ ls, ∃ m ∈ d.literals,
      m.polarity = l.polarity ∧ m.atom = (l.atom.replace value).replace turned := by
  obtain ⟨forward, back, copied, undone⟩ := isCopy
  obtain ⟨matched, into⟩ := (subsumes_iff.1 subsumes).exists_value
  refine ⟨fun v => (matched v).replace back, fun l member => ?_⟩
  obtain ⟨n, there, polarity, atom⟩ := into _ ((images _).2 (List.mem_map_of_mem member))
  rw [copied] at there
  obtain ⟨m, source, rfl⟩ := List.mem_map.1 there
  have returned : (m.atom.replace forward).replace back = m.atom :=
    congrArg Literal.atom (undone m source)
  have turned : m.atom.replace forward = (l.atom.replace value).replace matched := atom
  refine ⟨m, source, polarity, ?_⟩
  rw [← returned, turned, Atom.replace_replace]

end Clause

/-! ### Graphs as clauses -/

namespace Drawing

/-- An edge in a picture. -/
structure Edge where
  source : Term
  target : Term
  picture : Term
  deriving DecidableEq

namespace Edge

def atom (e : Edge) : Atom :=
  .predicate "Edge" [e.source, e.target, e.picture]

def reverse (e : Edge) : Edge :=
  ⟨e.target, e.source, e.picture⟩

def replace (value : Variable → Term) (e : Edge) : Edge :=
  ⟨e.source.replace value, e.target.replace value, e.picture.replace value⟩

theorem atom_injective : Function.Injective atom := by
  rintro ⟨_, _, _⟩ ⟨_, _, _⟩ same
  simpa [atom] using same

theorem replace_replace (e : Edge) (first second : Variable → Term) :
    (e.replace first).replace second = e.replace fun v => (first v).replace second := by
  simp only [replace, Term.replace_replace]

end Edge

/-- A picture is not drawn, or one of the edges is there, or the reverse of one is not. -/
def graph (picture : Term) (edges : List Edge) : List Literal :=
  .negative (.predicate "Drawn" [picture]) ::
    (edges.map (fun e => .positive e.atom) ++ edges.map fun e => .negative e.reverse.atom)

theorem mem_graph {picture : Term} {edges : List Edge} {l : Literal} :
    l ∈ graph picture edges ↔ l = .negative (.predicate "Drawn" [picture]) ∨
      ∃ e ∈ edges, l = .positive e.atom ∨ l = .negative e.reverse.atom := by
  simp only [graph, List.mem_cons, List.mem_append, List.mem_map]
  constructor
  · rintro (rfl | ⟨e, inside, rfl⟩ | ⟨e, inside, rfl⟩)
    · exact Or.inl rfl
    · exact Or.inr ⟨e, inside, Or.inl rfl⟩
    · exact Or.inr ⟨e, inside, Or.inr rfl⟩
  · rintro (rfl | ⟨e, inside, rfl | rfl⟩)
    · exact Or.inl rfl
    · exact Or.inr (Or.inl ⟨e, inside, rfl⟩)
    · exact Or.inr (Or.inr ⟨e, inside, rfl⟩)

section

variable {p q : Term} {es fs : List Edge} {value : Variable → Term}

/-- Edges are only merged with edges. -/
theorem exists_edges_of_merge {ms : List Literal} (merged : Literal.MergeInto (graph p es) ms) :
    ∃ value : Variable → Term, (∀ m, m ∈ ms ↔ m ∈ (graph p es).map (Literal.replace value)) ∧
      ∃ e ∈ es, ∃ f ∈ es, e ≠ f ∧ e.replace value = f.replace value := by
  obtain ⟨value, images, l, here, k, there, different, polarity, equal⟩ := merged
  refine ⟨value, images, ?_⟩
  rcases mem_graph.1 here with rfl | ⟨e, inside, isEdge⟩
  · rcases mem_graph.1 there with rfl | ⟨f, _, rfl | rfl⟩
    · exact absurd rfl different
    · cases polarity
    · exact absurd equal (by simp [Atom.replace, Edge.atom])
  · rcases mem_graph.1 there with rfl | ⟨f, insideToo, isEdgeToo⟩
    · rcases isEdge with rfl | rfl <;> exact absurd equal (by simp [Atom.replace, Edge.atom])
    · refine ⟨e, inside, f, insideToo, fun same => ?_, ?_⟩
      · rcases isEdge with rfl | rfl <;> rcases isEdgeToo with rfl | rfl <;> simp_all
      · rcases isEdge with rfl | rfl <;> rcases isEdgeToo with rfl | rfl
        · exact Edge.atom_injective equal
        · cases polarity
        · cases polarity
        · have reversed : e.reverse.replace value = f.reverse.replace value :=
            Edge.atom_injective equal
          exact congrArg Edge.reverse reversed

/-- However the edges of a graph are made into edges of another one, no two of them become one. -/
def IsRigid (p q : Term) (es fs : List Edge) : Prop :=
  ∀ value, p.replace value = q → (∀ e ∈ es, e.replace value ∈ fs) →
    ∀ e ∈ es, ∀ f ∈ es, e.replace value = f.replace value → e = f

/-- Edges of a rigid graph that were merged do not subsume the other graph. -/
theorem not_subsumes_of_isRigid (rigid : IsRigid p q es fs) {f d copy : Clause}
    (merged : Literal.MergeInto (graph p es) f.literals) (literals : d.literals = graph q fs)
    (isCopy : copy.CopyOf d) : ¬f.subsumes copy := by
  intro subsumes
  obtain ⟨value, images, e, inside, e', insideToo, different, equal⟩ := exists_edges_of_merge merged
  obtain ⟨turned, into⟩ := Clause.exists_value_of_subsumes_copy images isCopy subsumes
  rw [literals] at into
  have picture : (p.replace value).replace turned = q := by
    obtain ⟨m, there, polarity, atom⟩ := into _ (mem_graph.2 (Or.inl rfl))
    rcases mem_graph.1 there with rfl | ⟨f, _, rfl | rfl⟩
    · simpa [Atom.replace, Term.replaceList] using atom.symm
    · cases polarity
    · exact absurd atom (by simp [Atom.replace, Edge.atom])
  have edges : ∀ e ∈ es, (e.replace value).replace turned ∈ fs := by
    intro e inside
    obtain ⟨m, there, polarity, atom⟩ := into _ (mem_graph.2 (Or.inr ⟨e, inside, Or.inl rfl⟩))
    rcases mem_graph.1 there with rfl | ⟨f, insideToo, rfl | rfl⟩
    · cases polarity
    · have same : f = (e.replace value).replace turned := Edge.atom_injective atom
      exact same ▸ insideToo
    · cases polarity
  simp only [Edge.replace_replace, Term.replace_replace] at picture edges
  refine different (rigid _ picture edges e inside e' insideToo ?_)
  rw [← Edge.replace_replace, ← Edge.replace_replace, equal]

/-- When the denial that a picture is drawn is resolved away, the edges stay. -/
theorem exists_value_of_drawn {g f r : Clause}
    (unit : g.literals = [.positive (.predicate "Drawn" [q])]) (ground : q.isGround)
    (images : ∀ m, m ∈ f.literals ↔ m ∈ (graph p es).map (Literal.replace value))
    (resolvent : r.IsResolvent g f) :
    ∃ turned : Variable → Term, (p.replace value).replace turned = q ∧
      ∀ e ∈ es, .positive ((e.replace value).replace turned).atom ∈ r.literals ∧
        .negative ((e.replace value).replace turned).reverse.atom ∈ r.literals := by
  have groundAtom : (Atom.predicate "Drawn" [q]).isGround := by
    simpa [Atom.isGround, Atom.arguments, Term.allGround] using ground
  obtain ⟨m, member, turned, atom, others⟩ := resolvent.exists_value_of_unit unit groundAtom
  obtain ⟨inside, negative⟩ := List.mem_filter.1 member
  obtain ⟨l, source, rfl⟩ := List.mem_map.1 ((images m).1 inside)
  have stays : ∀ k ∈ graph p es, k.atom.symbol ≠ l.atom.symbol →
      (k.replace value).replace turned ∈ r.literals := by
    intro k there symbol
    refine others _ ((images _).2 (List.mem_map_of_mem there)) fun same => symbol ?_
    have equal : k.atom.replace value = l.atom.replace value := congrArg Literal.atom same
    rw [← ModelElimination.symbol_replace value k.atom, equal, ModelElimination.symbol_replace]
  rcases mem_graph.1 source with rfl | ⟨e, _, rfl | rfl⟩
  · have different : "Edge" ≠ "Drawn" := by decide
    refine ⟨turned, by simpa [Literal.replace, Atom.replace, Term.replaceList] using atom,
      fun e inside => ⟨?_, ?_⟩⟩
    · exact stays _ (mem_graph.2 (Or.inr ⟨e, inside, Or.inl rfl⟩)) different
    · exact stays _ (mem_graph.2 (Or.inr ⟨e, inside, Or.inr rfl⟩)) different
  · exact absurd negative Bool.false_ne_true
  · exact absurd atom (by simp [Literal.replace, Atom.replace, Edge.atom])

/-- An edge that has become the reverse of another one makes a tautology. -/
theorem isTautology_of_edges {r : Clause} {e f : Edge} (present : .positive e.atom ∈ r.literals)
    (absent : .negative f.reverse.atom ∈ r.literals) (reversed : f.reverse = e) : r.isTautology :=
  Clause.isTautology_iff.2 ⟨_, present, _, absent, rfl, rfl, congrArg Edge.atom reversed.symm⟩

end

/-! ### A ring of five edges, and a pair next to a ring of three -/

/-- A corner of a graph. -/
def corner (name : String) : Term :=
  .var ⟨name, none⟩

/-- The picture that all other edges are in. -/
def pictureA : Term :=
  .constant "A"

/-- A ring of five edges. -/
def ring : List Edge :=
  [⟨corner "u", corner "v", pictureA⟩, ⟨corner "v", corner "x", pictureA⟩,
    ⟨corner "x", corner "y", pictureA⟩, ⟨corner "y", corner "z", pictureA⟩,
    ⟨corner "z", corner "u", pictureA⟩]

/-- An edge, one in the opposite direction, and a ring of three edges. -/
def pairAndRing : List Edge :=
  [⟨corner "u", corner "v", pictureA⟩, ⟨corner "v", corner "u", corner "w"⟩,
    ⟨corner "x", corner "y", pictureA⟩, ⟨corner "y", corner "z", pictureA⟩,
    ⟨corner "z", corner "x", pictureA⟩]

theorem isRigid_ring : IsRigid pictureA pictureA ring ring := by
  intro value _ into
  simp only [ring, List.forall_mem_cons] at into ⊢
  simp only [Edge.replace, List.mem_cons, List.not_mem_nil, or_false, Edge.mk.injEq, corner,
    pictureA, Term.replace, and_true, false_imp_iff, implies_true] at into ⊢
  obtain ⟨first, second, third, fourth, fifth⟩ := into
  rcases first with ⟨u, v⟩ | ⟨u, v⟩ | ⟨u, v⟩ | ⟨u, v⟩ | ⟨u, v⟩ <;> simp [v] at second <;>
    simp [second] at third <;> simp [third] at fourth <;> simp [u, v, second, third, fourth]

theorem isRigid_pairAndRing : IsRigid (corner "w") (corner "w") pairAndRing pairAndRing := by
  intro value picture into
  simp only [pairAndRing, List.forall_mem_cons] at into ⊢
  simp only [Edge.replace, List.mem_cons, List.not_mem_nil, or_false, Edge.mk.injEq, corner,
    pictureA, Term.replace, and_true, false_imp_iff, implies_true] at into picture ⊢
  simp only [picture] at into ⊢
  obtain ⟨first, second, third, fourth, fifth⟩ := into
  simp at second
  obtain ⟨v, u⟩ := second
  simp at third fourth fifth
  rcases third with ⟨x, y⟩ | ⟨x, y⟩ | ⟨x, y⟩ | ⟨x, y⟩ <;> simp [x, y] at fourth fifth <;>
    simp [u, v, x, y, fourth]

theorem isRigid_pairAndRing_ring : IsRigid (corner "w") pictureA pairAndRing ring := by
  intro value _ into
  simp only [pairAndRing, ring, List.forall_mem_cons] at into
  simp only [Edge.replace, List.mem_cons, List.not_mem_nil, or_false, Edge.mk.injEq, corner,
    pictureA, Term.replace, and_true, false_imp_iff, implies_true] at into
  obtain ⟨first, second, _⟩ := into
  rcases first with ⟨u, v⟩ | ⟨u, v⟩ | ⟨u, v⟩ | ⟨u, v⟩ | ⟨u, v⟩ <;> simp [u, v] at second

theorem isRigid_ring_pairAndRing : IsRigid pictureA (corner "w") ring pairAndRing :=
  fun _ picture => absurd picture nofun

/-- The first of two edges of the ring leads to the second, at once or over one edge. -/
def LeadsTo (e f : Edge) : Prop :=
  e.target = f.source ∨ ∃ between ∈ ring, e.target = between.source ∧ between.target = f.source

theorem leadsTo_or_leadsTo : ∀ e ∈ ring, ∀ f ∈ ring, e ≠ f → LeadsTo e f ∨ LeadsTo f e := by
  unfold LeadsTo
  decide

theorem picture_of_mem_ring : ∀ e ∈ ring, e.picture = pictureA := by decide

/-- If an edge of the ring becomes one that it leads to, an edge becomes the reverse of one. -/
theorem exists_reversed_of_leadsTo {value : Variable → Term} {e f : Edge} (inside : e ∈ ring)
    (leads : LeadsTo e f) (merged : e.replace value = f.replace value) :
    ∃ k ∈ ring, ∃ m ∈ ring, (m.replace value).reverse = k.replace value := by
  obtain ⟨source, target, _⟩ := Edge.mk.inj merged
  rcases leads with meet | ⟨between, insideToo, first, second⟩
  · refine ⟨e, inside, e, inside, ?_⟩
    simp only [Edge.replace, Edge.reverse, source, meet]
  · refine ⟨between, insideToo, e, inside, ?_⟩
    simp only [Edge.replace, Edge.reverse, source, first, second, picture_of_mem_ring e inside,
      picture_of_mem_ring between insideToo]

/-! ### The clauses of the two graphs -/

/-- The clause of the pair and the ring of three, with a variable for the picture of one edge. -/
def pairClause : Clause :=
  Clause.ofLiterals (graph (corner "w") pairAndRing)

/-- The clause of the ring of five. -/
def ringClause : Clause :=
  Clause.ofLiterals (graph pictureA ring)

theorem literals_pairClause : pairClause.literals = graph (corner "w") pairAndRing :=
  firstOccurrences_of_nodup (by decide)

theorem literals_ringClause : ringClause.literals = graph pictureA ring :=
  firstOccurrences_of_nodup (by decide)

theorem plain_pairClause : pairClause.Plain := by
  rw [Clause.Plain, literals_pairClause]
  decide

theorem plain_ringClause : ringClause.Plain := by
  rw [Clause.Plain, literals_ringClause]
  decide

/-- The picture is a variable in one clause and a constant in the other. -/
theorem key_pairClause_ne : pairClause.key ≠ ringClause.key := by
  intro same
  obtain ⟨number, other, perm⟩ := Clause.exists_perm_of_key_eq same
  rw [literals_pairClause, literals_ringClause] at perm
  obtain ⟨l, inside, image⟩ := List.mem_map.1
    (perm.symm.subset (List.mem_map_of_mem (mem_graph.2 (Or.inl rfl))))
  have atom := congrArg Literal.atom image
  rcases mem_graph.1 inside with rfl | ⟨e, _, rfl | rfl⟩
  · simp [Literal.replace, Atom.replace, Term.replaceList, corner, pictureA, Term.replace,
      byNumber] at atom
  · exact absurd atom (by simp [Literal.replace, Atom.replace, Edge.atom])
  · exact absurd atom (by simp [Literal.replace, Atom.replace, Edge.atom])

/-! ### Images of the two graphs -/

section

variable {picture : Term} {edges : List Edge} {c f r g : Clause}

/-- A replacement of variables makes the literals of the clause from those of a graph. -/
def ImageOf (picture : Term) (edges : List Edge) (f : Clause) : Prop :=
  ∃ value, ∀ m, m ∈ f.literals ↔ m ∈ (graph picture edges).map (Literal.replace value)

theorem imageOf_of_copyOf (literals : c.literals = graph picture edges) (isCopy : f.CopyOf c) :
    ImageOf picture edges f := by
  obtain ⟨forward, _, images, _⟩ := isCopy
  exact ⟨forward, fun m => by rw [images, literals]⟩

theorem imageOf_of_mergeInto (merged : Literal.MergeInto (graph picture edges) f.literals) :
    ImageOf picture edges f := by
  obtain ⟨value, images, _⟩ := merged
  exact ⟨value, images⟩

theorem exists_drawn_of_imageOf (image : ImageOf picture edges f) :
    ∃ l ∈ f.literals, l.isNegative ∧ l.atom.symbol = "Drawn" := by
  obtain ⟨value, images⟩ := image
  exact ⟨_, (images _).2 (List.mem_map_of_mem (mem_graph.2 (Or.inl rfl))), rfl, rfl⟩

variable (unit : g.literals = [.positive (.predicate "Drawn" [pictureA])])

include unit

/-- In the picture that the goal speaks of, each edge of the pair is the reverse of the other. -/
theorem isTautology_of_pairAndRing (image : ImageOf (corner "w") pairAndRing f)
    (resolvent : r.IsResolvent g f) : r.isTautology := by
  obtain ⟨value, images⟩ := image
  obtain ⟨turned, picture, edges⟩ := exists_value_of_drawn unit rfl images resolvent
  obtain ⟨forth, _⟩ := edges ⟨corner "u", corner "v", pictureA⟩ (by decide)
  obtain ⟨_, back⟩ := edges ⟨corner "v", corner "u", corner "w"⟩ (by decide)
  refine isTautology_of_edges forth back ?_
  rw [Edge.replace, Edge.replace, Edge.reverse, picture]
  rfl

/-- If edges of the ring are merged, an edge is the reverse of another one. -/
theorem isTautology_of_ring (merged : Literal.MergeInto (graph pictureA ring) f.literals)
    (resolvent : r.IsResolvent g f) : r.isTautology := by
  obtain ⟨value, images, e, inside, e', insideToo, different, equal⟩ := exists_edges_of_merge merged
  obtain ⟨turned, _, edges⟩ := exists_value_of_drawn unit rfl images resolvent
  obtain ⟨k, here, m, there, reversed⟩ :
      ∃ k ∈ ring, ∃ m ∈ ring, (m.replace value).reverse = k.replace value :=
    (leadsTo_or_leadsTo e inside e' insideToo different).elim
      (fun leads => exists_reversed_of_leadsTo inside leads equal)
      fun leads => exists_reversed_of_leadsTo insideToo leads equal.symm
  exact isTautology_of_edges (edges k here).1 (edges m there).2
    (congrArg (Edge.replace turned) reversed)

/-- The resolvents of the ring of five have the key of its edges. -/
theorem key_of_ring (resolvent : r.IsResolvent g ringClause) :
    r.key = canonicalKey (graph pictureA ring).tail :=
  resolvent.key_eq_of_unit unit rfl literals_ringClause (by decide)

/-- The pair and the ring of three have a resolvent with the key of the ring of five. -/
theorem exists_resolvent_pairClause : ∃ r : Clause, r.IsResolvent g pairClause ∧
    r.key = canonicalKey (graph pictureA ring).tail := by
  let θ : Substitution := Substitution.insert ∅ ⟨"w", none⟩ pictureA
  have first : pairClause.literals.erase (.negative (.predicate "Drawn" [corner "w"])) =
      (graph (corner "w") pairAndRing).tail := by
    rw [literals_pairClause]
    exact List.erase_cons_head _ _
  refine ⟨Clause.ofLiterals (Literal.substituteList θ (graph (corner "w") pairAndRing).tail),
    Clause.isResolvent_of_unit unit rfl (.negative (.predicate "Drawn" [corner "w"])) θ ?_ ?_ ?_,
    ?_⟩
  · exact List.mem_filter.2 ⟨literals_pairClause ▸ mem_graph.2 (Or.inl rfl), rfl⟩
  · cbv
  · rw [first]
    rfl
  · rw [Clause.key_eq]
    cbv

/-- The edges of the ring alone. -/
def bareRing : Clause :=
  Clause.ofLiterals (graph pictureA ring).tail

/-- What is left of the ring is a resolvent of its clause. -/
theorem isResolvent_bareRing : bareRing.IsResolvent g ringClause := by
  have first : ringClause.literals.erase (.negative (.predicate "Drawn" [pictureA])) =
      (graph pictureA ring).tail := by
    rw [literals_ringClause]
    exact List.erase_cons_head _ _
  refine Clause.isResolvent_of_unit unit rfl (.negative (.predicate "Drawn" [pictureA])) ∅ ?_ ?_ ?_
  · exact List.mem_filter.2 ⟨literals_ringClause ▸ mem_graph.2 (Or.inl rfl), rfl⟩
  · cbv
  · rw [first]
    decide

end

/-- No clause that says whether a picture is drawn stands in for the ring alone. -/
theorem not_hasStandIn_bareRing {cs : List Clause}
    (drawn : ∀ f ∈ cs, ∃ l ∈ f.literals, l.atom.symbol = "Drawn") : ¬bareRing.HasStandIn cs := by
  intro standIn
  obtain ⟨f, inside, kinds⟩ := standIn.exists_kinds
  obtain ⟨l, member, symbol⟩ := drawn f inside
  obtain ⟨m, there, kind⟩ := kinds l member
  have edges : ∀ m ∈ bareRing.literals, m.atom.symbol = "Edge" := by decide
  have same : m.atom.symbol = l.atom.symbol := congrArg LiteralKind.symbol kind
  rw [edges m there, symbol] at same
  exact absurd same (by decide)

/-! ### Telling the graphs -/

/-- The sentence that says what the clause of a graph says. -/
def graphSentence (picture : Term) (edges : List Edge) : Sentence :=
  (edges.map (fun e => Sentence.atom e.atom) ++
    edges.map fun e => Sentence.negation (.atom e.reverse.atom)).foldl Sentence.or
      (.negation (.atom (.predicate "Drawn" [picture])))

theorem clausesOf_pairAndRing (kb : KnowledgeBase) :
    (kb.clausesOf (graphSentence (corner "w") pairAndRing)).1.map Clause.literals =
      [pairClause.literals] := by
  rw [KnowledgeBase.clausesOf, literals_pairClause]
  generalize kb.vocabulary.registerSentence _ = voc
  cbv

theorem clausesOf_ring (kb : KnowledgeBase) :
    (kb.clausesOf (graphSentence pictureA ring)).1.map Clause.literals = [ringClause.literals] := by
  rw [KnowledgeBase.clausesOf, literals_ringClause]
  generalize kb.vocabulary.registerSentence _ = voc
  cbv

end Drawing

namespace KnowledgeBase

open Drawing

/-- The knowledge base that refutes with a set of support and was told both graphs, the one with the
pair first. -/
def drawings : KnowledgeBase :=
  (supporting.telling (graphSentence (corner "w") pairAndRing)).telling
    (graphSentence pictureA ring)

theorem exists_toList_drawings : ∃ c d : Clause, c.CopyOf pairClause ∧ d.CopyOf ringClause ∧
    drawings.clauses.toList = [c, d] := by
  obtain ⟨sentences, copy, isCopy, stored⟩ :=
    @exists_toList_telling supporting (graphSentence (corner "w") pairAndRing) pairClause
      List.not_mem_nil (clausesOf_pairAndRing _) (by rw [Clause.size, literals_pairClause]; decide)
      fun _ none => absurd none List.not_mem_nil
  have stored : (supporting.telling (graphSentence (corner "w") pairAndRing)).clauses.toList =
      [copy] := stored
  obtain ⟨_, another, isCopyToo, storedToo⟩ :=
    @exists_toList_telling (supporting.telling (graphSentence (corner "w") pairAndRing))
      (graphSentence pictureA ring) ringClause (by rw [sentences]; decide) (clausesOf_ring _)
      (by rw [Clause.size, literals_ringClause]; decide) (by
        intro e member
        rw [stored, List.mem_singleton] at member
        rw [member, isCopy.key_eq]
        exact key_pairClause_ne)
  rw [stored] at storedToo
  exact ⟨copy, another, isCopy, isCopyToo, storedToo⟩

/-- That the picture is not drawn, as a query. -/
def undrawn : Sentence :=
  .negation (.atom (.predicate "Drawn" [pictureA]))

theorem goals_refutationOf_undrawn (kb : KnowledgeBase) :
    (kb.refutationOf undrawn).goals.map Clause.literals =
      [[.positive (.predicate "Drawn" [pictureA])]] := by
  rw [refutationOf, refute_eq]
  cbv

/-! ### What is lost -/

section

variable {c d : Clause} (isPair : c.CopyOf pairClause) (isRing : d.CopyOf ringClause)

include isPair isRing

/-- No proper factor of one of the two clauses subsumes a copy of one of them. -/
theorem not_subsumes_drawings {f e : Clause}
    (merged : Literal.MergeInto c.literals f.literals ∨ Literal.MergeInto d.literals f.literals)
    (isCopy : e.CopyOf c ∨ e.CopyOf d) : ¬f.subsumes e := by
  rcases merged with merged | merged
  · have merged := merged.of_areVariants isPair
    rw [literals_pairClause] at merged
    rcases isCopy with isCopy | isCopy
    · exact not_subsumes_of_isRigid isRigid_pairAndRing merged literals_pairClause
        (isCopy.trans isPair)
    · exact not_subsumes_of_isRigid isRigid_pairAndRing_ring merged literals_ringClause
        (isCopy.trans isRing)
  · have merged := merged.of_areVariants isRing
    rw [literals_ringClause] at merged
    rcases isCopy with isCopy | isCopy
    · exact not_subsumes_of_isRigid isRigid_ring_pairAndRing merged literals_pairClause
        (isCopy.trans isPair)
    · exact not_subsumes_of_isRigid isRigid_ring merged literals_ringClause (isCopy.trans isRing)

/-- The clauses are usable from the start in fresh variables, the one with the pair comes first, and
in all others literals are merged. -/
theorem exists_usable_drawings {refutation : Refutation}
    (stored : refutation.kb.clauses.toList = [c, d]) :
    ∃ c' d' : Clause, c'.CopyOf pairClause ∧ d'.CopyOf ringClause ∧ ∃ rest,
      (GivenClause.start resolvingOnly refutation).usable.toList = c' :: rest ∧ d' ∈ rest ∧
        ∀ f ∈ rest, f = d' ∨ ImageOf (corner "w") pairAndRing f ∨
          Literal.MergeInto (graph pictureA ring) f.literals := by
  have size : c.size = d.size := by
    rw [isPair.size_eq, isRing.size_eq, Clause.size, Clause.size, literals_pairClause,
      literals_ringClause]
    rfl
  have keys : c.key ≠ d.key := by
    rw [isPair.key_eq, isRing.key_eq]
    exact key_pairClause_ne
  have noParamodulation : resolvingOnly.paramodulation = false := rfl
  obtain ⟨c', d', isCopy, isCopyToo, rest, usable, inside, others⟩ :=
    GivenClause.exists_usable_start noParamodulation stored
      ⟨isPair.plain plain_pairClause, isRing.plain plain_ringClause⟩ size keys
      fun f merged e isCopy => not_subsumes_drawings isPair isRing merged isCopy
  refine ⟨c', d', isCopy.trans isPair, isCopyToo.trans isRing, rest, usable, inside,
    fun f member => (others f member).imp_right fun merged => ?_⟩
  rcases merged with merged | merged
  · have merged := merged.of_areVariants isPair
    rw [literals_pairClause] at merged
    exact Or.inl (imageOf_of_mergeInto merged)
  · have merged := merged.of_areVariants isRing
    rw [literals_ringClause] at merged
    exact Or.inr merged

end

section

variable {c' d' g : Clause} {rest : List Clause} (isPair : c'.CopyOf pairClause)
  (isRing : d'.CopyOf ringClause)
  (others : ∀ f ∈ rest, f = d' ∨ ImageOf (corner "w") pairAndRing f ∨
    Literal.MergeInto (graph pictureA ring) f.literals)

include isPair isRing others

/-- Every usable clause speaks about a picture that is not drawn. -/
theorem exists_drawn_of_usable {f : Clause} (member : f ∈ c' :: rest) :
    ∃ l ∈ f.literals, l.isNegative ∧ l.atom.symbol = "Drawn" := by
  rcases List.mem_cons.1 member with rfl | later
  · exact exists_drawn_of_imageOf (imageOf_of_copyOf literals_pairClause isPair)
  · rcases others f later with rfl | isImage | merged
    · exact exists_drawn_of_imageOf (imageOf_of_copyOf literals_ringClause isRing)
    · exact exists_drawn_of_imageOf isImage
    · exact exists_drawn_of_imageOf (imageOf_of_mergeInto merged)

variable (unit : g.literals = [.positive (.predicate "Drawn" [pictureA])])

include unit

/-- Nothing but tautologies is inferred from the goal and the usable clauses. -/
theorem isTautology_of_mem_infer_drawings (session : Session) :
    ∀ r ∈ (GivenClause.infer resolvingOnly session g (c' :: (rest ++ [g]))).1, r.isTautology := by
  have image : ImageOf (corner "w") pairAndRing c' := imageOf_of_copyOf literals_pairClause isPair
  have plain : g.Plain := by
    intro l here
    rw [unit, List.mem_singleton] at here
    rw [here]
  have nonempty : g.isEmpty = false := by
    rw [Clause.isEmpty, unit]
    rfl
  have below : ∀ bound, g.VariablesBelow bound := fun bound v here =>
    absurd here (Clause.not_mem_occurrencesList_of_unit unit rfl v)
  obtain ⟨r, resolvent, key⟩ := exists_resolvent_pairClause unit
  refine GivenClause.isTautology_of_mem_infer rfl below nonempty
    ⟨plain, isPair.plain plain_pairClause⟩
    ⟨r, resolvent.of_copies (.refl g) isPair.symm, key⟩
    (fun r resolvent => isTautology_of_pairAndRing unit image resolvent)
    (fun f member r resolvent => ?_) session
  rcases List.mem_append.1 member with here | isGoal
  · rcases others f here with rfl | isImage | merged
    · exact Or.inr (key_of_ring unit (resolvent.of_copies (.refl g) isRing))
    · exact Or.inl (isTautology_of_pairAndRing unit isImage resolvent)
    · exact Or.inl (isTautology_of_ring unit merged resolvent)
  · rw [List.mem_singleton.1 isGoal] at resolvent
    obtain ⟨m, member, _⟩ := resolvent.exists_value_of_unit unit rfl
    obtain ⟨here, negative⟩ := List.mem_filter.1 member
    rw [unit, List.mem_singleton] at here
    rw [here] at negative
    exact absurd negative Bool.false_ne_true

end

/-- The goal is the only given clause, and it joins the usable ones. -/
theorem exists_run_drawings : ∃ (d g : Clause) (last : GivenClause.State),
    d.CopyOf ringClause ∧ g.literals = [.positive (.predicate "Drawn" [pictureA])] ∧
      GivenClause.run resolvingOnly 2
        (GivenClause.start resolvingOnly (drawings.refutationOf undrawn)) = some last ∧
      last.book = (drawings.refutationOf undrawn).book ∧
      (∀ f ∈ last.usable.toList, ∃ l ∈ f.literals, l.atom.symbol = "Drawn") ∧
      d ∈ last.usable.toList ∧ g ∈ last.usable.toList ∧
      ∃ step ∈ GivenClause.givenSteps resolvingOnly 2
        (GivenClause.start resolvingOnly (drawings.refutationOf undrawn)), step.given = g := by
  obtain ⟨g, goals, unit⟩ := List.map_eq_singleton_iff.1 (goals_refutationOf_undrawn drawings)
  have isOpen : (drawings.refutationOf undrawn).book.isClosed = false := by
    rw [refutationOf, refute_eq]
    rfl
  obtain ⟨c, d, isPair, isRing, told⟩ := exists_toList_drawings
  have stored : (drawings.refutationOf undrawn).kb.clauses.toList = [c, d] := by
    rw [refutationOf, refute_eq]
    exact told
  generalize drawings.refutationOf undrawn = refutation at goals isOpen stored ⊢
  obtain ⟨c', d', isPair', isRing', rest, usable, inside, others⟩ :=
    exists_usable_drawings isPair isRing stored
  have fresh : (GivenClause.start resolvingOnly refutation).usable.contains g = false := by
    refine Bool.eq_false_iff.2 fun known => ?_
    obtain ⟨f, member, same⟩ := ClauseSet.contains_iff.1 known
    obtain ⟨l, here, negative, _⟩ := exists_drawn_of_usable isPair' isRing' others (usable ▸ member)
    obtain ⟨m, there, kind⟩ := Clause.GivesWayTo.exists_kind (Or.inl same) here
    rw [unit, List.mem_singleton] at there
    have isNegative : l.polarity = .negative := of_decide_eq_true negative
    have polarity := (congrArg LiteralKind.polarity kind).trans isNegative
    rw [there] at polarity
    cases polarity
  have withGoal : ((GivenClause.start resolvingOnly refutation).usable.insert g).toList =
      c' :: (rest ++ [g]) := by
    rw [ClauseSet.toList_insert fresh, usable, List.cons_append]
  obtain ⟨last, ran, book, final, given⟩ := GivenClause.exists_run_of_tautologies rfl goals unit
    isOpen (withGoal ▸ isTautology_of_mem_infer_drawings isPair' isRing' others unit) 0
  refine ⟨d', g, last, isRing', unit, ran, book, ?_, ?_, ?_, given⟩ <;> rw [final, withGoal]
  · intro f member
    rcases List.mem_append.1 (List.cons_append ▸ member) with old | isGoal
    · obtain ⟨l, here, _, symbol⟩ := exists_drawn_of_usable isPair' isRing' others old
      exact ⟨l, here, symbol⟩
    · rw [List.mem_singleton.1 isGoal, unit]
      exact ⟨_, List.mem_singleton_self _, rfl⟩
  · exact List.mem_cons_of_mem _ (List.mem_append_left _ inside)
  · exact List.mem_cons_of_mem _ (List.mem_append_right _ (List.mem_singleton_self g))

/-- **Past the limit on ties a resolvent can be lost.** A reachable knowledge base answers without
paramodulation, demodulators and time limit, finds nothing, and among the usable clauses that are
left there are a given one and another one with a resolvent that is neither a tautology nor an
answer and has no stand-in among them. -/
theorem exists_lost_resolvent :
    drawings.Reachable ∧ drawings.procedure = .givenClause none resolvingOnly ∧
      (∃ answer last, drawings.ask 2 undrawn = some (.ok answer, last) ∧ answer.proofs = [] ∧
        answer.timedOut = false) ∧
      ∃ c ∈ GivenClause.finalUsable resolvingOnly 2 (drawings.refutationOf undrawn),
        ∃ d ∈ GivenClause.finalUsable resolvingOnly 2 (drawings.refutationOf undrawn),
          GivenClause.WasGiven resolvingOnly 2 (drawings.refutationOf undrawn) c ∧
            ∃ r : Clause, r.IsResolvent c d ∧ ¬r.isTautology ∧
              ¬r.IsAnswerFor (drawings.refutationOf undrawn).book.predicate ∧
              ¬r.HasStandIn
                (GivenClause.finalUsable resolvingOnly 2 (drawings.refutationOf undrawn)) := by
  obtain ⟨d, _, last, isRing, unit, ran, book, drawn, here, goal, step, given, rfl⟩ :=
    exists_run_drawings
  have procedure : drawings.procedure = .givenClause none resolvingOnly := by
    rw [drawings, procedure_telling, procedure_telling]
    rfl
  have reachable : drawings.Reachable :=
    ((Reachable.initial _).telling _).telling _
  have final : GivenClause.finalUsable resolvingOnly 2 (drawings.refutationOf undrawn) =
      last.usable.toList := by
    rw [GivenClause.finalUsable, ran]
  have isBook : (drawings.refutationOf undrawn).book.predicate = none ∧
      (drawings.refutationOf undrawn).book.outcome = .ok ⟨[], false⟩ := by
    rw [refutationOf, refute_eq]
    exact ⟨rfl, rfl⟩
  refine ⟨reachable, procedure, ?_, ?_⟩
  · have asked : drawings.procedure.ask 2 (drawings.atQuery undrawn) (drawings.freshQuery undrawn) =
        some (.ok ⟨[], false⟩, (drawings.refutationOf undrawn).kb.afterSession last.session) := by
      rw [procedure, Procedure.ask, GivenClause.ask_eq]
      rw [refutationOf] at ran book isBook ⊢
      rw [ran, Option.map_some, book, isBook.2]
    refine ⟨⟨[], false⟩, (drawings.refutationOf undrawn).kb.afterSession last.session, ?_, rfl, rfl⟩
    rw [KnowledgeBase.ask]
    exact congrArg (Option.map _) asked
  · rw [final]
    refine ⟨step.given, goal, d, here, ⟨step, given, .refl _⟩, bareRing,
      (isResolvent_bareRing unit).of_copies (.refl _) isRing.symm, by decide, ?_,
      not_hasStandIn_bareRing drawn⟩
    rintro ⟨predicate, _, isPredicate, _⟩
    rw [isBook.1] at isPredicate
    cases isPredicate

end KnowledgeBase

end ClausalReasoner
