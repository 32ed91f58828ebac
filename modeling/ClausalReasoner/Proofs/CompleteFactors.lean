/-
This file shows that factoring is complete. The factors of a clause without reduced literals begin
with the clause, the others are instances of it with fewer literals, and no two of them have one key.
Whatever substitution is applied to the clause, the literals that become equal are merged by a
factor: it has the same instance, and no two of its literals become equal there. Two literals of a
factor that an instance makes equal have a most general unifier, so merging them keeps the instance
and leaves fewer literals. What merging them makes is among the factors, or a variant of it is if
keys tell such clauses apart, and this comes to an end.
-/

import ClausalReasoner.Proofs.LiftedResolvents
import ClausalReasoner.Proofs.MergedLiterals

namespace ClausalReasoner

/-! ### Different keys -/

namespace Collection

/-- The keys of clauses taken in and of given ones were all seen, and no two of them are the same. -/
structure Distinct (base : List Clause) (collection : Collection) : Prop where
  seen : ∀ c ∈ collection.found ++ base, c.key ∈ collection.seen
  keys : ((collection.found ++ base).map Clause.key).Nodup

variable {base : List Clause} {collection : Collection}

theorem Distinct.addUnified (distinct : collection.Distinct base) (rule : Rule) (ls : List Literal)
    (θ : Substitution) (sources : List StepNumber) :
    (collection.addUnified rule ls θ sources).Distinct base := by
  unfold Collection.addUnified add
  dsimp only
  split
  · exact ⟨distinct.seen, distinct.keys⟩
  · next unseen =>
    refine ⟨List.forall_mem_cons.2 ⟨List.mem_cons_self, fun c inside =>
      List.mem_cons_of_mem _ (distinct.seen c inside)⟩, ?_⟩
    refine List.nodup_cons.2 ⟨fun inside => unseen ?_, distinct.keys⟩
    obtain ⟨c, member, same⟩ := List.mem_map.1 inside
    exact List.contains_iff_mem.2 (same ▸ distinct.seen c member)

theorem Distinct.addFactor (distinct : collection.Distinct base) (c : Clause)
    (pair : Literal × Literal) : (addFactor c collection pair).Distinct base := by
  rw [ClausalReasoner.addFactor]
  split
  · exact distinct
  · exact distinct.addUnified _ _ _ _

/-- Factors are collected under different keys. -/
theorem Distinct.collectFactors (depth : Nat) (c : Clause) (distinct : collection.Distinct []) :
    (collectFactors depth c collection).Distinct [] := by
  induction depth generalizing c collection with
  | zero => exact distinct
  | succ depth inductionHypothesis =>
    rw [ClausalReasoner.collectFactors]
    have start : Distinct collection.found ⟨collection.session, collection.seen, []⟩ := by
      refine ⟨fun d member => distinct.seen d ?_, ?_⟩
      · rwa [List.append_nil]
      · rw [List.nil_append, ← List.append_nil collection.found]
        exact distinct.keys
    have direct : (c.factorPairs.foldl (ClausalReasoner.addFactor c)
        ⟨collection.session, collection.seen, []⟩).Distinct collection.found :=
      foldl_invariant (fun later : Collection => later.Distinct collection.found)
        (fun later pair _ kept => kept.addFactor c pair) start
    refine foldl_invariant (fun later : Collection => later.Distinct [])
      (fun later factor _ kept => inductionHypothesis factor kept) ⟨fun d member => ?_, ?_⟩
    · rw [List.append_nil] at member
      exact direct.seen d member
    · rw [List.append_nil]
      exact direct.keys

end Collection

theorem Session.nodup_key_factors (session : Session) (c : Clause) :
    ((session.factors c).1.map Clause.key).Nodup := by
  have start : (⟨session, [c.key], [c]⟩ : Collection).Distinct [] :=
    ⟨fun d member => List.mem_singleton.1 member ▸ List.mem_singleton_self _, List.nodup_singleton _⟩
  have keys := (start.collectFactors (c.size + c.vars.length + 1) c).keys
  rw [List.append_nil] at keys
  rw [Session.factors, List.map_reverse]
  exact List.nodup_reverse.2 keys

/-! ### Fewer literals -/

/-- Literals without repetitions that others were merged into are fewer, if none is reduced. -/
theorem Literal.MergeInto.size_lt {c f : Clause} (merge : MergeInto c.literals f.literals)
    (plain : c.Plain) : f.size < c.size := by
  obtain ⟨value, images, l, here, m, there, different, polarity, equal⟩ := merge
  have perm : f.literals.Perm (firstOccurrences (c.literals.map (replace value))) :=
    (List.perm_ext_iff_of_nodup f.distinct (nodup_firstOccurrences _)).2 fun k => by
      rw [images, mem_firstOccurrences]
  rw [Clause.size, perm.length_eq]
  refine length_firstOccurrences_map_lt here there different ?_
  rw [replace, replace, equal, polarity, plain l here, plain m there]

/-! ### Merging what an instance makes equal -/

namespace Clause

/-- What merging two literals of a clause makes of it. -/
def merged (c : Clause) : List Clause :=
  c.factorPairs.filterMap fun pair => (pair.1.atom.unify pair.2.atom).map c.substitute

variable {c d : Clause}

/-- If an instance makes two literals of a clause equal, then it is one of what merging two literals
makes. -/
theorem exists_mem_merged {into : Variable → Term} {l m : Literal} (here : l ∈ c.literals)
    (there : m ∈ c.literals) (different : l ≠ m) (same : l.replace into = m.replace into) :
    ∃ d ∈ c.merged, Literal.HaveInstance d.literals (c.literals.map (Literal.replace into)) := by
  obtain ⟨pair, tried, equal⟩ : ∃ pair ∈ c.factorPairs,
      pair.1.atom.replace into = pair.2.atom.replace into := by
    have atoms : l.atom.replace into = m.atom.replace into := congrArg Literal.atom same
    have polarity : (l.replace into).polarity = (m.replace into).polarity :=
      congrArg Literal.polarity same
    exact (mem_factorPairs_or here there different polarity).elim
      (fun forth => ⟨_, forth, atoms⟩) fun back => ⟨_, back, atoms.symm⟩
  obtain ⟨θ, found, respects⟩ := Atom.exists_unify equal
  refine ⟨c.substitute θ, List.mem_filterMap.2 ⟨pair, tried, by rw [found]; rfl⟩, ?_⟩
  refine Literal.HaveInstance.firstOccurrences ⟨into, fun k => ?_⟩
  rw [Literal.substituteList, List.map_map]
  exact iff_of_eq (congrArg (k ∈ ·)
    (List.map_congr_left fun n _ => Literal.replace_substitute respects n))

theorem size_lt_of_mem_merged (plain : c.Plain) (member : d ∈ c.merged) : d.size < c.size := by
  obtain ⟨pair, tried, made⟩ := List.mem_filterMap.1 member
  obtain ⟨θ, found, rfl⟩ := Option.map_eq_some_iff.1 made
  exact length_factor_lt plain tried found

/-- The key of what merging two literals makes is there if all such keys are. -/
theorem MergesInto.key_mem {keys : List String} (merges : c.MergesInto keys)
    (member : d ∈ c.merged) : d.key ∈ keys := by
  obtain ⟨pair, tried, made⟩ := List.mem_filterMap.1 member
  obtain ⟨θ, found, rfl⟩ := Option.map_eq_some_iff.1 made
  rw [key_eq]
  exact merges pair tried θ found

end Clause

/-- An instance of a factor is an instance of a factor whose literals stay different. -/
theorem KeyedFactors.exists_injOn {c : Clause} {session : Session} {fs : List Clause}
    (keyed : KeyedFactors c session fs) (tellApart : KeysTellApart (fs ++ fs.flatMap Clause.merged))
    {f : Clause} (member : f ∈ fs) {ks : List Literal} (given : Literal.HaveInstance f.literals ks) :
    ∃ g ∈ fs, ∃ σ : Substitution, (∀ k, k ∈ Literal.substituteList σ g.literals ↔ k ∈ ks) ∧
      Set.InjOn (Literal.substitute σ) {l | l ∈ g.literals} := by
  -- by induction on the number of literals, which merging makes smaller
  induction size : f.size using Nat.strong_induction_on generalizing f with
  | h n inductionHypothesis =>
    obtain ⟨into, same⟩ := given
    by_cases injective : Set.InjOn (Literal.replace into) {l | l ∈ f.literals}
    · obtain ⟨σ, each⟩ := f.exists_substitute_eq into
      refine ⟨f, member, σ, fun k => ?_, injective.congr fun l inside => (each l inside).symm⟩
      rw [Literal.substituteList, List.map_congr_left each, same]
    · obtain ⟨l, here, m, there, equal, different⟩ : ∃ l ∈ f.literals, ∃ m ∈ f.literals,
          l.replace into = m.replace into ∧ l ≠ m := by
        by_contra none
        push Not at none
        exact injective fun l here m there equal => none l here m there equal
      obtain ⟨merge, made, instances⟩ := Clause.exists_mem_merged here there different equal
      obtain ⟨g, inside, key⟩ := List.mem_map.1 ((keyed.merges f member).key_mem made)
      have alike : g.Alike merge := tellApart g (List.mem_append_left _ inside) merge
        (List.mem_append_right _ (List.mem_flatMap.2 ⟨f, member, made⟩)) key
      have smaller : g.size < n := by
        rw [← alike.size_eq, ← size]
        exact Clause.size_lt_of_mem_merged (keyed.plain f member) made
      refine inductionHypothesis g.size smaller inside ?_ rfl
      exact (alike.haveInstance instances).imp fun _ images k => (images k).trans (same k)

/-- **Factoring is complete.** The factors of a clause without reduced literals whose indices are
used up begin with the clause, the others are instances of it with fewer literals, and no two have
one key. Every instance of the clause is, as a set of literals, an instance of a factor that keeps
different literals different, provided that keys tell apart the factors and what merging two of
their literals makes. (The factors that were taken in have different keys anyhow; it matters what was
left out because of its key.) -/
theorem factors_complete (session : Session) {c : Clause} (plain : c.Plain)
    (below : c.VariablesBelow session.supply.next) :
    (∃ others, (session.factors c).1 = c :: others ∧ ∀ f ∈ others, f.size < c.size ∧
      ∃ σ : Substitution, ∀ k, k ∈ f.literals ↔ k ∈ Literal.substituteList σ c.literals) ∧
    ((session.factors c).1.map Clause.key).Nodup ∧
    (KeysTellApart ((session.factors c).1 ++ (session.factors c).1.flatMap Clause.merged) →
      ∀ s : Substitution, ∃ f ∈ (session.factors c).1, ∃ r : Substitution,
        (∀ k, k ∈ Literal.substituteList r f.literals ↔
          k ∈ Literal.substituteList s c.literals) ∧
        Set.InjOn (Literal.substitute r) {l | l ∈ f.literals}) := by
  refine ⟨?_, session.nodup_key_factors c, fun tellApart s => ?_⟩
  · obtain ⟨others, factors, merge⟩ := session.exists_factors_eq_cons c
    refine ⟨others, factors, fun f member => ⟨(merge f member).size_lt plain, ?_⟩⟩
    obtain ⟨value, images, _⟩ := merge f member
    obtain ⟨σ, each⟩ := c.exists_substitute_eq value
    exact ⟨σ, fun k => by rw [Literal.substituteList, List.map_congr_left each, images]⟩
  · have keyed := session.keyedFactors_factors plain below
    exact keyed.exists_injOn tellApart keyed.self ⟨s.value, fun _ => Iff.rfl⟩

/-! ### Three literals that become one -/

/-- `P(x) ∨ P(y) ∨ P(A)`. -/
def threeLiterals : Clause :=
  .ofLiterals [.positive (.predicate "P" [.var ⟨"x", none⟩]),
    .positive (.predicate "P" [.var ⟨"y", none⟩]), .positive (.predicate "P" [.constant "A"])]

/-- Some factor has a single literal that becomes `P(A)` where all three literals do. -/
theorem factors_threeLiterals :
    (∃ others, (Session.factors {} threeLiterals).1 = threeLiterals :: others) ∧
    ∃ f ∈ (Session.factors {} threeLiterals).1, ∃ r : Substitution,
      (∀ k, k ∈ Literal.substituteList r f.literals ↔
        k ∈ [Literal.positive (.predicate "P" [.constant "A"])]) ∧
      Set.InjOn (Literal.substitute r) {l | l ∈ f.literals} := by
  have plain : threeLiterals.Plain := by unfold Clause.Plain; decide
  have unindexed : ∀ v ∈ Literal.occurrencesList threeLiterals.literals, v.index = none := by decide
  have below : threeLiterals.VariablesBelow 0 := by
    intro v occurs index same
    cases (unindexed v occurs).symm.trans same
  have few : (((Session.factors {} threeLiterals).1 ++
      (Session.factors {} threeLiterals).1.flatMap Clause.merged).all
        fun c => c.HasFewOrders) = true := by cbv
  have tellApart := keysTellApart_of_hasFewOrders fun c member =>
    of_decide_eq_true (List.all_eq_true.1 few c member)
  obtain ⟨⟨others, begins, _⟩, _, complete⟩ := factors_complete {} plain below
  refine ⟨⟨others, begins⟩, ?_⟩
  obtain ⟨f, member, r, same, injective⟩ := complete tellApart
    (.ofList [(⟨"x", none⟩, .constant "A"), (⟨"y", none⟩, .constant "A")])
  have images : Literal.substituteList (.ofList [(⟨"x", none⟩, .constant "A"),
      (⟨"y", none⟩, .constant "A")]) threeLiterals.literals =
        List.replicate 3 (.positive (.predicate "P" [.constant "A"])) := by cbv
  refine ⟨f, member, r, fun k => (same k).trans ?_, injective⟩
  rw [images, List.mem_replicate, List.mem_singleton]
  exact and_iff_right (by decide)

end ClausalReasoner
