/-
This file shows that nothing is lost in collecting factors and resolvents. A result is left out only
if its key was seen, and within the limit on ties the key of a clause that was taken in is the key
of a clause that covers the result. Every factor has fewer literals than the clause it comes from,
so the repetitions that the number of literals allows are enough for the factors of factors: of all
clauses collected the result of merging any two literals is covered by one of them. A resolvent of
two clauses is covered likewise.
-/

import ClausalReasoner.Proofs.ClausesApart
import ClausalReasoner.Proofs.FormedClauses

namespace ClausalReasoner

/-! ### Lists that clauses represent -/

/-- One of the clauses covers the given literals. -/
def Represented (cs : List Clause) (ls : List Literal) : Prop :=
  ∃ c ∈ cs, Covers c.literals ls

namespace Represented

variable {cs ds : List Clause} {ls : List Literal}

theorem mono (represented : Represented cs ls) (subset : cs ⊆ ds) : Represented ds ls :=
  represented.imp fun _ covering => ⟨subset covering.1, covering.2⟩

theorem of_mem {c : Clause} (member : c ∈ cs) : Represented cs c.literals :=
  ⟨c, member, .refl _⟩

/-- What represents all clauses of a list represents what they represent. -/
theorem trans (represented : Represented cs ls)
    (each : ∀ c ∈ cs, Represented ds c.literals) : Represented ds ls := by
  obtain ⟨c, member, covers⟩ := represented
  obtain ⟨d, inside, further⟩ := each c member
  exact ⟨d, inside, further.trans covers⟩

end Represented

namespace Clause

/-- No literal of a clause is reduced. -/
def Plain (c : Clause) : Prop :=
  ∀ l ∈ c.literals, l.reduced = false

/-- Merging any two literals of a clause gives a result that is represented. -/
def FactorsIn (cs : List Clause) (c : Clause) : Prop :=
  ∀ pair ∈ c.factorPairs, ∀ θ, pair.1.atom.unify pair.2.atom = some θ →
    Represented cs (firstOccurrences (Literal.substituteList θ c.literals))

theorem FactorsIn.mono {cs ds : List Clause} {c : Clause} (factors : c.FactorsIn cs)
    (subset : cs ⊆ ds) : c.FactorsIn ds :=
  fun pair member θ found => (factors pair member θ found).mono subset

theorem FactorsIn.trans {cs ds : List Clause} {c : Clause} (factors : c.FactorsIn cs)
    (each : ∀ c ∈ cs, Represented ds c.literals) : c.FactorsIn ds :=
  fun pair member θ found => (factors pair member θ found).trans each

end Clause

/-! ### Merging literals leaves fewer -/

theorem mem_of_mem_laterPairs {Element : Type} {list : List Element} {pair : Element × Element}
    (member : pair ∈ laterPairs list) : pair.1 ∈ list ∧ pair.2 ∈ list := by
  induction list with
  | nil => exact absurd member List.not_mem_nil
  | cons first rest inductionHypothesis =>
    rcases List.mem_append.1 member with here | later
    · obtain ⟨second, inside, rfl⟩ := List.mem_map.1 here
      exact ⟨List.mem_cons_self, List.mem_cons_of_mem _ inside⟩
    · obtain ⟨left, right⟩ := inductionHypothesis later
      exact ⟨List.mem_cons_of_mem _ left, List.mem_cons_of_mem _ right⟩

theorem ne_of_mem_laterPairs {Element : Type} {list : List Element} (distinct : list.Nodup)
    {pair : Element × Element} (member : pair ∈ laterPairs list) : pair.1 ≠ pair.2 := by
  induction list with
  | nil => exact absurd member List.not_mem_nil
  | cons first rest inductionHypothesis =>
    obtain ⟨absent, others⟩ := List.nodup_cons.1 distinct
    rcases List.mem_append.1 member with here | later
    · obtain ⟨second, inside, rfl⟩ := List.mem_map.1 here
      have different : first ≠ second := fun same => absent (same ▸ inside)
      exact different
    · exact inductionHypothesis others later

/-- Any two elements of a list make a pair, in one order or the other. -/
theorem mem_laterPairs_or {Element : Type} {list : List Element} {first second : Element}
    (here : first ∈ list) (there : second ∈ list) (different : first ≠ second) :
    (first, second) ∈ laterPairs list ∨ (second, first) ∈ laterPairs list := by
  induction list with
  | nil => exact absurd here List.not_mem_nil
  | cons head rest inductionHypothesis =>
    rcases List.mem_cons.1 here with rfl | firstLater
    · have inside := (List.mem_cons.1 there).resolve_left (Ne.symm different)
      exact Or.inl (List.mem_append_left _ (List.mem_map_of_mem inside))
    · rcases List.mem_cons.1 there with rfl | secondLater
      · exact Or.inr (List.mem_append_left _ (List.mem_map_of_mem firstLater))
      · exact (inductionHypothesis firstLater secondLater).imp
          (List.mem_append_right _) (List.mem_append_right _)

/-- A list is shorter without repetitions if two of its elements, at different places before they
were changed, have become equal. -/
theorem length_firstOccurrences_map_lt {Element Image : Type} [DecidableEq Element]
    [DecidableEq Image] {change : Element → Image} {list : List Element} {first second : Element}
    (here : first ∈ list) (there : second ∈ list) (different : first ≠ second)
    (same : change first = change second) :
    (firstOccurrences (list.map change)).length < list.length := by
  have subset : firstOccurrences (list.map change) ⊆ (list.erase first).map change := by
    intro image member
    obtain ⟨element, inside, rfl⟩ := List.mem_map.1 (mem_firstOccurrences.1 member)
    by_cases isFirst : element = first
    · rw [isFirst, same]
      exact List.mem_map_of_mem ((List.mem_erase_of_ne (Ne.symm different)).2 there)
    · exact List.mem_map_of_mem ((List.mem_erase_of_ne isFirst).2 inside)
  have shorter := (List.subperm_of_subset (nodup_firstOccurrences _) subset).length_le
  rw [List.length_map, List.length_erase_of_mem here] at shorter
  have some := List.length_pos_of_mem here
  omega

namespace Clause

/-- The literals of a pair that factoring tries are two different ones of one polarity. -/
theorem of_mem_factorPairs {c : Clause} {pair : Literal × Literal}
    (member : pair ∈ c.factorPairs) : pair.1 ∈ c.literals ∧ pair.2 ∈ c.literals ∧
      pair.1 ≠ pair.2 ∧ pair.1.polarity = pair.2.polarity := by
  rcases List.mem_append.1 member with positive | negative
  · obtain ⟨left, right⟩ := mem_of_mem_laterPairs positive
    obtain ⟨inLeft, isLeft⟩ := List.mem_filter.1 left
    obtain ⟨inRight, isRight⟩ := List.mem_filter.1 right
    exact ⟨inLeft, inRight, ne_of_mem_laterPairs (c.distinct.filter _) positive,
      (of_decide_eq_true isLeft).trans (of_decide_eq_true isRight).symm⟩
  · obtain ⟨left, right⟩ := mem_of_mem_laterPairs negative
    obtain ⟨inLeft, isLeft⟩ := List.mem_filter.1 left
    obtain ⟨inRight, isRight⟩ := List.mem_filter.1 right
    exact ⟨inLeft, inRight, ne_of_mem_laterPairs (c.distinct.filter _) negative,
      (of_decide_eq_true isLeft).trans (of_decide_eq_true isRight).symm⟩

/-- Factoring tries any two different literals of one polarity. -/
theorem mem_factorPairs_or {c : Clause} {l m : Literal} (left : l ∈ c.literals)
    (right : m ∈ c.literals) (different : l ≠ m) (same : l.polarity = m.polarity) :
    (l, m) ∈ c.factorPairs ∨ (m, l) ∈ c.factorPairs := by
  cases polarity : l.polarity with
  | positive =>
    have here : l ∈ c.positives := List.mem_filter.2 ⟨left, decide_eq_true polarity⟩
    have there : m ∈ c.positives :=
      List.mem_filter.2 ⟨right, decide_eq_true (same.symm.trans polarity)⟩
    exact (mem_laterPairs_or here there different).imp
      (List.mem_append_left _) (List.mem_append_left _)
  | negative =>
    have here : l ∈ c.negatives := List.mem_filter.2 ⟨left, decide_eq_true polarity⟩
    have there : m ∈ c.negatives :=
      List.mem_filter.2 ⟨right, decide_eq_true (same.symm.trans polarity)⟩
    exact (mem_laterPairs_or here there different).imp
      (List.mem_append_right _) (List.mem_append_right _)

/-- A factor has fewer literals than the clause. -/
theorem length_factor_lt {c : Clause} (plain : c.Plain) {pair : Literal × Literal}
    (member : pair ∈ c.factorPairs) {θ : Substitution}
    (found : pair.1.atom.unify pair.2.atom = some θ) :
    (firstOccurrences (Literal.substituteList θ c.literals)).length < c.size := by
  obtain ⟨left, right, different, same⟩ := of_mem_factorPairs member
  refine length_firstOccurrences_map_lt left right different ?_
  rw [Literal.substitute, Literal.substitute, Atom.substitute_eq_of_unify found, same,
    plain _ left, plain _ right]

end Clause

/-! ### Taking in a result -/

namespace Collection

/-- The keys seen are those of clauses taken in or of given ones, and all of these are within the
limit on ties and older than the supply. -/
structure Tracks (base : List Clause) (collection : Collection) : Prop where
  seen : ∀ key ∈ collection.seen, ∃ c ∈ base ++ collection.found, c.key = key
  within : ∀ c ∈ base ++ collection.found, WithinTieLimit c.literals
  below : ∀ c ∈ base ++ collection.found, c.VariablesBelow collection.session.supply.next

/-- Results are only added and indices only used up. -/
structure Grows (collection later : Collection) : Prop where
  found : collection.found ⊆ later.found
  supply : collection.session.supply.next ≤ later.session.supply.next

theorem Grows.refl (collection : Collection) : collection.Grows collection :=
  ⟨List.Subset.refl _, Nat.le_refl _⟩

theorem Grows.trans {first second third : Collection} (here : first.Grows second)
    (there : second.Grows third) : first.Grows third :=
  ⟨List.Subset.trans here.found there.found, Nat.le_trans here.supply there.supply⟩

/-- A result whose key was seen changes nothing but the supply; any other is taken in. -/
theorem addUnified_cases (collection : Collection) (rule : Rule) (ls : List Literal)
    (θ : Substitution) (sources : List StepNumber) :
    (collection.addUnified rule ls θ sources).session.supply =
        (collection.session.rename (Clause.ofLiterals (Literal.substituteList θ ls))).2.supply ∧
      (((collection.unified ls θ).key ∈ collection.seen ∧
          (collection.addUnified rule ls θ sources).seen = collection.seen ∧
          (collection.addUnified rule ls θ sources).found = collection.found) ∨
        ∃ c : Clause, c.literals = (collection.unified ls θ).literals ∧
          (collection.addUnified rule ls θ sources).seen = c.key :: collection.seen ∧
          (collection.addUnified rule ls θ sources).found = c :: collection.found) := by
  let renamed := collection.session.rename (Clause.ofLiterals (Literal.substituteList θ ls))
  unfold addUnified add
  dsimp only
  split
  · next seen => exact ⟨rfl, Or.inl ⟨List.contains_iff_mem.1 seen, rfl, rfl⟩⟩
  · exact ⟨rfl, Or.inr ⟨(renamed.2.conclude rule renamed.1 (.unifier θ) sources).1, rfl, rfl, rfl⟩⟩

theorem mem_or_of_mem_addUnified {collection : Collection} {rule : Rule} {ls : List Literal}
    {θ : Substitution} {sources : List StepNumber} {c : Clause}
    (member : c ∈ (collection.addUnified rule ls θ sources).found) :
    c ∈ collection.found ∨ c.literals = (collection.unified ls θ).literals := by
  rcases (collection.addUnified_cases rule ls θ sources).2 with
    ⟨_, _, same⟩ | ⟨d, literals, _, new⟩
  · exact Or.inl (same ▸ member)
  · rw [new] at member
    exact (List.mem_cons.1 member).symm.imp_right
      fun isNew => (congrArg Clause.literals isNew).trans literals

variable {base : List Clause} {collection : Collection}

/-- A result within the limit is represented once it was to be taken in. -/
theorem Tracks.addUnified (tracks : collection.Tracks base) {ls : List Literal} {θ : Substitution}
    (within : WithinTieLimit (collection.unified ls θ).literals) (rule : Rule)
    (sources : List StepNumber) :
    (collection.addUnified rule ls θ sources).Tracks base ∧
      collection.Grows (collection.addUnified rule ls θ sources) ∧
      Represented (base ++ (collection.addUnified rule ls θ sources).found)
        (firstOccurrences (Literal.substituteList θ ls)) := by
  obtain ⟨isCopy, grows, fresh⟩ :=
    collection.session.copyOf_rename (Clause.ofLiterals (Literal.substituteList θ ls))
  have covers : Covers (collection.unified ls θ).literals
      (firstOccurrences (Literal.substituteList θ ls)) := isCopy.covers.2
  obtain ⟨supply, cases⟩ := collection.addUnified_cases rule ls θ sources
  generalize collection.addUnified rule ls θ sources = after at supply cases
  have older : ∀ c ∈ base ++ collection.found, c.VariablesBelow after.session.supply.next :=
    fun c member => (tracks.below c member).mono (supply ▸ grows)
  rcases cases with ⟨seen, sameSeen, sameFound⟩ | ⟨c, literals, newSeen, newFound⟩
  · obtain ⟨c, member, key⟩ := tracks.seen _ seen
    rw [Clause.key_eq, Clause.key_eq] at key
    refine ⟨⟨?_, ?_, ?_⟩, ⟨?_, supply ▸ grows⟩, ?_⟩
    · rw [sameSeen, sameFound]
      exact tracks.seen
    · rw [sameFound]
      exact tracks.within
    · rw [sameFound]
      exact older
    · rw [sameFound]
      exact List.Subset.refl _
    · rw [sameFound]
      exact ⟨c, member, (covers_of_canonicalKey_eq (tracks.within c member) within key).trans
        covers⟩
  · have split : ∀ d ∈ base ++ after.found, d ∈ base ++ collection.found ∨ d = c := by
      intro d member
      rw [newFound] at member
      rcases List.mem_append.1 member with old | inside
      · exact Or.inl (List.mem_append_left _ old)
      · exact (List.mem_cons.1 inside).symm.imp_left (List.mem_append_right _)
    have kept : base ++ collection.found ⊆ base ++ after.found := by
      rw [newFound]
      exact List.append_subset.2 ⟨List.subset_append_left _ _,
        List.subset_append_of_subset_right _ (List.subset_cons_self _ _)⟩
    have isIn : c ∈ base ++ after.found := by
      rw [newFound]
      exact List.mem_append_right _ List.mem_cons_self
    refine ⟨⟨?_, ?_, ?_⟩, ⟨?_, supply ▸ grows⟩, ⟨c, isIn, literals ▸ covers⟩⟩
    · intro key member
      rw [newSeen] at member
      rcases List.mem_cons.1 member with rfl | old
      · exact ⟨c, isIn, rfl⟩
      · obtain ⟨d, inside, same⟩ := tracks.seen key old
        exact ⟨d, kept inside, same⟩
    · intro d member
      rcases split d member with old | rfl
      · exact tracks.within d old
      · rw [literals]
        exact within
    · intro d member
      rcases split d member with old | rfl
      · exact older d old
      · rw [Clause.VariablesBelow, literals, supply]
        exact fresh
    · rw [newFound]
      exact List.subset_cons_self _ _

end Collection

/-! ### Collecting factors -/

namespace Clause

theorem CopyOf.plain {copy c : Clause} (isCopy : copy.CopyOf c) (plain : c.Plain) :
    copy.Plain := by
  obtain ⟨forward, _, literals, _⟩ := isCopy
  intro l member
  rw [literals] at member
  obtain ⟨source, origin, rfl⟩ := List.mem_map.1 member
  exact plain source origin

theorem plain_ofLiterals {ls : List Literal} (plain : ∀ l ∈ ls, l.reduced = false)
    (θ : Substitution) : (ofLiterals (Literal.substituteList θ ls)).Plain := by
  intro l member
  obtain ⟨source, origin, rfl⟩ := List.mem_map.1 (mem_firstOccurrences.1 member)
  exact plain source origin

end Clause

namespace Collection

variable {collection : Collection}

/-- What is formed from literals that are not reduced has no reduced literals. -/
theorem plain_of_literals_eq {ls : List Literal} (plain : ∀ l ∈ ls, l.reduced = false)
    {θ : Substitution} {c : Clause}
    (literals : c.literals = (collection.unified ls θ).literals) : c.Plain := by
  have isCopy :=
    (collection.session.copyOf_rename (Clause.ofLiterals (Literal.substituteList θ ls))).1
  intro l member
  exact isCopy.plain (Clause.plain_ofLiterals plain θ) l (literals ▸ member)

theorem size_of_literals_eq {ls : List Literal} {θ : Substitution} {c : Clause}
    (literals : c.literals = (collection.unified ls θ).literals) :
    c.size = (firstOccurrences (Literal.substituteList θ ls)).length := by
  have isCopy :=
    (collection.session.copyOf_rename (Clause.ofLiterals (Literal.substituteList θ ls))).1
  rw [Clause.size, literals]
  exact isCopy.covers.2.length_eq

/-- Trying to merge two literals represents the factor, if there is one, and takes in nothing but
smaller clauses. -/
theorem Tracks.addFactor {base : List Clause} (tracks : collection.Tracks base) {c : Clause}
    (plain : c.Plain) (smaller : ∀ f ∈ collection.found, f.size < c.size ∧ f.Plain)
    {pair : Literal × Literal} (member : pair ∈ c.factorPairs)
    (within : ∀ f ∈ formedFactor c collection pair, WithinTieLimit f.literals) :
    ((addFactor c collection pair).Tracks base ∧
        ∀ f ∈ (addFactor c collection pair).found, f.size < c.size ∧ f.Plain) ∧
      collection.Grows (addFactor c collection pair) ∧
      ∀ θ, pair.1.atom.unify pair.2.atom = some θ →
        Represented (base ++ (addFactor c collection pair).found)
          (firstOccurrences (Literal.substituteList θ c.literals)) := by
  rw [formedFactor] at within
  rw [ClausalReasoner.addFactor]
  cases found : pair.1.atom.unify pair.2.atom with
  | none => exact ⟨⟨tracks, smaller⟩, .refl _, fun θ some => absurd some (by simp)⟩
  | some θ =>
    rw [found] at within
    have formed := within _ (List.mem_singleton.2 rfl)
    obtain ⟨tracksNow, grows, represented⟩ := tracks.addUnified formed .factoring c.sources
    refine ⟨⟨tracksNow, fun f inside => ?_⟩, grows, fun other same => ?_⟩
    · rcases mem_or_of_mem_addUnified inside with old | new
      · exact smaller f old
      · refine ⟨?_, plain_of_literals_eq plain new⟩
        rw [size_of_literals_eq new]
        exact Clause.length_factor_lt plain member found
    · rw [← Option.some.inj same]
      exact represented

/-- All factors of a clause are represented once every pair was tried. -/
theorem Tracks.addFactors {base : List Clause} (tracks : collection.Tracks base)
    (none : collection.found = []) {c : Clause} (plain : c.Plain)
    (within : ∀ f ∈ foldFormed (ClausalReasoner.addFactor c) (formedFactor c) collection
      c.factorPairs, WithinTieLimit f.literals) :
    let direct := c.factorPairs.foldl (ClausalReasoner.addFactor c) collection
    direct.Tracks base ∧ collection.Grows direct ∧
      (∀ f ∈ direct.found, f.size < c.size ∧ f.Plain) ∧
      c.FactorsIn (base ++ direct.found) := by
  have smaller : ∀ f ∈ collection.found, f.size < c.size ∧ f.Plain := by
    rw [none]
    exact fun f member => absurd member List.not_mem_nil
  obtain ⟨⟨tracksNow, smallerNow⟩, grows, achieved⟩ := foldl_achieves
    (fun collection : Collection => collection.Tracks base ∧
      ∀ f ∈ collection.found, f.size < c.size ∧ f.Plain) Grows
    (fun (pair : Literal × Literal) (collection : Collection) =>
      ∀ θ, pair.1.atom.unify pair.2.atom = some θ →
        Represented (base ++ collection.found)
          (firstOccurrences (Literal.substituteList θ c.literals)))
    Grows.refl (fun _ _ _ => Grows.trans)
    (fun pair first second grows represented θ found => (represented θ found).mono
      (List.append_subset.2 ⟨List.subset_append_left _ _,
        List.subset_append_of_subset_right _ grows.found⟩))
    (fun state pair member kept within => kept.1.addFactor plain kept.2 member within)
    ⟨tracks, smaller⟩ within
  exact ⟨tracksNow, grows, smallerNow, achieved⟩

/-- Collecting factors with a depth that covers the number of literals represents the factors of the
clause and of everything that is taken in. -/
theorem Tracks.collectFactors (depth : Nat) {c : Clause} (plain : c.Plain) (enough : c.size ≤ depth)
    (tracks : collection.Tracks [])
    (within : ∀ f ∈ formedFactors depth c collection, WithinTieLimit f.literals) :
    let after := ClausalReasoner.collectFactors depth c collection
    after.Tracks [] ∧ collection.Grows after ∧ c.FactorsIn after.found ∧
      ∀ f ∈ after.found, f ∈ collection.found ∨ (f.Plain ∧ f.FactorsIn after.found) := by
  induction depth generalizing c collection with
  | zero =>
    refine ⟨tracks, .refl _, fun pair member => ?_, fun f member => Or.inl member⟩
    have none : c.literals = [] := List.length_eq_zero_iff.1 (Nat.le_zero.1 enough)
    have inside := (Clause.of_mem_factorPairs member).1
    rw [none] at inside
    exact absurd inside List.not_mem_nil
  | succ depth inductionHypothesis =>
    obtain ⟨withinDirect, withinLater⟩ := List.forall_mem_append.1 within
    let before : Collection := ⟨collection.session, collection.seen, []⟩
    let direct := c.factorPairs.foldl (ClausalReasoner.addFactor c) before
    let joined : Collection := ⟨direct.session, direct.seen, direct.found ++ collection.found⟩
    have tracksBefore : before.Tracks collection.found := by
      refine ⟨?_, ?_, ?_⟩ <;> simp only [before, List.append_nil]
      · exact tracks.seen
      · exact tracks.within
      · exact tracks.below
    obtain ⟨tracksDirect, growsDirect, smaller, factors⟩ :=
      tracksBefore.addFactors rfl plain withinDirect
    have swapped : ∀ f, f ∈ direct.found ++ collection.found ↔
        f ∈ collection.found ++ direct.found := by
      intro f
      rw [List.mem_append, List.mem_append, or_comm]
    have tracksJoined : joined.Tracks [] := by
      refine ⟨fun key seen => ?_, fun f member => ?_, fun f member => ?_⟩
      · obtain ⟨f, member, same⟩ := tracksDirect.seen key seen
        exact ⟨f, (swapped f).2 member, same⟩
      · exact tracksDirect.within f ((swapped f).1 member)
      · exact tracksDirect.below f ((swapped f).1 member)
    obtain ⟨⟨tracksAfter, kept, closed⟩, growsAfter, achieved⟩ := foldl_achieves
      (fun state : Collection => state.Tracks [] ∧ joined.found ⊆ state.found ∧
        ∀ f ∈ state.found, f ∈ joined.found ∨ (f.Plain ∧ f.FactorsIn state.found)) Grows
      (fun (f : Clause) (state : Collection) => f.FactorsIn state.found)
      Grows.refl (fun _ _ _ => Grows.trans)
      (fun f first second grows factors => factors.mono grows.found)
      (fun state f member keeps within => by
        obtain ⟨less, plainFactor⟩ := smaller f member
        obtain ⟨tracksNow, grows, factorsNow, new⟩ :=
          inductionHypothesis plainFactor (by omega) keeps.1 within
        refine ⟨⟨tracksNow, List.Subset.trans keeps.2.1 grows.found, fun g inside => ?_⟩, grows,
          factorsNow⟩
        rcases new g inside with old | isNew
        · exact (keeps.2.2 g old).imp_right fun before => ⟨before.1, before.2.mono grows.found⟩
        · exact Or.inr isNew)
      ⟨tracksJoined, List.Subset.refl _, fun f member => Or.inl member⟩ withinLater
    have growsJoined : collection.Grows joined :=
      ⟨List.subset_append_right _ _, growsDirect.supply⟩
    refine ⟨tracksAfter, growsJoined.trans growsAfter, ?_, fun f member => ?_⟩
    · exact factors.mono fun f member => kept ((swapped f).2 member)
    · rcases closed f member with old | new
      · rcases List.mem_append.1 old with isDirect | isBefore
        · exact Or.inr ⟨(smaller f isDirect).2, achieved f isDirect⟩
        · exact Or.inl isBefore
      · exact Or.inr new

end Collection

/-- What is known of the factors of a clause: the clause is one of them, they are within the limit,
plain and older than the supply that is left, and what their factors are is represented. -/
structure FactorsOf (c : Clause) (session : Session) (fs : List Clause) : Prop where
  self : c ∈ fs
  within : ∀ f ∈ fs, WithinTieLimit f.literals
  plain : ∀ f ∈ fs, f.Plain
  below : ∀ f ∈ fs, f.VariablesBelow session.supply.next
  closed : ∀ f ∈ fs, f.FactorsIn fs

theorem Session.factorsOf_factors (session : Session) {c : Clause} (plain : c.Plain)
    (below : c.VariablesBelow session.supply.next)
    (within : ∀ f ∈ session.formedFactors c, WithinTieLimit f.literals) :
    FactorsOf c (session.factors c).2 (session.factors c).1 ∧
      session.supply.next ≤ (session.factors c).2.supply.next := by
  obtain ⟨withinSelf, withinFactors⟩ := List.forall_mem_cons.1 within
  have start : (⟨session, [c.key], [c]⟩ : Collection).Tracks [] := by
    refine ⟨fun key seen => ?_, fun f member => ?_, fun f member => ?_⟩
    · exact ⟨c, List.mem_singleton.2 rfl, (List.mem_singleton.1 seen).symm⟩
    · rw [List.mem_singleton.1 member]
      exact withinSelf
    · rw [List.mem_singleton.1 member]
      exact below
  obtain ⟨tracks, grows, factors, closed⟩ := start.collectFactors
    (c.size + c.vars.length + 1) plain (by omega) withinFactors
  have reversed : ∀ f, f ∈ (session.factors c).1 ↔ f ∈ (collectFactors
      (c.size + c.vars.length + 1) c ⟨session, [c.key], [c]⟩).found :=
    fun f => List.mem_reverse
  refine ⟨⟨?_, fun f member => ?_, fun f member => ?_, fun f member => ?_, fun f member => ?_⟩,
    grows.supply⟩
  · exact (reversed c).2 (grows.found (List.mem_singleton.2 rfl))
  · exact tracks.within f ((reversed f).1 member)
  · rcases closed f ((reversed f).1 member) with isSelf | new
    · rw [List.mem_singleton.1 isSelf]
      exact plain
    · exact new.1
  · exact tracks.below f ((reversed f).1 member)
  · have subset := fun g inside => (reversed g).2 inside
    rcases closed f ((reversed f).1 member) with isSelf | new
    · rw [List.mem_singleton.1 isSelf]
      exact factors.mono subset
    · exact new.2.mono subset

/-! ### Collecting resolvents -/

theorem ResolvesIn.trans {cs ds : List Clause} {c d : Clause} (resolves : ResolvesIn cs c d)
    (each : ∀ r ∈ cs, Represented ds r.literals) : ResolvesIn ds c d := by
  intro l positive m negative first second equal
  obtain ⟨r, member, into, covered⟩ := resolves l positive m negative first second equal
  obtain ⟨s, inside, value, perm⟩ := each r member
  refine ⟨s, inside, fun v => (value v).replace into, fun k here => ?_⟩
  rw [← Literal.replace_replace]
  exact covered _ (perm.subset (List.mem_map_of_mem here))

theorem ResolvesIn.mono {cs ds : List Clause} {c d : Clause} (resolves : ResolvesIn cs c d)
    (subset : cs ⊆ ds) : ResolvesIn ds c d :=
  resolves.trans fun _ member => .of_mem (subset member)

namespace Collection

variable {collection : Collection}

/-- Trying to resolve upon a pair of literals represents the resolvent, if there is one. -/
theorem Tracks.addResolvent (tracks : collection.Tracks [])
    (plainFound : ∀ r ∈ collection.found, r.Plain) {pair : ResolutionPair}
    (plain : ∀ l ∈ pair.remaining, l.reduced = false)
    (within : ∀ r ∈ formedResolvent collection pair, WithinTieLimit r.literals) :
    ((addResolvent collection pair).Tracks [] ∧
        ∀ r ∈ (addResolvent collection pair).found, r.Plain) ∧
      collection.Grows (addResolvent collection pair) ∧
      ∀ θ, pair.positive.atom.unify pair.negative.atom = some θ →
        Represented (addResolvent collection pair).found
          (firstOccurrences (Literal.substituteList θ pair.remaining)) := by
  rw [formedResolvent] at within
  rw [ClausalReasoner.addResolvent]
  cases found : pair.positive.atom.unify pair.negative.atom with
  | none => exact ⟨⟨tracks, plainFound⟩, .refl _, fun θ some => absurd some (by simp)⟩
  | some θ =>
    rw [found] at within
    have formed := within _ (List.mem_singleton.2 rfl)
    obtain ⟨tracksNow, grows, represented⟩ := tracks.addUnified formed .resolution
      (pair.positiveSide.sources ++ pair.negativeSide.sources)
    refine ⟨⟨tracksNow, fun r inside => ?_⟩, grows, fun other same => ?_⟩
    · exact (mem_or_of_mem_addUnified inside).elim (plainFound r) (plain_of_literals_eq plain)
    · rw [← Option.some.inj same]
      exact represented

end Collection

theorem mem_pairsFrom {c d : Clause} {l m : Literal} (positive : l ∈ c.positives)
    (negative : m ∈ d.negatives) : ⟨c, d, l, m⟩ ∈ pairsFrom c d :=
  List.mem_flatMap.2 ⟨l, positive, List.mem_map.2 ⟨m, negative, rfl⟩⟩

theorem plain_remaining_of_mem {c d : Clause} (plainFirst : c.Plain) (plainSecond : d.Plain)
    {pair : ResolutionPair} (member : pair ∈ pairsFrom c d) :
    ∀ l ∈ pair.remaining, l.reduced = false := by
  obtain ⟨l, _, inner⟩ := List.mem_flatMap.1 member
  obtain ⟨m, _, rfl⟩ := List.mem_map.1 inner
  intro k remaining
  rcases List.mem_append.1 remaining with here | there
  · exact plainFirst k (List.mem_of_mem_erase here)
  · exact plainSecond k (List.mem_of_mem_erase there)

/-- If every pair of literals of two copies that are apart was tried, the clauses are resolved. -/
theorem resolvesIn_of_pairs {cs : List Clause} {c d left right : Clause} (isLeft : left.CopyOf c)
    (isRight : right.CopyOf d) (apart : left.Apart right)
    (tried : ∀ pair ∈ pairsFrom left right, ∀ θ, pair.positive.atom.unify pair.negative.atom = some θ →
      Represented cs (firstOccurrences (Literal.substituteList θ pair.remaining))) :
    ResolvesIn cs c d := by
  intro l positive m negative first second equal
  obtain ⟨l', positive', m', negative', θ, found, into, covered⟩ :=
    exists_unified_pair isLeft isRight apart positive negative equal
  obtain ⟨r, member, value, perm⟩ := tried _ (mem_pairsFrom positive' negative') θ found
  refine ⟨r, member, fun v => (value v).replace into, fun k here => ?_⟩
  rw [← Literal.replace_replace]
  exact (covered _).1 (List.mem_map_of_mem
    (mem_firstOccurrences.1 (perm.subset (List.mem_map_of_mem here))))

/-- Two clauses are resolved in both ways by their resolvents. -/
theorem Session.resolvesIn_resolvents (session : Session) {first second : Clause}
    (below : first.VariablesBelow session.supply.next) (plainFirst : first.Plain)
    (plainSecond : second.Plain)
    (within : ∀ r ∈ session.formedResolvents first second, WithinTieLimit r.literals) :
    let resolvents := session.resolvents first second
    session.supply.next ≤ resolvents.2.supply.next ∧
      (∀ r ∈ resolvents.1, r.Plain ∧ r.VariablesBelow resolvents.2.supply.next) ∧
      ResolvesIn resolvents.1 first second ∧ ResolvesIn resolvents.1 second first := by
  rw [formedResolvents] at within
  rw [resolvents]
  split
  · next bothEmpty =>
    obtain ⟨emptyFirst, emptySecond⟩ := (Bool.and_eq_true _ _).mp bothEmpty
    have noneFirst : first.literals = [] := List.isEmpty_iff.1 emptyFirst
    have noneSecond : second.literals = [] := List.isEmpty_iff.1 emptySecond
    refine ⟨Nat.le_refl _, fun r member => ?_, fun l positive => ?_, fun l positive => ?_⟩
    · rw [List.mem_singleton.1 member]
      exact ⟨fun l inside => absurd inside List.not_mem_nil,
        fun v occurs => absurd occurs List.not_mem_nil⟩
    · have inside := (List.mem_filter.1 positive).1
      rw [noneFirst] at inside
      exact absurd inside List.not_mem_nil
    · have inside := (List.mem_filter.1 positive).1
      rw [noneSecond] at inside
      exact absurd inside List.not_mem_nil
  · next notBoth =>
    rw [if_neg notBoth] at within
    obtain ⟨isCopy, apart, grows⟩ := session.copyOf_apartFrom below second
    have plainCopy := isCopy.plain plainSecond
    have plainPair : ∀ pair ∈ resolutionPairs first (session.apartFrom first second).1,
        ∀ l ∈ pair.remaining, l.reduced = false := by
      intro pair member
      rcases List.mem_append.1 member with here | there
      · exact plain_remaining_of_mem plainFirst plainCopy here
      · exact plain_remaining_of_mem plainCopy plainFirst there
    have start : (⟨(session.apartFrom first second).2, [], []⟩ : Collection).Tracks [] :=
      ⟨fun _ seen => absurd seen List.not_mem_nil, fun _ none => absurd none List.not_mem_nil,
        fun _ none => absurd none List.not_mem_nil⟩
    obtain ⟨⟨tracks, plain⟩, growsLater, achieved⟩ := foldl_achieves
      (fun collection : Collection => collection.Tracks [] ∧ ∀ r ∈ collection.found, r.Plain)
      Collection.Grows
      (fun (pair : ResolutionPair) (collection : Collection) =>
        ∀ θ, pair.positive.atom.unify pair.negative.atom = some θ →
          Represented collection.found
            (firstOccurrences (Literal.substituteList θ pair.remaining)))
      Collection.Grows.refl (fun _ _ _ => Collection.Grows.trans)
      (fun pair before after grows represented θ found => (represented θ found).mono grows.found)
      (fun collection pair member kept within =>
        kept.1.addResolvent kept.2 (plainPair pair member) within)
      ⟨start, fun _ none => absurd none List.not_mem_nil⟩ within
    have reversed := fun r => @List.mem_reverse _ r
      ((resolutionPairs first (session.apartFrom first second).1).foldl addResolvent
        ⟨(session.apartFrom first second).2, [], []⟩).found
    have represented := fun pair member θ found =>
      (achieved pair member θ found).mono fun r inside => (reversed r).2 inside
    refine ⟨Nat.le_trans grows growsLater.supply, fun r member => ?_, ?_, ?_⟩
    · exact ⟨plain r ((reversed r).1 member), tracks.below r ((reversed r).1 member)⟩
    · exact resolvesIn_of_pairs (.refl first) isCopy apart fun pair member =>
        represented pair (List.mem_append_left _ member)
    · exact resolvesIn_of_pairs isCopy (.refl first) apart.symm fun pair member =>
        represented pair (List.mem_append_right _ member)

end ClausalReasoner
