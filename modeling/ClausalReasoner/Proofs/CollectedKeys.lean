/-
This file shows what collecting factors and resolvents comes to when clauses are told apart by their
keys alone. A result is left out only if its key was seen, and every key that was seen is the key of
a clause that was taken in, so the key of every result that was tried is there in the end. As many
repetitions as a clause has literals are enough for the factors of its factors. No limit on ties is
needed, since it is keys and not clauses that are compared here.
-/

import ClausalReasoner.Proofs.SupplyGrowth
import ClausalReasoner.Proofs.VariantResolvents

namespace ClausalReasoner

/-- What the steps of a fold achieve one by one is all achieved in the end, as for
`foldl_achieves` but whatever clauses the steps form. -/
theorem foldl_reaches {State Element : Type} {step : State → Element → State}
    (list : List Element) (keeps : State → Prop) (grows : State → State → Prop)
    (done : Element → State → Prop) (refl : ∀ state, grows state state)
    (trans : ∀ first second third, grows first second → grows second third → grows first third)
    (lasts : ∀ element first second, grows first second → done element first →
      done element second)
    (each : ∀ state, ∀ element ∈ list, keeps state → keeps (step state element) ∧
      grows state (step state element) ∧ done element (step state element))
    {state : State} (start : keeps state) :
    keeps (list.foldl step state) ∧ grows state (list.foldl step state) ∧
      ∀ element ∈ list, done element (list.foldl step state) := by
  have noneFormed : ∀ c ∈ foldFormed step (fun _ _ => []) state list, True := fun _ _ => trivial
  exact foldl_achieves keeps grows done refl trans lasts
    (fun state element member kept _ => each state element member kept) start noneFormed

/-! ### Merging literals -/

namespace Clause

/-- The keys of all results of merging two literals of a clause are among the given ones. -/
def MergesInto (keys : List String) (c : Clause) : Prop :=
  ∀ pair ∈ c.factorPairs, ∀ θ, pair.1.atom.unify pair.2.atom = some θ →
    canonicalKey (firstOccurrences (Literal.substituteList θ c.literals)) ∈ keys

theorem MergesInto.mono {keys others : List String} {c : Clause} (merges : c.MergesInto keys)
    (subset : keys ⊆ others) : c.MergesInto others :=
  fun pair member θ found => subset (merges pair member θ found)

/-- Factoring tries the pairs in one order only and no literal with itself, but the others give no
further keys. -/
theorem MergesInto.key_substitute {keys : List String} {c : Clause} (merges : c.MergesInto keys)
    (self : c.key ∈ keys) {l m : Literal} (left : l ∈ c.literals) (right : m ∈ c.literals)
    (same : l.polarity = m.polarity) {θ : Substitution}
    (found : l.atom.unify m.atom = some θ) : (c.substitute θ).key ∈ keys := by
  rw [key_eq, substitute, literals_ofLiterals]
  by_cases equal : l = m
  · rw [equal] at found
    rwa [canonicalKey_substitute_of_unify_self found, firstOccurrences_of_nodup c.distinct,
      ← key_eq]
  · rcases mem_factorPairs_or left right equal same with forth | back
    · exact merges _ forth θ found
    · obtain ⟨later, swapped, keyLater⟩ := canonicalKey_substitute_unify_comm found c.literals
      exact keyLater ▸ merges _ back later swapped

end Clause

/-! ### Taking in a result -/

namespace Collection

/-- Every key seen is that of a clause taken in or of a given one, and the clauses taken in are
plain and older than the supply. -/
structure Keyed (base : List Clause) (collection : Collection) : Prop where
  seen : ∀ key ∈ collection.seen, key ∈ (base ++ collection.found).map Clause.key
  plain : ∀ c ∈ collection.found, c.Plain
  below : ∀ c ∈ collection.found, c.VariablesBelow collection.session.supply.next

/-- Results and keys are only added, and indices only used up. -/
structure Extends (collection later : Collection) : Prop extends collection.Grows later where
  seen : collection.seen ⊆ later.seen

theorem Extends.refl (collection : Collection) : collection.Extends collection :=
  ⟨.refl _, List.Subset.refl _⟩

theorem Extends.trans {first second third : Collection} (here : first.Extends second)
    (there : second.Extends third) : first.Extends third :=
  ⟨here.toGrows.trans there.toGrows, List.Subset.trans here.seen there.seen⟩

variable {base : List Clause} {collection : Collection}

/-- The key of what is formed with fresh variables is that of the literals under the unifier. -/
theorem key_unified (collection : Collection) (ls : List Literal) (θ : Substitution) :
    (collection.unified ls θ).key =
      canonicalKey (firstOccurrences (Literal.substituteList θ ls)) :=
  (collection.session.copyOf_rename
    (Clause.ofLiterals (Literal.substituteList θ ls))).1.key_eq.trans (Clause.key_eq _)

/-- The key of a result was seen once it was to be taken in. -/
theorem Keyed.addUnified (keyed : collection.Keyed base) {ls : List Literal}
    (plain : ∀ l ∈ ls, l.reduced = false) (rule : Rule) (θ : Substitution)
    (sources : List StepNumber) :
    (collection.addUnified rule ls θ sources).Keyed base ∧
      collection.Extends (collection.addUnified rule ls θ sources) ∧
      canonicalKey (firstOccurrences (Literal.substituteList θ ls)) ∈
        (collection.addUnified rule ls θ sources).seen := by
  obtain ⟨_, _, fresh⟩ :=
    collection.session.copyOf_rename (Clause.ofLiterals (Literal.substituteList θ ls))
  have supplied := collection.next_le_addUnified rule ls θ sources
  obtain ⟨supply, cases⟩ := collection.addUnified_cases rule ls θ sources
  generalize collection.addUnified rule ls θ sources = after at supplied supply cases
  have older : ∀ c ∈ collection.found, c.VariablesBelow after.session.supply.next :=
    fun c member => (keyed.below c member).mono supplied
  rcases cases with ⟨seen, sameSeen, sameFound⟩ | ⟨c, literals, newSeen, newFound⟩
  · refine ⟨⟨?_, ?_, ?_⟩, ⟨⟨?_, supplied⟩, ?_⟩, ?_⟩
    · rw [sameSeen, sameFound]
      exact keyed.seen
    · rw [sameFound]
      exact keyed.plain
    · rw [sameFound]
      exact older
    · rw [sameFound]
      exact List.Subset.refl _
    · rw [sameSeen]
      exact List.Subset.refl _
    · rw [sameSeen, ← key_unified]
      exact seen
  · have key : c.key = canonicalKey (firstOccurrences (Literal.substituteList θ ls)) := by
      rw [← collection.key_unified, c.key_eq, literals, ← Clause.key_eq]
    refine ⟨⟨fun key member => ?_, fun d member => ?_, fun d member => ?_⟩, ⟨⟨?_, supplied⟩, ?_⟩, ?_⟩
    · rw [newFound]
      rw [newSeen] at member
      rcases List.mem_cons.1 member with rfl | old
      · exact List.mem_map_of_mem (List.mem_append_right _ List.mem_cons_self)
      · obtain ⟨d, inside, same⟩ := List.mem_map.1 (keyed.seen key old)
        refine List.mem_map.2 ⟨d, List.mem_append.2 ?_, same⟩
        exact (List.mem_append.1 inside).imp_right (List.mem_cons_of_mem c)
    · rw [newFound] at member
      rcases List.mem_cons.1 member with rfl | old
      · exact plain_of_literals_eq plain literals
      · exact keyed.plain d old
    · rw [newFound] at member
      rcases List.mem_cons.1 member with rfl | old
      · rw [Clause.VariablesBelow, literals, supply]
        exact fresh
      · exact older d old
    · rw [newFound]
      exact List.subset_cons_self _ _
    · rw [newSeen]
      exact List.subset_cons_self _ _
    · rw [newSeen, key]
      exact List.mem_cons_self

/-! ### Collecting factors -/

/-- The key of a factor was seen once the pair was tried, and nothing but smaller clauses were taken
in. -/
theorem Keyed.addFactor (keyed : collection.Keyed base) {c : Clause} (plain : c.Plain)
    (smaller : ∀ f ∈ collection.found, f.size < c.size) {pair : Literal × Literal}
    (member : pair ∈ c.factorPairs) :
    ((addFactor c collection pair).Keyed base ∧
        ∀ f ∈ (addFactor c collection pair).found, f.size < c.size) ∧
      collection.Extends (addFactor c collection pair) ∧
      ∀ θ, pair.1.atom.unify pair.2.atom = some θ →
        canonicalKey (firstOccurrences (Literal.substituteList θ c.literals)) ∈
          (addFactor c collection pair).seen := by
  rw [ClausalReasoner.addFactor]
  cases found : pair.1.atom.unify pair.2.atom with
  | none =>
    refine ⟨⟨keyed, smaller⟩, .refl _, fun θ some => ?_⟩
    cases some
  | some θ =>
    obtain ⟨keyedNow, grows, seen⟩ := keyed.addUnified plain .factoring θ c.sources
    refine ⟨⟨keyedNow, fun f inside => ?_⟩, grows, fun other same => ?_⟩
    · rcases mem_or_of_mem_addUnified inside with old | new
      · exact smaller f old
      · rw [size_of_literals_eq new]
        exact Clause.length_factor_lt plain member found
    · rw [← Option.some.inj same]
      exact seen

/-- Collecting factors with a depth that covers the number of literals sees the keys of all factors
of the clause and of everything that is taken in. -/
theorem Keyed.collectFactors (depth : Nat) {c : Clause} (plain : c.Plain) (enough : c.size ≤ depth)
    (keyed : collection.Keyed []) :
    let after := ClausalReasoner.collectFactors depth c collection
    after.Keyed [] ∧ collection.Extends after ∧ c.MergesInto after.seen ∧
      ∀ f ∈ after.found, f ∈ collection.found ∨ f.MergesInto after.seen := by
  induction depth generalizing c collection with
  | zero =>
    refine ⟨keyed, .refl _, fun pair member => ?_, fun f member => Or.inl member⟩
    have none : c.literals = [] := List.length_eq_zero_iff.1 (Nat.le_zero.1 enough)
    have inside := (Clause.of_mem_factorPairs member).1
    rw [none] at inside
    exact absurd inside List.not_mem_nil
  | succ depth inductionHypothesis =>
    let before : Collection := ⟨collection.session, collection.seen, []⟩
    let direct := c.factorPairs.foldl (ClausalReasoner.addFactor c) before
    let joined : Collection := ⟨direct.session, direct.seen, direct.found ++ collection.found⟩
    have start : before.Keyed collection.found ∧ ∀ f ∈ before.found, f.size < c.size := by
      refine ⟨⟨fun key seen => ?_, fun f none => absurd none List.not_mem_nil,
        fun f none => absurd none List.not_mem_nil⟩, fun f none => absurd none List.not_mem_nil⟩
      rw [List.append_nil]
      exact keyed.seen key seen
    obtain ⟨⟨keyedDirect, smaller⟩, growsDirect, merges⟩ := foldl_reaches c.factorPairs
      (fun state : Collection => state.Keyed collection.found ∧ ∀ f ∈ state.found, f.size < c.size)
      Extends
      (fun (pair : Literal × Literal) (state : Collection) =>
        ∀ θ, pair.1.atom.unify pair.2.atom = some θ →
          canonicalKey (firstOccurrences (Literal.substituteList θ c.literals)) ∈ state.seen)
      Extends.refl (fun _ _ _ => Extends.trans)
      (fun pair first second grows seen θ found => grows.seen (seen θ found))
      (fun state pair member kept => kept.1.addFactor plain kept.2 member) start
    have keyedJoined : joined.Keyed [] := by
      refine ⟨fun key seen => ?_, fun f member => ?_, fun f member => ?_⟩
      · have known := keyedDirect.seen key seen
        rw [List.map_append, List.mem_append, or_comm, ← List.mem_append,
          ← List.map_append] at known
        exact known
      · exact (List.mem_append.1 member).elim (keyedDirect.plain f) (keyed.plain f)
      · exact (List.mem_append.1 member).elim (keyedDirect.below f)
          fun old => (keyed.below f old).mono growsDirect.supply
    obtain ⟨⟨keyedAfter, growsAfter, closed⟩, _, achieved⟩ := foldl_reaches direct.found
      (fun state : Collection => state.Keyed [] ∧ joined.Extends state ∧
        ∀ f ∈ state.found, f ∈ joined.found ∨ f.MergesInto state.seen) Extends
      (fun (f : Clause) (state : Collection) => f.MergesInto state.seen)
      Extends.refl (fun _ _ _ => Extends.trans)
      (fun f first second grows merges => merges.mono grows.seen)
      (fun state f member kept => by
        have less := smaller f member
        obtain ⟨keyedNow, grows, mergesNow, new⟩ :=
          inductionHypothesis (keyedDirect.plain f member) (by omega) kept.1
        refine ⟨⟨keyedNow, kept.2.1.trans grows, fun g inside => ?_⟩, grows, mergesNow⟩
        rcases new g inside with old | isNew
        · exact (kept.2.2 g old).imp_right fun merges => merges.mono grows.seen
        · exact Or.inr isNew)
      ⟨keyedJoined, .refl _, fun f member => Or.inl member⟩
    have growsJoined : collection.Extends joined :=
      ⟨⟨List.subset_append_right _ _, growsDirect.supply⟩, growsDirect.seen⟩
    refine ⟨keyedAfter, growsJoined.trans growsAfter, fun pair member θ found =>
      growsAfter.seen (merges pair member θ found), fun f member => ?_⟩
    rcases closed f member with old | new
    · exact (List.mem_append.1 old).symm.imp_right (achieved f)
    · exact Or.inr new

end Collection

/-- What is known of the factors of a clause by their keys: the clause is one of them, they are plain
and older than the supply that is left, and the keys of their factors are theirs. -/
structure KeyedFactors (c : Clause) (session : Session) (fs : List Clause) : Prop where
  self : c ∈ fs
  plain : ∀ f ∈ fs, f.Plain
  below : ∀ f ∈ fs, f.VariablesBelow session.supply.next
  merges : ∀ f ∈ fs, f.MergesInto (fs.map Clause.key)

namespace Session

theorem keyedFactors_factors (session : Session) {c : Clause} (plain : c.Plain)
    (below : c.VariablesBelow session.supply.next) :
    KeyedFactors c (session.factors c).2 (session.factors c).1 := by
  have start : (⟨session, [c.key], [c]⟩ : Collection).Keyed [] := by
    refine ⟨fun key seen => ?_, fun f member => ?_, fun f member => ?_⟩
    · rw [List.mem_singleton.1 seen]
      exact List.mem_singleton_self _
    · rw [List.mem_singleton.1 member]
      exact plain
    · rw [List.mem_singleton.1 member]
      exact below
  obtain ⟨keyed, grows, merges, closed⟩ :=
    start.collectFactors (c.size + c.vars.length + 1) plain (by omega)
  have reversed : ∀ f, f ∈ (session.factors c).1 ↔ f ∈ (collectFactors
      (c.size + c.vars.length + 1) c ⟨session, [c.key], [c]⟩).found :=
    fun f => List.mem_reverse
  have keys : ∀ {f : Clause}, f.MergesInto (collectFactors (c.size + c.vars.length + 1) c
      ⟨session, [c.key], [c]⟩).seen → f.MergesInto ((session.factors c).1.map Clause.key) := by
    refine fun merges => merges.mono fun key seen => ?_
    obtain ⟨g, inside, same⟩ := List.mem_map.1 (keyed.seen key seen)
    exact List.mem_map.2 ⟨g, (reversed g).2 inside, same⟩
  refine ⟨(reversed c).2 (grows.found (List.mem_singleton_self c)),
    fun f member => keyed.plain f ((reversed f).1 member),
    fun f member => keyed.below f ((reversed f).1 member), fun f member => ?_⟩
  rcases closed f ((reversed f).1 member) with isSelf | new
  · rw [List.mem_singleton.1 isSelf]
    exact keys merges
  · exact keys new

end Session

/-! ### Collecting resolvents -/

/-- The key of a resolvent was seen once the pair was tried. -/
theorem Collection.Keyed.addResolvent {collection : Collection} (keyed : collection.Keyed [])
    {pair : ResolutionPair} (plain : ∀ l ∈ pair.remaining, l.reduced = false) :
    (addResolvent collection pair).Keyed [] ∧
      collection.Extends (addResolvent collection pair) ∧
      ∀ θ, pair.positive.atom.unify pair.negative.atom = some θ →
        canonicalKey (firstOccurrences (Literal.substituteList θ pair.remaining)) ∈
          (addResolvent collection pair).seen := by
  rw [ClausalReasoner.addResolvent]
  cases found : pair.positive.atom.unify pair.negative.atom with
  | none =>
    refine ⟨keyed, .refl _, fun θ some => ?_⟩
    cases some
  | some θ =>
    obtain ⟨keyedNow, grows, seen⟩ := keyed.addUnified plain .resolution θ
      (pair.positiveSide.sources ++ pair.negativeSide.sources)
    refine ⟨keyedNow, grows, fun other same => ?_⟩
    rw [← Option.some.inj same]
    exact seen

namespace Session

/-- The resolvents found of two clauses have the keys of all their resolvents. -/
theorem keyed_resolvents (session : Session) {first second : Clause}
    (below : first.VariablesBelow session.supply.next) (plainFirst : first.Plain)
    (plainSecond : second.Plain) :
    (∀ r ∈ (session.resolvents first second).1,
        r.Plain ∧ r.VariablesBelow (session.resolvents first second).2.supply.next) ∧
      ∀ r : Clause, r.IsResolvent first second →
        r.key ∈ (session.resolvents first second).1.map Clause.key := by
  rw [resolvents]
  split
  · next bothEmpty =>
    obtain ⟨emptyFirst, emptySecond⟩ := (Bool.and_eq_true _ _).mp bothEmpty
    have noPositives : ∀ {c d r : Clause}, c.isEmpty → ¬ c.ResolvesTo d r := by
      rintro c d r isEmpty ⟨left, _, ⟨forward, _, literals, _⟩, _, _, l, positive, _⟩
      have inside := (List.mem_filter.1 positive).1
      rw [literals, List.isEmpty_iff.1 isEmpty] at inside
      exact absurd inside List.not_mem_nil
    refine ⟨fun r member => ?_, fun r resolvent => ?_⟩
    · rw [List.mem_singleton.1 member]
      exact ⟨fun l inside => absurd inside List.not_mem_nil,
        fun v occurs => absurd occurs List.not_mem_nil⟩
    · exact (resolvent.elim (noPositives emptyFirst) (noPositives emptySecond)).elim
  · obtain ⟨isCopy, apart, _⟩ := session.copyOf_apartFrom below second
    have plainCopy := isCopy.plain plainSecond
    have plainPair : ∀ pair ∈ resolutionPairs first (session.apartFrom first second).1,
        ∀ l ∈ pair.remaining, l.reduced = false := by
      intro pair member
      rcases List.mem_append.1 member with here | there
      · exact plain_remaining_of_mem plainFirst plainCopy here
      · exact plain_remaining_of_mem plainCopy plainFirst there
    have start : (⟨(session.apartFrom first second).2, [], []⟩ : Collection).Keyed [] :=
      ⟨fun _ seen => absurd seen List.not_mem_nil, fun _ none => absurd none List.not_mem_nil,
        fun _ none => absurd none List.not_mem_nil⟩
    obtain ⟨keyed, _, achieved⟩ := foldl_reaches
      (resolutionPairs first (session.apartFrom first second).1)
      (fun collection : Collection => collection.Keyed []) Collection.Extends
      (fun (pair : ResolutionPair) (collection : Collection) =>
        ∀ θ, pair.positive.atom.unify pair.negative.atom = some θ →
          canonicalKey (firstOccurrences (Literal.substituteList θ pair.remaining)) ∈
            collection.seen)
      Collection.Extends.refl (fun _ _ _ => Collection.Extends.trans)
      (fun pair before after grows seen θ found => grows.seen (seen θ found))
      (fun collection pair member kept => kept.addResolvent (plainPair pair member)) start
    have reversed := fun r => @List.mem_reverse _ r
      ((resolutionPairs first (session.apartFrom first second).1).foldl addResolvent
        ⟨(session.apartFrom first second).2, [], []⟩).found
    refine ⟨fun r member => ⟨keyed.plain r ((reversed r).1 member),
      keyed.below r ((reversed r).1 member)⟩, fun r resolvent => ?_⟩
    suffices seen : r.key ∈ ((resolutionPairs first (session.apartFrom first second).1).foldl
        addResolvent ⟨(session.apartFrom first second).2, [], []⟩).seen by
      obtain ⟨kept, inside, same⟩ := List.mem_map.1 (keyed.seen _ seen)
      exact List.mem_map.2 ⟨kept, (reversed kept).2 inside, same⟩
    rcases resolvent with forth | back
    · obtain ⟨l, positive, m, negative, θ, found, key⟩ :=
        forth.exists_unify (.refl first) isCopy apart
      exact key ▸ achieved _ (List.mem_append_left _ (mem_pairsFrom positive negative)) θ found
    · obtain ⟨l, positive, m, negative, θ, found, key⟩ :=
        back.exists_unify isCopy (.refl first) apart.symm
      exact key ▸ achieved _ (List.mem_append_right _ (mem_pairsFrom positive negative)) θ found

end Session

end ClausalReasoner
