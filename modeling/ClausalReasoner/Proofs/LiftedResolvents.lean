/-
This file shows that binary resolution is sound and that it lifts. What is found when two clauses are
resolved follows from the two, whatever variables they have in common and also if they are one
clause. Conversely, let instances of two clauses contain a literal and its opposite, made from a
literal of the one clause and a literal of the other. What is left of the instances is then, as a set
of literals, an instance of a clause that is found: the copies that are resolved have the instances
of the clauses, the unifier is a most general one, and what was left out because of its key gives way
to a clause with the same instances if keys tell the clauses formed apart.
-/

import ClausalReasoner.Proofs.CollectedKeys
import ClausalReasoner.Proofs.EqualReplacement
import ClausalReasoner.Proofs.ExactSubsumption
import ClausalReasoner.Proofs.KeyDiscrimination

namespace ClausalReasoner

universe u

/-! ### Instances as sets of literals -/

/-- Some instance of the literals consists of the given ones, however often each of them occurs. -/
def Literal.HaveInstance (ls ks : List Literal) : Prop :=
  ∃ into : Variable → Term, ∀ k, k ∈ ls.map (replace into) ↔ k ∈ ks

namespace Literal.HaveInstance

variable {ls ms ks : List Literal}

/-- Literals have the instances of what a replacement makes of them. -/
theorem of_image {value : Variable → Term} (images : ∀ m, m ∈ ms ↔ m ∈ ls.map (replace value))
    (given : HaveInstance ms ks) : HaveInstance ls ks := by
  obtain ⟨into, same⟩ := given
  refine ⟨fun v => (value v).replace into, fun k => Iff.trans ?_ (same k)⟩
  simp only [List.mem_map, images, exists_exists_and_eq_and, Literal.replace_replace]

/-- It does not matter whether repeated literals are left out. -/
theorem firstOccurrences (given : HaveInstance ls ks) :
    HaveInstance (ClausalReasoner.firstOccurrences ls) ks :=
  given.imp fun into same k => by
    rw [← same, List.mem_map, List.mem_map]
    simp only [mem_firstOccurrences]

/-- The order of the literals of an instance does not matter. -/
theorem append_comm {js : List Literal} (given : HaveInstance ls (js ++ ks)) :
    HaveInstance ls (ks ++ js) :=
  given.imp fun _ same k => (same k).trans List.perm_append_comm.mem_iff

end Literal.HaveInstance

namespace Clause

open Literal

variable {copy c d : Clause} {ks : List Literal}

/-- A copy has the instances of the clause. -/
theorem CopyOf.haveInstance (isCopy : copy.CopyOf c) (given : HaveInstance c.literals ks) :
    HaveInstance copy.literals ks := by
  obtain ⟨_, _, literals, _⟩ := isCopy.symm
  exact given.of_image fun m => by rw [literals]

/-- Clauses that are alike have the same instances. -/
theorem Alike.haveInstance (alike : c.Alike d) (given : HaveInstance d.literals ks) :
    HaveInstance c.literals ks := by
  obtain ⟨_, variant⟩ := alike
  exact given.of_image fun m => variant.perm.mem_iff

/-- What a replacement makes of the literals of a clause, a substitution makes of them. -/
theorem exists_substitute_eq (c : Clause) (into : Variable → Term) :
    ∃ σ : Substitution, ∀ l ∈ c.literals, l.substitute σ = l.replace into := by
  obtain ⟨σ, _, atoms⟩ := c.exists_substitution into
  exact ⟨σ, fun l member => congrArg (Literal.mk · l.polarity l.reduced) (atoms l member)⟩

theorem exists_substituteList (given : HaveInstance c.literals ks) :
    ∃ σ : Substitution, ∀ k, k ∈ substituteList σ c.literals ↔ k ∈ ks := by
  obtain ⟨into, same⟩ := given
  obtain ⟨σ, each⟩ := c.exists_substitute_eq into
  exact ⟨σ, fun k => by rw [substituteList, List.map_congr_left each, same]⟩

end Clause

/-! ### Keys that tell clauses apart -/

/-- Keys tell the clauses of a list apart: those with one key are alike. -/
def KeysTellApart (cs : List Clause) : Prop :=
  ∀ c ∈ cs, ∀ d ∈ cs, c.key = d.key → c.Alike d

instance (c : Clause) : Decidable c.HasFewOrders :=
  inferInstanceAs (Decidable (tieProduct c.literals ≤ 720))

/-- Keys tell clauses apart whose literals have few orders. -/
theorem keysTellApart_of_hasFewOrders {cs : List Clause} (few : ∀ c ∈ cs, c.HasFewOrders) :
    KeysTellApart cs :=
  fun c here d there => Clause.alike_of_key_eq (few c here) (few d there)

/-! ### Collecting resolvents -/

namespace Collection

/-- The keys seen are those of clauses taken in, and these have the literals of formed ones. -/
structure Takes (formed : List Clause) (collection : Collection) : Prop where
  seen : ∀ key ∈ collection.seen, ∃ c ∈ collection.found, c.key = key
  found : ∀ c ∈ collection.found, ∃ f ∈ formed, c.literals = f.literals

variable {formed : List Clause} {collection : Collection}

/-- Once a formed clause was to be taken in, a clause with its key is there. -/
theorem Takes.addUnified (takes : collection.Takes formed) {ls : List Literal} {θ : Substitution}
    (isFormed : collection.unified ls θ ∈ formed) (rule : Rule) (sources : List StepNumber) :
    (collection.addUnified rule ls θ sources).Takes formed ∧
      collection.found ⊆ (collection.addUnified rule ls θ sources).found ∧
      ∃ c ∈ (collection.addUnified rule ls θ sources).found,
        c.key = (collection.unified ls θ).key := by
  obtain ⟨_, cases⟩ := collection.addUnified_cases rule ls θ sources
  generalize collection.addUnified rule ls θ sources = after at cases
  rcases cases with ⟨seen, sameSeen, sameFound⟩ | ⟨c, literals, newSeen, newFound⟩
  · refine ⟨⟨?_, ?_⟩, ?_, ?_⟩ <;> rw [sameFound]
    · rw [sameSeen]
      exact takes.seen
    · exact takes.found
    · exact List.Subset.refl _
    · exact takes.seen _ seen
  · refine ⟨⟨?_, ?_⟩, ?_, c, ?_, ?_⟩
    · rw [newSeen, newFound]
      exact List.forall_mem_cons.2 ⟨⟨c, List.mem_cons_self, rfl⟩, fun key old =>
        (takes.seen key old).imp fun d inside => inside.imp_left (List.mem_cons_of_mem c)⟩
    · rw [newFound]
      exact List.forall_mem_cons.2 ⟨⟨_, isFormed, literals⟩, takes.found⟩
    · rw [newFound]
      exact List.subset_cons_self _ _
    · rw [newFound]
      exact List.mem_cons_self
    · rw [c.key_eq, literals, ← Clause.key_eq]

/-- Once a pair was tried, what is left of it under the unifier has its instances among those of a
clause that was taken in. -/
theorem Takes.addResolvent (takes : collection.Takes formed) (tellApart : KeysTellApart formed)
    {pair : ResolutionPair} (allFormed : ∀ f ∈ formedResolvent collection pair, f ∈ formed) :
    (addResolvent collection pair).Takes formed ∧
      collection.found ⊆ (addResolvent collection pair).found ∧
      ∀ θ, pair.positive.atom.unify pair.negative.atom = some θ →
        ∀ ks, Literal.HaveInstance (Literal.substituteList θ pair.remaining) ks →
          ∃ r ∈ (addResolvent collection pair).found, Literal.HaveInstance r.literals ks := by
  rw [formedResolvent] at allFormed
  rw [ClausalReasoner.addResolvent]
  cases unify : pair.positive.atom.unify pair.negative.atom with
  | none =>
    refine ⟨takes, List.Subset.refl _, fun θ some => ?_⟩
    cases some
  | some θ =>
    rw [unify] at allFormed
    have isFormed := allFormed _ (List.mem_singleton_self _)
    obtain ⟨takesNow, grows, r, inside, key⟩ := takes.addUnified isFormed .resolution
      (pair.positiveSide.sources ++ pair.negativeSide.sources)
    refine ⟨takesNow, grows, fun other same ks given => ⟨r, inside, ?_⟩⟩
    obtain rfl := Option.some.inj same
    obtain ⟨f, formedToo, literals⟩ := takesNow.found r inside
    rw [r.key_eq, literals, ← f.key_eq] at key
    have isCopy := (collection.session.copyOf_rename
      (Clause.ofLiterals (Literal.substituteList θ pair.remaining))).1
    rw [literals]
    exact (tellApart f formedToo _ isFormed key).haveInstance
      (isCopy.haveInstance given.firstOccurrences)

end Collection

/-! ### Resolvents of two clauses -/

/-- If the instances of what is left of every pair of two copies that are apart are found, then
resolution lifts from the clauses. -/
theorem Clause.exists_haveInstance_of_pairs {cs : List Clause} {c d left right : Clause}
    (isLeft : left.CopyOf c) (isRight : right.CopyOf d) (apart : left.Apart right)
    (tried : ∀ pair ∈ pairsFrom left right, ∀ θ,
      pair.positive.atom.unify pair.negative.atom = some θ →
        ∀ ks, Literal.HaveInstance (Literal.substituteList θ pair.remaining) ks →
          ∃ r ∈ cs, Literal.HaveInstance r.literals ks)
    {l m : Literal} (positive : l ∈ c.positives) (negative : m ∈ d.negatives) {s t : Substitution}
    (equal : l.atom.substitute s = m.atom.substitute t) :
    ∃ r ∈ cs, Literal.HaveInstance r.literals (Literal.substituteList s (c.literals.erase l) ++
      Literal.substituteList t (d.literals.erase m)) := by
  obtain ⟨l', positive', m', negative', θ, found, into, same⟩ :=
    exists_unified_pair isLeft isRight apart positive negative equal
  exact tried _ (mem_pairsFrom positive' negative') θ found _ ⟨into, same⟩

/-- Of two opposite literals the one is positive and the other one negative. -/
theorem Clause.resolvable_of_opposite {c d : Clause} {l m : Literal} (here : l ∈ c.literals)
    (there : m ∈ d.literals) (opposite : l.polarity ≠ m.polarity) :
    (l ∈ c.positives ∧ m ∈ d.negatives) ∨ (l ∈ c.negatives ∧ m ∈ d.positives) := by
  obtain ⟨a, polarity, reduced⟩ := l
  obtain ⟨b, other, reducedToo⟩ := m
  cases polarity <;> cases other
  · exact absurd rfl opposite
  · exact Or.inl ⟨List.mem_filter.2 ⟨here, rfl⟩, List.mem_filter.2 ⟨there, rfl⟩⟩
  · exact Or.inr ⟨List.mem_filter.2 ⟨here, rfl⟩, List.mem_filter.2 ⟨there, rfl⟩⟩
  · exact absurd rfl opposite

/-- Resolution lifts: what is left of instances that are resolved is an instance of a clause that is
found, if keys tell the clauses formed apart. -/
theorem Session.exists_haveInstance_of_opposite (session : Session) {first second : Clause}
    (below : first.VariablesBelow session.supply.next)
    (tellApart : KeysTellApart (session.formedResolvents first second)) {l m : Literal}
    (here : l ∈ first.literals) (there : m ∈ second.literals) (opposite : l.polarity ≠ m.polarity)
    {s t : Substitution} (equal : l.atom.substitute s = m.atom.substitute t) :
    ∃ r ∈ (session.resolvents first second).1, Literal.HaveInstance r.literals
      (Literal.substituteList s (first.literals.erase l) ++
        Literal.substituteList t (second.literals.erase m)) := by
  have notEmpty : (first.isEmpty && second.isEmpty) = false := by
    have some : first.isEmpty = false :=
      List.isEmpty_eq_false_iff.2 (List.ne_nil_of_mem here)
    rw [some, Bool.false_and]
  obtain ⟨isCopy, apart, _⟩ := session.copyOf_apartFrom below second
  rw [formedResolvents, notEmpty, if_neg Bool.false_ne_true] at tellApart
  rw [resolvents, notEmpty, if_neg Bool.false_ne_true]
  dsimp only at tellApart ⊢
  generalize session.apartFrom first second = copied at isCopy apart tellApart
  let start : Collection := ⟨copied.2, [], []⟩
  let formed := foldFormed addResolvent formedResolvent start (resolutionPairs first copied.1)
  have takes : start.Takes formed :=
    ⟨fun _ seen => absurd seen List.not_mem_nil, fun _ none => absurd none List.not_mem_nil⟩
  obtain ⟨_, _, achieved⟩ := foldl_achieves
    (fun collection : Collection => collection.Takes formed)
    (fun collection later => collection.found ⊆ later.found)
    (fun (pair : ResolutionPair) (collection : Collection) =>
      ∀ θ, pair.positive.atom.unify pair.negative.atom = some θ →
        ∀ ks, Literal.HaveInstance (Literal.substituteList θ pair.remaining) ks →
          ∃ r ∈ collection.found, Literal.HaveInstance r.literals ks)
    (fun _ => List.Subset.refl _) (fun _ _ _ => List.Subset.trans)
    (fun pair before after grows reached θ found ks given =>
      (reached θ found ks given).imp fun r inside => inside.imp_left (grows ·))
    (fun collection pair _ kept allFormed => kept.addResolvent tellApart allFormed)
    takes (fun f inside => inside)
  simp only [List.mem_reverse]
  rcases Clause.resolvable_of_opposite here there opposite with
    ⟨positive, negative⟩ | ⟨negative, positive⟩
  · exact Clause.exists_haveInstance_of_pairs (.refl first) isCopy apart
      (fun pair inside => achieved pair (List.mem_append_left _ inside)) positive negative equal
  · obtain ⟨r, inside, given⟩ := Clause.exists_haveInstance_of_pairs isCopy (.refl first) apart.symm
      (fun pair inside => achieved pair (List.mem_append_right _ inside)) positive negative
      equal.symm
    exact ⟨r, inside, given.append_comm⟩

/-- Binary resolution is sound and lifts. What is found when two clauses are resolved, which may
share variables or be one clause, is valid wherever both are valid. If a literal of the one and a
literal of the other with the opposite polarity have an instance in common, then the rest of the two
instances is, as a set of literals, an instance of a clause that is found, provided that the indices
of the variables of the first clause are used up and that keys tell the clauses formed apart. -/
theorem resolvents_sound_and_lifted (session : Session) {first second : Clause}
    (below : first.VariablesBelow session.supply.next) :
    (∀ r ∈ (session.resolvents first second).1, ∀ {Universe : Type u}
      (meaning : Interpretation Universe),
        first.ValidIn meaning → second.ValidIn meaning → r.ValidIn meaning) ∧
    (KeysTellApart (session.formedResolvents first second) →
      ∀ l ∈ first.literals, ∀ m ∈ second.literals, l.polarity ≠ m.polarity →
        ∀ s t : Substitution, l.atom.substitute s = m.atom.substitute t →
          ∃ r ∈ (session.resolvents first second).1, ∃ into : Substitution,
            ∀ k, k ∈ Literal.substituteList into r.literals ↔
              k ∈ Literal.substituteList s (first.literals.erase l) ++
                Literal.substituteList t (second.literals.erase m)) := by
  refine ⟨fun r found Universe meaning validFirst validSecond => ?_,
    fun tellApart l here m there opposite s t equal => ?_⟩
  · exact (resolutionInvariant_allValid meaning).resolvents validFirst validSecond session r found
  · obtain ⟨r, found, given⟩ :=
      session.exists_haveInstance_of_opposite below tellApart here there opposite equal
    exact ⟨r, found, r.exists_substituteList given⟩

end ClausalReasoner
