/-
This file resolves clauses with a register of 32 bits. Whatever indices the register hands out, what
is found follows from the clauses, since it is an instance of what is left of them. As long as no
index is beyond the last word, the register leads to the resolvents that an unbounded supply leads
to, so that resolution lifts. After that the copy of the second clause may share variables with the
first one, and then literals that have an instance in common need not unify.
-/

import ClausalReasoner.Proofs.LiftedResolvents
import ClausalReasoner.Proofs.SupplyGrowth
import ClausalReasoner.Proofs.WordIndices
import ClausalReasoner.Resolution.Words

namespace ClausalReasoner

universe u

/-! ### Soundness -/

namespace ResolutionInvariant

variable {holds : List Literal → Prop} (invariant : ResolutionInvariant holds)

include invariant

theorem renameInWords {c : Clause} (given : holds c.literals) (session : Session) :
    holds (session.renameInWords c).1.literals := by
  show holds (c.renamedInWords session.supply).1.literals
  rw [Clause.renamedInWords]
  split
  · exact given
  · exact invariant.instantiate _ _ given

theorem apartFromInWords {second : Clause} (given : holds second.literals) (session : Session)
    (first : Clause) : holds (session.apartFromInWords first second).1.literals := by
  rw [Session.apartFromInWords]
  split
  · exact invariant.renameInWords given session
  · exact given

theorem addResolventInWords {collection : Collection} (all : AllHold holds collection.found)
    {pair : ResolutionPair} (given : ∀ θ, pair.positive.atom.unify pair.negative.atom = some θ →
      holds (firstOccurrences (Literal.substituteList θ pair.remaining))) :
    AllHold holds (addResolventInWords collection pair).found := by
  rw [ClausalReasoner.addResolventInWords]
  split
  · exact all
  · next θ unified =>
    rw [Collection.addUnifiedInWords]
    have made : holds (Clause.ofLiterals (Literal.substituteList θ pair.remaining)).literals :=
      given θ unified
    let supplied := (collection.session.renameInWords
      (Clause.ofLiterals (Literal.substituteList θ pair.remaining))).2
    have before : AllHold holds (⟨supplied, collection.seen, collection.found⟩ : Collection).found :=
      all
    exact InstanceInvariant.add before (invariant.renameInWords made collection.session) _ _ _

theorem resolventsInWords {first second : Clause} (givenFirst : holds first.literals)
    (givenSecond : holds second.literals) (session : Session) :
    AllHold holds (session.resolventsInWords first second).1 := by
  rw [Session.resolventsInWords]
  split
  · next bothEmpty => exact empty_of_isEmpty givenFirst bothEmpty
  · have apart := invariant.apartFromInWords givenSecond session first
    intro c member
    exact foldl_invariant (fun collection : Collection => AllHold holds collection.found)
      (fun collection pair inside all => invariant.addResolventInWords all fun _ unified =>
        invariant.remaining givenFirst apart inside unified)
      AllHold.nil c (List.mem_reverse.1 member)

end ResolutionInvariant

/-! ### The resolvents of an unbounded supply -/

/-- The session with a register in the place of its supply. -/
def Session.inWords (session : Session) : Session :=
  ⟨session.supply.inWords, session.derivation⟩

/-- The collection with a register in the place of its supply. -/
def Collection.inWords (collection : Collection) : Collection :=
  ⟨collection.session.inWords, collection.seen, collection.found⟩

theorem Clause.renamedInWords_inWords {c : Clause} {supply : Supply}
    (last : (c.renamed supply).2.next ≤ UInt32.size) :
    c.renamedInWords supply.inWords = ((c.renamed supply).1, (c.renamed supply).2.inWords) := by
  rw [renamed] at last ⊢
  rw [renamedInWords]
  generalize c.vars = vs at last ⊢
  cases vs with
  | nil => rfl
  | cons v vs =>
    have renamed : supply.inWords.freshRenamingInWords (v :: vs) = ((supply.freshRenaming (v :: vs)).1,
        (supply.freshRenaming (v :: vs)).2.inWords) := Supply.freshRenamingInWords_inWords last
    dsimp only
    rw [renamed]

namespace Session

variable {session : Session}

theorem renameInWords_inWords {c : Clause}
    (last : (session.rename c).2.supply.next ≤ UInt32.size) :
    session.inWords.renameInWords c = ((session.rename c).1, (session.rename c).2.inWords) := by
  have renamed : c.renamedInWords session.supply.inWords =
      ((c.renamed session.supply).1, (c.renamed session.supply).2.inWords) :=
    Clause.renamedInWords_inWords last
  rw [renameInWords, inWords]
  dsimp only
  rw [renamed]
  rfl

theorem apartFromInWords_inWords {first second : Clause}
    (last : (session.apartFrom first second).2.supply.next ≤ UInt32.size) :
    session.inWords.apartFromInWords first second =
      ((session.apartFrom first second).1, (session.apartFrom first second).2.inWords) := by
  rw [apartFrom] at last ⊢
  rw [apartFromInWords]
  split
  · next shares =>
    rw [if_pos shares] at last
    exact renameInWords_inWords last
  · rfl

end Session

namespace Collection

variable {collection : Collection}

theorem inWords_add (collection : Collection) (rule : Rule) (c : Clause) (θ : Substitution)
    (sources : List StepNumber) :
    collection.inWords.add rule c θ sources = (collection.add rule c θ sources).inWords := by
  obtain ⟨session, seen, found⟩ := collection
  by_cases known : seen.contains c.key = true
  · simp only [inWords, add, if_pos known]
    exact if_pos known
  · simp only [inWords, add, if_neg known]
    exact if_neg known

theorem addUnifiedInWords_inWords {rule : Rule} {ls : List Literal} {θ : Substitution}
    {sources : List StepNumber}
    (last : (collection.addUnified rule ls θ sources).session.supply.next ≤ UInt32.size) :
    collection.inWords.addUnifiedInWords rule ls θ sources =
      (collection.addUnified rule ls θ sources).inWords := by
  let made := Clause.ofLiterals (Literal.substituteList θ ls)
  have renamed : collection.session.inWords.renameInWords made =
      ((collection.session.rename made).1, (collection.session.rename made).2.inWords) :=
    Session.renameInWords_inWords ((next_le_add ⟨_, _, _⟩ rule _ θ sources).trans last)
  calc collection.inWords.addUnifiedInWords rule ls θ sources
      = (Collection.mk (collection.session.inWords.renameInWords made).2 collection.seen
          collection.found).add rule (collection.session.inWords.renameInWords made).1 θ sources := rfl
    _ = (Collection.mk (collection.session.rename made).2 collection.seen
          collection.found).inWords.add rule (collection.session.rename made).1 θ sources := by
        rw [renamed]
        rfl
    _ = (collection.addUnified rule ls θ sources).inWords := inWords_add _ _ _ _ _

theorem addResolventInWords_inWords {pair : ResolutionPair}
    (last : (addResolvent collection pair).session.supply.next ≤ UInt32.size) :
    addResolventInWords collection.inWords pair = (addResolvent collection pair).inWords := by
  rw [addResolvent] at last ⊢
  rw [addResolventInWords]
  cases unified : pair.positive.atom.unify pair.negative.atom with
  | none => rfl
  | some θ =>
    rw [unified] at last
    exact addUnifiedInWords_inWords last

theorem foldl_addResolventInWords_inWords {pairs : List ResolutionPair}
    (last : (pairs.foldl addResolvent collection).session.supply.next ≤ UInt32.size) :
    pairs.foldl addResolventInWords collection.inWords =
      (pairs.foldl addResolvent collection).inWords := by
  induction pairs generalizing collection with
  | nil => rfl
  | cons pair rest inductionHypothesis =>
    have onward := (addResolvent collection pair).next_le_foldl_addResolvent rest
    rw [List.foldl_cons, addResolventInWords_inWords (onward.trans last)]
    exact inductionHypothesis last

end Collection

/-- If no index is beyond the last word, the register leads to the same resolvents. -/
theorem Session.resolventsInWords_inWords {session : Session} {first second : Clause}
    (last : (session.resolvents first second).2.supply.next ≤ UInt32.size) :
    (session.inWords.resolventsInWords first second).1 = (session.resolvents first second).1 := by
  rw [resolvents] at last ⊢
  rw [resolventsInWords]
  split
  · rfl
  · next some =>
    rw [if_neg some] at last
    have onward := Collection.next_le_foldl_addResolvent
      ⟨(session.apartFrom first second).2, [], []⟩
      (resolutionPairs first (session.apartFrom first second).1)
    rw [apartFromInWords_inWords (onward.trans last)]
    exact congrArg (fun collection => collection.found.reverse)
      (Collection.foldl_addResolventInWords_inWords last)

/-! ### Lifting -/

/-- **Binary resolution in words is sound, and it lifts until the register is used up.** What is
found when two clauses are resolved, which may share variables or be one clause, is valid wherever
both are valid, whatever indices the register hands out. If a literal of the one and a literal of the
other with the opposite polarity have an instance in common, then the rest of the two instances is,
as a set of literals, an instance of a clause that is found, provided that the indices of the
variables of the first clause are used up, that an unbounded supply would not go beyond the last word
and that keys tell the clauses formed apart. -/
theorem resolventsInWords_sound_and_lifted (session : Session)
    (small : session.supply.next < UInt32.size) {first second : Clause}
    (below : first.VariablesBelow session.supply.next) :
    (∀ r ∈ (session.resolventsInWords first second).1, ∀ {Universe : Type u}
      (meaning : Interpretation Universe),
        first.ValidIn meaning → second.ValidIn meaning → r.ValidIn meaning) ∧
    ((session.resolvents first second).2.supply.next ≤ UInt32.size →
      KeysTellApart (session.formedResolvents first second) →
      ∀ l ∈ first.literals, ∀ m ∈ second.literals, l.polarity ≠ m.polarity →
        ∀ s t : Substitution, l.atom.substitute s = m.atom.substitute t →
          ∃ r ∈ (session.resolventsInWords first second).1, ∃ into : Substitution,
            ∀ k, k ∈ Literal.substituteList into r.literals ↔
              k ∈ Literal.substituteList s (first.literals.erase l) ++
                Literal.substituteList t (second.literals.erase m)) := by
  refine ⟨fun r found Universe meaning validFirst validSecond => ?_,
    fun last tellApart l here m there opposite s t equal => ?_⟩
  · exact (resolutionInvariant_allValid meaning).resolventsInWords validFirst validSecond session r
      found
  · have same : session.inWords = session := by
      rw [Session.inWords, Supply.inWords_of_lt small]
    have found := Session.resolventsInWords_inWords last
    rw [same] at found
    rw [found]
    exact (resolvents_sound_and_lifted.{u} session below).2 tellApart l here m there opposite s t
      equal

/-- `¬P(x) ∨ P(F(x))`. -/
def successorRule : Clause :=
  .ofLiterals [.negative (.predicate "P" [.var ⟨"x", none⟩]),
    .positive (.predicate "P" [.app "F" [.var ⟨"x", none⟩]])]

/-- `P(F(A))` is an instance of both atoms, and what is left of the instances of the clause is an
instance of what is found when the clause is resolved with itself. -/
theorem resolventsInWords_successorRule :
    ∃ r ∈ (Session.resolventsInWords {} successorRule successorRule).1, ∃ into : Substitution,
      ∀ k, k ∈ Literal.substituteList into r.literals ↔
        k ∈ [Literal.negative (.predicate "P" [.constant "A"]),
          .positive (.predicate "P" [.app "F" [.app "F" [.constant "A"]]])] := by
  have unindexed : ∀ v ∈ Literal.occurrencesList successorRule.literals, v.index = none := by decide
  have below : successorRule.VariablesBelow 0 := by
    intro v occurs index same
    cases (unindexed v occurs).symm.trans same
  have last : (Session.resolvents {} successorRule successorRule).2.supply.next ≤ UInt32.size := by
    cbv
  have few : ((Session.formedResolvents {} successorRule successorRule).all
      fun c => c.HasFewOrders) = true := by cbv
  have tellApart : KeysTellApart (Session.formedResolvents {} successorRule successorRule) :=
    keysTellApart_of_hasFewOrders fun c formed => of_decide_eq_true (List.all_eq_true.1 few c formed)
  have small : (Session.supply {}).next < UInt32.size := by decide
  obtain ⟨_, lifted⟩ :=
    @resolventsInWords_sound_and_lifted.{0} {} small successorRule successorRule below
  exact lifted last tellApart (.positive (.predicate "P" [.app "F" [.var ⟨"x", none⟩]])) (by decide)
    (.negative (.predicate "P" [.var ⟨"x", none⟩])) (by decide) (by decide)
    (.ofList [(⟨"x", none⟩, .constant "A")]) (.ofList [(⟨"x", none⟩, .app "F" [.constant "A"])])
    (by decide)

/-! ### A register that is used up -/

/-- `P(x, y0)`. -/
def anyPair : Clause :=
  .ofLiterals [.positive (.predicate "P" [.var ⟨"x", none⟩, .var ⟨"y", some 0⟩])]

/-- `¬P(x, F(y))`. -/
def noImagePair : Clause :=
  .ofLiterals [.negative (.predicate "P" [.var ⟨"x", none⟩, .app "F" [.var ⟨"y", none⟩]])]

/-- A register at the last word is above the index of `y0`. It makes `¬P(x, F(y))` the clause
`¬P(x4294967295, F(y0))`, and `P(x, y0)` does not unify with its atom, though with `P(x, F(y))` it
has the instance `P(x, F(y))` in common. -/
theorem resolventsInWords_anyPair :
    let session : Session := ⟨⟨4294967295⟩, {}⟩
    anyPair.VariablesBelow session.supply.next ∧ noImagePair.VariablesBelow session.supply.next ∧
      (∃ l ∈ anyPair.literals, ∃ m ∈ noImagePair.literals, l.polarity ≠ m.polarity ∧
        ∃ s t : Substitution, l.atom.substitute s = m.atom.substitute t) ∧
      (session.resolventsInWords anyPair noImagePair).1 = [] := by
  have bounded : ∀ c ∈ [anyPair, noImagePair], ∀ v ∈ Literal.occurrencesList c.literals,
      v.index = none ∨ v.index = some 0 := by decide
  have below : ∀ c ∈ [anyPair, noImagePair], c.VariablesBelow 4294967295 := by
    intro c among v occurs index same
    rcases bounded c among v occurs with none | zero
    · cases none.symm.trans same
    · obtain rfl := Option.some.inj (zero.symm.trans same)
      decide
  refine ⟨below _ (by simp), below _ (by simp), ⟨_, List.mem_singleton_self _, _,
    List.mem_singleton_self _, by decide,
    .ofList [(⟨"y", some 0⟩, .app "F" [.var ⟨"y", none⟩])], ∅, by decide⟩, by cbv⟩

end ClausalReasoner
