/-
This file compares a register of 32 bits with an unbounded supply. The register hands out what the
supply hands out, modulo the number of words. Among so many indices in a row no two are equal, so a
renaming by the register can be undone wherever there are no more variables than words. That its
variables are new is true only as long as the register has not gone back to zero: then it hands out
the same indices as the supply. A register above the index of some variable may be at the last word,
and the second variable to be renamed then gets the index zero.
-/

import ClausalReasoner.Fresh.Words
import ClausalReasoner.Proofs.RenamedBack

namespace ClausalReasoner

/-- The variable with its index modulo the number of words. -/
def Variable.inWords (v : Variable) : Variable :=
  ⟨v.name, v.index.map (· % UInt32.size)⟩

namespace Supply

variable {vs : List Variable}

/-- A register holds all of a supply that has not passed the last word. -/
theorem inWords_of_lt {supply : Supply} (small : supply.next < UInt32.size) :
    supply.inWords = supply :=
  congrArg mk (Nat.mod_eq_of_lt small)

theorem next_freshen (supply : Supply) (vs : List Variable) :
    (supply.freshen vs).2.next = supply.next + vs.length := by
  induction vs generalizing supply with
  | nil => rfl
  | cons v vs inductionHypothesis =>
    exact (inductionHypothesis ⟨supply.next + 1⟩).trans (Nat.succ_add_eq_add_succ _ _)

/-- What a register keeps after an index was taken does not depend on what it had lost before. -/
theorem inWords_takeInWords (supply : Supply) :
    supply.inWords.takeInWords = (supply.next % UInt32.size, supply.take.2.inWords) := by
  have wraps : (supply.next % UInt32.size + 1) % UInt32.size = (supply.next + 1) % UInt32.size := by
    simp only [UInt32.size]
    omega
  exact congrArg (Prod.mk _) (congrArg mk wraps)

/-- The register hands out the indices of the supply, modulo the number of words. -/
theorem freshenInWords_inWords (supply : Supply) (vs : List Variable) :
    supply.inWords.freshenInWords vs =
      ((supply.freshen vs).1.map (Prod.map id Variable.inWords), (supply.freshen vs).2.inWords) := by
  induction vs generalizing supply with
  | nil => rfl
  | cons v vs inductionHypothesis =>
    rw [freshenInWords, inWords_takeInWords]
    dsimp only
    rw [inductionHypothesis]
    rfl

/-- So many indices in a row are different modulo the number of words. -/
theorem nodup_map_inWords_freshen (supply : Supply) (few : vs.length ≤ UInt32.size) :
    (((supply.freshen vs).1.map Prod.snd).map Variable.inWords).Nodup := by
  refine List.Nodup.map_on (fun v here w there same => ?_) (supply.nodup_map_snd_freshen vs)
  obtain ⟨first, isFirst, rfl⟩ := List.mem_map.1 here
  obtain ⟨second, isSecond, rfl⟩ := List.mem_map.1 there
  obtain ⟨i, indexed, fromFirst, beforeFirst⟩ := index_of_mem_freshen isFirst
  obtain ⟨j, indexedToo, fromSecond, beforeSecond⟩ := index_of_mem_freshen isSecond
  obtain ⟨names, indices⟩ := Variable.mk.inj same
  rw [indexed, indexedToo] at indices
  have equal : i = j := by
    have wrapped : i % UInt32.size = j % UInt32.size := Option.some.inj indices
    rw [next_freshen] at beforeFirst beforeSecond
    simp only [UInt32.size] at wrapped few
    omega
  exact congrArg₂ Variable.mk names (by rw [indexed, indexedToo, equal])

/-- A renaming by the register gives different variables different new ones. -/
theorem exists_renamesVariables_inWords {register : Supply} (small : register.next < UInt32.size)
    (distinct : vs.Nodup) (few : vs.length ≤ UInt32.size) :
    ∃ rename, RenamesVariables (register.freshRenamingInWords vs).1 vs rename := by
  have wrapped := register.freshenInWords_inWords vs
  rw [inWords_of_lt small] at wrapped
  have keys : (register.freshenInWords vs).1.map Prod.fst = vs := by
    rw [wrapped, List.map_map]
    exact register.map_fst_freshen vs
  have apart : ((register.freshenInWords vs).1.map Prod.snd).Nodup := by
    have targets := register.nodup_map_inWords_freshen few
    rw [List.map_map] at targets
    rw [wrapped, List.map_map]
    exact targets
  exact exists_renamesVariables_of_pairs keys distinct apart

/-- As long as no index is beyond the last word, the register renames as the supply does. -/
theorem freshRenamingInWords_inWords {supply : Supply}
    (last : (supply.freshRenaming vs).2.next ≤ UInt32.size) :
    supply.inWords.freshRenamingInWords vs =
      ((supply.freshRenaming vs).1, (supply.freshRenaming vs).2.inWords) := by
  have same : (supply.freshen vs).1.map (Prod.map id Variable.inWords) = (supply.freshen vs).1 := by
    refine (List.map_congr_left fun pair member => ?_).trans (List.map_id _)
    obtain ⟨index, indexed, _, before⟩ := index_of_mem_freshen member
    have fits : index % UInt32.size = index := Nat.mod_eq_of_lt (Nat.lt_of_lt_of_le before last)
    refine Prod.ext rfl (congrArg (Variable.mk pair.2.name) ?_)
    rw [indexed, Option.map_some, fits]
    exact indexed.symm
  rw [freshRenamingInWords, freshenInWords_inWords, same]
  rfl

end Supply

namespace Sentence

/-- **Standardizing apart is reversible in words.** Let a register of 32 bits rename a sentence. The
reverse substitution takes the sentence with fresh variables back to the sentence, but for
quantifiers over no variable, if there are no more variables than words. If the indices in the
sentence are below the next one and there are enough words from there on, the sentence with fresh
variables has no variable of the sentence, free or bound. -/
theorem standardizeApartInWords_reversible (s : Sentence) {register : Supply}
    (small : register.next < UInt32.size) :
    (s.allVariables.length ≤ UInt32.size →
      (s.standardizeApartInWords register).1.standardized.substitute
        (s.standardizeApartInWords register).1.reverse = s.withoutEmptyQuantifiers) ∧
    ((∀ v ∈ s.allVariables, ∀ index, v.index = some index → index < register.next) →
      register.next + s.allVariables.length ≤ UInt32.size →
        ∀ v ∈ (s.standardizeApartInWords register).1.standardized.allVariables,
          v ∉ s.allVariables) := by
  refine ⟨fun few => ?_, fun older enough => ?_⟩
  · obtain ⟨rename, renames⟩ :=
      Supply.exists_renamesVariables_inWords small (nodup_firstOccurrences _) few
    exact renames.substitute_inverse
  · have last : (register.freshRenaming s.allVariables).2.next ≤ UInt32.size := by
      rw [← register.next_freshen] at enough
      exact enough
    have same : (s.standardizeApartInWords register).1 = (s.standardizeApart register).1 := by
      have renamed := Supply.freshRenamingInWords_inWords last
      rw [Supply.inWords_of_lt small] at renamed
      rw [standardizeApartInWords, renamed]
      rfl
    rw [same]
    exact (s.standardizeApart_reversible register).2 older

/-- Without its empty quantifier the sentence comes back, and above its indices it shares nothing. -/
theorem standardizeApartInWords_shadowed :
    (shadowed.standardizeApartInWords ⟨1⟩).1.standardized.substitute
        (shadowed.standardizeApartInWords ⟨1⟩).1.reverse = shadowed.withoutEmptyQuantifiers ∧
      ∀ v ∈ (shadowed.standardizeApartInWords ⟨1⟩).1.standardized.allVariables,
        v ∉ shadowed.allVariables := by
  have small : (Supply.mk 1).next < UInt32.size := by decide
  obtain ⟨back, apart⟩ := standardizeApartInWords_reversible shadowed small
  exact ⟨back (by decide), apart (by decide) (by decide)⟩

/-- `P(x7, y0)`. -/
def indexedPair : Sentence :=
  .atom (.predicate "P" [.var ⟨"x", some 7⟩, .var ⟨"y", some 0⟩])

/-- The register above a variable with the last index but one is above the indices 7 and 0. The
first variable gets the last index, the second one the index 0, which is its own. -/
theorem exists_mem_standardizeApartInWords_indexedPair :
    let register := Supply.aboveInWords [⟨"x", some 4294967294⟩]
    (∀ v ∈ indexedPair.allVariables, ∀ index, v.index = some index → index < register.next) ∧
      ∃ v ∈ (indexedPair.standardizeApartInWords register).1.standardized.allVariables,
        v ∈ indexedPair.allVariables :=
  ⟨by decide, ⟨"y", some 0⟩, by decide, by decide⟩

end Sentence

end ClausalReasoner
