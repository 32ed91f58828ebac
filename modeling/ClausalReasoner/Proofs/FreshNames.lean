/-
This file shows that invented names are new. Names with one stem and different numbers are
different, so among one more candidates than there are names in use one is unused, and the search
for it, which looks at just that many, does not stop before it has found one. What a vocabulary
knows afterwards is what it knew before and the one invented symbol; registering an expression adds
the symbols of the expression and nothing else.
-/

import ClausalReasoner.Proofs.Scope
import ClausalReasoner.ClausalForm
import Mathlib.Data.List.Nodup

namespace ClausalReasoner

/-! ### Numbered names -/

theorem eq_of_numbered_eq {stem : String} {m n : Nat}
    (same : stem ++ toString m = stem ++ toString n) : m = n := by
  have digits := (String.append_right_inj stem).1 same
  rw [Nat.toString_eq_ofList_toDigits, Nat.toString_eq_ofList_toDigits] at digits
  rw [← Nat.ofDigitChars_ten_toDigits (n := m), String.ofList_injective digits,
    Nat.ofDigitChars_ten_toDigits]

/-- A list is too short to hold one more numbered names than it has entries. -/
theorem exists_numbered_notMem (stem : String) (number : Nat) (names : List String) :
    ∃ k ≤ names.length, stem ++ toString (number + k) ∉ names := by
  by_contra covered
  push Not at covered
  have distinct : ((List.range (names.length + 1)).map
      fun k => stem ++ toString (number + k)).Nodup := by
    refine List.Nodup.map_on (fun k _ l _ same => ?_) List.nodup_range
    exact Nat.add_left_cancel (eq_of_numbered_eq same)
  have subset : (List.range (names.length + 1)).map
      (fun k => stem ++ toString (number + k)) ⊆ names := by
    intro name member
    obtain ⟨k, inside, rfl⟩ := List.mem_map.1 member
    exact covered k (Nat.le_of_lt_succ (List.mem_range.1 inside))
  have short := (List.subperm_of_subset distinct subset).length_le
  rw [List.length_map, List.length_range] at short
  exact Nat.not_succ_le_self _ short

/-- The first number from `number` on that is not used, looking at no more than `tries` candidates
before settling for the one after them. -/
def firstFree (used : Nat → Bool) : (tries number : Nat) → Nat
  | 0, number => number
  | tries + 1, number => if used number then firstFree used tries (number + 1) else number

/-- A search that ends with a used number has seen nothing but used numbers. -/
theorem used_of_used_firstFree {used : Nat → Bool} {tries number : Nat}
    (last : used (firstFree used tries number)) : ∀ k ≤ tries, used (number + k) := by
  induction tries generalizing number with
  | zero =>
    intro k none
    rw [Nat.le_zero.1 none]
    exact last
  | succ tries inductionHypothesis =>
    rw [firstFree] at last
    split at last
    · next first =>
      intro k bound
      cases k with
      | zero => exact first
      | succ k =>
        have next := inductionHypothesis last k (Nat.le_of_succ_le_succ bound)
        rwa [Nat.add_right_comm] at next
    · next first => exact absurd last first

/-- A search with as many tries as there are names finds a number whose name is not listed. -/
theorem not_used_firstFree (used : Nat → Bool) {stem : String} {names : List String}
    (listed : ∀ number, used number → stem ++ toString number ∈ names) {tries : Nat}
    (enough : names.length ≤ tries) (number : Nat) : ¬ used (firstFree used tries number) := by
  intro last
  obtain ⟨k, bound, absent⟩ := exists_numbered_notMem stem number names
  exact absent (listed _ (used_of_used_firstFree last k (Nat.le_trans bound enough)))

namespace Vocabulary

/-! ### What a vocabulary knows -/

/-- Everything that a vocabulary knows is known to a wider one. -/
def Within (voc wider : Vocabulary) : Prop :=
  ∀ symbol, voc.knows symbol → wider.knows symbol

theorem Within.refl (voc : Vocabulary) : voc.Within voc :=
  fun _ known => known

theorem Within.trans {voc wider widest : Vocabulary} (first : voc.Within wider)
    (second : wider.Within widest) : voc.Within widest :=
  fun symbol known => second symbol (first symbol known)

theorem knows_addConstant {voc : Vocabulary} {name : String} {symbol : Symbol} :
    (voc.addConstant name).knows symbol ↔ voc.knows symbol ∨ symbol = .constant name := by
  cases symbol <;> simp [addConstant, knows, isConstant, isFunction, isPredicate, or_comm]

theorem knows_addFunction {voc : Vocabulary} {name : String} {symbol : Symbol} :
    (voc.addFunction name).knows symbol ↔ voc.knows symbol ∨ symbol = .function name := by
  cases symbol <;> simp [addFunction, knows, isConstant, isFunction, isPredicate, or_comm]

theorem knows_addPredicate {voc : Vocabulary} {name : String} {symbol : Symbol} :
    (voc.addPredicate name).knows symbol ↔ voc.knows symbol ∨ symbol = .predicate name := by
  cases symbol <;> simp [addPredicate, knows, isConstant, isFunction, isPredicate, or_comm]

/-! ### Registering expressions -/

mutual

theorem knows_registerTerm {symbol : Symbol} : ∀ (t : Term) (voc : Vocabulary),
    (voc.registerTerm t).knows symbol ↔ voc.knows symbol ∨ symbol ∈ t.symbols
  | .constant name, voc => by
    rw [registerTerm, knows_addConstant, Term.symbols, List.mem_singleton]
  | .var v, voc => by
    rw [registerTerm, Term.symbols]
    exact (or_iff_left List.not_mem_nil).symm
  | .app function ts, voc => by
    rw [registerTerm, knows_registerTerms ts, knows_addFunction, Term.symbols, List.mem_cons,
      or_assoc]

theorem knows_registerTerms {symbol : Symbol} : ∀ (ts : List Term) (voc : Vocabulary),
    (voc.registerTerms ts).knows symbol ↔ voc.knows symbol ∨ symbol ∈ Term.symbolsList ts
  | [], voc => by
    rw [registerTerms, Term.symbolsList]
    exact (or_iff_left List.not_mem_nil).symm
  | t :: ts, voc => by
    rw [registerTerms, knows_registerTerms ts, knows_registerTerm t, Term.symbolsList,
      List.mem_append, or_assoc]

end

theorem knows_registerAtom {symbol : Symbol} (a : Atom) (voc : Vocabulary) :
    (voc.registerAtom a).knows symbol ↔ voc.knows symbol ∨ symbol ∈ a.symbols := by
  cases a with
  | predicate name ts =>
    rw [registerAtom, knows_registerTerms, knows_addPredicate, or_assoc]
    simp [Atom.symbols, Atom.predicateSymbols, Atom.arguments]
  | equality left right =>
    rw [registerAtom, knows_registerTerms]
    rfl

theorem knows_registerSentence {symbol : Symbol} (s : Sentence) (voc : Vocabulary) :
    (voc.registerSentence s).knows symbol ↔ voc.knows symbol ∨ symbol ∈ s.symbols := by
  induction s generalizing voc with
  | atom a => exact knows_registerAtom a voc
  | negation body inductionHypothesis => exact inductionHypothesis voc
  | connected connective left right leftHypothesis rightHypothesis =>
    rw [registerSentence, rightHypothesis, leftHypothesis, Sentence.symbols, List.mem_append,
      or_assoc]
  | quantified quantifier bound body inductionHypothesis => exact inductionHypothesis voc

/-! ### Inventing names -/

theorem isKnown_iff_mem {voc : Vocabulary} {name : String} :
    voc.isKnown name ↔ name ∈ voc.constants ++ voc.functions ++ voc.predicates := by
  simp [isKnown, isConstant, isFunction, isPredicate, or_assoc]

theorem firstUnused_eq (voc : Vocabulary) (stem : String) (tries number : Nat) :
    voc.firstUnused stem tries number =
      firstFree (fun number => voc.isKnown (stem ++ toString number)) tries number := by
  induction tries generalizing number with
  | zero => rfl
  | succ tries inductionHypothesis => rw [firstUnused, firstFree, inductionHypothesis]

theorem not_isKnown_unusedNumber (voc : Vocabulary) (stem : String) (number : Nat) :
    ¬ voc.isKnown (stem ++ toString (voc.unusedNumber stem number)) := by
  rw [unusedNumber, firstUnused_eq]
  refine not_used_firstFree _ (fun number used => isKnown_iff_mem.1 used) ?_ number
  rw [List.length_append, List.length_append]
  exact Nat.le_refl _

/-- A name that is not in use is no symbol of any kind. -/
theorem not_knows_of_not_isKnown {voc : Vocabulary} {name : String} (unused : ¬ voc.isKnown name) :
    ¬ voc.knows (.constant name) ∧ ¬ voc.knows (.function name) ∧
      ¬ voc.knows (.predicate name) := by
  simp only [isKnown, Bool.or_eq_true, not_or] at unused
  exact ⟨unused.1.1, unused.1.2, unused.2⟩

/-- An invention leads from a vocabulary to one that knows one symbol more. -/
structure Invents (voc : Vocabulary) (symbol : Symbol) (extended : Vocabulary) : Prop where
  unknown : ¬ voc.knows symbol
  knows_iff : ∀ other, extended.knows other ↔ voc.knows other ∨ other = symbol

namespace Invents

variable {voc extended : Vocabulary} {symbol : Symbol}

theorem within (invents : voc.Invents symbol extended) : voc.Within extended :=
  fun other known => (invents.knows_iff other).2 (Or.inl known)

theorem known (invents : voc.Invents symbol extended) : extended.knows symbol :=
  (invents.knows_iff symbol).2 (Or.inr rfl)

end Invents

theorem skolemConstant_invents (voc : Vocabulary) :
    voc.Invents (.constant voc.skolemConstant.1) voc.skolemConstant.2 :=
  ⟨(not_knows_of_not_isKnown (not_isKnown_unusedNumber voc "SC" voc.nextSkolemConstant)).1,
    fun other => by
      rw [← knows_addConstant]
      cases other <;> rfl⟩

theorem skolemFunction_invents (voc : Vocabulary) :
    voc.Invents (.function voc.skolemFunction.1) voc.skolemFunction.2 :=
  ⟨(not_knows_of_not_isKnown (not_isKnown_unusedNumber voc "SF" voc.nextSkolemFunction)).2.1,
    fun other => by
      rw [← knows_addFunction]
      cases other <;> rfl⟩

theorem answerPredicate_invents (voc : Vocabulary) :
    voc.Invents (.predicate voc.answerPredicate.1) voc.answerPredicate.2 :=
  ⟨(not_knows_of_not_isKnown (not_isKnown_unusedNumber voc "Answer" voc.nextAnswer)).2.2,
    fun other => by
      rw [← knows_addPredicate]
      cases other <;> rfl⟩

end Vocabulary

namespace BinderNames

/-! ### New names for bound variables -/

theorem firstUntaken_eq (names : BinderNames) (tries number : Nat) :
    names.firstUntaken tries number =
      firstFree (fun number => names.taken.contains ("q" ++ toString number)) tries number := by
  induction tries generalizing number with
  | zero => rfl
  | succ tries inductionHypothesis => rw [firstUntaken, firstFree, inductionHypothesis]

theorem fresh_notMem_taken (names : BinderNames) : names.fresh.1.name ∉ names.taken := by
  intro used
  refine not_used_firstFree (fun number => names.taken.contains ("q" ++ toString number))
    (fun number used => List.contains_iff_mem.1 used) (Nat.le_refl _) names.next ?_
  rw [← firstUntaken_eq]
  exact List.contains_iff_mem.2 used

end BinderNames

end ClausalReasoner
