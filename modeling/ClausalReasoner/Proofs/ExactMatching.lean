/-
This file says exactly when matching succeeds. A replacement of variables agrees with what a match
ends in if and only if it agreed with the bindings at the start and turns the pattern into the
target. So there is a match as soon as there is such a replacement, whatever was bound before and in
whatever order the parts of the pattern are met.
-/

import ClausalReasoner.Matching
import ClausalReasoner.Proofs.SolvedForm

namespace ClausalReasoner

variable {value : Variable → Term} {σ : Substitution}

/-! ### Replacements that agree with bindings -/

namespace Substitution

/-- Whether a replacement puts every bound variable's term in its place. -/
def Admits (σ : Substitution) (value : Variable → Term) : Prop :=
  ∀ v t, σ.get? v = some t → value v = t

theorem admits_empty (value : Variable → Term) : (∅ : Substitution).Admits value :=
  nofun

theorem admits_value (σ : Substitution) : σ.Admits σ.value :=
  fun _ _ bound => value_of_get?_some bound

theorem admits_insert_iff {v : Variable} (free : σ.get? v = none) (t : Term) :
    (σ.insert v t).Admits value ↔ σ.Admits value ∧ value v = t := by
  constructor
  · refine fun admits => ⟨fun w u bound => admits w u ?_, admits v t (by simp)⟩
    rw [get?_insert, if_neg]
    · exact bound
    · rintro rfl
      rw [free] at bound
      cases bound
  · rintro ⟨admits, here⟩ w u bound
    rw [get?_insert] at bound
    split at bound
    · next same => exact same ▸ here.trans (Option.some.inj bound)
    · exact admits w u bound

/-- Whether there is a match and a replacement agrees with what it ends in. -/
def Allows (found : Option Substitution) (value : Variable → Term) : Prop :=
  ∃ matched, found = some matched ∧ matched.Admits value

@[simp]
theorem allows_some : Allows (some σ) value ↔ σ.Admits value :=
  ⟨fun ⟨_, same, admits⟩ => Option.some.inj same ▸ admits, fun admits => ⟨σ, rfl, admits⟩⟩

@[simp]
theorem not_allows_none : ¬ Allows none value :=
  fun ⟨_, found, _⟩ => absurd found nofun

end Substitution

open Substitution

/-! ### Matching terms -/

namespace Term

mutual

theorem allows_matchWith_iff : ∀ (pattern target : Term) (σ : Substitution),
    Allows (pattern.matchWith target σ) value ↔ σ.Admits value ∧ pattern.replace value = target
  | .var v, target, σ => by
    rw [matchWith, replace]
    split
    · next bound before =>
      split
      · next same =>
        rw [allows_some]
        exact (and_iff_left_of_imp fun admits => (admits v bound before).trans same).symm
      · next differs =>
        refine iff_of_false not_allows_none fun both => differs ?_
        exact (both.1 v bound before).symm.trans both.2
    · next free => exact allows_some.trans (admits_insert_iff free target)
  | .constant a, .constant b, σ => by
    rw [matchWith, replace, constant.injEq]
    split <;> simp_all
  | .app f patterns, .app g targets, σ => by
    rw [matchWith, replace, app.injEq]
    split
    · next same => rw [allows_matchListWith_iff patterns targets σ, and_iff_right same]
    · next differs => exact iff_of_false not_allows_none fun both => differs both.2.1
  | .constant _, .var _, _ => by simp [matchWith, replace]
  | .constant _, .app _ _, _ => by simp [matchWith, replace]
  | .app _ _, .constant _, _ => by simp [matchWith, replace]
  | .app _ _, .var _, _ => by simp [matchWith, replace]

theorem allows_matchListWith_iff : ∀ (patterns targets : List Term) (σ : Substitution),
    Allows (matchListWith patterns targets σ) value ↔
      σ.Admits value ∧ replaceList value patterns = targets
  | [], [], σ => by simp [matchListWith, replaceList]
  | pattern :: patterns, target :: targets, σ => by
    have first := allows_matchWith_iff pattern target σ
    rw [matchListWith, replaceList, List.cons.injEq, ← and_assoc, ← first]
    split
    · next between found =>
      rw [found, allows_some]
      exact allows_matchListWith_iff patterns targets between
    · next found =>
      rw [found]
      exact iff_of_false not_allows_none fun both => not_allows_none both.1
  | [], _ :: _, _ => by simp [matchListWith, replaceList]
  | _ :: _, [], _ => by simp [matchListWith, replaceList]

end

end Term

/-! ### Matching atoms -/

/-- A replacement agrees with what a match of atoms ends in exactly if it agreed with the bindings
before and turns the pattern into the target. -/
theorem Atom.allows_matchWith_iff (pattern target : Atom) (σ : Substitution) :
    Allows (pattern.matchWith target σ) value ↔
      σ.Admits value ∧ target = pattern.replace value := by
  cases pattern with
  | predicate p patterns =>
    cases target with
    | predicate q targets =>
      rw [matchWith, replace, predicate.injEq]
      split
      · next same =>
        rw [Term.allows_matchListWith_iff, and_iff_right same.symm, eq_comm (a := targets)]
      · next differs => exact iff_of_false not_allows_none fun both => differs both.2.1.symm
    | equality _ _ => simp [matchWith, replace]
  | equality a b =>
    cases target with
    | predicate _ _ => simp [matchWith, replace]
    | equality c d =>
      rw [matchWith, replace, Term.allows_matchListWith_iff, equality.injEq]
      simp only [Term.replaceList, List.cons.injEq, and_true, eq_comm]

end ClausalReasoner
