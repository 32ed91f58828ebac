/-
This file says when cascading ends. One round applies a substitution to its own range, so after `n`
rounds a variable has what `2 ^ n` applications of the substitution in turn make of it. If no variable
leads back to itself through the bindings, the applications stop changing anything once every bound
variable has been passed, hence the rounds stop too, and the bound on their number is never met. A
variable that leads back to itself inside a larger term grows with every round.
-/

import ClausalReasoner.Proofs.Composition
import Mathlib.Algebra.Group.Nat.Defs
import Mathlib.Data.Finset.Card
import Mathlib.Logic.Function.Iterate
import Mathlib.Logic.Relation
import Mathlib.Order.Monotone.Basic

namespace ClausalReasoner

namespace Substitution

variable {σ : Substitution} {v w : Variable}

/-! ### Following bindings -/

/-- A variable is bound to a term in which another one stands. -/
def LeadsTo (σ : Substitution) (v w : Variable) : Prop :=
  ∃ t, σ.get? v = some t ∧ w ∈ t.occurrences

/-- No variable leads back to itself. -/
def IsAcyclic (σ : Substitution) : Prop :=
  ∀ v, ¬ Relation.TransGen σ.LeadsTo v v

/-- Some number of rounds of cascading comes to a substitution that a further one does not change. -/
def ComesToRest (σ : Substitution) : Prop :=
  ∃ rounds, (cascadeRound^[rounds] σ).cascadeRound = cascadeRound^[rounds] σ

/-- In a solved substitution a variable only leads to unbound ones. -/
theorem IsSolved.isAcyclic (solved : σ.IsSolved) : σ.IsAcyclic := by
  intro v cycle
  obtain ⟨w, _, t, bound, occurs⟩ := Relation.TransGen.tail'_iff.1 cycle
  obtain ⟨u, ⟨s, bound', _⟩, _⟩ := Relation.TransGen.head'_iff.1 cycle
  exact absurd (bound'.symm.trans (solved _ (mem_of_lookup bound) v occurs)) nofun

/-! ### Applying a substitution several times -/

/-- What a variable becomes when a substitution is applied so many times. -/
def applied (σ : Substitution) : Nat → Variable → Term
  | 0, v => .var v
  | times + 1, v => (σ.applied times v).substitute σ

@[simp]
theorem applied_zero (σ : Substitution) : σ.applied 0 = .var := rfl

theorem replace_applied_add (σ : Substitution) (t : Term) (first later : Nat) :
    (t.replace (σ.applied first)).replace (σ.applied later) =
      t.replace (σ.applied (first + later)) := by
  induction later with
  | zero => simp
  | succ later inductionHypothesis =>
    have step : ∀ (times : Nat) (u : Term),
        u.replace (σ.applied (times + 1)) = (u.replace (σ.applied times)).substitute σ :=
      fun times u => (u.replace_replace (σ.applied times) σ.value).symm
    rw [step, inductionHypothesis, ← Nat.add_assoc, step]

/-- The first application may be done first. -/
theorem applied_succ (σ : Substitution) (times : Nat) (v : Variable) :
    σ.applied (times + 1) v = (σ.value v).replace (σ.applied times) := by
  have first := σ.replace_applied_add (.var v) 1 times
  rw [Nat.add_comm] at first
  exact first.symm

theorem applied_of_get?_none (free : σ.get? v = none) (times : Nat) :
    σ.applied times v = .var v := by
  induction times with
  | zero => rfl
  | succ times inductionHypothesis =>
    rw [applied, inductionHypothesis]
    exact value_of_get?_none free

/-- Every round doubles the number of applications. -/
theorem value_iterate_cascadeRound (σ : Substitution) (rounds : Nat) (v : Variable) :
    (cascadeRound^[rounds] σ).value v = σ.applied (2 ^ rounds) v := by
  induction rounds generalizing v with
  | zero => exact (σ.applied_succ 0 v).trans (Term.replace_var _) |>.symm
  | succ rounds inductionHypothesis =>
    have values : (cascadeRound^[rounds] σ).value = σ.applied (2 ^ rounds) :=
      funext inductionHypothesis
    rw [Function.iterate_succ_apply', value_cascadeRound, Term.substitute, values, Nat.pow_succ,
      Nat.mul_two]
    exact σ.replace_applied_add (.var v) (2 ^ rounds) (2 ^ rounds)

/-- The terms of the range have had one application less than the variables. -/
theorem bindings_iterate_cascadeRound (σ : Substitution) (rounds : Nat) :
    (cascadeRound^[rounds] σ).bindings =
      σ.bindings.map fun entry => (entry.1, entry.2.replace (σ.applied (2 ^ rounds - 1))) := by
  induction rounds with
  | zero => simp
  | succ rounds inductionHypothesis =>
    have values : (cascadeRound^[rounds] σ).value = σ.applied (2 ^ rounds) :=
      funext (σ.value_iterate_cascadeRound rounds)
    have count : 2 ^ rounds - 1 + 2 ^ rounds = 2 ^ (rounds + 1) - 1 := by
      have positive : 0 < 2 ^ rounds := Nat.two_pow_pos rounds
      omega
    rw [Function.iterate_succ_apply', cascadeRound, mapRange, inductionHypothesis, List.map_map]
    refine List.map_congr_left fun entry _ => Prod.ext rfl ?_
    show (entry.2.replace _).replace _ = _
    rw [values, replace_applied_add, count]

theorem applied_add (σ : Substitution) (first later : Nat) (v : Variable) :
    σ.applied (first + later) v = (σ.applied first v).replace (σ.applied later) :=
  (σ.replace_applied_add (.var v) first later).symm

/-- Let so many applications bring back every variable that leads to itself. They make no difference
to a variable after as many applications as there are bound variables that it leads to, counting
itself. -/
theorem applied_add_of_returns {period : Nat}
    (returns : ∀ w, Relation.TransGen σ.LeadsTo w w → σ.applied period w = .var w) (times : Nat)
    {v : Variable} (passed : Finset Variable) (few : passed.card ≤ times)
    (inside : ∀ w, Relation.ReflTransGen σ.LeadsTo v w → (σ.get? w).isSome → w ∈ passed) :
    σ.applied (times + period) v = σ.applied times v := by
  induction times generalizing v passed with
  | zero =>
    have free : σ.get? v = none := by
      by_contra bound
      have member := inside v .refl (Option.isSome_iff_ne_none.2 bound)
      exact absurd (Finset.card_pos.2 ⟨v, member⟩) (Nat.not_lt.2 few)
    rw [applied_of_get?_none free, applied_of_get?_none free]
  | succ times inductionHypothesis =>
    by_cases cycle : Relation.TransGen σ.LeadsTo v v
    · rw [Nat.add_comm, applied_add, returns v cycle]
      rfl
    · cases bound : σ.get? v with
      | none => rw [applied_of_get?_none bound, applied_of_get?_none bound]
      | some t =>
        have here : v ∈ passed := inside v .refl (by rw [bound]; rfl)
        rw [Nat.add_right_comm, applied_succ, applied_succ]
        refine Term.replace_congr fun w occurs => ?_
        rw [value_of_get?_some bound] at occurs
        have leads : σ.LeadsTo v w := ⟨t, bound, occurs⟩
        refine inductionHypothesis (passed.erase v) ?_ fun u later isBound => ?_
        · rw [Finset.card_erase_of_mem here]
          omega
        · refine Finset.mem_erase.2 ⟨fun same => ?_, inside u (.head leads later) isBound⟩
          exact cycle (.head' leads (same ▸ later))

/-- After as many applications as there are bindings all bound variables have been passed. -/
theorem applied_add_of_size_le {period : Nat}
    (returns : ∀ w, Relation.TransGen σ.LeadsTo w w → σ.applied period w = .var w) {times : Nat}
    (enough : σ.size ≤ times) (v : Variable) :
    σ.applied (times + period) v = σ.applied times v := by
  refine applied_add_of_returns returns times σ.domain.toFinset ?_ fun w _ bound => ?_
  · refine (List.toFinset_card_le _).trans ?_
    rw [domain, List.length_map]
    exact enough
  · obtain ⟨t, found⟩ := Option.isSome_iff_exists.1 bound
    exact List.mem_toFinset.2 (List.mem_map_of_mem (mem_of_lookup found))

/-! ### Substitutions without a cycle -/

/-- All applications after as many as there are bindings make no difference. -/
theorem IsAcyclic.applied_eq (acyclic : σ.IsAcyclic) {times : Nat} (enough : σ.size ≤ times)
    (v : Variable) : σ.applied times v = σ.applied σ.size v := by
  induction times, enough using Nat.le_induction with
  | base => rfl
  | succ times enough inductionHypothesis =>
    rw [← inductionHypothesis]
    exact applied_add_of_size_le (fun w cycle => absurd cycle (acyclic w)) enough v

/-- All rounds after those that make as many applications as there are bindings make no
difference. -/
theorem IsAcyclic.iterate_cascadeRound_eq (acyclic : σ.IsAcyclic) {rounds later : Nat}
    (enough : σ.size < 2 ^ rounds) (more : rounds ≤ later) :
    cascadeRound^[later] σ = cascadeRound^[rounds] σ := by
  have longer : σ.size < 2 ^ later :=
    enough.trans_le (Nat.pow_le_pow_right Nat.two_pos more)
  have same : (cascadeRound^[later] σ).bindings = (cascadeRound^[rounds] σ).bindings := by
    rw [bindings_iterate_cascadeRound, bindings_iterate_cascadeRound]
    refine List.map_congr_left fun entry _ => Prod.ext rfl ?_
    refine Term.replace_congr fun v _ => ?_
    rw [acyclic.applied_eq (Nat.le_sub_one_of_lt enough),
      acyclic.applied_eq (Nat.le_sub_one_of_lt longer)]
  exact congrArg Substitution.mk same

theorem IsAcyclic.iterate_cascadeRound_succ (acyclic : σ.IsAcyclic) {rounds : Nat}
    (enough : σ.size < 2 ^ rounds) :
    (cascadeRound^[rounds] σ).cascadeRound = cascadeRound^[rounds] σ := by
  rw [← Function.iterate_succ_apply' cascadeRound]
  exact acyclic.iterate_cascadeRound_eq enough (Nat.le_succ rounds)

/-- Cascading stops at the first substitution that a round does not change. -/
theorem cascadeWithin_eq_iterate {rounds bound : Nat} (within : rounds ≤ bound)
    (fixed : (cascadeRound^[rounds] σ).cascadeRound = cascadeRound^[rounds] σ) :
    cascadeWithin bound σ = cascadeRound^[rounds] σ := by
  induction rounds generalizing σ bound with
  | zero => exact cascadeWithin_of_fixed fixed
  | succ rounds inductionHypothesis =>
    obtain ⟨rest, rfl⟩ : ∃ rest, bound = rest + 1 := ⟨bound - 1, by omega⟩
    rw [cascadeWithin]
    split
    · next still => exact (Function.iterate_fixed still (rounds + 1)).symm
    · exact inductionHypothesis (Nat.le_of_succ_le_succ within) fixed

/-- **Cascading ends where there is no cycle.** It then comes to a substitution that a further round
does not change, without meeting the bound on the number of rounds. -/
theorem IsAcyclic.comesToRest (acyclic : σ.IsAcyclic) :
    σ.ComesToRest ∧ σ.cascade.cascadeRound = σ.cascade := by
  have fixed := acyclic.iterate_cascadeRound_succ Nat.lt_two_pow_self
  have cascaded : σ.cascade = cascadeRound^[σ.size] σ :=
    cascadeWithin_eq_iterate (Nat.le_succ σ.size) fixed
  exact ⟨⟨σ.size, fixed⟩, cascaded ▸ fixed⟩

/-- **Cascading does not end at a growing cycle.** A variable that is bound to a larger term in which
it stands itself grows with every round. -/
theorem not_comesToRest {t : Term} (bound : σ.get? v = some t) (occurs : v ∈ t.occurrences)
    (larger : t ≠ .var v) : ¬ σ.ComesToRest := by
  have grows : StrictMono fun times => (σ.applied times v).weight := by
    refine strictMono_nat_of_lt_succ fun times => ?_
    rw [applied_succ, value_of_get?_some bound]
    exact Term.weight_lt_weight_replace occurs larger
  rintro ⟨rounds, fixed⟩
  have same := congrArg (fun θ : Substitution => (θ.value v).weight) fixed
  rw [← Function.iterate_succ_apply' cascadeRound] at same
  simp only [value_iterate_cascadeRound] at same
  exact absurd (grows.injective same) (Nat.pow_lt_pow_succ Nat.one_lt_two).ne'

end Substitution

end ClausalReasoner
