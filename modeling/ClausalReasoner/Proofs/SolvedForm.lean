/-
This file says what the substitutions are that unification works with. A substitution is solved
when no variable that it binds stands in its range; applying it twice is then the same as applying
it once, and cascading has nothing left to do. A binding that is added to a solved substitution is
solved after two rounds of cascading: in the first the new term gets its bound variables replaced,
in the second the result reaches every place where the new variable stands.

Beside the substitution stand the replacements that it allows for. A replacement respects a
substitution when it gives a bound variable what it gives the term that the variable is bound to.
Solved substitutions are the same as the sets of replacements that respect them, and a new binding
narrows the set by one equation.
-/

import ClausalReasoner.Proofs.Replacement
import Mathlib.Data.List.Perm.Basic

namespace ClausalReasoner

/-! ### Looking up -/

namespace Substitution

theorem lookup_eq_none_iff {v : Variable} {entries : List (Variable × Term)} :
    lookup v entries = none ↔ ∀ entry ∈ entries, entry.1 ≠ v := by
  induction entries with
  | nil => simp [lookup]
  | cons entry rest inductionHypothesis =>
    by_cases same : entry.1 = v <;> simp [lookup, same, inductionHypothesis]

theorem lookup_map (v : Variable) (change : Term → Term) (entries : List (Variable × Term)) :
    lookup v (entries.map fun entry => (entry.1, change entry.2)) =
      (lookup v entries).map change := by
  induction entries with
  | nil => rfl
  | cons entry rest inductionHypothesis =>
    by_cases same : entry.1 = v <;> simp [lookup, same, inductionHypothesis]

@[simp]
theorem get?_mapRange (σ : Substitution) (change : Term → Term) (v : Variable) :
    (σ.mapRange change).get? v = (σ.get? v).map change :=
  lookup_map v change σ.bindings

/-- Placing a binding of a free variable adds it and keeps everything else. -/
theorem mem_place {v : Variable} {t : Term} {entries : List (Variable × Term)}
    {entry : Variable × Term} (member : entry ∈ place v t entries) :
    entry = (v, t) ∨ entry ∈ entries := by
  induction entries with
  | nil => exact Or.inl (List.mem_singleton.1 member)
  | cons first rest inductionHypothesis =>
    unfold place at member
    split at member
    · rcases List.mem_cons.1 member with same | later
      · exact Or.inl same
      · exact Or.inr (List.mem_cons_of_mem _ later)
    · split at member
      · rcases List.mem_cons.1 member with same | later
        · exact Or.inl same
        · exact Or.inr later
      · rcases List.mem_cons.1 member with same | later
        · exact Or.inr (same ▸ List.mem_cons_self)
        · exact (inductionHypothesis later).imp_right (List.mem_cons_of_mem _)

theorem place_ne_nil (v : Variable) (t : Term) (entries : List (Variable × Term)) :
    place v t entries ≠ [] := by
  unfold place
  split
  · exact List.cons_ne_nil _ _
  · split
    · exact List.cons_ne_nil _ _
    · split <;> exact List.cons_ne_nil _ _

theorem value_of_get?_none {σ : Substitution} {v : Variable} (free : σ.get? v = none) :
    σ.value v = .var v := by
  rw [value, free, Option.getD_none]

theorem value_of_get?_some {σ : Substitution} {v : Variable} {t : Term}
    (bound : σ.get? v = some t) : σ.value v = t := by
  rw [value, bound, Option.getD_some]

@[simp]
theorem value_empty : (∅ : Substitution).value = .var :=
  funext fun v => value_of_get?_none (get?_empty v)

end Substitution

/-- The replacement that puts a term in the place of one variable. -/
def Variable.single (v : Variable) (t : Term) : Variable → Term :=
  fun w => if w = v then t else .var w

@[simp]
theorem Variable.single_self (v : Variable) (t : Term) : v.single t v = t :=
  if_pos rfl

theorem Variable.single_of_ne {v w : Variable} (t : Term) (different : w ≠ v) :
    v.single t w = .var w :=
  if_neg different

theorem Term.replace_single_of_notMem {v : Variable} {t u : Term} (absent : v ∉ t.occurrences) :
    t.replace (v.single u) = t :=
  replace_eq_self fun _ occurs => Variable.single_of_ne u fun same => absent (same ▸ occurs)

namespace Substitution

/-! ### Solved substitutions -/

/-- No bound variable stands in the range. -/
def IsSolved (σ : Substitution) : Prop :=
  ∀ entry ∈ σ.bindings, ∀ v ∈ entry.2.occurrences, σ.get? v = none

theorem isSolved_empty : (∅ : Substitution).IsSolved :=
  fun _ member => absurd member List.not_mem_nil

namespace IsSolved

variable {σ : Substitution}

/-- What a solved substitution puts in the place of a variable holds no bound variable. -/
theorem unbound (solved : σ.IsSolved) {v w : Variable} (occurs : w ∈ (σ.value v).occurrences) :
    σ.get? w = none := by
  cases bound : σ.get? v with
  | none =>
    rw [value_of_get?_none bound] at occurs
    rw [List.mem_singleton.1 occurs]
    exact bound
  | some t =>
    rw [value_of_get?_some bound] at occurs
    exact solved _ (mem_of_lookup bound) w occurs

theorem unbound_substitute (solved : σ.IsSolved) {t : Term} {w : Variable}
    (occurs : w ∈ (t.substitute σ).occurrences) : σ.get? w = none := by
  obtain ⟨v, _, here⟩ := Term.mem_occurrences_replace.1 occurs
  exact solved.unbound here

theorem substitute_eq_self {t : Term} (free : ∀ v ∈ t.occurrences, σ.get? v = none) :
    t.substitute σ = t :=
  Term.replace_eq_self fun v occurs => value_of_get?_none (free v occurs)

theorem substitute_substitute (solved : σ.IsSolved) (t : Term) :
    (t.substitute σ).substitute σ = t.substitute σ :=
  substitute_eq_self fun _ occurs => solved.unbound_substitute occurs

theorem substitute_of_mem (solved : σ.IsSolved) {entry : Variable × Term}
    (member : entry ∈ σ.bindings) : entry.2.substitute σ = entry.2 :=
  substitute_eq_self (solved entry member)

/-- Cascading has nothing left to do. -/
theorem cascadeRound_eq (solved : σ.IsSolved) : σ.cascadeRound = σ := by
  rw [cascadeRound, mapRange]
  refine congrArg Substitution.mk ?_
  refine List.map_congr_left (fun entry member => ?_) |>.trans (List.map_id _)
  exact Prod.ext rfl (solved.substitute_of_mem member)

end IsSolved

/-! ### Cascading a new binding -/

/-- Cascading goes to a substitution that a round does not change, given rounds enough. -/
theorem cascadeWithin_of_fixed {rounds : Nat} {σ : Substitution}
    (fixed : σ.cascadeRound = σ) : cascadeWithin rounds σ = σ := by
  cases rounds with
  | zero => rfl
  | succ rounds => rw [cascadeWithin, if_pos fixed]

/-- A substitution that two rounds bring to rest is cascaded by these two rounds. -/
theorem cascade_of_fixed_after_two {σ : Substitution} (nonempty : σ.bindings ≠ [])
    (fixed : σ.cascadeRound.cascadeRound.cascadeRound = σ.cascadeRound.cascadeRound) :
    σ.cascade = σ.cascadeRound.cascadeRound := by
  have size : ∃ rounds, σ.size + 1 = rounds + 2 :=
    ⟨σ.bindings.length - 1, by
      have positive := List.length_pos_iff.2 nonempty
      rw [Substitution.size]
      omega⟩
  obtain ⟨rounds, enough⟩ := size
  rw [cascade, enough, cascadeWithin]
  split
  · next still => rw [still, still]
  · rw [cascadeWithin]
    split
    · next still => exact still.symm
    · exact cascadeWithin_of_fixed fixed

variable {σ : Substitution} {v : Variable} {t : Term}

/-- What the first round leaves of a term whose variables are all free, except perhaps the new
one. -/
theorem replace_insert_of_unbound {u : Term} (free : ∀ w ∈ u.occurrences, σ.get? w = none) :
    u.substitute (σ.insert v t) = u.replace (v.single t) := by
  refine Term.replace_congr fun w occurs => ?_
  by_cases same : w = v
  · rw [same, value_of_get?_some (by simp : (σ.insert v t).get? v = some t),
      Variable.single_self]
  · rw [value_of_get?_none (by
        rw [get?_insert, if_neg (Ne.symm same)]
        exact free w occurs : (σ.insert v t).get? w = none),
      Variable.single_of_ne t same]

/-- What the first round makes of the new term, in which the new variable does not stand. -/
theorem replace_insert_self (absent : v ∉ t.occurrences) :
    t.substitute (σ.insert v t) = t.substitute σ := by
  refine Term.replace_congr fun w occurs => ?_
  have different : v ≠ w := fun same => absent (same ▸ occurs)
  rw [value, get?_insert, if_neg different, value]

/-- The value of a variable after the first round. -/
theorem value_cascadeRound_insert (solved : σ.IsSolved) (absent : v ∉ t.occurrences)
    (w : Variable) : (σ.insert v t).cascadeRound.value w =
      if w = v then t.substitute σ else (σ.value w).replace (v.single t) := by
  by_cases same : w = v
  · subst same
    rw [value, cascadeRound, get?_mapRange, get?_insert, if_pos rfl, Option.map_some,
      Option.getD_some, replace_insert_self absent, if_pos rfl]
  · rw [value, cascadeRound, get?_mapRange, get?_insert, if_neg (Ne.symm same), if_neg same]
    cases bound : σ.get? w with
    | none =>
      rw [Option.map_none, Option.getD_none, value_of_get?_none bound]
      exact (Variable.single_of_ne t same).symm
    | some u =>
      rw [Option.map_some, Option.getD_some, value_of_get?_some bound]
      exact replace_insert_of_unbound (solved _ (mem_of_lookup bound))

/-- What two rounds make of a term whose variables are all free, except perhaps the new one. -/
theorem substitute_substitute_insert (solved : σ.IsSolved) (absent : v ∉ t.occurrences)
    (apart : v ∉ (t.substitute σ).occurrences) {u : Term}
    (free : ∀ w ∈ u.occurrences, σ.get? w = none) :
    (u.substitute (σ.insert v t)).substitute (σ.insert v t).cascadeRound =
      u.replace (v.single (t.substitute σ)) := by
  have inner : t.substitute (σ.insert v t).cascadeRound = t.substitute σ := by
    refine Term.replace_congr fun w occurs => ?_
    have different : w ≠ v := fun same => absent (same ▸ occurs)
    rw [value_cascadeRound_insert solved absent, if_neg different]
    refine Term.replace_single_of_notMem fun here => apart ?_
    exact Term.mem_occurrences_replace.2 ⟨w, occurs, here⟩
  rw [replace_insert_of_unbound free, Term.substitute, Term.replace_replace]
  refine Term.replace_congr fun w occurs => ?_
  by_cases same : w = v
  · rw [same, Variable.single_self, Variable.single_self]
    exact inner
  · rw [Variable.single_of_ne t same, Variable.single_of_ne _ same, Term.replace,
      value_cascadeRound_insert solved absent, if_neg same, value_of_get?_none (free w occurs)]
    exact Variable.single_of_ne t same

/-- What two rounds make of the new term. -/
theorem substitute_substitute_insert_self (solved : σ.IsSolved) (absent : v ∉ t.occurrences)
    (apart : v ∉ (t.substitute σ).occurrences) :
    (t.substitute (σ.insert v t)).substitute (σ.insert v t).cascadeRound = t.substitute σ := by
  rw [replace_insert_self absent]
  refine Term.replace_eq_self fun w occurs => ?_
  have different : w ≠ v := fun same => apart (same ▸ occurs)
  rw [value_cascadeRound_insert solved absent, if_neg different,
    value_of_get?_none (solved.unbound_substitute occurs)]
  exact Variable.single_of_ne t different

/-- The entries after two rounds: the new variable has the new term, and everywhere else the new
variable is replaced by it. -/
theorem mem_cascadeRound_cascadeRound_insert (solved : σ.IsSolved) (absent : v ∉ t.occurrences)
    (apart : v ∉ (t.substitute σ).occurrences) {entry : Variable × Term}
    (member : entry ∈ (σ.insert v t).cascadeRound.cascadeRound.bindings) :
    entry = (v, t.substitute σ) ∨
      ∃ old ∈ σ.bindings, entry = (old.1, old.2.replace (v.single (t.substitute σ))) := by
  simp only [cascadeRound, mapRange, List.map_map, List.mem_map] at member
  obtain ⟨old, placed, rfl⟩ := member
  rcases mem_place placed with rfl | older
  · exact Or.inl (Prod.ext rfl (substitute_substitute_insert_self solved absent apart))
  · exact Or.inr ⟨old, older,
      Prod.ext rfl (substitute_substitute_insert solved absent apart (solved old older))⟩

theorem get?_cascadeRound_cascadeRound_insert (solved : σ.IsSolved) (absent : v ∉ t.occurrences)
    (apart : v ∉ (t.substitute σ).occurrences) (w : Variable) :
    (σ.insert v t).cascadeRound.cascadeRound.get? w =
      if v = w then some (t.substitute σ)
      else (σ.get? w).map (Term.replace (v.single (t.substitute σ))) := by
  rw [cascadeRound, get?_mapRange, cascadeRound, get?_mapRange, get?_insert]
  by_cases same : v = w
  · rw [if_pos same, if_pos same, Option.map_some, Option.map_some]
    exact congrArg some (substitute_substitute_insert_self solved absent apart)
  · rw [if_neg same, if_neg same]
    cases bound : σ.get? w with
    | none => rfl
    | some u =>
      rw [Option.map_some, Option.map_some, Option.map_some]
      exact congrArg some
        (substitute_substitute_insert solved absent apart (solved _ (mem_of_lookup bound)))

/-- After two rounds the substitution is solved. -/
theorem isSolved_cascadeRound_cascadeRound_insert (solved : σ.IsSolved)
    (absent : v ∉ t.occurrences) (apart : v ∉ (t.substitute σ).occurrences) :
    (σ.insert v t).cascadeRound.cascadeRound.IsSolved := by
  have free : ∀ w, σ.get? w = none → w ≠ v →
      (σ.insert v t).cascadeRound.cascadeRound.get? w = none := by
    intro w unbound different
    rw [get?_cascadeRound_cascadeRound_insert solved absent apart, if_neg (Ne.symm different),
      unbound, Option.map_none]
  have inTerm : ∀ w ∈ (t.substitute σ).occurrences,
      (σ.insert v t).cascadeRound.cascadeRound.get? w = none := fun w occurs =>
    free w (solved.unbound_substitute occurs) fun same => apart (same ▸ occurs)
  intro entry member w occurs
  rcases mem_cascadeRound_cascadeRound_insert solved absent apart member with rfl | ⟨old, older, rfl⟩
  · exact inTerm w occurs
  · obtain ⟨u, here, there⟩ := Term.mem_occurrences_replace.1 occurs
    by_cases same : u = v
    · rw [same, Variable.single_self] at there
      exact inTerm w there
    · rw [Variable.single_of_ne _ same] at there
      rw [List.mem_singleton.1 there]
      exact free u (solved old older u here) same

/-- A new binding of a solved substitution is cascaded in two rounds. -/
theorem bind_eq (solved : σ.IsSolved) (absent : v ∉ t.occurrences)
    (apart : v ∉ (t.substitute σ).occurrences) :
    σ.bind v t = (σ.insert v t).cascadeRound.cascadeRound :=
  cascade_of_fixed_after_two (place_ne_nil v t σ.bindings)
    (isSolved_cascadeRound_cascadeRound_insert solved absent apart).cascadeRound_eq

theorem get?_bind (solved : σ.IsSolved) (absent : v ∉ t.occurrences)
    (apart : v ∉ (t.substitute σ).occurrences) (w : Variable) :
    (σ.bind v t).get? w = if v = w then some (t.substitute σ)
      else (σ.get? w).map (Term.replace (v.single (t.substitute σ))) := by
  rw [bind_eq solved absent apart]
  exact get?_cascadeRound_cascadeRound_insert solved absent apart w

theorem IsSolved.bind (solved : σ.IsSolved) (absent : v ∉ t.occurrences)
    (apart : v ∉ (t.substitute σ).occurrences) : (σ.bind v t).IsSolved := by
  rw [bind_eq solved absent apart]
  exact isSolved_cascadeRound_cascadeRound_insert solved absent apart

/-- A new binding acts on values by putting the new term in the place of the new variable. -/
theorem value_bind (solved : σ.IsSolved) (free : σ.get? v = none) (absent : v ∉ t.occurrences)
    (apart : v ∉ (t.substitute σ).occurrences) (w : Variable) :
    (σ.bind v t).value w = (σ.value w).replace (v.single (t.substitute σ)) := by
  rw [value, get?_bind solved absent apart]
  by_cases same : v = w
  · rw [if_pos same, Option.getD_some, ← same, value_of_get?_none free]
    exact (Variable.single_self v _).symm
  · rw [if_neg same]
    cases bound : σ.get? w with
    | none =>
      rw [Option.map_none, Option.getD_none, value_of_get?_none bound]
      exact (Variable.single_of_ne _ (Ne.symm same)).symm
    | some u => rw [Option.map_some, Option.getD_some, value_of_get?_some bound]

/-! ### Replacements that respect a substitution -/

/-- A replacement gives every bound variable what it gives the term the variable is bound to. -/
def Respects (value : Variable → Term) (σ : Substitution) : Prop :=
  ∀ v, (σ.value v).replace value = value v

theorem respects_empty (value : Variable → Term) : Respects value ∅ := by
  intro v
  rw [value_empty]
  rfl

namespace Respects

variable {value : Variable → Term}

theorem replace_get? (respects : Respects value σ) {v : Variable} {t : Term}
    (bound : σ.get? v = some t) : t.replace value = value v := by
  rw [← respects v, value_of_get?_some bound]

/-- Applying the substitution first makes no difference. -/
theorem replace_substitute (respects : Respects value σ) (t : Term) :
    (t.substitute σ).replace value = t.replace value := by
  rw [Term.substitute, Term.replace_replace]
  exact Term.replace_congr fun v _ => respects v

end Respects

/-- A solved substitution respects itself. -/
theorem IsSolved.respects (solved : σ.IsSolved) : Respects σ.value σ :=
  fun _ => substitute_eq_self fun _ occurs => solved.unbound occurs

/-- A new binding leaves the replacements that satisfy it as an equation. -/
theorem respects_bind_iff (solved : σ.IsSolved) (free : σ.get? v = none)
    (absent : v ∉ t.occurrences) (apart : v ∉ (t.substitute σ).occurrences)
    {value : Variable → Term} :
    Respects value (σ.bind v t) ↔ Respects value σ ∧ value v = t.replace value := by
  have throughSingle : value v = (t.substitute σ).replace value →
      ∀ u : Term, (u.replace (v.single (t.substitute σ))).replace value = u.replace value := by
    intro equal u
    rw [Term.replace_replace]
    refine Term.replace_congr fun w _ => ?_
    by_cases same : w = v
    · rw [same, Variable.single_self, equal]
    · rw [Variable.single_of_ne _ same]
      rfl
  constructor
  · intro respects
    have equal : value v = (t.substitute σ).replace value := by
      rw [← respects v, value_bind solved free absent apart, value_of_get?_none free,
        Term.replace, Variable.single_self]
    have older : Respects value σ := by
      intro w
      rw [← throughSingle equal (σ.value w), ← value_bind solved free absent apart, respects w]
    exact ⟨older, by rw [equal, older.replace_substitute]⟩
  · rintro ⟨older, equal⟩ w
    rw [← older.replace_substitute] at equal
    rw [value_bind solved free absent apart, throughSingle equal, older w]

/-! ### The occurs check -/

/-- The variables that are met before are still there afterwards. -/
theorem subset_reach (θ : Substitution) (depth : Nat) (reached : List Variable) :
    ∀ v ∈ reached, v ∈ θ.reach depth reached := by
  induction depth generalizing reached with
  | zero => exact fun v member => member
  | succ depth inductionHypothesis =>
    intro v member
    simp only [reach]
    split
    · exact member
    · exact inductionHypothesis _ v (mem_firstOccurrences.2 (List.mem_append_left _ member))

/-- One step along the bindings is among what is reached. -/
theorem successors_subset_reach (θ : Substitution) (depth : Nat) {reached : List Variable}
    (distinct : reached.Nodup) {v w : Variable} (member : v ∈ reached)
    (next : w ∈ θ.successors v) : w ∈ θ.reach (depth + 1) reached := by
  have wider : w ∈ firstOccurrences (reached ++ reached.flatMap θ.successors) :=
    mem_firstOccurrences.2 (List.mem_append_right _ (List.mem_flatMap.2 ⟨v, member, next⟩))
  simp only [reach]
  split
  · next same =>
    have subset : reached ⊆ firstOccurrences (reached ++ reached.flatMap θ.successors) :=
      fun u here => mem_firstOccurrences.2 (List.mem_append_left _ here)
    have permutation := (List.subperm_of_subset distinct subset).perm_of_length_le
      (Nat.le_of_eq same)
    exact permutation.mem_iff.2 wider
  · exact subset_reach θ depth _ w wider

/-- What is reached stays within every set that the bindings do not lead out of. -/
theorem reach_subset (θ : Substitution) {inside : Variable → Prop}
    (closed : ∀ v, inside v → ∀ w ∈ θ.successors v, inside w) (depth : Nat) :
    ∀ reached : List Variable, (∀ v ∈ reached, inside v) → ∀ v ∈ θ.reach depth reached, inside v := by
  induction depth with
  | zero => exact fun reached start => start
  | succ depth inductionHypothesis =>
    intro reached start
    simp only [reach]
    split
    · exact start
    · refine inductionHypothesis _ fun v member => ?_
      rcases List.mem_append.1 (mem_firstOccurrences.1 member) with old | new
      · exact start v old
      · obtain ⟨u, here, there⟩ := List.mem_flatMap.1 new
        exact closed u (start u here) v there

/-- A variable that fails the occurs check stands neither in the term nor in its instance. -/
theorem notMem_of_not_occursIn (clear : σ.occursIn v t = false) :
    v ∉ t.occurrences ∧ v ∉ (t.substitute σ).occurrences := by
  have unreached : v ∉ σ.reach (σ.size + 1) t.vars := by
    rw [occursIn] at clear
    intro member
    rw [List.contains_iff_mem.2 member] at clear
    exact Bool.noConfusion clear
  have absent : v ∉ t.occurrences := fun occurs =>
    unreached (subset_reach σ _ _ v (Term.mem_vars.2 occurs))
  refine ⟨absent, fun occurs => ?_⟩
  obtain ⟨w, here, there⟩ := Term.mem_occurrences_replace.1 occurs
  cases bound : σ.get? w with
  | none =>
    rw [value_of_get?_none bound] at there
    exact absent (List.mem_singleton.1 there ▸ here)
  | some u =>
    rw [value_of_get?_some bound] at there
    refine unreached (successors_subset_reach σ σ.size (nodup_firstOccurrences _)
      (Term.mem_vars.2 here) ?_)
    rw [successors, bound]
    exact Term.mem_vars.2 there

/-- With a solved substitution bindings lead to nothing but the variables of a term and of its
instance. -/
theorem IsSolved.mem_of_mem_successors (solved : σ.IsSolved) {u w : Variable}
    (inside : u ∈ t.occurrences ∨ u ∈ (t.substitute σ).occurrences)
    (next : w ∈ σ.successors u) : w ∈ t.occurrences ∨ w ∈ (t.substitute σ).occurrences := by
  rw [successors] at next
  cases bound : σ.get? u with
  | none =>
    rw [bound] at next
    exact absurd next List.not_mem_nil
  | some s =>
    rw [bound] at next
    rcases inside with here | unbound
    · refine Or.inr (Term.mem_occurrences_replace.2 ⟨u, here, ?_⟩)
      rw [value_of_get?_some bound]
      exact Term.mem_vars.1 next
    · rw [solved.unbound_substitute unbound] at bound
      exact absurd bound (by simp)

/-- A free variable that passes the occurs check stands in the instance of the term. -/
theorem mem_of_occursIn (solved : σ.IsSolved) (free : σ.get? v = none)
    (found : σ.occursIn v t = true) : v ∈ (t.substitute σ).occurrences := by
  have reached := reach_subset σ (fun _ inside _ => solved.mem_of_mem_successors inside)
    (σ.size + 1) t.vars (fun u member => Or.inl (Term.mem_vars.1 member)) v
    (List.contains_iff_mem.1 found)
  rcases reached with here | inInstance
  · refine Term.mem_occurrences_replace.2 ⟨v, here, ?_⟩
    rw [value_of_get?_none free]
    exact List.mem_singleton_self v
  · exact inInstance

end Substitution

end ClausalReasoner
