/-
This file shows that matching decides whether the target is an instance of the pattern, whatever was
bound before. A match with a stack meets the parts of the pattern in another order than a match by
recursion. The order makes no difference: two steps that bind variables may be exchanged, since
bindings of different variables are placed alike in either order and those of one variable have to
agree anyway; hence any two matches may be exchanged. What comes out binds the variables that were
bound before and those of the pattern, which fixes it, because a replacement agrees with it just in
case it agrees with the bindings before and turns the pattern into the target.
-/

import ClausalReasoner.Matching.Stacked
import ClausalReasoner.Proofs.ExactMatching
import Mathlib.Data.List.Perm.Basic

namespace ClausalReasoner

/-! ### The order of variables -/

namespace Variable

instance : Std.TransCmp order :=
  inferInstanceAs (Std.TransCmp (compareLex (compareOn name) (compareOn index)))

/-- Variables that count as equal are equal. -/
theorem eq_of_order {v w : Variable} (equal : v.order w = .eq) : v = w := by
  obtain ⟨names, indices⟩ := Ordering.then_eq_eq.1 equal
  cases v
  cases w
  simp_all

theorem ne_of_order {v w : Variable} (before : v.order w = .lt) : v ≠ w := by
  rintro rfl
  have itself : v.order v = .eq := Std.ReflCmp.compare_self
  rw [itself] at before
  cases before

/-- Of two different variables one comes first. -/
theorem order_of_ne {v w : Variable} (different : v ≠ w) :
    v.order w = .lt ∨ w.order v = .lt := by
  cases compared : v.order w with
  | lt => exact Or.inl rfl
  | eq => exact absurd (eq_of_order compared) different
  | gt => exact Or.inr (Std.OrientedCmp.gt_iff_lt.1 compared)

end Variable

/-! ### Placing bindings -/

namespace Substitution

section Placing

variable {v w : Variable} (t u : Term) (entries : List (Variable × Term))

theorem place_self : place v t ((v, u) :: entries) = (v, t) :: entries := by
  rw [place, if_pos rfl]

theorem place_of_before (before : v.order w = .lt) :
    place v t ((w, u) :: entries) = (v, t) :: (w, u) :: entries := by
  rw [place, if_neg (Variable.ne_of_order before).symm, before]

theorem place_of_after (after : w.order v = .lt) :
    place v t ((w, u) :: entries) = (w, u) :: place v t entries := by
  rw [place, if_neg (Variable.ne_of_order after), Std.OrientedCmp.gt_iff_lt.2 after]

/-- A binding of a later variable may be placed before one of an earlier variable. -/
theorem place_comm_of_before (before : v.order w = .lt) :
    place w u (place v t entries) = place v t (place w u entries) := by
  induction entries with
  | nil => exact (place_of_after u t [] before).trans (place_of_before t u [] before).symm
  | cons entry rest inductionHypothesis =>
    obtain ⟨x, s⟩ := entry
    by_cases first : x = v
    · subst first
      rw [place_self, place_of_after u t rest before, place_of_after u s rest before, place_self]
    · by_cases second : x = w
      · subst second
        rw [place_self, place_of_before t s rest before, place_of_after u t _ before, place_self,
          place_of_before t u rest before]
      · rcases Variable.order_of_ne first with earlier | later
        · have beforeSecond := Std.TransCmp.lt_trans earlier before
          rw [place_of_after t s rest earlier, place_of_after u s _ beforeSecond,
            place_of_after u s rest beforeSecond, place_of_after t s _ earlier, inductionHypothesis]
        · rw [place_of_before t s rest later, place_of_after u t _ before]
          rcases Variable.order_of_ne second with between | beyond
          · rw [place_of_after u s rest between, place_of_before t s _ later]
          · rw [place_of_before u s rest beyond, place_of_before t u _ before]

theorem place_comm (different : v ≠ w) :
    place w u (place v t entries) = place v t (place w u entries) := by
  rcases Variable.order_of_ne different with before | after
  · exact place_comm_of_before t u entries before
  · exact (place_comm_of_before u t entries after).symm

end Placing

/-- Bindings of different variables may be made in either order. -/
theorem insert_comm {v w : Variable} (different : v ≠ w) (σ : Substitution) (t u : Term) :
    (σ.insert v t).insert w u = (σ.insert w u).insert v t :=
  congrArg Substitution.mk (place_comm t u σ.bindings different)

/-! ### Steps that may be exchanged -/

/-- Two steps that extend substitutions come to the same in either order. -/
def Exchange (first second : Substitution → Option Substitution) : Prop :=
  ∀ σ, (first σ).bind second = (second σ).bind first

theorem Exchange.symm {first second : Substitution → Option Substitution}
    (exchange : Exchange first second) : Exchange second first :=
  fun σ => (exchange σ).symm

theorem Exchange.of_none {first second : Substitution → Option Substitution}
    (fails : ∀ σ, first σ = none) : Exchange first second := by
  intro σ
  cases found : second σ with
  | none => rw [fails, Option.bind_none, Option.bind_none]
  | some between => rw [fails, Option.bind_none, Option.bind_some, fails]

theorem Exchange.of_some {first second : Substitution → Option Substitution}
    (keeps : ∀ σ, first σ = some σ) : Exchange first second := by
  intro σ
  have same : first = some := funext keeps
  rw [same, Option.bind_some, Option.bind_fun_some]

/-- What may be exchanged with two steps may be exchanged with both in turn. -/
theorem Exchange.bind {first second other : Substitution → Option Substitution}
    (here : Exchange first other) (there : Exchange second other) :
    Exchange (fun σ => (first σ).bind second) other := by
  intro σ
  calc ((first σ).bind second).bind other
      = (first σ).bind fun between => (second between).bind other := Option.bind_assoc ..
    _ = (first σ).bind fun between => (other between).bind second := by simp only [there _]
    _ = ((first σ).bind other).bind second := (Option.bind_assoc ..).symm
    _ = ((other σ).bind first).bind second := by rw [here σ]
    _ = (other σ).bind fun between => (first between).bind second := Option.bind_assoc ..

end Substitution

open Substitution

namespace Term

theorem matchListWith_cons (pattern target : Term) (patterns targets : List Term)
    (σ : Substitution) : matchListWith (pattern :: patterns) (target :: targets) σ =
      (pattern.matchWith target σ).bind (matchListWith patterns targets) := by
  rw [matchListWith]
  cases pattern.matchWith target σ <;> rfl

section

variable {σ : Substitution} {v : Variable} {s : Term}

/-- A bound variable is compared with the target. -/
theorem matchWith_of_bound (bound : σ.get? v = some s) (t : Term) :
    (var v).matchWith t σ = if s = t then some σ else none := by
  rw [matchWith, bound]

/-- A free variable is bound to the target. -/
theorem matchWith_of_free (free : σ.get? v = none) (t : Term) :
    (var v).matchWith t σ = some (σ.insert v t) := by
  rw [matchWith, free]

/-- To match a variable keeps the bindings there are. -/
theorem get?_of_matchWith_var {w : Variable} {u : Term} {later : Substitution}
    (found : (var w).matchWith u σ = some later) (bound : σ.get? v = some s) :
    later.get? v = some s := by
  cases before : σ.get? w with
  | some r =>
    rw [matchWith_of_bound before] at found
    split at found
    · exact Option.some.inj found ▸ bound
    · cases found
  | none =>
    rw [matchWith_of_free before] at found
    have different : w ≠ v := by
      rintro rfl
      exact absurd (before.symm.trans bound) nofun
    rw [← Option.some.inj found, get?_insert, if_neg different]
    exact bound

/-- Comparing a bound variable may wait for a step that keeps the binding. -/
theorem bind_matchWith_of_bound {step : Substitution → Option Substitution}
    (bound : σ.get? v = some s) (t : Term)
    (kept : ∀ later, step σ = some later → later.get? v = some s) :
    ((var v).matchWith t σ).bind step = (step σ).bind ((var v).matchWith t) := by
  rw [matchWith_of_bound bound]
  cases found : step σ with
  | none => by_cases same : s = t <;> simp [same, found]
  | some later =>
    rw [Option.bind_some, matchWith_of_bound (kept later found)]
    by_cases same : s = t <;> simp [same, found]

end

/-- Two variables may be matched in either order. -/
theorem exchange_var (v w : Variable) (t u : Term) :
    Exchange ((var v).matchWith t) ((var w).matchWith u) := by
  intro σ
  cases bound : σ.get? v with
  | some s =>
    exact bind_matchWith_of_bound bound t fun later found => get?_of_matchWith_var found bound
  | none =>
    cases other : σ.get? w with
    | some s =>
      exact (bind_matchWith_of_bound other u fun later found =>
        get?_of_matchWith_var found other).symm
    | none =>
      rw [matchWith_of_free bound, matchWith_of_free other, Option.bind_some, Option.bind_some]
      by_cases same : v = w
      · subst same
        rw [matchWith_of_bound (by simp : (σ.insert v t).get? v = some t),
          matchWith_of_bound (by simp : (σ.insert v u).get? v = some u)]
        by_cases equal : t = u
        · rw [equal]
        · rw [if_neg equal, if_neg (Ne.symm equal)]
      · have freeAfter : (σ.insert v t).get? w = none := by simp [same, other]
        have freeBefore : (σ.insert w u).get? v = none := by simp [Ne.symm same, bound]
        rw [matchWith_of_free freeAfter, matchWith_of_free freeBefore, insert_comm same]

mutual

/-- A step that may be exchanged with every match of a variable may be exchanged with every match. -/
theorem exchange_matchWith {step : Substitution → Option Substitution}
    (withVariables : ∀ w u, Exchange ((var w).matchWith u) step) :
    ∀ pattern target : Term, Exchange (pattern.matchWith target) step
  | .var w, u => withVariables w u
  | .constant a, .constant b => by
    by_cases same : a = b
    · exact .of_some fun σ => by rw [matchWith, if_pos same]
    · exact .of_none fun σ => by rw [matchWith, if_neg same]
  | .app f patterns, .app g targets => by
    by_cases same : f = g
    · have arguments := exchange_matchListWith withVariables patterns targets
      have whole : (app f patterns).matchWith (app g targets) = matchListWith patterns targets :=
        funext fun σ => by rw [matchWith, if_pos same]
      exact whole ▸ arguments
    · exact .of_none fun σ => by rw [matchWith, if_neg same]
  | .constant _, .var _ => .of_none fun σ => by simp [matchWith]
  | .constant _, .app _ _ => .of_none fun σ => by simp [matchWith]
  | .app _ _, .constant _ => .of_none fun σ => by simp [matchWith]
  | .app _ _, .var _ => .of_none fun σ => by simp [matchWith]

theorem exchange_matchListWith {step : Substitution → Option Substitution}
    (withVariables : ∀ w u, Exchange ((var w).matchWith u) step) :
    ∀ patterns targets : List Term, Exchange (matchListWith patterns targets) step
  | [], [] => .of_some fun σ => by rw [matchListWith]
  | pattern :: patterns, target :: targets => by
    have both := (exchange_matchWith withVariables pattern target).bind
      (exchange_matchListWith withVariables patterns targets)
    rwa [← funext (matchListWith_cons pattern target patterns targets)] at both
  | [], _ :: _ => .of_none fun σ => by simp [matchListWith]
  | _ :: _, [] => .of_none fun σ => by simp [matchListWith]

end

/-- Any two matches may be made in either order. -/
theorem exchange_matches (first second t u : Term) :
    Exchange (first.matchWith t) (second.matchWith u) := by
  refine exchange_matchWith (fun w r => ?_) first t
  exact (exchange_matchWith (fun v s => exchange_var v w s r) second u).symm

/-! ### Matching with a stack -/

/-- Match pairs one after the other. -/
def matchAll (pairs : List (Term × Term)) (σ : Substitution) : Option Substitution :=
  pairs.foldlM (fun between pair => pair.1.matchWith pair.2 between) σ

theorem matchAll_cons (pair : Term × Term) (rest : List (Term × Term)) (σ : Substitution) :
    matchAll (pair :: rest) σ = (pair.1.matchWith pair.2 σ).bind (matchAll rest) :=
  List.foldlM_cons ..

theorem matchAll_cons_cons (pair other : Term × Term) (rest : List (Term × Term))
    (σ : Substitution) : matchAll (pair :: other :: rest) σ =
      ((pair.1.matchWith pair.2 σ).bind (other.1.matchWith other.2)).bind (matchAll rest) := by
  rw [matchAll_cons, Option.bind_assoc]
  exact congrArg _ (funext (matchAll_cons other rest))

theorem matchAll_append (first second : List (Term × Term)) (σ : Substitution) :
    matchAll (first ++ second) σ = (matchAll first σ).bind (matchAll second) :=
  List.foldlM_append

/-- The order of the pairs makes no difference. -/
theorem matchAll_of_perm {first second : List (Term × Term)} (perm : first.Perm second)
    (σ : Substitution) : matchAll first σ = matchAll second σ := by
  induction perm generalizing σ with
  | nil => rfl
  | cons pair _ inductionHypothesis =>
    rw [matchAll_cons, matchAll_cons]
    exact congrArg _ (funext inductionHypothesis)
  | swap pair other rest =>
    rw [matchAll_cons_cons, matchAll_cons_cons, exchange_matches pair.1 other.1 pair.2 other.2 σ]
  | trans _ _ there back => exact (there σ).trans (back σ)

/-- Lists of one length are matched pair by pair. -/
theorem matchListWith_eq_matchAll {patterns targets : List Term}
    (same : patterns.length = targets.length) (σ : Substitution) :
    matchListWith patterns targets σ = matchAll (patterns.zip targets) σ := by
  induction patterns generalizing targets σ with
  | nil =>
    rw [List.length_eq_zero_iff.1 same.symm]
    rfl
  | cons pattern patterns inductionHypothesis =>
    cases targets with
    | nil => cases same
    | cons target targets =>
      rw [matchListWith_cons, List.zip_cons_cons, matchAll_cons]
      exact congrArg _ (funext (inductionHypothesis (Nat.succ.inj same)))

/-- Lists of different lengths do not match. -/
theorem matchListWith_of_length_ne {patterns targets : List Term}
    (different : patterns.length ≠ targets.length) (σ : Substitution) :
    matchListWith patterns targets σ = none := by
  induction patterns generalizing targets σ with
  | nil =>
    cases targets with
    | nil => exact absurd rfl different
    | cons target targets => rfl
  | cons pattern patterns inductionHypothesis =>
    cases targets with
    | nil => rfl
    | cons target targets =>
      rw [matchListWith_cons]
      have rest : matchListWith patterns targets = fun _ => none :=
        funext (inductionHypothesis fun same => different (congrArg Nat.succ same))
      rw [rest, Option.bind_fun_none]

/-- A stack is worked off as if its pairs were matched one after the other. -/
theorem matchStack_eq (stack : List (Term × Term)) (σ : Substitution) :
    matchStack stack σ = matchAll stack σ := by
  fun_induction matchStack stack σ with
  | case1 σ => rfl
  | case2 v rest σ bound before inductionHypothesis =>
    rw [matchAll_cons, matchWith_of_bound before, if_pos rfl, inductionHypothesis]
    rfl
  | case3 v target rest σ bound before differs =>
    rw [matchAll_cons, matchWith_of_bound before, if_neg differs]
    rfl
  | case4 v target rest σ free inductionHypothesis =>
    rw [matchAll_cons, matchWith_of_free free, inductionHypothesis]
    rfl
  | case5 b rest σ inductionHypothesis =>
    rw [matchAll_cons, matchWith, if_pos rfl, inductionHypothesis]
    rfl
  | case6 a b rest σ differs =>
    rw [matchAll_cons, matchWith, if_neg differs]
    rfl
  | case7 f patterns g targets rest σ alike inductionHypothesis =>
    -- the arguments come off the stack from the last to the first
    have whole : (app f patterns).matchWith (app g targets) σ =
        matchAll (patterns.zip targets) σ := by
      rw [matchWith, if_pos alike.1, matchListWith_eq_matchAll alike.2]
    have order := matchAll_of_perm (List.reverse_perm (patterns.zip targets)) σ
    rw [matchAll_cons, whole, ← order, inductionHypothesis, List.reverseAux_eq, matchAll_append]
  | case8 f patterns g targets rest σ unlike =>
    have whole : (app f patterns).matchWith (app g targets) σ = none := by
      rw [matchWith]
      split
      · next same => exact matchListWith_of_length_ne (fun long => unlike ⟨same, long⟩) σ
      · rfl
    rw [matchAll_cons, whole]
    rfl
  | case9 pair rest σ notVariable notConstants notApplications =>
    have whole : pair.1.matchWith pair.2 σ = none := by
      obtain ⟨pattern, target⟩ := pair
      cases pattern with
      | var v => exact (notVariable v target rfl).elim
      | constant a =>
        cases target with
        | constant b => exact (notConstants a b rfl).elim
        | _ => simp [matchWith]
      | app f patterns =>
        cases target with
        | app g targets => exact (notApplications f patterns g targets rfl).elim
        | _ => simp [matchWith]
    rw [matchAll_cons, whole]
    rfl

theorem matchPartial_eq (pattern target : Term) (start : Option Substitution) :
    pattern.matchPartial target start = pattern.matchWith target (start.getD ∅) := by
  rw [matchPartial, matchStack_eq, matchAll_cons]
  exact Option.bind_fun_some _

theorem matchEach_eq (pairs : List (Term × Term)) (start : Option Substitution) :
    (matchEach pairs start).map (·.getD ∅) = matchAll pairs (start.getD ∅) := by
  induction pairs generalizing start with
  | nil => rfl
  | cons pair rest inductionHypothesis =>
    rw [matchEach, matchPartial_eq, matchAll_cons]
    cases pair.1.matchWith pair.2 (start.getD ∅) with
    | none => rfl
    | some matched => exact inductionHypothesis (some matched)

end Term

/-- Threading what was found from argument to argument makes no difference either. -/
theorem Atom.matchPartial_eq (pattern target : Atom) (start : Option Substitution) :
    pattern.matchPartial target start = pattern.matchWith target (start.getD ∅) := by
  rw [matchPartial, Term.matchEach_eq]
  cases pattern with
  | predicate p patterns =>
    cases target with
    | predicate q targets =>
      rw [matchWith]
      by_cases same : p = q
      · by_cases long : patterns.length = targets.length
        · rw [if_pos same, Term.matchListWith_eq_matchAll long]
          simp [isEquality, symbol, arity, arguments, same, long]
        · rw [if_pos same, Term.matchListWith_of_length_ne long]
          simp [arity, arguments, long]
      · simp [symbol, same]
    | equality c d => simp [isEquality, matchWith]
  | equality a b =>
    cases target with
    | predicate q targets => simp [isEquality, matchWith]
    | equality c d =>
      have long : [a, b].length = [c, d].length := rfl
      rw [matchWith, Term.matchListWith_eq_matchAll long]
      simp [isEquality, symbol, arity, arguments]

/-! ### What a match binds -/

theorem Substitution.binds_insert (σ : Substitution) (v w : Variable) (t : Term) :
    (σ.insert v t).binds w ↔ σ.binds w ∨ w = v := by
  by_cases same : v = w
  · simp [binds, same]
  · simp [binds, same, Ne.symm same]

namespace Term

mutual

/-- A match binds the variables of the pattern, beside those that were bound before. -/
theorem binds_of_matchWith : ∀ (pattern target : Term) {σ matched : Substitution},
    pattern.matchWith target σ = some matched →
      ∀ v, matched.binds v ↔ σ.binds v ∨ v ∈ pattern.occurrences
  | .var w, target, σ, matched, found, v => by
    rw [occurrences, List.mem_singleton]
    cases bound : σ.get? w with
    | some s =>
      have alreadyBound : v = w → σ.binds v := by
        rintro rfl
        rw [binds, bound]
        rfl
      rw [matchWith_of_bound bound] at found
      split at found
      · exact Option.some.inj found ▸ (or_iff_left_of_imp alreadyBound).symm
      · cases found
    | none =>
      rw [matchWith_of_free bound] at found
      rw [← Option.some.inj found]
      exact σ.binds_insert w v target
  | .constant a, .constant b, σ, matched, found, v => by
    rw [matchWith] at found
    split at found
    · simp [← Option.some.inj found, occurrences]
    · cases found
  | .app f patterns, .app g targets, σ, matched, found, v => by
    rw [matchWith] at found
    split at found
    · exact binds_of_matchListWith patterns targets found v
    · cases found
  | .constant _, .var _, _, _, found, _ => by simp [matchWith] at found
  | .constant _, .app _ _, _, _, found, _ => by simp [matchWith] at found
  | .app _ _, .constant _, _, _, found, _ => by simp [matchWith] at found
  | .app _ _, .var _, _, _, found, _ => by simp [matchWith] at found

theorem binds_of_matchListWith : ∀ (patterns targets : List Term) {σ matched : Substitution},
    matchListWith patterns targets σ = some matched →
      ∀ v, matched.binds v ↔ σ.binds v ∨ v ∈ occurrencesList patterns
  | [], [], σ, matched, found, v => by
    rw [matchListWith] at found
    simp [← Option.some.inj found, occurrencesList]
  | pattern :: patterns, target :: targets, σ, matched, found, v => by
    rw [matchListWith_cons] at found
    obtain ⟨between, first, rest⟩ := Option.bind_eq_some_iff.1 found
    rw [binds_of_matchListWith patterns targets rest, binds_of_matchWith pattern target first,
      occurrencesList, List.mem_append, or_assoc]
  | [], _ :: _, _, _, found, _ => by simp [matchListWith] at found
  | _ :: _, [], _, _, found, _ => by simp [matchListWith] at found

end

end Term

theorem Atom.binds_of_matchWith {pattern target : Atom} {σ matched : Substitution}
    (found : pattern.matchWith target σ = some matched) (v : Variable) :
    matched.binds v ↔ σ.binds v ∨ v ∈ pattern.occurrences := by
  cases pattern with
  | predicate p patterns =>
    cases target with
    | predicate q targets =>
      rw [matchWith] at found
      split at found
      · exact Term.binds_of_matchListWith patterns targets found v
      · cases found
    | equality c d => simp [matchWith] at found
  | equality a b =>
    cases target with
    | predicate q targets => simp [matchWith] at found
    | equality c d => exact Term.binds_of_matchListWith [a, b] [c, d] found v

/-! ### Matching decides instances -/

namespace Substitution

/-- Every binding of the second substitution is one of the first. -/
def Extends (σ start : Substitution) : Prop :=
  ∀ v t, start.get? v = some t → σ.get? v = some t

/-- What a match found on top of a substitution, for a pattern with given variables: it found
something if and only if an extension of the substitution gives an instance, and then it is such an
extension itself, which binds no other variables than those that were bound and those of the
pattern. -/
structure DecidesInstance (start : Substitution) (isInstance : Substitution → Prop)
    (vs : List Variable) (found : Option Substitution) : Prop where
  found_iff : (∃ matched, found = some matched) ↔ ∃ σ, σ.Extends start ∧ isInstance σ
  extending : ∀ matched, found = some matched → matched.Extends start
  binds : ∀ matched, found = some matched → ∀ v, matched.binds v ↔ start.binds v ∨ v ∈ vs
  image : ∀ matched, found = some matched → isInstance matched

/-- What binds the bound variables and agrees with them extends them. -/
theorem Admits.extends {start σ : Substitution} (admits : start.Admits σ.value)
    (binds : ∀ v, start.binds v → σ.binds v) : σ.Extends start := by
  intro v t bound
  have isBound : start.binds v := by rw [Substitution.binds, bound]; rfl
  obtain ⟨s, found⟩ := Option.isSome_iff_exists.1 (binds v isBound)
  rw [found, ← admits v t bound, value_of_get?_some found]

theorem Extends.admits {start σ : Substitution} (kept : σ.Extends start) :
    start.Admits σ.value :=
  fun v t bound => value_of_get?_some (kept v t bound)

/-- A match decides instances if the replacements that agree with what it found are those that agreed
before and give an instance, and if it binds what it should. -/
theorem decidesInstance_of_allows {start : Substitution} {isInstance : (Variable → Term) → Prop}
    {vs : List Variable} {found : Option Substitution}
    (allows : ∀ value, Allows found value ↔ start.Admits value ∧ isInstance value)
    (binds : ∀ matched, found = some matched → ∀ v, matched.binds v ↔ start.binds v ∨ v ∈ vs) :
    DecidesInstance start (fun σ => isInstance σ.value) vs found := by
  have here : ∀ matched, found = some matched →
      start.Admits matched.value ∧ isInstance matched.value :=
    fun matched same => (allows matched.value).1 ⟨matched, same, matched.admits_value⟩
  have extending : ∀ matched, found = some matched → matched.Extends start :=
    fun matched same => (here matched same).1.extends fun v isBound =>
      (binds matched same v).2 (Or.inl isBound)
  refine ⟨⟨?_, ?_⟩, extending, binds, fun matched same => (here matched same).2⟩
  · rintro ⟨matched, same⟩
    exact ⟨matched, extending matched same, (here matched same).2⟩
  · rintro ⟨σ, kept, image⟩
    obtain ⟨matched, same, _⟩ := (allows σ.value).2 ⟨kept.admits, image⟩
    exact ⟨matched, same⟩

end Substitution

/-- **Matching decides instances.** For all terms and all atoms, also such that share variables, and
for every start, a match finds a substitution if and only if some extension of the start turns the
pattern into the target in one pass. What it finds is the extension that binds, beside the variables
bound before, just those of the pattern. Matching by recursion finds the same. -/
theorem matchPartial_decidesInstance (start : Option Substitution) :
    (∀ pattern target : Term,
      DecidesInstance (start.getD ∅) (fun σ => pattern.substitute σ = target) pattern.occurrences
        (pattern.matchPartial target start) ∧
      pattern.matchPartial target start = pattern.matchWith target (start.getD ∅)) ∧
    ∀ pattern target : Atom,
      DecidesInstance (start.getD ∅) (fun σ => pattern.substitute σ = target) pattern.occurrences
        (pattern.matchPartial target start) ∧
      pattern.matchPartial target start = pattern.matchWith target (start.getD ∅) := by
  refine ⟨fun pattern target => ?_, fun pattern target => ?_⟩
  · have same := pattern.matchPartial_eq target start
    refine ⟨?_, same⟩
    rw [same]
    exact decidesInstance_of_allows
      (fun value => pattern.allows_matchWith_iff target (start.getD ∅))
      fun matched found => Term.binds_of_matchWith pattern target found
  · have same := pattern.matchPartial_eq target start
    refine ⟨?_, same⟩
    rw [same]
    exact decidesInstance_of_allows
      (fun value => (pattern.allows_matchWith_iff target (start.getD ∅)).trans
        (and_congr_right fun _ => eq_comm))
      fun matched found => Atom.binds_of_matchWith found

/-- `F(x, y)` becomes `F(y, A)`: what `x` is bound to is not followed. -/
example :
    (Term.app "F" [.var ⟨"x", none⟩, .var ⟨"y", none⟩]).matchPartial
        (.app "F" [.var ⟨"y", none⟩, .constant "A"]) none =
      some (.ofList [(⟨"x", none⟩, .var ⟨"y", none⟩), (⟨"y", none⟩, .constant "A")]) := by
  rw [Term.matchPartial_eq]
  decide +kernel

end ClausalReasoner
