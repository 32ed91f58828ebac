/-
This file shows that unification never meets the bound on its depth. Cascaded bindings can be
exponentially larger than the terms that took part, so the argument cannot go by their weight. What
saves it is that under the substitution of the moment every term the search runs into is what one of
the given subterms becomes. Going down into arguments loses one of these subterms, and a binding uses
up one of their variables; between two bindings the search can therefore only go down as often as
there are subterms, and the cube in the bound leaves room for that.

With the bound out of the way unification is complete: whatever two expressions have as a common
instance is reached through the unifier that is found.
-/

import ClausalReasoner.Proofs.UnificationCorrect

namespace ClausalReasoner

/-- Counting fewer members: what the first test lets through the second does too, and it lets
through one more. -/
theorem countP_lt_countP {Element : Type} {first second : Element → Bool}
    {list : List Element} (narrower : ∀ element ∈ list, first element → second element)
    {extra : Element} (member : extra ∈ list) (passes : second extra) (fails : ¬ first extra) :
    list.countP first < list.countP second := by
  induction list with
  | nil => exact absurd member List.not_mem_nil
  | cons head rest inductionHypothesis =>
    have later : ∀ element ∈ rest, first element → second element :=
      fun element inside => narrower element (List.mem_cons_of_mem _ inside)
    rw [List.countP_cons, List.countP_cons]
    rcases List.mem_cons.1 member with rfl | inside
    · have others : rest.countP first ≤ rest.countP second := List.countP_mono_left later
      rw [if_pos passes, if_neg fails]
      omega
    · have strict := inductionHypothesis later inside
      have here := narrower head List.mem_cons_self
      split
      · next isFirst => rw [if_pos (here isFirst)]; omega
      · split <;> omega

/-! ### The subterms of a term -/

namespace Term

mutual

/-- The subterms of a term in reading order, beginning with the term itself. -/
def subterms : Term → List Term
  | .constant name => [.constant name]
  | .var v => [.var v]
  | .app function ts => .app function ts :: subtermsList ts

/-- The subterms of the terms of a list. -/
def subtermsList : List Term → List Term
  | [] => []
  | t :: ts => subterms t ++ subtermsList ts

end

theorem self_mem_subterms (t : Term) : t ∈ t.subterms := by
  cases t <;> exact List.mem_cons_self

theorem mem_subtermsList {s : Term} {ts : List Term} :
    s ∈ subtermsList ts ↔ ∃ t ∈ ts, s ∈ t.subterms := by
  induction ts with
  | nil => simp [subtermsList]
  | cons t ts inductionHypothesis =>
    rw [subtermsList, List.mem_append, inductionHypothesis, List.exists_mem_cons_iff]

theorem length_subtermsList_of {ts : List Term}
    (each : ∀ t ∈ ts, t.subterms.length = t.weight) :
    (subtermsList ts).length = weightList ts := by
  induction ts with
  | nil => rfl
  | cons t ts inductionHypothesis =>
    obtain ⟨here, later⟩ := List.forall_mem_cons.1 each
    rw [subtermsList, weightList, List.length_append, here, inductionHypothesis later]

/-- A term has as many subterms as symbols. -/
theorem length_subterms (t : Term) : t.subterms.length = t.weight := by
  induction t with
  | constant name => rfl
  | var v => rfl
  | app function ts inductionHypothesis =>
    rw [subterms, weight, List.length_cons, length_subtermsList_of inductionHypothesis,
      Nat.add_comm]

theorem length_subtermsList (ts : List Term) : (subtermsList ts).length = weightList ts :=
  length_subtermsList_of fun t _ => t.length_subterms

/-- What stands below the arguments of an application stands below the application. -/
theorem mem_subterms_app {s t : Term} {function : String} {ts : List Term} (argument : t ∈ ts)
    (inside : s ∈ t.subterms) : s ∈ (Term.app function ts).subterms :=
  List.mem_cons_of_mem _ (mem_subtermsList.2 ⟨t, argument, inside⟩)

/-- A subterm of a subterm is a subterm. -/
theorem mem_subterms_trans {r s t : Term} (inner : r ∈ s.subterms) (outer : s ∈ t.subterms) :
    r ∈ t.subterms := by
  induction t with
  | constant name =>
    rw [List.mem_singleton.1 outer] at inner
    exact inner
  | var v =>
    rw [List.mem_singleton.1 outer] at inner
    exact inner
  | app function ts inductionHypothesis =>
    rcases List.mem_cons.1 outer with rfl | below
    · exact inner
    · obtain ⟨t, argument, inside⟩ := mem_subtermsList.1 below
      exact mem_subterms_app argument (inductionHypothesis t argument inside)

theorem weight_le_of_mem_subterms {s t : Term} (inside : s ∈ t.subterms) :
    s.weight ≤ t.weight := by
  induction t with
  | constant name => exact Nat.le_of_eq (congrArg weight (List.mem_singleton.1 inside))
  | var v => exact Nat.le_of_eq (congrArg weight (List.mem_singleton.1 inside))
  | app function ts inductionHypothesis =>
    rcases List.mem_cons.1 inside with rfl | below
    · exact Nat.le_refl _
    · obtain ⟨t, argument, here⟩ := mem_subtermsList.1 below
      have inner := inductionHypothesis t argument here
      have summand := weight_le_weightList argument
      rw [weight]
      omega

/-- An application does not stand in its own arguments. -/
theorem app_notMem_subterms {function : String} {ts : List Term} {t : Term} (argument : t ∈ ts) :
    Term.app function ts ∉ t.subterms := by
  intro inside
  have inner := weight_le_of_mem_subterms inside
  have summand := weight_le_weightList argument
  rw [weight] at inner
  omega

end Term

namespace Unification

/-! ### The parts that a search runs into -/

/-- With an application the parts include its arguments. -/
def HoldsArguments (parts : List Term) : Prop :=
  ∀ function ts, Term.app function ts ∈ parts → ∀ t ∈ ts, t ∈ parts

/-- Under a substitution a term is what one of the parts becomes. -/
def StandsFor (parts : List Term) (θ : Substitution) (t : Term) : Prop :=
  ∃ part ∈ parts, part.substitute θ = t.substitute θ

/-- Variables are bound to what parts become, and these parts are no bound variables themselves. -/
def Confined (parts : List Term) (θ : Substitution) : Prop :=
  ∀ v t, θ.get? v = some t →
    ∃ part ∈ parts, part.substitute θ = t ∧ ∀ w, part = .var w → θ.get? w = none

variable {parts : List Term} {θ : Substitution}

theorem holdsArguments_subtermsList (ts : List Term) : HoldsArguments (Term.subtermsList ts) := by
  intro function us whole u argument
  obtain ⟨t, member, inside⟩ := Term.mem_subtermsList.1 whole
  have here : u ∈ (Term.app function us).subterms :=
    Term.mem_subterms_app argument u.self_mem_subterms
  exact Term.mem_subtermsList.2 ⟨t, member, Term.mem_subterms_trans here inside⟩

/-- Whatever stands for a part stands for one that is no bound variable. -/
theorem StandsFor.resolved (confined : Confined parts θ) {t : Term}
    (standsFor : StandsFor parts θ t) :
    ∃ part ∈ parts, part.substitute θ = t.substitute θ ∧
      ∀ w, part = .var w → θ.get? w = none := by
  obtain ⟨part, member, same⟩ := standsFor
  by_cases isBound : ∃ v u, part = .var v ∧ θ.get? v = some u
  · obtain ⟨v, u, rfl, bound⟩ := isBound
    obtain ⟨other, inside, becomes, unbound⟩ := confined v u bound
    refine ⟨other, inside, ?_, unbound⟩
    rw [becomes, ← same]
    exact (Substitution.value_of_get?_some bound).symm
  · refine ⟨part, member, same, fun w isVariable => ?_⟩
    cases bound : θ.get? w with
    | none => rfl
    | some u => exact absurd ⟨w, u, isVariable, bound⟩ isBound

/-- The arguments of an application that stands for a part stand for parts too. -/
theorem StandsFor.argument (closed : HoldsArguments parts) (confined : Confined parts θ)
    {function : String} {ts : List Term} (standsFor : StandsFor parts θ (.app function ts))
    {t : Term} (argument : t ∈ ts) : StandsFor parts θ t := by
  obtain ⟨part, member, same, unbound⟩ := standsFor.resolved confined
  cases part with
  | constant name => exact absurd same nofun
  | var w =>
    have stays : (Term.var w).substitute θ = .var w :=
      Substitution.value_of_get?_none (unbound w rfl)
    rw [stays] at same
    exact absurd same nofun
  | app other us =>
    have arguments := (Term.app.inj same).2
    rw [Term.replaceList_eq_map, Term.replaceList_eq_map] at arguments
    have image : t.substitute θ ∈ us.map (Term.replace θ.value) :=
      arguments ▸ List.mem_map_of_mem argument
    obtain ⟨u, inside, equal⟩ := List.mem_map.1 image
    exact ⟨u, closed other us member u inside, equal⟩

/-- A free variable that stands for a part is one. -/
theorem StandsFor.mem_of_free (confined : Confined parts θ) {v : Variable} (free : θ.get? v = none)
    (standsFor : StandsFor parts θ (.var v)) : .var v ∈ parts := by
  obtain ⟨part, member, same, unbound⟩ := standsFor.resolved confined
  have stays : (Term.var v).substitute θ = .var v := Substitution.value_of_get?_none free
  rw [stays] at same
  cases part with
  | constant name => exact absurd same nofun
  | app function ts => exact absurd same nofun
  | var w =>
    have same : θ.value w = .var v := same
    rw [Substitution.value_of_get?_none (unbound w rfl)] at same
    exact same ▸ member

/-- The term that a variable is bound to stands for a part. -/
theorem StandsFor.bound (solved : θ.IsSolved) {v : Variable} {t : Term}
    (bound : θ.get? v = some t) (standsFor : StandsFor parts θ (.var v)) :
    StandsFor parts θ t := by
  obtain ⟨part, member, same⟩ := standsFor
  refine ⟨part, member, same.trans ?_⟩
  have value : (Term.var v).substitute θ = t := Substitution.value_of_get?_some bound
  rw [← value, solved.substitute_substitute]

/-! ### The budget of a search -/

/-- How many of the parts are free variables. -/
def unboundCount (parts : List Term) (θ : Substitution) : Nat :=
  parts.countP fun part => part.asVariable?.any fun v => (θ.get? v).isNone

/-- How many of the parts stand in a term, once the substitution is applied. -/
def rank (parts : List Term) (θ : Substitution) (t : Term) : Nat :=
  parts.countP fun part => part.substitute θ ∈ (t.substitute θ).subterms

/-- A bound variable has to be looked up once. -/
def lookups (θ : Substitution) (t : Term) : Nat :=
  if t.asVariable?.any fun v => (θ.get? v).isSome then 1 else 0

/-- How deep a search can get. -/
def budget (parts : List Term) (θ : Substitution) (t u : Term) : Nat :=
  unboundCount parts θ * (4 * parts.length + 3) + 2 * (rank parts θ t + rank parts θ u) +
    lookups θ t + lookups θ u + 1

theorem lookups_le (θ : Substitution) (t : Term) : lookups θ t ≤ 1 := by
  rw [lookups]
  split <;> omega

theorem lookups_of_bound {v : Variable} {t : Term} (bound : θ.get? v = some t) :
    lookups θ (.var v) = 1 := by
  simp [lookups, Term.asVariable?, bound]

/-- What variables are bound to need not be looked up. -/
theorem lookups_of_solved (solved : θ.IsSolved) {v : Variable} {t : Term}
    (bound : θ.get? v = some t) : lookups θ t = 0 := by
  rw [lookups, if_neg]
  intro isBound
  obtain ⟨w, isVariable, found⟩ := (Option.any_eq_true _ _).1 isBound
  cases t with
  | constant name => exact absurd isVariable nofun
  | app function ts => exact absurd isVariable nofun
  | var u =>
    obtain rfl := Option.some.inj isVariable
    have free := solved _ (Substitution.mem_of_lookup bound) u (List.mem_singleton.2 rfl)
    rw [free] at found
    exact absurd found nofun

theorem rank_le (parts : List Term) (θ : Substitution) (t : Term) :
    rank parts θ t ≤ parts.length :=
  List.countP_le_length

/-- Looking up a variable does not change its rank. -/
theorem rank_bound (solved : θ.IsSolved) {v : Variable} {t : Term} (bound : θ.get? v = some t) :
    rank parts θ t = rank parts θ (.var v) := by
  have value : (Term.var v).substitute θ = t := Substitution.value_of_get?_some bound
  rw [rank, rank, ← value, solved.substitute_substitute]

/-- The arguments of an application that stands for a part are of lower rank. -/
theorem rank_argument_lt {function : String} {ts : List Term}
    (standsFor : StandsFor parts θ (.app function ts)) {t : Term} (argument : t ∈ ts) :
    rank parts θ t < rank parts θ (.app function ts) := by
  obtain ⟨part, member, same⟩ := standsFor
  have image : t.substitute θ ∈ Term.replaceList θ.value ts := by
    rw [Term.replaceList_eq_map]
    exact List.mem_map_of_mem argument
  refine countP_lt_countP (fun other _ inside => ?_) member ?_ ?_
  · exact decide_eq_true (Term.mem_subterms_app image (of_decide_eq_true inside))
  · rw [same]
    exact decide_eq_true (Term.self_mem_subterms _)
  · rw [same, decide_eq_true_iff]
    exact Term.app_notMem_subterms image

/-- A search that begins after another binding was made is within the budget of any before it. -/
theorem budget_lt_of_unboundCount_lt {later : Substitution}
    (fewer : unboundCount parts later < unboundCount parts θ) (t u t' u' : Term) :
    budget parts later t' u' < budget parts θ t u := by
  have ranks := Nat.add_le_add (rank_le parts later t') (rank_le parts later u')
  have searches := Nat.add_le_add (lookups_le later t') (lookups_le later u')
  have factor := Nat.mul_le_mul_right (4 * parts.length + 3) (Nat.succ_le_of_lt fewer)
  rw [Nat.succ_mul] at factor
  rw [budget, budget]
  omega

/-! ### Every search ends within its budget -/

/-- What a search makes of the substitution that it starts from: it is solved and confined to the
parts as before, replacements that respect it respect the old one, and it has more bindings unless
it is the same. -/
structure Later (parts : List Term) (θ later : Substitution) : Prop where
  solved : later.IsSolved
  confined : Confined parts later
  respects : Substitution.Respects later.value θ
  progress : later = θ ∨ unboundCount parts later < unboundCount parts θ

/-- An attempt ended before the bound on its depth. -/
def Ends (parts : List Term) (θ : Substitution) : Unification → Prop
  | .unfinished => False
  | .impossible => True
  | .unifier later => Later parts θ later

theorem Later.refl (solved : θ.IsSolved) (confined : Confined parts θ) : Later parts θ θ :=
  ⟨solved, confined, solved.respects, Or.inl rfl⟩

theorem Later.trans {between later : Substitution} (first : Later parts θ between)
    (second : Later parts between later) : Later parts θ later where
  solved := second.solved
  confined := second.confined
  respects v := by
    rw [← second.respects.replace_substitute (θ.value v)]
    have through := congrArg (Term.replace later.value) (first.respects v)
    rw [second.respects v] at through
    exact through
  progress := by
    rcases second.progress with rfl | fewer
    · exact first.progress
    · rcases first.progress with rfl | fewerBefore
      · exact Or.inr fewer
      · exact Or.inr (Nat.lt_trans fewer fewerBefore)

/-- What stood for a part before still does. -/
theorem Later.standsFor {later : Substitution} (after : Later parts θ later) {t : Term}
    (standsFor : StandsFor parts θ t) : StandsFor parts later t := by
  obtain ⟨part, member, same⟩ := standsFor
  refine ⟨part, member, ?_⟩
  have both := congrArg (Term.replace later.value) same
  rw [after.respects.replace_substitute, after.respects.replace_substitute] at both
  exact both

variable {step : Term → Term → Substitution → Unification}

/-- Working through two lists ends when every step ends. -/
theorem ends_lists (ts us : List Term) {current : Substitution}
    (each : ∀ later, Later parts θ later → ∀ t ∈ ts, ∀ u ∈ us, Ends parts later (step t u later))
    (start : Later parts θ current) : Ends parts θ (lists step ts us current) := by
  induction ts generalizing us current with
  | nil =>
    cases us with
    | nil => exact start
    | cons u us => trivial
  | cons t ts inductionHypothesis =>
    cases us with
    | nil => trivial
    | cons u us =>
      have here := each current start t List.mem_cons_self u List.mem_cons_self
      rw [lists]
      cases outcome : step t u current with
      | unfinished =>
        rw [outcome] at here
        exact here
      | impossible => trivial
      | unifier extended =>
        rw [outcome] at here
        exact inductionHypothesis us
          (fun later after t inside u there => each later after t (List.mem_cons_of_mem _ inside)
            u (List.mem_cons_of_mem _ there)) (start.trans here)

theorem ends_sameLength (ts us : List Term) (start : Later parts θ θ)
    (each : ∀ later, Later parts θ later → ∀ t ∈ ts, ∀ u ∈ us, Ends parts later (step t u later)) :
    Ends parts θ (sameLength step ts us θ) := by
  rw [sameLength]
  split
  · exact ends_lists ts us each start
  · trivial

/-- A binding of a free variable to a term that stands for a part keeps to the parts, and one of
them is not free any more. -/
theorem later_bind (solved : θ.IsSolved) (confined : Confined parts θ) {v : Variable} {t : Term}
    (free : θ.get? v = none) (isPart : .var v ∈ parts) (standsFor : StandsFor parts θ t)
    (absent : v ∉ t.occurrences) (apart : v ∉ (t.substitute θ).occurrences) :
    Later parts θ (θ.bind v t) := by
  have solvedNow := solved.bind absent apart
  have respects := (Substitution.respects_bind_iff solved free absent apart).1 solvedNow.respects
  have lookup := Substitution.get?_bind solved absent apart
  have value := Substitution.value_bind solved free absent apart
  have becomes : ∀ u : Term, u.substitute (θ.bind v t) =
      (u.substitute θ).replace (v.single (t.substitute θ)) := by
    intro u
    show u.replace (θ.bind v t).value = (u.replace θ.value).replace (v.single (t.substitute θ))
    rw [Term.replace_replace]
    exact Term.replace_congr fun w _ => value w
  have stillFree : ∀ w, w ≠ v → θ.get? w = none → (θ.bind v t).get? w = none := by
    intro w different unbound
    rw [lookup, if_neg (Ne.symm different), unbound, Option.map_none]
  -- `v` is bound to what a part other than `v` becomes
  have home : ∃ part ∈ parts, part.substitute (θ.bind v t) = t.substitute θ ∧
      ∀ w, part = .var w → (θ.bind v t).get? w = none := by
    obtain ⟨part, member, equal, unbound⟩ := standsFor.resolved confined
    refine ⟨part, member, ?_, fun w isVariable => stillFree w ?_ (unbound w isVariable)⟩
    · rw [becomes, equal, Term.replace_single_of_notMem apart]
    · rintro rfl
      rw [isVariable] at equal
      have itself : t.substitute θ = .var w :=
        equal.symm.trans (Substitution.value_of_get?_none free)
      rw [itself] at apart
      exact apart (List.mem_singleton.2 rfl)
  refine ⟨solvedNow, fun w u bound => ?_, respects.1, Or.inr ?_⟩
  · rw [lookup] at bound
    by_cases same : v = w
    · rw [if_pos same] at bound
      exact Option.some.inj bound ▸ home
    · rw [if_neg same] at bound
      obtain ⟨old, wasBound, rfl⟩ := Option.map_eq_some_iff.1 bound
      obtain ⟨part, member, rfl, unbound⟩ := confined w old wasBound
      by_cases isNew : part = .var v
      · have itself : part.substitute θ = .var v := by
          rw [isNew]
          exact Substitution.value_of_get?_none free
        rw [itself, Term.replace, Variable.single_self]
        exact home
      · refine ⟨part, member, becomes part, fun x isVariable => ?_⟩
        refine stillFree x (fun same => isNew ?_) (unbound x isVariable)
        rw [isVariable, same]
  · refine countP_lt_countP (fun part _ isFree => ?_) isPart ?_ ?_
    · obtain ⟨w, isVariable, unbound⟩ := (Option.any_eq_true _ _).1 isFree
      refine (Option.any_eq_true _ _).2 ⟨w, isVariable, ?_⟩
      rw [lookup] at unbound
      split at unbound
      · exact absurd unbound nofun
      · rw [Option.isNone_map] at unbound
        exact unbound
    · exact (Option.any_eq_true _ _).2 ⟨v, rfl, by rw [free]; rfl⟩
    · intro isFree
      obtain ⟨w, isVariable, unbound⟩ := (Option.any_eq_true _ _).1 isFree
      obtain rfl := Option.some.inj isVariable
      rw [lookup, if_pos rfl] at unbound
      exact absurd unbound nofun

theorem ends_close (solved : θ.IsSolved) (confined : Confined parts θ) {v : Variable} {t : Term}
    (free : θ.get? v = none) (isPart : StandsFor parts θ (.var v))
    (standsFor : StandsFor parts θ t) : Ends parts θ (close v t θ) := by
  rw [close]
  cases found : θ.occursIn v t with
  | true => trivial
  | false =>
    obtain ⟨absent, apart⟩ := Substitution.notMem_of_not_occursIn found
    exact later_bind solved confined free (isPart.mem_of_free confined free) standsFor absent apart

/-- A variable and a term are unified within a depth if the step ends on every pair of terms that
stand for parts and whose budget is below that of the two. -/
theorem ends_variableWith (solved : θ.IsSolved) (confined : Confined parts θ) {v : Variable}
    {t : Term} (left : StandsFor parts θ (.var v)) (right : StandsFor parts θ t)
    (each : ∀ t' u', StandsFor parts θ t' → StandsFor parts θ u' →
      budget parts θ t' u' < budget parts θ (.var v) t → Ends parts θ (step t' u' θ)) :
    Ends parts θ (variableWith step v t θ) := by
  rw [variableWith]
  cases bound : θ.get? v with
  | some u =>
    refine each u t (left.bound solved bound) right ?_
    rw [budget, budget, rank_bound solved bound, lookups_of_solved solved bound,
      lookups_of_bound bound]
    omega
  | none =>
    cases t with
    | constant name => exact ends_close solved confined bound left right
    | app function ts => exact ends_close solved confined bound left right
    | var w =>
      simp only [Term.asVariable?]
      cases other : θ.get? w with
      | none => exact ends_close solved confined bound left right
      | some u =>
        refine each (.var v) u left (right.bound solved other) ?_
        rw [budget, budget, rank_bound solved other, lookups_of_solved solved other,
          lookups_of_bound other]
        omega

theorem budget_comm (t u : Term) : budget parts θ t u = budget parts θ u t := by
  rw [budget, budget]
  omega

/-- Going down into the arguments of two applications is within their budget, with the bindings made
meanwhile. -/
theorem budget_arguments_lt {later : Substitution} (after : Later parts θ later)
    {f g : String} {ts us : List Term} (left : StandsFor parts θ (.app f ts))
    (right : StandsFor parts θ (.app g us)) {t u : Term} (first : t ∈ ts) (second : u ∈ us) :
    budget parts later t u < budget parts θ (.app f ts) (.app g us) := by
  rcases after.progress with rfl | fewer
  · have lefts := rank_argument_lt left first
    have rights := rank_argument_lt right second
    have searches := Nat.add_le_add (lookups_le later t) (lookups_le later u)
    rw [budget, budget]
    omega
  · exact budget_lt_of_unboundCount_lt fewer _ _ _ _

/-- A search on terms that stand for parts ends when the depth covers its budget. -/
theorem ends_terms (closed : HoldsArguments parts) (depth : Nat) : ∀ t u θ, θ.IsSolved →
    Confined parts θ → StandsFor parts θ t → StandsFor parts θ u →
      budget parts θ t u ≤ depth → Ends parts θ (terms depth t u θ) := by
  induction depth with
  | zero =>
    intro t u θ _ _ _ _ enough
    rw [budget] at enough
    omega
  | succ depth inductionHypothesis =>
    intro t u θ solved confined left right enough
    unfold terms
    split
    · exact Later.refl solved confined
    · split
      · next v =>
        refine ends_variableWith solved confined left right fun t' u' first second less => ?_
        exact inductionHypothesis t' u' θ solved confined first second (by omega)
      · next v _ =>
        rw [budget_comm] at enough
        refine ends_variableWith solved confined right left fun t' u' first second less => ?_
        exact inductionHypothesis t' u' θ solved confined first second (by omega)
      · next f ts g us _ =>
        split
        · refine ends_sameLength ts us (Later.refl solved confined) ?_
          intro later after t first u second
          have less := budget_arguments_lt after left right first second
          exact inductionHypothesis t u later after.solved after.confined
            ((after.standsFor left).argument closed after.confined first)
            ((after.standsFor right).argument closed after.confined second) (by omega)
        · trivial
      · trivial

/-! ### The bound on the depth covers every budget -/

/-- The subterms of what takes part in a unification. -/
def partsOf (ts us : List Term) (θ : Substitution) : List Term :=
  Term.subtermsList (ts ++ us ++ θ.range)

theorem budget_le_depthBound (ts us : List Term) (θ later : Substitution) (t u : Term) :
    budget (partsOf ts us θ) later t u ≤ depthBound ts us θ := by
  have size : (partsOf ts us θ).length ≤ Term.weightList ts + Term.weightList us + θ.weight := by
    rw [partsOf, Term.length_subtermsList, Term.weightList_append, Term.weightList_append,
      Substitution.weight]
    omega
  have unbound : unboundCount (partsOf ts us θ) later ≤ (partsOf ts us θ).length :=
    List.countP_le_length
  have left := rank_le (partsOf ts us θ) later t
  have right := rank_le (partsOf ts us θ) later u
  have searches := Nat.add_le_add (lookups_le later t) (lookups_le later u)
  rw [budget, depthBound]
  generalize Term.weightList ts + Term.weightList us + θ.weight = weight at size
  generalize (partsOf ts us θ).length = number at size unbound left right
  have bindings : unboundCount (partsOf ts us θ) later * (4 * number + 3) ≤
      number * (4 * number + 3) := Nat.mul_le_mul_right _ unbound
  have square : number * (4 * number + 3) + (4 * number + 3) ≤ 4 * (weight + 2) ^ 2 := by
    have factors := Nat.mul_le_mul (by omega : number + 1 ≤ weight + 2)
      (by omega : 4 * number + 3 ≤ 4 * (weight + 2))
    rw [Nat.mul_left_comm, ← Nat.pow_two, Nat.succ_mul] at factors
    exact factors
  have cube : 4 * (weight + 2) ^ 2 ≤ 2 * (weight + 2) ^ 3 := by
    have twice := Nat.mul_le_mul_left ((weight + 2) ^ 2) (Nat.le_add_left 2 weight)
    rw [Nat.pow_succ (weight + 2) 2]
    omega
  exact Nat.le_trans (by omega) (Nat.le_trans square cube)

/-- Every term of a list that takes part stands for a part. -/
theorem standsFor_of_mem {ts us : List Term} {t : Term} (member : t ∈ ts ++ us ++ θ.range)
    (later : Substitution) : StandsFor (partsOf ts us θ) later t :=
  ⟨t, Term.mem_subtermsList.2 ⟨t, member, t.self_mem_subterms⟩, rfl⟩

theorem confined_partsOf (ts us : List Term) (solved : θ.IsSolved) :
    Confined (partsOf ts us θ) θ := by
  intro v t bound
  have entry := Substitution.mem_of_lookup bound
  have inRange : t ∈ θ.range := List.mem_map_of_mem entry
  have member : t ∈ ts ++ us ++ θ.range := List.mem_append_right _ inRange
  refine ⟨t, Term.mem_subtermsList.2 ⟨t, member, t.self_mem_subterms⟩,
    solved.substitute_of_mem entry, ?_⟩
  rintro w rfl
  exact solved _ entry w (List.mem_singleton.2 rfl)

/-- Terms are unified within the bound. -/
theorem ends_unify (t u : Term) (solved : θ.IsSolved) :
    Ends (partsOf [t] [u] θ) θ (terms (depthBound [t] [u] θ) t u θ) :=
  ends_terms (holdsArguments_subtermsList _) _ t u θ solved (confined_partsOf [t] [u] solved)
    (standsFor_of_mem (by simp) θ) (standsFor_of_mem (by simp) θ)
    (budget_le_depthBound [t] [u] θ θ t u)

/-- Lists of terms are unified within the bound. -/
theorem ends_unifyLists (ts us : List Term) (solved : θ.IsSolved) :
    Ends (partsOf ts us θ) θ (sameLength (terms (depthBound ts us θ)) ts us θ) := by
  have confined := confined_partsOf ts us solved
  refine ends_sameLength ts us (Later.refl solved confined) fun later after t left u right => ?_
  have leftPart : t ∈ ts ++ us ++ θ.range := by simp [left]
  have rightPart : u ∈ ts ++ us ++ θ.range := by simp [right]
  exact ends_terms (holdsArguments_subtermsList _) _ t u later after.solved after.confined
    (standsFor_of_mem leftPart later) (standsFor_of_mem rightPart later)
    (budget_le_depthBound ts us θ later t u)

end Unification

/-! ### Unification is complete -/

/-- Lists of terms with a common instance that respects the given substitution are unified, and the
instance is reached through the unifier. -/
theorem Term.exists_unifyListWith {ts us : List Term} {θ : Substitution} (solved : θ.IsSolved)
    {value : Variable → Term} (respects : Substitution.Respects value θ)
    (equal : replaceList value ts = replaceList value us) :
    ∃ later, unifyListWith ts us θ = some later ∧ Substitution.Respects value later := by
  have ends := Unification.ends_unifyLists ts us solved
  have settles := Unification.settles_sameLength
    (Unification.settles_terms (Unification.depthBound ts us θ)) ts us θ solved
  rw [unifyListWith]
  generalize Unification.sameLength _ ts us θ = outcome at ends settles
  cases outcome with
  | unfinished => exact ends.elim
  | impossible => exact absurd equal (settles value respects)
  | unifier later => exact ⟨later, rfl, (settles.2 value).2 ⟨respects, equal⟩⟩

/-- Atoms with a common instance are unified, and the instance is reached through the unifier. -/
theorem Atom.exists_unify {a b : Atom} {value : Variable → Term}
    (equal : a.replace value = b.replace value) :
    ∃ θ, a.unify b = some θ ∧ Substitution.Respects value θ := by
  have same : a.sameSymbol b := by
    cases a <;> cases b <;> simp_all [replace, sameSymbol]
  have arguments : Term.replaceList value a.arguments = Term.replaceList value b.arguments := by
    rw [← arguments_replace, ← arguments_replace, equal]
  rw [unify, unifyWith, if_pos same]
  exact Term.exists_unifyListWith Substitution.isSolved_empty
    (Substitution.respects_empty value) arguments

end ClausalReasoner
