/-
This file collects what replacing the variables of an expression does to the expression: which
variables and which symbols stand in the result, when two replacements come to the same, and what
two replacements in turn amount to. A replacement only acts through the variables that occur, so
everything is said with the list of occurrences of an expression.

Terms hold lists of terms. The recursions over argument lists are all maps, joins or conjunctions
over the list, and induction over terms may then treat the arguments as members of their list.
-/

import ClausalReasoner.Literal
import ClausalReasoner.Vocabulary

namespace ClausalReasoner

@[simp]
theorem firstOccurrences_of_nodup {Element : Type} [DecidableEq Element] {list : List Element}
    (distinct : list.Nodup) : firstOccurrences list = list := by
  induction list with
  | nil => rfl
  | cons first rest inductionHypothesis =>
    obtain ⟨absent, later⟩ := List.nodup_cons.1 distinct
    rw [firstOccurrences, inductionHypothesis later]
    exact congrArg _ (List.filter_eq_self.2 fun element member =>
      decide_eq_true fun same => absent (same ▸ member))

/-! ### Argument lists are ordinary lists -/

namespace Term

mutual

/-- Induction over terms. The arguments of an application are met as the members of their list. -/
@[elab_as_elim, induction_eliminator]
theorem inductionOn {motive : Term → Prop} (constant : ∀ name, motive (.constant name))
    (var : ∀ v, motive (.var v))
    (app : ∀ function ts, (∀ t ∈ ts, motive t) → motive (.app function ts)) :
    ∀ t, motive t
  | .constant name => constant name
  | .var v => var v
  | .app function ts => app function ts (inductionOnList constant var app ts)

/-- What induction over terms shows of every term it shows of the members of every list. -/
theorem inductionOnList {motive : Term → Prop} (constant : ∀ name, motive (.constant name))
    (var : ∀ v, motive (.var v))
    (app : ∀ function ts, (∀ t ∈ ts, motive t) → motive (.app function ts)) :
    ∀ ts : List Term, ∀ t ∈ ts, motive t
  | [] => fun _ member => absurd member List.not_mem_nil
  | first :: rest => List.forall_mem_cons.2
      ⟨inductionOn constant var app first, inductionOnList constant var app rest⟩

end

theorem occurrencesList_eq_flatMap (ts : List Term) :
    occurrencesList ts = ts.flatMap occurrences := by
  induction ts with
  | nil => rfl
  | cons t ts inductionHypothesis => rw [occurrencesList, inductionHypothesis, List.flatMap_cons]

theorem weight_le_weightList {t : Term} {ts : List Term} (member : t ∈ ts) :
    t.weight ≤ weightList ts := by
  induction ts with
  | nil => exact absurd member List.not_mem_nil
  | cons first rest inductionHypothesis =>
    rw [weightList]
    rcases List.mem_cons.1 member with rfl | later
    · exact Nat.le_add_right _ _
    · exact Nat.le_add_left_of_le (inductionHypothesis later)

theorem mem_occurrencesList {v : Variable} {ts : List Term} :
    v ∈ occurrencesList ts ↔ ∃ t ∈ ts, v ∈ t.occurrences := by
  rw [occurrencesList_eq_flatMap, List.mem_flatMap]

@[simp]
theorem mem_vars {v : Variable} {t : Term} : v ∈ t.vars ↔ v ∈ t.occurrences :=
  mem_firstOccurrences

@[simp]
theorem length_replaceList (value : Variable → Term) (ts : List Term) :
    (replaceList value ts).length = ts.length := by
  rw [replaceList_eq_map, List.length_map]

/-! ### Replacements agree when they agree on the variables that occur -/

theorem replace_congr {first second : Variable → Term} {t : Term}
    (agree : ∀ v ∈ t.occurrences, first v = second v) : t.replace first = t.replace second := by
  induction t with
  | constant name => rfl
  | var v => exact agree v (List.mem_singleton_self v)
  | app function ts inductionHypothesis =>
    simp only [replace, replaceList_eq_map]
    refine congrArg _ (List.map_congr_left fun t member => ?_)
    exact inductionHypothesis t member fun v occurs =>
      agree v (mem_occurrencesList.2 ⟨t, member, occurs⟩)

theorem replaceList_congr {first second : Variable → Term} {ts : List Term}
    (agree : ∀ v ∈ occurrencesList ts, first v = second v) :
    replaceList first ts = replaceList second ts := by
  simp only [replaceList_eq_map]
  exact List.map_congr_left fun t member => replace_congr fun v occurs =>
    agree v (mem_occurrencesList.2 ⟨t, member, occurs⟩)

@[simp]
theorem replace_var (t : Term) : t.replace .var = t := by
  induction t with
  | constant name => rfl
  | var v => rfl
  | app function ts inductionHypothesis =>
    simp only [replace, replaceList_eq_map]
    rw [List.map_congr_left inductionHypothesis, List.map_id']

@[simp]
theorem replaceList_var (ts : List Term) : replaceList .var ts = ts := by
  rw [replaceList_eq_map, List.map_congr_left fun t _ => t.replace_var, List.map_id']

/-- A replacement that keeps every variable that occurs keeps the term. -/
theorem replace_eq_self {value : Variable → Term} {t : Term}
    (kept : ∀ v ∈ t.occurrences, value v = .var v) : t.replace value = t :=
  (replace_congr kept).trans t.replace_var

theorem replace_replace (first second : Variable → Term) (t : Term) :
    (t.replace first).replace second = t.replace fun v => (first v).replace second := by
  induction t with
  | constant name => rfl
  | var v => rfl
  | app function ts inductionHypothesis =>
    simp only [replace, replaceList_eq_map, List.map_map]
    exact congrArg _ (List.map_congr_left inductionHypothesis)

theorem replaceList_replaceList (first second : Variable → Term) (ts : List Term) :
    replaceList second (replaceList first ts) =
      replaceList (fun v => (first v).replace second) ts := by
  simp only [replaceList_eq_map, List.map_map]
  exact List.map_congr_left fun t _ => t.replace_replace first second

/-- A term under a replacement weighs at least what the replacement puts in the place of one of its
variables. -/
theorem weight_le_weight_replace {value : Variable → Term} {v : Variable} {t : Term}
    (occurs : v ∈ t.occurrences) : (value v).weight ≤ (t.replace value).weight := by
  induction t with
  | constant name => exact absurd occurs List.not_mem_nil
  | var w =>
    rw [List.mem_singleton.1 occurs]
    exact Nat.le_refl _
  | app function ts inductionHypothesis =>
    obtain ⟨t, member, here⟩ := mem_occurrencesList.1 occurs
    have inner := inductionHypothesis t member here
    have summand : (t.replace value).weight ≤ weightList (replaceList value ts) := by
      rw [replaceList_eq_map]
      exact weight_le_weightList (List.mem_map_of_mem member)
    rw [replace, weight]
    omega

/-- It weighs more unless it is that variable. -/
theorem weight_lt_weight_replace {value : Variable → Term} {v : Variable} {t : Term}
    (occurs : v ∈ t.occurrences) (different : t ≠ .var v) :
    (value v).weight < (t.replace value).weight := by
  cases t with
  | constant name => exact absurd occurs List.not_mem_nil
  | var w => exact absurd (congrArg var (List.mem_singleton.1 occurs).symm) different
  | app function ts =>
    obtain ⟨t, member, here⟩ := mem_occurrencesList.1 occurs
    have summand : (t.replace value).weight ≤ weightList (replaceList value ts) := by
      rw [replaceList_eq_map]
      exact weight_le_weightList (List.mem_map_of_mem member)
    have inner : (value v).weight ≤ (t.replace value).weight := weight_le_weight_replace here
    rw [replace, weight]
    omega

/-- Replacements that come to the same on a term agree on its variables. -/
theorem eq_of_replace_eq {first second : Variable → Term} {t : Term}
    (equal : t.replace first = t.replace second) {v : Variable} (occurs : v ∈ t.occurrences) :
    first v = second v := by
  induction t with
  | constant name => exact absurd occurs List.not_mem_nil
  | var w =>
    obtain rfl := List.mem_singleton.1 occurs
    exact equal
  | app function ts inductionHypothesis =>
    simp only [replace, replaceList_eq_map] at equal
    obtain ⟨t, member, inside⟩ := mem_occurrencesList.1 occurs
    exact inductionHypothesis t member (List.map_inj_left.1 (Term.app.inj equal).2 t member) inside

/-! ### What stands in the result -/

theorem mem_occurrences_replace {value : Variable → Term} {w : Variable} {t : Term} :
    w ∈ (t.replace value).occurrences ↔ ∃ v ∈ t.occurrences, w ∈ (value v).occurrences := by
  induction t with
  | constant name => simp [replace, occurrences]
  | var v => simp [replace, occurrences]
  | app function ts inductionHypothesis =>
    simp only [replace, occurrences, replaceList_eq_map, mem_occurrencesList, List.mem_map]
    constructor
    · rintro ⟨_, ⟨t, member, rfl⟩, occurs⟩
      obtain ⟨v, here, there⟩ := (inductionHypothesis t member).1 occurs
      exact ⟨v, ⟨t, member, here⟩, there⟩
    · rintro ⟨v, ⟨t, member, here⟩, there⟩
      exact ⟨_, ⟨t, member, rfl⟩, (inductionHypothesis t member).2 ⟨v, here, there⟩⟩

theorem mem_occurrencesList_replaceList {value : Variable → Term} {w : Variable}
    {ts : List Term} : w ∈ occurrencesList (replaceList value ts) ↔
      ∃ v ∈ occurrencesList ts, w ∈ (value v).occurrences := by
  simp only [replaceList_eq_map, mem_occurrencesList, List.mem_map]
  constructor
  · rintro ⟨_, ⟨t, member, rfl⟩, occurs⟩
    obtain ⟨v, here, there⟩ := mem_occurrences_replace.1 occurs
    exact ⟨v, ⟨t, member, here⟩, there⟩
  · rintro ⟨v, ⟨t, member, here⟩, there⟩
    exact ⟨_, ⟨t, member, rfl⟩, mem_occurrences_replace.2 ⟨v, here, there⟩⟩

end Term

namespace Atom

@[simp]
theorem mem_vars {v : Variable} {a : Atom} : v ∈ a.vars ↔ v ∈ a.occurrences :=
  mem_firstOccurrences

@[simp]
theorem arguments_replace (value : Variable → Term) (a : Atom) :
    (a.replace value).arguments = Term.replaceList value a.arguments := by
  cases a <;> rfl

theorem replace_congr {first second : Variable → Term} {a : Atom}
    (agree : ∀ v ∈ a.occurrences, first v = second v) : a.replace first = a.replace second := by
  cases a with
  | predicate name ts => exact congrArg _ (Term.replaceList_congr agree)
  | equality left right =>
    have same : Term.replaceList first [left, right] = Term.replaceList second [left, right] :=
      Term.replaceList_congr agree
    simp only [Term.replaceList, List.cons.injEq, and_true] at same
    rw [replace, replace, same.1, same.2]

@[simp]
theorem replace_var (a : Atom) : a.replace .var = a := by
  cases a with
  | predicate name ts => rw [replace, Term.replaceList_var]
  | equality left right => rw [replace, left.replace_var, right.replace_var]

theorem replace_eq_self {value : Variable → Term} {a : Atom}
    (kept : ∀ v ∈ a.occurrences, value v = .var v) : a.replace value = a :=
  (replace_congr kept).trans a.replace_var

theorem replace_replace (first second : Variable → Term) (a : Atom) :
    (a.replace first).replace second = a.replace fun v => (first v).replace second := by
  cases a with
  | predicate name ts => exact congrArg _ (Term.replaceList_replaceList first second ts)
  | equality left right => simp only [replace, Term.replace_replace]

theorem eq_of_replace_eq {first second : Variable → Term} {a : Atom}
    (equal : a.replace first = a.replace second) {v : Variable} (occurs : v ∈ a.occurrences) :
    first v = second v := by
  have arguments : a.arguments.map (Term.replace first) = a.arguments.map (Term.replace second) := by
    rw [← Term.replaceList_eq_map, ← Term.replaceList_eq_map, ← arguments_replace,
      ← arguments_replace, equal]
  obtain ⟨t, member, inside⟩ := Term.mem_occurrencesList.1 occurs
  exact Term.eq_of_replace_eq (List.map_inj_left.1 arguments t member) inside

theorem mem_occurrences_replace {value : Variable → Term} {w : Variable} {a : Atom} :
    w ∈ (a.replace value).occurrences ↔ ∃ v ∈ a.occurrences, w ∈ (value v).occurrences := by
  rw [occurrences, arguments_replace, Term.mem_occurrencesList_replaceList]
  rfl

end Atom

end ClausalReasoner
