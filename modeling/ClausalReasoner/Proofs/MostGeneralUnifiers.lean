/-
This file sums up what unification comes to for terms, for lists of terms and for atoms, on top of
any solved substitution. Since the bound on the depth is never met, an attempt ends in one of two
ways. Either it finds a solved substitution, respected by just the replacements that respect the
first one and make the two expressions equal, or there are no such replacements. The substitution
found is therefore a unifier, because it respects itself, and a most general one, because to respect
it is to factor through it.
-/

import ClausalReasoner.Proofs.UnificationDepth

namespace ClausalReasoner

namespace Substitution

/-! ### Answers to an equation -/

/-- An answer to an equation between replacements, on top of a substitution: a solved substitution
that has the same solutions, or none if there are no solutions. -/
def Answers (θ : Substitution) (equation : (Variable → Term) → Prop) : Option Substitution → Prop
  | none => ∀ value, Respects value θ → ¬ equation value
  | some σ => σ.IsSolved ∧ ∀ value, Respects value σ ↔ Respects value θ ∧ equation value

/-- Equations with the same solutions have the same answers. -/
theorem Answers.congr {θ : Substitution} {first second : (Variable → Term) → Prop}
    {found : Option Substitution} (answers : θ.Answers first found)
    (same : ∀ value, first value ↔ second value) : θ.Answers second found := by
  have equations : first = second := funext fun value => propext (same value)
  rwa [equations] at answers

/-- An attempt that settles an equation and ends within the bound finds an answer. -/
theorem answers_toOption {parts : List Term} {θ : Substitution}
    {equation : (Variable → Term) → Prop} {outcome : Unification}
    (settles : outcome.Settles θ equation) (ends : Unification.Ends parts θ outcome) :
    θ.Answers equation outcome.toOption := by
  cases outcome with
  | unfinished => exact ends.elim
  | impossible => exact settles
  | unifier σ => exact settles

end Substitution

section

variable {θ : Substitution} (solved : θ.IsSolved)

include solved

theorem Term.answers_unifyListWith (ts us : List Term) :
    θ.Answers (fun value => replaceList value ts = replaceList value us) (unifyListWith ts us θ) :=
  Substitution.answers_toOption
    (Unification.settles_sameLength (Unification.settles_terms _) ts us θ solved)
    (Unification.ends_unifyLists ts us solved)

theorem Term.answers_unifyWith (t u : Term) :
    θ.Answers (fun value => t.replace value = u.replace value) (t.unifyWith u θ) :=
  Substitution.answers_toOption (Unification.settles_terms _ t u θ solved)
    (Unification.ends_unify t u solved)

/-- Atoms become equal when they have the same symbol and their arguments become equal. -/
theorem Atom.answers_unifyWith (a b : Atom) :
    θ.Answers (fun value => a.replace value = b.replace value) (a.unifyWith b θ) := by
  rw [unifyWith]
  split
  · next same =>
    refine (Term.answers_unifyListWith solved a.arguments b.arguments).congr fun value => ?_
    rw [← arguments_replace, ← arguments_replace]
    exact ⟨eq_of_sameSymbol (by rwa [sameSymbol_replace]), congrArg arguments⟩
  · next different =>
    intro value _ equal
    rw [← sameSymbol_replace value, equal] at different
    cases b <;> simp [replace, sameSymbol] at different

end

/-! ### Unifiers -/

namespace Substitution

/-- The variables that a substitution speaks of: those that it binds and those in its range. -/
def mentioned (σ : Substitution) : List Variable :=
  σ.domain ++ Term.occurrencesList σ.range

theorem mem_mentioned {σ : Substitution} {v : Variable} :
    v ∈ σ.mentioned ↔ ∃ entry ∈ σ.bindings, v = entry.1 ∨ v ∈ entry.2.occurrences := by
  rw [mentioned, List.mem_append, Term.mem_occurrencesList, domain, range]
  constructor
  · rintro (bound | ⟨t, member, occurs⟩)
    · obtain ⟨entry, member, rfl⟩ := List.mem_map.1 bound
      exact ⟨entry, member, Or.inl rfl⟩
    · obtain ⟨entry, inside, rfl⟩ := List.mem_map.1 member
      exact ⟨entry, inside, Or.inr occurs⟩
  · rintro ⟨entry, member, rfl | occurs⟩
    · exact Or.inl (List.mem_map_of_mem member)
    · exact Or.inr ⟨entry.2, List.mem_map_of_mem member, occurs⟩

/-- To be built from variables is to speak of no others. -/
theorem builtFrom_iff_mentioned {σ : Substitution} {allowed : Variable → Prop} :
    σ.BuiltFrom allowed (fun _ => True) ↔ ∀ v ∈ σ.mentioned, allowed v := by
  constructor
  · intro built v speaks
    obtain ⟨entry, member, rfl | occurs⟩ := mem_mentioned.1 speaks
    · exact (built entry member).1
    · exact (built entry member).2.1 v occurs
  · intro inside entry member
    exact ⟨inside _ (mem_mentioned.2 ⟨entry, member, Or.inl rfl⟩),
      fun v occurs => inside v (mem_mentioned.2 ⟨entry, member, Or.inr occurs⟩), fun _ _ => trivial⟩

/-- A substitution speaks of nothing but the variables that it speaks of and any others. -/
theorem builtFrom_itself (θ : Substitution) (vs : List Variable) :
    θ.BuiltFrom (fun v => v ∈ vs ∨ v ∈ θ.mentioned) fun _ => True :=
  builtFrom_iff_mentioned.2 fun _ speaks => Or.inr speaks

/-- What a unifier is to the substitution that it was found on top of, given the variables of the
two expressions: it is solved, it gives a variable that was bound what it gives the term of that
variable, and it speaks of no new variables. -/
structure Completes (σ θ : Substitution) (vs : List Variable) : Prop where
  solved : σ.IsSolved
  agrees : ∀ v t, θ.get? v = some t → (Term.var v).substitute σ = t.substitute σ
  mentioned : ∀ v ∈ σ.mentioned, v ∈ vs ∨ v ∈ θ.mentioned

/-- An answer is a solution of its equation, since a solved substitution respects itself. -/
theorem Answers.completes {θ σ : Substitution} {equation : (Variable → Term) → Prop}
    {vs : List Variable} (answers : θ.Answers equation (some σ))
    (built : σ.BuiltFrom (fun v => v ∈ vs ∨ v ∈ θ.mentioned) fun _ => True) :
    equation σ.value ∧ σ.Completes θ vs := by
  obtain ⟨respects, equal⟩ := (answers.2 σ.value).1 answers.1.respects
  exact ⟨equal, answers.1, fun v t bound => (respects.replace_get? bound).symm,
    builtFrom_iff_mentioned.1 built⟩

/-- Something found is most general for an equation, on top of a substitution: every replacement
that respects the substitution and satisfies the equation factors through it, and if nothing was
found there is no such replacement. -/
def MostGeneral (θ : Substitution) (equation : (Variable → Term) → Prop) :
    Option Substitution → Prop
  | none => ∀ value, Respects value θ → ¬ equation value
  | some σ => ∀ value, Respects value θ → equation value → ∀ v, value v = (σ.value v).replace value

theorem Answers.mostGeneral {θ : Substitution} {equation : (Variable → Term) → Prop}
    {found : Option Substitution} (answers : θ.Answers equation found) :
    θ.MostGeneral equation found := by
  cases found with
  | none => exact answers
  | some σ =>
    exact fun value respects equal v => ((answers.2 value).2 ⟨respects, equal⟩ v).symm

end Substitution

section

variable {θ σ : Substitution}

theorem Term.builtFrom_of_unifyListWith {ts us : List Term}
    (found : unifyListWith ts us θ = some σ) :
    σ.BuiltFrom (fun v => v ∈ occurrencesList ts ++ occurrencesList us ∨ v ∈ θ.mentioned)
      fun _ => True := by
  have inside : ∀ t ∈ ts ++ us, t.BuiltFrom
      (fun v => v ∈ occurrencesList ts ++ occurrencesList us ∨ v ∈ θ.mentioned) fun _ => True := by
    intro t member
    refine ⟨fun v occurs => Or.inl ?_, fun _ _ => trivial⟩
    rw [List.mem_append, mem_occurrencesList, mem_occurrencesList]
    exact (List.mem_append.1 member).imp (fun left => ⟨t, left, occurs⟩)
      fun right => ⟨t, right, occurs⟩
  have built := Unification.builtFrom_sameLength
    (Unification.builtFrom_terms (Unification.depthBound ts us θ)) ts us θ
    (fun t member => inside t (List.mem_append_left _ member))
    (fun u member => inside u (List.mem_append_right _ member))
    (θ.builtFrom_itself _)
  rwa [Unification.eq_unifier_of_toOption found] at built

theorem Term.builtFrom_of_unifyWith {t u : Term} (found : t.unifyWith u θ = some σ) :
    σ.BuiltFrom (fun v => v ∈ t.occurrences ++ u.occurrences ∨ v ∈ θ.mentioned)
      fun _ => True := by
  have built := Unification.builtFrom_terms (Unification.depthBound [t] [u] θ) t u θ
    ⟨fun v occurs => Or.inl (List.mem_append_left _ occurs), fun _ _ => trivial⟩
    ⟨fun v occurs => Or.inl (List.mem_append_right _ occurs), fun _ _ => trivial⟩
    (θ.builtFrom_itself _)
  rwa [Unification.eq_unifier_of_toOption found] at built

theorem Atom.builtFrom_of_unifyWith {a b : Atom} (found : a.unifyWith b θ = some σ) :
    σ.BuiltFrom (fun v => v ∈ a.occurrences ++ b.occurrences ∨ v ∈ θ.mentioned)
      fun _ => True := by
  rw [unifyWith] at found
  split at found
  · exact Term.builtFrom_of_unifyListWith found
  · cases found

end

/-! ### Soundness and generality -/

namespace Substitution.IsSolved

variable {θ : Substitution}

/-- **Unification is sound.** Whatever is found on top of a solved substitution for two terms, two
atoms or two lists of terms makes them equal in one pass, is solved, agrees with what was bound
before and speaks of no new variables. -/
theorem completes_of_unifyWith (solved : θ.IsSolved) :
    (∀ (t u : Term) (σ : Substitution), t.unifyWith u θ = some σ →
      t.substitute σ = u.substitute σ ∧ σ.Completes θ (t.occurrences ++ u.occurrences)) ∧
    (∀ (a b : Atom) (σ : Substitution), a.unifyWith b θ = some σ →
      a.substitute σ = b.substitute σ ∧ σ.Completes θ (a.occurrences ++ b.occurrences)) ∧
    ∀ (ts us : List Term) (σ : Substitution), Term.unifyListWith ts us θ = some σ →
      Term.substituteList σ ts = Term.substituteList σ us ∧
        σ.Completes θ (Term.occurrencesList ts ++ Term.occurrencesList us) := by
  refine ⟨fun t u σ found => ?_, fun a b σ found => ?_, fun ts us σ found => ?_⟩
  · have answers := Term.answers_unifyWith solved t u
    rw [found] at answers
    exact answers.completes (Term.builtFrom_of_unifyWith found)
  · have answers := Atom.answers_unifyWith solved a b
    rw [found] at answers
    exact answers.completes (Atom.builtFrom_of_unifyWith found)
  · have answers := Term.answers_unifyListWith solved ts us
    rw [found] at answers
    exact answers.completes (Term.builtFrom_of_unifyListWith found)

/-- `z` is the roof of `w`. -/
def roofKnown : Substitution :=
  .ofList [(⟨"z", none⟩, .app "Roof" [.var ⟨"w", none⟩])]

theorem isSolved_roofKnown : roofKnown.IsSolved := by
  have bindings : roofKnown.bindings = [(⟨"z", none⟩, .app "Roof" [.var ⟨"w", none⟩])] := rfl
  intro entry member v occurs
  rw [bindings] at member
  obtain rfl := List.mem_singleton.1 member
  obtain rfl : v = ⟨"w", none⟩ := List.mem_singleton.1 occurs
  decide

/-- `House(x, z)`. -/
def houseUnderRoof : Term :=
  .app "House" [.var ⟨"x", none⟩, .var ⟨"z", none⟩]

/-- `House(Door(z), Roof(A))`. -/
def houseWithDoor : Term :=
  .app "House" [.app "Door" [.var ⟨"z", none⟩], .app "Roof" [.constant "A"]]

/-- `A` is found for `w` in the middle of what `x` and `z` are bound to. -/
def roofFound : Substitution :=
  .ofList [(⟨"w", none⟩, .constant "A"), (⟨"x", none⟩, .app "Door" [.app "Roof" [.constant "A"]]),
    (⟨"z", none⟩, .app "Roof" [.constant "A"])]

theorem unifyWith_roofKnown : houseUnderRoof.unifyWith houseWithDoor roofKnown = some roofFound := by
  decide +kernel

theorem completes_roofFound :
    roofKnown.IsSolved ∧ houseUnderRoof.unifyWith houseWithDoor roofKnown = some roofFound ∧
      houseUnderRoof.substitute roofFound = houseWithDoor.substitute roofFound ∧
      roofFound.Completes roofKnown (houseUnderRoof.occurrences ++ houseWithDoor.occurrences) :=
  ⟨isSolved_roofKnown, unifyWith_roofKnown,
    isSolved_roofKnown.completes_of_unifyWith.1 _ _ _ unifyWith_roofKnown⟩

/-- **Unification is complete and most general.** On top of a solved substitution it fails for two
terms, two atoms or two lists of terms only if no replacement that respects the substitution makes
them equal, and every such replacement factors through the unifier that is found. -/
theorem mostGeneral_unifyWith (solved : θ.IsSolved) :
    (∀ t u : Term, θ.MostGeneral (fun value => t.replace value = u.replace value)
      (t.unifyWith u θ)) ∧
    (∀ a b : Atom, θ.MostGeneral (fun value => a.replace value = b.replace value)
      (a.unifyWith b θ)) ∧
    ∀ ts us : List Term,
      θ.MostGeneral (fun value => Term.replaceList value ts = Term.replaceList value us)
        (Term.unifyListWith ts us θ) :=
  ⟨fun t u => (Term.answers_unifyWith solved t u).mostGeneral,
    fun a b => (Atom.answers_unifyWith solved a b).mostGeneral,
    fun ts us => (Term.answers_unifyListWith solved ts us).mostGeneral⟩

/-- `z`, which is `Roof(w)`, is never `Roof(Roof(w))`. -/
theorem mostGeneral_roofKnown :
    roofKnown.IsSolved ∧ (Term.var ⟨"z", none⟩).unifyWith
        (.app "Roof" [.app "Roof" [.var ⟨"w", none⟩]]) roofKnown = none ∧
      ∀ value, Respects value roofKnown → (Term.var ⟨"z", none⟩).replace value ≠
        (Term.app "Roof" [.app "Roof" [.var ⟨"w", none⟩]]).replace value := by
  have failed : (Term.var ⟨"z", none⟩).unifyWith
      (.app "Roof" [.app "Roof" [.var ⟨"w", none⟩]]) roofKnown = none := by decide +kernel
  have mostGeneral := isSolved_roofKnown.mostGeneral_unifyWith.1 (.var ⟨"z", none⟩)
    (.app "Roof" [.app "Roof" [.var ⟨"w", none⟩]])
  rw [failed] at mostGeneral
  exact ⟨isSolved_roofKnown, failed, mostGeneral⟩

end Substitution.IsSolved

end ClausalReasoner
