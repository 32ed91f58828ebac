/-
This file is about the fresh variables that a query is given and the way back from them. The
renaming gives different variables of the query different new ones, so the renamed query says the
same of the new variables as the query says of its own, and the reverse renaming finds for every new
variable the one that it stands for. Bindings of the new variables, told in terms of the query, bind
each variable to what its new variable is bound to, renamed back.
-/

import ClausalReasoner.Asking
import ClausalReasoner.Proofs.DistinctBinders

namespace ClausalReasoner

universe u

variable {Universe : Type u} {meaning : Interpretation Universe} {values : Assignment Universe}

/-! ### Substitutions given as lists -/

namespace Substitution

theorem get?_foldl_insert (entries : List (Variable × Term)) (σ : Substitution) (v : Variable) :
    (entries.foldl (fun σ entry => σ.insert entry.1 entry.2) σ).get? v =
      (lookup v entries.reverse).or (σ.get? v) := by
  have append : ∀ front back : List (Variable × Term),
      lookup v (front ++ back) = (lookup v front).or (lookup v back) := by
    intro front back
    induction front with
    | nil => rfl
    | cons entry rest inductionHypothesis =>
      by_cases same : entry.1 = v <;> simp [lookup, same, inductionHypothesis]
  induction entries generalizing σ with
  | nil => rfl
  | cons entry rest inductionHypothesis =>
    rw [List.foldl_cons, inductionHypothesis, List.reverse_cons, append, Option.or_assoc,
      get?_insert]
    by_cases same : entry.1 = v <;> simp [lookup, same]

/-- Of the listed bindings the last one for a variable counts. -/
theorem get?_ofList (entries : List (Variable × Term)) (v : Variable) :
    (ofList entries).get? v = lookup v entries.reverse := by
  rw [ofList, get?_foldl_insert, get?_empty, Option.or_none]

theorem mem_of_get?_ofList {entries : List (Variable × Term)} {v : Variable} {t : Term}
    (bound : (ofList entries).get? v = some t) : (v, t) ∈ entries := by
  rw [get?_ofList] at bound
  exact List.mem_reverse.1 (mem_of_lookup bound)

/-- A binding that is listed is the one that counts when no variable is listed with two terms. -/
theorem get?_ofList_of_functional {entries : List (Variable × Term)}
    (functional : ∀ v first second, (v, first) ∈ entries → (v, second) ∈ entries → first = second)
    {v : Variable} {t : Term} (member : (v, t) ∈ entries) :
    (ofList entries).get? v = some t := by
  cases bound : (ofList entries).get? v with
  | none =>
    rw [get?_ofList, lookup_eq_none_iff] at bound
    exact absurd rfl (bound _ (List.mem_reverse.2 member))
  | some other => exact congrArg some (functional v other t (mem_of_get?_ofList bound) member)

theorem get?_ofList_of_mem {entries : List (Variable × Term)}
    (distinct : (entries.map Prod.fst).Nodup) {v : Variable} {t : Term}
    (member : (v, t) ∈ entries) : (ofList entries).get? v = some t :=
  get?_ofList_of_functional (fun _ _ _ here there =>
    congrArg Prod.snd (List.inj_on_of_nodup_map distinct here there rfl)) member

theorem mem_of_mem_bindings_ofList {entries : List (Variable × Term)} {entry : Variable × Term}
    (member : entry ∈ (ofList entries).bindings) : entry ∈ entries := by
  have inserted : ∀ (entries : List (Variable × Term)) (σ : Substitution),
      entry ∈ (entries.foldl (fun σ entry => σ.insert entry.1 entry.2) σ).bindings →
        entry ∈ σ.bindings ∨ entry ∈ entries := by
    intro entries
    induction entries with
    | nil => exact fun σ member => Or.inl member
    | cons first rest inductionHypothesis =>
      intro σ member
      rcases inductionHypothesis _ member with placed | later
      · rcases mem_place placed with rfl | older
        · exact Or.inr List.mem_cons_self
        · exact Or.inl older
      · exact Or.inr (List.mem_cons_of_mem _ later)
  exact (inserted entries ∅ member).resolve_left List.not_mem_nil

/-- No variable is bound to two terms. -/
def IsFunctional (σ : Substitution) : Prop :=
  ∀ v first second, (v, first) ∈ σ.bindings → (v, second) ∈ σ.bindings → first = second

theorem isFunctional_ofList {entries : List (Variable × Term)}
    (distinct : (entries.map Prod.fst).Nodup) : (ofList entries).IsFunctional :=
  fun _ _ _ here there => congrArg Prod.snd (List.inj_on_of_nodup_map distinct
    (mem_of_mem_bindings_ofList here) (mem_of_mem_bindings_ofList there) rfl)

end Substitution

/-! ### Fresh variables -/

namespace Supply

theorem map_fst_freshen (supply : Supply) (vs : List Variable) :
    (supply.freshen vs).1.map Prod.fst = vs := by
  induction vs generalizing supply with
  | nil => rfl
  | cons v vs inductionHypothesis => exact congrArg _ (inductionHypothesis _)

theorem next_le_freshen (supply : Supply) (vs : List Variable) :
    supply.next ≤ (supply.freshen vs).2.next := by
  induction vs generalizing supply with
  | nil => exact Nat.le_refl _
  | cons v vs inductionHypothesis => exact Nat.le_of_succ_le (inductionHypothesis _)

/-- The new variables carry indices that are taken from the supply. -/
theorem index_of_mem_freshen {supply : Supply} {vs : List Variable} {pair : Variable × Variable}
    (member : pair ∈ (supply.freshen vs).1) :
    ∃ index, pair.2.index = some index ∧ supply.next ≤ index ∧
      index < (supply.freshen vs).2.next := by
  induction vs generalizing supply with
  | nil => exact absurd member List.not_mem_nil
  | cons v vs inductionHypothesis =>
    rcases List.mem_cons.1 member with rfl | later
    · exact ⟨supply.next, rfl, Nat.le_refl _, next_le_freshen ⟨supply.next + 1⟩ vs⟩
    · obtain ⟨index, same, above, below⟩ := inductionHypothesis later
      exact ⟨index, same, Nat.le_of_succ_le above, below⟩

theorem nodup_map_snd_freshen (supply : Supply) (vs : List Variable) :
    ((supply.freshen vs).1.map Prod.snd).Nodup := by
  induction vs generalizing supply with
  | nil => exact List.nodup_nil
  | cons v vs inductionHypothesis =>
    refine List.nodup_cons.2 ⟨fun again => ?_, inductionHypothesis _⟩
    obtain ⟨pair, later, same⟩ := List.mem_map.1 again
    obtain ⟨index, indexed, above, _⟩ := index_of_mem_freshen later
    have equal : some index = some supply.next := indexed.symm.trans (congrArg Variable.index same)
    exact absurd (Option.some.inj equal ▸ above) (Nat.not_succ_le_self _)

end Supply

/-- What is known of a renaming: it puts variables in the place of variables, different ones for the
listed ones, and these are found again in reverse. -/
structure RenamesVariables (forward : Substitution) (vs : List Variable)
    (rename : Variable → Variable) : Prop where
  value : ∀ v, forward.value v = .var (rename v)
  injective : ∀ v ∈ vs, ∀ w ∈ vs, rename v = rename w → v = w
  reverse : ∀ v ∈ vs, forward.inverse.get? (rename v) = some (.var v)
  origin : ∀ v t, forward.inverse.get? v = some t → ∃ w ∈ vs, rename w = v ∧ t = .var w

/-- Pairs of variables in which none stands twice on the same side make a renaming. -/
theorem exists_renamesVariables_of_pairs {pairs : List (Variable × Variable)} {vs : List Variable}
    (keys : pairs.map Prod.fst = vs) (distinct : vs.Nodup) (apart : (pairs.map Prod.snd).Nodup) :
    ∃ rename, RenamesVariables
      (.ofList (pairs.map fun pair => (pair.1, Term.var pair.2))) vs rename := by
  let entries := pairs.map fun pair : Variable × Variable => (pair.1, Term.var pair.2)
  have entryKeys : entries.map Prod.fst = vs := by
    rw [List.map_map]
    exact keys
  have forward : Substitution.ofList (pairs.map fun pair => (pair.1, Term.var pair.2)) =
      Substitution.ofList entries := rfl
  have functional : ∀ v first second, (v, first) ∈ pairs → (v, second) ∈ pairs →
      first = second := fun v first second here there => congrArg Prod.snd
    (List.inj_on_of_nodup_map (keys.symm ▸ distinct) here there rfl)
  have injective : ∀ v w u, (v, u) ∈ pairs → (w, u) ∈ pairs → v = w :=
    fun v w u here there => congrArg Prod.fst
      (List.inj_on_of_nodup_map apart here there rfl)
  let rename : Variable → Variable := fun v =>
    (((Substitution.ofList entries).get? v).bind Term.asVariable?).getD v
  have bound : ∀ v u, (v, u) ∈ pairs →
      (Substitution.ofList entries).get? v = some (.var u) := fun v u member =>
    Substitution.get?_ofList_of_mem (entryKeys.symm ▸ distinct)
      (List.mem_map_of_mem (f := fun pair : Variable × Variable => (pair.1, Term.var pair.2)) member)
  have listed : ∀ v ∈ vs, (v, rename v) ∈ pairs := by
    intro v member
    obtain ⟨⟨w, u⟩, inside, rfl⟩ := List.mem_map.1 (keys.symm ▸ member)
    have isRenamed : rename w = u := by
      show (((Substitution.ofList entries).get? w).bind Term.asVariable?).getD w = u
      rw [bound w u inside]
      rfl
    exact isRenamed.symm ▸ inside
  have origin : ∀ v u, (v, Term.var u) ∈ (Substitution.ofList entries).bindings →
      (v, u) ∈ pairs := by
    intro v u member
    obtain ⟨⟨w, target⟩, inside, same⟩ :=
      List.mem_map.1 (Substitution.mem_of_mem_bindings_ofList member)
    obtain ⟨rfl, targetSame⟩ := Prod.mk.inj same
    obtain rfl := Term.var.inj targetSame
    exact inside
  have inverted : ∀ u t, (u, t) ∈ (Substitution.ofList entries).bindings.filterMap (fun entry =>
      entry.2.asVariable?.map fun target => (target, Term.var entry.1)) →
        ∃ w, (w, u) ∈ pairs ∧ t = .var w := by
    intro u t member
    obtain ⟨⟨w, target⟩, inside, isVariable⟩ := List.mem_filterMap.1 member
    obtain ⟨found, isFound, same⟩ := Option.map_eq_some_iff.1 isVariable
    obtain ⟨rfl, rfl⟩ := Prod.mk.inj same
    cases target with
    | var v =>
      obtain rfl := Option.some.inj isFound
      exact ⟨w, origin w v inside, rfl⟩
    | _ => exact absurd isFound nofun
  refine ⟨rename, fun v => ?_, fun v here w there same => ?_, fun v member => ?_,
    fun u t found => ?_⟩
  · rw [forward]
    cases found : (Substitution.ofList entries).get? v with
    | none =>
      rw [Substitution.value_of_get?_none found]
      show Term.var v = .var ((((Substitution.ofList entries).get? v).bind Term.asVariable?).getD v)
      rw [found]
      rfl
    | some t =>
      rw [Substitution.value_of_get?_some found]
      obtain ⟨⟨w, u⟩, inside, same⟩ := List.mem_map.1 (Substitution.mem_of_get?_ofList found)
      obtain ⟨rfl, rfl⟩ := Prod.mk.inj same
      exact congrArg Term.var (functional w _ _ inside
        (listed w (keys ▸ List.mem_map_of_mem (f := Prod.fst) inside)))
  · exact injective v w (rename v) (listed v here) (same ▸ listed w there)
  · have inside := Substitution.mem_of_lookup (bound v (rename v) (listed v member))
    refine Substitution.get?_ofList_of_functional (fun u first second here there => ?_)
      (List.mem_filterMap.2 ⟨_, inside, rfl⟩)
    obtain ⟨w, isPair, rfl⟩ := inverted u first here
    obtain ⟨x, isOther, rfl⟩ := inverted u second there
    rw [injective w x u isPair isOther]
  · obtain ⟨w, isPair, rfl⟩ := inverted u t (Substitution.mem_of_get?_ofList found)
    have member : w ∈ vs := keys ▸ List.mem_map_of_mem (f := Prod.fst) isPair
    exact ⟨w, member, functional w _ _ (listed w member) isPair, rfl⟩

theorem Supply.exists_renamesVariables (supply : Supply) {vs : List Variable}
    (distinct : vs.Nodup) :
    ∃ rename, RenamesVariables (supply.freshRenaming vs).1 vs rename :=
  exists_renamesVariables_of_pairs (supply.map_fst_freshen vs) distinct
    (supply.nodup_map_snd_freshen vs)

/-! ### Telling bindings in terms of the query -/

namespace RenamesVariables

variable {forward : Substitution} {vs : List Variable} {rename : Variable → Variable}
  {bindings : Substitution} {v : Variable}

/-- A variable is bound if its new variable is, and to the term of that, renamed back. -/
theorem get?_inTermsOf (renames : RenamesVariables forward vs rename)
    (functional : bindings.IsFunctional) (member : v ∈ vs) :
    (bindings.inTermsOf forward.inverse).get? v =
      (bindings.get? (rename v)).map (Term.substitute forward.inverse) := by
  have told : ∀ w t, (w, t) ∈ bindings.bindings.filterMap (fun entry =>
      ((forward.inverse.get? entry.1).bind Term.asVariable?).map fun own =>
        (own, entry.2.substitute forward.inverse)) →
          ∃ bound, (rename w, bound) ∈ bindings.bindings ∧
            t = bound.substitute forward.inverse := by
    intro w t inside
    obtain ⟨⟨u, bound⟩, old, made⟩ := List.mem_filterMap.1 inside
    obtain ⟨own, isOwn, same⟩ := Option.map_eq_some_iff.1 made
    obtain ⟨rfl, rfl⟩ := Prod.mk.inj same
    obtain ⟨back, found, isVariable⟩ := Option.bind_eq_some_iff.1 isOwn
    obtain ⟨x, _, rfl, rfl⟩ := renames.origin u back found
    obtain rfl := Option.some.inj isVariable
    exact ⟨bound, old, rfl⟩
  cases bound : bindings.get? (rename v) with
  | none =>
    refine Option.eq_none_iff_forall_ne_some.2 fun t found => ?_
    obtain ⟨other, old, _⟩ := told v t (Substitution.mem_of_get?_ofList found)
    exact absurd rfl (Substitution.lookup_eq_none_iff.1 bound _ old)
  | some t =>
    refine Substitution.get?_ofList_of_functional (fun w first second here there => ?_)
      (List.mem_filterMap.2 ⟨_, Substitution.mem_of_lookup bound, ?_⟩)
    · obtain ⟨one, old, rfl⟩ := told w first here
      obtain ⟨other, older, rfl⟩ := told w second there
      rw [functional _ one other old older]
    · dsimp only
      rw [renames.reverse v member]
      rfl

/-- A variable is bound to what its new variable is bound to, renamed back. -/
theorem value_inTermsOf (renames : RenamesVariables forward vs rename)
    (functional : bindings.IsFunctional) (member : v ∈ vs) :
    (bindings.inTermsOf forward.inverse).value v =
      (bindings.value (rename v)).substitute forward.inverse := by
  have told := renames.get?_inTermsOf functional member
  cases bound : bindings.get? (rename v) with
  | none =>
    rw [bound] at told
    rw [Substitution.value_of_get?_none told, Substitution.value_of_get?_none bound, Term.substitute,
      Term.replace, Substitution.value_of_get?_some (renames.reverse v member)]
  | some t =>
    rw [bound] at told
    rw [Substitution.value_of_get?_some told, Substitution.value_of_get?_some bound]

end RenamesVariables

/-! ### The renamed query -/

namespace Sentence

variable {forward : Substitution} {vs : List Variable} {rename : Variable → Variable}

/-- A variable that is renamed to a renamed binder is itself bound. -/
theorem notMem_map_rename (renames : RenamesVariables forward vs rename) {bound : List Variable}
    (among : ∀ v ∈ bound, v ∈ vs) {v : Variable} (member : v ∈ vs) (absent : v ∉ bound) :
    rename v ∉ bound.map rename := by
  intro listed
  obtain ⟨w, inside, same⟩ := List.mem_map.1 listed
  exact absent (renames.injective w (among w inside) v member same ▸ inside)

/-- The renamed query says under some values what the query says when each variable has the value of
its new variable. -/
theorem holdsIn_renamed (renames : RenamesVariables forward vs rename) {s : Sentence}
    (within : s.Inside fun v => v ∈ vs) (values : Assignment Universe) :
    (s.substitute forward).holdsIn meaning values ↔
      s.holdsIn meaning fun v => values (rename v) := by
  induction s generalizing values with
  | atom a =>
    have same : values.through meaning forward = fun v => values (rename v) :=
      funext fun v => congrArg (Term.valueIn meaning values) (renames.value v)
    exact same ▸ a.holdsIn_substitute meaning values forward
  | negation body inductionHypothesis => exact not_congr (inductionHypothesis within values)
  | connected connective left right leftHypothesis rightHypothesis =>
    have first := leftHypothesis within.connected.1 values
    have second := rightHypothesis within.connected.2 values
    rw [substitute, holdsIn, holdsIn, propext first, propext second]
  | quantified quantifier bound body inductionHypothesis =>
    rw [substitute, holdsIn_quantify, holdsIn, replaceBinders_eq_map fun v _ => renames.value v]
    refine quantifier.holdsOver_of_renaming
      (fun v w here there => renames.injective v here w there) within.quantified.1
      (fun v listed => List.mem_map_of_mem listed)
      (fun v member absent => ⟨rfl, notMem_map_rename renames within.quantified.1 member absent⟩)
      (inductionHypothesis within.quantified.2) (fun chosen matched agree => ?_) values
    exact holdsIn_congr_values fun v free => agree v (within.quantified.2.freeVars v free)

theorem mem_symbols_renamed (renames : RenamesVariables forward vs rename) {s : Sentence}
    {symbol : Symbol} : symbol ∈ (s.substitute forward).symbols ↔ symbol ∈ s.symbols := by
  induction s with
  | atom a =>
    rw [substitute, symbols, symbols, Atom.substitute, Atom.mem_symbols_replace]
    refine or_iff_left fun new => ?_
    obtain ⟨v, _, inside⟩ := new
    rw [renames.value] at inside
    exact absurd inside List.not_mem_nil
  | negation body inductionHypothesis => exact inductionHypothesis
  | connected connective left right leftHypothesis rightHypothesis =>
    rw [substitute, symbols, symbols, List.mem_append, List.mem_append, leftHypothesis,
      rightHypothesis]
  | quantified quantifier bound body inductionHypothesis =>
    rw [substitute, symbols_quantify, symbols, inductionHypothesis]

theorem isQuantifierFree_renamed {s : Sentence} (plain : s.isQuantifierFree) :
    (s.substitute forward).isQuantifierFree := by
  induction s with
  | atom a => rfl
  | negation body inductionHypothesis => exact inductionHypothesis plain
  | connected connective left right leftHypothesis rightHypothesis =>
    rw [isQuantifierFree, Bool.and_eq_true] at plain
    exact (Bool.and_eq_true _ _).mpr ⟨leftHypothesis plain.1, rightHypothesis plain.2⟩
  | quantified quantifier bound body => exact absurd plain Bool.false_ne_true

theorem mem_occurrences_renamed (renames : RenamesVariables forward vs rename) {s : Sentence}
    {v : Variable} (occurs : v ∈ s.occurrences) :
    rename v ∈ (s.substitute forward).occurrences := by
  induction s with
  | atom a =>
    refine Atom.mem_occurrences_replace.2 ⟨v, occurs, ?_⟩
    rw [renames.value]
    exact List.mem_singleton_self _
  | negation body inductionHypothesis => exact inductionHypothesis occurs
  | connected connective left right leftHypothesis rightHypothesis =>
    exact List.mem_append.2 ((List.mem_append.1 occurs).imp leftHypothesis rightHypothesis)
  | quantified quantifier bound body inductionHypothesis =>
    rw [substitute]
    cases replaceBinders forward.value bound with
    | nil => exact inductionHypothesis occurs
    | cons w ws => exact inductionHypothesis occurs

theorem exists_of_mem_freeVars_renamed (renames : RenamesVariables forward vs rename)
    {s : Sentence} {v : Variable} (free : v ∈ (s.substitute forward).freeVars) :
    ∃ w ∈ s.freeVars, rename w = v := by
  induction s with
  | atom a =>
    obtain ⟨w, occurs, here⟩ := Atom.mem_occurrences_replace.1 free
    rw [renames.value] at here
    exact ⟨w, occurs, (List.mem_singleton.1 here).symm⟩
  | negation body inductionHypothesis => exact inductionHypothesis free
  | connected connective left right leftHypothesis rightHypothesis =>
    rcases List.mem_append.1 free with here | there
    · obtain ⟨w, below, same⟩ := leftHypothesis here
      exact ⟨w, List.mem_append_left _ below, same⟩
    · obtain ⟨w, below, same⟩ := rightHypothesis there
      exact ⟨w, List.mem_append_right _ below, same⟩
  | quantified quantifier bound body inductionHypothesis =>
    rw [substitute, mem_freeVars_quantify, replaceBinders_eq_map fun v _ => renames.value v] at free
    obtain ⟨w, below, rfl⟩ := inductionHypothesis free.1
    exact ⟨w, mem_freeVars_quantified.2
      ⟨below, fun listed => free.2 (List.mem_map_of_mem listed)⟩, rfl⟩

theorem Anchored.renamed (renames : RenamesVariables forward vs rename) {s : Sentence}
    {affirmed : Bool} {anchored wider : Variable → Prop} (given : s.Anchored affirmed anchored)
    (wide : ∀ v, anchored v → wider (rename v)) :
    (s.substitute forward).Anchored affirmed wider := by
  induction s generalizing affirmed anchored wider with
  | atom a => trivial
  | negation body inductionHypothesis => exact inductionHypothesis given wide
  | connected connective left right leftHypothesis rightHypothesis =>
    cases connective with
    | biconditional =>
      exact ⟨⟨leftHypothesis given.1.1 wide, leftHypothesis given.1.2 wide⟩,
        rightHypothesis given.2.1 wide, rightHypothesis given.2.2 wide⟩
    | _ => exact ⟨leftHypothesis given.1 wide, rightHypothesis given.2 wide⟩
  | quantified quantifier bound body inductionHypothesis =>
    rw [substitute, replaceBinders_eq_map fun v _ => renames.value v]
    refine Anchored.quantify ⟨fun effect v free unbound => ?_,
      inductionHypothesis given.2 fun v reach => ?_⟩
    · obtain ⟨w, below, rfl⟩ := exists_of_mem_freeVars_renamed renames free
      exact wide w (given.1 effect w below fun listed => unbound (List.mem_map_of_mem listed))
    · exact reach.imp (wide v) fun listed => List.mem_map_of_mem listed

/-- All variables of a sentence are among those that it is given new ones for. -/
theorem inside_allVariables (s : Sentence) : s.Inside fun v => v ∈ s.allVariables :=
  ⟨fun _ occurs => mem_firstOccurrences.2 (List.mem_append_left _ occurs),
    fun _ bound => mem_firstOccurrences.2 (List.mem_append_right _ bound)⟩

/-- Substituting in a sentence without quantifiers and then evaluating it is evaluating it under the
changed assignment. -/
theorem holdsIn_substitute_of_isQuantifierFree {s : Sentence} (plain : s.isQuantifierFree)
    (σ : Substitution) : (s.substitute σ).holdsIn meaning values ↔
      s.holdsIn meaning (values.through meaning σ) := by
  induction s with
  | atom a => exact a.holdsIn_substitute meaning values σ
  | negation body inductionHypothesis => exact not_congr (inductionHypothesis plain)
  | connected connective left right leftHypothesis rightHypothesis =>
    rw [isQuantifierFree, Bool.and_eq_true] at plain
    rw [substitute, holdsIn, holdsIn, propext (leftHypothesis plain.1),
      propext (rightHypothesis plain.2)]
  | quantified quantifier bound body => exact absurd plain Bool.false_ne_true

end Sentence

end ClausalReasoner
