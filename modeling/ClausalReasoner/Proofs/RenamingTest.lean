/-
This file says what the test for renamings of a fact finds out. It asks for a unifier that binds
variables to variables only, and there is one exactly if the two atoms are equal once all variables
count as one. A renaming has to keep different variables apart, too, so every variant passes the
test, but `P(x, y)` passes it against `P(z, z)` as well although it says more. The test is right for
the literals that repeat their variables at the same places as the candidates that look like them;
chaining forward then leaves out only what is known up to the names of variables.
-/

import ClausalReasoner.Proofs.FiledClauses
import ClausalReasoner.Proofs.KeyInvariance

namespace ClausalReasoner

/-! ### Atoms with indistinguishable variables -/

/-- The atom with its variables made indistinguishable. -/
def Atom.blanked (a : Atom) : Atom :=
  a.replace fun _ => .var blank

/-- A literal has the polarity of another one, and their atoms are equal if all variables count as
one. -/
@[mk_iff]
structure Literal.LooksLike (k l : Literal) : Prop where
  polarity : k.polarity = l.polarity
  blanked : k.atom.blanked = l.atom.blanked

/-- A literal has the polarity of another one, and its atom is what a renaming of variables that
keeps different ones apart makes of the other atom. -/
structure Literal.IsVariantOf (k l : Literal) : Prop where
  polarity : k.polarity = l.polarity
  renamed : ∃ rename : Variable → Variable,
    (∀ v ∈ l.occurrences, ∀ w ∈ l.occurrences, rename v = rename w → v = w) ∧
      k.atom = l.atom.replace (renamingBy rename)

/-- If a literal looks like another one, then its variables are repeated at the same places. -/
def Literal.RepeatsLike (k l : Literal) : Prop :=
  k.LooksLike l → k.shape.pattern = l.shape.pattern

namespace Term

theorem length_occurrences_of_shape {t u : Term} (same : t.shape = u.shape) :
    t.occurrences.length = u.occurrences.length := by
  have blanks : ∀ s : Term, s.shape.occurrences.length = s.occurrences.length := fun s => by
    rw [show s.shape = s.replace (renamingBy fun _ => blank) from rfl, occurrences_renamingBy,
      List.length_map]
  rw [← blanks t, ← blanks u, same]

variable {rename : Variable → Variable}

mutual

/-- A renaming that gives the variables of one term those of another one, place by place, makes the
one into the other if they have the same shape. -/
theorem replace_eq_of_shape : ∀ t u : Term, t.shape = u.shape →
    t.occurrences.map rename = u.occurrences → t.replace (renamingBy rename) = u
  | .constant _, .constant _, same, _ => same
  | .var _, .var _, _, places => congrArg Term.var (List.singleton_inj.1 places)
  | .app f ts, .app g us, same, places => by
    simp only [shape, replace, app.injEq] at same
    rw [replace, same.1, replaceList_eq_of_shape ts us same.2 places]
  | .constant _, .var _, same, _ => absurd same nofun
  | .constant _, .app _ _, same, _ => absurd same nofun
  | .var _, .constant _, same, _ => absurd same nofun
  | .var _, .app _ _, same, _ => absurd same nofun
  | .app _ _, .constant _, same, _ => absurd same nofun
  | .app _ _, .var _, same, _ => absurd same nofun

theorem replaceList_eq_of_shape : ∀ ts us : List Term,
    replaceList (fun _ => .var blank) ts = replaceList (fun _ => .var blank) us →
    (occurrencesList ts).map rename = occurrencesList us →
    replaceList (renamingBy rename) ts = us
  | [], [], _, _ => rfl
  | t :: ts, u :: us, same, places => by
    simp only [replaceList, List.cons.injEq] at same
    have lengths : (t.occurrences.map rename).length = u.occurrences.length := by
      rw [List.length_map, length_occurrences_of_shape same.1]
    rw [occurrencesList, occurrencesList, List.map_append] at places
    obtain ⟨first, rest⟩ := List.append_inj places lengths
    rw [replaceList, replace_eq_of_shape t u same.1 first, replaceList_eq_of_shape ts us same.2 rest]
  | [], _ :: _, same, _ => absurd same nofun
  | _ :: _, [], same, _ => absurd same nofun

end

end Term

namespace Atom

theorem sameSymbol_of_blanked {a b : Atom} (same : a.blanked = b.blanked) : a.sameSymbol b := by
  have itself : ∀ c : Atom, c.sameSymbol c := by
    intro c
    cases c <;> simp [sameSymbol]
  rw [← sameSymbol_replace fun _ => .var blank]
  exact (show a.replace _ = b.replace _ from same) ▸ itself _

theorem blanked_replace {value : Variable → Term} {a : Atom}
    (renames : ∀ v ∈ a.occurrences, (value v).isVariable) :
    (a.replace value).blanked = a.blanked := by
  rw [blanked, replace_replace]
  refine replace_congr fun v occurs => ?_
  have isVariable := renames v occurs
  cases image : value v <;> simp_all [Term.isVariable, Term.asVariable?, Term.replace]

theorem replace_eq_of_blanked {a b : Atom} {rename : Variable → Variable}
    (same : a.blanked = b.blanked) (places : a.occurrences.map rename = b.occurrences) :
    a.replace (renamingBy rename) = b := by
  refine eq_of_sameSymbol ?_ ?_
  · have kept : (a.replace (renamingBy rename)).sameSymbol b = a.sameSymbol b := by
      cases a <;> cases b <;> rfl
    exact kept ▸ sameSymbol_of_blanked same
  · have arguments := congrArg Atom.arguments same
    rw [blanked, blanked, arguments_replace, arguments_replace] at arguments
    rw [arguments_replace]
    exact Term.replaceList_eq_of_shape _ _ arguments places

/-- Two atoms unify by a substitution that binds variables to variables only exactly if they are equal
once all variables count as one. -/
theorem exists_isRenaming_iff {a b : Atom} :
    (∃ θ, a.unify b = some θ ∧ θ.isRenaming) ↔ a.blanked = b.blanked := by
  constructor
  · rintro ⟨θ, found, renames⟩
    have isVariable : ∀ v, (θ.value v).isVariable := by
      intro v
      cases bound : θ.get? v with
      | none => rw [Substitution.value_of_get?_none bound]; rfl
      | some t =>
        rw [Substitution.value_of_get?_some bound]
        exact List.all_eq_true.1 renames t
          (List.mem_map_of_mem (Substitution.mem_of_lookup bound))
    calc a.blanked
        = (a.substitute θ).blanked := (blanked_replace fun v _ => isVariable v).symm
      _ = (b.substitute θ).blanked := congrArg blanked (substitute_eq_of_unify found)
      _ = b.blanked := blanked_replace fun v _ => isVariable v
  · intro same
    obtain ⟨θ, found, respects⟩ := exists_unify same
    refine ⟨θ, found, List.all_eq_true.2 fun t inRange => ?_⟩
    obtain ⟨entry, member, rfl⟩ := List.mem_map.1 inRange
    have bound : θ.get? entry.1 = some entry.2 := by
      cases bound : θ.get? entry.1 with
      | none => exact absurd rfl (Substitution.lookup_eq_none_iff.1 bound entry member)
      | some t =>
        have inside := Substitution.mem_of_lookup bound
        exact congrArg some (isFunctional_of_unify found entry.1 t entry.2 inside member)
    have blank := respects.replace_get? bound
    cases image : entry.2 <;> simp_all [Term.isVariable, Term.asVariable?, Term.replace]

end Atom

/-! ### Variants -/

namespace Literal

variable {k l : Literal} {ls : List Literal}

theorem IsVariantOf.looksLike (isVariant : k.IsVariantOf l) : k.LooksLike l := by
  obtain ⟨polarity, rename, _, renamed⟩ := isVariant
  refine ⟨polarity, renamed ▸ Atom.blanked_replace fun v _ => ?_⟩
  rfl

/-- The pattern of a literal only depends on its variable occurrences. -/
theorem IsVariantOf.pattern (isVariant : k.IsVariantOf l) : k.shape.pattern = l.shape.pattern := by
  obtain ⟨_, rename, injective, renamed⟩ := isVariant
  have occurrences : k.occurrences = (l.replace (renamingBy rename)).occurrences :=
    congrArg Atom.occurrences renamed
  rw [← shape_renamingBy injective]
  simp only [shape, occurrences]

/-- Literals that look alike and repeat their variables at the same places are variants. -/
theorem LooksLike.isVariantOf (alike : k.LooksLike l) (repeats : k.shape.pattern = l.shape.pattern) :
    k.IsVariantOf l := by
  let vs := firstOccurrences l.occurrences
  let ws := firstOccurrences k.occurrences
  have patterns : k.occurrences.map ws.idxOf = l.occurrences.map vs.idxOf := repeats
  have found : ∀ w ∈ k.occurrences, ws.getD (ws.idxOf w) blank = w := by
    intro w occurs
    have listed : w ∈ ws := mem_firstOccurrences.2 occurs
    rw [List.getD_eq_getElem _ _ (List.idxOf_lt_length_of_mem listed), List.getElem_idxOf]
  have places : l.occurrences.map (fun v => ws.getD (vs.idxOf v) blank) = k.occurrences := by
    calc l.occurrences.map (fun v => ws.getD (vs.idxOf v) blank)
        = (l.occurrences.map vs.idxOf).map fun number => ws.getD number blank := by
          rw [List.map_map]; rfl
      _ = k.occurrences.map fun w => ws.getD (ws.idxOf w) blank := by
          rw [← patterns, List.map_map]; rfl
      _ = k.occurrences := (List.map_congr_left found).trans (List.map_id' _)
  refine ⟨alike.1, fun v => ws.getD (vs.idxOf v) blank, fun v here w there same => ?_,
    (Atom.replace_eq_of_blanked alike.2.symm places).symm⟩
  have numbered : ∀ v ∈ l.occurrences, ∃ u ∈ ws, ws.idxOf u = vs.idxOf v := by
    intro v occurs
    have member : vs.idxOf v ∈ k.occurrences.map ws.idxOf :=
      patterns ▸ List.mem_map_of_mem occurs
    obtain ⟨u, inside, equal⟩ := List.mem_map.1 member
    exact ⟨u, mem_firstOccurrences.2 inside, equal⟩
  obtain ⟨u, listed, number⟩ := numbered v here
  obtain ⟨u', listed', number'⟩ := numbered w there
  beta_reduce at same
  rw [← number, ← number', found u (mem_firstOccurrences.1 listed),
    found u' (mem_firstOccurrences.1 listed')] at same
  have indices : vs.idxOf v = vs.idxOf w := by rw [← number, ← number', same]
  exact (List.idxOf_inj (mem_firstOccurrences.2 here)).1 indices

theorem isVariantOf_iff :
    k.IsVariantOf l ↔ k.LooksLike l ∧ k.shape.pattern = l.shape.pattern :=
  ⟨fun isVariant => ⟨isVariant.looksLike, isVariant.pattern⟩,
    fun ⟨alike, repeats⟩ => alike.isVariantOf repeats⟩

end Literal

/-- The test passes a literal exactly if some candidate looks like it. -/
theorem isRenamingOf_iff {l : Literal} {candidates : List Literal} :
    isRenamingOf l candidates ↔ ∃ k ∈ candidates, k.LooksLike l := by
  rw [isRenamingOf, List.any_eq_true]
  refine exists_congr fun k => and_congr_right fun _ => ?_
  rw [Bool.and_eq_true, decide_eq_true_iff, Literal.looksLike_iff]
  refine and_congr_right fun _ => ?_
  rw [@eq_comm _ k.atom.blanked, ← Atom.exists_isRenaming_iff]
  cases l.atom.unify k.atom <;> simp

/-- The test is right for candidates that repeat their variables where the literal does. -/
theorem isRenamingOf_iff_isVariantOf {l : Literal} {candidates : List Literal}
    (repeats : ∀ k ∈ candidates, k.RepeatsLike l) :
    isRenamingOf l candidates ↔ ∃ k ∈ candidates, k.IsVariantOf l := by
  rw [isRenamingOf_iff]
  refine exists_congr fun k => and_congr_right fun member => ?_
  rw [Literal.isVariantOf_iff]
  exact ⟨fun alike => ⟨alike, repeats k member alike⟩, And.left⟩

/-! ### Facts -/

theorem Literal.LooksLike.heading_eq {k l : Literal} (alike : k.LooksLike l) :
    k.heading = l.heading := by
  have blanked : ∀ a : Atom, a.blanked.symbol = a.symbol := by
    intro a
    cases a <;> rfl
  refine Literal.heading_eq_iff.2 ⟨alike.1, ?_⟩
  rw [← blanked k.atom, ← blanked l.atom, alike.2]

namespace KnowledgeBase

variable {kb : KnowledgeBase} {l k : Literal}

/-- The candidates among the facts are the stored unit clauses under the heading of the literal. -/
theorem Filed.mem_candidates_iff (filed : kb.Filed) :
    k ∈ (FactIndex.under kb.facts l.heading).filterMap (fun fact => fact.literals.head?) ↔
      kb.StoresUnit k ∧ k.heading = l.heading := by
  rw [List.mem_filterMap, filed.facts]
  constructor
  · rintro ⟨c, isUnder, first⟩
    obtain ⟨member, under⟩ := List.mem_filter.1 isUnder
    obtain ⟨m, literals, heading⟩ := Clause.exists_of_isUnder under
    rw [literals] at first
    obtain rfl : m = k := Option.some.inj first
    exact ⟨⟨c, member, literals⟩, heading⟩
  · rintro ⟨⟨c, member, literals⟩, heading⟩
    refine ⟨c, List.mem_filter.2 ⟨member, ?_⟩, by rw [literals]; rfl⟩
    rw [c.isUnder_of_literals literals]
    exact decide_eq_true heading

/-- The test passes a literal against the facts exactly if some stored unit clause looks like it. -/
theorem Filed.isRenamingOfFact_iff (filed : kb.Filed) :
    kb.isRenamingOfFact l ↔ ∃ k, kb.StoresUnit k ∧ k.LooksLike l := by
  rw [isRenamingOfFact, isRenamingOf_iff]
  refine exists_congr fun k => ?_
  rw [filed.mem_candidates_iff]
  constructor
  · rintro ⟨⟨stored, _⟩, alike⟩
    exact ⟨stored, alike⟩
  · rintro ⟨stored, alike⟩
    exact ⟨⟨stored, alike.heading_eq⟩, alike⟩

theorem Reachable.isRenamingOfFact_iff (reachable : kb.Reachable) :
    kb.isRenamingOfFact l ↔ ∃ k, kb.StoresUnit k ∧ k.LooksLike l :=
  reachable.filed.isRenamingOfFact_iff

end KnowledgeBase

/-! ### Chaining forward -/

/-- A fact is known to a round if it is stored or collected. -/
def ForwardChaining.Round.Knows (round : Round) (kb : KnowledgeBase) (k : Literal) : Prop :=
  kb.StoresUnit k ∨ k ∈ round.collected.map (·.1)

/-- A derived fact is collected unless some known one looks like it. -/
theorem ForwardChaining.exists_collected {kb : KnowledgeBase} (reachable : kb.Reachable)
    {query head : Literal} {sources : List StepNumber} {round : Round}
    {join : Substitution × List StepNumber} (unanswered : round.answered = false)
    (new : ∀ k, round.Knows kb k → ¬ k.LooksLike (head.substitute join.1)) :
    ∃ number, (collect kb query head sources round join).collected =
      round.collected ++ [(head.substitute join.1, number)] := by
  have unstored : kb.isRenamingOfFact (head.substitute join.1) = false := by
    rw [← Bool.not_eq_true, reachable.isRenamingOfFact_iff]
    exact fun ⟨k, stored, alike⟩ => new k (Or.inl stored) alike
  have uncollected :
      isRenamingOf (head.substitute join.1) (round.collected.map (·.1)) = false := by
    rw [← Bool.not_eq_true, isRenamingOf_iff]
    exact fun ⟨k, collected, alike⟩ => new k (Or.inr collected) alike
  unfold collect
  rw [if_neg (by simp [unanswered])]
  dsimp only
  rw [if_neg (by simp [unstored, uncollected])]
  exact ⟨_, rfl⟩

namespace KnowledgeBase

variable {kb : KnowledgeBase}

/-- **The test for renamings finds the variants** among candidates, and among the stored unit
clauses, that repeat their variables where the literal does if they look like it. Under the same
condition chaining forward collects every derived fact that is no variant of a known one. -/
theorem Reachable.isRenaming_iff_isVariantOf (reachable : kb.Reachable) :
    (∀ (l : Literal) (candidates : List Literal), (∀ k ∈ candidates, k.RepeatsLike l) →
      (isRenamingOf l candidates ↔ ∃ k ∈ candidates, k.IsVariantOf l)) ∧
    (∀ l : Literal, (∀ k, kb.StoresUnit k → k.RepeatsLike l) →
      (kb.isRenamingOfFact l ↔ ∃ k, kb.StoresUnit k ∧ k.IsVariantOf l)) ∧
    ∀ (query head : Literal) (sources : List StepNumber) (round : ForwardChaining.Round)
      (join : Substitution × List StepNumber), round.answered = false →
      (∀ k, round.Knows kb k → k.RepeatsLike (head.substitute join.1)) →
      (∀ k, round.Knows kb k → ¬ k.IsVariantOf (head.substitute join.1)) →
      ∃ number, (ForwardChaining.collect kb query head sources round join).collected =
        round.collected ++ [(head.substitute join.1, number)] := by
  refine ⟨fun l candidates repeats => isRenamingOf_iff_isVariantOf repeats,
    fun l repeats => ?_, fun query head sources round join unanswered repeats new => ?_⟩
  · rw [reachable.isRenamingOfFact_iff]
    refine exists_congr fun k => and_congr_right fun stored => ?_
    rw [Literal.isVariantOf_iff]
    exact ⟨fun alike => ⟨alike, repeats k stored alike⟩, And.left⟩
  · refine ForwardChaining.exists_collected reachable unanswered fun k knows alike => ?_
    exact new k knows (alike.isVariantOf (repeats k knows alike))

/-- The knowledge base that was told `Trusts(x, y)`. -/
def trusting : KnowledgeBase :=
  (KnowledgeBase.tellAll { procedure := .forwardChaining }
    [.atom (.predicate "Trusts" [.var ⟨"x", none⟩, .var ⟨"y", none⟩])]).1

/-- `Trusts(y, x)`. -/
def trustedBy : Literal :=
  .positive (.predicate "Trusts" [.var ⟨"y", none⟩, .var ⟨"x", none⟩])

/-- The fact is found where its variables change places. -/
theorem isRenaming_iff_isVariantOf_trusting :
    trusting.Reachable ∧ (∀ k, trusting.StoresUnit k → k.RepeatsLike trustedBy) ∧
      trusting.isRenamingOfFact trustedBy ∧ ∃ k, trusting.StoresUnit k ∧ k.IsVariantOf trustedBy := by
  have reachable : trusting.Reachable := .tellAll (.initial _) _
  have repeats : ∀ k, trusting.StoresUnit k → k.RepeatsLike trustedBy := by
    have literals : trusting.clauses.toList.map Clause.literals =
        [[.positive (.predicate "Trusts" [.var ⟨"x", some 0⟩, .var ⟨"y", some 1⟩])]] := by cbv
    intro k stored _
    rw [storesUnit_iff, literals, List.mem_singleton] at stored
    rw [List.singleton_inj.1 stored]
    decide
  have passes : trusting.isRenamingOfFact trustedBy := by cbv
  exact ⟨reachable, repeats, passes,
    (reachable.isRenaming_iff_isVariantOf.2.1 trustedBy repeats).1 passes⟩

/-- The knowledge base that was told `P(z, z)`. -/
def reflexiveFact : KnowledgeBase :=
  (KnowledgeBase.tellAll { procedure := .forwardChaining }
    [.atom (.predicate "P" [.var ⟨"z", none⟩, .var ⟨"z", none⟩])]).1

/-- `P(x, y)`. -/
def distinctVariables : Literal :=
  .positive (.predicate "P" [.var ⟨"x", none⟩, .var ⟨"y", none⟩])

/-- `P(x, y)` passes the test against `P(z, z)`, which is less general. -/
theorem isRenamingOfFact_reflexiveFact :
    reflexiveFact.Reachable ∧ reflexiveFact.isRenamingOfFact distinctVariables ∧
      ¬ ∃ k, reflexiveFact.StoresUnit k ∧ k.IsVariantOf distinctVariables := by
  refine ⟨.tellAll (.initial _) _, by cbv, fun ⟨k, stored, isVariant⟩ => ?_⟩
  have literals : reflexiveFact.clauses.toList.map Clause.literals =
      [[.positive (.predicate "P" [.var ⟨"z", some 0⟩, .var ⟨"z", some 0⟩])]] := by cbv
  rw [storesUnit_iff, literals, List.mem_singleton] at stored
  have pattern := isVariant.pattern
  rw [List.singleton_inj.1 stored] at pattern
  exact absurd pattern (by decide)

end KnowledgeBase

end ClausalReasoner
