/-
This file says that backward chaining finds every answer. What definite clauses entail they derive,
since the atoms that they derive, over terms with variables, are a model of them. A goal of which an
instance is derived unifies with the head of a fresh copy of the clause that derives the instance:
the variables of the copy are new, so one replacement gives them what the derivation gives them and
leaves everything that was met before as it was. It respects the unifier, and the search goes on
with goals of which instances are derived.

What is found is told in the variables of the query as it was asked. Variables that the search has
made are told as they are. If the query has one of them, two variables are told as one, and some
answers are lost. This cannot happen when the query carries none of the indices that are handed out.
-/

import ClausalReasoner.Proofs.BackwardSoundness
import ClausalReasoner.Proofs.ForwardCompleteness

namespace ClausalReasoner

universe u

/-! ### What definite clauses derive -/

/-- The atoms that definite clauses derive. They may have variables. -/
inductive Derivable (cs : List Clause) : Atom → Prop
  | apply {c : Clause} {head : Literal} {value : Variable → Term} (member : c ∈ cs)
      (isHead : head ∈ c.positives)
      (below : ∀ l ∈ c.negatives, Derivable cs (l.atom.replace value)) :
      Derivable cs (head.atom.replace value)

/-- A derived atom is an instance of the head of a clause whose body is derived. -/
theorem Derivable.exists_clause {cs : List Clause} {a : Atom} (derivable : Derivable cs a) :
    ∃ c ∈ cs, ∃ head ∈ c.positives, ∃ value : Variable → Term, a = head.atom.replace value ∧
      ∀ l ∈ c.negatives, Derivable cs (l.atom.replace value) := by
  obtain ⟨member, isHead, below⟩ := derivable
  exact ⟨_, member, _, isHead, _, rfl, below⟩

/-- The atoms that definite clauses entail are derived. -/
theorem derivable_of_entails {cs : List Clause} (definite : ∀ c ∈ cs, c.isDefinite) {a : Atom}
    (entails : Entails.{u} (fun _ => True) cs (.atom a)) : Derivable cs a := by
  have valid : ∀ c ∈ cs, c.ValidIn (Interpretation.ofTerms.{u} (Derivable cs)) := by
    intro c member values
    obtain ⟨head, isHead⟩ := Clause.exists_head (definite c member)
    refine (Clause.holdsIn_iff_of_isDefinite (definite c member) isHead).2 fun body => ?_
    refine (Atom.holdsIn_ofTerms ..).2 (.apply member isHead fun l isBody => ?_)
    exact (Atom.holdsIn_ofTerms ..).1 (body l isBody)
  have derived := (Atom.holdsIn_ofTerms ..).1 (entails _ _ trivial valid fun v => ⟨.var v⟩)
  rwa [Atom.replace_var] at derived

/-- A copy is given the values of an instance of the clause without touching other variables. -/
theorem Clause.CopyOf.exists_joint {copy c : Clause} (isCopy : copy.CopyOf c)
    (given value : Variable → Term) :
    ∃ forward joint : Variable → Term,
      copy.positives = c.positives.map (Literal.replace forward) ∧
      copy.negatives = c.negatives.map (Literal.replace forward) ∧
      (∀ l ∈ c.literals, (l.replace forward).replace joint = l.replace given) ∧
      ∀ v, v ∉ Literal.occurrencesList copy.literals → joint v = value v := by
  obtain ⟨forward, back, literals, undone⟩ := isCopy
  refine ⟨forward, fun v => if v ∈ Literal.occurrencesList copy.literals then
    (back v).replace given else value v, ?_, ?_, fun l member => ?_, fun v outside => if_neg outside⟩
  · rw [positives, literals, List.filter_map]
    rfl
  · rw [negatives, literals, List.filter_map]
    rfl
  · have inside : l.replace forward ∈ copy.literals := literals ▸ List.mem_map_of_mem member
    rw [Literal.replace_congr fun v occurs => if_pos (mem_occurrencesList inside occurs),
      ← Literal.replace_replace, undone l member]

namespace BackwardChaining

variable {definites : List Clause} {depth first : Nat} {goals rest : List Literal}
  {θ : Substitution} {session last : Session} {answers : List GoalAnswer} {own : List Variable}
  {value : Variable → Term}

/-! ### Every answer is found -/

/-- Only the variables met before matter for respecting the bindings of a search. -/
theorem Confined.respects_of_agree {next : Nat} {joint : Variable → Term}
    (confined : Confined own first next goals θ) (respects : Substitution.Respects value θ)
    (agrees : ∀ v, v.InSearch own first next → joint v = value v) :
    Substitution.Respects joint θ := by
  intro v
  by_cases inside : v.InSearch own first next
  · rw [agrees v inside, ← respects v]
    exact Term.replace_congr fun w occurs => agrees w ((confined.bindings.value inside).1 w occurs)
  · rw [confined.bindings.value_of_not inside]
    rfl

/-- A goal of which an instance is derived is reduced by the clause that derives it: the unifier is
respected by a replacement that agrees with the given one on all variables met before, and the new
goals have derived instances again. -/
theorem exists_reduction {goal head : Literal} {next middle : Nat} {copy rule : Clause}
    {given : Variable → Term} (definite : rule.isDefinite)
    (older : Variable.AllBelow first own) (confined : Confined own first next (goal :: rest) θ)
    (respects : Substitution.Respects value θ)
    (derivable : ∀ l ∈ goal :: rest, Derivable definites (l.atom.replace value))
    (isHead : head ∈ rule.positives)
    (instances : goal.atom.replace value = head.atom.replace given)
    (below : ∀ l ∈ rule.negatives, Derivable definites (l.atom.replace given))
    (isCopy : copy.CopyOf rule) (fresh : ∀ v ∈ Literal.occurrencesList copy.literals,
      ∃ index, v.index = some index ∧ next ≤ index ∧ index < middle) :
    ∃ copied unifier joint, copy.positives = [copied] ∧
      copied.atom.unify (goal.substitute θ).atom = some unifier ∧
      Substitution.Respects joint (θ.compose unifier) ∧
      (∀ l ∈ body copy ++ rest, Derivable definites (l.atom.replace joint)) ∧
      ∀ v, v.InSearch own first next → joint v = value v := by
  obtain ⟨forward, joint, positives, negatives, onCopy, outside⟩ := isCopy.exists_joint given value
  have agrees : ∀ v, v.InSearch own first next → joint v = value v := by
    refine fun v inside => outside v fun occurs => ?_
    obtain ⟨index, indexed, above, _⟩ := fresh v occurs
    exact Nat.not_lt.2 above (inside.index_lt older confined.le indexed)
  have same : ∀ l ∈ goal :: rest, l.atom.replace joint = l.atom.replace value :=
    fun l member => Atom.replace_congr fun v occurs => agrees v (confined.goals l member v occurs)
  have respectsJoint := confined.respects_of_agree respects agrees
  have equal : (head.replace forward).atom.replace joint =
      (goal.substitute θ).atom.replace joint := by
    calc (head.replace forward).atom.replace joint
        = head.atom.replace given :=
          congrArg Literal.atom (onCopy head (List.mem_of_mem_filter isHead))
      _ = goal.atom.replace joint := by rw [same goal List.mem_cons_self, instances]
      _ = (goal.substitute θ).atom.replace joint :=
          (congrArg Literal.atom (Literal.replace_substitute respectsJoint goal)).symm
  obtain ⟨unifier, unifies, respectsUnifier⟩ := Atom.exists_unify equal
  refine ⟨head.replace forward, unifier, joint, ?_, unifies,
    respectsJoint.compose respectsUnifier (Atom.isFunctional_of_unify unifies),
    fun l member => ?_, agrees⟩
  · rw [positives, Clause.positives_of_isDefinite definite isHead]
    rfl
  · rcases List.mem_append.1 member with isBody | inRest
    · obtain ⟨copied, inCopy, rfl⟩ := List.mem_map.1 isBody
      rw [negatives] at inCopy
      obtain ⟨l, isNegative, rfl⟩ := List.mem_map.1 inCopy
      have becomes : (l.replace forward).atom.replace joint = l.atom.replace given :=
        congrArg Literal.atom (onCopy l (List.mem_of_mem_filter isNegative))
      exact becomes.symm ▸ below l isNegative
    · rw [same l (List.mem_cons_of_mem _ inRest)]
      exact derivable l (List.mem_cons_of_mem _ inRest)

/-- Whatever instances of the goals are derived, some answer is respected by a replacement that
gives the variables met before what they have in these instances. -/
theorem exists_answer_of_derivable (definite : ∀ c ∈ definites, c.isDefinite)
    (ran : prove definites depth goals θ session = some (answers, last))
    (older : Variable.AllBelow first own)
    (confined : Confined own first session.supply.next goals θ)
    (respects : Substitution.Respects value θ)
    (derivable : ∀ goal ∈ goals, Derivable definites (goal.atom.replace value)) :
    ∃ answer ∈ answers, ∃ other, Substitution.Respects other answer.bindings ∧
      ∀ v, v.InSearch own first session.supply.next → other v = value v := by
  induction depth generalizing goals θ session answers last value with
  | zero => exact absurd ran nofun
  | succ depth inductionHypothesis =>
    cases goals with
    | nil =>
      obtain ⟨rfl, _⟩ := Prod.mk.inj (Option.some.inj ran)
      exact ⟨_, List.mem_singleton_self _, value, respects, fun _ _ => rfl⟩
    | cons goal rest =>
      rw [prove_cons] at ran
      obtain ⟨_, _, forward⟩ := gather_steps next_le_of_reduceBy ran
      obtain ⟨rule, member, head, isHead, given, instances, below⟩ :=
        (derivable goal List.mem_cons_self).exists_clause
      obtain ⟨made, ⟨before, after, reduced, lower, _⟩, kept⟩ := forward rule member
      obtain ⟨isCopy, grows, fresh⟩ := rule.copyOf_renamed before.supply
      have widened := confined.mono lower
      obtain ⟨copied, unifier, joint, positives, unifies, respectsJoint, derivableRest, agrees⟩ :=
        exists_reduction (definite rule member) older widened respects derivable isHead instances
          below isCopy fresh
      have isFirst : (before.rename rule).1.positives.head? = some copied :=
        congrArg List.head? positives
      obtain ⟨_, _, never⟩ | ⟨other, otherUnifier, found, final, isOther, unifiesOther, proved, _,
        bindings, _⟩ := cases_of_reduceBy reduced
      · exact absurd (unifies.symm.trans (never copied isFirst)) nofun
      · obtain rfl := Option.some.inj (isFirst.symm.trans isOther)
        obtain rfl := Option.some.inj (unifies.symm.trans unifiesOther)
        have isPositive : copied ∈ (rule.renamed before.supply).1.positives :=
          List.mem_of_mem_head? isFirst
        obtain ⟨answer, inside, other, respectsOther, sameBefore⟩ := inductionHypothesis proved
          (widened.reduce grows fresh isPositive unifies) respectsJoint derivableRest
        have image : answer.bindings ∈ made.map GoalAnswer.bindings :=
          bindings ▸ List.mem_map_of_mem inside
        obtain ⟨recorded, isMade, same⟩ := List.mem_map.1 image
        refine ⟨recorded, kept recorded isMade, other, same ▸ respectsOther, fun v met => ?_⟩
        exact (sameBefore v (met.mono (Nat.le_trans lower grows))).trans
          (agrees v (met.mono lower))

/-- What backward chaining answers an atom with: the proofs have the bindings of the answers, as far
as they concern the variables of the atom. -/
theorem exists_of_ask_atom {kb last : KnowledgeBase} {a : Atom}
    {outcome : Except Failure Answer} (asked : ask depth kb (.atom a) = some (outcome, last)) :
    ∃ answers session, prove kb.definites depth [.positive a] ∅ kb.session =
        some (answers, session) ∧ last.supply = session.supply ∧
      ∃ answer, outcome = .ok answer ∧
        (∀ proof ∈ answer.proofs, ∃ found ∈ answers,
          proof.bindings = found.bindings.restrict a.vars) ∧
        ∀ found ∈ answers, ∃ proof ∈ answer.proofs,
          proof.bindings = found.bindings.restrict a.vars := by
  obtain ⟨⟨answers, session⟩, ran, same⟩ := Option.map_eq_some_iff.1 asked
  obtain ⟨rfl, rfl⟩ := Prod.mk.inj same
  refine ⟨answers, session, ran, rfl, _, rfl, fun proof member => ?_, fun found inside => ?_⟩
  · obtain ⟨found, inside, proved⟩ := List.mem_filterMap.1 member
    obtain ⟨number, _, rfl⟩ := Option.map_eq_some_iff.1 proved
    exact ⟨found, inside, rfl⟩
  · obtain ⟨number, step⟩ := Option.isSome_iff_exists.1 (isSome_step_of_prove ran found inside)
    refine ⟨session.derivation.proof number (found.bindings.restrict a.vars),
      List.mem_filterMap.2 ⟨found, inside, ?_⟩, rfl⟩
    rw [step]
    rfl

end BackwardChaining

/-! ### Answers in terms of the query -/

/-- What a replacement makes of an atom a substitution makes of it too. -/
theorem Atom.exists_substitute (a : Atom) (value : Variable → Term) :
    ∃ σ : Substitution, a.substitute σ = a.replace value := by
  refine ⟨.ofList (a.vars.map fun v => (v, value v)), Atom.replace_congr fun v occurs => ?_⟩
  have keys : ((a.vars.map fun v => (v, value v)).map Prod.fst).Nodup := by
    rw [List.map_map]
    exact (List.map_id a.vars).symm ▸ nodup_firstOccurrences _
  exact Substitution.value_of_get?_some (Substitution.get?_ofList_of_mem keys
    (List.mem_map_of_mem (f := fun v => (v, value v)) (Atom.mem_vars.2 occurs)))

namespace KnowledgeBase

variable {kb last : KnowledgeBase} {a : Atom} {depth : Nat} {outcome : Except Failure Answer}

/-- No variable of an atom carries an index that is handed out while the atom is asked for. -/
def AsksApart (kb last : KnowledgeBase) (a : Atom) : Prop :=
  ∀ v ∈ a.vars, ∀ index, v.index = some index →
    index < (kb.atQuery (.atom a)).supply.next ∨ last.supply.next ≤ index

/-- The atom with fresh variables that is asked for in place of an atom. -/
def freshAtom (kb : KnowledgeBase) (a : Atom) : Atom :=
  a.substitute ((Sentence.atom a).standardizeApart kb.supply).1.forward

/-- The bindings of the fresh variables of an atom, told in the variables of the atom. -/
def told (kb : KnowledgeBase) (a : Atom) (θ : Substitution) : Substitution :=
  (θ.restrict (kb.freshAtom a).vars).inTermsOf
    ((Sentence.atom a).standardizeApart kb.supply).1.reverse

/-- The variables that an atom is asked for with have indices below those of the search. -/
theorem allBelow_fresh (kb : KnowledgeBase) (a : Atom) :
    Variable.AllBelow (kb.atQuery (.atom a)).supply.next (kb.freshAtom a).occurrences := by
  obtain ⟨rename, renames⟩ := kb.exists_renamesVariables_query (.atom a)
  intro w occurs index indexed
  obtain ⟨v, here, isRenamed⟩ := Atom.mem_occurrences_replace.1 occurs
  rw [renames.value v] at isRenamed
  obtain rfl := List.mem_singleton.1 isRenamed
  have listed : v ∈ (Sentence.atom a).allVariables :=
    mem_firstOccurrences.2 (List.mem_append_left _ here)
  obtain ⟨_, same, _, below⟩ := Clause.index_of_renamesVariables renames listed
  obtain rfl := Option.some.inj (indexed.symm.trans same)
  exact below

/-- Telling an answer in the variables of the query can be undone where the query and the search
have no variable in common. -/
theorem AsksApart.exists_undone (apart : kb.AsksApart last a) {b : Atom}
    (uses : b.Uses (Variable.InSearch (kb.freshAtom a).occurrences
      (kb.atQuery (.atom a)).supply.next last.supply.next)) (value : Variable → Term) :
    ∃ change : Variable → Term,
      (b.substitute ((Sentence.atom a).standardizeApart kb.supply).1.reverse).replace change =
        b.replace value := by
  obtain ⟨rename, renames⟩ := kb.exists_renamesVariables_query (.atom a)
  have listed : ∀ {v}, v ∈ (Sentence.atom a).allVariables ↔ v ∈ a.vars := by
    intro v
    rw [Sentence.allVariables, Sentence.binders, Sentence.occurrences, List.append_nil]
    rfl
  refine ⟨fun v => if v ∈ a.vars then value (rename v) else value v, ?_⟩
  rw [Atom.substitute, Atom.replace_replace]
  refine Atom.replace_congr fun w occurs => ?_
  rcases uses w occurs with isOwn | ⟨index, indexed, above, below⟩
  · obtain ⟨v, here, isRenamed⟩ := Atom.mem_occurrences_replace.1 isOwn
    rw [renames.value v] at isRenamed
    obtain rfl := List.mem_singleton.1 isRenamed
    have member : v ∈ a.vars := Atom.mem_vars.2 here
    have back : ((Sentence.atom a).standardizeApart kb.supply).1.reverse.value (rename v) = .var v :=
      Substitution.value_of_get?_some (renames.reverse v (listed.2 member))
    rw [back]
    exact if_pos member
  · have unbound : ((Sentence.atom a).standardizeApart kb.supply).1.reverse.get? w = none := by
      refine Option.eq_none_iff_forall_ne_some.2 fun t found => ?_
      obtain ⟨v, member, rfl, _⟩ := renames.origin w t found
      obtain ⟨_, same, _, less⟩ := Clause.index_of_renamesVariables renames member
      obtain rfl := Option.some.inj (indexed.symm.trans same)
      exact Nat.not_lt.2 above less
    rw [Substitution.value_of_get?_none unbound]
    refine if_neg fun member => ?_
    rcases apart w member index indexed with less | more
    · exact Nat.not_lt.2 above less
    · exact Nat.not_lt.2 more below

/-- If the values of an instance respect the bindings that were found, it is an instance of what is
told. -/
theorem AsksApart.exists_instance (apart : kb.AsksApart last a) {θ : Substitution}
    {value : Variable → Term} (respects : Substitution.Respects value θ)
    (uses : ((kb.freshAtom a).substitute θ).Uses (Variable.InSearch (kb.freshAtom a).occurrences
      (kb.atQuery (.atom a)).supply.next last.supply.next)) :
    ∃ σ : Substitution,
      (kb.freshAtom a).replace value = (a.substitute (kb.told a θ)).substitute σ := by
  obtain ⟨change, undone⟩ := apart.exists_undone uses value
  obtain ⟨σ, substituted⟩ := (((kb.freshAtom a).substitute θ).substitute
    ((Sentence.atom a).standardizeApart kb.supply).1.reverse).exists_substitute change
  refine ⟨σ, ?_⟩
  calc (kb.freshAtom a).replace value
      = ((kb.freshAtom a).substitute θ).replace value := by
        rw [Atom.substitute, Atom.replace_replace]
        exact Atom.replace_congr fun v _ => (respects v).symm
    _ = (((kb.freshAtom a).substitute θ).substitute
          ((Sentence.atom a).standardizeApart kb.supply).1.reverse).substitute σ :=
        (substituted.trans undone).symm
    _ = (a.substitute (kb.told a θ)).substitute σ :=
        congrArg (Atom.substitute σ) (kb.substitute_told a θ).symm

/-- **Backward chaining is sound and complete.** Whenever it comes to an end in a reachable knowledge
base, it has answered the atom, and for every proof the definite clauses entail the atom under the
bindings of the proof. If the atom has no variable with an index that is handed out meanwhile, every
instance of the atom that the definite clauses entail is an instance of the atom under the bindings
of some proof. -/
theorem Reachable.answers_of_backwardChaining (reachable : kb.Reachable)
    (backward : kb.procedure = .backwardChaining)
    (asked : kb.ask depth (.atom a) = some (outcome, last)) :
    ∃ answer, outcome = .ok answer ∧
      (∀ proof ∈ answer.proofs,
        Entails.{u} (fun _ => True) (kb.clauses.toList.filter Clause.isDefinite)
          ((Sentence.atom a).substitute proof.bindings)) ∧
      (kb.AsksApart last a → ∀ r : Substitution,
        Entails.{u} (fun _ => True) (kb.clauses.toList.filter Clause.isDefinite)
          ((Sentence.atom a).substitute r) →
        ∃ proof ∈ answer.proofs, ∃ σ : Substitution,
          (Sentence.atom a).substitute r =
            ((Sentence.atom a).substitute proof.bindings).substitute σ) := by
  obtain ⟨found, ran, rfl⟩ := exists_of_ask asked
  have isFresh : kb.freshQuery (.atom a) = .atom (kb.freshAtom a) := rfl
  rw [backward, isFresh, Procedure.ask] at ran
  obtain ⟨answers, session, proved, supply, answer, rfl, backwards, forwards⟩ :=
    BackwardChaining.exists_of_ask_atom ran
  have definites : (kb.atQuery (.atom a)).definites = kb.clauses.toList.filter Clause.isDefinite :=
    reachable.filed.definites
  rw [definites] at proved
  have definite : ∀ c ∈ kb.clauses.toList.filter Clause.isDefinite, c.isDefinite :=
    fun c member => (List.mem_filter.1 member).2
  have older := kb.allBelow_fresh a
  have confined : BackwardChaining.Confined (kb.freshAtom a).occurrences
      (kb.atQuery (.atom a)).supply.next (kb.atQuery (.atom a)).supply.next
      [.positive (kb.freshAtom a)] ∅ :=
    ⟨Nat.le_refl _, List.forall_mem_singleton.2 fun v occurs => Or.inl occurs,
      Substitution.builtFrom_empty⟩
  obtain ⟨_, answered⟩ := BackwardChaining.answered_of_prove proved
  refine ⟨_, rfl, fun proof member Universe meaning _ valid => ?_, fun apart r entails => ?_⟩
  · obtain ⟨before, inside, rfl⟩ := List.mem_map.1 member
    obtain ⟨goal, among, bindings⟩ := backwards before inside
    have validFresh := (answered goal among).validIn definite valid older confined
      (.positive (kb.freshAtom a)) (List.mem_singleton_self _)
    rw [bindings]
    exact (congrArg (fun b => (Sentence.atom b).ValidIn meaning)
      (kb.substitute_told a goal.bindings)).mpr (validFresh.replace _)
  · obtain ⟨other, instances⟩ := kb.exists_replace_fresh a r.value
    have derivable : Derivable (kb.clauses.toList.filter Clause.isDefinite)
        ((kb.freshAtom a).replace other) := instances ▸ derivable_of_entails definite entails
    obtain ⟨goal, among, value, respects, agrees⟩ :=
      BackwardChaining.exists_answer_of_derivable definite proved older confined
        (Substitution.respects_empty other) (List.forall_mem_singleton.2 derivable)
    obtain ⟨proof, inside, bindings⟩ := forwards goal among
    have uses := Atom.Uses.substitute (fun v occurs => Or.inl occurs)
      ((answered goal among).uses confined)
    obtain ⟨σ, isInstance⟩ := apart.exists_instance respects (supply ▸ uses)
    refine ⟨_, List.mem_map_of_mem inside, σ, congrArg Sentence.atom ?_⟩
    calc a.substitute r
        = (kb.freshAtom a).replace other := instances.symm
      _ = (kb.freshAtom a).replace value :=
          Atom.replace_congr fun v occurs => (agrees v (Or.inl occurs)).symm
      _ = (a.substitute (kb.told a goal.bindings)).substitute σ := isInstance
      _ = _ := by rw [bindings]; rfl

/-- The knowledge base that chains backward and was told who is wise and what that means. -/
def lyceum : KnowledgeBase :=
  (KnowledgeBase.telling { procedure := .backwardChaining } platoIsWise).telling theWiseAreGood

theorem asksApart_lyceum (last : KnowledgeBase) : lyceum.AsksApart last someoneGood := by
  intro v member index indexed
  rw [List.mem_singleton.1 (show v ∈ [⟨"y", none⟩] from member)] at indexed
  exact absurd indexed nofun

set_option maxRecDepth 10000 in
/-- That someone is good is proved through the body of a rule, and every entailed instance is an
instance of what is proved. -/
theorem answers_of_backwardChaining_lyceum :
    ∃ answer last proof, lyceum.ask 3 (.atom someoneGood) = some (.ok answer, last) ∧
      lyceum.AsksApart last someoneGood ∧ proof ∈ answer.proofs ∧
      Entails.{u} (fun _ => True) (lyceum.clauses.toList.filter Clause.isDefinite)
        ((Sentence.atom someoneGood).substitute proof.bindings) ∧
      ∀ r : Substitution,
        Entails.{u} (fun _ => True) (lyceum.clauses.toList.filter Clause.isDefinite)
          ((Sentence.atom someoneGood).substitute r) →
        ∃ proof ∈ answer.proofs, ∃ σ : Substitution,
          (Sentence.atom someoneGood).substitute r =
            ((Sentence.atom someoneGood).substitute proof.bindings).substitute σ := by
  have reachable : lyceum.Reachable :=
    ((Reachable.initial _).telling platoIsWise).telling theWiseAreGood
  have procedure : lyceum.procedure = .backwardChaining := by cbv
  obtain ⟨answer, last, proof, asked, member⟩ := exists_of_isProved
    (by cbv : lyceum.isProved 3 (.atom someoneGood))
  obtain ⟨_, same, sound, complete⟩ :=
    reachable.answers_of_backwardChaining procedure asked
  obtain rfl := Except.ok.inj same
  exact ⟨answer, last, proof, asked, asksApart_lyceum last, member, sound proof member,
    complete (asksApart_lyceum last)⟩

/-- `Above(Roof(y), z)`. -/
def roofsAreAbove : Sentence :=
  .atom (.predicate "Above" [.app "Roof" [.var ⟨"y", none⟩], .var ⟨"z", none⟩])

/-- `Above(x, y)` for the variable `y` that carries the index 4. -/
def somethingAbove : Atom :=
  .predicate "Above" [.var ⟨"x", none⟩, .var ⟨"y", some 4⟩]

/-- `{x=Roof(House), y=Tree}` for the variable `y` that carries the index 4. -/
def houseAndTree : Substitution :=
  .ofList [(⟨"x", none⟩, .app "Roof" [.constant "House"]), (⟨"y", some 4⟩, .constant "Tree")]

/-- The knowledge base that chains backward and was told that roofs are above everything. -/
def village : KnowledgeBase :=
  KnowledgeBase.telling { procedure := .backwardChaining } roofsAreAbove

set_option maxRecDepth 10000 in
/-- The condition on the indices cannot be left out. The search gives the variable of the roof the
index 4, which the query has for what is below, so what is told is that roofs are above what they
are the roofs of; that the roof of the house is above the tree is entailed but no instance of it. -/
theorem not_answers_village :
    village.Reachable ∧ village.procedure = .backwardChaining ∧
      Entails.{0} (fun _ => True) (village.clauses.toList.filter Clause.isDefinite)
        ((Sentence.atom somethingAbove).substitute houseAndTree) ∧
      ∃ answer last, village.ask 2 (.atom somethingAbove) = some (.ok answer, last) ∧
        ∀ proof ∈ answer.proofs, ∀ σ : Substitution,
          (Sentence.atom somethingAbove).substitute houseAndTree ≠
            ((Sentence.atom somethingAbove).substitute proof.bindings).substitute σ := by
  have stored : (village.clauses.toList.filter Clause.isDefinite).map Clause.literals =
      [[.positive (.predicate "Above"
        [.app "Roof" [.var ⟨"y", some 0⟩], .var ⟨"z", some 1⟩])]] := by cbv
  have roof : village.bindingsOf 2 (.atom somethingAbove) =
      some [.ofList [(⟨"x", none⟩, .app "Roof" [.var ⟨"y", some 4⟩])]] := by cbv
  obtain ⟨answer, last, asked, bindings⟩ := exists_of_bindingsOf roof
  refine ⟨(Reachable.initial _).telling roofsAreAbove, by cbv, ?_, answer, last, asked, ?_⟩
  · intro Universe meaning _ valid values
    obtain ⟨c, member, literals⟩ := List.mem_map.1 (stored ▸ List.mem_singleton_self _)
    have valid := valid c member fun v =>
      if v.name = "y" then meaning.constant "House" else meaning.constant "Tree"
    rw [Clause.holdsIn, literals] at valid
    obtain ⟨l, isOnly, holds⟩ := valid
    rw [List.mem_singleton.1 isOnly] at holds
    exact holds
  · intro proof member σ same
    have isRoof : proof.bindings = .ofList [(⟨"x", none⟩, .app "Roof" [.var ⟨"y", some 4⟩])] :=
      List.mem_singleton.1 (bindings ▸ List.mem_map_of_mem member)
    rw [isRoof] at same
    have arguments : [Term.app "Roof" [.constant "House"], .constant "Tree"] =
        [.app "Roof" [σ.value ⟨"y", some 4⟩], σ.value ⟨"y", some 4⟩] :=
      congrArg Atom.arguments (Sentence.atom.inj same)
    have house : Term.constant "House" = σ.value ⟨"y", some 4⟩ :=
      (List.cons.inj (Term.app.inj (List.cons.inj arguments).1).2).1
    have tree : Term.constant "Tree" = σ.value ⟨"y", some 4⟩ :=
      (List.cons.inj (List.cons.inj arguments).2).1
    exact absurd (house.trans tree.symm) (by decide)

end KnowledgeBase

end ClausalReasoner
