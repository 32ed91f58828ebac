/-
This file says which sentences are refused. A sentence is refused if its clauses contain the empty one
or two unit clauses that contradict each other, which is to say that their literals have opposite
polarities and a common instance up to the sign. The comparison gives fresh variables to the second
of two clauses and leaves those of the first as they are, so it can only be trusted to find an
instance if the first one has none of the indices that are handed out: `P(x)` with the first fresh
index does not contradict `not P(F(x))`, because the copy of the latter is `not P(F(x))` with this
index. Whatever the indices are, nothing else is refused, and a refused sentence leaves no trace.
-/

import ClausalReasoner.Proofs.FiledClauses

namespace ClausalReasoner

/-! ### Clauses that contradict each other -/

/-- Two literals have opposite polarities and atoms with a common instance. -/
structure Literal.Clashes (l m : Literal) : Prop where
  opposite : l.polarity ≠ m.polarity
  common : ∃ first second : Variable → Term, l.atom.replace first = m.atom.replace second

theorem Literal.Clashes.symm {l m : Literal} (clashes : l.Clashes m) : m.Clashes l := by
  obtain ⟨different, first, second, equal⟩ := clashes
  exact ⟨different.symm, second, first, equal.symm⟩

/-- Two unit clauses have opposite polarities, and their atoms unify once the variables of the second
are renamed apart from those of the first. -/
def Clause.Contradicts (c d : Clause) : Prop :=
  ∃ copy : Clause, copy.CopyOf d ∧ c.Apart copy ∧ ∃ l m, c.literals = [l] ∧ copy.literals = [m] ∧
    l.polarity ≠ m.polarity ∧ (l.atom.unify m.atom).isSome

/-- One of some clauses is empty, or two of them contradict each other. -/
def ContradictAtOnce (cs : List Clause) : Prop :=
  (∃ c ∈ cs, c.literals = []) ∨ ∃ c ∈ cs, ∃ d ∈ cs, c.Contradicts d

namespace Clause

variable {c d copy : Clause} {l m k : Literal}

/-- A literal of which a copy unifies with another literal clashes with it. -/
theorem CopyOf.clashes (isCopy : copy.CopyOf d) (ofCopy : copy.literals = [k])
    (different : l.polarity ≠ k.polarity) (unify : (l.atom.unify k.atom).isSome) :
    ∃ m, d.literals = [m] ∧ l.Clashes m := by
  obtain ⟨forward, _, literals, _⟩ := isCopy
  rw [ofCopy] at literals
  obtain ⟨m, single, renamed⟩ := List.map_eq_singleton_iff.1 literals.symm
  obtain ⟨θ, found⟩ := Option.isSome_iff_exists.1 unify
  subst renamed
  refine ⟨m, single, different, θ.value, fun v => (forward v).replace θ.value, ?_⟩
  exact (Atom.substitute_eq_of_unify found).trans (m.atom.replace_replace forward θ.value)

/-- A literal that clashes with another one unifies with every copy that is apart from it. -/
theorem CopyOf.unify (isCopy : copy.CopyOf d) (apart : c.Apart copy) (first : c.literals = [l])
    (second : d.literals = [m]) (clashes : l.Clashes m) :
    ∃ k, copy.literals = [k] ∧ l.polarity ≠ k.polarity ∧ (l.atom.unify k.atom).isSome := by
  obtain ⟨forward, back, literals, undone⟩ := isCopy
  obtain ⟨different, one, other, equal⟩ := clashes
  rw [second, List.map_singleton] at literals
  obtain ⟨joint, onFirst, onCopy⟩ := apart.exists_joint one fun v => (back v).replace other
  have left : l.atom.replace joint = l.atom.replace one :=
    congrArg Literal.atom (onFirst l (first ▸ List.mem_singleton_self l))
  have right : (m.replace forward).atom.replace joint = m.atom.replace other := by
    have image := onCopy (m.replace forward) (literals ▸ List.mem_singleton_self _)
    rw [← Literal.replace_replace, undone m (second ▸ List.mem_singleton_self m)] at image
    exact congrArg Literal.atom image
  obtain ⟨θ, found, _⟩ := Atom.exists_unify (left.trans (equal.trans right.symm))
  exact ⟨_, literals, different, by rw [found]; rfl⟩

theorem exists_variablesBelow (c : Clause) : ∃ bound, c.VariablesBelow bound := by
  unfold VariablesBelow
  induction Literal.occurrencesList c.literals with
  | nil => exact ⟨0, nofun⟩
  | cons v rest inductionHypothesis =>
    obtain ⟨bound, below⟩ := inductionHypothesis
    refine ⟨max bound (v.index.getD 0 + 1), fun w member index indexed => ?_⟩
    rcases List.mem_cons.1 member with rfl | later
    · rw [indexed]
      exact Nat.lt_of_lt_of_le (Nat.lt_succ_self index) (Nat.le_max_right _ _)
    · exact Nat.lt_of_lt_of_le (below w later index indexed) (Nat.le_max_left _ _)

/-- Contradicting each other is a matter of the instances of the literals. -/
theorem contradicts_iff :
    c.Contradicts d ↔ ∃ l m, c.literals = [l] ∧ d.literals = [m] ∧ l.Clashes m := by
  constructor
  · rintro ⟨copy, isCopy, _, l, k, first, ofCopy, different, unify⟩
    obtain ⟨m, second, clashes⟩ := isCopy.clashes ofCopy different unify
    exact ⟨l, m, first, second, clashes⟩
  · rintro ⟨l, m, first, second, clashes⟩
    obtain ⟨bound, below⟩ := c.exists_variablesBelow
    obtain ⟨isCopy, _, fresh⟩ := d.copyOf_renamed ⟨bound⟩
    have apart : c.Apart (d.renamed ⟨bound⟩).1 := by
      intro v here there
      obtain ⟨index, indexed, above, _⟩ := fresh v there
      exact Nat.not_lt.2 above (below v here index indexed)
    obtain ⟨k, ofCopy, unify⟩ := isCopy.unify apart first second clashes
    exact ⟨_, isCopy, apart, l, k, first, ofCopy, unify⟩

end Clause

namespace KnowledgeBase

variable {kb : KnowledgeBase} {cs units rest : List Clause} {c d : Clause} {l : Literal}
  {supply : Supply}

/-! ### Comparing unit clauses -/

/-- The supply when each of the later clauses has been given fresh variables. -/
def supplyAfterRenaming (rest : List Clause) (supply : Supply) : Supply :=
  rest.foldl (fun supply c => (c.renamed supply).2) supply

/-- The supply when each clause has been compared with all later ones. -/
def supplyAfterComparing : List Clause → Supply → Supply
  | [], supply => supply
  | _ :: rest, supply => supplyAfterComparing rest (supplyAfterRenaming rest supply)

theorem next_le_supplyAfterRenaming (rest : List Clause) (supply : Supply) :
    supply.next ≤ (supplyAfterRenaming rest supply).next :=
  next_le_foldl Supply.next (fun supply c _ => (c.copyOf_renamed supply).2.1) supply

theorem next_le_supplyAfterComparing (units : List Clause) (supply : Supply) :
    supply.next ≤ (supplyAfterComparing units supply).next := by
  induction units generalizing supply with
  | nil => exact Nat.le_refl _
  | cons c rest inductionHypothesis =>
    exact Nat.le_trans (next_le_supplyAfterRenaming rest supply) (inductionHypothesis _)

/-- No variable of a clause carries an index between two supplies. -/
def KeepsClear (c : Clause) (supply later : Supply) : Prop :=
  ∀ v ∈ Literal.occurrencesList c.literals, ∀ index, v.index = some index →
    index < supply.next ∨ later.next ≤ index

theorem KeepsClear.mono {supply' later' : Supply} {later : Supply}
    (clear : KeepsClear c supply later) (sooner : supply.next ≤ supply'.next)
    (longer : later'.next ≤ later.next) : KeepsClear c supply' later' := by
  intro v occurs index indexed
  have outside := clear v occurs index indexed
  omega

/-- A clause that keeps clear of the indices that are handed out is apart from the copy. -/
theorem KeepsClear.apart_renamed (clear : KeepsClear c supply (d.renamed supply).2) :
    c.Apart (d.renamed supply).1 := by
  intro v here there
  obtain ⟨index, indexed, above, below⟩ := (d.copyOf_renamed supply).2.2 v there
  have outside := clear v here index indexed
  omega

/-- Whether a literal contradicts a clause that was given fresh variables. -/
def contradictsCopy (l : Literal) (copy : Clause) : Bool :=
  match copy.literals with
  | [k] => l.polarity ≠ k.polarity && (l.atom.unify k.atom).isSome
  | _ => false

theorem contradictsCopy_iff {copy : Clause} : contradictsCopy l copy ↔
    ∃ k, copy.literals = [k] ∧ l.polarity ≠ k.polarity ∧ (l.atom.unify k.atom).isSome := by
  unfold contradictsCopy
  split
  · next k literals => simp [literals]
  · next several => simpa using fun k literals => absurd literals (several k)

theorem contradictsLater_cons (l : Literal) (d : Clause) (rest : List Clause) (supply : Supply) :
    contradictsLater l (d :: rest) supply =
      if contradictsCopy l (d.renamed supply).1 then (true, (d.renamed supply).2)
      else contradictsLater l rest (d.renamed supply).2 := rfl

/-- A later clause that is found to contradict a literal clashes with it. -/
theorem exists_of_contradictsLater (found : (contradictsLater l rest supply).1) :
    ∃ d ∈ rest, ∃ m, d.literals = [m] ∧ l.Clashes m := by
  induction rest generalizing supply with
  | nil => exact absurd found Bool.false_ne_true
  | cons d rest inductionHypothesis =>
    rw [contradictsLater_cons] at found
    split at found
    · next contradicts =>
      obtain ⟨k, literals, different, unify⟩ := contradictsCopy_iff.1 contradicts
      exact ⟨d, List.mem_cons_self, (d.copyOf_renamed supply).1.clashes literals different unify⟩
    · obtain ⟨e, member, clashes⟩ := inductionHypothesis found
      exact ⟨e, List.mem_cons_of_mem d member, clashes⟩

/-- Comparisons that find nothing give fresh variables to all later clauses. -/
theorem supply_contradictsLater (nothing : (contradictsLater l rest supply).1 = false) :
    (contradictsLater l rest supply).2 = supplyAfterRenaming rest supply := by
  induction rest generalizing supply with
  | nil => rfl
  | cons d rest inductionHypothesis =>
    rw [contradictsLater_cons] at nothing ⊢
    split at nothing
    · exact absurd nothing nofun
    · next consistent =>
      rw [if_neg consistent]
      exact inductionHypothesis nothing

/-- A later clause that clashes with a unit clause is found, if the unit clause keeps clear of the
indices that are handed out. -/
theorem contradictsLater_of_clashes {m : Literal} (first : c.literals = [l])
    (clear : KeepsClear c supply (supplyAfterRenaming rest supply)) (member : d ∈ rest)
    (second : d.literals = [m]) (clashes : l.Clashes m) : (contradictsLater l rest supply).1 := by
  induction rest generalizing supply with
  | nil => exact absurd member List.not_mem_nil
  | cons e rest inductionHypothesis =>
    have grows : supply.next ≤ (e.renamed supply).2.next := (e.copyOf_renamed supply).2.1
    have later : (e.renamed supply).2.next ≤ (supplyAfterRenaming (e :: rest) supply).next :=
      next_le_supplyAfterRenaming rest _
    rw [contradictsLater_cons]
    split
    · rfl
    · next consistent =>
      rcases List.mem_cons.1 member with rfl | further
      · have apart := (clear.mono (Nat.le_refl _) later).apart_renamed
        exact absurd (contradictsCopy_iff.2
          ((d.copyOf_renamed supply).1.unify apart first second clashes)) consistent
      · exact inductionHypothesis (clear.mono grows (Nat.le_refl _)) further

/-- What is found among unit clauses are two of them that contradict each other. -/
theorem exists_of_unitsContradict (found : unitsContradict units supply) :
    ∃ c ∈ units, ∃ d ∈ units, c.Contradicts d := by
  induction units generalizing supply with
  | nil => exact absurd found Bool.false_ne_true
  | cons c rest inductionHypothesis =>
    have later : ∀ {supply : Supply}, unitsContradict rest supply →
        ∃ b ∈ c :: rest, ∃ d ∈ c :: rest, b.Contradicts d := by
      intro supply found
      obtain ⟨b, inside, d, among, contradicts⟩ := inductionHypothesis found
      exact ⟨b, List.mem_cons_of_mem c inside, d, List.mem_cons_of_mem c among, contradicts⟩
    rw [unitsContradict] at found
    split at found
    · next l first =>
      rcases Bool.or_eq_true_iff.1 found with here | further
      · obtain ⟨d, member, m, second, clashes⟩ := exists_of_contradictsLater here
        exact ⟨c, List.mem_cons_self, d, List.mem_cons_of_mem c member,
          Clause.contradicts_iff.2 ⟨l, m, first, second, clashes⟩⟩
      · exact later further
    · exact later found

/-- Unit clauses that contradict each other are found, if they keep clear of the indices that are
handed out. -/
theorem unitsContradict_of_contradicts (areUnits : ∀ c ∈ units, c.isUnit)
    (clear : ∀ c ∈ units, KeepsClear c supply (supplyAfterComparing units supply))
    (inside : c ∈ units) (among : d ∈ units) (contradicts : c.Contradicts d) :
    unitsContradict units supply := by
  induction units generalizing supply with
  | nil => exact absurd inside List.not_mem_nil
  | cons b rest inductionHypothesis =>
    obtain ⟨l, m, first, second, clashes⟩ := Clause.contradicts_iff.1 contradicts
    obtain ⟨k, single⟩ := Clause.isUnit_iff.1 (areUnits b List.mem_cons_self)
    have grows := next_le_supplyAfterRenaming rest supply
    have clearLater : KeepsClear b supply (supplyAfterRenaming rest supply) :=
      (clear b List.mem_cons_self).mono (Nat.le_refl _) (next_le_supplyAfterComparing rest _)
    rw [unitsContradict, single]
    dsimp only
    cases found : (contradictsLater k rest supply).1 with
    | true => rfl
    | false =>
      have unmet : ∀ e ∈ b :: rest, ∀ m, e.literals = [m] → ¬ k.Clashes m := by
        intro e member m literals clashes
        rcases List.mem_cons.1 member with rfl | later
        · exact clashes.1 (congrArg _ (List.singleton_inj.1 (single.symm.trans literals)))
        · exact Bool.false_ne_true
            (found.symm.trans (contradictsLater_of_clashes single clearLater later literals clashes))
      have notFirst : ∀ {e m}, e.literals = [m] → e ∈ b :: rest → ¬ k = m → e ∈ rest := by
        intro e m literals member different
        refine (List.mem_cons.1 member).resolve_left fun same => different ?_
        exact List.singleton_inj.1 (single.symm.trans (same ▸ literals))
      rw [Bool.false_or, supply_contradictsLater found]
      refine inductionHypothesis (fun e member => areUnits e (List.mem_cons_of_mem b member))
        (fun e member => (clear e (List.mem_cons_of_mem b member)).mono grows (Nat.le_refl _)) ?_ ?_
      · exact notFirst first inside fun same => unmet d among m second (same ▸ clashes)
      · exact notFirst second among fun same => unmet c inside l first (same ▸ clashes.symm)

/-- Clauses that are seen to be unsatisfiable are contradictory. -/
theorem contradictAtOnce_of_obviouslyUnsatisfiable (seen : obviouslyUnsatisfiable cs supply) :
    ContradictAtOnce cs := by
  rcases Bool.or_eq_true_iff.1 seen with none | two
  · obtain ⟨c, member, isEmpty⟩ := List.any_eq_true.1 none
    exact Or.inl ⟨c, member, List.isEmpty_iff.1 isEmpty⟩
  · obtain ⟨c, inside, d, among, contradicts⟩ := exists_of_unitsContradict two
    exact Or.inr ⟨c, List.mem_of_mem_filter inside, d, List.mem_of_mem_filter among, contradicts⟩

/-- Contradictory clauses are seen to be unsatisfiable, if the units among them keep clear of the
indices that are handed out. -/
theorem obviouslyUnsatisfiable_of_contradictAtOnce
    (clear : ∀ c ∈ cs.filter Clause.isUnit,
      KeepsClear c supply (supplyAfterComparing (cs.filter Clause.isUnit) supply))
    (contradictory : ContradictAtOnce cs) : obviouslyUnsatisfiable cs supply := by
  rw [obviouslyUnsatisfiable, Bool.or_eq_true]
  rcases contradictory with ⟨c, member, none⟩ | ⟨c, inside, d, among, contradicts⟩
  · exact Or.inl (List.any_eq_true.2 ⟨c, member, List.isEmpty_iff.2 none⟩)
  · obtain ⟨l, m, first, second, _⟩ := Clause.contradicts_iff.1 contradicts
    refine Or.inr (unitsContradict_of_contradicts (fun _ => List.of_mem_filter) clear
      (List.mem_filter.2 ⟨inside, ?_⟩) (List.mem_filter.2 ⟨among, ?_⟩) contradicts)
    · exact Clause.isUnit_iff.2 ⟨l, first⟩
    · exact Clause.isUnit_iff.2 ⟨m, second⟩

/-! ### Telling -/

/-- The unit clauses of a sentence carry none of the indices that are handed out when they are
compared with each other. -/
def ComparesClearly (kb : KnowledgeBase) (s : Sentence) : Prop :=
  let units := (kb.clausesOf s).1.filter Clause.isUnit
  ∀ c ∈ units, KeepsClear c kb.supply (supplyAfterComparing units kb.supply)

theorem tell_eq_error_iff {s : Sentence} (new : s ∉ kb.sentences) (failure : Failure) :
    (kb.tell s).1 = .error failure ↔
      obviouslyUnsatisfiable (kb.clausesOf s).1 kb.supply ∧ failure = .unsatisfiableAssertion s := by
  have unknown : kb.sentences.contains s = false := by simpa using new
  rw [tell, unknown, if_neg Bool.false_ne_true, clausesOf]
  dsimp only
  split
  · next seen => simp [seen, eq_comm]
  · next unseen => simp [unseen]

/-- A refusal leaves the knowledge base as it was. -/
theorem tell_of_error {s : Sentence} {failure : Failure} (refused : (kb.tell s).1 = .error failure) :
    kb.tell s = (.error failure, kb) := by
  refine Prod.ext refused ?_
  rw [tell] at refused ⊢
  split
  · rfl
  · next new =>
    rw [if_neg new] at refused
    dsimp only at refused ⊢
    split
    · rfl
    · next satisfiable =>
      rw [if_neg satisfiable] at refused
      cases refused

/-- **Contradictory sentences are refused.** Of the sentences that were not told before, only those
are refused whose clauses are contradictory; all of these are refused that carry none of the indices
handed out for the comparison; and a refusal names the sentence and leaves the knowledge base as it
was. -/
theorem tell_refuses {s : Sentence} (new : s ∉ kb.sentences) :
    ((kb.tell s).1 = .error (.unsatisfiableAssertion s) →
      ContradictAtOnce (kb.clausesOf s).1) ∧
    (kb.ComparesClearly s → ContradictAtOnce (kb.clausesOf s).1 →
      (kb.tell s).1 = .error (.unsatisfiableAssertion s)) ∧
    ∀ failure, (kb.tell s).1 = .error failure →
      failure = .unsatisfiableAssertion s ∧ (kb.tell s).2 = kb ∧
        kb.tellAll [s] = (kb, some failure) := by
  refine ⟨fun refused => ?_, fun clear contradictory => ?_, fun failure refused => ?_⟩
  · exact contradictAtOnce_of_obviouslyUnsatisfiable ((tell_eq_error_iff new _).1 refused).1
  · exact (tell_eq_error_iff new _).2
      ⟨obviouslyUnsatisfiable_of_contradictAtOnce clear contradictory, rfl⟩
  · have unchanged := tell_of_error refused
    refine ⟨((tell_eq_error_iff new _).1 refused).2, congrArg Prod.snd unchanged, ?_⟩
    rw [tellAll, unchanged]

/-- `P(x) and not P(F(x))`, where the `x` of `P(x)` carries an index. -/
def deniedOfImage (index : Nat) : Sentence :=
  .and (.atom (.predicate "P" [.var ⟨"x", some index⟩]))
    (.negation (.atom (.predicate "P" [.app "F" [.var ⟨"x", none⟩]])))

theorem literals_deniedOfImage (index : Nat) :
    (({} : KnowledgeBase).clausesOf (deniedOfImage index)).1.map Clause.literals =
      [[.positive (.predicate "P" [.var ⟨"x", some index⟩])],
        [.negative (.predicate "P" [.app "F" [.var ⟨"x", none⟩]])]] := by
  cbv

/-- `P(F(x))` is an instance of `P(x)`, whatever the index. -/
theorem contradictAtOnce_deniedOfImage (index : Nat) :
    ContradictAtOnce (({} : KnowledgeBase).clausesOf (deniedOfImage index)).1 := by
  have literals := literals_deniedOfImage index
  obtain ⟨c, rest, clauses, first, others⟩ := List.map_eq_cons_iff.1 literals
  obtain ⟨d, more, ⟨⟩, second, _⟩ := List.map_eq_cons_iff.1 others
  rw [clauses]
  refine Or.inr ⟨c, List.mem_cons_self, d, List.mem_cons_of_mem c List.mem_cons_self,
    Clause.contradicts_iff.2 ⟨_, _, first, second, nofun, ?_⟩⟩
  exact ⟨fun _ => .app "F" [.var ⟨"x", none⟩], .var, rfl⟩

/-- The comparison hands out the first index only, so `x` may carry another one. -/
theorem tell_refuses_deniedOfImage :
    deniedOfImage 7 ∉ ({} : KnowledgeBase).sentences ∧
      ({} : KnowledgeBase).ComparesClearly (deniedOfImage 7) ∧
      ContradictAtOnce (({} : KnowledgeBase).clausesOf (deniedOfImage 7)).1 ∧
      ({} : KnowledgeBase).tell (deniedOfImage 7) =
        (.error (.unsatisfiableAssertion (deniedOfImage 7)), {}) ∧
      ({} : KnowledgeBase).tellAll [deniedOfImage 7] =
        ({}, some (.unsatisfiableAssertion (deniedOfImage 7))) := by
  have new : deniedOfImage 7 ∉ ({} : KnowledgeBase).sentences := List.not_mem_nil
  have clear : ({} : KnowledgeBase).ComparesClearly (deniedOfImage 7) := by
    have later : (supplyAfterComparing ((({} : KnowledgeBase).clausesOf (deniedOfImage 7)).1.filter
        Clause.isUnit) ({} : KnowledgeBase).supply).next = 1 := by cbv
    intro c member v occurs index indexed
    have literals : c.literals ∈ _ :=
      literals_deniedOfImage 7 ▸ List.mem_map_of_mem (List.mem_of_mem_filter member)
    right
    rw [later]
    simp only [List.mem_cons, List.not_mem_nil, or_false] at literals
    rcases literals with first | second
    · rw [first] at occurs
      rw [List.mem_singleton.1 occurs] at indexed
      obtain rfl := Option.some.inj indexed
      decide
    · rw [second] at occurs
      rw [List.mem_singleton.1 occurs] at indexed
      cases indexed
  obtain ⟨_, refused, unchanged⟩ := tell_refuses new
  have isRefused := refused clear (contradictAtOnce_deniedOfImage 7)
  obtain ⟨_, kept, told⟩ := unchanged _ isRefused
  exact ⟨new, clear, contradictAtOnce_deniedOfImage 7, Prod.ext isRefused kept, told⟩

/-- If `x` carries the first index, then it is taken for the fresh variable of the second clause. -/
theorem tell_deniedOfImage :
    deniedOfImage 0 ∉ ({} : KnowledgeBase).sentences ∧
      ContradictAtOnce (({} : KnowledgeBase).clausesOf (deniedOfImage 0)).1 ∧
      ∀ failure, (({} : KnowledgeBase).tell (deniedOfImage 0)).1 ≠ .error failure := by
  refine ⟨List.not_mem_nil, contradictAtOnce_deniedOfImage 0, fun failure refused => ?_⟩
  have accepted : obviouslyUnsatisfiable (({} : KnowledgeBase).clausesOf (deniedOfImage 0)).1
      ({} : KnowledgeBase).supply = false := by cbv
  have seen := ((tell_eq_error_iff List.not_mem_nil failure).1 refused).1
  exact Bool.false_ne_true (accepted.symm.trans seen)

end KnowledgeBase

end ClausalReasoner
