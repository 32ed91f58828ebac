/-
This file shows that renaming the variables that are bound a second time keeps what a sentence says
and leaves no variable that is bound at two places. A bound variable is renamed together with
everything below its quantifier, the lists of further quantifiers included, so the replacement that
is carried along is a renaming: different variables of the sentence are never given the same name,
because a new name is one that nothing in the sentence and nothing invented before has.

The names that are taken only grow, and the variables that have been bound are exactly those that
were bound before and those of the quantifiers gone through. That is the invariant from which the
binders of the result are seen to be distinct.
-/

import ClausalReasoner.Proofs.NegationNormal

namespace ClausalReasoner

universe u

variable {Universe : Type u} {meaning : Interpretation Universe} {values : Assignment Universe}

/-- What is made of the variables inside a sentence while its binders are renamed: different
variables stay different, and the names that they are given are taken, as are those of the
variables bound so far. -/
structure BinderNames.Renames (names : BinderNames) (inside : Variable → Prop)
    (change : Variable → Variable) : Prop where
  injective : ∀ v w, inside v → inside w → change v = change w → v = w
  taken : ∀ v, inside v → (change v).name ∈ names.taken
  seen : ∀ v ∈ names.seen, v.name ∈ names.taken

namespace BinderNames

variable {names : BinderNames} {inside : Variable → Prop} {change : Variable → Variable}

theorem mem_taken_fresh {name : String} :
    name ∈ names.fresh.2.taken ↔ name = names.fresh.1.name ∨ name ∈ names.taken :=
  List.mem_cons

theorem Renames.mono (renames : names.Renames inside change) {later : BinderNames}
    (grown : ∀ name ∈ names.taken, name ∈ later.taken)
    (seen : ∀ v ∈ later.seen, v.name ∈ later.taken) : later.Renames inside change :=
  ⟨renames.injective, fun v member => grown _ (renames.taken v member), seen⟩

/-! ### Going through one quantifier list -/

/-- What going through a quantifier list leads to. -/
structure Binds (names : BinderNames) (inside : Variable → Prop) (vs : List Variable)
    (start : Variable → Variable) (binders : List Variable) (change : Variable → Variable)
    (last : BinderNames) : Prop where
  renames : last.Renames inside change
  grown : ∀ name ∈ names.taken, name ∈ last.taken
  mem_seen : ∀ v, v ∈ last.seen ↔ v ∈ names.seen ∨ v ∈ binders
  nodup : binders.Nodup
  unseen : ∀ v ∈ binders, v ∉ names.seen
  unlisted : ∀ v, v ∉ vs → change v = start v
  listed : ∀ v ∈ vs, change v ∈ binders ∨ change v = start v ∧ v ∈ binders
  origin : ∀ v ∈ binders, v ∈ vs ∨ v.name ∉ names.taken

/-- A variable that was bound before is given a new name. -/
theorem Binds.consSeen {v : Variable} {vs binders : List Variable}
    {start : Variable → Variable} {last : BinderNames} (renames : names.Renames inside start)
    (rest : Binds { names.fresh.2 with seen := names.fresh.1 :: names.fresh.2.seen } inside vs
      (fun u => if u = v then names.fresh.1 else start u) binders change last) :
    Binds names inside (v :: vs) start (names.fresh.1 :: binders) change last := by
  have new := names.fresh_notMem_taken
  refine ⟨rest.renames, fun name old => rest.grown name (mem_taken_fresh.2 (Or.inr old)),
    fun u => ?_, List.nodup_cons.2 ⟨fun again => ?_, rest.nodup⟩, fun u member bound => ?_,
    fun u absent => ?_, fun u member => ?_, fun u member => ?_⟩
  · rw [rest.mem_seen, List.mem_cons, List.mem_cons, or_assoc]
    exact or_left_comm
  · exact rest.unseen _ again List.mem_cons_self
  · rcases List.mem_cons.1 member with rfl | later
    · exact new (renames.seen _ bound)
    · exact rest.unseen u later (List.mem_cons_of_mem _ bound)
  · obtain ⟨different, later⟩ := List.ne_and_not_mem_of_not_mem_cons absent
    rw [rest.unlisted u later, if_neg different]
  · by_cases later : u ∈ vs
    · rcases rest.listed u later with found | ⟨kept, found⟩
      · exact Or.inl (List.mem_cons_of_mem _ found)
      · by_cases same : u = v
        · rw [kept, if_pos same]
          exact Or.inl List.mem_cons_self
        · rw [kept, if_neg same]
          exact Or.inr ⟨rfl, List.mem_cons_of_mem _ found⟩
    · have same : u = v := (List.mem_cons.1 member).resolve_right later
      rw [rest.unlisted u later, if_pos same]
      exact Or.inl List.mem_cons_self
  · rcases List.mem_cons.1 member with rfl | later
    · exact Or.inr new
    · refine (rest.origin u later).imp (List.mem_cons_of_mem _) fun untaken old => ?_
      exact untaken (mem_taken_fresh.2 (Or.inr old))

/-- A variable that is bound for the first time keeps its name. -/
theorem Binds.consUnseen {v : Variable} {vs binders : List Variable}
    {start : Variable → Variable} {last : BinderNames} (unbound : v ∉ names.seen)
    (rest : Binds { names with seen := v :: names.seen } inside vs start binders change last) :
    Binds names inside (v :: vs) start (v :: binders) change last := by
  refine ⟨rest.renames, rest.grown, fun u => ?_,
    List.nodup_cons.2 ⟨fun again => ?_, rest.nodup⟩, fun u member bound => ?_,
    fun u absent => ?_, fun u member => ?_, fun u member => ?_⟩
  · rw [rest.mem_seen, List.mem_cons, List.mem_cons, or_assoc]
    exact or_left_comm
  · exact rest.unseen _ again List.mem_cons_self
  · rcases List.mem_cons.1 member with rfl | later
    · exact unbound bound
    · exact rest.unseen u later (List.mem_cons_of_mem _ bound)
  · exact rest.unlisted u (List.not_mem_of_not_mem_cons absent)
  · by_cases later : u ∈ vs
    · refine (rest.listed u later).imp (List.mem_cons_of_mem _) ?_
      exact And.imp_right (List.mem_cons_of_mem _)
    · have same : u = v := (List.mem_cons.1 member).resolve_right later
      rw [rest.unlisted u later, same]
      exact Or.inr ⟨rfl, List.mem_cons_self⟩
  · rcases List.mem_cons.1 member with rfl | later
    · exact Or.inl List.mem_cons_self
    · exact (rest.origin u later).imp_left (List.mem_cons_of_mem _)

theorem Renames.bindAll {vs : List Variable} {start : Variable → Variable}
    (renames : names.Renames inside start) (known : ∀ v ∈ vs, v.name ∈ names.taken) :
    Binds names inside vs start (names.bindAll vs start).1 (names.bindAll vs start).2.1
      (names.bindAll vs start).2.2 := by
  induction vs generalizing names start with
  | nil =>
    exact ⟨renames, fun _ old => old, fun v => (or_iff_left List.not_mem_nil).symm, List.nodup_nil,
      fun v member => absurd member List.not_mem_nil, fun _ _ => rfl,
      fun v member => absurd member List.not_mem_nil, fun v member => absurd member List.not_mem_nil⟩
  | cons v vs inductionHypothesis =>
    have later : ∀ u ∈ vs, u.name ∈ names.taken := fun u member =>
      known u (List.mem_cons_of_mem _ member)
    rw [BinderNames.bindAll]
    split
    · refine Binds.consSeen renames (inductionHypothesis ⟨fun u w first second same => ?_,
        fun u member => ?_, fun u bound => ?_⟩ fun u member => ?_)
      · have new : ∀ u, inside u → names.fresh.1 ≠ start u := fun u member same =>
          names.fresh_notMem_taken (same ▸ renames.taken u member)
        split at same
        · next here =>
          split at same
          · next there => rw [here, there]
          · exact absurd same (new w second)
        · split at same
          · exact absurd same.symm (new u first)
          · exact renames.injective u w first second same
      · split
        · exact List.mem_cons_self
        · exact List.mem_cons_of_mem _ (renames.taken u member)
      · rcases List.mem_cons.1 bound with rfl | old
        · exact List.mem_cons_self
        · exact List.mem_cons_of_mem _ (renames.seen u old)
      · exact List.mem_cons_of_mem _ (later u member)
    · next unbound =>
      have unseen : v ∉ names.seen := fun bound => unbound (List.contains_iff_mem.2 bound)
      refine Binds.consUnseen unseen (inductionHypothesis ⟨renames.injective, renames.taken,
        fun u bound => ?_⟩ later)
      rcases List.mem_cons.1 bound with rfl | old
      · exact known u List.mem_cons_self
      · exact renames.seen u old

/-- What a quantifier makes of the variables, seen from the variables as they were given: those of
its list become binders of the result, and all others are kept apart from the binders. -/
structure Rebinds (names : BinderNames) (inside : Variable → Prop)
    (change : Variable → Variable) (bound binders : List Variable) (here : Variable → Variable)
    (last : BinderNames) : Prop where
  renames : last.Renames inside fun v => here (change v)
  grown : ∀ name ∈ names.taken, name ∈ last.taken
  mem_seen : ∀ v, v ∈ last.seen ↔ v ∈ names.seen ∨ v ∈ binders
  nodup : binders.Nodup
  unseen : ∀ v ∈ binders, v ∉ names.seen
  origin : ∀ w ∈ binders, w ∈ bound.map change ∨ w.name ∉ names.taken
  free : ∀ v, inside v → v ∉ bound → here (change v) = change v ∧ change v ∉ binders
  bound : ∀ v ∈ bound, here (change v) ∈ binders

theorem Renames.rebinds (renames : names.Renames inside change) {bound : List Variable}
    (within : ∀ v ∈ bound, inside v) :
    Rebinds names inside change bound (names.bindAll (bound.map change) id).1
      (names.bindAll (bound.map change) id).2.1 (names.bindAll (bound.map change) id).2.2 := by
  have image : names.Renames (fun w => ∃ v, inside v ∧ change v = w) id := by
    refine ⟨fun v w _ _ same => same, ?_, renames.seen⟩
    rintro _ ⟨v, member, rfl⟩
    exact renames.taken v member
  have known : ∀ w ∈ bound.map change, w.name ∈ names.taken := by
    intro w member
    obtain ⟨v, listed, rfl⟩ := List.mem_map.1 member
    exact renames.taken v (within v listed)
  have binds := image.bindAll known
  have unlisted : ∀ v, inside v → v ∉ bound → change v ∉ bound.map change := by
    intro v member absent listed
    obtain ⟨w, found, same⟩ := List.mem_map.1 listed
    exact absent (renames.injective w v (within w found) member same ▸ found)
  refine ⟨⟨fun v w first second same => ?_, fun v member => ?_, binds.renames.seen⟩, binds.grown,
    binds.mem_seen, binds.nodup, binds.unseen, binds.origin,
    fun v member absent => ⟨?_, fun listed => ?_⟩, fun v listed => ?_⟩
  · exact renames.injective v w first second
      (binds.renames.injective _ _ ⟨v, first, rfl⟩ ⟨w, second, rfl⟩ same)
  · exact binds.renames.taken _ ⟨v, member, rfl⟩
  · exact binds.unlisted _ (unlisted v member absent)
  · rcases binds.origin _ listed with again | untaken
    · exact unlisted v member absent again
    · exact untaken (renames.taken v member)
  · rcases binds.listed _ (List.mem_map_of_mem listed) with found | ⟨kept, found⟩
    · exact found
    · rw [kept]
      exact found

end BinderNames

namespace Sentence

variable {names : BinderNames} {inside : Variable → Prop} {change : Variable → Variable}

/-! ### The binders of the result are distinct -/

/-- All variables of a sentence, in atoms and in quantifier lists, are inside. -/
def Inside (inside : Variable → Prop) (s : Sentence) : Prop :=
  (∀ v ∈ s.occurrences, inside v) ∧ ∀ v ∈ s.binders, inside v

theorem Inside.connected {connective : Connective} {left right : Sentence}
    (within : (connected connective left right).Inside inside) :
    left.Inside inside ∧ right.Inside inside :=
  ⟨⟨fun v occurs => within.1 v (List.mem_append_left _ occurs),
      fun v bound => within.2 v (List.mem_append_left _ bound)⟩,
    fun v occurs => within.1 v (List.mem_append_right _ occurs),
    fun v bound => within.2 v (List.mem_append_right _ bound)⟩

theorem Inside.quantified {quantifier : Quantifier} {bound : List Variable} {body : Sentence}
    (within : (quantified quantifier bound body).Inside inside) :
    (∀ v ∈ bound, inside v) ∧ body.Inside inside :=
  ⟨fun v listed => within.2 v (List.mem_append_left _ listed), within.1,
    fun v bound => within.2 v (List.mem_append_right _ bound)⟩

theorem Inside.freeVars {s : Sentence} (within : s.Inside inside) : ∀ v ∈ s.freeVars, inside v :=
  fun v free => within.1 v (mem_occurrences_of_mem_freeVars free)

/-- What a quantifier becomes by renaming: an empty one may be dropped. -/
def requantify (dropping : Bool) (quantifier : Quantifier) (bound : List Variable)
    (body : Sentence) : Sentence :=
  if dropping then quantify quantifier bound body else .quantified quantifier bound body

section

variable {dropping : Bool} {quantifier : Quantifier} {bound : List Variable} {body : Sentence}

theorem binders_requantify :
    (requantify dropping quantifier bound body).binders = bound ++ body.binders := by
  cases dropping with
  | false => rfl
  | true => exact binders_quantify quantifier bound body

theorem mem_freeVars_requantify {v : Variable} :
    v ∈ (requantify dropping quantifier bound body).freeVars ↔ v ∈ body.freeVars ∧ v ∉ bound := by
  cases dropping with
  | false => exact mem_freeVars_quantified
  | true => exact mem_freeVars_quantify

theorem symbols_requantify :
    (requantify dropping quantifier bound body).symbols = body.symbols := by
  cases dropping with
  | false => rfl
  | true => exact symbols_quantify quantifier bound body

theorem holdsIn_requantify : (requantify dropping quantifier bound body).holdsIn meaning values ↔
    quantifier.holdsOver (body.holdsIn meaning) bound values := by
  cases dropping with
  | false => exact Iff.rfl
  | true => exact holdsIn_quantify quantifier bound body

theorem IsNegationNormal.requantify (normal : body.IsNegationNormal) :
    (requantify dropping quantifier bound body).IsNegationNormal := by
  cases dropping with
  | false => exact .quantified quantifier bound normal
  | true =>
    cases bound with
    | nil => exact normal
    | cons v vs => exact .quantified quantifier (v :: vs) normal

theorem Anchored.quantify {affirmed : Bool} {anchored : Variable → Prop}
    (given : (quantified quantifier bound body).Anchored affirmed anchored) :
    (quantify quantifier bound body).Anchored affirmed anchored := by
  cases bound with
  | nil => exact given.2.mono fun _ reach => reach.resolve_right List.not_mem_nil
  | cons v vs => exact given

theorem Anchored.requantify {affirmed : Bool} {anchored : Variable → Prop}
    (given : (quantified quantifier bound body).Anchored affirmed anchored) :
    (requantify dropping quantifier bound body).Anchored affirmed anchored := by
  cases dropping with
  | false => exact given
  | true => exact given.quantify

end

theorem renameBinders_quantified (dropping : Bool) (change : Variable → Variable)
    (quantifier : Quantifier) (bound : List Variable) (body : Sentence) (names : BinderNames) :
    (quantified quantifier bound body).renameBinders dropping change names =
      let binding := names.bindAll (bound.map change) id
      let inner := body.renameBinders true (fun v => binding.2.1 (change v)) binding.2.2
      (requantify dropping quantifier binding.1 inner.1, inner.2) := rfl

/-- What renaming binders does to the names: the taken ones grow, and the variables bound are those
bound before and those that the result binds, each of them once. -/
structure DistinctFrom (names last : BinderNames) (s : Sentence) : Prop where
  grown : ∀ name ∈ names.taken, name ∈ last.taken
  seen : ∀ v ∈ last.seen, v.name ∈ last.taken
  mem_seen : ∀ v, v ∈ last.seen ↔ v ∈ names.seen ∨ v ∈ s.binders
  nodup : s.binders.Nodup
  unseen : ∀ v ∈ s.binders, v ∉ names.seen

theorem distinctFrom_renameBinders {s : Sentence} (dropping : Bool)
    (renames : names.Renames inside change) (within : s.Inside inside) :
    DistinctFrom names (s.renameBinders dropping change names).2
      (s.renameBinders dropping change names).1 := by
  induction s generalizing dropping change names with
  | atom a =>
    exact ⟨fun _ old => old, renames.seen, fun v => (or_iff_left List.not_mem_nil).symm,
      List.nodup_nil, fun v member => absurd member List.not_mem_nil⟩
  | negation body inductionHypothesis =>
    have inner := inductionHypothesis dropping renames within
    exact ⟨inner.grown, inner.seen, inner.mem_seen, inner.nodup, inner.unseen⟩
  | connected connective left right leftHypothesis rightHypothesis =>
    have first := leftHypothesis dropping renames within.connected.1
    have second := rightHypothesis dropping (renames.mono first.grown first.seen)
      within.connected.2
    refine ⟨fun name old => second.grown name (first.grown name old), second.seen, fun v => ?_,
      List.nodup_append.2 ⟨first.nodup, second.nodup, fun v here w there same => ?_⟩,
      fun v member bound => ?_⟩
    · exact (second.mem_seen v).trans ((or_congr_left (first.mem_seen v)).trans
        (or_assoc.trans (or_congr_right List.mem_append.symm)))
    · exact second.unseen w there (same ▸ (first.mem_seen v).2 (Or.inr here))
    · rcases List.mem_append.1 member with here | there
      · exact first.unseen v here bound
      · exact second.unseen v there ((first.mem_seen v).2 (Or.inl bound))
  | quantified quantifier bound body inductionHypothesis =>
    have binding := renames.rebinds within.quantified.1
    have inner := inductionHypothesis true binding.renames within.quantified.2
    rw [renameBinders_quantified]
    refine ⟨fun name old => inner.grown name (binding.grown name old), inner.seen, fun v => ?_,
      ?_, fun v member bound => ?_⟩
    · rw [binders_requantify, List.mem_append, ← or_assoc, ← binding.mem_seen]
      exact inner.mem_seen v
    · rw [binders_requantify]
      refine List.nodup_append.2 ⟨binding.nodup, inner.nodup, fun v here w there same => ?_⟩
      exact inner.unseen w there (same ▸ (binding.mem_seen v).2 (Or.inr here))
    · rw [binders_requantify] at member
      rcases List.mem_append.1 member with here | there
      · exact binding.unseen v here bound
      · exact inner.unseen v there ((binding.mem_seen v).2 (Or.inl bound))

/-- A binder of the result is what a binder of the sentence became, or it was invented. -/
theorem forall_mem_binders_renameBinders {s : Sentence} (given : Variable → Prop)
    (dropping : Bool) (renames : names.Renames inside change) (within : s.Inside inside)
    (kept : ∀ v ∈ s.binders, given (change v)) (new : ∀ v, v.name ∉ names.taken → given v) :
    ∀ v ∈ (s.renameBinders dropping change names).1.binders, given v := by
  induction s generalizing dropping change names with
  | atom a => exact fun v absent => absurd absent List.not_mem_nil
  | negation body inductionHypothesis =>
    exact inductionHypothesis dropping renames within kept new
  | connected connective left right leftHypothesis rightHypothesis =>
    have between := distinctFrom_renameBinders dropping renames within.connected.1
    obtain ⟨keptLeft, keptRight⟩ := List.forall_mem_append.1 kept
    refine List.forall_mem_append.2
      ⟨leftHypothesis dropping renames within.connected.1 keptLeft new, ?_⟩
    exact rightHypothesis dropping (renames.mono between.grown between.seen) within.connected.2
      keptRight fun v untaken => new v fun old => untaken (between.grown _ old)
  | quantified quantifier bound body inductionHypothesis =>
    have binding := renames.rebinds within.quantified.1
    obtain ⟨keptHere, keptBelow⟩ := List.forall_mem_append.1 kept
    have here : ∀ v ∈ (names.bindAll (bound.map change) id).1, given v := by
      intro v member
      rcases binding.origin v member with renamed | untaken
      · obtain ⟨w, listed, rfl⟩ := List.mem_map.1 renamed
        exact keptHere w listed
      · exact new v untaken
    rw [renameBinders_quantified, binders_requantify]
    refine List.forall_mem_append.2 ⟨here, inductionHypothesis true binding.renames
      within.quantified.2 (fun v below => ?_) fun v untaken => new v fun old =>
        untaken (binding.grown _ old)⟩
    by_cases listed : v ∈ bound
    · exact here _ (binding.bound v listed)
    · rw [(binding.free v (within.quantified.2.2 v below) listed).1]
      exact keptBelow v below

/-! ### Renaming keeps what a sentence says -/

theorem mem_freeVars_renameBinders {s : Sentence} (dropping : Bool)
    (renames : names.Renames inside change) (within : s.Inside inside) {v : Variable} :
    v ∈ (s.renameBinders dropping change names).1.freeVars ↔ ∃ w ∈ s.freeVars, change w = v := by
  induction s generalizing dropping change names v with
  | atom a =>
    simp only [renameBinders, freeVars, Atom.mem_occurrences_replace, Term.occurrences,
      List.mem_singleton, eq_comm]
  | negation body inductionHypothesis => exact inductionHypothesis dropping renames within
  | connected connective left right leftHypothesis rightHypothesis =>
    have between := distinctFrom_renameBinders dropping renames within.connected.1
    have first := leftHypothesis dropping renames within.connected.1 (v := v)
    have second := rightHypothesis dropping (renames.mono between.grown between.seen)
      within.connected.2 (v := v)
    simp only [renameBinders, freeVars, List.mem_append, first, second, or_and_right, exists_or]
  | quantified quantifier bound body inductionHypothesis =>
    have binding := renames.rebinds within.quantified.1
    have inner := inductionHypothesis true binding.renames within.quantified.2 (v := v)
    rw [renameBinders_quantified, mem_freeVars_requantify, inner]
    constructor
    · rintro ⟨⟨w, free, rfl⟩, unbound⟩
      have absent : w ∉ bound := fun listed => unbound (binding.bound w listed)
      have kept := binding.free w (within.quantified.2.freeVars w free) absent
      exact ⟨w, mem_freeVars_quantified.2 ⟨free, absent⟩, kept.1.symm⟩
    · rintro ⟨w, free, rfl⟩
      obtain ⟨below, absent⟩ := mem_freeVars_quantified.1 free
      have kept := binding.free w (within.quantified.2.freeVars w below) absent
      exact ⟨⟨w, below, kept.1⟩, kept.2⟩

theorem mem_symbols_renameBinders {s : Sentence} {dropping : Bool} {change : Variable → Variable}
    {names : BinderNames} {symbol : Symbol} :
    symbol ∈ (s.renameBinders dropping change names).1.symbols ↔ symbol ∈ s.symbols := by
  induction s generalizing dropping change names with
  | atom a =>
    rw [renameBinders, symbols, symbols, Atom.mem_symbols_replace]
    refine or_iff_left fun new => ?_
    obtain ⟨v, _, inside⟩ := new
    exact absurd inside List.not_mem_nil
  | negation body inductionHypothesis => exact inductionHypothesis
  | connected connective left right leftHypothesis rightHypothesis =>
    rw [renameBinders, symbols, symbols, List.mem_append, List.mem_append, leftHypothesis,
      rightHypothesis]
  | quantified quantifier bound body inductionHypothesis =>
    rw [renameBinders_quantified, symbols_requantify, symbols, inductionHypothesis]

theorem IsNegationNormal.renameBinders {s : Sentence} (normal : s.IsNegationNormal)
    (dropping : Bool) (change : Variable → Variable) (names : BinderNames) :
    (s.renameBinders dropping change names).1.IsNegationNormal := by
  induction normal generalizing dropping change names with
  | atom a => exact .atom _
  | negation a => exact .negation _
  | conjunction _ _ leftHypothesis rightHypothesis =>
    exact .conjunction (leftHypothesis dropping change names) (rightHypothesis dropping change _)
  | disjunction _ _ leftHypothesis rightHypothesis =>
    exact .disjunction (leftHypothesis dropping change names) (rightHypothesis dropping change _)
  | quantified quantifier bound _ inductionHypothesis =>
    rw [renameBinders_quantified]
    exact (inductionHypothesis true _ _).requantify

/-- The renamed sentence says under some values what the sentence said under the values that its
variables are given by what they became. -/
theorem holdsIn_renameBinders {s : Sentence} (dropping : Bool)
    (renames : names.Renames inside change) (within : s.Inside inside)
    (values : Assignment Universe) :
    (s.renameBinders dropping change names).1.holdsIn meaning values ↔
      s.holdsIn meaning fun v => values (change v) := by
  induction s generalizing dropping change names values with
  | atom a => exact a.holdsIn_replace meaning values _
  | negation body inductionHypothesis =>
    exact not_congr (inductionHypothesis dropping renames within values)
  | connected connective left right leftHypothesis rightHypothesis =>
    have between := distinctFrom_renameBinders dropping renames within.connected.1
    have first := leftHypothesis dropping renames within.connected.1 values
    have second := rightHypothesis dropping (renames.mono between.grown between.seen)
      within.connected.2 values
    rw [renameBinders, holdsIn, holdsIn, propext first, propext second]
  | quantified quantifier bound body inductionHypothesis =>
    have binding := renames.rebinds within.quantified.1
    have inner := inductionHypothesis true binding.renames within.quantified.2
    rw [renameBinders_quantified, holdsIn_requantify, holdsIn]
    refine quantifier.holdsOver_of_renaming binding.renames.injective within.quantified.1
      binding.bound binding.free inner (fun chosen matched agree => ?_) values
    exact holdsIn_congr_values fun v free => agree v (within.quantified.2.freeVars v free)

theorem Anchored.renameBinders {s : Sentence} {affirmed : Bool}
    {anchored wider : Variable → Prop} (given : s.Anchored affirmed anchored) (dropping : Bool)
    (renames : names.Renames inside change) (within : s.Inside inside)
    (wide : ∀ v, inside v → anchored v → wider (change v)) :
    (s.renameBinders dropping change names).1.Anchored affirmed wider := by
  induction s generalizing dropping change names affirmed anchored wider with
  | atom a => trivial
  | negation body inductionHypothesis =>
    exact inductionHypothesis given dropping renames within wide
  | connected connective left right leftHypothesis rightHypothesis =>
    have between := distinctFrom_renameBinders dropping renames within.connected.1
    have later := renames.mono between.grown between.seen
    cases connective with
    | biconditional =>
      exact ⟨⟨leftHypothesis given.1.1 dropping renames within.connected.1 wide,
          leftHypothesis given.1.2 dropping renames within.connected.1 wide⟩,
        rightHypothesis given.2.1 dropping later within.connected.2 wide,
        rightHypothesis given.2.2 dropping later within.connected.2 wide⟩
    | _ =>
      exact ⟨leftHypothesis given.1 dropping renames within.connected.1 wide,
        rightHypothesis given.2 dropping later within.connected.2 wide⟩
  | quantified quantifier bound body inductionHypothesis =>
    have binding := renames.rebinds within.quantified.1
    rw [renameBinders_quantified]
    refine Anchored.requantify ⟨fun effect v free unbound => ?_,
      inductionHypothesis given.2 true binding.renames within.quantified.2 fun v member => ?_⟩
    · obtain ⟨w, below, rfl⟩ :=
        (mem_freeVars_renameBinders true binding.renames within.quantified.2).1 free
      have absent : w ∉ bound := fun listed => unbound (binding.bound w listed)
      have known := within.quantified.2.freeVars w below
      rw [(binding.free w known absent).1]
      exact wide w known (given.1 effect w below absent)
    · intro reach
      by_cases listed : v ∈ bound
      · exact Or.inr (binding.bound v listed)
      · rw [(binding.free v member listed).1]
        exact Or.inl (wide v member (reach.resolve_right listed))

/-! ### From the names of the whole sentence -/

theorem renames_variableNames (s : Sentence) :
    BinderNames.Renames { taken := s.variableNames }
      (fun v => v ∈ s.occurrences ∨ v ∈ s.binders) id := by
  refine ⟨fun _ _ _ _ same => same, fun v member => ?_, fun v bound => absurd bound List.not_mem_nil⟩
  exact List.mem_map_of_mem (mem_firstOccurrences.2 (List.mem_append.2 member))

theorem inside_self (s : Sentence) : s.Inside fun v => v ∈ s.occurrences ∨ v ∈ s.binders :=
  ⟨fun _ => Or.inl, fun _ => Or.inr⟩

theorem nodup_binders_distinctBinders (s : Sentence) : s.distinctBinders.binders.Nodup :=
  (distinctFrom_renameBinders false s.renames_variableNames s.inside_self).nodup

theorem mem_freeVars_distinctBinders {s : Sentence} {v : Variable} :
    v ∈ s.distinctBinders.freeVars ↔ v ∈ s.freeVars := by
  rw [distinctBinders, mem_freeVars_renameBinders false s.renames_variableNames s.inside_self]
  exact exists_eq_right

/-- A variable that a sentence knows and does not bind is not bound after the renaming. -/
theorem notMem_binders_distinctBinders {s : Sentence} {v : Variable} (occurs : v ∈ s.occurrences)
    (unbound : v ∉ s.binders) : v ∉ s.distinctBinders.binders := by
  have known : v.name ∈ s.variableNames :=
    List.mem_map_of_mem (mem_firstOccurrences.2 (List.mem_append_left _ occurs))
  intro member
  refine forall_mem_binders_renameBinders (fun w => w ≠ v) false s.renames_variableNames
    s.inside_self (fun w bound same => ?_) (fun w untaken same => ?_) v member rfl
  · exact unbound (same ▸ bound)
  · exact untaken (same ▸ known)

theorem mem_symbols_distinctBinders {s : Sentence} {symbol : Symbol} :
    symbol ∈ s.distinctBinders.symbols ↔ symbol ∈ s.symbols :=
  mem_symbols_renameBinders

theorem IsNegationNormal.distinctBinders {s : Sentence} (normal : s.IsNegationNormal) :
    s.distinctBinders.IsNegationNormal :=
  normal.renameBinders false id _

theorem holdsIn_distinctBinders (s : Sentence) (values : Assignment Universe) :
    s.distinctBinders.holdsIn meaning values ↔ s.holdsIn meaning values :=
  holdsIn_renameBinders false s.renames_variableNames s.inside_self values

theorem Anchored.distinctBinders {s : Sentence} {affirmed : Bool} {anchored : Variable → Prop}
    (given : s.Anchored affirmed anchored) : s.distinctBinders.Anchored affirmed anchored :=
  given.renameBinders false s.renames_variableNames s.inside_self fun _ _ reach => reach

end Sentence

end ClausalReasoner
