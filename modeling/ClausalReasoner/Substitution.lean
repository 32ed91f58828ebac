/-
This file holds substitutions: finite maps from variables to terms. A substitution is applied in a
single pass, so a bound variable that stands in the range of the substitution survives the pass.
Cascading removes such variables: the substitution is applied to its own range until nothing
changes any more. A round of cascading doubles the length of the chains of bindings that it
resolves, hence in a substitution without a cycle the rounds stop by themselves well before there
have been as many of them as there are bindings.

The bindings are kept in the order of their variables, which makes a substitution a canonical list:
two substitutions that bind the same variables to the same terms are equal.
-/

import ClausalReasoner.Sentence

namespace ClausalReasoner

/-- A substitution, held as its bindings in the order of their variables. -/
structure Substitution where
  bindings : List (Variable × Term) := []
  deriving DecidableEq, Inhabited, Repr

namespace Substitution

/-- The substitution that binds nothing. -/
abbrev empty : Substitution := ⟨[]⟩

instance : EmptyCollection Substitution := ⟨empty⟩

/-! ### Looking up and binding -/

/-- The term at the first entry for a variable. -/
def lookup (v : Variable) : List (Variable × Term) → Option Term
  | [] => none
  | (w, t) :: rest => if w = v then some t else lookup v rest

/-- The term that a variable is bound to, if it is bound. -/
def get? (σ : Substitution) (v : Variable) : Option Term :=
  lookup v σ.bindings

/-- Whether a variable is bound. -/
def binds (σ : Substitution) (v : Variable) : Bool :=
  (σ.get? v).isSome

/-- Place a binding among ordered bindings, over an older binding of the same variable. -/
def place (v : Variable) (t : Term) : List (Variable × Term) → List (Variable × Term)
  | [] => [(v, t)]
  | (w, u) :: rest =>
    if w = v then (v, t) :: rest
    else match v.order w with
      | .lt => (v, t) :: (w, u) :: rest
      | _ => (w, u) :: place v t rest

/-- Bind a variable to a term, in place of an older binding of that variable. -/
def insert (σ : Substitution) (v : Variable) (t : Term) : Substitution :=
  ⟨place v t σ.bindings⟩

/-- The substitution with the given bindings, of which the last one for a variable counts. -/
def ofList (entries : List (Variable × Term)) : Substitution :=
  entries.foldl (fun σ entry => σ.insert entry.1 entry.2) ∅

/-- The number of bindings. -/
def size (σ : Substitution) : Nat :=
  σ.bindings.length

/-- Whether nothing is bound. -/
def isEmpty (σ : Substitution) : Bool :=
  σ.bindings.isEmpty

/-- The bound variables in order. -/
def domain (σ : Substitution) : List Variable :=
  σ.bindings.map (·.1)

/-- The terms that variables are bound to, in the order of the variables. -/
def range (σ : Substitution) : List Term :=
  σ.bindings.map (·.2)

/-- Whether every variable that is bound is bound to a variable. -/
def isRenaming (σ : Substitution) : Bool :=
  σ.range.all Term.isVariable

theorem lookup_place (v w : Variable) (t : Term) (entries : List (Variable × Term)) :
    lookup w (place v t entries) = if v = w then some t else lookup w entries := by
  induction entries with
  | nil => simp [place, lookup]
  | cons entry rest inductionHypothesis =>
    obtain ⟨u, s⟩ := entry
    unfold place
    by_cases same : u = v
    · simp only [same, if_true, lookup]
      split <;> simp_all
    · simp only [same, if_false]
      split
      · simp only [lookup]
      · simp only [lookup, inductionHypothesis]
        by_cases found : v = w <;> by_cases here : u = w <;> simp_all

theorem mem_of_lookup {v : Variable} {t : Term} {entries : List (Variable × Term)}
    (found : lookup v entries = some t) : (v, t) ∈ entries := by
  induction entries with
  | nil => simp [lookup] at found
  | cons entry rest inductionHypothesis =>
    obtain ⟨w, u⟩ := entry
    by_cases same : w = v
    · simp only [lookup, same, if_true, Option.some.injEq] at found
      rw [same, found]
      exact List.mem_cons_self
    · simp only [lookup, same, if_false] at found
      exact List.mem_cons_of_mem _ (inductionHypothesis found)

@[simp]
theorem get?_insert (σ : Substitution) (v w : Variable) (t : Term) :
    (σ.insert v t).get? w = if v = w then some t else σ.get? w :=
  lookup_place v w t σ.bindings

@[simp]
theorem get?_empty (v : Variable) : (∅ : Substitution).get? v = none := rfl

end Substitution

/-! ### Applying a substitution -/

/-- What a substitution puts in the place of a variable: its term if it is bound, and the variable
itself otherwise. -/
def Substitution.value (σ : Substitution) (v : Variable) : Term :=
  (σ.get? v).getD (.var v)

/-- Replace the bound variables of a term by their terms, in one pass. -/
def Term.substitute (σ : Substitution) (t : Term) : Term :=
  t.replace σ.value

/-- Replace the bound variables in each term of a list. -/
def Term.substituteList (σ : Substitution) (ts : List Term) : List Term :=
  Term.replaceList σ.value ts

/-- Replace the bound variables in the arguments of an atom. -/
def Atom.substitute (σ : Substitution) (a : Atom) : Atom :=
  a.replace σ.value

/-- What becomes of a quantifier list: its variables follow a renaming, and go when they are
replaced by something that cannot be bound. -/
def replaceBinders (value : Variable → Term) (bound : List Variable) : List Variable :=
  bound.filterMap fun v => (value v).asVariable?

/-- A quantifier over a list of variables, or the bare body when the list is empty. -/
def Sentence.quantify (quantifier : Quantifier) : List Variable → Sentence → Sentence
  | [], body => body
  | bound, body => .quantified quantifier bound body

/-- Replace the bound variables of a substitution throughout a sentence. The quantifier lists are
not spared: their variables follow a renaming and are dropped otherwise, and a quantifier that is
left without variables disappears. -/
def Sentence.substitute (σ : Substitution) : Sentence → Sentence
  | .atom a => .atom (a.substitute σ)
  | .negation body => .negation (body.substitute σ)
  | .connected connective left right =>
    .connected connective (left.substitute σ) (right.substitute σ)
  | .quantified quantifier bound body =>
    .quantify quantifier (replaceBinders σ.value bound) (body.substitute σ)

namespace Substitution

/-! ### Cascading and composing -/

/-- The substitution with every term of its range changed. -/
def mapRange (σ : Substitution) (change : Term → Term) : Substitution :=
  ⟨σ.bindings.map fun entry => (entry.1, change entry.2)⟩

/-- One round of cascading applies the substitution to its own range, every binding seeing the
substitution as it was before the round. -/
def cascadeRound (σ : Substitution) : Substitution :=
  σ.mapRange (Term.substitute σ)

/-- Cascade for at most the given number of rounds, and stop when a round changes nothing. -/
def cascadeWithin : Nat → Substitution → Substitution
  | 0, σ => σ
  | rounds + 1, σ => if σ.cascadeRound = σ then σ else cascadeWithin rounds σ.cascadeRound

/-- Apply a substitution to its own range until nothing changes. If that comes to an end at all, then
it takes no more rounds than there are bindings, and one more to see that nothing changes. -/
def cascade (σ : Substitution) : Substitution :=
  cascadeWithin (σ.size + 1) σ

/-- Add a binding and cascade it through the others. -/
def bind (σ : Substitution) (v : Variable) (t : Term) : Substitution :=
  (σ.insert v t).cascade

/-- Add the bindings of `later` for the variables that `σ` leaves free. -/
def adjoin (σ later : Substitution) : Substitution :=
  later.bindings.foldl
    (fun joined entry => if σ.binds entry.1 then joined else joined.insert entry.1 entry.2) σ

/-- The later substitution applied to the range of the first one, with its bindings for other
variables added. -/
def joinedWith (first later : Substitution) : Substitution :=
  (first.mapRange (Term.substitute later)).adjoin later

/-- The substitution that stands for applying `first` and then `later`: the two are joined, and the
whole is cascaded. -/
def compose (first later : Substitution) : Substitution :=
  (first.joinedWith later).cascade

/-- A renaming read backwards. Bindings to anything but a variable have no counterpart. -/
def inverse (σ : Substitution) : Substitution :=
  ofList (σ.bindings.filterMap fun entry =>
    entry.2.asVariable?.map fun target => (target, Term.var entry.1))

end Substitution

end ClausalReasoner
