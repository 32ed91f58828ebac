/-
This file shows that the text of a key can be read in one way only. A symbol comes after its length
in bytes, so it ends where its length says, whatever characters it consists of; a number ends where
the next character is no digit, and every number in a key is followed by such a character. What
follows an expression tells a constant from an application. Therefore two keys whose literals are
written in a given order are equal only if the literals agree, variables being told by their
numbers, and then one list of literals is what the other becomes under a change of variables.
-/

import Mathlib.Data.String.Basic
import ClausalReasoner.CanonicalKey
import ClausalReasoner.Proofs.FreshNames
import ClausalReasoner.Proofs.SaturatedClauses
import ClausalReasoner.Proofs.UnificationCorrect

namespace ClausalReasoner

/-! ### Numbers and symbols end by themselves -/

theorem isDigit_of_mem_toString {number : Nat} {c : Char} (inside : c ∈ (toString number).toList) :
    c.isDigit := by
  rw [Nat.toString_eq_ofList_toDigits, String.toList_ofList] at inside
  exact Nat.isDigit_of_mem_toDigits (by decide) (by decide) inside

theorem eq_of_toString_eq {m n : Nat} (same : toString m = toString n) : m = n :=
  eq_of_numbered_eq (congrArg ("" ++ ·) same)

/-- A text that does not begin with a digit. -/
def StartsWithoutDigit (text : List Char) : Prop :=
  ∀ c ∈ text.head?, ¬ c.isDigit

/-- A number ends before the first character that is no digit. -/
theorem number_append_inj {m n : Nat} {rest other : List Char} (first : StartsWithoutDigit rest)
    (second : StartsWithoutDigit other)
    (same : (toString m).toList ++ rest = (toString n).toList ++ other) : m = n ∧ rest = other := by
  have digits : ∀ (number : Nat) (text : List Char), StartsWithoutDigit text →
      ((toString number).toList ++ text).takeWhile Char.isDigit = (toString number).toList := by
    intro number text noDigit
    rw [List.takeWhile_append_of_pos fun c inside => isDigit_of_mem_toString inside]
    cases text with
    | nil => simp
    | cons c text =>
      rw [List.takeWhile_cons_of_neg (noDigit c rfl), List.append_nil]
  have front := congrArg (List.takeWhile Char.isDigit) same
  rw [digits m rest first, digits n other second] at front
  obtain rfl := eq_of_toString_eq (String.toList_inj.1 front)
  exact ⟨rfl, List.append_cancel_left same⟩

/-- Of two beginnings of one text that have the same length in bytes neither is longer. -/
theorem eq_of_utf8Len_eq {first second rest other : List Char}
    (same : first ++ rest = second ++ other)
    (length : String.utf8Len first = String.utf8Len second) : first = second ∧ rest = other := by
  rcases List.append_eq_append_iff.1 same with ⟨gap, rfl, rfl⟩ | ⟨gap, rfl, rfl⟩
  · rw [String.utf8Len_append] at length
    obtain rfl : gap = [] := String.utf8Len_eq_zero.1 (by omega)
    simp
  · rw [String.utf8Len_append] at length
    obtain rfl : gap = [] := String.utf8Len_eq_zero.1 (by omega)
    simp

theorem toList_keySymbol (name : String) :
    (keySymbol name).toList = (toString name.utf8ByteSize).toList ++ ':' :: name.toList := by
  simp [keySymbol]

/-- A symbol ends where its length says. -/
theorem keySymbol_append_inj {a b : String} {rest other : List Char}
    (same : (keySymbol a).toList ++ rest = (keySymbol b).toList ++ other) : a = b ∧ rest = other := by
  have colon : ∀ text : List Char, StartsWithoutDigit (':' :: text) := by
    rintro text c ⟨⟩
    decide
  rw [toList_keySymbol, toList_keySymbol, List.append_assoc, List.append_assoc,
    List.cons_append, List.cons_append] at same
  obtain ⟨size, names⟩ := number_append_inj (colon _) (colon _) same
  rw [← String.utf8Len_toList, ← String.utf8Len_toList] at size
  obtain ⟨equal, rest⟩ := eq_of_utf8Len_eq (List.cons.inj names).2 size
  exact ⟨String.toList_inj.1 equal, rest⟩

/-- A symbol begins with a digit. -/
theorem exists_toList_keySymbol (name : String) :
    ∃ c rest, (keySymbol name).toList = c :: rest ∧ c.isDigit := by
  rw [toList_keySymbol]
  cases digits : (toString name.utf8ByteSize).toList with
  | nil =>
    have some : Nat.toDigits 10 name.utf8ByteSize ≠ [] := Nat.toDigits_ne_nil
    rw [Nat.toString_eq_ofList_toDigits, String.toList_ofList] at digits
    exact absurd digits some
  | cons c rest =>
    exact ⟨c, _, rfl, isDigit_of_mem_toString (digits ▸ List.mem_cons_self)⟩

/-! ### Reading terms -/

/-- The replacement that leaves nothing of a variable but its number. -/
def byNumber (number : Variable → Nat) (v : Variable) : Term :=
  .var ⟨"", some (number v)⟩

/-- What follows a term in a key: a comma or a closing parenthesis comes next. -/
inductive Follows : List Char → Prop
  | comma (rest : List Char) : Follows (',' :: rest)
  | close (rest : List Char) : Follows (')' :: rest)

theorem Follows.startsWithoutDigit {rest : List Char} (follows : Follows rest) :
    StartsWithoutDigit rest := by
  cases follows <;> rintro c ⟨⟩ <;> decide

theorem Follows.ne_open {rest other : List Char} (follows : Follows rest) :
    rest ≠ '(' :: other := by
  cases follows <;> simp

namespace Term

variable {number other : Variable → Nat}

/-- The arguments of an application or an atom as they stand in a key. -/
def keyArguments (number : Variable → Nat) (ts : List Term) : List Char :=
  (",".intercalate (keyTextList number ts)).toList

theorem keyArguments_singleton (t : Term) :
    keyArguments number [t] = (t.keyText number).toList := by
  simp [keyArguments, keyTextList]

theorem keyArguments_cons_cons (t u : Term) (ts : List Term) :
    keyArguments number (t :: u :: ts) =
      (t.keyText number).toList ++ ',' :: keyArguments number (u :: ts) := by
  simp [keyArguments, keyTextList]

theorem toList_keyText_var (v : Variable) :
    ((Term.var v).keyText number).toList = '?' :: (toString (number v)).toList := by
  simp [keyText]

theorem toList_keyText_app (function : String) (ts : List Term) :
    ((Term.app function ts).keyText number).toList =
      (keySymbol function).toList ++ '(' :: (keyArguments number ts ++ [')']) := by
  simp [keyText, keyArguments]

/-- A term begins with a digit or a question mark. -/
theorem exists_toList_keyText (number : Variable → Nat) (t : Term) :
    ∃ c rest, (t.keyText number).toList = c :: rest ∧ (c.isDigit ∨ c = '?') := by
  cases t with
  | constant name =>
    obtain ⟨c, rest, text, digit⟩ := exists_toList_keySymbol name
    exact ⟨c, rest, text, Or.inl digit⟩
  | var v => exact ⟨_, _, toList_keyText_var v, Or.inr rfl⟩
  | app function ts =>
    obtain ⟨c, rest, text, digit⟩ := exists_toList_keySymbol function
    rw [toList_keyText_app, text]
    exact ⟨c, _, rfl, Or.inl digit⟩

/-- No argument begins with the closing parenthesis, so an empty list is told from any other. -/
theorem keyArguments_cons_ne (t : Term) (ts : List Term) (rest after : List Char) :
    keyArguments number (t :: ts) ++ rest ≠ ')' :: after := by
  obtain ⟨c, tail, text, first⟩ := t.exists_toList_keyText number
  have notClosing : c ≠ ')' := by
    rintro rfl
    rcases first with digit | mark
    · exact absurd digit (by decide)
    · exact absurd mark (by decide)
  cases ts with
  | nil =>
    rw [keyArguments_singleton, text]
    exact fun same => notClosing (List.cons.inj same).1
  | cons u ts =>
    rw [keyArguments_cons_cons, text]
    exact fun same => notClosing (List.cons.inj same).1

/-- A symbol is no variable. -/
theorem keySymbol_append_ne_var (name : String) (v : Variable) (rest after : List Char) :
    (keySymbol name).toList ++ rest ≠ ((Term.var v).keyText number).toList ++ after := by
  obtain ⟨c, tail, text, digit⟩ := exists_toList_keySymbol name
  rw [text, toList_keyText_var]
  intro same
  have mark : c = '?' := (List.cons.inj same).1
  exact absurd (mark ▸ digit) (by decide)

/-- A term ends by itself, and its text tells all but the names of its variables. -/
def EndsByItself (number other : Variable → Nat) (t : Term) : Prop :=
  ∀ (u : Term) (rest after : List Char), Follows rest → Follows after →
    (t.keyText number).toList ++ rest = (u.keyText other).toList ++ after →
      t.replace (byNumber number) = u.replace (byNumber other) ∧ rest = after

/-- Arguments that end by themselves end before the closing parenthesis. -/
theorem keyArguments_append_inj {ts us : List Term} {rest after : List Char}
    (each : ∀ t ∈ ts, EndsByItself number other t)
    (same : keyArguments number ts ++ ')' :: rest = keyArguments other us ++ ')' :: after) :
    replaceList (byNumber number) ts = replaceList (byNumber other) us ∧ rest = after := by
  induction ts generalizing us with
  | nil =>
    cases us with
    | nil => exact ⟨rfl, (List.cons.inj same).2⟩
    | cons u us => exact absurd same.symm (keyArguments_cons_ne u us _ _)
  | cons t ts inductionHypothesis =>
    obtain ⟨here, later⟩ := List.forall_mem_cons.1 each
    cases us with
    | nil => exact absurd same (keyArguments_cons_ne t ts _ _)
    | cons u us =>
      cases ts with
      | nil =>
        cases us with
        | nil =>
          rw [keyArguments_singleton, keyArguments_singleton] at same
          obtain ⟨equal, rest⟩ := here u _ _ (.close _) (.close _) same
          exact ⟨by rw [replaceList, equal]; rfl, (List.cons.inj rest).2⟩
        | cons w us =>
          rw [keyArguments_singleton, keyArguments_cons_cons, List.append_assoc] at same
          have rest := (here u _ _ (.close _) (.comma _) same).2
          exact absurd (List.cons.inj rest).1 (by decide)
      | cons v ts =>
        cases us with
        | nil =>
          rw [keyArguments_singleton, keyArguments_cons_cons, List.append_assoc] at same
          have rest := (here u _ _ (.comma _) (.close _) same).2
          exact absurd (List.cons.inj rest).1 (by decide)
        | cons w us =>
          rw [keyArguments_cons_cons, keyArguments_cons_cons, List.append_assoc,
            List.append_assoc] at same
          obtain ⟨equal, rest⟩ := here u _ _ (.comma _) (.comma _) same
          obtain ⟨others, after⟩ := inductionHypothesis later (List.cons.inj rest).2
          refine ⟨?_, after⟩
          rw [replaceList, equal, others]
          rfl

theorem endsByItself (t : Term) : EndsByItself number other t := by
  induction t with
  | constant name =>
    intro u rest after follows _ same
    cases u with
    | constant name' =>
      obtain ⟨rfl, equal⟩ := keySymbol_append_inj same
      exact ⟨rfl, equal⟩
    | var w => exact absurd same (keySymbol_append_ne_var name w _ _)
    | app g us =>
      rw [toList_keyText_app, List.append_assoc] at same
      exact absurd (keySymbol_append_inj same).2 follows.ne_open
  | var v =>
    intro u rest after first second same
    cases u with
    | constant name => exact absurd same.symm (keySymbol_append_ne_var name v _ _)
    | var w =>
      rw [toList_keyText_var, toList_keyText_var] at same
      obtain ⟨equal, rest⟩ := number_append_inj first.startsWithoutDigit
        second.startsWithoutDigit (List.cons.inj same).2
      exact ⟨by rw [replace, replace, byNumber, byNumber, equal], rest⟩
    | app g us =>
      rw [toList_keyText_app, List.append_assoc] at same
      exact absurd same.symm (keySymbol_append_ne_var g v _ _)
  | app f ts inductionHypothesis =>
    intro u rest after _ follows same
    rw [toList_keyText_app, List.append_assoc] at same
    cases u with
    | constant name => exact absurd (keySymbol_append_inj same).2.symm follows.ne_open
    | var w => exact absurd same (keySymbol_append_ne_var f w _ _)
    | app g us =>
      rw [toList_keyText_app, List.append_assoc] at same
      obtain ⟨rfl, inner⟩ := keySymbol_append_inj same
      rw [List.cons_append, List.cons_append, List.append_assoc, List.append_assoc] at inner
      obtain ⟨arguments, rest⟩ :=
        keyArguments_append_inj inductionHypothesis (List.cons.inj inner).2
      exact ⟨by rw [replace, replace, arguments], rest⟩

end Term

/-! ### Reading literals -/

variable {number other : Variable → Nat}

/-- An atom as it stands in a key, with what closes its literal. -/
def Atom.keyText (number : Variable → Nat) (a : Atom) : List Char :=
  (if a.isEquality then ['='] else (keySymbol a.symbol).toList) ++
    '(' :: (Term.keyArguments number a.arguments ++ [')', ';'])

/-- An atom begins with a digit or the sign of equality. -/
theorem Atom.exists_keyText (number : Variable → Nat) (a : Atom) :
    ∃ c rest, a.keyText number = c :: rest ∧ c ≠ '#' ∧ c ≠ '~' := by
  cases a with
  | predicate name ts =>
    obtain ⟨c, rest, text, digit⟩ := exists_toList_keySymbol name
    refine ⟨c, rest ++ '(' :: (Term.keyArguments number ts ++ [')', ';']), ?_, ?_, ?_⟩
    · show (keySymbol name).toList ++ _ = _
      rw [text]
      rfl
    · rintro rfl
      exact absurd digit (by decide)
    · rintro rfl
      exact absurd digit (by decide)
  | equality left right => exact ⟨'=', _, rfl, by decide, by decide⟩

theorem Atom.keyText_append_inj {a b : Atom} {rest after : List Char}
    (same : a.keyText number ++ rest = b.keyText other ++ after) :
    a.replace (byNumber number) = b.replace (byNumber other) ∧ rest = after := by
  have arguments : ∀ {ts us : List Term},
      Term.keyArguments number ts ++ [')', ';'] ++ rest =
        Term.keyArguments other us ++ [')', ';'] ++ after →
      Term.replaceList (byNumber number) ts = Term.replaceList (byNumber other) us ∧
        rest = after := by
    intro ts us same
    rw [List.append_assoc, List.append_assoc] at same
    obtain ⟨equal, tail⟩ :=
      Term.keyArguments_append_inj (fun t _ => t.endsByItself) same
    exact ⟨equal, (List.cons.inj tail).2⟩
  have noSign : ∀ (name : String) (text tail : List Char),
      (keySymbol name).toList ++ text ≠ '=' :: tail := by
    intro name text tail same
    obtain ⟨c, _, symbol, digit⟩ := exists_toList_keySymbol name
    rw [symbol] at same
    exact absurd ((List.cons.inj same).1 ▸ digit) (by decide)
  cases a with
  | predicate p ts =>
    cases b with
    | predicate q us =>
      have same : (keySymbol p).toList ++ ('(' :: (Term.keyArguments number ts ++ [')', ';'])) ++
          rest = (keySymbol q).toList ++ ('(' :: (Term.keyArguments other us ++ [')', ';'])) ++
          after := same
      rw [List.append_assoc, List.append_assoc] at same
      obtain ⟨rfl, inner⟩ := keySymbol_append_inj same
      obtain ⟨equal, tail⟩ := arguments (List.cons.inj inner).2
      exact ⟨by rw [replace, replace, equal], tail⟩
    | equality left right =>
      rw [keyText, List.append_assoc] at same
      exact absurd same (noSign p _ _)
  | equality left right =>
    cases b with
    | predicate q us =>
      rw [keyText, keyText, List.append_assoc, List.append_assoc] at same
      exact absurd same.symm (noSign q _ _)
    | equality left' right' =>
      obtain ⟨equal, tail⟩ := arguments (List.cons.inj (List.cons.inj same).2).2
      obtain ⟨first, second⟩ := List.cons.inj equal
      exact ⟨by rw [replace, replace, first, (List.cons.inj second).1], tail⟩

/-- A mark that may be left out is told from a text that does not begin with it. -/
theorem mark_append_inj {mark : Char} {p q : Bool} {rest after : List Char}
    (first : rest.head? ≠ some mark) (second : after.head? ≠ some mark)
    (same : (if p then [mark] else []) ++ rest = (if q then [mark] else []) ++ after) :
    p = q ∧ rest = after := by
  cases p <;> cases q
  · exact ⟨rfl, same⟩
  · have marked : rest = mark :: after := same
    exact absurd (congrArg List.head? marked) first
  · have marked : mark :: rest = after := same
    exact absurd (congrArg List.head? marked).symm second
  · exact ⟨rfl, (List.cons.inj same).2⟩

namespace Literal

theorem toList_keyText (l : Literal) :
    (l.keyText number).toList = (if l.reduced then ['#'] else []) ++
      ((if l.isNegative then ['~'] else []) ++ l.atom.keyText number) := by
  obtain ⟨a, polarity, reduced⟩ := l
  cases a <;> cases polarity <;> cases reduced <;>
    simp [keyText, isNegative, Atom.keyText, Atom.isEquality, Term.keyArguments]

/-- A literal ends by itself, and its text tells all but the names of its variables. -/
theorem keyText_append_inj {l m : Literal} {rest after : List Char}
    (same : (l.keyText number).toList ++ rest = (m.keyText other).toList ++ after) :
    l.replace (byNumber number) = m.replace (byNumber other) ∧ rest = after := by
  have noSign : ∀ (number : Variable → Nat) (k : Literal) (text : List Char),
      (k.atom.keyText number ++ text).head? ≠ some '~' := by
    intro number k text
    obtain ⟨c, tail, begins, _, noSign⟩ := k.atom.exists_keyText number
    rw [begins]
    exact fun same => noSign (Option.some.inj same)
  have noMark : ∀ (number : Variable → Nat) (k : Literal) (text : List Char),
      ((if k.isNegative then ['~'] else []) ++ (k.atom.keyText number ++ text)).head? ≠
        some '#' := by
    intro number k text
    obtain ⟨c, tail, begins, noMark, _⟩ := k.atom.exists_keyText number
    rw [begins]
    split
    · exact fun same => absurd (Option.some.inj same) (by decide)
    · exact fun same => noMark (Option.some.inj same)
  rw [toList_keyText, toList_keyText, List.append_assoc, List.append_assoc, List.append_assoc,
    List.append_assoc] at same
  obtain ⟨marks, signed⟩ := mark_append_inj (noMark number l rest) (noMark other m after) same
  obtain ⟨signs, atoms⟩ := mark_append_inj (noSign number l rest) (noSign other m after) signed
  obtain ⟨equal, tail⟩ := Atom.keyText_append_inj atoms
  obtain ⟨a, polarity, reduced⟩ := l
  obtain ⟨b, otherPolarity, otherReduced⟩ := m
  obtain rfl : reduced = otherReduced := marks
  obtain rfl : polarity = otherPolarity := by
    cases polarity <;> cases otherPolarity <;> simp_all [isNegative]
  exact ⟨by rw [replace, replace, equal], tail⟩

/-- The text of a literal is not empty. -/
theorem toList_keyText_append_ne_nil (number : Variable → Nat) (l : Literal) (rest : List Char) :
    (l.keyText number).toList ++ rest ≠ [] := by
  obtain ⟨c, tail, begins, _⟩ := l.atom.exists_keyText number
  rw [toList_keyText, begins]
  simp

/-- The texts of literals one after the other tell all but the names of the variables. -/
theorem map_replace_eq_of_join_eq {ls ms : List Literal}
    (same : String.join (ls.map (keyText number)) = String.join (ms.map (keyText other))) :
    ls.map (replace (byNumber number)) = ms.map (replace (byNumber other)) := by
  have characters := congrArg String.toList same
  clear same
  induction ls generalizing ms with
  | nil =>
    cases ms with
    | nil => rfl
    | cons m ms =>
      rw [List.map_cons, String.join_cons, String.toList_append] at characters
      exact absurd characters.symm (toList_keyText_append_ne_nil other m _)
  | cons l ls inductionHypothesis =>
    cases ms with
    | nil =>
      rw [List.map_cons, String.join_cons, String.toList_append] at characters
      exact absurd characters (toList_keyText_append_ne_nil number l _)
    | cons m ms =>
      rw [List.map_cons, List.map_cons, String.join_cons, String.join_cons,
        String.toList_append, String.toList_append] at characters
      obtain ⟨equal, rest⟩ := keyText_append_inj characters
      rw [List.map_cons, List.map_cons, equal, inductionHypothesis rest]

end Literal

/-! ### Keys of literals in a given order -/

/-- Variables that are numbered by their places in a list are found again at these places. -/
def atPlace (vs : List Variable) (v : Variable) : Term :=
  .var (((v.index.bind fun place => vs[place]?)).getD v)

theorem replace_byNumber_atPlace {vs : List Variable} {l : Literal}
    (listed : ∀ v ∈ l.occurrences, v ∈ vs) :
    (l.replace (byNumber vs.idxOf)).replace (atPlace vs) = l := by
  rw [Literal.replace_replace]
  have itself : l.atom.replace (fun v => (byNumber vs.idxOf v).replace (atPlace vs)) = l.atom := by
    refine Atom.replace_eq_self fun v occurs => ?_
    have found : vs[vs.idxOf v]? = some v := List.getElem?_idxOf (listed v occurs)
    simp [byNumber, Term.replace, atPlace, found]
  rw [Literal.replace, itself]

/-- Texts with nothing between them are joined. -/
theorem intercalate_empty_eq_join (texts : List String) :
    "".intercalate texts = String.join texts := by
  induction texts with
  | nil => rw [String.intercalate_nil, String.join_nil]
  | cons text rest inductionHypothesis =>
    cases rest with
    | nil => rw [String.intercalate_singleton, String.join_cons, String.join_nil, String.append_empty]
    | cons next rest =>
      have joined : String.join (text :: next :: rest) = text ++ String.join (next :: rest) :=
        String.join_cons
      rw [String.intercalate_cons_cons, inductionHypothesis, String.append_empty, joined]

/-- If lists of literals in a given order have the same key then a change of variables makes the one
into the other. -/
theorem exists_replace_of_keyInOrder_eq {ls ms : List Literal}
    (same : keyInOrder ls = keyInOrder ms) :
    ∃ value : Variable → Term, ls.map (Literal.replace value) = ms := by
  unfold keyInOrder at same
  dsimp only at same
  rw [intercalate_empty_eq_join, intercalate_empty_eq_join] at same
  have numbered := Literal.map_replace_eq_of_join_eq same
  refine ⟨fun v => (byNumber (Literal.varsList ls).idxOf v).replace
    (atPlace (Literal.varsList ms)), ?_⟩
  have back := congrArg (List.map (Literal.replace (atPlace (Literal.varsList ms)))) numbered
  rw [List.map_map, List.map_map] at back
  calc ls.map (Literal.replace fun v => (byNumber (Literal.varsList ls).idxOf v).replace
        (atPlace (Literal.varsList ms)))
      = ls.map (Literal.replace (atPlace (Literal.varsList ms)) ∘
          Literal.replace (byNumber (Literal.varsList ls).idxOf)) :=
        List.map_congr_left fun l _ => (Literal.replace_replace _ _ l).symm
    _ = ms.map (Literal.replace (atPlace (Literal.varsList ms)) ∘
          Literal.replace (byNumber (Literal.varsList ms).idxOf)) := back
    _ = ms := by
        refine (List.map_congr_left fun m member => ?_).trans (List.map_id ms)
        refine replace_byNumber_atPlace fun v occurs => mem_firstOccurrences.2 ?_
        exact List.mem_flatMap.2 ⟨m, member, occurs⟩

end ClausalReasoner
