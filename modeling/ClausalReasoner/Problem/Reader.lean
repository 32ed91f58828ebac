/-
This file holds the readers that the grammar of problem files is built from. The text is a list of
characters each of which stands for one byte. A reader ends in one of three ways: it is done and
leaves the rest of the text, the text does not match, or the text is cut off before that can be
decided. The last two are kept apart because alternatives are only tried after a mismatch: a text
that is cut off could still become anything that it may be the beginning of.
-/

namespace ClausalReasoner

/-- How reading ends. -/
inductive Reading (Value : Type) where
  | done (value : Value) (rest : List Char)
  | mismatch
  | cutOff
  deriving Inhabited

/-- Something that reads a value from the front of a text. -/
def Reader (Value : Type) : Type :=
  List Char → Reading Value

namespace Reader

/-! ### Putting readers together -/

/-- Read nothing. -/
def give {Value : Type} (value : Value) : Reader Value :=
  fun text => .done value text

/-- Read one thing after another. -/
def followedBy {First Second : Type} (first : Reader First) (second : First → Reader Second) :
    Reader Second :=
  fun text =>
    match first text with
    | .done value rest => second value rest
    | .mismatch => .mismatch
    | .cutOff => .cutOff

instance : Monad Reader where
  pure := give
  bind := followedBy

/-- The reader that matches nothing. -/
def never {Value : Type} : Reader Value :=
  fun _ => .mismatch

instance {Value : Type} : Inhabited (Reader Value) := ⟨never⟩

/-- Read the second thing where the first does not match. -/
def otherwise {Value : Type} (first : Reader Value) (second : Unit → Reader Value) :
    Reader Value :=
  fun text =>
    match first text with
    | .mismatch => second () text
    | reading => reading

instance {Value : Type} : OrElse (Reader Value) := ⟨otherwise⟩

/-- Read something, or nothing where it does not match. -/
def optional {Value : Type} (reader : Reader Value) : Reader (Option Value) :=
  (do return some (← reader)) <|> give none

/-- Read something and what stands after it again and again, at most so many times, as long as it
matches. -/
def repeated {Value : Type} (reader : Reader Value) : (times : Nat) → Reader (List Value)
  | 0 => give []
  | times + 1 =>
    (do
      let first ← reader
      let rest ← repeated reader times
      return first :: rest) <|> give []

/-- Like `repeated`, but the end of the text too ends the repetition before what is cut off. -/
def repeatedToEnd {Value : Type} (reader : Reader Value) : (times : Nat) → Reader (List Value)
  | 0 => give []
  | times + 1 => fun text =>
    match reader text with
    | .done first rest =>
      match repeatedToEnd reader times rest with
      | .done others last => .done (first :: others) last
      | reading => reading
    | _ => .done [] text

/-- Read items with separators between them, at least one. A separator that no item follows is left
unread. -/
def separated {Value : Type} (bound : Nat) (separator : Reader Unit) (item : Reader Value) :
    Reader (List Value) := do
  let first ← item
  let rest ← repeated (do separator; item) bound
  return first :: rest

/-! ### Characters and words -/

/-- Read one character of a class. -/
def character (holds : Char → Bool) : Reader Char
  | [] => .cutOff
  | c :: rest => if holds c then .done c rest else .mismatch

/-- Read a fixed text. Being a part of it is all that the end of the text needs for a cut. -/
def exactly : List Char → Reader Unit
  | [] => give ()
  | expected :: more => fun text =>
    match text with
    | [] => .cutOff
    | c :: rest => if c = expected then exactly more rest else .mismatch

/-- Read a fixed text. -/
def token (text : String) : Reader Unit :=
  exactly text.toList

/-- Read as many characters of a class as there are. The text must go on behind them. -/
def manyOf (holds : Char → Bool) : Reader (List Char) :=
  fun text =>
    match text.dropWhile holds with
    | [] => .cutOff
    | rest => .done (text.takeWhile holds) rest

/-- Read characters of a class, at least one. -/
def someOf (holds : Char → Bool) : Reader (List Char) := do
  let first ← character holds
  let rest ← manyOf holds
  return first :: rest

/-! ### What is skipped between tokens -/

/-- Blanks, tabs and line ends. -/
def isBlank (c : Char) : Bool :=
  c = ' ' || c = '\t' || c = '\r' || c = '\n'

/-- Where in what is skipped one is. -/
inductive SkipPlace where
  | between
  | lineComment
  | blockComment

/-- Skip blanks and comments. A comment begins with a percent sign and goes on to the end of the
line, which is a line feed with or without a carriage return before it, or it is enclosed in signs
made of a slash and a star. `start` is where the comment that is being read began. What is not
skipped comes back, and whether the text went far enough to tell that there is nothing more to skip.
-/
def skipFrom : SkipPlace → (start : List Char) → List Char → List Char × Bool
  | .between, _, [] => ([], false)
  | .between, _, '/' :: [] => (['/'], false)
  | .between, _, '/' :: '*' :: rest => skipFrom .blockComment ('/' :: '*' :: rest) rest
  | .between, _, '%' :: rest => skipFrom .lineComment ('%' :: rest) rest
  | .between, _, c :: rest =>
    if isBlank c then skipFrom .between rest rest else (c :: rest, true)
  | .lineComment, start, [] => (start, false)
  | .lineComment, _, '\n' :: rest => skipFrom .between rest rest
  | .lineComment, _, '\r' :: '\n' :: rest => skipFrom .between rest rest
  | .lineComment, start, '\r' :: [] => (start, false)
  | .lineComment, start, '\r' :: _ :: _ => (start, true)
  | .lineComment, start, _ :: rest => skipFrom .lineComment start rest
  | .blockComment, start, [] => (start, false)
  | .blockComment, _, '*' :: '/' :: rest => skipFrom .between rest rest
  | .blockComment, start, _ :: rest => skipFrom .blockComment start rest

/-- Skip blanks and comments at the front of a text. -/
def skip (text : List Char) : List Char × Bool :=
  skipFrom .between text text

/-- Skip blanks and comments before something. -/
def skipped : Reader Unit :=
  fun text =>
    match skip text with
    | (rest, true) => .done () rest
    | (_, false) => .cutOff

/-- A fixed text, with what is skipped before and after it. -/
def around (text : String) : Reader Unit := do
  skipped
  token text
  skipped

end Reader

end ClausalReasoner
