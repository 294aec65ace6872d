import RubyIndent.Text.Kept

/-!
# Patterns

The small regular-expression language in which a grammar describes its
tokens: sets of characters, alternation, and greedy or lazy repetition.

Matching is anchored at the place where it starts and prefers the leftmost
alternative. It is written with a continuation that decides whether the text
after a match is acceptable: an operator offers its candidates in order of
preference and the first one that the continuation accepts is the match. This
is the whole account of backtracking.

Where a pattern offers a choice it has a branch point. One rule keeps
repetitions of nothing in check: no branch point is passed twice without a
character taken in between. Whatever could follow the second time is a
candidate of the first time already, so nothing is lost, and what is refused
is left to its own, later turn. The branch points passed since the last
character are handed on as the trail.

The rule also fixes which candidates come first, and there it matters where the
branch points of a repetition are. If a round always takes text there is one,
passed before each round. If a round may take nothing, `x*` is read as an
optional `x+`: one branch point is passed before the first round, and a second
one after each round.
-/

namespace RubyIndent.Pattern

open RubyIndent.Text

/-- A set of characters, given by ranges (both ends included) of which it
holds the members or, if `negated`, all other characters. -/
structure CharSet where
  ranges : List (Char × Char)
  negated : Bool := false
  deriving DecidableEq, Repr

namespace CharSet

def contains (set : CharSet) (c : Char) : Bool :=
  set.ranges.any (fun r => r.1 ≤ c && c ≤ r.2) != set.negated

def single (c : Char) : CharSet :=
  ⟨[(c, c)], false⟩

def any : CharSet :=
  ⟨[], true⟩

def anyOnLine : CharSet :=
  ⟨[('\n', '\n')], true⟩

end CharSet

inductive Greed where
  | greedy
  | reluctant
  deriving DecidableEq, Repr

inductive Regex where
  | empty
  | one (set : CharSet)
  | seq (first second : Regex)
  | alt (first second : Regex)
  | opt (greed : Greed) (inner : Regex)
  | star (greed : Greed) (inner : Regex)
  | plus (greed : Greed) (inner : Regex)
  deriving DecidableEq, Repr

def Regex.nullable : Regex → Bool
  | .empty => true
  | .one _ => false
  | .seq a b => a.nullable && b.nullable
  | .alt a b => a.nullable || b.nullable
  | .opt _ _ => true
  | .star _ _ => true
  | .plus _ a => a.nullable

variable {text : List Char}

/-! ## Branch points -/

/-- Where a part stands inside a pattern: the turns that lead to it, the last
one first. -/
abbrev Address := List Nat

/-- The branch points passed since a character was taken. -/
abbrev Trail := List Address

/-- Passes a branch point, unless that leads round in a circle. -/
def pass (point : Address) (trail : Trail)
    (go : Trail → Option (Cursor text)) : Option (Cursor text) :=
  if trail.contains point then none else go (point :: trail)

/-- Decides whether the text after a candidate match is acceptable, and if so
where the whole match ends. -/
abbrev Continuation (text : List Char) :=
  Cursor text → Trail → Option (Cursor text)

/-- A way to match at a place, given what has to follow. -/
abbrev Matcher (text : List Char) :=
  Cursor text → Trail → Continuation text → Option (Cursor text)

def Greed.choose (greed : Greed) (goOn stop : Unit → Option (Cursor text)) :
    Option (Cursor text) :=
  match greed with
  | .greedy => (goOn ()).orElse stop
  | .reluctant => (stop ()).orElse goOn

/-! ## Repetition

These are what follows a round of a repetition: the branch point between
another round and what has to follow the repetition. -/

/-- After a round that took text, where every round does. A branch point inside
the round cannot be met again before the next round takes text, so that the
trail starts afresh and only the place counts. -/
def afterText (point : Address) (greed : Greed) (round : Matcher text)
    (k : Continuation text) : Cursor text → Option (Cursor text) :=
  Cursor.keep fun c again =>
    greed.choose (fun _ => round c [point] fun d _ => again d)
      (fun _ => k c [point])

/-- After a round, where a round may take nothing. One more round that takes
nothing would pass the branch point again. -/
def afterRound (point : Address) (greed : Greed) (round : Matcher text)
    (k : Continuation text) (c : Cursor text) (trail : Trail) :
    Option (Cursor text) :=
  pass point trail fun trail =>
    greed.choose
      (fun _ => round c trail fun d trail =>
        if h : c.index < d.index then
          have := Cursor.length_rest_lt h
          afterRound point greed round k d trail
        else none)
      (fun _ => k c trail)
termination_by c.rest.length

/-! ## Matching -/

/-- Match at a place, given what has to follow. The address tells where the
pattern stands inside the whole pattern. -/
def Regex.run : Regex → Address → Matcher text
  | .empty, _ => fun c trail k => k c trail
  | .one set, _ => fun c _ k =>
    match c.next? with
    | some (ch, d) => if set.contains ch then k d [] else none
    | none => none
  | .seq a b, at_ => fun c trail k =>
    a.run (0 :: at_) c trail fun d trail => b.run (1 :: at_) d trail k
  | .alt a b, at_ => fun c trail k =>
    pass at_ trail fun trail =>
      (a.run (0 :: at_) c trail k).orElse fun _ => b.run (1 :: at_) c trail k
  | .opt greed a, at_ => fun c trail k =>
    pass at_ trail fun trail =>
      greed.choose (fun _ => a.run (0 :: at_) c trail k) (fun _ => k c trail)
  | .star greed a, at_ => fun c trail k =>
    let round := a.run (0 :: at_)
    pass at_ trail fun trail =>
      greed.choose
        (fun _ => round c trail
          (if a.nullable then afterRound (1 :: at_) greed round k
          else fun d _ => afterText at_ greed round k d))
        (fun _ => k c trail)
  | .plus greed a, at_ => fun c trail k =>
    let round := a.run (0 :: at_)
    round c trail
      (if a.nullable then afterRound at_ greed round k
      else fun d _ => afterText at_ greed round k d)

/-- The number of characters of the preferred match at the start of `s`, if
there is a match. -/
def Regex.matchLength? (r : Regex) (s : List Char) : Option Nat :=
  (r.run [] (Cursor.first s) [] fun c _ => some c).map Cursor.index

end RubyIndent.Pattern
