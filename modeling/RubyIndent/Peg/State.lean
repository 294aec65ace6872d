import RubyIndent.Peg.Grammar

/-!
# The state of a parse

One parse works over one text and keeps its table of visited places from call
to call. Beside the cursor and the table the state holds the bindings of the
rule under evaluation, the failure that reached furthest to the right (the one
worth reporting), how deeply the parse stands inside negative lookahead (where
failures are expected and not worth reporting), and the context of the
actions.
-/

namespace RubyIndent.Peg

open RubyIndent.Text

/-- The bindings of the rule under evaluation, and where it started. -/
structure Frame (text : List Char) where
  start : Cursor text
  labels : Labels text := []

structure State (Ctx : Type) (text : List Char) where
  cursor : Cursor text
  memo : Memo (Cursor text) := {}
  frame : Frame text
  /-- The rule and place of the furthest failure. -/
  furthest : Option (RuleId × Cursor text) := none
  /-- The number of negative lookaheads around the cursor. -/
  quiet : Nat := 0
  growthRounds : Nat := 0
  context : Ctx

variable {Ctx : Type} {text : List Char}

namespace State

def startAt (cursor : Cursor text) (context : Ctx) : State Ctx text :=
  { cursor, frame := { start := cursor }, context }

def start (text : List Char) (context : Ctx) : State Ctx text :=
  startAt (.first text) context

def atEnd (s : State Ctx text) : Bool :=
  s.cursor.atEnd

/-- Keeps the failure that is furthest to the right, the later one of two at
the same place. Inside a negative lookahead failures are not kept. -/
def recordFailure (s : State Ctx text) (id : RuleId) (place : Cursor text) :
    State Ctx text :=
  if s.quiet > 0 then s
  else
    match s.furthest with
    | some (_, far) =>
      if place.index < far.index then s
      else { s with furthest := some (id, place) }
    | none => { s with furthest := some (id, place) }

@[simp] theorem memo_recordFailure (s : State Ctx text) (id : RuleId)
    (place : Cursor text) : (s.recordFailure id place).memo = s.memo := by
  unfold recordFailure
  repeat' split
  all_goals rfl

/-- Goes back to the place and the bindings of an earlier state. -/
def rewind (s earlier : State Ctx text) : State Ctx text :=
  { s with cursor := earlier.cursor, frame := earlier.frame }

def captures (s : State Ctx text) : Captures where
  input := text
  start := s.frame.start
  stop := s.cursor
  labels := s.frame.labels

def bindLabel (s : State Ctx text) (name : String)
    (value : Value (Cursor text)) : State Ctx text :=
  { s with frame := { s.frame with labels := (name, value) :: s.frame.labels } }

end State

theorem State.extends_self (s : State Ctx text) : s.memo.Extends s.memo :=
  .refl _

/-- The result of one evaluation that began in state `s`: what was matched, if
anything, and the state after it. Evaluation never forgets a visit; that is
why it ends, so the fact travels with every result. -/
structure Step (s : State Ctx text) where
  value : Option (Value (Cursor text))
  state : State Ctx text
  keeps : s.memo.Extends state.memo

namespace Step

def matched {s : State Ctx text} (r : Step s) : Bool :=
  r.value.isSome

end Step

namespace State

/-- Nothing matches, and nothing changes. -/
def refuse (s : State Ctx text) : Step s :=
  ⟨none, s, s.extends_self⟩

/-- The text from the cursor up to a place matches. -/
def accept (s : State Ctx text) (stop : Cursor text) : Step s :=
  ⟨some (.span s.cursor stop), { s with cursor := stop }, s.extends_self⟩

end State

end RubyIndent.Peg
