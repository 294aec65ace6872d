/-!
# Readers

A reader takes something off the front of a text, or fails and takes nothing.
Readers are put together with the operations of the monad; of two
alternatives, the second starts where the first did.
-/

namespace RubyIndent.Text

abbrev Reader := StateT (List Char) Option

namespace Reader

variable {α : Type}

def satisfy (p : Char → Bool) : Reader Char := fun s =>
  match s with
  | c :: t => if p c then some (c, t) else none
  | [] => none

def char (c : Char) : Reader Unit := do
  let _ ← satisfy (· = c)

def exactly (w : List Char) : Reader Unit := fun s =>
  if w.isPrefixOf s then some ((), s.drop w.length) else none

def takeWhile (p : Char → Bool) : Reader (List Char) := fun s =>
  some (s.takeWhile p, s.dropWhile p)

def atEnd : Reader Unit := fun s =>
  if s.isEmpty then some ((), s) else none

def times : Nat → Reader α → Reader (List α)
  | 0, _ => pure []
  | n + 1, r => do return (← r) :: (← times n r)

/-- As many rounds as succeed, up to one that takes nothing. -/
def many (r : Reader α) (s : List Char) : Option (List α × List Char) :=
  match r s with
  | none => some ([], s)
  | some (a, t) =>
    if t.length < s.length then
      (many r t).map fun (as, u) => (a :: as, u)
    else some ([a], t)
termination_by s.length

def sepBy1 (item : Reader α) (sep : Reader Unit) : Reader (List α) := do
  let first ← item
  let others ← many (do sep; item)
  return first :: others

def sepBy (item : Reader α) (sep : Reader Unit) : Reader (List α) :=
  sepBy1 item sep <|> pure []

def option (r : Reader α) : Reader (Option α) :=
  some <$> r <|> pure none

def run? (r : Reader α) (s : List Char) : Option α :=
  (do let a ← r; atEnd; return a : Reader α) s |>.map Prod.fst

end Reader

end RubyIndent.Text
