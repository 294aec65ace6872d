import RubyIndent.Files.Path

/-!
# Glob patterns

Patterns for the paths to leave out. `?` is any character and `*` any text, a
slash included; `[…]` and `[!…]` are sets of characters. Two stars must stand
for whole directories, with the slash after them if there is one: they are any
part of a path up to a slash, or all of it.
-/

namespace RubyIndent.Glob

inductive Token where
  | char (c : Char)
  | anyChar
  | anyText
  /-- Any number of directories. -/
  | anyDirectories
  /-- A character in one of some ranges, or, if `negated`, in none. -/
  | oneOf (ranges : List (Char × Char)) (negated : Bool)
  deriving DecidableEq, Repr

/-! ## Reading patterns -/

def ranges : List Char → List (Char × Char)
  | lo :: '-' :: hi :: s => (lo, hi) :: ranges s
  | c :: s => (c, c) :: ranges s
  | [] => []

/-- Reads a set after its opening bracket and, if `negated`, its exclamation
mark. The first character is always a member, even a closing bracket. -/
def readSet? (negated : Bool) : List Char → Option (Token × List Char)
  | [] => none
  | c :: s =>
    match s.dropWhile (· ≠ ']') with
    | [] => none
    | _ :: rest =>
      some (.oneOf (ranges (c :: s.takeWhile (· ≠ ']'))) negated, rest)

theorem length_readSet?_lt {negated : Bool} {s rest : List Char} {t : Token}
    (h : readSet? negated s = some (t, rest)) : rest.length < s.length := by
  cases s with
  | nil => cases h
  | cons c s =>
    simp only [readSet?] at h
    split at h
    · cases h
    · rename_i d rest' hd
      have hle := (List.dropWhile_sublist (p := (· ≠ ']')) (l := s)).length_le
      simp only [Option.some.injEq, Prod.mk.injEq] at h
      rw [hd, List.length_cons] at hle
      rw [← h.2, List.length_cons]
      omega

/-- Reads a pattern from the given place on; `fresh` says that the place is
where a path component starts. -/
def readFrom? (fresh : Bool) (s : List Char) : Option (List Token) :=
  match s with
  | [] => some []
  | '?' :: t => (readFrom? false t).map (.anyChar :: ·)
  | '*' :: '*' :: '*' :: _ => none
  | '*' :: '*' :: '/' :: t =>
    if fresh then (readFrom? true t).map (.anyDirectories :: ·) else none
  | ['*', '*'] => if fresh then some [.anyDirectories] else none
  | '*' :: '*' :: _ => none
  | '*' :: t => (readFrom? false t).map (.anyText :: ·)
  | '[' :: '!' :: t =>
    match h : readSet? true t with
    | none => none
    | some (set, rest) =>
      have := length_readSet?_lt h
      (readFrom? false rest).map (set :: ·)
  | '[' :: t =>
    match h : readSet? false t with
    | none => none
    | some (set, rest) =>
      have := length_readSet?_lt h
      (readFrom? false rest).map (set :: ·)
  | c :: t => (readFrom? (c = '/') t).map (.char c :: ·)
termination_by s.length
decreasing_by all_goals simp only [List.length_cons]; omega

/-! ## Matching -/

def Token.accepts (c : Char) : Token → Bool
  | .char d => c = d
  | .anyChar => true
  | .oneOf rs negated => rs.any (fun r => r.1 ≤ c && c ≤ r.2) != negated
  | .anyText | .anyDirectories => false

/-- The ends of a text, the text itself first and the empty one last. -/
def ends : List Char → List (List Char)
  | [] => [[]]
  | c :: s => (c :: s) :: ends s

def endsAfterSlash : List Char → List (List Char)
  | [] => []
  | c :: s => if c = '/' then s :: endsAfterSlash s else endsAfterSlash s

def matchTokens : List Token → List Char → Bool
  | [], s => s.isEmpty
  | .anyText :: ts, s => (ends s).any (matchTokens ts)
  | .anyDirectories :: ts, s =>
    matchTokens ts s || (endsAfterSlash s).any (matchTokens ts) || matchTokens ts []
  | t :: ts, c :: s => t.accepts c && matchTokens ts s
  | _ :: _, [] => false

end RubyIndent.Glob

namespace RubyIndent

structure Glob where
  tokens : List Glob.Token
  deriving DecidableEq, Repr

namespace Glob

def ofText? (s : String) : Option Glob :=
  (readFrom? true s.toList).map Glob.mk

def isMatch (g : Glob) (s : String) : Bool :=
  matchTokens g.tokens s.toList

/-- Whether a pattern matches a path as a whole or one of its names. -/
def covers (g : Glob) (p : Path) : Bool :=
  g.isMatch p.text || p.components.any fun
    | .name s => g.isMatch s
    | _ => false

end Glob

end RubyIndent
