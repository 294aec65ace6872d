import RubyIndent.Pattern.Basic

/-!
# Reading patterns

Patterns are written in the usual notation: characters stand for themselves,
a backslash takes the special meaning from a punctuation character, `\n`,
`\t` and `\r` are the control characters of those names, `.` is any character
of a line, `[…]` and `[^…]` are sets with ranges, `(?:…)` groups, `|` separates
alternatives, and `*`, `+`, `?` repeat, reluctantly if a further `?` follows.
A leading `(?s)` lets `.` match the newline too.

The reader works on the characters of the source. Each of its functions
returns what it has not read, together with the fact that this is shorter than
(or, for a list of pieces, no longer than) what it was given; that is also why
the nesting of groups needs no bound.
-/

namespace RubyIndent.Pattern

/-- What is left of a text of length `n` after something was read from it. -/
abbrev Shorter (n : Nat) :=
  { s : List Char // s.length < n }

/-- What is left of a text of length `n` after something, or nothing, was read
from it. -/
abbrev NoLonger (n : Nat) :=
  { s : List Char // s.length ≤ n }

def isPunctuation (c : Char) : Bool :=
  "!\"#$%&'()*+,-./:;<=>?@[\\]^_`\x7b|\x7d~ ".toList.contains c

def escaped? (c : Char) : Option Char :=
  if c = 'n' then some '\n'
  else if c = 't' then some '\t'
  else if c = 'r' then some '\r'
  else if isPunctuation c then some c
  else none

/-- One member of a set, as an end of a range: a character or an escape. -/
def readMember? : (s : List Char) → Option (Char × Shorter s.length)
  | '\\' :: c :: s =>
    (escaped? c).map fun d => (d, ⟨s, by simp only [List.length_cons]; omega⟩)
  | ['\\'] => none
  | '[' :: _ => none
  | c :: s => some (c, ⟨s, by simp⟩)
  | [] => none

/-- The upper end of a range whose lower end has just been read. A `-` between
two members makes a range; without one, or with one just before the closing
bracket, the member stands alone. -/
def readUpper? (lo : Char) : (s : List Char) → Option (Char × NoLonger s.length)
  | '-' :: d :: s =>
    if d = ']' then some (lo, ⟨'-' :: d :: s, Nat.le_refl _⟩)
    else
      match readMember? (d :: s) with
      | none => none
      | some (hi, ⟨t, ht⟩) =>
        if hi < lo then none
        else some (hi, ⟨t, Nat.le_succ_of_le (Nat.le_of_lt ht)⟩)
  | s => some (lo, ⟨s, Nat.le_refl _⟩)

/-- The members of a set up to its closing bracket. A closing bracket is itself
a member if it comes first. -/
def readRanges? (isFirst : Bool) (s : List Char) :
    Option (List (Char × Char) × Shorter s.length) :=
  match s with
  | [] => none
  | c :: t =>
    if c = ']' ∧ isFirst = false then some ([], ⟨t, by simp⟩)
    else
      match readMember? (c :: t) with
      | none => none
      | some (lo, ⟨u, hu⟩) =>
        match readUpper? lo u with
        | none => none
        | some (hi, ⟨v, hv⟩) =>
          have hlt : v.length < (c :: t).length := Nat.lt_of_le_of_lt hv hu
          (readRanges? false v).map fun (rs, ⟨w, hw⟩) =>
            ((lo, hi) :: rs, ⟨w, Nat.lt_trans hw hlt⟩)
termination_by s.length
decreasing_by exact hlt

/-- The members of a set, of which dashes in front stand for themselves. -/
def readMembers? (s : List Char) :
    Option (List (Char × Char) × Shorter s.length) :=
  let dashes := s.takeWhile (· = '-')
  have hle : (s.dropWhile (· = '-')).length ≤ s.length :=
    (List.dropWhile_sublist _).length_le
  (readRanges? dashes.isEmpty (s.dropWhile (· = '-'))).map
    fun (rs, ⟨w, hw⟩) =>
      (dashes.map (fun c => (c, c)) ++ rs, ⟨w, Nat.lt_of_lt_of_le hw hle⟩)

def readSet? (s : List Char) : Option (CharSet × Shorter s.length) :=
  match s with
  | '^' :: t =>
    (readMembers? t).map fun (rs, ⟨w, hw⟩) =>
      (⟨rs, true⟩, ⟨w, Nat.lt_succ_of_lt hw⟩)
  | t => (readMembers? t).map fun (rs, w) => (⟨rs, false⟩, w)

/-- The repetition marks after a piece, applied from the inside out. -/
def readMarks (r : Regex) (s : List Char) : Regex × NoLonger s.length :=
  match s with
  | '*' :: '?' :: t =>
    let (q, ⟨w, hw⟩) := readMarks (.star .reluctant r) t
    (q, ⟨w, by simp only [List.length_cons]; omega⟩)
  | '*' :: t =>
    let (q, ⟨w, hw⟩) := readMarks (.star .greedy r) t
    (q, ⟨w, by simp only [List.length_cons]; omega⟩)
  | '+' :: '?' :: t =>
    let (q, ⟨w, hw⟩) := readMarks (.plus .reluctant r) t
    (q, ⟨w, by simp only [List.length_cons]; omega⟩)
  | '+' :: t =>
    let (q, ⟨w, hw⟩) := readMarks (.plus .greedy r) t
    (q, ⟨w, by simp only [List.length_cons]; omega⟩)
  | '?' :: '?' :: t =>
    let (q, ⟨w, hw⟩) := readMarks (.opt .reluctant r) t
    (q, ⟨w, by simp only [List.length_cons]; omega⟩)
  | '?' :: t =>
    let (q, ⟨w, hw⟩) := readMarks (.opt .greedy r) t
    (q, ⟨w, by simp only [List.length_cons]; omega⟩)
  | s => (r, ⟨s, Nat.le_refl _⟩)
termination_by s.length

/-- A group is opened by `(?:`, or by a bracket alone. -/
def readGroupOpening? : (s : List Char) → Option (Shorter s.length)
  | '(' :: '?' :: ':' :: t => some ⟨t, by simp only [List.length_cons]; omega⟩
  | '(' :: '?' :: _ => none
  | '(' :: t => some ⟨t, by simp⟩
  | _ => none

def dropChar? (c : Char) : (s : List Char) → Option (Shorter s.length)
  | [] => none
  | d :: s => if d = c then some ⟨s, by simp⟩ else none

/-- One piece and the pieces after it, of which there may be none. -/
def Regex.followedBy (a : Regex) : Regex → Regex
  | .empty => a
  | b => .seq a b

mutual

/-- Alternatives, up to the end of the text or a closing bracket. -/
def readAlternatives? (dot : CharSet) (s : List Char) :
    Option (Regex × NoLonger s.length) :=
  match readSequence? dot s with
  | none => none
  | some (a, ⟨t, ht⟩) =>
    match dropChar? '|' t with
    | none => some (a, ⟨t, ht⟩)
    | some ⟨u, hu⟩ =>
      have : u.length < s.length := Nat.lt_of_lt_of_le hu ht
      (readAlternatives? dot u).map fun (b, ⟨w, hw⟩) =>
        (.alt a b, ⟨w, by omega⟩)
termination_by 3 * s.length + 2
decreasing_by all_goals omega

/-- Pieces in a row, up to the end of the text, a bar or a closing bracket. -/
def readSequence? (dot : CharSet) (s : List Char) :
    Option (Regex × NoLonger s.length) :=
  match s with
  | [] => some (.empty, ⟨[], Nat.le_refl _⟩)
  | c :: t =>
    if c = '|' ∨ c = ')' then some (.empty, ⟨c :: t, Nat.le_refl _⟩)
    else
      match readPiece? dot c t with
      | none => none
      | some (a, ⟨u, hu⟩) =>
        let (a', ⟨v, hv⟩) := readMarks a u
        have : v.length < (c :: t).length := by omega
        (readSequence? dot v).map fun (b, ⟨w, hw⟩) =>
          (a'.followedBy b, ⟨w, by omega⟩)
termination_by 3 * s.length + 1
decreasing_by all_goals simp only [List.length_cons] at *; omega

/-- A set, an escape, a group or a character; a repetition mark here has
nothing to repeat. -/
def readPiece? (dot : CharSet) (c : Char) (t : List Char) :
    Option (Regex × Shorter (c :: t).length) :=
  if c = '[' then
    (readSet? t).map fun (set, ⟨w, hw⟩) =>
      (.one set, ⟨w, Nat.lt_succ_of_lt hw⟩)
  else if c = '\\' then
    match t with
    | [] => none
    | d :: u => (escaped? d).map fun e =>
      (.one (.single e), ⟨u, by simp only [List.length_cons]; omega⟩)
  else if c = '(' then
    match readGroupOpening? (c :: t) with
    | none => none
    | some ⟨u, hu⟩ =>
      match readAlternatives? dot u with
      | none => none
      | some (a, ⟨v, hv⟩) =>
        match dropChar? ')' v with
        | none => none
        | some ⟨w, hw⟩ =>
          some (a, ⟨w, Nat.lt_trans (Nat.lt_of_lt_of_le hw hv) hu⟩)
  else if c = '.' then some (.one dot, ⟨t, by simp⟩)
  else if "*+?\x7b^$".toList.contains c then none
  else some (.one (.single c), ⟨t, by simp⟩)
termination_by 3 * (t.length + 1)
decreasing_by all_goals simp only [List.length_cons] at *; omega

end

def Regex.ofChars? (s : List Char) : Option Regex :=
  let (dot, body) : CharSet × List Char :=
    match s with
    | '(' :: '?' :: 's' :: ')' :: t => (.any, t)
    | _ => (.anyOnLine, s)
  (readAlternatives? dot body).bind fun (r, left) =>
    if left.val.isEmpty then some r else none

end RubyIndent.Pattern

namespace RubyIndent

structure Pattern where
  source : String
  regex : Pattern.Regex
  deriving DecidableEq, Repr

def Pattern.ofSource? (source : String) : Option Pattern :=
  (Pattern.Regex.ofChars? source.toList).map fun r => ⟨source, r⟩

end RubyIndent
