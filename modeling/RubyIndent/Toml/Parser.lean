import RubyIndent.Text.Reader
import RubyIndent.Text.Size
import RubyIndent.Toml.Value

/-!
# Reading TOML

The grammar of TOML 1.0. Arrays and inline tables may be nested, and keys may
have parts, up to a fixed depth. A text that is not a TOML document is refused
as a whole, so readers only say whether they succeed.
-/

namespace RubyIndent.Toml

open RubyIndent.Text

/-- The nesting of arrays and inline tables, and the number of parts of a key,
stay below this number. -/
def depthLimit : Nat := 80

namespace Read

open Reader

/-! ## Blanks and comments -/

def isBlank (c : Char) : Bool :=
  c = ' ' || c = '\t'

def isNonAscii (c : Char) : Bool :=
  c.toNat ≥ 0x80

/-- Characters that may stand on a line: no control character but the tab. -/
def isOnLine (c : Char) : Bool :=
  c = '\t' || (0x20 ≤ c.toNat && c.toNat ≤ 0x7e) || isNonAscii c

def blanks : Reader Unit := do
  let _ ← takeWhile isBlank

def newline : Reader Unit :=
  exactly ['\n'] <|> exactly ['\r', '\n']

def comment : Reader Unit := do
  char '#'
  let _ ← takeWhile isOnLine

def lineEnd : Reader Unit :=
  newline <|> atEnd

def lineTrailing : Reader Unit := do
  blanks
  let _ ← option comment
  lineEnd

/-- Blanks, comments and newlines inside an array. -/
def gap : Reader Unit := do
  let blank := do let _ ← satisfy isBlank
  let brokenLine := do let _ ← option comment; newline
  let _ ← many (blank <|> brokenLine)

/-! ## Strings -/

def hexValue (digits : List Char) : Nat :=
  digits.foldl
    (fun n c =>
      16 * n + (if c.isDigit then c.toNat - '0'.toNat
        else c.toLower.toNat - 'a'.toNat + 10)) 0

def isHexDigit (c : Char) : Bool :=
  c.isDigit || ('a' ≤ c && c ≤ 'f') || ('A' ≤ c && c ≤ 'F')

/-- A character by its number in hexadecimal digits; it must exist. -/
def numbered (digits : Nat) : Reader Char := do
  let n := hexValue (← times digits (satisfy isHexDigit))
  if n.isValidChar then return Char.ofNat n else failure

def escape : Reader Char := do
  char '\\'
  match ← satisfy fun _ => true with
  | 'b' => return '\x08'
  | 'f' => return '\x0c'
  | 'n' => return '\n'
  | 'r' => return '\r'
  | 't' => return '\t'
  | '\"' => return '\"'
  | '\\' => return '\\'
  | 'u' => numbered 4
  | 'U' => numbered 8
  | _ => failure

def basicText : Reader Char :=
  satisfy fun c => isOnLine c && c ≠ '\"' && c ≠ '\\'

def literalText : Reader Char :=
  satisfy fun c => isOnLine c && c ≠ '\''

def basicString : Reader String := do
  char '\"'
  let body ← many (escape <|> basicText)
  char '\"'
  return String.ofList body

def literalString : Reader String := do
  char '\''
  let body ← many literalText
  char '\''
  return String.ofList body

/-- One or two quotes in a string that three end. -/
def looseQuotes (quote : Char) : Reader (List Char) := do
  let run ← takeWhile (· = quote)
  if run.length = 1 ∨ run.length = 2 then return run else failure

/-- Three quotes that end a string, after up to two that still belong to it. -/
def closingQuotes (quote : Char) : Reader (List Char) := do
  let loose ← option (do
    exactly [quote, quote]
    exactly [quote, quote, quote]
    return [quote, quote])
  if let some loose := loose then return loose
  let loose ← option (do
    char quote
    exactly [quote, quote, quote]
    return [quote])
  if let some loose := loose then return loose
  exactly [quote, quote, quote]
  return []

/-- A string over several lines, made of the given pieces. A newline right
after the opening quotes is dropped, and others count as single characters. -/
def multiline (quote : Char) (piece : Reader (List Char)) : Reader String := do
  exactly [quote, quote, quote]
  let _ ← option newline
  let lineBreak : Reader (List Char) := do newline; return ['\n']
  let body ← many (piece <|> lineBreak <|> looseQuotes quote)
  let last ← closingQuotes quote
  return String.ofList (body.flatten ++ last)

/-- A backslash at the end of a line hides the newline and all blanks and
newlines after it. -/
def hiddenNewline : Reader (List Char) := do
  char '\\'
  blanks
  newline
  let blank := do let _ ← satisfy isBlank
  let _ ← many (blank <|> newline)
  return []

def multilineBasic : Reader String :=
  multiline '\"' (hiddenNewline <|> (do return [← escape <|> basicText]))

def multilineLiteral : Reader String :=
  multiline '\'' (do return [← literalText])

def string : Reader String :=
  multilineBasic <|> basicString <|> multilineLiteral <|> literalString

/-! ## Numbers and dates -/

/-- Digits, of which any two may be divided by an underscore. -/
def digits (isDigit : Char → Bool) : Reader (List Char) := do
  let first ← satisfy isDigit
  let more : Reader Char := satisfy isDigit <|> (do char '_'; satisfy isDigit)
  return first :: (← many more)

/-- A sign; the answer tells whether it is a minus. -/
def sign : Reader Bool := do
  match ← option (satisfy fun c => c = '+' || c = '-') with
  | some c => return c = '-'
  | none => return false

/-- A decimal integer without leading zeros: whether it is negative, and its
digits. -/
def decimal : Reader (Bool × List Char) := do
  let negative ← sign
  let ds ← (do
      let _ ← (fun s => if s.head? = some '0' then none else some ((), s))
      digits Char.isDigit) <|> (do return [← satisfy Char.isDigit])
  return (negative, ds)

def inRange (n : Int) : Reader Int :=
  if -9223372036854775808 ≤ n ∧ n ≤ 9223372036854775807 then pure n
  else failure

def based (mark : Char) (isDigit : Char → Bool) (base : Nat) : Reader Int := do
  exactly ['0', mark]
  let ds ← digits isDigit
  inRange (ds.foldl (fun n c => base * n + hexValue [c]) 0 : Nat)

def integer : Reader Int :=
  based 'x' isHexDigit 16 <|> based 'o' (fun c => '0' ≤ c && c ≤ '7') 8 <|>
    based 'b' (fun c => c = '0' || c = '1') 2 <|> do
      let (negative, ds) ← decimal
      let n : Int := decimalFrom 0 ds
      inRange (if negative then -n else n)

/-- The smallest number that is rounded to infinity as a float of 64 bits. -/
def floatBound : Nat := Nat.pow 2 1024 - Nat.pow 2 970

/-- Whether `digits · 10 ^ exponent` is too large for a float of 64 bits. -/
def isTooLarge (digits : List Char) (exponent : Int) : Bool :=
  let significant := digits.dropWhile (· = '0')
  let places : Int := significant.length + exponent
  if significant.isEmpty ∨ places < 309 then false
  else if places > 309 then true
  else
    let n := decimalFrom 0 significant
    if exponent ≥ 0 then n * Nat.pow 10 exponent.toNat ≥ floatBound
    else n ≥ floatBound * Nat.pow 10 (-exponent).toNat

def fraction : Reader (List Char) := do
  char '.'
  digits Char.isDigit

def exponent : Reader Int := do
  let _ ← satisfy fun c => c = 'e' || c = 'E'
  let negative ← sign
  let n : Int := decimalFrom 0 (← digits Char.isDigit)
  return if negative then -n else n

def written {α : Type} (r : Reader α) : Reader String := fun s =>
  (r s).map fun (_, t) => (String.ofList (s.take (s.length - t.length)), t)

/-- A float with a fraction or an exponent. A positive one must not be too
large. -/
def decimalFloat : Reader Unit := do
  let (negative, whole) ← decimal
  let frac ← option fraction
  let exp ← option exponent
  if frac.isNone ∧ exp.isNone then failure
  let frac := frac.getD []
  if !negative && isTooLarge (whole ++ frac) (exp.getD 0 - frac.length) then
    failure

def specialFloat : Reader Unit := do
  let _ ← sign
  exactly "inf".toList <|> exactly "nan".toList

def field (length low high : Nat) : Reader Nat := do
  let n := decimalFrom 0 (← times length (satisfy Char.isDigit))
  if low ≤ n ∧ n ≤ high then return n else failure

def isLeapYear (year : Nat) : Bool :=
  year % 4 = 0 && (year % 100 ≠ 0 || year % 400 = 0)

def daysInMonth (year month : Nat) : Nat :=
  if month = 2 then (if isLeapYear year then 29 else 28)
  else if month = 4 ∨ month = 6 ∨ month = 9 ∨ month = 11 then 30
  else 31

def date : Reader Unit := do
  let year ← field 4 0 9999
  char '-'
  let month ← field 2 1 12
  char '-'
  let _ ← field 2 1 (daysInMonth year month)

def time : Reader Unit := do
  let _ ← field 2 0 23
  char ':'
  let _ ← field 2 0 59
  char ':'
  let _ ← field 2 0 60
  let _ ← option (do char '.'; digitRow)
where
  digitRow : Reader Unit := do
    let _ ← satisfy Char.isDigit
    let _ ← takeWhile Char.isDigit

def offset : Reader Unit := do
  let numeric : Reader Unit := do
    let _ ← satisfy fun c => c = '+' || c = '-'
    let _ ← field 2 0 23
    char ':'
    let _ ← field 2 0 59
  char 'Z' <|> char 'z' <|> numeric

def dateTime : Reader Unit := do
  let timed : Reader Unit := do
    let _ ← satisfy fun c => c = 'T' || c = 't' || c = ' '
    time
    let _ ← option offset
  let dated : Reader Unit := do
    date
    let _ ← option timed
  dated <|> time

/-! ## Keys, values and lines -/

def isBareKey (c : Char) : Bool :=
  c.isAlphanum || c = '-' || c = '_'

def simpleKey : Reader String :=
  basicString <|> literalString <|> do
    let first ← satisfy isBareKey
    return String.ofList (first :: (← takeWhile isBareKey))

/-- A key: its leading parts and the last one. -/
def key : Reader (List String × String) := do
  let part : Reader String := do
    blanks
    let k ← simpleKey
    blanks
    return k
  let parts ← sepBy1 part (char '.')
  match parts.reverse with
  | last :: before =>
    if parts.length < depthLimit then return (before.reverse, last) else failure
  | [] => failure

def assignment (value : Reader Value) : Reader Assignment := do
  let (parts, key) ← key
  char '='
  blanks
  return { parts, key, value := ← value }

/-- An array; a comma may follow its last item. -/
def array (value : Reader Value) : Reader Value := do
  let item : Reader Value := do
    gap
    let v ← value
    gap
    return v
  char '['
  let items ← option (do
    let items ← sepBy1 item (char ',')
    let _ ← option (char ',')
    return items)
  gap
  char ']'
  return .array (items.getD [])

def inlineTable (value : Reader Value) : Reader Value := do
  char '\x7b'
  let assignments ← sepBy (do let a ← assignment value; blanks; return a) (char ',')
  blanks
  char '\x7d'
  match Entries.assign [] assignments with
  | some entries => return .table .inline entries
  | none => failure

def scalar : Reader Value :=
  .string <$> string <|>
  (do exactly "true".toList; return .boolean true) <|>
  (do exactly "false".toList; return .boolean false) <|>
  .datetime <$> written dateTime <|>
  .float <$> written (decimalFloat <|> specialFloat) <|>
  .integer <$> integer

/-- A value with fewer than the given number of values around one another. -/
def value : Nat → Reader Value
  | 0 => failure
  | 1 => scalar
  | depth + 2 =>
    let inner := value (depth + 1)
    scalar <|> array inner <|> inlineTable inner

end Read

open Reader in
/-- A table header: its path, and whether more tables share it. -/
def Read.header : Reader (Bool × List String × String) :=
  (do exactly ['[', '[']; let k ← key; exactly [']', ']']; return (true, k)) <|>
    (do char '['; let k ← key; char ']'; return (false, k))

inductive Line where
  | assignment (a : Assignment)
  | header (shared : Bool) (parts : List String) (key : String)

open Reader in
/-- A line of a document, with the blanks after it; nothing for a line
without content. -/
def Read.line : Reader (Option Line) := do
  let empty : Reader (Option Line) := do
    newline
    return none
  let remark : Reader (Option Line) := do
    comment
    lineEnd
    return none
  let opening : Reader (Option Line) := do
    let (shared, parts, key) ← header
    lineTrailing
    return some (.header shared parts key)
  let setting : Reader (Option Line) := do
    let a ← assignment (value depthLimit)
    lineTrailing
    return some (.assignment a)
  let l ← empty <|> remark <|> opening <|> setting
  blanks
  return l

open Reader in
/-- The lines of a document. A byte order mark may come first. -/
def Read.document : Reader (List Line) := do
  let _ ← option (char '\ufeff')
  blanks
  let lines ← many line
  return lines.filterMap id

/-! ## Putting tables together -/

/-- The assignments before the next header, and the lines from there on. -/
def takeAssignments : List Line → List Assignment × List Line
  | .assignment a :: rest =>
    let (as, rest) := takeAssignments rest
    (a :: as, rest)
  | rest => ([], rest)

theorem length_takeAssignments_le (lines : List Line) :
    (takeAssignments lines).2.length ≤ lines.length := by
  fun_induction takeAssignments lines with
  | case1 a rest as rest' h ih =>
    rw [h] at ih
    exact Nat.le_succ_of_le ih
  | case2 rest _ => exact Nat.le_refl _

def addTables (lines : List Line) (root : Entries) : Option Entries :=
  match lines with
  | [] => some root
  | .assignment _ :: _ => none
  | .header shared parts key :: rest =>
    have := length_takeAssignments_le rest
    let section_ := takeAssignments rest
    let fill := fun es => Entries.assign es section_.1
    let openIt := if shared then Entries.openElement key fill
      else Entries.openTable key fill
    (Entries.descend openIt parts root).bind (addTables section_.2)
termination_by lines.length
decreasing_by simp only [List.length_cons]; omega

def parse? (source : String) : Option Entries :=
  (Read.document.run? source.toList).bind fun lines =>
    let (top, rest) := takeAssignments lines
    (Entries.assign [] top).bind (addTables rest)

end RubyIndent.Toml
