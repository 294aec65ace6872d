/-!
# Paths

A path is kept as it was written, since that is how it is reported. What it
means is read off its components: empty parts and dots say nothing, except
that a dot in front marks a path as relative. Two paths name the same place
relative to the same directory if their components agree.
-/

namespace RubyIndent

structure Path where
  text : String
  deriving DecidableEq, Repr

namespace Path

/-- A step on the way that a path describes. -/
inductive Component where
  | root
  | here
  | up
  | name (s : String)
  deriving DecidableEq, Repr

def splitSlashes : List Char → List (List Char)
  | [] => [[]]
  | c :: s =>
    if c = '/' then [] :: splitSlashes s
    else
      match splitSlashes s with
      | [] => [[c]]
      | part :: parts => (c :: part) :: parts

def isAbsolute (p : Path) : Bool :=
  p.text.toList.head? = some '/'

/-- The parts between slashes, after the slash of the root. -/
def parts (p : Path) : List String :=
  let s := if p.isAbsolute then p.text.toList.drop 1 else p.text.toList
  (splitSlashes s).map String.ofList

/-- The step that a part stands for, if any; `first` says that nothing comes
before it. -/
def component? (first : Bool) (part : String) : Option Component :=
  if part = "" then none
  else if part = "." then (if first then some .here else none)
  else if part = ".." then some .up
  else some (.name part)

def componentsFrom : Bool → List String → List Component
  | _, [] => []
  | first, part :: parts =>
    match component? first part with
    | some c => c :: componentsFrom false parts
    | none => componentsFrom false parts

def components (p : Path) : List Component :=
  if p.isAbsolute then .root :: componentsFrom false p.parts
  else componentsFrom true p.parts

def sameAs (p q : Path) : Bool :=
  p.components = q.components

/-! ## Parents

Parts are taken in reverse order here, so that the last part is at hand; it is
the first of all parts if none are left after it. -/

/-- Whether the first of some reversed parts is a step. -/
def isStep (absolute : Bool) (part : String) (before : List String) : Bool :=
  (component? (before.isEmpty && !absolute) part).isSome

/-- Reversed parts without those at the end that are no steps. -/
def dropIdle (absolute : Bool) : List String → List String
  | [] => []
  | part :: before =>
    if isStep absolute part before then part :: before
    else dropIdle absolute before

def ofReversed (absolute : Bool) (reversed : List String) : Path :=
  ⟨(if absolute then "/" else "") ++ "/".intercalate reversed.reverse⟩

/-- The paths above, the nearest first, of a path with the given reversed
parts. -/
def parentsFrom (absolute : Bool) : List String → List Path
  | [] => []
  | part :: before =>
    if isStep absolute part before then
      ofReversed absolute (dropIdle absolute before) :: parentsFrom absolute before
    else parentsFrom absolute before

/-- The paths above, the nearest first. The last is the root or the empty
path. -/
def parents (p : Path) : List Path :=
  parentsFrom p.isAbsolute p.parts.reverse

def ancestors (p : Path) : List Path :=
  p :: p.parents

def parent? (p : Path) : Option Path :=
  p.parents.head?

/-! ## Names -/

def join (p : Path) (name : String) : Path :=
  match p.text.toList.getLast? with
  | none => ⟨name⟩
  | some '/' => ⟨p.text ++ name⟩
  | some _ => ⟨p.text ++ "/" ++ name⟩

def fileName? (p : Path) : Option String :=
  match p.components.getLast? with
  | some (.name s) => some s
  | _ => none

/-- What stands after the last dot of a file name. A dot in front is part of
the name. -/
def extension? (p : Path) : Option String :=
  p.fileName?.bind fun name =>
    let reversed := name.toList.reverse
    let after := reversed.takeWhile (· ≠ '.')
    match reversed.dropWhile (· ≠ '.') with
    | '.' :: _ :: _ => some (String.ofList after.reverse)
    | _ => none

/-- Whether a path is written in a way that only a directory can have. -/
def endsAsDirectory (p : Path) : Bool :=
  match p.text.toList.reverse with
  | '/' :: _ => true
  | '.' :: '/' :: _ => true
  | _ => false

end Path

end RubyIndent
