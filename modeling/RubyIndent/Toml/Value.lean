/-!
# TOML values

The values of a TOML document. Numbers that are not integers, and dates, are
kept as they are written, since nothing is computed from them.

A table remembers how it came about, because that decides whether later lines
may add to it.
-/

namespace RubyIndent.Toml

/-- How a table was introduced. -/
inductive Origin where
  /-- By a header of its own. -/
  | header
  /-- As a parent in the header of another table. -/
  | implied
  /-- By a dotted key. -/
  | dotted
  /-- In braces, all at once. -/
  | inline
  deriving DecidableEq, Repr

inductive Value where
  | string (s : String)
  | integer (n : Int)
  | float (written : String)
  | boolean (b : Bool)
  | datetime (written : String)
  | array (items : List Value)
  | table (origin : Origin) (entries : List (String × Value))
  /-- Tables with a common header, in order. -/
  | tables (elements : List (List (String × Value)))

abbrev Entries := List (String × Value)

namespace Entries

def set (key : String) (v : Value) : Entries → Entries
  | [] => [(key, v)]
  | (k, w) :: es => if k = key then (k, v) :: es else (k, w) :: set key v es

/-- Adds a value under a dotted key, given by its leading parts and its last.
Tables on the way are made as needed. The value must be new; the table that
it goes to must be the one at hand or have been made by dotted keys, and no
table on the way may have been closed by a header or by braces. -/
def putDotted (key : String) (v : Value) : List String → Entries → Option Entries
  | [], es => if (es.lookup key).isSome then none else some (es.set key v)
  | part :: parts, es =>
    match es.lookup part with
    | none => (putDotted key v parts []).map fun sub =>
        es.set part (.table .dotted sub)
    | some (.table .dotted sub) =>
      (putDotted key v parts sub).map fun sub =>
        es.set part (.table .dotted sub)
    | some (.table .implied sub) =>
      if parts.isEmpty then none
      else (putDotted key v parts sub).map fun sub =>
        es.set part (.table .implied sub)
    | some (.tables elements) =>
      match elements.reverse with
      | [] => none
      | last :: before =>
        if parts.isEmpty then none
        else (putDotted key v parts last).map fun last =>
          es.set part (.tables (last :: before).reverse)
    | some _ => none

/-- Changes the entries of the table that a path leads to, from header to
header. Tables on the way are made as needed, and of tables with a common
header the last is meant. -/
def descend (f : Entries → Option Entries) : List String → Entries → Option Entries
  | [], es => f es
  | part :: parts, es =>
    match es.lookup part with
    | none => (descend f parts []).map fun sub =>
        es.set part (.table .implied sub)
    | some (.table .inline _) => none
    | some (.table origin sub) => (descend f parts sub).map fun sub =>
        es.set part (.table origin sub)
    | some (.tables elements) =>
      match elements.reverse with
      | [] => none
      | last :: before => (descend f parts last).map fun last =>
          es.set part (.tables (last :: before).reverse)
    | some _ => none

/-- Opens the table of a header and fills it. A table can be opened once; one
that other headers have implied is opened with what it holds. -/
def openTable (key : String) (fill : Entries → Option Entries) (es : Entries) :
    Option Entries :=
  match es.lookup key with
  | none => (fill []).map fun sub => es.set key (.table .header sub)
  | some (.table .implied sub) => (fill sub).map fun sub =>
      es.set key (.table .header sub)
  | some _ => none

def openElement (key : String) (fill : Entries → Option Entries)
    (es : Entries) : Option Entries :=
  match es.lookup key with
  | none => (fill []).map fun sub => es.set key (.tables [sub])
  | some (.tables elements) => (fill []).map fun sub =>
      es.set key (.tables (elements ++ [sub]))
  | some _ => none

end Entries

/-- A key with its dots resolved, and its value. -/
structure Assignment where
  parts : List String
  key : String
  value : Value

def Entries.assign (es : Entries) (assignments : List Assignment) :
    Option Entries :=
  assignments.foldlM (fun es a => Entries.putDotted a.key a.value a.parts es) es

end RubyIndent.Toml
