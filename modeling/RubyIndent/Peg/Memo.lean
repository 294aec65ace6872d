import Std.Data.TreeMap.Lemmas

/-!
# The table of visited places

Every application of a rule at a place is entered in a table, so that a rule
body is evaluated once per place however often the grammar backtracks. An
entry first says that the evaluation is under way, which is how a rule that
reaches itself again at the same place is noticed, and later how it ended.

The table is generic in what a place is. Its keys are ordered, and all that is
ever asked of the order is that equal keys compare equal.
-/

namespace RubyIndent.Peg

/-- Rules are numbered in the order of their declaration. -/
abbrev RuleId := Nat

/-- What a successful match stands for: the text between two places, or text
made by an action. -/
inductive Value (Place : Type) where
  | span (start stop : Place)
  | text (s : String)
  deriving DecidableEq, Repr

/-- How the evaluation of a rule at a place ended, if it did. -/
inductive Outcome (Place : Type) where
  | success (stop : Place) (value : Value Place)
  | failure
  /-- The evaluation is under way; `detected` is set once the rule was reached
  again at the same place. -/
  | inProgress (detected : Bool)
  deriving DecidableEq, Repr

/-- An outcome and the number of times it was asked for. -/
structure Entry (Place : Type) where
  outcome : Outcome Place
  uses : Nat
  deriving DecidableEq, Repr

/-- A rule and a place at which it is applied. -/
abbrev Visit (Place : Type) := RuleId × Place

variable {Place : Type} [Ord Place]

def Visit.order : Visit Place → Visit Place → Ordering :=
  compareLex (compareOn Prod.fst) (compareOn Prod.snd)

instance [Std.TransOrd Place] : Std.TransCmp (@Visit.order Place _) :=
  inferInstanceAs (Std.TransCmp (compareLex (compareOn Prod.fst) (compareOn Prod.snd)))

instance [Std.LawfulEqOrd Place] :
    Std.LawfulEqCmp (@Visit.order Place _) where
  eq_of_compare {a b} h := by
    rw [Visit.order, compareLex_eq_eq] at h
    exact Prod.ext (Std.LawfulEqOrd.eq_of_compare h.1)
      (Std.LawfulEqOrd.eq_of_compare h.2)
  compare_self {a} := by
    rw [Visit.order, compareLex_eq_eq]
    exact ⟨Std.ReflOrd.compare_self, Std.ReflOrd.compare_self⟩

/-- The entries of all visits so far, and how often one was found. -/
structure Memo (Place : Type) [Ord Place] where
  entries : Std.TreeMap (Visit Place) (Entry Place) Visit.order := {}
  hits : Nat := 0

namespace Memo

def size (m : Memo Place) : Nat :=
  m.entries.size

def isEmpty (m : Memo Place) : Bool :=
  m.entries.isEmpty

def visited (m : Memo Place) (v : Visit Place) : Bool :=
  m.entries.contains v

def get? (m : Memo Place) (v : Visit Place) : Option (Entry Place) :=
  m.entries[v]?

/-- Looks a visit up and counts that it was asked for. The entry is returned
as it stands after counting. -/
def lookup? (m : Memo Place) (v : Visit Place) :
    Option (Entry Place × Memo Place) :=
  (m.get? v).map fun e =>
    let e := { e with uses := e.uses + 1 }
    (e, { entries := m.entries.insert v e, hits := m.hits + 1 })

def enter (m : Memo Place) (v : Visit Place) : Memo Place :=
  { m with entries := m.entries.insert v ⟨.inProgress false, 1⟩ }

/-- Replaces the outcome of a visit, entering it if need be. -/
def setOutcome (m : Memo Place) (v : Visit Place) (o : Outcome Place) :
    Memo Place :=
  let uses := ((m.get? v).map Entry.uses).getD 1
  { m with entries := m.entries.insert v ⟨o, uses⟩ }

def markDetected (m : Memo Place) (v : Visit Place) : Memo Place :=
  m.setOutcome v (.inProgress true)

def detected (m : Memo Place) (v : Visit Place) : Bool :=
  match (m.get? v).map Entry.outcome with
  | some (.inProgress d) => d
  | _ => false

/-- Ends an evaluation. Also tells whether the rule was reached again at the
same place while it was under way. -/
def resolve (m : Memo Place) (v : Visit Place) (o : Outcome Place) :
    Bool × Memo Place :=
  (m.detected v, m.setOutcome v o)

/-! ## Entries are never removed -/

/-- Every visit of `m` is a visit of `m'`. -/
def Extends (m m' : Memo Place) : Prop :=
  ∀ v, m.visited v → m'.visited v

theorem Extends.refl (m : Memo Place) : m.Extends m :=
  fun _ h => h

theorem Extends.trans {a b c : Memo Place} (h : a.Extends b)
    (h' : b.Extends c) : a.Extends c :=
  fun v hv => h' v (h v hv)

section

variable [Std.TransOrd Place]

theorem extends_insert (m : Memo Place) (v : Visit Place) (e : Entry Place)
    (n : Nat) : m.Extends ⟨m.entries.insert v e, n⟩ := by
  intro w hw
  simp only [visited] at hw ⊢
  simp [hw]

theorem extends_enter (m : Memo Place) (v : Visit Place) :
    m.Extends (m.enter v) :=
  m.extends_insert v _ _

theorem visited_enter (m : Memo Place) (v : Visit Place) :
    (m.enter v).visited v := by
  simp only [visited, enter]
  exact Std.TreeMap.contains_insert_self

theorem extends_setOutcome (m : Memo Place) (v : Visit Place)
    (o : Outcome Place) : m.Extends (m.setOutcome v o) :=
  m.extends_insert v _ _

theorem extends_of_lookup? {m m' : Memo Place} {v : Visit Place}
    {e : Entry Place} (h : m.lookup? v = some (e, m')) : m.Extends m' := by
  obtain ⟨e', _, h'⟩ := Option.map_eq_some_iff.1 h
  cases h'
  exact m.extends_insert v _ _

theorem not_visited_of_lookup? {m : Memo Place} {v : Visit Place}
    (h : m.lookup? v = none) : m.visited v = false := by
  have := Option.map_eq_none_iff.1 h
  rw [visited, Std.TreeMap.contains_eq_isSome_getElem?]
  exact Option.isSome_eq_false_iff.2 (Option.isNone_iff_eq_none.2 this)

end

end Memo

end RubyIndent.Peg
