import RubyIndent.Proofs.Peg.Evaluation

/-!
# What the table says

The table seen as a function from visits to outcomes. Each operation of the
table changes that function at one visit or not at all, and that is all that
the proofs about evaluation need to know of it.
-/

namespace RubyIndent.Peg

open RubyIndent.Text

/-- Where the visit matched, its end and its value are as they should be. -/
def Outcome.OnSuccess {Place : Type} (P : Place → Value Place → Prop) :
    Outcome Place → Prop
  | .success stop value => P stop value
  | .failure | .inProgress _ => True

namespace Memo

variable {Place : Type} [Ord Place]

def outcome? (m : Memo Place) (v : Visit Place) : Option (Outcome Place) :=
  (m.get? v).map Entry.outcome

/-- The visit was made and has not ended yet. -/
def Open (m : Memo Place) (v : Visit Place) : Prop :=
  ∃ d, m.outcome? v = some (.inProgress d)

def Closes (m m' : Memo Place) : Prop :=
  ∀ v, m'.Open v → m.Open v

theorem Closes.refl (m : Memo Place) : m.Closes m :=
  fun _ h => h

theorem Closes.trans {a b c : Memo Place} (h : a.Closes b) (h' : b.Closes c) :
    a.Closes c :=
  fun v hv => h v (h' v hv)

/-- Every outcome of `m` is an outcome of `m'`, and what is under way in `m'`
is under way in `m`: from `m` to `m'` only ended visits were added. -/
structure Grows (m m' : Memo Place) : Prop where
  kept : ∀ v o, m.outcome? v = some o → m'.outcome? v = some o
  ended : m.Closes m'

theorem Grows.refl (m : Memo Place) : m.Grows m :=
  ⟨fun _ _ h => h, .refl m⟩

theorem Grows.trans {a b c : Memo Place} (h : a.Grows b) (h' : b.Grows c) :
    a.Grows c :=
  ⟨fun v o hv => h'.kept v o (h.kept v o hv), h.ended.trans h'.ended⟩

def SameOutcomes (m m' : Memo Place) : Prop :=
  ∀ v, m'.outcome? v = m.outcome? v

/-- Every outcome in the table is as it should be for its visit. -/
def Every (P : Visit Place → Outcome Place → Prop) (m : Memo Place) : Prop :=
  ∀ v o, m.outcome? v = some o → P v o

theorem Every.of_sameOutcomes {P : Visit Place → Outcome Place → Prop}
    {m m' : Memo Place} (h : m.Every P) (hsame : m.SameOutcomes m') : m'.Every P :=
  fun v o hv => h v o ((hsame v).symm.trans hv)

theorem SameOutcomes.open_iff {m m' : Memo Place} {v : Visit Place}
    (h : m.SameOutcomes m') : m'.Open v ↔ m.Open v := by
  simp only [Open, h v]

theorem SameOutcomes.grows {m m' : Memo Place} (h : m.SameOutcomes m') :
    m.Grows m' :=
  ⟨fun v _ hv => (h v).trans hv, fun _ => h.open_iff.1⟩

theorem detected_eq_true_iff {m : Memo Place} {v : Visit Place} :
    m.detected v = true ↔ m.outcome? v = some (.inProgress true) := by
  unfold detected outcome?
  split
  · rename_i d h
    simp [h]
  · rename_i h
    constructor
    · intro h'
      cases h'
    · intro h'
      exact absurd h' (h true)

theorem lookup?_eq_none_iff {m : Memo Place} {v : Visit Place} :
    m.lookup? v = none ↔ m.outcome? v = none := by
  simp [lookup?, outcome?]

variable [Std.TransOrd Place]

@[simp] theorem outcome?_empty (v : Visit Place) :
    ({} : Memo Place).outcome? v = none := by
  simp [outcome?, get?]

theorem not_open_empty (v : Visit Place) : ¬ ({} : Memo Place).Open v := by
  rintro ⟨d, hd⟩
  cases (outcome?_empty v).symm.trans hd

theorem Every.empty {P : Visit Place → Outcome Place → Prop} :
    ({} : Memo Place).Every P := by
  intro v o hv
  cases (outcome?_empty v).symm.trans hv

variable [Std.LawfulEqOrd Place]

theorem get?_insert_self (m : Memo Place) (v : Visit Place) (e : Entry Place)
    (n : Nat) : Memo.get? ⟨m.entries.insert v e, n⟩ v = some e := by
  simp [get?]

theorem get?_insert_ne (m : Memo Place) {v w : Visit Place} (h : v ≠ w)
    (e : Entry Place) (n : Nat) :
    Memo.get? ⟨m.entries.insert v e, n⟩ w = m.get? w := by
  have hne : ¬ Visit.order v w = .eq :=
    fun heq => h (Std.LawfulEqCmp.eq_of_compare heq)
  simp [get?, Std.TreeMap.getElem?_insert, hne]

@[simp] theorem outcome?_enter_self (m : Memo Place) (v : Visit Place) :
    (m.enter v).outcome? v = some (.inProgress false) := by
  rw [outcome?, enter, get?_insert_self]
  rfl

theorem outcome?_enter_ne (m : Memo Place) {v w : Visit Place} (h : v ≠ w) :
    (m.enter v).outcome? w = m.outcome? w := by
  rw [outcome?, enter, get?_insert_ne m h]
  rfl

@[simp] theorem outcome?_setOutcome_self (m : Memo Place) (v : Visit Place)
    (o : Outcome Place) : (m.setOutcome v o).outcome? v = some o := by
  simp only [outcome?, setOutcome, get?_insert_self]
  rfl

theorem outcome?_setOutcome_ne (m : Memo Place) {v w : Visit Place}
    (h : v ≠ w) (o : Outcome Place) :
    (m.setOutcome v o).outcome? w = m.outcome? w := by
  simp only [outcome?, setOutcome, get?_insert_ne m h]

/-- Looking a visit up tells its outcome and changes none. -/
theorem outcome?_of_lookup? {m m' : Memo Place} {v : Visit Place}
    {e : Entry Place} (h : m.lookup? v = some (e, m')) :
    m.outcome? v = some e.outcome ∧ m.SameOutcomes m' := by
  obtain ⟨e', he', heq⟩ := Option.map_eq_some_iff.1 h
  cases heq
  refine ⟨by simp [outcome?, he'], fun w => ?_⟩
  by_cases hw : v = w
  · subst hw
    simp only [outcome?, get?_insert_self, he']
    rfl
  · simp only [outcome?, get?_insert_ne m hw]

theorem Every.enter {P : Visit Place → Outcome Place → Prop} {m : Memo Place}
    (h : m.Every P) {v : Visit Place} (hv : P v (.inProgress false)) :
    (m.enter v).Every P := by
  intro w o hw
  by_cases heq : v = w
  · subst heq
    rw [outcome?_enter_self] at hw
    cases hw
    exact hv
  · exact h w o ((outcome?_enter_ne m heq).symm.trans hw)

theorem Every.setOutcome {P : Visit Place → Outcome Place → Prop} {m : Memo Place}
    (h : m.Every P) {v : Visit Place} {o : Outcome Place} (ho : P v o) :
    (m.setOutcome v o).Every P := by
  intro w o' hw
  by_cases heq : v = w
  · subst heq
    rw [outcome?_setOutcome_self] at hw
    cases hw
    exact ho
  · exact h w o' ((outcome?_setOutcome_ne m heq o).symm.trans hw)

theorem open_enter_iff {m : Memo Place} {v w : Visit Place} :
    (m.enter v).Open w ↔ w = v ∨ m.Open w := by
  by_cases h : v = w
  · subst h
    simp [Open]
  · simp [Open, outcome?_enter_ne m h, Ne.symm h]

/-- Marking a visit that is under way leaves it under way. -/
theorem open_markDetected_iff {m : Memo Place} {v w : Visit Place} (hv : m.Open v) :
    (m.markDetected v).Open w ↔ m.Open w := by
  by_cases h : v = w
  · subst h
    simp only [hv, iff_true, markDetected]
    exact ⟨true, outcome?_setOutcome_self ..⟩
  · simp only [Open, markDetected, outcome?_setOutcome_ne m h]

theorem open_setOutcome_iff {m : Memo Place} {v w : Visit Place} {o : Outcome Place}
    (ho : ∀ d, o ≠ .inProgress d) :
    (m.setOutcome v o).Open w ↔ w ≠ v ∧ m.Open w := by
  by_cases h : v = w
  · subst h
    simp [Open, ho]
  · simp [Open, outcome?_setOutcome_ne m h, Ne.symm h]

/-- Setting an outcome other than `inProgress` opens nothing. -/
theorem closes_setOutcome {m : Memo Place} {v : Visit Place} {o : Outcome Place}
    (ho : ∀ d, o ≠ .inProgress d) : m.Closes (m.setOutcome v o) :=
  fun _ hw => ((open_setOutcome_iff ho).1 hw).2

/-- A visit that is entered and has ended is not under way. -/
theorem Closes.settle {m m' : Memo Place} {v : Visit Place} {o : Outcome Place}
    (h : (m.enter v).Closes m') (ho : ∀ d, o ≠ .inProgress d) :
    m.Closes (m'.setOutcome v o) := by
  intro w hw
  obtain ⟨hne, hw⟩ := (open_setOutcome_iff ho).1 hw
  exact (open_enter_iff.1 (h w hw)).resolve_left hne

def Forward {text : List Char} (m : Memo (Cursor text)) : Prop :=
  m.Every fun v o => o.OnSuccess fun stop _ => v.2.index ≤ stop.index

end Memo

end RubyIndent.Peg
