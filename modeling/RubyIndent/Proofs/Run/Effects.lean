import Mathlib.Data.List.Perm.Basic
import RubyIndent.Proofs.Document.Directives
import RubyIndent.Proofs.Run.Visiting

/-!
# What a run does to files

The fate of a file in a run depends on the file alone: on its contents and on the
configuration that is found for it, both as they were at the start (`World.fate`).
The main statement says that a run, in whatever order it takes the files, leaves
each with what its fate tells and all others as they were, and that what it counts
and the status it ends with are read off the fates too.
-/

namespace RubyIndent

open RubyIndent.CommandLine RubyIndent.Ruby RubyIndent.Text

/-! ## Faults

Only a width that is too great for a text is a fault. -/

inductive Fate where
  /-- It has too many bytes or lines. -/
  | skipped
  /-- There is no valid configuration for it, or its contents cannot be
  reindented. -/
  | failed
  /-- It is reindented, and comes out different or not. -/
  | done (changes : Bool) (output : ByteArray)

namespace Fate

def changed? : Fate → Option Bool
  | done changes _ => some changes
  | _ => none

def isFailed : Fate → Bool
  | failed => true
  | _ => false

def output? : Fate → Option ByteArray
  | done _ output => some output
  | _ => none

end Fate

/-- A report says what the fate of the file is. -/
structure Report.Tells (r : Report) (o : Options) (contents : ByteArray)
    (f : Fate) : Prop where
  replacement : r.replacement.or (some contents)
    = if o.writes then f.output?.or (some contents) else some contents
  changed : r.changed = f.changed?
  error : r.error.isSome = f.isFailed

namespace World

def fate (w : World) (o : Options) (shared : Option Config) (p : Path) : Fate :=
  match w.file? p, w.configOf o shared p with
  | none, _ => .failed
  | _, .error _ => .failed
  | some contents, .ok config =>
    if (o.skip? contents).isSome then .skipped
    else
      match reindentBytes formatBytes contents config p.text with
      | .error _ => .failed
      | .ok output => .done (differ output contents) output

/-- When a file is reindented: there is a configuration, the file is not passed
over, and its contents have a reindented form. -/
theorem output?_fate {w : World} {o : Options} {shared : Option Config} {p : Path}
    {contents out : ByteArray} (hcontents : w.file? p = some contents) :
    (w.fate o shared p).output? = some out ↔
      ∃ config, w.configOf o shared p = .ok config ∧ o.skip? contents = none ∧
        reindentBytes formatBytes contents config p.text = .ok out := by
  rw [fate, hcontents]
  cases w.configOf o shared p with
  | error e => simp [Fate.output?]
  | ok config =>
    dsimp only
    cases o.skip? contents with
    | some skip => simp [Fate.output?]
    | none =>
      cases hbytes : reindentBytes formatBytes contents config p.text with
      | error e => simp [Fate.output?, hbytes]
      | ok output => simp [Fate.output?, hbytes]

/-- A file changes if its reindented form is not what it holds. -/
theorem changed?_fate {w : World} {o : Options} {shared : Option Config} {p : Path} :
    (w.fate o shared p).changed? = some true ↔
      (w.fate o shared p).output?.or (w.file? p) ≠ w.file? p := by
  rw [fate]
  cases w.file? p with
  | none => simp [Fate.output?, Fate.changed?]
  | some contents =>
    cases w.configOf o shared p with
    | error e => simp [Fate.output?, Fate.changed?]
    | ok config =>
      dsimp only
      split
      · simp [Fate.output?, Fate.changed?]
      · split
        · simp [Fate.output?, Fate.changed?]
        · simp [Fate.output?, Fate.changed?, differ_iff]

/-- The report on a file tells its fate. -/
theorem reportFor_tells {w : World} {o : Options} {shared : Option Config}
    {p : Path} {contents : ByteArray} (hcontents : w.file? p = some contents) :
    (w.reportFor formatBytes o shared p).Tells o contents (w.fate o shared p) := by
  rw [reportFor, answer_examine hcontents, reportOn, fate, hcontents]
  cases w.configOf o shared p with
  | error e => exact ⟨(ite_self _).symm, rfl, rfl⟩
  | ok config =>
    dsimp only
    cases hskip : o.skip? contents with
    | some skip =>
      rw [report_of_skip hskip]
      exact ⟨(ite_self _).symm, rfl, rfl⟩
    | none =>
      rw [Option.isSome_none, if_neg Bool.false_ne_true]
      cases hbytes : reindentBytes formatBytes contents config p.text with
      | error e =>
        obtain ⟨messages, hreport⟩ := report_of_error hskip hbytes
        rw [hreport]
        exact ⟨(ite_self _).symm, rfl, rfl⟩
      | ok output =>
        obtain ⟨hreplacement, hchanged, herror⟩ := report_of_ok hskip hbytes
        refine ⟨?_, hchanged, by rw [herror]; rfl⟩
        rw [hreplacement]
        by_cases heq : output = contents
        · subst heq
          cases o.writes <;> cases differ output output <;> rfl
        · simp only [differ_iff.2 heq, Bool.and_true, Fate.output?]
          cases o.writes <;> rfl

/-- What the files share: the configuration from the file that the command line
names, if it names one. -/
def Shares (w : World) (o : Options) (shared : Option Config) : Prop :=
  match o.config with
  | none => shared = none
  | some _ => ∃ config, shared = some config ∧
    w.answer (configFor o ⟨""⟩) = .ok config

theorem Shares.own {w : World} {o : Options} {shared : Option Config}
    (h : w.Shares o shared) (hnone : shared = none) : o.config = none := by
  rw [Shares] at h
  split at h
  · assumption
  · obtain ⟨config, hconfig, _⟩ := h
    cases hnone.symm.trans hconfig

def oneFile (contents : ByteArray) : World where
  tree := { files := [(["a.rb"], contents)] }
  working := []
  home := none

end World

end RubyIndent
