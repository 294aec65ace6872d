import RubyIndent.Proofs.Document.Acceptance
import RubyIndent.Proofs.Peg.Failures

/-!
# What a refusal says

The driver refuses a document with the diagnostic of its parse, which goes back to
the first line: it is about the latest of the failures that are furthest to the
right. The line rule itself has failed at the line in question, and a failure on
record is only replaced by one that is not before it, so the diagnostic points into
that line or beyond it.
-/

namespace RubyIndent.Document

open RubyIndent.Peg RubyIndent.Ruby RubyIndent.Text

variable {src : List Char}

/-- The states in which a round starts are those that calls lead to. -/
theorem StartsRound.reachable {i : Indenter} {t : State Indenter src}
    (h : StartsRound (.start src i) t) : t.Reachable grammar := by
  induction h with
  | first => exact .start i
  | next _ _ _ _ ih => exact .context _ (.apply _ (.apply _ ih))

/-- A round that finds no line ends the run with the diagnostic of the parse. -/
theorem run_eq_explain {t : State Indenter src} (hmore : (skipBlanks t).atEnd = false)
    (hnone : (matchLine (skipBlanks t)).value = none) :
    run t = .error
      ((matchLine (skipBlanks t)).state.explain grammar Sym.line.name) := by
  rw [run, if_neg (by simp [hmore])]
  dsimp only
  rw [hnone]

/-- The diagnostic for a line that is not there: a rule of the grammar, at a place
that is not before the line. -/
theorem explain_of_unmatched {s : State Indenter src} (hs : s.Reachable grammar)
    (hnone : (matchLine s).value = none) : ∃ id rule, ∃ c : Cursor src,
      grammar.rule? id = some rule ∧ s.cursor.offset ≤ c.offset ∧
      (matchLine s).state.explain grammar Sym.line.name
        = .atOffset src rule.name c.offset := by
  obtain ⟨context, fs, hfailures⟩ := hs.failures
  have hrecorded := hfailures.recorded (State.recorded_start grammar context)
  have he := State.apply_evaluates grammar Sym.line.id s
  rw [show (s.apply grammar Sym.line.id).value = none from hnone] at he
  obtain ⟨far, hfar, hle⟩ := he.furthest_of_none (grammar_rule? .line)
    ((hs.quiescent fun _ => True).idle _) hrecorded.quiet
  obtain ⟨fs', hcall⟩ := s.exists_failing grammar Sym.line.id
  have hend := hcall.recorded (c := ⟨.apply Sym.line.id, s, []⟩) hrecorded
  obtain ⟨-, rule, hrule, hfailure⟩ := hend.failure?_eq hfar
  refine ⟨far.1, rule, far.2, hrule, hle, ?_⟩
  simp only [matchLine, State.explain, hfailure, Option.getD_some]

/-- The diagnostic of a parse is about the latest of the failures that are furthest
to the right, at every moment of every parse, and has no influence on what matches.
So the diagnostic of a document that is refused is about a rule of the grammar and
points to a character, or to the end of the text, and not before the line that is not
matched. -/
theorem failures_are_diagnosed :
    (∀ {Ctx : Type} (g : Grammar Ctx) (text : List Char), g.Diagnoses text) ∧
    ∀ (input : String) (config : Config) (d : Diagnostic),
      reindent input config = .error d →
        ∃ t, LineAt (.start input.toList { unit := config.indentUnit : Indenter }) t ∧
          (matchLine (skipBlanks t)).value = none ∧
          readLine (t.cursor.rest.dropWhile isSpacing) = none ∧
          IsBoundary input.toList d.offset ∧
          (skipBlanks t).cursor.offset ≤ d.offset ∧
          d.offset ≤ byteLength input.toList ∧
          ∃ id rule, grammar.rule? id = some rule ∧
            d = .atOffset input.toList rule.name d.offset := by
  refine ⟨fun g text => g.diagnoses text, ?_⟩
  intro input config d herror
  have hready := ready_start input.toList { unit := config.indentUnit : Indenter }
  unfold reindent at herror
  split at herror
  · obtain ⟨t, hlast⟩ := StartsRound.exists_last hready .first
    cases hlast with
    | accepts _ _ hrun =>
      rw [hrun] at herror
      cases herror
    | refuses hline hunmatched _ =>
      obtain ⟨ht, hsame⟩ := hline.starts.ready hready
      have hspaced : (skipBlanks t).Reachable grammar :=
        .apply _ hline.starts.reachable
      obtain ⟨id, rule, c, hrule, hle, hexplain⟩ :=
        explain_of_unmatched hspaced hunmatched
      rw [hsame, run_eq_explain hline.more hunmatched, hexplain] at herror
      cases herror
      exact ⟨t, hline, hunmatched, not_readLine_of_unmatched ht hunmatched,
        c.isBoundary_offset, hle, c.isBoundary_offset.le, id, rule, hrule, rfl⟩
  · cases herror

/-- On `"1-"` the chain is grown once, in vain, and `one` is what fails last. In
`"é'\n"` the quote is not closed. -/
theorem failures_are_diagnosed_chain :
    (∃ context fs, Failures chainGrammar (.start ['1', '-'] context) fs
        ((State.start ['1', '-'] 0).apply chainGrammar 1).state ∧ fs ≠ [] ∧
      ((State.start ['1', '-'] 0).apply chainGrammar 1).state.Explains
        chainGrammar fs) ∧
    ∃ d, reindent "é'\n" {} = .error d ∧ IsBoundary "é'\n".toList d.offset := by
  constructor
  · have hdiagnoses := failures_are_diagnosed.1 chainGrammar ['1', '-']
    obtain ⟨context, fs, hfailures⟩ := hdiagnoses.reachable _ (.apply 1 (.start 0))
    have hexplains := hdiagnoses.between context fs _ hfailures
    refine ⟨context, fs, hfailures, ?_, hexplains⟩
    rintro rfl
    have hsome : (((State.start ['1', '-'] 0).apply chainGrammar 1).state.failure?
        chainGrammar).map (fun d => (d.rule, d.offset)) = some ("one", 2) := by
      decide +kernel
    rcases hexplains with ⟨-, hnone⟩ | ⟨_, _, _, ⟨before, after, heq, -⟩, -⟩
    · rw [hnone] at hsome
      cases hsome
    · simp at heq
  · cases h : reindent "é'\n" {} with
    | ok output =>
      have hrefused : (reindent "é'\n" {}).toOption = none := by
        decide +kernel
      rw [h] at hrefused
      cases hrefused
    | error d =>
      obtain ⟨_, _, _, _, hboundary, _⟩ := failures_are_diagnosed.2 _ _ d h
      exact ⟨d, rfl, hboundary⟩

end RubyIndent.Document
