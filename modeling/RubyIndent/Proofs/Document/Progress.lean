import RubyIndent.Proofs.Document.Content
import RubyIndent.Proofs.Peg.Ranked
import RubyIndent.Proofs.Ruby.LineActions

/-!
# The driver makes progress

`Document.run` asks of every line whether it took text. `Loop.round` is a round
of the driver that does not ask. It ends all the same, and in the same way
(`rounds_eq_run`): every line ends behind a newline, so there is at most one
round for each newline of the document and one more.

No rule of the line grammar is left recursive, which `Sym.rank` shows: strings,
interpolations and braces contain each other, but each of them starts with a
character of its own. So the table never has to answer for a rule that is still
under way, and no match is grown.
-/

namespace RubyIndent.Ruby

open RubyIndent.Peg

/-! ## The line grammar is not left recursive -/

/-- How many rules can follow each other before any text is taken. -/
def Sym.rank : Sym → Nat
  | .interpPart | .dqPart | .heredocTerminator | .physicalLine | .blockTail
  | .bracketTail => 1
  | .heredocBody | .anyTail => 2
  | .leadStop | .rest | .text => 3
  | .lead => 4
  | .shape _ => 5
  | .line => 6
  | _ => 0

def rankOf (id : RuleId) : Nat :=
  ((Sym.all[id]?).map Sym.rank).getD 0

theorem ranked_grammar : grammar.Ranked rankOf := by
  have hsyms : ∀ (n : Fin Sym.all.length),
      ∀ j ∈ (Sym.all.get n).body.heads, rankOf j < rankOf n := by
    decide +kernel
  intro id rule hr j hj
  rw [grammar_rule?_eq] at hr
  obtain ⟨sym, hsym, rfl⟩ := Option.map_eq_some_iff.1 hr
  obtain ⟨hlt, rfl⟩ := List.getElem?_eq_some_iff.1 hsym
  exact hsyms ⟨id, hlt⟩ j hj

end RubyIndent.Ruby

namespace RubyIndent.Document

open RubyIndent.Peg RubyIndent.Ruby RubyIndent.Text

variable {src : List Char}

/-! ## Rounds -/

/-- A driver that goes on from a state, or has ended. -/
inductive Loop (src : List Char) where
  | going (s : State Indenter src)
  | ended (result : Except Diagnostic (State Indenter src))

/-- One round of the driver, whatever text a line takes. -/
def Loop.round : Loop src → Loop src
  | .ended result => .ended result
  | .going s =>
    let spaced := skipBlanks s
    if spaced.atEnd then .ended (.ok spaced)
    else
      let r := matchLine spaced
      match r.value with
      | none => .ended (.error (r.state.explain grammar Sym.line.name))
      | some value => .going (write value r.state)

theorem Loop.round_ended (n : Nat) (result : Except Diagnostic (State Indenter src)) :
    Loop.round^[n] (.ended result) = .ended result :=
  Function.iterate_fixed rfl n

/-- The line that a round reads ends with a newline. -/
theorem Round.lineText_eq {t : State Indenter src} {l : LogicalLine}
    {r : List Char} {value : Value (Cursor src)} (ht : Ready t)
    (hround : Round t l r value)
    (hline : readLine (t.cursor.rest.dropWhile isSpacing) = some (l, r)) :
    (∃ line, lineText t = line ++ ['\n']) ∧
      t.cursor.rest = t.cursor.rest.takeWhile isSpacing ++ (lineText t ++ r) := by
  obtain ⟨hl, b, b', _, _, hb, hb', htext, hrest, _, _⟩ :=
    round_layout ht hround hline
  obtain ⟨m, hm⟩ := hl.ended
  constructor
  · rw [htext, hm]
    cases l with
    | whole shape text => exact ⟨m, List.append_nil _⟩
    | heredoc head body label opens =>
      exact ⟨m ++ ['\n'] ++ (b ++ (label.toList ++ b')), by
        simp [LogicalLine.closingLine]⟩
  · rw [htext]
    simpa using hrest

/-- One round for every newline, and one more, are enough. -/
theorem rounds_eq_run {s : State Indenter src} (hs : Ready s) {n : Nat}
    (hn : s.cursor.rest.count '\n' < n) :
    Loop.round^[n] (.going s) = .ended (run s) := by
  induction n generalizing s with
  | zero => cases hn
  | succ n ih =>
    rw [Function.iterate_succ_apply]
    by_cases hend : s.cursor.rest.dropWhile isSpacing = []
    · have hround : Loop.round (.going s) = .ended (run s) := by
        have hat : (skipBlanks s).atEnd = true := by
          rw [State.atEnd, Cursor.atEnd, (skipBlanks_of_ready hs).2.1, hend]
          rfl
        rw [run_eq_of_end hs hend, Loop.round]
        exact if_pos hat
      rw [hround, Loop.round_ended]
    · have hmore := not_atEnd_skipBlanks hs hend
      have hread := round_of_ready hs
      cases hline : readLine (s.cursor.rest.dropWhile isSpacing) with
      | none =>
        rw [hline] at hread
        dsimp only at hread
        have hround : Loop.round (.going s) = .ended (run s) := by
          rw [run, Loop.round]
          simp only [hmore, hread, Bool.false_eq_true, if_false]
        rw [hround, Loop.round_ended]
      | some p =>
        obtain ⟨l, r⟩ := p
        rw [hline] at hread
        obtain ⟨value, hread⟩ := hread
        have hround : Loop.round (.going s) = .going (afterRound s value) := by
          rw [Loop.round]
          simp only [hmore, hread.matched, Bool.false_eq_true, if_false]
          rfl
        obtain ⟨⟨line, hlast⟩, hrest⟩ := hread.lineText_eq hs hline
        -- The newline at the end of the line is not met again.
        have hcount := congrArg (List.count '\n') hrest
        rw [hlast] at hcount
        simp only [List.count_append, List.count_singleton_self] at hcount
        rw [hround, run_eq_of_round hs hend hread hline]
        refine ih hread.ready ?_
        rw [hread.rest]
        omega

/-- The states between rounds are those in which `run` starts a round. -/
theorem startsRound_of_round {s t : State Indenter src} (hs : Ready s) {n : Nat}
    (h : Loop.round^[n] (.going s) = .going t) : StartsRound s t := by
  induction n generalizing t with
  | zero =>
    cases h
    exact .first
  | succ n ih =>
    rw [Function.iterate_succ_apply'] at h
    cases hn : Loop.round^[n] (.going s) with
    | ended result =>
      rw [hn] at h
      cases h
    | going u =>
      have hstarts := ih hn
      rw [hn, Loop.round] at h
      simp only at h
      split at h
      · cases h
      · rename_i hmore
        split at h
        · cases h
        · rename_i value hvalue
          cases h
          obtain ⟨l, r, hline, hround⟩ :=
            round_of_matched (hstarts.ready hs).1 hvalue
          exact .next hstarts (Bool.eq_false_iff.2 hmore) hvalue
            (hround.progress hline)

/-! ## Nothing is grown -/

theorem atRest_start (text : List Char) (i : Indenter) :
    (State.start text i).AtRest :=
  ⟨Memo.not_open_empty, Memo.Every.empty⟩

/-- Between rounds nothing is under way, and nothing was grown. -/
theorem StartsRound.atRest {s t : State Indenter src} (h : StartsRound s t)
    (hs : s.AtRest) : t.AtRest ∧ t.growthRounds = s.growthRounds := by
  induction h with
  | first => exact ⟨hs, rfl⟩
  | next _ _ _ _ ih =>
    obtain ⟨hrest, hrounds⟩ := ih
    obtain ⟨hspaced, hrounds'⟩ := hrest.apply ranked_grammar Sym.spacing.id
    obtain ⟨hline, hrounds''⟩ := hspaced.apply ranked_grammar Sym.line.id
    exact ⟨⟨hline.ended, hline.forward⟩,
      hrounds''.trans (hrounds'.trans hrounds)⟩

/-- The driver makes progress, on every document and with every unit. It ends
after at most one round for each newline and one more. In every round the line
rule, where it matches, goes forward to the place behind a newline. And at no
step of a round is a rule applied where it is under way; no match is grown. -/
theorem driver_progresses (input unit : String) :
    let start := State.start input.toList { unit := unit : Indenter }
    Loop.round^[input.toList.count '\n' + 1] (.going start)
      = .ended (run start) ∧
    ∀ n t, Loop.round^[n] (.going start) = .going t →
      (∀ value, (matchLine (skipBlanks t)).value = some value →
        (skipBlanks t).cursor.index < (lineEnd t).index ∧
        ∃ line, lineText t = line ++ ['\n']) ∧
      ∀ log c, Steps grammar ⟨.apply Sym.spacing.id, t, []⟩ log c ∨
          Steps grammar ⟨.apply Sym.line.id, skipBlanks t, []⟩ log c →
        c.state.growthRounds = 0 ∧
        ∀ id, c.focus = .apply id →
          ¬ c.state.memo.Open (id, c.state.cursor) := by
  intro start
  have hready : Ready start := ready_start _ _
  refine ⟨rounds_eq_run hready (Nat.lt_succ_self _), fun n t ht => ?_⟩
  have hstarts := startsRound_of_round hready ht
  have ht := (hstarts.ready hready).1
  constructor
  · intro value hvalue
    obtain ⟨l, r, hline, hround⟩ := round_of_matched ht hvalue
    refine ⟨?_, (hround.lineText_eq ht hline).1⟩
    have hend : (lineEnd t).rest = r := hround.rest
    rw [Pattern.index_lt_iff, hend, (skipBlanks_of_ready ht).2.1]
    exact readLine_shortens hline
  · intro log c hsteps
    obtain ⟨hrest, hrounds⟩ := hstarts.atRest (atRest_start _ _)
    have horderly : c.Orderly rankOf ∧ c.state.growthRounds = 0 := by
      rcases hsteps with hsteps | hsteps
      · obtain ⟨hc, hsame⟩ := hsteps.orderly ranked_grammar (hrest.orderly _)
        exact ⟨hc, hsame.trans hrounds⟩
      · obtain ⟨hspaced, hrounds'⟩ := hrest.apply ranked_grammar Sym.spacing.id
        obtain ⟨hc, hsame⟩ := hsteps.orderly ranked_grammar (hspaced.orderly _)
        exact ⟨hc, hsame.trans (hrounds'.trans hrounds)⟩
    exact ⟨horderly.2, fun id hid => horderly.1.not_open hid⟩

/-- A string with an interpolation over two lines is one line for the driver, and
it is matched without growing anything. -/
theorem driver_progresses_string :
    let start := State.start "x \"#\x7b'\n'\x7d\"\n".toList { unit := "\t" : Indenter }
    (∃ line, lineText start = line ++ ['\n']) ∧
      (matchLine (skipBlanks start)).state.growthRounds = 0 := by
  intro start
  have hmatched : (matchLine (skipBlanks start)).value.isSome = true := by
    decide +kernel
  obtain ⟨value, hvalue⟩ := Option.isSome_iff_exists.1 hmatched
  obtain ⟨hline, hsteps⟩ := (driver_progresses _ "\t").2 0 start rfl
  obtain ⟨log, hlog⟩ := (skipBlanks start).apply_steps grammar Sym.line.id
  exact ⟨(hline value hvalue).2, (hsteps log _ (.inr (hlog []))).1⟩

end RubyIndent.Document
