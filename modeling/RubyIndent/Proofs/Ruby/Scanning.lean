import RubyIndent.Proofs.Ruby.Strings

/-!
# Reading a line

The readers of the symbols that make up a line: blanks, comments, tails, and the
three ways to skip over the tokens of a line. Each comes with the lemma that
the grammar reads it. The shapes other than heredocs are plain expressions over
these symbols, so each has a reader too (`reads_body`).
-/

namespace RubyIndent.Ruby

open RubyIndent.Peg RubyIndent.Text RubyIndent.Pattern

def isSpacing (c : Char) : Bool :=
  c = ' ' || c = '\t'

def spacing : Reader :=
  fun s => some (s.dropWhile isSpacing)

def newline : Reader := .literal "\n"

def endOfText : Reader := .absent (.pattern Token.anyChar)

def comment : Reader := .pattern Token.comment

/-! ## The end of a line -/

def blockOpener : Reader :=
  .orElse (.pattern Token.doBlock) (.pattern Token.braceBlock)

/-- An opener with nothing but a comment between it and the newline. -/
def tail (opener : Reader) : Reader :=
  .next opener (.next spacing (.next (.optional comment) (.present newline)))

def blockTail : Reader := tail blockOpener

def bracketTail : Reader := tail (.pattern Token.openBracket)

def anyTail : Reader := .orElse blockTail bracketTail

def leadStop : Reader := .orElse anyTail (.pattern Token.heredocAhead)

/-! ## The middle of a line -/

/-- A token of a line, where `word` reads what is no escape, comment or
literal. -/
def token (word : Reader) : Reader :=
  .orElse (.pattern Token.escape) (.orElse comment (.orElse dqString
    (.orElse sqString word)))

/-- A word or character at which the given reader takes nothing. -/
def wordBefore (stop : Reader) : Reader :=
  .next (.absent stop) (.pattern Token.wordOrChar)

def upToTail : Reader := .many (token (wordBefore anyTail))

def upToStop : Reader := .many (token (wordBefore leadStop))

def upToEnd : Reader := .many (token (.pattern Token.wordOrChar))

/-! ## The grammar reads these -/

theorem skipAll_spacing (s : List Char) :
    Reader.skipAll (.orElse (.literal " ") (.literal "\t")) s
      = s.dropWhile isSpacing := by
  induction s with
  | nil => exact skipAll_none rfl
  | cons c s ih =>
    cases hc : isSpacing c with
    | true =>
      have hone : Reader.orElse (.literal " ") (.literal "\t") (c :: s)
          = some s := by
        simp only [isSpacing, Bool.or_eq_true, decide_eq_true_eq] at hc
        rcases hc with rfl | rfl <;> rfl
      rw [skipAll_some hone (Nat.lt_succ_self _), ih, List.dropWhile_cons,
        if_pos hc]
    | false =>
      have hne : c ≠ ' ' ∧ c ≠ '\t' := by simpa [isSpacing] using hc
      have hone : Reader.orElse (.literal " ") (.literal "\t") (c :: s)
          = none := by
        simp [Reader.orElse, Reader.literal, hne.1.symm,
          hne.2.symm]
      rw [skipAll_none hone, List.dropWhile_cons, if_neg (by simp [hc])]

theorem reads_spacing : Reads grammar plain Sym.spacing.ref spacing := by
  have h := Sym.reads (s := .spacing) rfl (Reads.many (Reads.choice_cons
    (Reads.literal " ") (Reads.choice_last (Reads.literal "\t"))))
  have heq : Reader.many (.orElse (.literal " ") (.literal "\t")) = spacing :=
    funext fun s => congrArg some (skipAll_spacing s)
  rwa [heq] at h

theorem reads_eol : Reads grammar plain Sym.eol.ref newline :=
  Sym.reads rfl (Reads.literal "\n")

theorem reads_eof : Reads grammar plain Sym.eof.ref endOfText :=
  Sym.reads rfl (Reads.not (Reads.pattern rfl))

theorem reads_comment : Reads grammar plain Sym.comment.ref comment :=
  Sym.reads rfl (Reads.pattern rfl)

theorem reads_tail {e : Expr Indenter} {f : Reader}
    (h : Reads grammar plain e f) : Reads grammar plain (Line.tail e) (tail f) :=
  Reads.sequence (.cons h (.cons reads_spacing
    (.cons (Reads.optional reads_comment) (.last (Reads.and reads_eol)))))

theorem reads_blockTail : Reads grammar plain Sym.blockTail.ref blockTail :=
  Sym.reads rfl (reads_tail (Sym.reads rfl
    (Reads.choice_cons (Reads.pattern rfl)
      (Reads.choice_last (Reads.pattern rfl)))))

theorem reads_bracketTail :
    Reads grammar plain Sym.bracketTail.ref bracketTail :=
  Sym.reads rfl (reads_tail (Reads.pattern rfl))

theorem reads_anyTail : Reads grammar plain Sym.anyTail.ref anyTail :=
  Sym.reads rfl (Reads.choice_cons reads_blockTail
    (Reads.choice_last reads_bracketTail))

theorem reads_leadStop : Reads grammar plain Sym.leadStop.ref leadStop :=
  Sym.reads rfl (Reads.choice_cons reads_anyTail
    (Reads.choice_last (Reads.pattern rfl)))

theorem reads_scan {e : Expr Indenter} {f : Reader}
    (h : Reads grammar plain e f) :
    Reads grammar plain (Line.scan e) (.many (token f)) :=
  Reads.many (Reads.choice_cons (Reads.pattern rfl)
    (Reads.choice_cons reads_comment (Reads.choice_cons reads_dqString
      (Reads.choice_cons reads_sqString (Reads.choice_last h)))))

theorem reads_wordBefore {stop : Sym} {f : Reader}
    (h : Reads grammar plain stop.ref f) :
    Reads grammar plain (Line.wordBefore stop) (wordBefore f) :=
  Reads.sequence (.cons (Reads.not h) (.last (Reads.pattern rfl)))

theorem reads_rest : Reads grammar plain Sym.rest.ref upToTail :=
  Sym.reads rfl (reads_scan (reads_wordBefore reads_anyTail))

theorem reads_lead : Reads grammar plain Sym.lead.ref upToStop :=
  Sym.reads rfl (reads_scan (reads_wordBefore reads_leadStop))

theorem reads_text : Reads grammar plain Sym.text.ref upToEnd :=
  Sym.reads rfl (reads_scan (Reads.pattern rfl))

/-! ## Shapes -/

/-- A keyword as a whole word that is no hash key. -/
def keyword (word : String) : Reader :=
  .next (.literal word) (.next (.absent (.pattern Token.identChar))
    (.absent (.next (.literal ":") (.absent (.literal ":")))))

def keywords : List String → Reader
  | [] => fun _ => none
  | word :: words => .orElse (keyword word) (keywords words)

theorem reads_keyword (word : String) :
    Reads grammar plain (Line.keyword word) (keyword word) :=
  Reads.sequence (.cons (Reads.literal word)
    (.cons (Reads.not (Reads.pattern rfl))
      (.last (Reads.not (Reads.sequence (.cons (Reads.literal ":")
        (.last (Reads.not (Reads.literal ":")))))))))

theorem reads_keywords (words : List String) :
    Reads grammar plain (Line.keywords words) (keywords words) := by
  induction words with
  | nil => exact Reads.choice_nil
  | cons word words ih => exact Reads.choice_cons (reads_keyword word) ih

/-- What a line starts with, for the shapes that show at the start. -/
def opening : LineShape → Reader
  | .indentOpen => keywords indentKeywords
  | .outdent => keyword outdentKeyword
  | .dual => keywords dualKeywords
  | .bracketSameLine =>
    .orElse (.next (.literal "[") (.pattern Token.bracketEnd))
      (.next (.literal "\x7b") (.pattern Token.braceEnd))
  | .bracketOpen => .orElse (.literal "[") (.literal "\x7b")
  | .bracketClose => .orElse (.literal "]") (.literal "\x7d")
  | _ => fun _ => none

/-- A line of some shape, with its newline. Heredocs are read differently. -/
def lineOf : LineShape → Reader
  | .blockOpener => .next upToStop (.next blockTail newline)
  | .bracketTail => .next upToStop (.next bracketTail newline)
  | .heredocIntro => fun _ => none
  | .plain => .next upToEnd newline
  | s => .next (opening s) (.next upToTail newline)

theorem reads_opened {e : Expr Indenter} {f : Reader}
    (h : Reads grammar plain e f) :
    Reads grammar plain (.sequence [e, Sym.rest.ref, Sym.eol.ref])
      (.next f (.next upToTail newline)) :=
  Reads.sequence (.cons h (.cons reads_rest (.last reads_eol)))

/-- The grammar reads lines of every shape but heredocs. -/
theorem reads_body : ∀ s : LineShape, s ≠ .heredocIntro →
    Reads grammar plain (Line.body s) (lineOf s)
  | .indentOpen, _ | .dual, _ => reads_opened (reads_keywords _)
  | .outdent, _ => reads_opened (reads_keyword _)
  | .bracketSameLine, _ =>
    reads_opened (Reads.choice_cons
      (Reads.sequence (.cons (Reads.literal _) (.last (Reads.pattern rfl))))
      (Reads.choice_last (Reads.sequence
        (.cons (Reads.literal _) (.last (Reads.pattern rfl))))))
  | .bracketOpen, _ | .bracketClose, _ =>
    reads_opened (Reads.choice_cons (Reads.literal _)
      (Reads.choice_last (Reads.literal _)))
  | .blockOpener, _ =>
    Reads.sequence (.cons reads_lead (.cons reads_blockTail (.last reads_eol)))
  | .bracketTail, _ =>
    Reads.sequence (.cons reads_lead
      (.cons reads_bracketTail (.last reads_eol)))
  | .heredocIntro, h => absurd rfl h
  | .plain, _ => Reads.sequence (.cons reads_text (.last reads_eol))

theorem body_within : ∀ s : LineShape, s ≠ .heredocIntro →
    (Line.body s).Within plain := by
  intro s hs
  have keywords : ∀ words : List String, AllWithin plain
      (words.map Line.keyword) := by
    intro words
    induction words with
    | nil => exact trivial
    | cons word words ih =>
      exact ⟨⟨trivial, trivial, ⟨trivial, trivial, trivial⟩, trivial⟩, ih⟩
  cases s
  case heredocIntro => exact absurd rfl hs
  all_goals
    simp [Line.body, Expr.Within, AllWithin, Sym.ref, plain_id, Sym.isPlain,
      Line.keywords, Line.keyword, keywords]

end RubyIndent.Ruby
