import RubyIndent.Proofs.Document.Classification
import RubyIndent.Proofs.Document.Forgetting
import RubyIndent.Proofs.Ruby.Inertness

/-!
# Comments and literals in a document

A line of a document is compared with the same line where a comment is another one,
or a literal has other contents. If no pattern looks into either of them, then both
lines have the same shape, end at the same place and change the depth alike
(`line_exchange`). The patterns that do look are those for block parameters and for
brackets that are closed on the same line: `[1 # ]` counts as closed.
-/

namespace RubyIndent.Document

open RubyIndent.Peg RubyIndent.Ruby RubyIndent.Text

/-- A comment or literal at the start of a line, or what is before it, is no blank. -/
theorem flush_exchange {m w w' e : List Char} (hm : Flush m)
    (hx : Exchange w w' e) : Flush (m ++ (w ++ e)) := by
  cases m with
  | nil =>
    obtain ⟨q, hq, z, rfl⟩ := hx.marked
    have hmarks : ∀ q ∈ startMarks, isSpacing q = false := by decide
    rintro c ⟨⟩
    exact hmarks q hq
  | cons d m => exact hm

/-- Comments and the contents of literals that no pattern looks into are inert. The
shape of the line is the same, and so are what is left behind the line and what the
line does to the depth. -/
theorem line_exchange {b m w w' e : List Char} (hb : Blanks b) (hflush : Flush m)
    (hm : Tokens m) (hx : Exchange w w' e) (hseen : Unseen m w)
    (hseen' : Unseen m w') :
    classify (String.ofList (b ++ (m ++ (w ++ e))))
        = classify (String.ofList (b ++ (m ++ (w' ++ e)))) ∧
      ∀ {src src' : List Char} {s : State Indenter src} {s' : State Indenter src'},
        Ready s → Ready s' → s.cursor.rest = b ++ (m ++ (w ++ e)) →
        s'.cursor.rest = b ++ (m ++ (w' ++ e)) →
        let r := matchLine (skipBlanks s)
        let r' := matchLine (skipBlanks s')
        r.matched = r'.matched ∧ (r.matched = true →
          (∃ shape, MatchedAs shape (skipBlanks s).cursor r.state ∧
            MatchedAs shape (skipBlanks s').cursor r'.state) ∧
          r.state.cursor.rest = r'.state.cursor.rest ∧
          r.state.context.depth - s.context.depth
            = r'.state.context.depth - s'.context.depth) := by
  have hread := readLine_beside hx hm hseen hseen'
  have hdrop := dropWhile_blanks hb (flush_exchange hflush hx)
  have hdrop' := dropWhile_blanks hb (flush_exchange hflush hx.symm)
  constructor
  · rw [classify_eq, classify_eq, String.toList_ofList, String.toList_ofList, hdrop,
      hdrop']
    generalize readLine (m ++ (w ++ e)) = o at hread ⊢
    generalize readLine (m ++ (w' ++ e)) = o' at hread ⊢
    cases hread with
    | none => rfl
    | some h => exact congrArg some h.shape
  · intro src src' s s' hs hs' htext htext' r r'
    have hline : s.cursor.rest.dropWhile isSpacing = m ++ (w ++ e) :=
      htext ▸ hdrop
    have hline' : s'.cursor.rest.dropWhile isSpacing = m ++ (w' ++ e) :=
      htext' ▸ hdrop'
    rw [← hline, ← hline'] at hread
    generalize ho : readLine (s.cursor.rest.dropWhile isSpacing) = o at hread
    generalize ho' : readLine (s'.cursor.rest.dropWhile isSpacing) = o' at hread
    cases hread with
    | none =>
      have hfails : r.matched = false := matchLine_of_not_readLine hs ho
      have hfails' : r'.matched = false := matchLine_of_not_readLine hs' ho'
      exact ⟨hfails.trans hfails'.symm, fun h => absurd h (by simp [hfails])⟩
    | some h =>
      obtain ⟨hmatched, hrest, hshape, hdepth⟩ := matchLine_of_readLine hs ho
      obtain ⟨hmatched', hrest', hshape', hdepth'⟩ := matchLine_of_readLine hs' ho'
      rw [← h.shape] at hshape'
      rw [← h.rise] at hdepth'
      refine ⟨hmatched.trans hmatched'.symm, fun _ => ⟨⟨_, hshape, hshape'⟩,
        hrest.trans (h.rest.trans hrest'.symm), ?_⟩⟩
      dsimp only [r, r']
      omega

/-- The first line of a list, with two comments and with two literals. -/
theorem line_exchange_list :
    classify "[\"a\", # it's\n" = classify "[\"a\", # do\n" ∧
      classify "['a',\n" = classify "['do',\n" := by
  have quoted : ∀ e, Quoted "\"a\"".toList e :=
    quoted_plain (by decide) (k := ['a']) (by decide)
  have hlist : Tokens "[\"a\", ".toList :=
    .char (by decide) (.quoted quoted (.char (by decide) (.char (by decide) .nil)))
  have hcomment : Exchange "# it's".toList "# do".toList ['\n'] :=
    .comment (by decide) (by decide) (.inr ⟨[], rfl⟩)
  have hliteral : Exchange "'a'".toList "'do'".toList ",\n".toList :=
    .quoted (quoted_plain (by decide) (k := ['a']) (by decide) _)
      (quoted_plain (by decide) (k := ['d', 'o']) (by decide) _)
  have hcomments := line_exchange (b := []) nofun (by rintro _ ⟨⟩; rfl) hlist
    hcomment
    (unseen_of_not_mem (by decide) (by decide))
    (unseen_of_not_mem (by decide) (by decide))
  have hliterals := line_exchange (b := []) nofun (by rintro _ ⟨⟩; rfl)
    (.char (by decide) .nil : Tokens ['[']) hliteral
    (unseen_of_not_mem (by decide) (by decide))
    (unseen_of_not_mem (by decide) (by decide))
  exact ⟨by simpa using hcomments.1, by simpa using hliterals.1⟩

/-- A bracket in a comment closes a list, and a bar in a literal ends parameters. -/
theorem comment_closes_bracket :
    classify "[1 # ]\n" = some .bracketSameLine ∧
      classify "[1 # x\n" = some .bracketOpen ∧
      classify "x do |a = '|'|\n" = some .plain ∧
      classify "x do |a = 'b'|\n" = some .blockOpener ∧
      reindent "[1 # ]\n2\n]\n" {} = .ok "[1 # ]\n2\n]\n" := by
  simp only [classify_eq]
  refine ⟨?_, ?_, ?_, ?_, reindent_of_writeAll rfl ?_⟩ <;> decide +kernel

end RubyIndent.Document
