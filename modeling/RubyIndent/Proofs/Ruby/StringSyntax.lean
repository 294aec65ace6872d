import RubyIndent.Proofs.Peg.Memoization
import RubyIndent.Proofs.Ruby.Tails

/-!
# The syntax of strings

Which texts are complete double-quoted literals, said by a grammar of its own:
`DqContents` and `CodeContents` generate what stands between quotes and between
braces, nested to any depth. The rules for strings have fallbacks that the grammar
has not: a quote or brace without an end is text to them. On a complete literal none
of the fallbacks is taken, and so a literal ends at its own closing quote, whatever
stands behind it (`afterDq_contents`, `afterBrace_contents`).
-/

namespace RubyIndent.Ruby

open RubyIndent.Peg RubyIndent.Text

inductive SqContents : List Char → Prop where
  | nil : SqContents []
  | char {c : Char} {w : List Char} (hc : c ∉ ['\'', '\\']) (hw : SqContents w) :
    SqContents (c :: w)
  | escape {c : Char} {w : List Char} (hw : SqContents w) :
    SqContents ('\\' :: c :: w)

mutual

inductive DqContents : List Char → Prop where
  | nil : DqContents []
  | interpolation {p w : List Char} (hp : CodeContents p) (hw : DqContents w) :
    DqContents ('#' :: '\x7b' :: (p ++ '\x7d' :: w))
  | escape {c : Char} {w : List Char} (hw : DqContents w) :
    DqContents ('\\' :: c :: w)
  | char {c : Char} {w : List Char} (hc : c ∉ ['\"', '\\', '#'])
      (hw : DqContents w) : DqContents (c :: w)
  /-- A `#` that starts no interpolation. -/
  | sign {w : List Char} (hnext : w.head? ≠ some '\x7b') (hw : DqContents w) :
    DqContents ('#' :: w)

/-- What may stand between the braces of an interpolation, or between braces in
it. -/
inductive CodeContents : List Char → Prop where
  | nil : CodeContents []
  | dqLiteral {q w : List Char} (hq : DqContents q) (hw : CodeContents w) :
    CodeContents ('\"' :: (q ++ '\"' :: w))
  | sqLiteral {q w : List Char} (hq : SqContents q) (hw : CodeContents w) :
    CodeContents ('\'' :: (q ++ '\'' :: w))
  | escapedBrace {w : List Char} (hw : CodeContents w) :
    CodeContents ('\\' :: '\x7d' :: w)
  | braces {p w : List Char} (hp : CodeContents p) (hw : CodeContents w) :
    CodeContents ('\x7b' :: (p ++ '\x7d' :: w))
  | char {c : Char} {w : List Char}
      (hc : c ∉ ['\x7b', '\x7d', '\'', '\"', '\\']) (hw : CodeContents w) :
    CodeContents (c :: w)

end

/-- The complete double-quoted literals. -/
inductive DqLiteral : List Char → Prop where
  | intro {q : List Char} (hq : DqContents q) : DqLiteral ('\"' :: (q ++ ['\"']))

/-! ## Literals end at their closing quote -/

theorem afterSq_contents {q : List Char} (h : SqContents q) (post : List Char) :
    afterSq (q ++ '\'' :: post) = some post := by
  induction h with
  | nil => rfl
  | @char c w hc _ ih =>
    have hne : c ≠ '\'' ∧ c ≠ '\\' := by simpa using hc
    rw [List.cons_append, afterSq_other hne.1 hne.2, ih]
  | escape _ ih =>
    rw [List.cons_append, List.cons_append, afterSq]
    exact ih

mutual

theorem afterDq_contents : ∀ {q : List Char}, DqContents q → ∀ post,
    afterDq (q ++ '\"' :: post) = some post
  | _, .nil, post => by rw [List.nil_append, afterDq]
  | _, .interpolation (p := p) (w := w) hp hw, post => by
    have hcode : afterBrace (p ++ '\x7d' :: w ++ '\"' :: post)
        = some (w ++ '\"' :: post) := by
      rw [List.append_assoc]
      exact afterBrace_contents hp (w ++ '\"' :: post)
    rw [List.cons_append, List.cons_append, afterDq_interpolation, hcode]
    exact afterDq_contents hw post
  | _, .escape hw, post => by
    rw [List.cons_append, List.cons_append, afterDq]
    exact afterDq_contents hw post
  | _, .char (c := c) hc hw, post => by
    have hne : c ≠ '\"' ∧ c ≠ '\\' ∧ c ≠ '#' := by simpa using hc
    rw [List.cons_append,
      afterDq_other hne.1 hne.2.1 fun _ h => absurd h hne.2.2]
    exact afterDq_contents hw post
  | _, .sign (w := w) hnext hw, post => by
    have hbehind : ∀ t, w ++ '\"' :: post ≠ '\x7b' :: t := by
      intro t heq
      cases w with
      | nil => cases heq
      | cons c w =>
        cases heq
        exact hnext rfl
    rw [List.cons_append,
      afterDq_other (by decide) (by decide) fun t _ => hbehind t]
    exact afterDq_contents hw post

theorem afterBrace_contents : ∀ {p : List Char}, CodeContents p → ∀ post,
    afterBrace (p ++ '\x7d' :: post) = some post
  | _, .nil, post => by rw [List.nil_append, afterBrace]
  | _, .dqLiteral (q := q) (w := w) hq hw, post => by
    have hstring : afterDq (q ++ '\"' :: w ++ '\x7d' :: post)
        = some (w ++ '\x7d' :: post) := by
      rw [List.append_assoc]
      exact afterDq_contents hq (w ++ '\x7d' :: post)
    rw [List.cons_append, afterBrace, within_afterDq, hstring]
    exact afterBrace_contents hw post
  | _, .sqLiteral (q := q) (w := w) hq hw, post => by
    have hstring : afterSq (q ++ '\'' :: w ++ '\x7d' :: post)
        = some (w ++ '\x7d' :: post) := by
      rw [List.append_assoc]
      exact afterSq_contents hq (w ++ '\x7d' :: post)
    rw [List.cons_append, afterBrace, within_afterSq, hstring]
    exact afterBrace_contents hw post
  | _, .escapedBrace hw, post => by
    rw [List.cons_append, List.cons_append, afterBrace]
    exact afterBrace_contents hw post
  | _, .braces (p := p) (w := w) hp hw, post => by
    have hcode : afterBrace (p ++ '\x7d' :: w ++ '\x7d' :: post)
        = some (w ++ '\x7d' :: post) := by
      rw [List.append_assoc]
      exact afterBrace_contents hp (w ++ '\x7d' :: post)
    rw [List.cons_append, afterBrace, within_afterBrace, hcode]
    exact afterBrace_contents hw post
  | _, .char (c := c) hc hw, post => by
    have hne : c ≠ '\x7b' ∧ c ≠ '\x7d' ∧ c ≠ '\'' ∧ c ≠ '\"' ∧ c ≠ '\\' := by
      simpa using hc
    obtain ⟨hopen, hclose, hsq, hdq, hback⟩ := hne
    rw [List.cons_append, afterBrace_other ⟨hclose, hsq, hdq, hopen⟩
      fun _ h => absurd h hback]
    exact afterBrace_contents hw post

end

theorem dqString_of_literal {w : List Char} (h : DqLiteral w) (post : List Char) :
    dqString (w ++ post) = some post := by
  obtain ⟨hq⟩ := h
  rw [List.cons_append, List.append_assoc]
  exact afterDq_contents hq post

/-- To the scanners of a line a literal is one token, whatever they take for a
word. -/
theorem token_of_literal {w : List Char} (h : DqLiteral w) (word : Reader)
    (post : List Char) : token word (w ++ post) = some post := by
  have hstring := dqString_of_literal h post
  obtain ⟨hq⟩ := h
  rw [List.cons_append] at hstring ⊢
  change (dqString _).or _ = _
  rw [hstring, Option.some_or]

theorem skipAll_literal {w : List Char} (h : DqLiteral w) (word : Reader)
    (post : List Char) :
    Reader.skipAll (token word) (w ++ post) = Reader.skipAll (token word) post := by
  refine skipAll_some (token_of_literal h word post) ?_
  obtain ⟨_⟩ := h
  simp only [List.length_append, List.length_cons]
  omega

/-! ## Literals in a text -/

/-- A table that calls have filled is right for plain rules, wherever the cursor
is put. -/
theorem sound_of_reachable {src : List Char} {s : State Indenter src}
    (hs : s.Reachable grammar) (c : Cursor src) :
    Sound grammar plain { s with cursor := c } :=
  have h := hs.quiescent plain
  ⟨h.agrees, h.clear⟩

/-- A scanner that meets a literal goes on behind it as if it had been started
there. -/
theorem scan_past_literal {src w : List Char} (hw : DqLiteral w)
    {s : State Indenter src} (hs : s.Reachable grammar) {c d : Cursor src}
    (hcd : c.rest = w ++ d.rest) {sym : Sym} (hsym : sym.isPlain = true)
    {word : Reader} (hreads : Reads grammar plain sym.ref (.many (token word))) :
    ({ s with cursor := c }.apply grammar sym.id).state.cursor
      = ({ s with cursor := d }.apply grammar sym.id).state.cursor := by
  obtain ⟨x, hx, _, hcx⟩ := Sym.took hsym hreads (sound_of_reachable hs c)
  obtain ⟨y, hy, _, hdy⟩ := Sym.took hsym hreads (sound_of_reachable hs d)
  rw [hcd, skipAll_literal hw] at hx
  have hcursor := congrArg View.cursor hcx
  rw [cursor_eq_of_rest (hx.trans hy.symm)] at hcursor
  exact hcursor.trans (congrArg View.cursor hdy).symm

/-- In any text and after any calls, a complete double-quoted literal is matched up
to its closing quote, and the scanners of a line see nothing of what is in it. -/
theorem dqString_ends_at_quote {w : List Char} (hw : DqLiteral w)
    (before behind : List Char) {s : State Indenter (before ++ (w ++ behind))}
    (hs : s.Reachable grammar) {c d : Cursor (before ++ (w ++ behind))}
    (hc : c.index = before.length) (hd : d.index = before.length + w.length) :
    ({ s with cursor := c }.apply grammar Sym.dqString.id).value
        = some (.span c d) ∧
      ({ s with cursor := c }.apply grammar Sym.dqString.id).state.cursor = d ∧
      ∀ sym ∈ [Sym.rest, Sym.lead, Sym.text],
        ({ s with cursor := c }.apply grammar sym.id).state.cursor
          = ({ s with cursor := d }.apply grammar sym.id).state.cursor := by
  have hdrest : d.rest = behind := by
    rw [d.rest_eq, hd, ← List.drop_drop, List.drop_left, List.drop_left]
  have hcd : c.rest = w ++ d.rest := by
    rw [c.rest_eq, hc, List.drop_left, hdrest]
  have hstring := Sym.took rfl reads_dqString (sound_of_reachable hs c)
  rw [hcd, dqString_of_literal hw] at hstring
  obtain ⟨e, he, hvalue, hview⟩ := hstring
  obtain rfl : e = d := cursor_eq_of_rest he
  refine ⟨hvalue, congrArg View.cursor hview, ?_⟩
  intro sym hsym
  simp only [List.mem_cons, List.not_mem_nil, or_false] at hsym
  rcases hsym with rfl | rfl | rfl
  · exact scan_past_literal hw hs hcd rfl reads_rest
  · exact scan_past_literal hw hs hcd rfl reads_lead
  · exact scan_past_literal hw hs hcd rfl reads_text

/-- Code in a string, with a brace in one string of its own and code in another. The
text goes on with a brace and a quote. -/
theorem dqString_ends_at_quote_nested :
    let w := "\"#\x7b'\x7d'\"#\x7b\x7d\"\x7d\"".toList
    let s := State.start ("x\"".toList ++ (w ++ "\x7d\"\n".toList)) ({} : Indenter)
    DqLiteral w ∧
      ({ s with cursor := s.cursor.skip 2 }.apply grammar Sym.dqString.id).value
        = some (.span (s.cursor.skip 2) (s.cursor.skip 15)) := by
  have hw : DqLiteral "\"#\x7b'\x7d'\"#\x7b\x7d\"\x7d\"".toList :=
    .intro (.interpolation (.sqLiteral (.char (c := '\x7d') (by decide) .nil)
      (.dqLiteral (.interpolation .nil .nil) .nil)) .nil)
  exact ⟨hw, (dqString_ends_at_quote hw "x\"".toList "\x7d\"\n".toList (.start {})
    rfl rfl).1⟩

end RubyIndent.Ruby
