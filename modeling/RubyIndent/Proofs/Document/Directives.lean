import RubyIndent.Directive
import RubyIndent.Proofs.Document.Content
import RubyIndent.Proofs.Document.Forgetting
import RubyIndent.Proofs.Text.PhysicalLines
import RubyIndent.Proofs.Text.Words

/-!
# Directives outlast reindenting

A directive is looked for in physical lines, wherever they stand, also inside of
strings and heredocs; reindenting works on logical lines. The two do not get in
each other's way, because blanks around a physical line do not matter to a
directive (`arguments?_blanks`), and reindenting changes nothing else: texts that
are made of the same logical lines have the same physical lines but for blanks
around them (`Lays.arguments_eq`).
-/

namespace RubyIndent

open RubyIndent.Peg RubyIndent.Ruby RubyIndent.Text

/-! ## Blanks around a line -/

namespace Directive

theorem keyword_not_blank : ∀ k ∈ keyword, isBlank k.toLower = false := by
  have h : (keyword.all fun k => !isBlank k.toLower) = true := by decide
  simpa using h

/-- A word without blanks does not reach into those behind a text. -/
theorem dropKeyword?_append {b : List Char} (hb : AllBlank b)
    {word : List Char} (hword : ∀ k ∈ word, isBlank k.toLower = false)
    (s : List Char) :
    dropKeyword? word (s ++ b) = (dropKeyword? word s).map (· ++ b) := by
  induction word generalizing s with
  | nil => rfl
  | cons k word ih =>
    obtain ⟨hk, hword⟩ := List.forall_mem_cons.1 hword
    cases s with
    | cons c s =>
      rw [List.cons_append, dropKeyword?, dropKeyword?]
      split
      · exact ih hword s
      · rfl
    | nil =>
      cases b with
      | nil => rfl
      | cons c b =>
        have hne : k.toLower ≠ c.toLower := by
          intro heq
          have hc := hb c List.mem_cons_self
          rw [← toLower_of_isBlank hc, ← heq, hk] at hc
          cases hc
        rw [List.nil_append, dropKeyword?]
        exact if_neg hne

theorem arguments?_of_hash {line rest : List Char}
    (h : trimStart line = '#' :: rest) :
    arguments? line = (dropKeyword? keyword (trimStart rest)).bind fun args =>
      if (trim args).contains '\n' then none else some (trim args) := by
  rw [arguments?, h]
  rfl

theorem arguments?_of_not_hash {line : List Char}
    (h : (trimStart line).head? ≠ some '#') : arguments? line = none := by
  rw [arguments?]
  split
  · rename_i heq
    rw [heq] at h
    exact absurd rfl h
  · rfl

theorem arguments?_append {b : List Char} (hb : AllBlank b) (line : List Char) :
    arguments? (line ++ b) = arguments? line := by
  rcases trimStart_append hb line with ⟨hline, happ⟩ | ⟨hline, happ⟩
  · rw [arguments?, arguments?, hline, happ]
  obtain ⟨c, rest, hrest⟩ := List.exists_cons_of_ne_nil hline
  rw [hrest, List.cons_append] at happ
  by_cases hc : c = '#'
  · subst hc
    rw [arguments?_of_hash happ, arguments?_of_hash hrest]
    rcases trimStart_append hb rest with ⟨h, h'⟩ | ⟨_, h'⟩
    · rw [h, h']
    · rw [h', dropKeyword?_append hb keyword_not_blank, Option.bind_map]
      simp only [Function.comp_def, trim_append hb]
  · rw [arguments?_of_not_hash, arguments?_of_not_hash]
    · rw [hrest]
      exact fun heq => hc (Option.some.inj heq)
    · rw [happ]
      exact fun heq => hc (Option.some.inj heq)

theorem arguments?_behind {b : List Char} (hb : AllBlank b) (line : List Char) :
    arguments? (b ++ line) = arguments? line := by
  rw [arguments?, trimStart_blanks hb, arguments?]

/-- Blanks around a line do not matter to a directive. -/
theorem arguments?_blanks {b b' : List Char} (hb : AllBlank b) (hb' : AllBlank b')
    (line : List Char) : arguments? (b ++ (line ++ b')) = arguments? line := by
  rw [arguments?_behind hb, arguments?_append hb']

/-! ## The directive of a text -/

/-- The directive with the given settings part; none if it sets nothing. -/
def ofArguments? (args : List Char) : Option Directive :=
  let d := readWords {} ((words args).map String.ofList)
  if d.isEmpty then none else some d

theorem ofLine?_eq (line : String) :
    ofLine? line = (arguments? line.toList).bind ofArguments? := rfl

theorem search_map_encode (lines : List (List Char)) :
    search (lines.map encode) = (lines.findSome? arguments?).bind ofArguments? := by
  induction lines with
  | nil => rfl
  | cons line lines ih =>
    rw [List.map_cons, search, fromUTF8?_encode, List.findSome?_cons]
    dsimp only
    rw [ofLine?_eq, isDirectiveLine, String.toList_ofList, ih]
    cases arguments? line <;> rfl

end Directive

theorem Ruby.Blanks.allBlank {b : List Char} (hb : Blanks b) : AllBlank b := by
  intro c hc
  have h := hb c hc
  simp only [isSpacing, Bool.or_eq_true, decide_eq_true_eq] at h
  rcases h with rfl | rfl <;> decide

namespace Document

open Directive (arguments? arguments?_append arguments?_behind
  arguments?_blanks)

theorem physicalLines_of_not_mem {s : List Char} (h : '\n' ∉ s) :
    physicalLines s = [s] :=
  List.splitOn_eq_singleton h

/-- Line ends are blanks, so the lines may be taken with them or without. -/
theorem findSome?_splitLines (s : List Char) :
    (splitLines '\n' s).findSome? arguments?
      = (physicalLines s).findSome? arguments? := by
  induction s using lines_induction '\n' with
  | last line h =>
    rw [physicalLines_of_not_mem h]
    by_cases hne : line = []
    · subst hne
      rw [splitLines]
      rfl
    · rw [splitLines_of_not_mem h hne]
  | cons line rest h ih =>
    have hline : arguments? (line ++ ['\n']) = arguments? line :=
      arguments?_append (by decide) line
    rw [splitLines_cons_line h, physicalLines_newline, physicalLines_of_not_mem h,
      List.singleton_append, List.findSome?_cons, List.findSome?_cons, hline, ih]

/-- The directive of a text is that of the first physical line that has the form
of one. -/
theorem find?_toUTF8 (s : String) : Directive.find? s.toUTF8
    = ((physicalLines s.toList).findSome? arguments?).bind
      Directive.ofArguments? := by
  rw [Directive.find?, splitLines_toUTF8, Directive.search_map_encode,
    findSome?_splitLines]

/-! ## Texts of the same lines -/

/-- Texts that are made of the same logical lines have the same settings in
them. -/
theorem Lays.arguments_eq {ls : List LogicalLine} (hls : ∀ l ∈ ls, l.Proper)
    {s t : List Char} (hs : Lays ls s) (ht : Lays ls t) :
    (physicalLines s).findSome? arguments?
      = (physicalLines t).findSome? arguments? := by
  induction hs generalizing t with
  | nil hb =>
    cases ht with
    | nil hb' =>
      have blank := fun {b : List Char} (hb : Blanks b) =>
        arguments?_append hb.allBlank []
      simp only [List.nil_append] at blank
      rw [physicalLines_of_not_mem hb.not_newline,
        physicalLines_of_not_mem hb'.not_newline, List.findSome?_cons,
        List.findSome?_cons, blank hb, blank hb']
  | @cons l ls b c c' s hb hc hc' _ ih =>
    obtain ⟨hl, hrest⟩ := List.forall_mem_cons.1 hls
    cases ht with
    | @cons _ _ b' d d' t hb' hd hd' ht =>
      obtain ⟨first, others, _, _, hlines⟩ := lines_of_proper hl
      -- Behind what is kept there is the terminator of a heredoc, or nothing.
      have hclosing : (physicalLines (l.closingLine c c' ++ s)).findSome? arguments?
          = (physicalLines (l.closingLine d d' ++ t)).findSome? arguments? := by
        cases l with
        | whole shape text => exact ih hrest ht
        | heredoc head body label opens =>
          have hlabel := hl.labelled head body label opens rfl
          rw [LogicalLine.closingLine, LogicalLine.closingLine,
            physicalLines_label hlabel hc hc', physicalLines_label hlabel hd hd',
            List.findSome?_cons, List.findSome?_cons,
            arguments?_blanks hc.allBlank hc'.allBlank,
            arguments?_blanks hd.allBlank hd'.allBlank, ih hrest ht]
      rw [hlines _ hb, hlines _ hb', List.findSome?_cons, List.findSome?_cons,
        arguments?_behind hb.allBlank,
        arguments?_behind hb'.allBlank, List.findSome?_append, List.findSome?_append,
        hclosing]

end Document

end RubyIndent
