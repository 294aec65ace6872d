import RubyIndent.Proofs.Document.Run
import RubyIndent.Proofs.Ruby.Rereading

/-!
# Reindenting forgets the old indentation

A document is a list of logical lines with blanks around them: `Lays ls s` says
that `s` is one such text. What a run reads does not depend on the blanks
(`logicalLines_of_lays`), and what it writes is again such a text
(`lays_writeAll`). So a second run finds the same lines as the first, and all
that is left of the first one's indentation is dropped.
-/

namespace RubyIndent.Document

open RubyIndent.Peg RubyIndent.Ruby RubyIndent.Text

/-! ## Taking a text apart -/

theorem logicalLines_of_blanks {s : List Char} (h : Blanks s) :
    logicalLines s = some [] := by
  rw [logicalLines, if_pos h.dropWhile]

theorem logicalLines_of_line {b t r : List Char} {l : LogicalLine}
    (hb : Blanks b) (ht : Flush t) (h : readLine t = some (l, r)) :
    logicalLines (b ++ t) = (logicalLines r).map (l :: ·) := by
  have hdrop := dropWhile_blanks hb ht
  have hlt := readLine_shortens h
  have hne : t ≠ [] := by
    rintro rfl
    exact Nat.not_lt_zero _ hlt
  have hlt' : r.length < (b ++ t).length := by
    rw [List.length_append]
    omega
  rw [logicalLines, hdrop, if_neg hne, h]
  dsimp only
  rw [if_pos hlt']

/-! ## Lines with blanks around them -/

/-- A text that is made of the given lines, with blanks in front of each and
around the labels of terminators. -/
inductive Lays : List LogicalLine → List Char → Prop where
  | nil {b} : Blanks b → Lays [] b
  | cons {l ls b c c' t} : Blanks b → Blanks c → Blanks c' → Lays ls t →
    Lays (l :: ls) (b ++ (l.kept ++ (l.closingLine c c' ++ t)))

/-- A text is made of the lines that are read off it. -/
theorem lays_of_logicalLines {s : List Char} {ls : List LogicalLine}
    (h : logicalLines s = some ls) : Lays ls s ∧ ∀ l ∈ ls, l.Proper := by
  fun_induction logicalLines s generalizing ls with
  | case1 s hend =>
    cases h
    exact ⟨.nil (List.dropWhile_eq_nil_iff.1 hend), nofun⟩
  | case2 | case4 => cases h
  | case3 s hend l r hline hlt ih =>
    obtain ⟨ls', hls', rfl⟩ := Option.map_eq_some_iff.1 h
    obtain ⟨hlays, hproper⟩ := ih hls'
    obtain ⟨hl, c, c', hc, hc', heq⟩ :=
      readLine_eq_some hline (flush_dropWhile s)
    refine ⟨?_, List.forall_mem_cons.2 ⟨hl, hproper⟩⟩
    have hs : s = s.takeWhile isSpacing
        ++ (l.kept ++ (l.closingLine c c' ++ r)) := by
      rw [← heq, List.takeWhile_append_dropWhile]
    rw [hs]
    exact .cons (blanks_takeWhile s) hc hc' hlays

/-- Texts that are made of the same lines are alike. -/
theorem Lays.alike {ls : List LogicalLine} (hls : ∀ l ∈ ls, l.Proper)
    {s t : List Char} (hs : Lays ls s) (ht : Lays ls t) : AlikeLines s t := by
  induction hs generalizing t with
  | @nil b hb =>
    cases ht with
    | nil hb' =>
      have h := Alike.newline hb hb' .nil
      rwa [List.append_nil, List.append_nil] at h
  | cons hb hc hc' _ ih =>
    obtain ⟨hl, hls⟩ := List.forall_mem_cons.1 hls
    cases ht with
    | cons hb' hd hd' ht =>
      exact .newline hb hb' (alike_layout hl hc hc' hd hd' (ih hls ht))

/-- The lines of a text are read off every other text that is made of them. -/
theorem logicalLines_of_lays {s t : List Char} {ls : List LogicalLine}
    (h : logicalLines s = some ls) (ht : Lays ls t) :
    logicalLines t = some ls := by
  fun_induction logicalLines s generalizing ls t with
  | case1 s hend =>
    cases h
    cases ht with
    | nil hb => exact logicalLines_of_blanks hb
  | case2 | case4 => cases h
  | case3 s hend l r hline hlt ih =>
    obtain ⟨ls', hls', rfl⟩ := Option.map_eq_some_iff.1 h
    obtain ⟨hlays, hproper⟩ := lays_of_logicalLines hls'
    have hl := (readLine_eq_some hline (flush_dropWhile s)).1
    cases ht with
    | cons hb hc hc' ht =>
      -- What follows the line is made of the same lines, and so it is alike.
      have hagain := readLine_again hline (flush_dropWhile s) hc hc'
        (hlays.alike hproper ht)
      rw [logicalLines_of_line hb (hl.flush.append hl.kept_ne_nil _) hagain,
        ih hls' ht]
      rfl

/-! ## Writing and reading again -/

/-- What is written for some lines is made of these lines. -/
theorem lays_writeAll (ls : List LogicalLine) (i : Indenter)
    (hunit : Blanks i.unit.toList) : ∃ t, Lays ls t ∧
      (writeAll ls i).output.toList = i.output.toList ++ t := by
  induction ls generalizing i with
  | nil => exact ⟨[], .nil blanks_nil, (List.append_nil _).symm⟩
  | cons l ls ih =>
    obtain ⟨k, k', hemit, _⟩ := emit_eq l i
    obtain ⟨t, hlays, ht⟩ := ih ((l.emit i).2.push (l.emit i).1)
      ((unit_emit l i).symm ▸ hunit)
    refine ⟨_, .cons (blanks_levels hunit k) (blanks_levels hunit k') blanks_nil
      hlays, ?_⟩
    rw [writeAll, ht, Indenter.push, String.toList_append, output_emit, hemit]
    simp only [List.append_assoc]

/-- Reindenting takes a document apart and writes its lines. -/
theorem reindent_eq (input : String) {c : Config}
    (himpose : c.imposeIndent = true) :
    match logicalLines input.toList with
    | none => ∃ d, reindent input c = .error d
    | some ls => reindent input c
      = .ok (writeAll ls { unit := c.indentUnit }).output := by
  have hrun := run_eq (ready_start input.toList { unit := c.indentUnit })
  have hrest : (State.start input.toList
      { unit := c.indentUnit : Indenter }).cursor.rest = input.toList := rfl
  rw [hrest] at hrun
  rw [reindent, if_pos himpose]
  cases hls : logicalLines input.toList with
  | none =>
    rw [hls] at hrun
    obtain ⟨d, hd⟩ := hrun
    exact ⟨d, by rw [hd]; rfl⟩
  | some ls =>
    rw [hls] at hrun
    obtain ⟨t, ht, hctx⟩ := hrun
    have hout := congrArg Indenter.output hctx
    dsimp only
    rw [ht]
    exact congrArg Except.ok hout

/-- A document whose lines can be written out is reindented. -/
theorem reindent_of_writeAll {input : String} {c : Config}
    (himpose : c.imposeIndent = true) {out : String}
    (h : (logicalLines input.toList).map
      (fun ls => (writeAll ls { unit := c.indentUnit }).output) = some out) :
    reindent input c = .ok out := by
  have heq := reindent_eq input himpose
  obtain ⟨ls, hls, rfl⟩ := Option.map_eq_some_iff.1 h
  rw [hls] at heq
  exact heq

/-- Reindenting forgets the indentation that was there. Whether it succeeds does
not depend on the unit, and a document that was reindented with one unit is
reindented with another as if it had not been; in particular, nothing changes
when it is reindented twice. -/
theorem reindent_forgets (input : String) (config : Config) {u : String}
    (hu : Blanks u.toList) (v : String) :
    ((∃ o, reindent input (config.withUnit u) = .ok o) ↔
      ∃ o, reindent input (config.withUnit v) = .ok o) ∧
    ∀ o, reindent input (config.withUnit u) = .ok o →
      reindent o (config.withUnit v) = reindent input (config.withUnit v) := by
  by_cases himpose : config.imposeIndent = true
  · have hread := fun w => reindent_eq input
      (c := config.withUnit w) himpose
    cases hls : logicalLines input.toList with
    | none =>
      rw [hls] at hread
      have failed : ∀ {w o}, reindent input (config.withUnit w) ≠ .ok o := by
        intro w o ho
        obtain ⟨d, hd⟩ := hread w
        cases hd.symm.trans ho
      exact ⟨⟨fun ⟨_, h⟩ => absurd h failed, fun ⟨_, h⟩ => absurd h failed⟩,
        fun _ h => absurd h failed⟩
    | some ls =>
      rw [hls] at hread
      refine ⟨⟨fun _ => ⟨_, hread v⟩, fun _ => ⟨_, hread u⟩⟩, fun o ho => ?_⟩
      cases (hread u).symm.trans ho
      obtain ⟨t, hlays, ht⟩ := lays_writeAll ls { unit := u } hu
      have hagain := reindent_eq (writeAll ls { unit := u }).output
        (c := config.withUnit v) himpose
      -- The second run finds the lines of the first.
      have hlines : logicalLines (writeAll ls { unit := u }).output.toList
          = some ls := by
        rw [ht]
        exact logicalLines_of_lays hls hlays
      rw [hlines] at hagain
      exact hagain.trans (hread v).symm
  · have hcopy : ∀ (w input : String),
        reindent input (config.withUnit w) = .ok input :=
      fun w input => if_neg himpose
    refine ⟨⟨fun _ => ⟨_, hcopy v input⟩, fun _ => ⟨_, hcopy u input⟩⟩, ?_⟩
    intro o ho
    cases (hcopy u input).symm.trans ho
    rfl

/-- Tabs of a first run leave no trace in a second one. -/
theorem reindent_forgets_tabs :
    reindent "if a\n\tb\n" {} = reindent "if a\nb\n" {} := by
  have h : reindent "if a\nb\n" (Config.withUnit "\t" {})
      = .ok "if a\n\tb\n" := eq_ok_of_toOption (by decide +kernel)
  exact (reindent_forgets "if a\nb\n" {} (by decide) "  ").2 _ h

end RubyIndent.Document
