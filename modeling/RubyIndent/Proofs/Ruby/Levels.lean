import RubyIndent.Proofs.Ruby.Layout

/-!
# How deep lines are written

The shape of a line says whether it stands one level further out than the lines
before it (`LineShape.level`). A line with something to see on it is written at
that level, and so is the terminator of a heredoc (`emit_atLevel`). Lines of all
shapes but plain ones have something to see on them (`visible_of_readAs`).
-/

namespace RubyIndent.Ruby

open RubyIndent.Peg RubyIndent.Text RubyIndent.Pattern

/-- The depth at which a line of some shape stands, from the depth before it. -/
def LineShape.level (shape : LineShape) (depth : Int) : Int :=
  match shape with
  | .outdent | .bracketClose | .dual => depth - 1
  | _ => depth

def LineEnds (s : List Char) : Prop :=
  ∀ c ∈ s, c = '\n' ∨ c = '\r'

/-- How a line of some shape is written with some levels in front. The label of
a heredoc's terminator gets as many. -/
inductive AtLevel (unit : String) (n : Nat) :
    LineShape → List Char → List Char → Prop where
  | line {shape : LineShape} {source : List Char}
      (h : shape ≠ .heredocIntro) :
    AtLevel unit n shape source (levels unit n ++ source)
  | heredoc {m label b b' : List Char} (hlabel : IsLabel label) (hb : Blanks b)
      (hb' : Blanks b') :
    AtLevel unit n .heredocIntro
      ((m ++ ['\n']) ++ (b ++ (label ++ (b' ++ ['\n']))))
      (levels unit n ++ ((m ++ ['\n']) ++ (levels unit n ++ (label ++ ['\n']))))

/-- The same, where a line of line ends only is written as it stands. -/
structure Laid (unit : String) (n : Nat) (shape : LineShape)
    (source written : List Char) : Prop where
  blank : LineEnds source → written = source
  visible : ¬ LineEnds source → AtLevel unit n shape source written

def LogicalLine.front : LogicalLine → List Char
  | whole _ text => text
  | heredoc head _ _ _ => head

/-- A text with something to see on it is written at its level. -/
theorem toList_render_of_visible (i : Indenter) (depth : Int) {s : List Char}
    (hs : ¬ LineEnds s) : (i.render depth (String.ofList s)).toList
      = levels i.unit depth.toNat ++ s := by
  have hblank : Indenter.isBlankLine (String.ofList s) = false := by
    refine Bool.eq_false_iff.2 fun h => hs ?_
    simpa [Indenter.isBlankLine, LineEnds] using h
  rw [Indenter.render, hblank, if_neg Bool.false_ne_true, String.toList_append,
    toList_indentation, String.toList_ofList]

theorem toList_emitAs_of_visible (shape : LineShape) (i : Indenter)
    {s : List Char} (hs : ¬ LineEnds s) :
    (emitAs shape (String.ofList s) i).1.toList
      = levels i.unit (shape.level i.depth).toNat ++ s := by
  cases shape <;> exact toList_render_of_visible i _ hs

theorem IsLabel.visible {s : List Char} (h : IsLabel s) : ¬ LineEnds s := by
  obtain ⟨c, cs, rfl, hA, hZ, hcs⟩ := h
  intro hends
  rcases hends c List.mem_cons_self with rfl | rfl
  · exact absurd hA (by decide)
  · exact absurd hA (by decide)

/-- A line of line ends only is written as it stands. -/
theorem emit_of_lineEnds {l : LogicalLine} (i : Indenter)
    (hshape : l.shape ≠ .heredocIntro) (h : LineEnds l.kept) :
    (l.emit i).1.toList = l.kept := by
  cases l with
  | whole shape text =>
    obtain ⟨k, hk, hblank⟩ := toList_emitAs shape (String.ofList text) i
    rw [LogicalLine.emit, hk, hblank (isBlankLine_ofList h), String.toList_ofList]
    rfl
  | heredoc _ _ _ _ => exact absurd rfl hshape

/-- A line that was read is written at its level. -/
theorem emit_atLevel {l : LogicalLine} (hl : l.Proper) (i : Indenter)
    (hvisible : ¬ LineEnds l.front) {b b' : List Char} (hb : Blanks b)
    (hb' : Blanks b') :
    AtLevel i.unit (l.shape.level i.depth).toNat l.shape
      (l.kept ++ l.closingLine b b') (l.emit i).1.toList := by
  cases l with
  | whole shape text =>
    rw [LogicalLine.emit, toList_emitAs_of_visible shape i (s := text) hvisible]
    simp only [LogicalLine.kept, LogicalLine.closingLine, List.append_nil]
    exact .line (hl.shape_ne shape text rfl)
  | heredoc head body label opens =>
    have hlabel := hl.labelled head body label opens rfl
    obtain ⟨m, hm⟩ := hl.ended
    have hwritten : ((LogicalLine.heredoc head body label opens).emit i).1.toList
        = levels i.unit i.depth.toNat ++ ((m ++ ['\n']) ++
          (levels i.unit i.depth.toNat ++ (label.toList ++ ['\n']))) := by
      have hhead := toList_render_of_visible i i.depth (s := head) hvisible
      have hend := toList_render_of_visible i i.depth hlabel.visible
      rw [String.ofList_toList] at hend
      rw [← hm]
      simp [LogicalLine.emit, Indenter.emitHeredoc, hhead, hend, LogicalLine.kept]
    rw [hwritten, hm]
    exact .heredoc hlabel hb hb'

/-! ## Lines with something to see on them -/

/-- The reader takes something that is no line end. -/
def Shows (f : Reader) : Prop :=
  ∀ s t, f s = some t → ∃ m, s = m ++ t ∧ ¬ LineEnds m

theorem not_lineEnds_append_left {m : List Char} (h : ¬ LineEnds m)
    (n : List Char) : ¬ LineEnds (m ++ n) :=
  fun hends => h fun c hc => hends c (List.mem_append_left n hc)

theorem not_lineEnds_append_right (m : List Char) {n : List Char}
    (h : ¬ LineEnds n) : ¬ LineEnds (m ++ n) :=
  fun hends => h fun c hc => hends c (List.mem_append_right m hc)

namespace Shows

variable {f g : Reader}

theorem next (hf : Shows f) (hg : Cuts g) : Shows (.next f g) := by
  intro s t h
  obtain ⟨u, hu, ht⟩ := Option.bind_eq_some_iff.1 h
  obtain ⟨m, rfl, hm⟩ := hf s u hu
  obtain ⟨n, rfl, _⟩ := hg u t ht
  exact ⟨m ++ n, (List.append_assoc ..).symm, not_lineEnds_append_left hm n⟩

theorem after (hf : Cuts f) (hg : Shows g) : Shows (.next f g) := by
  intro s t h
  obtain ⟨u, hu, ht⟩ := Option.bind_eq_some_iff.1 h
  obtain ⟨m, rfl, _⟩ := hf s u hu
  obtain ⟨n, rfl, hn⟩ := hg u t ht
  exact ⟨m ++ n, (List.append_assoc ..).symm, not_lineEnds_append_right m hn⟩

theorem orElse (hf : Shows f) (hg : Shows g) : Shows (.orElse f g) := by
  intro s t h
  rcases Option.or_eq_some_iff.1 h with h | ⟨_, h⟩
  · exact hf s t h
  · exact hg s t h

theorem literal {w : String} (hw : ¬ LineEnds w.toList) : Shows (.literal w) := by
  intro s t h
  rw [Reader.literal, isPrefixOf?_eq] at h
  split at h
  · rename_i hp
    obtain ⟨u, rfl⟩ := List.isPrefixOf_iff_prefix.1 hp
    cases h
    exact ⟨w.toList, by simp, hw⟩
  · cases h

/-- A pattern that starts with a character that is no line end. -/
theorem one {set : CharSet} (hn : set.contains '\n' = false)
    (hr : set.contains '\r' = false) {k : Rest} (hk : Cuts k) :
    Shows ((Regex.one set).strip k) := by
  intro s t h
  cases s with
  | nil => cases h
  | cons c s =>
    rw [Regex.strip] at h
    split at h
    · rename_i hc
      obtain ⟨m, rfl, _⟩ := hk s t h
      refine ⟨c :: m, rfl, fun hends => ?_⟩
      rcases hends c List.mem_cons_self with rfl | rfl
      · cases hn.symm.trans hc
      · cases hr.symm.trans hc
    · cases h

theorem keyword {word : String} (h : ¬ LineEnds word.toList) :
    Shows (keyword word) :=
  (literal h).next (Takes.absent.next Takes.absent)

theorem keywords {words : List String} (h : ∀ w ∈ words, ¬ LineEnds w.toList) :
    Shows (keywords words) := by
  induction words with
  | nil => exact fun _ _ h => nomatch h
  | cons word words ih =>
    obtain ⟨hword, hwords⟩ := List.forall_mem_cons.1 h
    exact (keyword hword).orElse (ih hwords)

theorem tail (h : Shows f) : Shows (tail f) :=
  h.next (cuts_spacing.next ((Takes.optional (cuts_pattern _)).next Takes.present))

end Shows

instance (s : List Char) : Decidable (LineEnds s) :=
  List.decidableBAll _ s

theorem shows_opening (shape : LineShape) : Shows (opening shape) := by
  cases shape with
  | indentOpen | dual => exact .keywords (by decide)
  | outdent => exact .keyword (by decide)
  | bracketSameLine =>
    exact ((Shows.literal (by decide)).next (cuts_pattern _)).orElse
      ((Shows.literal (by decide)).next (cuts_pattern _))
  | bracketOpen | bracketClose =>
    exact (Shows.literal (by decide)).orElse (.literal (by decide))
  | _ => exact fun _ _ h => nomatch h

/-- Only plain lines can have nothing on them. -/
theorem shows_lineOf {shape : LineShape} (h : shape ≠ .plain) :
    Shows (lineOf shape) := by
  cases shape with
  | blockOpener =>
    have hopener : Shows blockOpener :=
      (Shows.one rfl rfl (takes_strip (over_true _) Takes.some)).orElse
        (Shows.one rfl rfl (takes_strip (over_true _) Takes.some))
    exact Shows.after cuts_upToStop (hopener.tail.next cuts_newline)
  | bracketTail =>
    have hopener : Shows (.pattern Token.openBracket) :=
      Shows.one rfl rfl Takes.some
    exact Shows.after cuts_upToStop (hopener.tail.next cuts_newline)
  | heredocIntro => exact fun _ _ h => nomatch h
  | plain => exact absurd rfl h
  | _ => exact (shows_opening _).next (cuts_upToTail.next cuts_newline)

theorem shows_beforeLabel : Shows beforeLabel :=
  Shows.after cuts_upToStop
    (Shows.one rfl rfl (takes_strip (over_true _) Takes.some))

/-- A line that was read and is not plain has something on it. -/
theorem visible_of_readAs {shape : LineShape} {s r : List Char} {l : LogicalLine}
    (h : readAs shape s = some (l, r)) (hshape : shape ≠ .plain) :
    ¬ LineEnds l.front := by
  by_cases hs : shape = .heredocIntro
  · subst hs
    obtain ⟨hd, hread, heq⟩ := Option.map_eq_some_iff.1 h
    cases heq
    obtain ⟨head, hhead, hbody⟩ := Option.bind_eq_some_iff.1 hread
    obtain ⟨t, ht, hsuffix⟩ := suffix_of_readHead hhead
    obtain ⟨rfl, _⟩ := readBody_eq_some hbody
    obtain ⟨m, rfl, hm⟩ := shows_beforeLabel s t ht
    obtain ⟨n, rfl⟩ := hsuffix
    rw [LogicalLine.front, ← List.append_assoc, taken_append_self]
    exact not_lineEnds_append_left hm n
  · rw [readAs_of_ne hs] at h
    obtain ⟨t, ht, heq⟩ := Option.map_eq_some_iff.1 h
    cases heq
    obtain ⟨m, rfl, hm⟩ := shows_lineOf hshape s r ht
    rw [LogicalLine.front, taken_append_self]
    exact hm

/-- A line that was read is written at its level. -/
theorem emit_laid {s r : List Char} {l : LogicalLine}
    (h : readLine s = some (l, r)) (hs : Flush s) (i : Indenter)
    {b b' : List Char} (hb : Blanks b) (hb' : Blanks b') :
    Laid i.unit (l.shape.level i.depth).toNat l.shape
      (l.kept ++ l.closingLine b b') (l.emit i).1.toList ∧
    (l.shape ≠ .plain → ¬ LineEnds (l.kept ++ l.closingLine b b')) := by
  obtain ⟨shape, _, h⟩ := List.exists_of_findSome?_eq_some h
  obtain ⟨hl, rfl, _⟩ := readAs_eq_some h hs
  by_cases hshape : l.shape = .plain
  · cases l with
    | whole shape text =>
      have hkept : (LogicalLine.whole shape text).kept
          ++ (LogicalLine.whole shape text).closingLine b b' = text :=
        List.append_nil text
      refine ⟨⟨fun hends => ?_, fun hvisible => ?_⟩, absurd hshape⟩
      · rw [hkept] at hends ⊢
        refine emit_of_lineEnds (l := .whole shape text) i ?_ hends
        rw [hshape]
        nofun
      · refine emit_atLevel hl i ?_ hb hb'
        rwa [hkept] at hvisible
    | heredoc _ _ _ _ => cases hshape
  · have hvisible := visible_of_readAs h hshape
    have hsource : ¬ LineEnds (l.kept ++ l.closingLine b b') := by
      refine not_lineEnds_append_left ?_ _
      cases l with
      | whole shape text => exact hvisible
      | heredoc head body label opens => exact not_lineEnds_append_left hvisible _
    exact ⟨⟨fun hends => absurd hends hsource,
      fun _ => emit_atLevel hl i hvisible hb hb'⟩, fun _ => hsource⟩

/-! ## The depth behind a line -/

/-- How the depth behind a line differs from the depth before it. -/
def LogicalLine.rise : LogicalLine → Int
  | whole shape _ => shape.depthDelta
  | heredoc _ _ _ opens => if opens then 1 else 0

theorem depth_emit (l : LogicalLine) (i : Indenter) :
    (l.emit i).2.depth = i.depth + l.rise := by
  cases l with
  | whole shape text =>
    cases shape
    case dual | bracketSameLine | heredocIntro | plain =>
      exact (Int.add_zero _).symm
    all_goals rfl
  | heredoc head body label opens =>
    cases opens with
    | true => rfl
    | false => exact (Int.add_zero _).symm

end RubyIndent.Ruby
