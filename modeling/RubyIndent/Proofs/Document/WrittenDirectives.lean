import RubyIndent.Proofs.Document.Directives

/-!
# Reading a directive undoes writing it

A directive can be written in many ways: its settings in any order, each in one of its
spellings, with unknown words in between, with any blanks between the words and around
the mark in front of them (`Written`). However it is written, the line is read as that
directive, and a document with such a line has that directive, if no line further up
has the form of one (`written_directive_is_found`).
-/

namespace RubyIndent.Directive

open RubyIndent.Text

/-! ## Settings -/

/-- One setting of a directive. Tabs can only be asked for. -/
inductive Setting where
  | indent (width : Nat)
  | tabs
  | imposeIndent (impose : Bool)
  deriving DecidableEq, Repr

/-- Makes a setting; a later one of its kind takes the place of an earlier one. -/
def set (d : Directive) : Setting → Directive
  | .indent width => { d with indent := some width }
  | .tabs => { d with tabs := some true }
  | .imposeIndent impose => { d with imposeIndent := some impose }

def settings (d : Directive) : List Setting :=
  (d.indent.map Setting.indent).toList ++
    ((if d.tabs = some true then [Setting.tabs] else []) ++
      (d.imposeIndent.map Setting.imposeIndent).toList)

theorem indent_mem_settings {d : Directive} {width : Nat} :
    .indent width ∈ d.settings ↔ d.indent = some width := by
  simp [settings]

theorem imposeIndent_mem_settings {d : Directive} {impose : Bool} :
    .imposeIndent impose ∈ d.settings ↔ d.imposeIndent = some impose := by
  simp [settings]

/-- A directive makes no setting twice, so the order does not matter. -/
theorem set_comm {d : Directive} {x y : Setting} (hx : x ∈ d.settings)
    (hy : y ∈ d.settings) (e : Directive) :
    (e.set x).set y = (e.set y).set x := by
  cases x with
  | indent width =>
    cases y with
    | indent width' =>
      cases (indent_mem_settings.1 hx).symm.trans (indent_mem_settings.1 hy)
      rfl
    | tabs => rfl
    | imposeIndent impose => rfl
  | tabs => cases y <;> rfl
  | imposeIndent impose =>
    cases y with
    | indent width => rfl
    | tabs => rfl
    | imposeIndent impose' =>
      cases (imposeIndent_mem_settings.1 hx).symm.trans
        (imposeIndent_mem_settings.1 hy)
      rfl

theorem foldl_set_settings {d : Directive} (htabs : d.tabs ≠ some false) :
    d.settings.foldl set {} = d := by
  obtain ⟨indent, tabs, imposeIndent⟩ := d
  rcases indent with _ | width <;> rcases tabs with _ | _ | _ <;>
    rcases imposeIndent with _ | impose <;> first | rfl | exact absurd rfl htabs

/-- The settings of a directive make up the directive, in any order. -/
theorem foldl_set_of_perm {d : Directive} (htabs : d.tabs ≠ some false)
    {made : List Setting} (h : made.Perm d.settings) : made.foldl set {} = d := by
  have hperm := h.symm.foldl_eq' (fun x hx y hy e => set_comm hx hy e) {}
  rw [← hperm, foldl_set_settings htabs]

/-! ## Words for settings -/

def optionWords : List String :=
  ["-i", "--indent", "-t", "--tabs", "--no-indent", "--disable-indent",
    "--enable-indent"]

inductive Spells : List String → Setting → Prop where
  | indent {option : String} (h : option ∈ ["-i", "--indent"]) (plus : Bool)
    (zeros width : Nat) :
    Spells [option, String.ofList (numeral plus zeros width)] (.indent width)
  | tabs {option : String} (h : option ∈ ["-t", "--tabs"]) : Spells [option] .tabs
  | noIndent {option : String} (h : option ∈ ["--no-indent", "--disable-indent"]) :
    Spells [option] (.imposeIndent false)
  | enableIndent : Spells ["--enable-indent"] (.imposeIndent true)

/-- Settings in their spellings, one after the other, with words in between that mean
nothing. No such word comes between the two words of a width. -/
inductive SpellsAll : List String → List Setting → Prop where
  | nil : SpellsAll [] []
  | setting {ws more : List String} {x : Setting} {made : List Setting} :
    Spells ws x → SpellsAll more made → SpellsAll (ws ++ more) (x :: made)
  | unknown {w : String} {more : List String} {made : List Setting} :
    IsWord w.toList → w ∉ optionWords → SpellsAll more made →
    SpellsAll (w :: more) made

theorem Spells.isWord {ws : List String} {x : Setting} (h : Spells ws x) :
    ∀ w ∈ ws, IsWord w.toList := by
  have hoption : ∀ w ∈ optionWords, IsWord w.toList := by decide
  cases h with
  | @indent option hopt plus zeros width =>
    have hfirst : option ∈ optionWords := by
      rcases List.mem_pair.1 hopt with rfl | rfl <;> decide
    refine List.forall_mem_cons.2 ⟨hoption option hfirst, List.forall_mem_singleton.2 ?_⟩
    rw [String.toList_ofList]
    exact isWord_numeral plus zeros width
  | tabs hopt | noIndent hopt =>
    refine List.forall_mem_singleton.2 (hoption _ ?_)
    rcases List.mem_pair.1 hopt with rfl | rfl <;> decide
  | enableIndent => exact List.forall_mem_singleton.2 (hoption _ (by decide))

theorem SpellsAll.isWord {ws : List String} {made : List Setting}
    (h : SpellsAll ws made) : ∀ w ∈ ws, IsWord w.toList := by
  induction h with
  | nil => exact nofun
  | setting hx _ ih =>
    intro w hw
    exact (List.mem_append.1 hw).elim (hx.isWord w) (ih w)
  | unknown hw _ _ ih => exact List.forall_mem_cons.2 ⟨hw, ih⟩

theorem readWords_unknown (d : Directive) {w : String} (hw : w ∉ optionWords)
    (ws : List String) : readWords d (w :: ws) = readWords d ws := by
  simp only [optionWords, List.mem_cons, List.not_mem_nil, or_false, not_or] at hw
  rw [readWords] <;> simp [hw]

theorem readWords_spelled (d : Directive) {ws : List String} {x : Setting}
    (h : Spells ws x) (hsize : ∀ width, x = .indent width → width ≤ maxSize)
    (more : List String) : readWords d (ws ++ more) = readWords (d.set x) more := by
  cases h with
  | indent hopt plus zeros width =>
    have hread := readSize?_numeral plus zeros (hsize width rfl)
    rcases List.mem_pair.1 hopt with rfl | rfl <;> simp [readWords, hread, set]
  | tabs hopt => rcases List.mem_pair.1 hopt with rfl | rfl <;> rfl
  | noIndent hopt => rcases List.mem_pair.1 hopt with rfl | rfl <;> rfl
  | enableIndent => rfl

/-- Words are read setting by setting. -/
theorem readWords_eq_foldl {ws : List String} {made : List Setting}
    (h : SpellsAll ws made) (hsize : ∀ width, .indent width ∈ made → width ≤ maxSize)
    (d : Directive) : readWords d ws = made.foldl set d := by
  induction h generalizing d with
  | nil => rfl
  | setting hx _ ih =>
    rw [readWords_spelled d hx, List.foldl_cons,
      ih fun width hw => hsize width (List.mem_cons_of_mem _ hw)]
    rintro width rfl
    exact hsize width List.mem_cons_self
  | unknown _ hw _ ih => rw [readWords_unknown d hw, ih hsize]

/-! ## Directive lines -/

/-- The ways to write a directive in a line: the marks in front in any case of letters,
blanks around them and behind the words, and the words with gaps between them. -/
inductive Written (d : Directive) : List Char → Prop where
  | intro {made : List Setting} {ws : List String}
    {front behindHash mark behindMark args back : List Char} :
    made.Perm d.settings → SpellsAll ws made → Spaced (ws.map String.toList) args →
    mark.map Char.toLower = keyword →
    AllBlank front → AllBlank behindHash → AllBlank behindMark → AllBlank back →
    Written d (front ++ ('#' :: (behindHash ++ (mark ++ (behindMark ++ args))) ++ back))

theorem dropKeyword?_mark {word mark : List Char}
    (h : mark.map Char.toLower = word.map Char.toLower) (s : List Char) :
    dropKeyword? word (mark ++ s) = some s := by
  induction word generalizing mark with
  | nil =>
    rw [List.map_eq_nil_iff.1 h]
    rfl
  | cons k word ih =>
    cases mark with
    | nil => cases h
    | cons c mark =>
      obtain ⟨hc, hrest⟩ := List.cons.inj h
      rw [List.cons_append, dropKeyword?, if_pos hc.symm, ih hrest]

/-- The mark starts with a letter, at which the blanks in front of it end. -/
theorem trimStart_mark {mark : List Char} (h : mark.map Char.toLower = keyword)
    (s : List Char) : trimStart (mark ++ s) = mark ++ s := by
  cases mark with
  | nil => cases h
  | cons c mark =>
    refine trimStart_cons (Bool.eq_false_iff.2 fun hc => ?_) (mark ++ s)
    have hlower : c.toLower = 'r' := (List.cons.inj h).1
    rw [toLower_of_isBlank hc] at hlower
    subst hlower
    cases hc

/-- What a written line asks for is found in it. -/
theorem Written.arguments_eq {d : Directive} {text : List Char} (h : Written d text) :
    ∃ (made : List Setting) (ws : List String) (args : List Char),
      made.Perm d.settings ∧ SpellsAll ws made ∧ words args = ws.map String.toList ∧
      arguments? text = some args := by
  obtain @⟨made, ws, front, behindHash, mark, behindMark, args, back, hperm, hspells,
    hspaced, hmark, hfront, hbehindHash, hbehindMark, hback⟩ := h
  have hwords : ∀ w ∈ ws.map String.toList, IsWord w :=
    List.forall_mem_map.2 hspells.isWord
  have hlower : mark.map Char.toLower = keyword.map Char.toLower := hmark.trans (by decide)
  have hnewline : '\n' ∉ args := hspaced.newline_not_mem hwords
  refine ⟨made, ws, args, hperm, hspells, hspaced.words_eq hwords, ?_⟩
  rw [arguments?_blanks hfront hback, arguments?_of_hash (trimStart_cons (by decide) _),
    trimStart_blanks hbehindHash, trimStart_mark hmark, dropKeyword?_mark hlower,
    Option.bind_some, trim_blanks hbehindMark, hspaced.trim_eq hwords]
  simp [hnewline]

theorem Written.ofLine?_eq {d : Directive} (hset : d.isEmpty = false)
    (htabs : d.tabs ≠ some false) (hsize : ∀ width, d.indent = some width → width ≤ maxSize)
    {text : List Char} (h : Written d text) : ofLine? (String.ofList text) = some d := by
  obtain ⟨made, ws, args, hperm, hspells, hwords, hargs⟩ := h.arguments_eq
  have hread : readWords {} ws = d := by
    rw [readWords_eq_foldl hspells, foldl_set_of_perm htabs hperm]
    exact fun width hw => hsize width (indent_mem_settings.1 (hperm.mem_iff.1 hw))
  have hmap : (ws.map String.toList).map String.ofList = ws := by
    simp [List.map_map, Function.comp_def]
  rw [Directive.ofLine?_eq, String.toList_ofList, hargs, Option.bind_some, ofArguments?,
    hwords, hmap, hread]
  simp [hset]

/-! ## Documents with a directive line -/

theorem isDirectiveLine_newline (line : List Char) :
    isDirectiveLine (String.ofList (line ++ ['\n']))
      = isDirectiveLine (String.ofList line) := by
  have hnewline : AllBlank ['\n'] := by decide
  simp only [isDirectiveLine, String.toList_ofList, arguments?_append hnewline]

/-- Lines that do not have the form of a directive are passed over. -/
theorem search_behind {earlier : List (List Char)}
    (h : ∀ line ∈ earlier, '\n' ∉ line ∧ isDirectiveLine (String.ofList line) = false)
    (bytes : List UInt8) :
    search (splitLines 10 (encode (earlier.flatMap (· ++ ['\n'])) ++ bytes))
      = search (splitLines 10 bytes) := by
  induction earlier with
  | nil => rfl
  | cons line earlier ih =>
    obtain ⟨⟨hline, hform⟩, hearlier⟩ := List.forall_mem_cons.1 h
    have hbytes : encode ((line :: earlier).flatMap (· ++ ['\n'])) ++ bytes
        = encode line ++ 10 :: (encode (earlier.flatMap (· ++ ['\n'])) ++ bytes) := by
      rw [List.flatMap_cons, encode_append, encode_append, List.append_assoc,
        List.append_assoc]
      rfl
    have hfirst : encode (line ++ ['\n']) = encode line ++ [10] := encode_append line _
    have hnot : ¬ isDirectiveLine (String.ofList (line ++ ['\n'])) = true := by
      rw [isDirectiveLine_newline, hform]
      exact Bool.false_ne_true
    rw [hbytes, splitLines_cons_line fun hmem => hline (newline_mem_encode.1 hmem),
      ← hfirst, search, fromUTF8?_encode]
    dsimp only
    rw [if_neg hnot, ih hearlier]

/-- A line with the form of a directive ends the search. -/
theorem search_line {line : List Char} (hline : '\n' ∉ line)
    (hform : isDirectiveLine (String.ofList line) = true) {rest : List UInt8}
    (hrest : ∀ b ∈ rest.head?, b = 10) :
    search (splitLines 10 (encode line ++ rest)) = ofLine? (String.ofList line) := by
  have hbytes : (10 : UInt8) ∉ encode line := fun hmem => hline (newline_mem_encode.1 hmem)
  cases rest with
  | nil =>
    have hne : encode line ≠ [] := by
      intro hnil
      rw [encode_eq_nil.1 hnil] at hform
      cases hform
    rw [List.append_nil, splitLines_of_not_mem hbytes hne, search, fromUTF8?_encode]
    dsimp only
    rw [if_pos hform]
  | cons b rest =>
    have hb : b = 10 := hrest b rfl
    subst hb
    have hfirst : encode (line ++ ['\n']) = encode line ++ [10] := encode_append line _
    have hnewline : AllBlank ['\n'] := by decide
    rw [splitLines_cons_line hbytes, ← hfirst, search, fromUTF8?_encode]
    dsimp only
    rw [if_pos (by rw [isDirectiveLine_newline, hform]), ofLine?_eq, ofLine?_eq,
      String.toList_ofList, String.toList_ofList, arguments?_append hnewline]

/-- Reading a directive undoes writing it, for every directive that sets something and
every way to write it, with a newline behind the line or without one. A document with
such a line has that directive, whatever its bytes are from the line's end on, if no
line before has the form of a directive. -/
theorem written_directive_is_found {d : Directive} (hset : d.isEmpty = false)
    (htabs : d.tabs ≠ some false) (hsize : ∀ width, d.indent = some width → width ≤ maxSize)
    {text : List Char} (h : Written d text) :
    ofLine? (String.ofList text) = some d ∧
    ofLine? (String.ofList (text ++ ['\n'])) = some d ∧
    ∀ (earlier : List (List Char)) (rest : List UInt8) (contents : ByteArray),
      (∀ line ∈ earlier, '\n' ∉ line ∧ isDirectiveLine (String.ofList line) = false) →
      '\n' ∉ text → (∀ b ∈ rest.head?, b = 10) →
      contents.toList
        = encode (earlier.flatMap (· ++ ['\n'])) ++ (encode text ++ rest) →
      find? contents = some d := by
  have hline := h.ofLine?_eq hset htabs hsize
  refine ⟨hline, ?_, ?_⟩
  · have hnewline : AllBlank ['\n'] := by decide
    rw [Directive.ofLine?_eq, String.toList_ofList, arguments?_append hnewline]
    rw [Directive.ofLine?_eq, String.toList_ofList] at hline
    exact hline
  · intro earlier rest contents hearlier htext hrest hcontents
    obtain ⟨_, _, args, -, -, -, hargs⟩ := h.arguments_eq
    have hform : isDirectiveLine (String.ofList text) = true := by
      rw [isDirectiveLine, String.toList_ofList, hargs]
      rfl
    rw [find?, hcontents, search_behind hearlier, search_line htext hform hrest, hline]

/-- All three settings, out of order and with a word that means nothing. -/
def mixedLine : List Char :=
  " #RBeautify:--tabs verbose\t--indent +04  --disable-indent".toList

theorem written_mixedLine :
    Written { indent := some 4, tabs := some true, imposeIndent := some false }
      mixedLine := by
  have hspells : SpellsAll
      ["--tabs", "verbose", "--indent", String.ofList (numeral true 1 4), "--disable-indent"]
      [.tabs, .indent 4, .imposeIndent false] :=
    .setting (.tabs (by decide)) (.unknown (by decide) (by decide)
      (.setting (.indent (by decide) true 1 4)
        (.setting (.noIndent (by decide)) .nil)))
  have hspaced : Spaced
      ["--tabs".toList, "verbose".toList, "--indent".toList, numeral true 1 4,
        "--disable-indent".toList]
      ("--tabs".toList ++ ([' '] ++ ("verbose".toList ++ (['\t'] ++ ("--indent".toList ++
        ([' '] ++ (numeral true 1 4 ++ ([' ', ' '] ++ "--disable-indent".toList)))))))) :=
    .cons (by decide) (.cons (by decide) (.cons (by decide) (.cons (by decide) .last)))
  have hwritten := @Written.intro ⟨some 4, some true, some false⟩ _ _ [' '] []
    "RBeautify:".toList [] _ [] (by decide) hspells hspaced (by decide) (by decide)
    (by decide) (by decide) (by decide)
  exact hwritten

theorem written_directive_is_found_mixedLine :
    ofLine? (String.ofList mixedLine) = some ⟨some 4, some true, some false⟩ ∧
    find? ⟨(encode "x = 1\n".toList ++ (encode mixedLine ++ [10, 255])).toArray⟩
      = some ⟨some 4, some true, some false⟩ := by
  have hsize : ∀ width, some 4 = some width → width ≤ maxSize := by
    rintro width ⟨⟩
    decide
  obtain ⟨hline, -, hfind⟩ := written_directive_is_found (by decide) (by decide) hsize
    written_mixedLine
  have hnewline : ∀ b ∈ [10, 255].head?, b = (10 : UInt8) := by
    rintro b ⟨⟩
    rfl
  refine ⟨hline, hfind ["x = 1".toList] [10, 255] _ ?_ (by decide) hnewline ?_⟩
  · decide
  · rw [toList_eq_data]
    rfl

end RubyIndent.Directive
