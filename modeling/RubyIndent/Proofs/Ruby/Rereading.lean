import RubyIndent.Proofs.Ruby.Blindness

/-!
# Reading a line again

The line grammar is blind to indentation: what it reads at two places where the
texts are alike is of the same shape and has as many physical lines
(`rel_readLine`). That pins down what is read. A logical line that was read once
is read again where other blanks stand around it and behind its line ends
(`readLine_again`).
-/

namespace RubyIndent.Ruby

open RubyIndent.Peg RubyIndent.Text RubyIndent.Pattern

/-! ## Lines -/

theorem blind_spacing : Blind spacing := by
  intro s t h
  refine .some ?_
  induction h with
  | nil => exact .nil
  | @char c s t hc h ih =>
    rw [List.dropWhile_cons, List.dropWhile_cons]
    split
    · exact ih
    · exact .char hc h
  | newline hb hb' h => exact .newline hb hb' h
  | label hl ha ha' hb hb' h => exact .label hl ha ha' hb hb' h

theorem rel_newline {s t : List Char} (h : Alike s t) :
    Option.Rel AlikeLines (newline s) (newline t) := by
  cases h with
  | nil => exact .none
  | char hc _ =>
    have hne : '\n' ≠ _ := fun h => hc h.symm
    simp [newline, Reader.literal, hne]
  | newline hb hb' h => exact .some (.newline hb hb' h)
  | label hl ha ha' hb hb' h => exact .some (.label hl ha ha' hb hb' h)

theorem sees_newline : Sees newline :=
  fun _ _ h => rel_isSome (rel_newline h)

theorem blind_tail {opener : Reader} (h : Blind opener) : Blind (tail opener) :=
  h.next (blind_spacing.next ((Blind.optional (Blind.pattern rfl)).next
    (Blind.present sees_newline)))

theorem blind_blockTail : Blind blockTail :=
  blind_tail ((Blind.pattern rfl).orElse (Blind.pattern rfl))

theorem blind_bracketTail : Blind bracketTail :=
  blind_tail (Blind.pattern rfl)

theorem blind_anyTail : Blind anyTail :=
  blind_blockTail.orElse blind_bracketTail

theorem blind_leadStop : Blind leadStop :=
  blind_anyTail.orElse (Blind.pattern rfl)

theorem blind_token {word : Reader} (h : Blind word) : Blind (token word) := by
  have hdq : Blind dqString :=
    (Blind.literal (by decide)).next fun _ _ h => (stringsAlike h).2.1
  have hsq : Blind sqString :=
    (Blind.literal (by decide)).next fun _ _ h => (stringsAlike h).1
  exact (Blind.pattern rfl).orElse ((Blind.pattern rfl).orElse
    (hdq.orElse (hsq.orElse h)))

theorem shortens_dqString : Shortens dqString :=
  (shortens_literal (by decide)).next cuts_strings.1

theorem shortens_sqString : Shortens sqString :=
  (shortens_literal (by decide)).next cuts_afterSq

theorem shortens_token {word : Reader} (h : Shortens word) :
    Shortens (token word) :=
  (Shortens.pattern rfl).orElse ((Shortens.pattern rfl).orElse
    (shortens_dqString.orElse (shortens_sqString.orElse h)))

theorem shortens_wordBefore (stop : Reader) : Shortens (wordBefore stop) :=
  Shortens.after Takes.absent (Shortens.pattern rfl)

theorem blind_tokensBefore {stop : Reader} (h : Blind stop) :
    Blind (.many (token (wordBefore stop))) :=
  Blind.many (blind_token ((Blind.absent h.sees).next (Blind.pattern rfl)))
    (shortens_token (shortens_wordBefore _))

theorem blind_upToTail : Blind upToTail :=
  blind_tokensBefore blind_anyTail

theorem blind_upToStop : Blind upToStop :=
  blind_tokensBefore blind_leadStop

theorem blind_upToEnd : Blind upToEnd :=
  Blind.many (blind_token (Blind.pattern rfl))
    (shortens_token (Shortens.pattern rfl))

theorem blind_keyword {word : String} (h : '\n' ∉ word.toList) :
    Blind (keyword word) :=
  (Blind.literal h).next ((Blind.absent (Blind.pattern rfl).sees).next
    (Blind.absent ((Blind.literal (by decide)).next
      (Blind.absent (Blind.literal (by decide)).sees)).sees))

theorem blind_keywords {words : List String}
    (h : ∀ word ∈ words, '\n' ∉ word.toList) : Blind (keywords words) := by
  induction words with
  | nil => exact fun _ _ _ => .none
  | cons word words ih =>
    obtain ⟨hword, hwords⟩ := List.forall_mem_cons.1 h
    exact (blind_keyword hword).orElse (ih hwords)

theorem blind_opening : ∀ shape, Blind (opening shape)
  | .indentOpen | .dual => blind_keywords (by decide)
  | .outdent => blind_keyword (by decide)
  | .bracketSameLine =>
    ((Blind.literal (by decide)).next (Blind.pattern rfl)).orElse
      ((Blind.literal (by decide)).next (Blind.pattern rfl))
  | .bracketOpen | .bracketClose =>
    (Blind.literal (by decide)).orElse (Blind.literal (by decide))
  | .blockOpener | .bracketTail | .heredocIntro | .plain =>
    fun _ _ _ => .none

/-- Lines of every shape end alike. -/
theorem rel_lineOf (shape : LineShape) {s t : List Char} (h : Alike s t) :
    Option.Rel AlikeLines (lineOf shape s) (lineOf shape t) := by
  have ended : ∀ {f : Reader}, Blind f → ∀ u v, Alike u v → Option.Rel AlikeLines
      (Reader.next f newline u) (Reader.next f newline v) :=
    fun hf => rel_next hf fun _ _ => rel_newline
  cases shape with
  | blockOpener => exact rel_next blind_upToStop (ended blind_blockTail) s t h
  | bracketTail => exact rel_next blind_upToStop (ended blind_bracketTail) s t h
  | heredocIntro => exact .none
  | plain => exact ended blind_upToEnd s t h
  | _ => exact rel_next (blind_opening _) (ended blind_upToTail) s t h

/-! ## Heredocs -/

theorem Alike.symm {s t : List Char} (h : Alike s t) : Alike t s := by
  induction h with
  | nil => exact .nil
  | char hc _ ih => exact .char hc ih
  | newline hb hb' _ ih => exact .newline hb' hb ih
  | label hl ha ha' hb hb' _ ih => exact .label hl hb hb' ha ha' ih

/-- What is alike within a line is the same. -/
theorem Alike.of_append {m s w : List Char} (hm : '\n' ∉ m)
    (h : Alike (m ++ s) w) : ∃ t, w = m ++ t ∧ Alike s t := by
  induction m generalizing w with
  | nil => exact ⟨w, rfl, h⟩
  | cons c m ih =>
    have hc : c ≠ '\n' := fun heq => hm (heq ▸ List.mem_cons_self)
    obtain ⟨v, rfl⟩ := (h.cons_iff hc).1 ⟨_, rfl⟩
    obtain ⟨t, rfl, ht⟩ := ih (fun hmem => hm (List.mem_cons_of_mem c hmem))
      (h.of_cons hc)
    exact ⟨t, rfl, ht⟩

theorem Alike.atLineEnd {s t : List Char} (h : Alike s t) (hs : AtLineEnd s) :
    AtLineEnd t := by
  cases h with
  | nil => exact hs
  | char hc _ =>
    rcases hs with hs | ⟨_, hs⟩
    · cases hs
    · cases hs
      exact absurd rfl hc
  | newline _ _ _ | label _ _ _ _ _ _ => exact .inr ⟨_, rfl⟩

/-- The terminator of a heredoc is recognized in both texts. -/
theorem rel_closing (label : String) {s t : List Char} (h : AlikeLines s t) :
    Option.Rel Alike (closing label s) (closing label t) := by
  -- A label between other blanks than before is still a terminator.
  have found : ∀ {b b' s t u : List Char}, Blanks b → Blanks b' → Alike s t →
      closing label (b ++ s) = some u →
      ∃ v, closing label (b' ++ t) = some v ∧ Alike u v := by
    intro b b' s t u hb hb' h hs
    obtain ⟨d, d', hd, hl, hd', hu, heq⟩ := closing_eq_some.1 hs
    have hdrop : s.dropWhile isSpacing = label.toList ++ (d' ++ u) := by
      rw [← List.dropWhile_append_of_pos hb, heq,
        dropWhile_blanks hd (hl.flush.1.append hl.ne_nil _)]
    cases blind_spacing s t h with
    | some hdropped =>
      rw [hdrop] at hdropped
      obtain ⟨w, hw, hrest⟩ := hdropped.of_append hl.not_newline
      obtain ⟨v, rfl, huv⟩ := hrest.of_append hd'.not_newline
      refine ⟨v, closing_eq_some.2 ⟨b' ++ t.takeWhile isSpacing, d',
        hb'.append (blanks_takeWhile t), hl, hd', huv.atLineEnd hu, ?_⟩, huv⟩
      rw [List.append_assoc, ← hw, List.takeWhile_append_dropWhile]
  unfold AlikeLines at h
  cases h with
  | char hc _ => exact absurd rfl hc
  | @newline b b' s t hb hb' h =>
    cases hs : closing label (b ++ s) with
    | some u =>
      obtain ⟨v, hv, huv⟩ := found hb hb' h hs
      rw [hv]
      exact .some huv
    | none =>
      cases ht : closing label (b' ++ t) with
      | none => exact .none
      | some v =>
        obtain ⟨u, hu, _⟩ := found hb' hb h.symm ht
        cases hs.symm.trans hu
  | @label l a a' b b' s t hl ha ha' hb hb' h =>
    rw [closing_of_label ha hl ha' (.inr ⟨s, rfl⟩),
      closing_of_label hb hl hb' (.inr ⟨t, rfl⟩)]
    split
    · exact .some h
    · exact .none

theorem contains_not_newline :
    CharSet.contains ⟨[Token.only '\n'], true⟩ = fun c => c ≠ '\n' := by
  funext c
  simp [contains_noneOf, Token.only, between_self]

theorem dropWhile_not_newline {m : List Char} (hm : '\n' ∉ m) (s : List Char) :
    (m ++ s).dropWhile (· ≠ '\n') = s.dropWhile (· ≠ '\n') := by
  refine List.dropWhile_append_of_pos fun c hc => ?_
  exact decide_eq_true fun h => hm (h ▸ hc)

theorem physicalLine_append {m : List Char} (hm : '\n' ∉ m) (s : List Char) :
    physicalLine (m ++ s) = physicalLine s := by
  have hline : ∀ t, Reader.pattern Token.physicalLine t
      = some (t.dropWhile fun c => c ≠ '\n') := by
    intro t
    rw [Reader.pattern, Token.physicalLine, Token.noneOf, strip_star_one,
      contains_not_newline]
  rw [physicalLine, Reader.next, Reader.next, hline, hline,
    dropWhile_not_newline hm]

/-- Physical lines end alike. -/
theorem rel_physicalLine {s t : List Char} (h : AlikeLines s t) :
    Option.Rel AlikeLines (physicalLine s) (physicalLine t) := by
  have line : ∀ u v, Alike u v →
      Option.Rel AlikeLines (physicalLine u) (physicalLine v) :=
    fun u v huv => rel_bind (Blind.pattern rfl u v huv) fun _ _ => rel_newline
  unfold AlikeLines at h
  cases h with
  | char hc _ => exact absurd rfl hc
  | newline hb hb' h =>
    rw [physicalLine_append hb.not_newline, physicalLine_append hb'.not_newline]
    exact line _ _ h
  | @label l a a' b b' s t hl ha ha' hb hb' h =>
    have pass : ∀ {a a' : List Char} (z : List Char), Blanks a → Blanks a' →
        physicalLine (a ++ (l ++ (a' ++ z))) = physicalLine z := by
      intro a a' z ha ha'
      rw [physicalLine_append ha.not_newline, physicalLine_append hl.not_newline,
        physicalLine_append ha'.not_newline]
    rw [pass _ ha ha', pass _ hb hb']
    exact line _ _ h

theorem rel_bodyLine (label : String) (s t : List Char) (h : AlikeLines s t) :
    Option.Rel AlikeLines (bodyLine label s) (bodyLine label t) := by
  unfold bodyLine Reader.next Reader.absent
  rw [rel_isSome (rel_closing label h)]
  split
  · exact .none
  · exact rel_physicalLine h

theorem alike_afterBody (label : String) {s t : List Char}
    (h : AlikeLines s t) :
    AlikeLines (afterBody label s) (afterBody label t) :=
  rel_skipAll (rel_bodyLine label) (shortens_bodyLine label) h

structure HeredocHead.Alike (h h' : HeredocHead) : Prop where
  label : h.label = h'.label
  opens : h.opens = h'.opens
  rest : Ruby.Alike h.rest h'.rest

structure Heredoc.Alike (h h' : Heredoc) : Prop extends
    h.toHeredocHead.Alike h'.toHeredocHead where
  body : AlikeLines h.body h'.body
  afterBody : AlikeLines h.afterBody h'.afterBody
  afterAll : AlikeLines h.afterAll h'.afterAll

theorem rel_readLabel (s t : List Char) (h : Alike s t) :
    Option.Rel HeredocHead.Alike (readLabel s) (readLabel t) := by
  refine rel_bind (rel_pattern rfl h) fun u v hline => ?_
  obtain ⟨m, hm, rfl, rfl, huv⟩ := hline
  have hrest : Alike (Reader.skipAll (token (wordBefore anyTail)) u)
      (Reader.skipAll (token (wordBefore anyTail)) v) := by
    cases blind_upToTail u v huv with
    | some h => exact h
  have hopener := blind_anyTail _ _ hrest
  refine .some ⟨?_, rel_isSome hopener, rel_getD hopener hrest⟩
  dsimp only
  rw [taken_append_self, taken_append_self]

theorem rel_readHead {s t : List Char} (h : Alike s t) :
    Option.Rel HeredocHead.Alike (readHead s) (readHead t) :=
  rel_bind (blind_upToStop.next (Blind.pattern rfl) s t h) rel_readLabel

theorem rel_readBody (h h' : HeredocHead) (hh : h.Alike h') :
    Option.Rel Heredoc.Alike (readBody h) (readBody h') := by
  refine rel_bind (rel_newline hh.rest) fun b b' hb => ?_
  have hafter := alike_afterBody h.label hb
  have hclosing := rel_bind (rel_closing h.label hafter) fun _ _ => rel_newline
  dsimp only
  rw [← hh.label]
  exact rel_map hclosing fun _ _ _ _ hall => ⟨hh, hb, hafter, hall⟩

theorem rel_readHeredoc {s t : List Char} (h : Alike s t) :
    Option.Rel Heredoc.Alike (readHeredoc s) (readHeredoc t) :=
  rel_bind (rel_readHead h) rel_readBody

/-! ## Logical lines -/

/-- Lines of the same kind whose parts have as many newlines. -/
inductive LogicalLine.Similar : LogicalLine → LogicalLine → Prop where
  | whole {shape text text'} : Similar (.whole shape text) (.whole shape text')
  | heredoc {head head' body body' label opens} :
    head.count '\n' = head'.count '\n' → body.count '\n' = body'.count '\n' →
    Similar (.heredoc head body label opens) (.heredoc head' body' label opens)

/-- Lines and what is left behind them. -/
def ReadAlike (p q : LogicalLine × List Char) : Prop :=
  p.1.Similar q.1 ∧ AlikeLines p.2 q.2

theorem AlikeLines.count_newline {s t : List Char} (h : AlikeLines s t) :
    s.count '\n' = t.count '\n' := by
  have hcount := Alike.count_newline h
  rw [List.count_cons, List.count_cons] at hcount
  exact Nat.add_right_cancel hcount

theorem count_taken {s t : List Char} (h : t <:+ s) (c : Char) :
    (taken s t).count c + t.count c = s.count c := by
  obtain ⟨m, rfl⟩ := h
  rw [taken_append_self, List.count_append]

/-- The parts of a heredoc that was read are ends of the text. -/
theorem suffix_of_readHeredoc {s : List Char} {h : Heredoc}
    (hs : readHeredoc s = some h) : h.rest <:+ s ∧ h.afterBody <:+ h.body := by
  obtain ⟨head, hhead, hbody⟩ := Option.bind_eq_some_iff.1 hs
  obtain ⟨t, ht, hsuffix⟩ := suffix_of_readHead hhead
  obtain ⟨rfl, _, _, hafter, _⟩ := readBody_eq_some hbody
  exact ⟨hsuffix.trans (Takes.suffix cuts_beforeLabel ht), hafter⟩

theorem rel_readAs (shape : LineShape) {s t : List Char} (h : Alike s t) :
    Option.Rel ReadAlike (readAs shape s) (readAs shape t) := by
  by_cases hshape : shape = .heredocIntro
  · subst hshape
    -- The parts start and end at places with as many newlines behind them.
    refine rel_map (rel_readHeredoc h) fun d d' hs ht hd => ⟨?_, hd.afterAll⟩
    obtain ⟨hrest, hafter⟩ := suffix_of_readHeredoc hs
    obtain ⟨hrest', hafter'⟩ := suffix_of_readHeredoc ht
    have hhead := count_taken hrest '\n'
    have hhead' := count_taken hrest' '\n'
    have hbody := count_taken hafter '\n'
    have hbody' := count_taken hafter' '\n'
    rw [h.count_newline, hd.rest.count_newline] at hhead
    rw [hd.body.count_newline, hd.afterBody.count_newline] at hbody
    dsimp only
    rw [← hd.label, ← hd.opens]
    exact .heredoc (Nat.add_right_cancel (hhead.trans hhead'.symm))
      (Nat.add_right_cancel (hbody.trans hbody'.symm))
  · rw [readAs_of_ne hshape, readAs_of_ne hshape]
    exact rel_map (rel_lineOf shape h) fun _ _ _ _ hrest => ⟨.whole, hrest⟩

/-- The first line that is read is of the same shape in both texts. -/
theorem rel_readLine {s t : List Char} (h : Alike s t) :
    Option.Rel ReadAlike (readLine s) (readLine t) :=
  rel_findSome? (fun shape => rel_readAs shape h) LineShape.all

/-! ## A line that is read again -/

/-- Two newlines of a text with as many newlines behind them are the same. -/
theorem append_newline_inj {m m' s t : List Char}
    (h : m ++ '\n' :: s = m' ++ '\n' :: t)
    (hcount : s.count '\n' = t.count '\n') : m = m' ∧ s = t := by
  rcases List.append_eq_append_iff.1 h with ⟨a, hm, hs⟩ | ⟨a, hm, ht⟩
  · cases a with
    | nil =>
      cases hs
      exact ⟨by rw [hm, List.append_nil], rfl⟩
    | cons c a =>
      have htail : s = a ++ '\n' :: t := (List.cons.inj hs).2
      rw [htail, List.count_append, List.count_cons_self] at hcount
      omega
  · cases a with
    | nil =>
      cases ht
      exact ⟨by rw [hm, List.append_nil], rfl⟩
    | cons c a =>
      have htail : t = a ++ '\n' :: s := (List.cons.inj ht).2
      rw [htail, List.count_append, List.count_cons_self] at hcount
      omega

/-- Similar lines that start the same text are the same. -/
theorem LogicalLine.Similar.eq {l l' : LogicalLine} (h : l.Similar l')
    (hl : l.Proper) (hl' : l'.Proper) {b b' c c' r r' : List Char}
    (heq : l.kept ++ (l.closingLine b b' ++ r)
      = l'.kept ++ (l'.closingLine c c' ++ r'))
    (hr : r.count '\n' = r'.count '\n') : l = l' ∧ r = r' := by
  obtain ⟨m, hm⟩ := hl.ended
  obtain ⟨m', hm'⟩ := hl'.ended
  cases h with
  | @whole shape text text' =>
    change text = m ++ ['\n'] at hm
    change text' = m' ++ ['\n'] at hm'
    subst hm hm'
    have hsplit : m ++ '\n' :: r = m' ++ '\n' :: r' := by
      simpa [LogicalLine.kept, LogicalLine.closingLine] using heq
    obtain ⟨rfl, rfl⟩ := append_newline_inj hsplit hr
    exact ⟨rfl, rfl⟩
  | @heredoc head head' body body' label opens hhead hbody =>
    have hkept := congrArg (List.count '\n') hm
    have hkept' := congrArg (List.count '\n') hm'
    have hcount := congrArg (List.count '\n') heq
    rw [hm, hm', List.append_assoc, List.append_assoc] at heq
    simp only [LogicalLine.kept, List.count_append, List.count_cons_self]
      at hkept hkept' hcount
    -- Counted from the end, the newlines of the two readings are the same.
    have hbehind : (LogicalLine.closingLine b b'
        (.heredoc head body label opens) ++ r).count '\n'
        = (LogicalLine.closingLine c c'
          (.heredoc head' body' label opens) ++ r').count '\n' := by
      rw [List.count_append, List.count_append]
      omega
    obtain ⟨rfl, hclosing⟩ := append_newline_inj heq hbehind
    obtain ⟨rfl, rfl⟩ := append_newline_inj (hm.trans hm'.symm) hbody
    have hsplit : b ++ (label.toList ++ b') ++ '\n' :: r
        = c ++ (label.toList ++ c') ++ '\n' :: r' := by
      simpa [LogicalLine.closingLine] using hclosing
    exact ⟨rfl, (append_newline_inj hsplit hr).2⟩

/-- The same line with other blanks around it, and other lines that are alike
behind it. -/
theorem alike_layout {l : LogicalLine} (hl : l.Proper)
    {b b' c c' r r' : List Char} (hb : Blanks b) (hb' : Blanks b')
    (hc : Blanks c) (hc' : Blanks c') (hr : AlikeLines r r') :
    Alike (l.kept ++ (l.closingLine b b' ++ r))
      (l.kept ++ (l.closingLine c c' ++ r')) := by
  have lines : ∀ (m : List Char) {s t : List Char}, AlikeLines s t →
      Alike (m ++ '\n' :: s) (m ++ '\n' :: t) := by
    intro m s t h
    induction m with
    | nil => exact h
    | cons d m ih =>
      by_cases hd : d = '\n'
      · subst hd
        have hline : Alike ('\n' :: ([] ++ (m ++ '\n' :: s)))
            ('\n' :: ([] ++ (m ++ '\n' :: t))) := .newline blanks_nil blanks_nil ih
        exact hline
      · exact .char hd ih
  have hclosing : AlikeLines (l.closingLine b b' ++ r)
      (l.closingLine c c' ++ r') := by
    cases l with
    | whole shape text => exact hr
    | heredoc head body label opens =>
      have hlabel := hl.labelled head body label opens rfl
      have hline := Alike.label hlabel hb hb' hc hc' hr
      simpa [AlikeLines, LogicalLine.closingLine] using hline
  obtain ⟨m, hm⟩ := hl.ended
  rw [hm, List.append_assoc, List.append_assoc]
  exact lines m hclosing

/-- A line that was read is read again where other blanks stand around it and
other lines that are alike behind it. -/
theorem readLine_again {s r r' : List Char} {l : LogicalLine}
    (h : readLine s = some (l, r)) (hs : Flush s) {b b' : List Char}
    (hb : Blanks b) (hb' : Blanks b') (hr : AlikeLines r r') :
    readLine (l.kept ++ (l.closingLine b b' ++ r')) = some (l, r') := by
  obtain ⟨hl, c, c', hc, hc', rfl⟩ := readLine_eq_some h hs
  have hrel := rel_readLine (alike_layout hl hc hc' hb hb' hr)
  rw [h] at hrel
  cases ht : readLine (l.kept ++ (l.closingLine b b' ++ r')) with
  | none =>
    rw [ht] at hrel
    cases hrel
  | some p =>
    rw [ht] at hrel
    obtain ⟨l', r''⟩ := p
    cases hrel with
    | some hp =>
      obtain ⟨hsimilar, hr''⟩ := hp
      have hflush : Flush (l.kept ++ (l.closingLine b b' ++ r')) :=
        hl.flush.append hl.kept_ne_nil _
      obtain ⟨hl', d, d', _, _, heq⟩ := readLine_eq_some ht hflush
      -- Both readings leave as many lines as the first one did, which decides
      -- where in the same text they end.
      have hcount : r'.count '\n' = r''.count '\n' :=
        hr.count_newline.symm.trans hr''.count_newline
      obtain ⟨rfl, rfl⟩ := hsimilar.eq hl hl' heq hcount
      rfl

end RubyIndent.Ruby
