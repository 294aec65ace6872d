import RubyIndent.Proofs.Ruby.Scanning

/-!
# Reading a heredoc

A heredoc is read in three parts: the introducing line, the lines of the body,
and the terminator. Its reading depends on the label, which the grammar keeps in
the context. The label is put there by a rule with an action, and the body is
looked for by a rule that asks for it; the table answers for both when they are
met again at the same place. `heredocIntro_evaluates` says what the grammar
does where neither has been met before.
-/

namespace RubyIndent.Ruby

open RubyIndent.Peg RubyIndent.Text RubyIndent.Pattern

def taken (s t : List Char) : List Char :=
  s.take (s.length - t.length)

/-- A line that looks like a terminator, up to its end. -/
def terminator : Reader :=
  .next spacing (.next (.pattern Token.heredocLabel) (.next spacing
    (.present (.orElse newline endOfText))))

/-- The terminator of a heredoc with a given label. -/
def closing (label : String) : Reader :=
  fun s => (terminator s).bind fun t =>
    if label = Literal.trimBlanks (String.ofList (taken s t)) then some t
    else none

def physicalLine : Reader :=
  .next (.pattern Token.physicalLine) newline

def bodyLine (label : String) : Reader :=
  .next (.absent (closing label)) physicalLine

def afterBody (label : String) : List Char → List Char :=
  Reader.skipAll (bodyLine label)

/-- The introducing line of a heredoc, without its newline. -/
structure HeredocHead where
  label : String
  /-- The line ends with an opener. -/
  opens : Bool
  rest : List Char
  deriving DecidableEq

/-- Up to the label of a heredoc. -/
def beforeLabel : Reader :=
  .next upToStop (.pattern Token.heredocStart)

def readLabel (s : List Char) : Option HeredocHead :=
  (Reader.pattern Token.heredocLabel s).bind fun t =>
    (upToTail t).map fun u =>
      { label := String.ofList (taken s t)
        opens := (anyTail u).isSome
        rest := (anyTail u).getD u }

def readHead (s : List Char) : Option HeredocHead :=
  (beforeLabel s).bind readLabel

/-- The introducing line up to the label, the label, and the tokens up to a tail. -/
theorem readHead_eq_some {s : List Char} {head : HeredocHead}
    (h : readHead s = some head) : ∃ r t u, beforeLabel s = some r ∧
      Reader.pattern Token.heredocLabel r = some t ∧ upToTail t = some u ∧
      head = { label := String.ofList (taken r t)
               opens := (anyTail u).isSome
               rest := (anyTail u).getD u } := by
  obtain ⟨r, hr, h⟩ := Option.bind_eq_some_iff.1 h
  obtain ⟨t, ht, h⟩ := Option.bind_eq_some_iff.1 h
  obtain ⟨u, hu, rfl⟩ := Option.map_eq_some_iff.1 h
  exact ⟨r, t, u, hr, ht, hu, rfl⟩

/-- A whole heredoc: its introducing line, what is left behind its body, and
what is left behind the newline of its terminator. -/
structure Heredoc extends HeredocHead where
  /-- What is left behind the introducing line and its newline. -/
  body : List Char
  afterBody : List Char
  afterAll : List Char

def readBody (head : HeredocHead) : Option Heredoc :=
  (newline head.rest).bind fun body =>
    let afterBody := afterBody head.label body
    (Reader.next (closing head.label) newline afterBody).map fun afterAll =>
      { head with body, afterBody, afterAll }

def readHeredoc (s : List Char) : Option Heredoc :=
  (readHead s).bind readBody

theorem reads_terminator :
    Reads grammar plain Sym.heredocTerminator.ref terminator :=
  Sym.reads rfl (Reads.sequence (.cons reads_spacing
    (.cons (Reads.pattern rfl) (.cons reads_spacing
      (.last (Reads.and (Reads.choice_cons reads_eol
        (Reads.choice_last reads_eof))))))))

theorem reads_physicalLine :
    Reads grammar plain Sym.physicalLine.ref physicalLine :=
  Sym.reads rfl (Reads.sequence (.cons (Reads.pattern rfl) (.last reads_eol)))

theorem reads_heredocStart : Reads grammar plain Sym.heredocStart.ref
    (.pattern Token.heredocStart) :=
  Sym.reads rfl (Reads.pattern rfl)

/-! ## The terminator and the body

Both are read in a context that holds the label. -/

variable {src : List Char}

theorem upTo_eq_taken (c d : Cursor src) : c.upTo d = taken c.rest d.rest := by
  have hc := c.index_add_length_rest
  have hd := d.index_add_length_rest
  unfold Cursor.upTo taken
  congr 1
  omega

/-- A state with a sound table whose context holds a label. -/
structure Labelled (label : String) (s : State Indenter src) : Prop extends
    Sound grammar plain s where
  held : s.context.label = some label

theorem Labelled.of_stays {label : String} {s t : State Indenter src}
    (h : Labelled label s) (ht : Stays grammar plain s t) : Labelled label t :=
  ⟨ht.toSound, by rw [ht.apart.context silent_plain, h.held]⟩

theorem closing_evaluates {label : String} {s t : State Indenter src}
    {v : Option (Value (Cursor src))} (hs : Labelled label s)
    (he : Evaluates grammar (.expr Literal.closing) s v t) :
    Stays grammar plain s t ∧
      match closing label s.cursor.rest with
      | none => v = none
      | some r => ∃ d w, d.rest = r ∧ v = some (.span s.cursor d) ∧
        t.view = (s.view.moveTo d).bindLabel "terminator" w := by
  have hwithin : Literal.closing.Within plain :=
    ⟨plain_id.2 rfl, trivial, trivial⟩
  refine ⟨⟨hs.of_evaluates he trivial, he.apart closed_plain hwithin⟩, ?_⟩
  -- What is compared with the label is the terminator just bound.
  have compared : ∀ {d : Cursor src} {u : State Indenter src},
      Stays grammar plain s u →
      u.view = (s.view.moveTo d).bindLabel "terminator" (.span s.cursor d) →
      Literal.isActiveLabel u.captures u.context
        = decide (label = Literal.trimBlanks
            (String.ofList (taken s.cursor.rest d.rest))) := by
    intro d u hu hview
    have hlabel : u.context.label = some label := (hs.of_stays hu).held
    have hget : u.captures.get? "terminator"
        = some (String.ofList (taken s.cursor.rest d.rest)) := by
      rw [← upTo_eq_taken]
      exact congrArg (fun p : View src => p.captures.get? "terminator") hview
    rw [Literal.isActiveLabel, hget, Bool.eq_iff_iff]
    simp [hlabel]
  unfold closing
  cases he with
  | sequence_some h =>
    rcases reads_terminator.took_all_label closed_plain (plain_id.2 rfl) h
      hs.toSound with ⟨_, hv, _⟩ | ⟨d, u, ho, hview, hu, hrest⟩
    · cases hv
    · cases hrest with
      | all_cons hp hrest =>
        cases hrest
        cases hp with
        | predicate_true hp =>
          have hlabel := of_decide_eq_true ((compared hu hview).symm.trans hp)
          rw [ho, Option.bind_some, if_pos hlabel]
          have hcursor : t.cursor = d := congrArg View.cursor hview
          exact ⟨d, _, rfl, by rw [hcursor], hview⟩
  | sequence_none h =>
    rcases reads_terminator.took_all_label closed_plain (plain_id.2 rfl) h
      hs.toSound with ⟨ho, _, _⟩ | ⟨d, u, ho, hview, hu, hrest⟩
    · rw [ho]
      rfl
    · cases hrest with
      | all_none hp =>
        cases hp with
        | predicate_false hp =>
          have hlabel := of_decide_eq_false ((compared hu hview).symm.trans hp)
          rw [ho, Option.bind_some, if_neg hlabel]
      | all_cons _ hrest => cases hrest

/-- A line of the body is read as one. -/
theorem bodyLine_evaluates {label : String} {s t : State Indenter src}
    {v : Option (Value (Cursor src))} (hs : Labelled label s)
    (he : Evaluates grammar
      (.expr (.sequence [.not Literal.closing, Sym.physicalLine.ref])) s v t) :
    Took s v t (bodyLine label s.cursor.rest) ∧ Stays grammar plain s t := by
  have hwithin : (Expr.sequence [.not Literal.closing,
      Sym.physicalLine.ref]).Within plain :=
    ⟨⟨plain_id.2 rfl, trivial, trivial⟩, plain_id.2 rfl, trivial⟩
  refine ⟨?_, hs.of_evaluates he trivial, he.apart closed_plain hwithin⟩
  unfold bodyLine Reader.next Reader.absent
  -- Looking for the terminator leaves the cursor where it is.
  have looked : ∀ {w u}, Evaluates grammar (.expr Literal.closing)
      { s with quiet := s.quiet + 1 } w u →
      (w = none ↔ closing label s.cursor.rest = none) ∧
        Sound grammar plain { u.rewind s with quiet := u.quiet - 1 } := by
    intro w u h
    have hq : Labelled label { s with quiet := s.quiet + 1 } :=
      ⟨hs.toSound.of_eq rfl, hs.held⟩
    obtain ⟨hu, hres⟩ := closing_evaluates hq h
    refine ⟨?_, hu.toSound.of_eq rfl⟩
    dsimp only at hres
    cases ho : closing label s.cursor.rest with
    | none =>
      rw [ho] at hres
      exact ⟨fun _ => rfl, fun _ => hres⟩
    | some r =>
      rw [ho] at hres
      obtain ⟨d, _, _, hw, _⟩ := hres
      exact ⟨fun h => (nomatch hw.symm.trans h), fun h => (nomatch h)⟩
  cases he with
  | sequence_some h =>
    cases h with
    | all_cons h hrest =>
      cases h with
      | not_none h =>
        obtain ⟨hclosed, hsound⟩ := looked h
        rw [hclosed.1 rfl]
        rcases reads_physicalLine.took_all closed_plain (plain_id.2 rfl) hrest
          hsound with ⟨_, hv, _⟩ | ⟨d, u, ho, hview, _, hrest⟩
        · cases hv
        · cases hrest
          have hcursor : t.cursor = d := congrArg View.cursor hview
          change physicalLine s.cursor.rest = some d.rest at ho
          simp only [Option.isSome_none, Bool.false_eq_true, if_false,
            Option.bind_some, ho]
          exact ⟨d, rfl, by rw [hcursor], hview⟩
  | sequence_none h =>
    cases h with
    | all_none h =>
      cases h with
      | not_some h =>
        have hclosed := mt (looked h).1.2 (Option.some_ne_none _)
        simp only [Option.isSome_iff_ne_none.2 hclosed, if_true, Option.bind_none]
        rfl
    | all_cons h hrest =>
      cases h with
      | not_none h =>
        obtain ⟨hclosed, hsound⟩ := looked h
        rcases reads_physicalLine.took_all closed_plain (plain_id.2 rfl) hrest
          hsound with ⟨ho, _, _⟩ | ⟨d, u, _, _, _, hrest⟩
        · change physicalLine s.cursor.rest = none at ho
          simp only [hclosed.1 rfl, Option.isSome_none, Bool.false_eq_true,
            if_false, Option.bind_some, ho]
          rfl
        · cases hrest

/-- The body is read line by line. -/
theorem body_evaluates {label : String} {s t : State Indenter src}
    {v : Option (Value (Cursor src))} (hs : Labelled label s)
    (he : Evaluates grammar (.expr Literal.heredocBody) s v t) :
    Took s v t (some (afterBody label s.cursor.rest)) ∧
      Stays grammar plain s t := by
  have hwithin : Literal.heredocBody.Within plain :=
    ⟨⟨plain_id.2 rfl, trivial, trivial⟩, plain_id.2 rfl, trivial⟩
  refine ⟨?_, hs.of_evaluates he trivial, he.apart closed_plain hwithin⟩
  unfold afterBody
  generalize hn : s.cursor.rest.length = n
  induction n using Nat.strongRecOn generalizing s v with
  | _ n ih =>
    rw [Reader.skipAll]
    cases he with
    | @many_more _ _ _ u _ h hlt hrest =>
      obtain ⟨htook, hu⟩ := bodyLine_evaluates hs h
      cases ho : bodyLine label s.cursor.rest with
      | none => rw [ho] at htook; cases htook
      | some r =>
        rw [ho] at htook
        obtain ⟨d, rfl, _, hview⟩ := htook
        have hcursor : u.cursor = d := congrArg View.cursor hview
        have hlen := Cursor.length_rest_lt hlt
        obtain ⟨d', hd', hv, hview'⟩ := ih _ (hn ▸ hlen) (hs.of_stays hu) hrest rfl
        rw [hcursor] at hlen hd'
        refine ⟨d', hd'.trans (if_pos hlen).symm, ?_, ?_⟩
        · have hstop : t.cursor = d' := congrArg View.cursor hview'
          rw [hstop]
        · rw [hview', hview]
          rfl
    | many_idle h hle =>
      obtain ⟨htook, hu⟩ := bodyLine_evaluates hs h
      cases ho : bodyLine label s.cursor.rest with
      | none => rw [ho] at htook; cases htook
      | some r =>
        rw [ho] at htook
        obtain ⟨d, rfl, _, hview⟩ := htook
        have hcursor : t.cursor = d := congrArg View.cursor hview
        have hlen : ¬ d.rest.length < s.cursor.rest.length := by
          rw [← hcursor, ← index_lt_iff]
          exact hle
        refine ⟨d, (if_neg hlen).symm, ?_, hview⟩
        rw [hcursor]
    | many_none h =>
      obtain ⟨htook, _⟩ := bodyLine_evaluates hs h
      cases ho : bodyLine label s.cursor.rest with
      | none => exact ⟨s.cursor, rfl, rfl, rfl⟩
      | some r =>
        rw [ho] at htook
        obtain ⟨_, _, hv, _⟩ := htook
        cases hv

/-! ## The label and the body as rules -/

theorem Sym.not_plain {s : Sym} (hs : s.isPlain = false) : ¬ plain s.id := by
  rw [plain_id, hs]
  exact Bool.false_ne_true

/-- The label of a heredoc is remembered where it is met for the first time. -/
theorem label_evaluates {s t : State Indenter src}
    {v : Option (Value (Cursor src))} (hs : Sound grammar plain s)
    (hnew : s.memo.outcome? (Sym.heredocLabel.id, s.cursor) = none)
    (he : Evaluates grammar (.expr Sym.heredocLabel.ref) s v t) :
    Sound grammar plain t ∧
      Changes plain (· = (Sym.heredocLabel.id, s.cursor)) s t ∧
      match Reader.pattern Token.heredocLabel s.cursor.rest with
      | none => v = none ∧ t.context = s.context
      | some r => ∃ d, d.rest = r ∧ v ≠ none ∧ t.view = s.view.moveTo d ∧
        t.context = s.context.rememberLabel
          (String.ofList (taken s.cursor.rest r)) := by
  refine ⟨hs.of_evaluates he trivial, ?_⟩
  have hid : ¬ plain Sym.heredocLabel.id := Sym.not_plain rfl
  have body : ∀ {w u}, Evaluates grammar (.expr (.pattern Token.heredocLabel))
      (s.entered Sym.heredocLabel.id).opened w u →
      Took (s.entered Sym.heredocLabel.id).opened w u
        (Reader.pattern Token.heredocLabel s.cursor.rest) ∧
      Stays grammar plain (s.entered Sym.heredocLabel.id).opened u :=
    fun h => (Reads.pattern rfl).took closed_plain trivial h
      ((hs.entered hid).of_eq rfl)
  have entry : ∀ {u : State Indenter src} {o},
      Stays grammar plain (s.entered Sym.heredocLabel.id).opened u →
      t.memo = u.memo.setOutcome (Sym.heredocLabel.id, s.cursor) o →
      Changes plain (· = (Sym.heredocLabel.id, s.cursor)) s t := by
    intro u o hu ht
    have h := Changes.apply_new (hu.changes (V := fun _ => False)) ht
    exact h.mono fun v hv => hv.resolve_left id
  cases he with
  | rule he =>
    rcases he.apply_new hnew (grammar_rule? _) closed_plain trivial hid with
      ⟨u, h, rfl, _, hctx, hmemo⟩ | ⟨w, u, h, rfl, hview, hctx, hmemo⟩
    · obtain ⟨htook, hu⟩ := body h
      refine ⟨entry hu hmemo, ?_⟩
      cases ho : Reader.pattern Token.heredocLabel s.cursor.rest with
      | none => exact ⟨rfl, hctx.trans (hu.apart.context silent_plain)⟩
      | some r =>
        rw [ho] at htook
        obtain ⟨_, _, hv, _⟩ := htook
        cases hv
    · obtain ⟨htook, hu⟩ := body h
      refine ⟨entry hu hmemo, ?_⟩
      cases ho : Reader.pattern Token.heredocLabel s.cursor.rest with
      | none => rw [ho] at htook; cases htook
      | some r =>
        rw [ho] at htook
        obtain ⟨d, rfl, _, huview⟩ := htook
        have hcursor : u.cursor = d := congrArg View.cursor huview
        refine ⟨d, rfl, Option.some_ne_none _, hcursor ▸ hview, ?_⟩
        have htext : u.captures.text
            = String.ofList (taken s.cursor.rest d.rest) := by
          rw [← upTo_eq_taken]
          exact congrArg (fun p : View src => p.captures.text) huview
        have hsame : u.context = s.context := hu.apart.context silent_plain
        rw [hctx, ← htext, ← hsame]
        rfl

/-- The body of a heredoc is looked for where it is met for the first time. -/
theorem bodyRule_evaluates {label : String} {s t : State Indenter src}
    {v : Option (Value (Cursor src))} (hs : Labelled label s)
    (hnew : s.memo.outcome? (Sym.heredocBody.id, s.cursor) = none)
    (he : Evaluates grammar (.expr Sym.heredocBody.ref) s v t) :
    Labelled label t ∧ Changes plain (· = (Sym.heredocBody.id, s.cursor)) s t ∧
      Took s v t (some (afterBody label s.cursor.rest)) ∧
      t.context = s.context := by
  have hid : ¬ plain Sym.heredocBody.id := Sym.not_plain rfl
  have hwithin : Literal.heredocBody.Within plain :=
    ⟨⟨plain_id.2 rfl, trivial, trivial⟩, plain_id.2 rfl, trivial⟩
  have hstart : Labelled label (s.entered Sym.heredocBody.id).opened :=
    ⟨(hs.entered hid).of_eq rfl, hs.held⟩
  have hsound : Sound grammar plain t := hs.of_evaluates he trivial
  cases he with
  | rule he =>
    rcases he.apply_new hnew (grammar_rule? _) closed_plain hwithin hid with
      ⟨u, h, _, _, _, _⟩ | ⟨w, u, h, rfl, hview, hctx, hmemo⟩
    · obtain ⟨⟨_, _, hv, _⟩, _⟩ := body_evaluates hstart h
      cases hv
    · obtain ⟨⟨d, hd, hv, huview⟩, hu⟩ := body_evaluates hstart h
      have hcursor : u.cursor = d := congrArg View.cursor huview
      have hsame : t.context = s.context :=
        hctx.trans (hu.apart.context silent_plain)
      have hchanges := Changes.apply_new (hu.changes (V := fun _ => False)) hmemo
      refine ⟨⟨hsound, hsame ▸ hs.held⟩,
        hchanges.mono fun v hv => hv.resolve_left id, ?_, hsame⟩
      exact ⟨d, hd, hv, hcursor ▸ hview⟩

/-! ## The introducing line -/

/-- What does not depend on the label that is remembered. -/
def forget (i : Indenter) : Indenter :=
  { i with label := none }

/-- The visit that reading an introducing line makes outside of the plain
part. -/
def LabelVisit (s : List Char) (v : Visit (Cursor src)) : Prop :=
  v.1 = Sym.heredocLabel.id ∧ beforeLabel s = some v.2.rest

def BodyVisit (s : List Char) (v : Visit (Cursor src)) : Prop :=
  v.1 = Sym.heredocBody.id ∧
    ((readHead s).bind fun head => newline head.rest) = some v.2.rest

def HeredocVisit (s : List Char) (v : Visit (Cursor src)) : Prop :=
  LabelVisit s v ∨ BodyVisit s v

/-- The optional opener at the end of the introducing line is bound. -/
theorem opener_evaluates {s t : State Indenter src}
    {v : Option (Value (Cursor src))} (hs : Sound grammar plain s)
    (he : Evaluates grammar
      (.all [.optional (.label "opener" Sym.anyTail.ref)]) s v t) :
    v ≠ none ∧ Stays grammar plain s t ∧ ∃ d w,
      d.rest = (anyTail s.cursor.rest).getD s.cursor.rest ∧
      t.view = if (anyTail s.cursor.rest).isSome
        then (s.view.moveTo d).bindLabel "opener" w else s.view.moveTo d := by
  have hwithin : AllWithin plain [.optional (.label "opener" Sym.anyTail.ref)] :=
    ⟨plain_id.2 rfl, trivial⟩
  have hstays : Stays grammar plain s t :=
    ⟨hs.of_evaluates he trivial, he.apart closed_plain hwithin⟩
  cases he with
  | all_none h => cases h
  | all_cons h hrest =>
    cases hrest
    refine ⟨Option.some_ne_none _, hstays, ?_⟩
    cases h with
    | optional_some h =>
      rcases reads_anyTail.took_all_label closed_plain (plain_id.2 rfl)
        (.all_cons h .all_nil) hs with ⟨_, hv, _⟩ | ⟨d, u, ho, hview, _, hu⟩
      · cases hv
      · cases hu.of_all_nil.1
        exact ⟨d, _, by rw [ho]; rfl, by rw [ho]; exact hview⟩
    | optional_none h =>
      have hall : Evaluates grammar (.all [.label "opener" Sym.anyTail.ref]) s
          none _ := .all_none h
      rcases reads_anyTail.took_all_label closed_plain (plain_id.2 rfl) hall hs
        with ⟨ho, _, _⟩ | ⟨_, _, _, _, _, hu⟩
      · exact ⟨s.cursor, .text "", by rw [ho]; rfl, by rw [ho]; rfl⟩
      · cases hu

/-- What is known of a state after an introducing line was read from `s`
on. -/
def HeadRead (s : State Indenter src) (v : Option (Value (Cursor src)))
    (t : State Indenter src) : Option HeredocHead → Prop
  | none => v = none
  | some head => v ≠ none ∧ t.context.label = some head.label ∧
    ∃ d w, d.rest = head.rest ∧ t.view = if head.opens
      then (s.view.moveTo d).bindLabel "opener" w else s.view.moveTo d

theorem label_rest_evaluates {s t : State Indenter src}
    {v : Option (Value (Cursor src))} (hs : Sound grammar plain s)
    (hnew : s.memo.outcome? (Sym.heredocLabel.id, s.cursor) = none)
    (he : Evaluates grammar (.all [Sym.heredocLabel.ref, Sym.rest.ref,
      .optional (.label "opener" Sym.anyTail.ref)]) s v t) :
    Changes plain (· = (Sym.heredocLabel.id, s.cursor)) s t ∧
      forget t.context = forget s.context ∧
      HeadRead s v t (readLabel s.cursor.rest) := by
  unfold readLabel
  cases he with
  | all_none h =>
    obtain ⟨_, hchanges, hres⟩ := label_evaluates hs hnew h
    cases ho : Reader.pattern Token.heredocLabel s.cursor.rest with
    | none =>
      rw [ho] at hres
      exact ⟨hchanges, by rw [hres.2], rfl⟩
    | some r =>
      rw [ho] at hres
      obtain ⟨_, _, hv, _⟩ := hres
      exact absurd rfl hv
  | @all_cons _ _ _ _ u₁ _ _ h he =>
    obtain ⟨hsound₁, hchanges₁, hres⟩ := label_evaluates hs hnew h
    cases ho : Reader.pattern Token.heredocLabel s.cursor.rest with
    | none =>
      rw [ho] at hres
      cases hres.1
    | some r =>
      rw [ho] at hres
      obtain ⟨d₁, rfl, _, hview₁, hctx₁⟩ := hres
      have hcursor₁ : u₁.cursor = d₁ := congrArg View.cursor hview₁
      rcases reads_rest.took_all closed_plain (plain_id.2 rfl) he hsound₁ with
        ⟨ho, _, _⟩ | ⟨d₂, u₂, ho₂, hview₂, hu₂, he⟩
      · cases ho
      have hcursor₂ : u₂.cursor = d₂ := congrArg View.cursor hview₂
      obtain ⟨hv, ht, d, w, hd, hview⟩ := opener_evaluates hu₂.toSound he
      have hctx : t.context = u₁.context :=
        (ht.apart.context silent_plain).trans (hu₂.apart.context silent_plain)
      refine ⟨hchanges₁.trans (hu₂.changes.trans ht.changes), ?_, ?_⟩
      · rw [hctx, hctx₁]
        rfl
      · rw [Option.bind_some, ← hcursor₁, ho₂]
        refine ⟨hv, ?_, d, w, ?_, ?_⟩
        · rw [hctx, hctx₁, hcursor₁]
          rfl
        · rw [hd, hcursor₂]
        · rw [hview, hview₂, hview₁, hcursor₂]
          rfl

/-- The introducing line. -/
theorem head_evaluates {s t : State Indenter src}
    {v : Option (Value (Cursor src))} (hs : Sound grammar plain s)
    (hnew : ∀ w, LabelVisit s.cursor.rest w → s.memo.outcome? w = none)
    (he : Evaluates grammar (.all [Sym.lead.ref, Sym.heredocStart.ref,
      Sym.heredocLabel.ref, Sym.rest.ref,
      .optional (.label "opener" Sym.anyTail.ref)]) s v t) :
    Changes plain (LabelVisit s.cursor.rest) s t ∧
      forget t.context = forget s.context ∧
      HeadRead s v t (readHead s.cursor.rest) := by
  unfold readHead
  rcases reads_lead.took_all closed_plain (plain_id.2 rfl) he hs with
    ⟨ho, _, _⟩ | ⟨d₁, u₁, ho₁, hview₁, hu₁, he⟩
  · cases ho
  have hcursor₁ : u₁.cursor = d₁ := congrArg View.cursor hview₁
  have hctx₁ : u₁.context = s.context := hu₁.apart.context silent_plain
  rcases reads_heredocStart.took_all closed_plain (plain_id.2 rfl) he
    hu₁.toSound with ⟨ho, hv, ht⟩ | ⟨d₂, u₂, ho₂, hview₂, hu₂, he⟩
  · have hnone : beforeLabel s.cursor.rest = none := by
      rw [beforeLabel, Reader.next, ho₁, Option.bind_some, ← hcursor₁, ho]
    rw [hnone]
    refine ⟨hu₁.changes.trans ht.changes, ?_, hv⟩
    rw [ht.apart.context silent_plain, hctx₁]
  have hcursor₂ : u₂.cursor = d₂ := congrArg View.cursor hview₂
  have hctx₂ : u₂.context = s.context :=
    (hu₂.apart.context silent_plain).trans hctx₁
  have hbefore : beforeLabel s.cursor.rest = some u₂.cursor.rest := by
    rw [beforeLabel, Reader.next, ho₁, Option.bind_some, ← hcursor₁, ho₂,
      hcursor₂]
  have hnew₂ : u₂.memo.outcome? (Sym.heredocLabel.id, u₂.cursor) = none := by
    have hid : ¬ plain Sym.heredocLabel.id := Sym.not_plain rfl
    rw [hu₂.apart.outside _ hid, hu₁.apart.outside _ hid]
    exact hnew _ ⟨rfl, hbefore⟩
  obtain ⟨hchanges, hforget, hread⟩ := label_rest_evaluates hu₂.toSound hnew₂ he
  refine ⟨(hu₁.changes.trans hu₂.changes).trans (hchanges.mono ?_), ?_, ?_⟩
  · rintro _ rfl
    exact ⟨rfl, hbefore⟩
  · rw [hforget, hctx₂]
  · rw [hbefore, Option.bind_some]
    have hview : ∀ d, u₂.view.moveTo d = s.view.moveTo d := by
      intro d
      rw [hview₂, hview₁]
      rfl
    unfold HeadRead at hread ⊢
    simpa only [hview] using hread

/-! ## The whole heredoc -/

def HeredocRead (s : State Indenter src) (v : Option (Value (Cursor src)))
    (t : State Indenter src) : Option Heredoc → Prop
  | none => v = none
  | some h => v ≠ none ∧ t.cursor.rest = h.afterAll ∧
    t.frame.start = s.frame.start ∧ t.context.label = some h.label ∧
    t.captures.get? "head"
      = some (String.ofList (taken s.cursor.rest h.rest)) ∧
    t.captures.get? "body"
      = some (String.ofList (taken h.body h.afterBody)) ∧
    (t.captures.get? "opener").isSome = h.opens

/-- The terminator with its newline. -/
theorem closing_eol_evaluates {label : String} {s t : State Indenter src}
    {v : Option (Value (Cursor src))} (hs : Labelled label s)
    (he : Evaluates grammar (.all [Literal.closing, Sym.eol.ref]) s v t) :
    Stays grammar plain s t ∧
      match Reader.next (closing label) newline s.cursor.rest with
      | none => v = none
      | some r => v ≠ none ∧ ∃ d w, d.rest = r ∧
        t.view = (s.view.moveTo d).bindLabel "terminator" w := by
  have hwithin : AllWithin plain [Literal.closing, Sym.eol.ref] :=
    ⟨⟨plain_id.2 rfl, trivial, trivial⟩, plain_id.2 rfl, trivial⟩
  refine ⟨⟨hs.of_evaluates he trivial, he.apart closed_plain hwithin⟩, ?_⟩
  unfold Reader.next
  cases he with
  | all_none h =>
    obtain ⟨_, hres⟩ := closing_evaluates hs h
    cases ho : closing label s.cursor.rest with
    | none => rfl
    | some r =>
      rw [ho] at hres
      obtain ⟨_, _, _, hv, _⟩ := hres
      cases hv
  | @all_cons _ _ _ _ u _ _ h he =>
    obtain ⟨hu, hres⟩ := closing_evaluates hs h
    cases ho : closing label s.cursor.rest with
    | none => rw [ho] at hres; cases hres
    | some r =>
      rw [ho] at hres
      obtain ⟨d₁, w, rfl, _, hview₁⟩ := hres
      have hcursor₁ : u.cursor = d₁ := congrArg View.cursor hview₁
      rw [Option.bind_some, ← hcursor₁]
      rcases reads_eol.took_all closed_plain (plain_id.2 rfl) he hu.toSound with
        ⟨ho, hv, _⟩ | ⟨d₂, u₂, ho, hview₂, _, he⟩
      · rw [ho]
        exact hv
      · obtain ⟨rfl, hv⟩ := he.of_all_nil
        rw [ho]
        refine ⟨hv, d₂, w, rfl, ?_⟩
        rw [hview₂, hview₁]
        rfl

theorem toHeredocHead_of_readBody {head : HeredocHead} {h : Heredoc}
    (hb : readBody head = some h) : h.toHeredocHead = head := by
  obtain ⟨body, _, hb⟩ := Option.bind_eq_some_iff.1 hb
  obtain ⟨afterAll, _, rfl⟩ := Option.map_eq_some_iff.1 hb
  rfl

theorem bodyParts_evaluates {head : HeredocHead} {s t : State Indenter src}
    {v : Option (Value (Cursor src))} (hs : Labelled head.label s)
    (hrest : s.cursor.rest = head.rest)
    (hnew : ∀ c, newline head.rest = some c.rest →
      s.memo.outcome? (Sym.heredocBody.id, c) = none)
    (he : Evaluates grammar (.all [Sym.eol.ref,
      .label "body" Sym.heredocBody.ref, Literal.closing, Sym.eol.ref]) s v t) :
    Changes plain (fun w => w.1 = Sym.heredocBody.id ∧
        newline head.rest = some w.2.rest) s t ∧
      t.context = s.context ∧
      match readBody head with
      | none => v = none
      | some h => v ≠ none ∧ ∃ d c c' w, d.rest = h.afterAll ∧
        c.rest = h.body ∧ c'.rest = h.afterBody ∧
        t.view = ((s.view.moveTo d).bindLabel "body" (.span c c')).bindLabel
          "terminator" w := by
  unfold readBody
  rw [← hrest] at hnew ⊢
  rcases reads_eol.took_all closed_plain (plain_id.2 rfl) he hs.toSound with
    ⟨ho, hv, ht⟩ | ⟨d₁, u₁, ho₁, hview₁, hu₁, he⟩
  · rw [ho]
    exact ⟨ht.changes, ht.apart.context silent_plain, hv⟩
  have hcursor₁ : u₁.cursor = d₁ := congrArg View.cursor hview₁
  have hlabel₁ : Labelled head.label u₁ := hs.of_stays hu₁
  have hnew₁ : u₁.memo.outcome? (Sym.heredocBody.id, u₁.cursor) = none := by
    rw [hu₁.apart.outside _ (Sym.not_plain rfl), hcursor₁]
    exact hnew d₁ ho₁
  rw [ho₁, Option.bind_some, ← hcursor₁]
  cases he with
  | all_none h =>
    cases h with
    | label_none h =>
      obtain ⟨_, _, ⟨_, _, hv, _⟩, _⟩ := bodyRule_evaluates hlabel₁ hnew₁ h
      cases hv
  | all_cons h he =>
    cases h with
    | @label_some _ _ _ v₂ u₂ h =>
      obtain ⟨hlabel₂, hchanges, ⟨d₂, hd₂, hv₂, hview₂⟩, hctx₂⟩ :=
        bodyRule_evaluates hlabel₁ hnew₁ h
      cases hv₂
      have hcursor₂ : u₂.cursor = d₂ := congrArg View.cursor hview₂
      have hbound : Labelled head.label
          (u₂.bindLabel "body" (.span u₁.cursor d₂)) :=
        ⟨hlabel₂.toSound.of_eq rfl, hlabel₂.held⟩
      obtain ⟨ht, hres⟩ := closing_eol_evaluates hbound he
      change match Reader.next (closing head.label) newline u₂.cursor.rest with
        | none => v = none
        | some r => _ at hres
      rw [hcursor₂, hd₂] at hres
      refine ⟨?_, ?_, ?_⟩
      · have hbody : Changes plain (fun w => w.1 = Sym.heredocBody.id ∧
            some u₁.cursor.rest = some w.2.rest) u₁
            (u₂.bindLabel "body" (.span u₁.cursor d₂)) :=
          fun id c hid hc => hchanges id c hid fun heq => hc (by
            cases heq
            exact ⟨rfl, rfl⟩)
        exact hu₁.changes.trans (hbody.trans ht.changes)
      · rw [ht.apart.context silent_plain]
        exact hctx₂.trans (hu₁.apart.context silent_plain)
      · dsimp only
        cases ho : Reader.next (closing head.label) newline
            (afterBody head.label u₁.cursor.rest) with
        | none =>
          rw [ho] at hres
          exact hres
        | some r =>
          rw [ho] at hres
          obtain ⟨hv, d, w, hd, hview⟩ := hres
          refine ⟨hv, d, u₁.cursor, d₂, w, hd, rfl, hd₂, ?_⟩
          have hmoved : u₂.view = s.view.moveTo d₂ := by
            rw [hview₂, hview₁]
            rfl
          have hbase : (u₂.bindLabel "body" (.span u₁.cursor d₂)).view
              = (s.view.moveTo d₂).bindLabel "body" (.span u₁.cursor d₂) :=
            congrArg (fun p : View src => p.bindLabel "body" _) hmoved
          rw [hview, hbase]
          rfl

/-- What is bound where a heredoc was read: `u` is the state behind the
introducing line, and `t` the one behind the terminator. -/
theorem HeredocRead.of_views {head : HeredocHead} {h : Heredoc}
    {s u t : State Indenter src} {v : Option (Value (Cursor src))}
    {d d' c c' : Cursor src} {w w' : Value (Cursor src)}
    (hhead : h.toHeredocHead = head) (hv : v ≠ none)
    (hlabels : s.frame.labels = []) (hd : d.rest = head.rest)
    (hu : u.view = if head.opens then (s.view.moveTo d).bindLabel "opener" w
      else s.view.moveTo d)
    (hd' : d'.rest = h.afterAll) (hc : c.rest = h.body)
    (hc' : c'.rest = h.afterBody)
    (ht : t.view = (((u.bindLabel "head" (.span s.cursor u.cursor)).view.moveTo
      d').bindLabel "body" (.span c c')).bindLabel "terminator" w')
    (hheld : t.context.label = some head.label) :
    HeredocRead s v t (some h) := by
  have hbindings : t.frame.labels = ("terminator", w') ::
      ("body", .span c c') :: ("head", .span s.cursor u.cursor) ::
      u.frame.labels :=
    congrArg (fun p : View src => p.frame.labels) ht
  have hstart : t.frame.start = u.frame.start :=
    congrArg (fun p : View src => p.frame.start) ht
  -- The opener is bound only where there is one.
  obtain ⟨hcursor, hstart', hbindings'⟩ : u.cursor = d ∧
      u.frame.start = s.frame.start ∧
      u.frame.labels = if head.opens then [("opener", w)] else [] := by
    have cursor := congrArg View.cursor hu
    have start := congrArg (fun p : View src => p.frame.start) hu
    have labels := congrArg (fun p : View src => p.frame.labels) hu
    cases ho : head.opens with
    | true =>
      rw [ho] at cursor start labels
      exact ⟨cursor, start, labels.trans (congrArg (List.cons _) hlabels)⟩
    | false =>
      rw [ho] at cursor start labels
      exact ⟨cursor, start, labels.trans hlabels⟩
  refine ⟨hv, ?_, hstart.trans hstart', hhead ▸ hheld, ?_, ?_, ?_⟩
  · rw [← hd']
    exact congrArg (fun p : View src => p.cursor.rest) ht
  · simp [Captures.get?, State.captures, hbindings, List.lookup_cons,
      Value.toString, upTo_eq_taken, hcursor, hd, hhead]
  · simp [Captures.get?, State.captures, hbindings, List.lookup_cons,
      Value.toString, upTo_eq_taken, hc, hc']
  · simp only [Captures.get?, State.captures, hbindings, hbindings', hhead,
      List.lookup_cons]
    cases head.opens <;> rfl

/-- The parts of a heredoc in a row. -/
theorem heredocParts_evaluates {s t : State Indenter src}
    {v : Option (Value (Cursor src))} (hs : Sound grammar plain s)
    (hlabels : s.frame.labels = [])
    (hnew : ∀ w, HeredocVisit s.cursor.rest w → s.memo.outcome? w = none)
    (he : Evaluates grammar (.all [.label "head" Line.heredocHead, Sym.eol.ref,
      .label "body" Sym.heredocBody.ref, Literal.closing, Sym.eol.ref]) s v t) :
    Changes plain (HeredocVisit s.cursor.rest) s t ∧
      forget t.context = forget s.context ∧
      HeredocRead s v t (readHeredoc s.cursor.rest) := by
  have hnewLabel : ∀ w, LabelVisit s.cursor.rest w → s.memo.outcome? w = none :=
    fun w hw => hnew w (.inl hw)
  unfold readHeredoc
  cases he with
  | all_none h =>
    cases h with
    | label_none h =>
      cases h with
      | sequence_none h =>
        obtain ⟨hchanges, hforget, hread⟩ := head_evaluates hs hnewLabel h
        cases ho : readHead s.cursor.rest with
        | none => exact ⟨hchanges.mono fun _ => .inl, hforget, rfl⟩
        | some head =>
          rw [ho] at hread
          exact absurd rfl hread.1
  | all_cons h he =>
    cases h with
    | @label_some _ _ _ _ u₁ h =>
      cases h with
      | sequence_some h =>
        obtain ⟨hchanges₁, hforget₁, hread⟩ := head_evaluates hs hnewLabel h
        have hsound₁ := hs.of_evaluates h trivial
        cases ho : readHead s.cursor.rest with
        | none =>
          rw [ho] at hread
          cases hread
        | some head =>
          rw [ho] at hread
          obtain ⟨_, hheld, d₁, w₁, hd₁, hview₁⟩ := hread
          have hcursor₁ : u₁.cursor = d₁ := by
            have := congrArg View.cursor hview₁
            split at this <;> exact this
          have hbound : Labelled head.label
              (u₁.bindLabel "head" (.span s.cursor u₁.cursor)) :=
            ⟨hsound₁.of_eq rfl, hheld⟩
          have visit : ∀ {w : Visit (Cursor src)}, w.1 = Sym.heredocBody.id →
              newline head.rest = some w.2.rest → BodyVisit s.cursor.rest w := by
            intro w hid hw
            exact ⟨hid, by rw [ho]; exact hw⟩
          have hnewBody : ∀ c, newline head.rest = some c.rest →
              u₁.memo.outcome? (Sym.heredocBody.id, c) = none := by
            intro c hc
            rw [hchanges₁ _ c (Sym.not_plain rfl) fun hw => by cases hw.1]
            exact hnew _ (.inr (visit rfl hc))
          obtain ⟨hchanges, hctx, hread⟩ := bodyParts_evaluates hbound
            ((congrArg Cursor.rest hcursor₁).trans hd₁) hnewBody he
          refine ⟨?_, ?_, ?_⟩
          · intro id c hid hc
            have h₁ := hchanges₁ id c hid fun hw => hc (.inl hw)
            have h₂ := hchanges id c hid fun hw => hc (.inr (visit hw.1 hw.2))
            exact h₂.trans h₁
          · rw [hctx]
            exact hforget₁
          · rw [Option.bind_some]
            cases hb : readBody head with
            | none =>
              rw [hb] at hread
              exact hread
            | some h =>
              rw [hb] at hread
              obtain ⟨hv, d, c, c', w, hd, hc, hc', hview⟩ := hread
              refine .of_views (toHeredocHead_of_readBody hb) hv hlabels hd₁
                hview₁ hd hc hc' hview ?_
              rw [hctx]
              exact hheld

/-- A heredoc is read by the grammar as it is read here, where neither its
label nor its body was met before. -/
theorem heredocIntro_evaluates {s t : State Indenter src}
    {v : Option (Value (Cursor src))} (hs : Sound grammar plain s)
    (hlabels : s.frame.labels = [])
    (hnew : ∀ w, HeredocVisit s.cursor.rest w → s.memo.outcome? w = none)
    (he : Evaluates grammar (.expr (Line.body .heredocIntro)) s v t) :
    Changes plain (HeredocVisit s.cursor.rest) s t ∧
      forget t.context = forget s.context ∧
      HeredocRead s v t (readHeredoc s.cursor.rest) := by
  cases he with
  | sequence_some h =>
    obtain ⟨hchanges, hforget, hread⟩ := heredocParts_evaluates hs hlabels hnew h
    refine ⟨hchanges, hforget, ?_⟩
    cases ho : readHeredoc s.cursor.rest with
    | none =>
      rw [ho] at hread
      cases hread
    | some h =>
      rw [ho] at hread
      exact ⟨Option.some_ne_none _, hread.2⟩
  | sequence_none h =>
    obtain ⟨hchanges, hforget, hread⟩ := heredocParts_evaluates hs hlabels hnew h
    refine ⟨hchanges, hforget, ?_⟩
    cases ho : readHeredoc s.cursor.rest with
    | none => rfl
    | some h =>
      rw [ho] at hread
      exact absurd rfl hread.1

end RubyIndent.Ruby
