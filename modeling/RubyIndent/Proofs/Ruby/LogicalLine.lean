import RubyIndent.Proofs.Ruby.Extent

/-!
# Logical lines

A logical line is what one application of the line rule takes: a physical line
together with what the literals and heredocs on it take from the lines below.
`readLine` reads one off the front of a text, trying the shapes in order, and
`LogicalLine.emit` writes it. `allShapes_evaluate` says that the grammar does
the same, where the table holds nothing about the shapes at that place.
-/

namespace RubyIndent.Ruby

open RubyIndent.Peg RubyIndent.Text RubyIndent.Pattern

/-- A line of some shape with its newline, or the parts of a heredoc. -/
inductive LogicalLine where
  | whole (shape : LineShape) (text : List Char)
  | heredoc (head body : List Char) (label : String) (opens : Bool)
  deriving DecidableEq, Repr

def emitAs : LineShape → String → Indenter → String × Indenter
  | .indentOpen | .bracketOpen | .blockOpener | .bracketTail => Indenter.emitOpen
  | .outdent | .bracketClose => Indenter.emitClose
  | .dual => Indenter.emitDual
  | .bracketSameLine | .heredocIntro | .plain => Indenter.emitSame

namespace LogicalLine

def shape : LogicalLine → LineShape
  | whole shape _ => shape
  | heredoc _ _ _ _ => .heredocIntro

def emit : LogicalLine → Indenter → String × Indenter
  | whole shape text, i => emitAs shape (String.ofList text) i
  | heredoc head body label opens, i =>
    let r := i.emitHeredoc (String.ofList head) (String.ofList body) label
    (r.1, if opens then r.2.openLevel else r.2)

end LogicalLine

def readAs (shape : LineShape) (s : List Char) :
    Option (LogicalLine × List Char) :=
  match shape with
  | .heredocIntro => (readHeredoc s).map fun h =>
    (.heredoc (taken s h.rest) (taken h.body h.afterBody) h.label h.opens,
      h.afterAll)
  | shape => (lineOf shape s).map fun t => (.whole shape (taken s t), t)

/-- Reads a line of the first shape that fits. -/
def readLine (s : List Char) : Option (LogicalLine × List Char) :=
  LineShape.all.findSome? fun shape => readAs shape s

theorem readAs_of_ne {shape : LineShape} (h : shape ≠ .heredocIntro)
    (s : List Char) :
    readAs shape s
      = (lineOf shape s).map fun t => (.whole shape (taken s t), t) := by
  cases shape
  case heredocIntro => exact absurd rfl h
  all_goals rfl

theorem shortens_readAs {shape : LineShape} {s t : List Char} {l : LogicalLine}
    (h : readAs shape s = some (l, t)) : t.length < s.length := by
  by_cases hs : shape = .heredocIntro
  · subst hs
    obtain ⟨hd, hread, heq⟩ := Option.map_eq_some_iff.1 h
    cases heq
    obtain ⟨head, hhead, hbody⟩ := Option.bind_eq_some_iff.1 hread
    obtain ⟨r, hr, hsuffix⟩ := suffix_of_readHead hhead
    have hr := (Takes.suffix cuts_beforeLabel hr).length_le
    have hlt := length_lt_of_readBody hbody
    have hle := hsuffix.length_le
    rw [(readBody_eq_some hbody).2.1, List.length_cons] at hle
    omega
  · rw [readAs_of_ne hs] at h
    obtain ⟨u, hu, heq⟩ := Option.map_eq_some_iff.1 h
    cases heq
    obtain ⟨f, hf, heq⟩ := lineOf_eq_next shape
    rw [heq] at hu
    exact Shortens.after hf shortens_newline s t hu

/-! ## Writing and the label

What is written does not depend on the label that is remembered. -/

theorem forget_emitAs (shape : LineShape) (text : String) (i : Indenter) :
    (emitAs shape text i).1 = (emitAs shape text (forget i)).1 ∧
      forget (emitAs shape text i).2 = (emitAs shape text (forget i)).2 := by
  cases shape <;> exact ⟨rfl, rfl⟩

theorem action_eq_emitAs {shape : LineShape} (h : shape ≠ .heredocIntro)
    (caps : Captures) (i : Indenter) :
    Line.action shape caps i = emitAs shape caps.text i := by
  cases shape
  case heredocIntro => exact absurd rfl h
  all_goals rfl

/-- The action of a heredoc writes its parts. -/
theorem emitHeredoc_eq {caps : Captures} {i : Indenter} {head body : List Char}
    {label : String} {opens : Bool}
    (hhead : caps.get? "head" = some (String.ofList head))
    (hbody : caps.get? "body" = some (String.ofList body))
    (hopens : (caps.get? "opener").isSome = opens)
    (hlabel : i.label = some label) :
    Line.emitHeredoc caps i
      = (LogicalLine.heredoc head body label opens).emit (forget i) := by
  have hrun : Line.emitHeredoc caps i
      = let r := (forget i).emitHeredoc ((caps.get? "head").getD "")
          ((caps.get? "body").getD "") (i.label.getD "")
        (r.1, if (caps.get? "opener").isSome then r.2.openLevel else r.2) := by
    unfold Line.emitHeredoc
    cases (caps.get? "opener").isSome <;> rfl
  rw [hrun, hhead, hbody, hlabel, hopens]
  rfl

/-! ## One shape -/

variable {src : List Char}

/-- According to the table, a line of some shape goes from a place up to the
cursor. -/
def MatchedAs (shape : LineShape) (c : Cursor src) (t : State Indenter src) :
    Prop :=
  ∃ w, t.memo.outcome? ((Sym.shape shape).id, c) = some (.success t.cursor w)

/-- The table knows of no line of some shape at a place. -/
def UnmatchedAs (shape : LineShape) (c : Cursor src) (t : State Indenter src) :
    Prop :=
  ∀ d w, t.memo.outcome? ((Sym.shape shape).id, c) ≠ some (.success d w)

theorem UnmatchedAs.of_changes {shape : LineShape} {c : Cursor src}
    {V : Visit (Cursor src) → Prop} {s t : State Indenter src}
    (h : UnmatchedAs shape c s) (hchanges : Changes plain V s t)
    (hv : ¬ V ((Sym.shape shape).id, c)) : UnmatchedAs shape c t := by
  intro d w
  rw [hchanges _ _ (Sym.not_plain rfl) hv]
  exact h d w

/-- Visits tell their symbols. -/
theorem eq_of_visit_eq {a b : Sym} {c d : Cursor src}
    (h : (a.id, c) = (b.id, d)) : a = b ∧ c = d :=
  ⟨Sym.id_injective (Prod.mk.inj h).1, (Prod.mk.inj h).2⟩

/-- What is known of a state after a line was looked for from `s` on. -/
def LineRead (s : State Indenter src) (v : Option (Value (Cursor src)))
    (t : State Indenter src) : Option (LogicalLine × List Char) → Prop
  | none => v = none ∧ t.view = s.view ∧ forget t.context = forget s.context
  | some (l, r) => v = some (.text (l.emit (forget s.context)).1) ∧
    t.cursor.rest = r ∧ forget t.context = (l.emit (forget s.context)).2 ∧
    MatchedAs l.shape s.cursor t

/-- A rule that was just applied has its entry. -/
theorem MatchedAs.of_setOutcome {shape : LineShape} {c : Cursor src}
    {t u : State Indenter src} {w : Value (Cursor src)} {p : View src}
    (hview : t.view = p.moveTo u.cursor)
    (hmemo : t.memo = u.memo.setOutcome ((Sym.shape shape).id, c)
      (.success u.cursor w)) : MatchedAs shape c t := by
  have hcursor : t.cursor = u.cursor := congrArg View.cursor hview
  exact ⟨w, by rw [hmemo, hcursor, Memo.outcome?_setOutcome_self]⟩

/-- A shape other than a heredoc is looked for. -/
theorem shape_evaluates {shape : LineShape} (hne : shape ≠ .heredocIntro)
    {s t : State Indenter src} {v : Option (Value (Cursor src))}
    (hs : Sound grammar plain s)
    (hnew : s.memo.outcome? ((Sym.shape shape).id, s.cursor) = none)
    (he : Evaluates grammar (.expr (Sym.shape shape).ref) s v t) :
    Sound grammar plain t ∧
      Changes plain (· = ((Sym.shape shape).id, s.cursor)) s t ∧
      LineRead s v t (readAs shape s.cursor.rest) := by
  refine ⟨hs.of_evaluates he trivial, ?_⟩
  rw [readAs_of_ne hne]
  have hid : ¬ plain (Sym.shape shape).id := Sym.not_plain rfl
  have hstart : Sound grammar plain (s.entered (Sym.shape shape).id).opened :=
    (hs.entered hid).of_eq rfl
  have entry : ∀ {u : State Indenter src} {o},
      Stays grammar plain (s.entered (Sym.shape shape).id).opened u →
      t.memo = u.memo.setOutcome ((Sym.shape shape).id, s.cursor) o →
      Changes plain (· = ((Sym.shape shape).id, s.cursor)) s t := by
    intro u o hu ht
    have h := Changes.apply_new (hu.changes (V := fun _ => False)) ht
    exact h.mono fun v hv => hv.resolve_left id
  have body : ∀ {w : Option (Value (Cursor src))} {u : State Indenter src},
      Evaluates grammar (.expr (Sym.shape shape).rule.body)
        (s.entered (Sym.shape shape).id).opened w u →
      Took (s.entered (Sym.shape shape).id).opened w u
        (lineOf shape s.cursor.rest) ∧
      Stays grammar plain (s.entered (Sym.shape shape).id).opened u ∧
      u.context = s.context := by
    intro w u h
    obtain ⟨htook, hu⟩ := (reads_body shape hne).took closed_plain
      (body_within shape hne) h hstart
    exact ⟨htook, hu, hu.apart.context silent_plain⟩
  cases he with
  | rule he =>
    rcases he.apply_new hnew (grammar_rule? _) closed_plain
        (body_within shape hne) hid with
      ⟨u, h, rfl, hview, hctx, hmemo⟩ | ⟨w, u, h, rfl, hview, hctx, hmemo⟩
    · obtain ⟨htook, hu, hsame⟩ := body h
      refine ⟨entry hu hmemo, ?_⟩
      cases ho : lineOf shape s.cursor.rest with
      | none => exact ⟨rfl, hview, by rw [hctx, hsame]⟩
      | some r =>
        rw [ho] at htook
        obtain ⟨_, _, hv, _⟩ := htook
        cases hv
    · obtain ⟨htook, hu, hsame⟩ := body h
      refine ⟨entry hu hmemo, ?_⟩
      cases ho : lineOf shape s.cursor.rest with
      | none =>
        rw [ho] at htook
        cases htook
      | some r =>
        rw [ho] at htook
        obtain ⟨d, rfl, _, huview⟩ := htook
        have hcursor : u.cursor = d := congrArg View.cursor huview
        have htext : u.captures.text
            = String.ofList (taken s.cursor.rest d.rest) := by
          rw [← upTo_eq_taken]
          exact congrArg (fun p : View src => p.captures.text) huview
        have hmade : Line.action shape u.captures u.context = emitAs shape
            (String.ofList (taken s.cursor.rest d.rest)) s.context := by
          rw [action_eq_emitAs hne, htext, hsame]
        have hconclude : (Sym.shape shape).rule.conclude w u
            = (Line.action shape u.captures u.context).map .text id := rfl
        rw [hconclude, hmade] at hctx ⊢
        obtain ⟨hwritten, hforget⟩ := forget_emitAs shape
          (String.ofList (taken s.cursor.rest d.rest)) s.context
        refine ⟨congrArg (some ∘ Value.text) hwritten, ?_, ?_,
          .of_setOutcome hview hmemo⟩
        · rw [← hcursor]
          exact congrArg (fun p : View src => p.cursor.rest) hview
        · rw [hctx]
          exact hforget

def heredocRules (id : RuleId) : Prop :=
  plain id ∨ id = Sym.heredocLabel.id ∨ id = Sym.heredocBody.id

theorem closed_heredocRules : grammar.Closed heredocRules := by
  intro id rule hid hr
  rcases hid with hid | rfl | rfl
  · exact (closed_plain id rule hid hr).mono fun _ => .inl
  · cases (grammar_rule? .heredocLabel).symm.trans hr
    exact trivial
  · cases (grammar_rule? .heredocBody).symm.trans hr
    exact ⟨⟨.inl (plain_id.2 rfl), trivial, trivial⟩, .inl (plain_id.2 rfl),
      trivial⟩

theorem heredocIntro_within :
    (Line.body .heredocIntro).Within heredocRules := by
  have h : ∀ {s : Sym}, s.isPlain = true → heredocRules s.id :=
    fun hs => .inl (plain_id.2 hs)
  exact ⟨⟨h rfl, h rfl, .inr (.inl rfl), h rfl, h rfl, trivial⟩, h rfl,
    .inr (.inr rfl), ⟨h rfl, trivial, trivial⟩, h rfl, trivial⟩

theorem Sym.shape_not_heredocRules (shape : LineShape) :
    ¬ heredocRules (Sym.shape shape).id := by
  rintro (h | h | h)
  · exact Sym.not_plain rfl h
  · cases Sym.id_injective h
  · cases Sym.id_injective h

/-- A heredoc is looked for. -/
theorem heredocShape_evaluates {s t : State Indenter src}
    {v : Option (Value (Cursor src))} (hs : Sound grammar plain s)
    (hnew : s.memo.outcome? ((Sym.shape .heredocIntro).id, s.cursor) = none)
    (hunread : ∀ w, HeredocVisit s.cursor.rest w → s.memo.outcome? w = none)
    (he : Evaluates grammar (.expr (Sym.shape .heredocIntro).ref) s v t) :
    Sound grammar plain t ∧
      Changes plain (fun w => HeredocVisit s.cursor.rest w ∨
        w = ((Sym.shape .heredocIntro).id, s.cursor)) s t ∧
      LineRead s v t (readAs .heredocIntro s.cursor.rest) ∧
      (v = none → UnmatchedAs .heredocIntro s.cursor t) := by
  refine ⟨hs.of_evaluates he trivial, ?_⟩
  have hid : ¬ plain (Sym.shape .heredocIntro).id := Sym.not_plain rfl
  have hstart : Sound grammar plain
      (s.entered (Sym.shape .heredocIntro).id).opened :=
    (hs.entered hid).of_eq rfl
  have hfree : ∀ w, HeredocVisit s.cursor.rest w →
      (s.entered (Sym.shape .heredocIntro).id).opened.memo.outcome? w = none := by
    intro w hw
    have hne : ((Sym.shape .heredocIntro).id, s.cursor) ≠ w := by
      rintro rfl
      rcases hw with hw | hw
      · cases Sym.id_injective (s := .shape .heredocIntro) hw.1
      · cases Sym.id_injective (s := .shape .heredocIntro) hw.1
    exact (Memo.outcome?_enter_ne s.memo hne).trans (hunread w hw)
  unfold readAs
  cases he with
  | rule he =>
    rcases he.apply_new hnew (grammar_rule? _) closed_heredocRules
        heredocIntro_within (Sym.shape_not_heredocRules _) with
      ⟨u, h, rfl, hview, hctx, hmemo⟩ | ⟨w, u, h, rfl, hview, hctx, hmemo⟩
    · obtain ⟨hchanges, hforget, hread⟩ :=
        heredocIntro_evaluates hstart rfl hfree h
      refine ⟨Changes.apply_new hchanges hmemo, ?_⟩
      change HeredocRead _ _ _ (readHeredoc s.cursor.rest) at hread
      constructor
      · cases ho : readHeredoc s.cursor.rest with
        | none => exact ⟨rfl, hview, by rw [hctx]; exact hforget⟩
        | some h =>
          rw [ho] at hread
          exact absurd rfl hread.1
      · intro _ d w hw
        rw [hmemo, Memo.outcome?_setOutcome_self] at hw
        cases hw
    · obtain ⟨hchanges, hforget, hread⟩ :=
        heredocIntro_evaluates hstart rfl hfree h
      refine ⟨Changes.apply_new hchanges hmemo, ?_, nofun⟩
      change HeredocRead _ _ _ (readHeredoc s.cursor.rest) at hread
      cases ho : readHeredoc s.cursor.rest with
      | none =>
        rw [ho] at hread
        cases hread
      | some h =>
        rw [ho] at hread
        obtain ⟨_, hrest, _, hlabel, hhead, hbody, hopens⟩ := hread
        have hmade := emitHeredoc_eq hhead hbody hopens hlabel
        have hconclude : (Sym.shape .heredocIntro).rule.conclude w u
            = (Line.emitHeredoc u.captures u.context).map .text id := rfl
        rw [hconclude, hmade, hforget] at hctx ⊢
        refine ⟨rfl, ?_, ?_, .of_setOutcome hview hmemo⟩
        · rw [← hrest]
          exact congrArg (fun p : View src => p.cursor.rest) hview
        · rw [hctx]
          cases h.opens <;> rfl

/-! ## Shapes in order -/

/-- Only the view and what is written so far count. -/
theorem LineRead.of_eq {s s' t : State Indenter src}
    {v : Option (Value (Cursor src))} {o : Option (LogicalLine × List Char)}
    (h : LineRead s v t o) (hview : s.view = s'.view)
    (hctx : forget s.context = forget s'.context) : LineRead s' v t o := by
  cases o with
  | none => exact ⟨h.1, h.2.1.trans hview, h.2.2.trans hctx⟩
  | some p =>
    obtain ⟨hv, hrest, hc, hmatched⟩ := h
    have hcursor : s.cursor = s'.cursor := congrArg View.cursor hview
    exact ⟨by rw [hv, hctx], hrest, by rw [hc, hctx], hcursor ▸ hmatched⟩

def ShapeVisit (shapes : List LineShape) (c : Cursor src)
    (w : Visit (Cursor src)) : Prop :=
  ∃ shape ∈ shapes, w = ((Sym.shape shape).id, c)

/-- Shapes other than heredocs are looked for in order: one of them is found,
or the search goes on behind them from the same place. -/
theorem shapes_evaluate {shapes : List LineShape} {es : List (Expr Indenter)}
    (hne : LineShape.heredocIntro ∉ shapes) (hnodup : shapes.Nodup)
    {s t : State Indenter src} {v : Option (Value (Cursor src))}
    (hs : Sound grammar plain s)
    (hnew : ∀ w, ShapeVisit shapes s.cursor w → s.memo.outcome? w = none)
    (he : Evaluates grammar
      (.first (shapes.map (fun shape => (Sym.shape shape).ref) ++ es)) s v t) :
    (∃ p, shapes.findSome? (readAs · s.cursor.rest) = some p ∧
        LineRead s v t (some p) ∧
        Changes plain (ShapeVisit shapes s.cursor) s t) ∨
      shapes.findSome? (readAs · s.cursor.rest) = none ∧
        ∃ u, u.view = s.view ∧ forget u.context = forget s.context ∧
          Sound grammar plain u ∧
          Changes plain (ShapeVisit shapes s.cursor) s u ∧
          Evaluates grammar (.first es) u v t := by
  induction shapes generalizing s with
  | nil => exact .inr ⟨rfl, s, rfl, rfl, hs, fun _ _ _ _ => rfl, he⟩
  | cons shape shapes ih =>
    have hshape : shape ≠ .heredocIntro := fun h => hne (h ▸ List.mem_cons_self)
    have hfirst := hnew _ ⟨shape, List.mem_cons_self, rfl⟩
    have visit : ∀ w, w = ((Sym.shape shape).id, s.cursor) →
        ShapeVisit (shape :: shapes) s.cursor w :=
      fun w hw => ⟨shape, List.mem_cons_self, hw⟩
    rw [List.findSome?_cons]
    cases he with
    | first_some h =>
      obtain ⟨_, hchanges, hread⟩ := shape_evaluates hshape hs hfirst h
      cases ho : readAs shape s.cursor.rest with
      | none =>
        rw [ho] at hread
        cases hread.1
      | some p =>
        rw [ho] at hread
        exact .inl ⟨p, rfl, hread, hchanges.mono visit⟩
    | @first_none _ _ _ u _ _ h hrest =>
      obtain ⟨hsound, hchanges, hread⟩ := shape_evaluates hshape hs hfirst h
      cases ho : readAs shape s.cursor.rest with
      | some p =>
        rw [ho] at hread
        cases hread.1
      | none =>
        rw [ho] at hread
        -- A shape that does not match leaves an entry for itself only.
        have hnew' : ∀ w, ShapeVisit shapes s.cursor w →
            (u.rewind s).memo.outcome? w = none := by
          rintro w ⟨shape', hmem, rfl⟩
          have hne' : shape' ≠ shape := by
            rintro rfl
            exact (List.nodup_cons.1 hnodup).1 hmem
          refine (hchanges _ _ (Sym.not_plain rfl) fun heq => ?_).trans
            (hnew _ ⟨shape', List.mem_cons_of_mem _ hmem, rfl⟩)
          cases (eq_of_visit_eq (a := .shape shape') (b := .shape shape) heq).1
          exact hne' rfl
        have hstep : Changes plain (ShapeVisit (shape :: shapes) s.cursor) s
            (u.rewind s) := hchanges.mono visit
        have later : ∀ w, ShapeVisit shapes s.cursor w →
            ShapeVisit (shape :: shapes) s.cursor w :=
          fun w ⟨shape', hmem, hw⟩ => ⟨shape', List.mem_cons_of_mem _ hmem, hw⟩
        rcases ih (s := u.rewind s) (fun h => hne (List.mem_cons_of_mem _ h))
            (List.nodup_cons.1 hnodup).2 (hsound.of_eq rfl) hnew' hrest with
          ⟨p, hp, hline, hch⟩ | ⟨hp, u', hview, hctx, hsound', hch, he⟩
        · exact .inl ⟨p, hp, hline.of_eq rfl hread.2.2,
            hstep.trans (hch.mono later)⟩
        · exact .inr ⟨hp, u', hview, hctx.trans hread.2.2, hsound',
            hstep.trans (hch.mono later), he⟩

def leadingShapes : List LineShape :=
  [.indentOpen, .outdent, .dual, .bracketSameLine, .bracketOpen, .bracketClose,
    .blockOpener, .bracketTail]

theorem readLine_eq (s : List Char) : readLine s =
    (leadingShapes.findSome? (readAs · s)).or
      ((readAs .heredocIntro s).or (readAs .plain s)) := by
  have hall : LineShape.all = leadingShapes ++ [.heredocIntro, .plain] := rfl
  rw [readLine, hall, List.findSome?_append]
  congr 1
  cases h : readAs .heredocIntro s with
  | some p => simp [h]
  | none => cases h' : readAs .plain s <;> simp [h, h']

/-- The visits that looking for a line makes: the shapes at the place where the
line starts, and the parts of a heredoc before the end of the line. -/
def LineVisit (c : Cursor src) (r : List Char) (w : Visit (Cursor src)) : Prop :=
  ShapeVisit LineShape.all c w ∨
    w.1 = Sym.heredocLabel.id ∧ r.length < w.2.rest.length ∨
    w.1 = Sym.heredocBody.id ∧ r.length ≤ w.2.rest.length

theorem LineVisit.shape {shape : LineShape} {c : Cursor src} {r : List Char}
    {w : Visit (Cursor src)} (h : w = ((Sym.shape shape).id, c)) :
    LineVisit c r w :=
  .inl ⟨shape, shape.mem_all, h⟩

theorem ShapeVisit.line {shapes : List LineShape} {c : Cursor src}
    {r : List Char} {w : Visit (Cursor src)} (h : ShapeVisit shapes c w) :
    LineVisit c r w := by
  obtain ⟨shape, _, hw⟩ := h
  exact .shape hw

/-- A heredoc that was read lies before its end. -/
theorem HeredocVisit.line_of_read {c : Cursor src} {h : Heredoc}
    {w : Visit (Cursor src)} (hread : readHeredoc c.rest = some h)
    (hw : HeredocVisit c.rest w) : LineVisit c h.afterAll w := by
  obtain ⟨head, hhead, hbody⟩ := Option.bind_eq_some_iff.1 hread
  obtain ⟨t, ht, hsuffix⟩ := suffix_of_readHead hhead
  have hlt := length_lt_of_readBody hbody
  have hrest := (readBody_eq_some hbody).2.1
  rcases hw with ⟨hid, hw⟩ | ⟨hid, hw⟩
  · refine .inr (.inl ⟨hid, ?_⟩)
    cases ht.symm.trans hw
    have hle := hsuffix.length_le
    rw [hrest, List.length_cons] at hle
    omega
  · refine .inr (.inr ⟨hid, ?_⟩)
    rw [hhead, Option.bind_some, hrest] at hw
    have hbody : h.body = w.2.rest := Option.some.inj hw
    rw [← hbody]
    exact Nat.le_of_lt hlt

/-- A heredoc that was looked for in vain lies before the end of the plain line
that was found instead. -/
theorem HeredocVisit.line_of_plain {c : Cursor src} {e : List Char}
    {w : Visit (Cursor src)} (hend : Reader.next upToEnd newline c.rest = some e)
    (hw : HeredocVisit c.rest w) : LineVisit c e w := by
  rcases hw with ⟨hid, hw⟩ | ⟨hid, hw⟩
  · exact .inr (.inl ⟨hid, length_lt_beforeLabel hw hend⟩)
  · obtain ⟨head, hhead, hbody⟩ := Option.bind_eq_some_iff.1 hw
    exact .inr (.inr ⟨hid, length_le_body hhead hbody hend⟩)

theorem HeredocVisit.not_plain {s : List Char} {w : Visit (Cursor src)}
    (hw : HeredocVisit s w) : ¬ plain w.1 := by
  rcases hw with ⟨hid, _⟩ | ⟨hid, _⟩
  · rw [hid]
    exact Sym.not_plain rfl
  · rw [hid]
    exact Sym.not_plain rfl

theorem HeredocVisit.not_shape {s : List Char} {w : Visit (Cursor src)}
    (hw : HeredocVisit s w) (shape : LineShape) :
    w.1 ≠ (Sym.shape shape).id := by
  intro heq
  rcases hw with ⟨hid, _⟩ | ⟨hid, _⟩
  · cases Sym.id_injective (heq.symm.trans hid)
  · cases Sym.id_injective (heq.symm.trans hid)

/-- Behind the leading shapes, a heredoc is looked for and then a plain line. -/
theorem lastShapes_evaluate {s t : State Indenter src}
    {v : Option (Value (Cursor src))} (hs : Sound grammar plain s)
    (hnew : ∀ w, ShapeVisit [.heredocIntro, .plain] s.cursor w →
      s.memo.outcome? w = none)
    (hunread : ∀ w, HeredocVisit s.cursor.rest w → s.memo.outcome? w = none)
    (he : Evaluates grammar (.first [(Sym.shape .heredocIntro).ref,
      (Sym.shape .plain).ref]) s v t) :
    match (readAs .heredocIntro s.cursor.rest).or (readAs .plain s.cursor.rest)
    with
    | none => v = none
    | some p => LineRead s v t (some p) ∧
      Changes plain (LineVisit s.cursor p.2) s t ∧
      (p.1.shape = .heredocIntro ∨ UnmatchedAs .heredocIntro s.cursor t) := by
  have hnewHeredoc := hnew _ ⟨.heredocIntro, by decide, rfl⟩
  cases he with
  | first_some h =>
    obtain ⟨_, hchanges, hread, _⟩ :=
      heredocShape_evaluates hs hnewHeredoc hunread h
    cases ho : readAs .heredocIntro s.cursor.rest with
    | none =>
      rw [ho] at hread
      cases hread.1
    | some p =>
      rw [ho] at hread
      obtain ⟨h, hh, rfl⟩ := Option.map_eq_some_iff.1 ho
      refine ⟨hread, hchanges.mono fun w hw => ?_, .inl rfl⟩
      rcases hw with hw | hw
      · exact hw.line_of_read hh
      · exact .shape hw
  | @first_none _ _ _ u _ _ h hrest =>
    obtain ⟨hsound, hchanges, hread, hvain⟩ :=
      heredocShape_evaluates hs hnewHeredoc hunread h
    cases ho : readAs .heredocIntro s.cursor.rest with
    | some p =>
      rw [ho] at hread
      cases hread.1
    | none =>
      rw [ho] at hread
      -- Parts of a heredoc may have been entered in vain, but no other shape.
      have hnewPlain : (u.rewind s).memo.outcome?
          ((Sym.shape .plain).id, s.cursor) = none := by
        refine (hchanges _ _ (Sym.not_plain rfl) ?_).trans
          (hnew _ ⟨.plain, by decide, rfl⟩)
        rintro (hw | hw)
        · exact hw.not_shape .plain rfl
        · cases (eq_of_visit_eq (a := .shape .plain)
            (b := .shape .heredocIntro) hw).1
      have hplain : LineShape.plain ≠ .heredocIntro := by decide
      have hsound' : Sound grammar plain (u.rewind s) := hsound.of_eq rfl
      rw [Option.none_or]
      cases hrest with
      | first_some h =>
        obtain ⟨_, hchanges', hread'⟩ :=
          shape_evaluates hplain hsound' hnewPlain h
        change LineRead _ _ _ (readAs .plain s.cursor.rest) at hread'
        cases hp : readAs .plain s.cursor.rest with
        | none =>
          rw [hp] at hread'
          cases hread'.1
        | some p =>
          rw [hp] at hread'
          have hunmatched : UnmatchedAs .heredocIntro s.cursor t := by
            have hu : UnmatchedAs .heredocIntro s.cursor (u.rewind s) :=
              hvain rfl
            refine hu.of_changes hchanges' fun heq => ?_
            cases (eq_of_visit_eq (a := .shape .heredocIntro)
              (b := .shape .plain) heq).1
          refine ⟨hread'.of_eq rfl hread.2.2, ?_, .inr hunmatched⟩
          obtain ⟨e, hend, rfl⟩ := Option.map_eq_some_iff.1 hp
          have hfirst : Changes plain (LineVisit s.cursor e) s (u.rewind s) := by
            refine Changes.mono (t := u) hchanges fun w hw => ?_
            rcases hw with hw | hw
            · exact hw.line_of_plain hend
            · exact .shape hw
          exact hfirst.trans (hchanges'.mono fun _ => .shape)
      | first_none h hrest =>
        cases hrest
        obtain ⟨_, _, hread'⟩ := shape_evaluates hplain hsound' hnewPlain h
        change LineRead _ _ _ (readAs .plain s.cursor.rest) at hread'
        cases hp : readAs .plain s.cursor.rest with
        | none => rfl
        | some p =>
          rw [hp] at hread'
          cases hread'.1

/-- All shapes are looked for in order. -/
theorem allShapes_evaluate {s t : State Indenter src}
    {v : Option (Value (Cursor src))} (hs : Sound grammar plain s)
    (hnew : ∀ w, ShapeVisit LineShape.all s.cursor w → s.memo.outcome? w = none)
    (hunread : ∀ w, HeredocVisit s.cursor.rest w → s.memo.outcome? w = none)
    (he : Evaluates grammar
      (.first (LineShape.all.map fun shape => (Sym.shape shape).ref)) s v t) :
    match readLine s.cursor.rest with
    | none => v = none
    | some p => LineRead s v t (some p) ∧
      Changes plain (LineVisit s.cursor p.2) s t ∧
      (p.1.shape = .heredocIntro ∨ UnmatchedAs .heredocIntro s.cursor t) := by
  rw [readLine_eq]
  have of_all : ∀ {shapes w}, ShapeVisit shapes s.cursor w →
      s.memo.outcome? w = none :=
    fun ⟨shape, _, hw⟩ => hnew _ ⟨shape, shape.mem_all, hw⟩
  have hne : .heredocIntro ∉ leadingShapes := by decide
  rcases shapes_evaluate hne (by decide) hs (fun _ => of_all) he with
    ⟨p, hp, hread, hchanges⟩ | ⟨hp, u, hview, hctx, hsound, hchanges, he⟩
  · rw [hp]
    have hunmatched : UnmatchedAs .heredocIntro s.cursor s := by
      intro d w hw
      cases (hnew _ ⟨.heredocIntro, by decide, rfl⟩).symm.trans hw
    refine ⟨hread, hchanges.mono fun _ => ShapeVisit.line,
      .inr (hunmatched.of_changes hchanges ?_)⟩
    rintro ⟨shape, hmem, heq⟩
    cases (eq_of_visit_eq (a := .shape .heredocIntro) (b := .shape shape) heq).1
    exact hne hmem
  rw [hp, Option.none_or]
  have hcursor : u.cursor = s.cursor := congrArg View.cursor hview
  have hlast := lastShapes_evaluate hsound ?_ ?_ he
  · rw [hcursor] at hlast
    split at hlast
    · exact hlast
    · refine ⟨hlast.1.of_eq hview hctx, ?_, hlast.2.2⟩
      exact (hchanges.mono fun _ => ShapeVisit.line).trans hlast.2.1
  · rw [hcursor]
    rintro w ⟨shape, hmem, rfl⟩
    refine (hchanges _ _ (Sym.not_plain rfl) ?_).trans (of_all ⟨shape, hmem, rfl⟩)
    rintro ⟨shape', hmem', heq⟩
    cases (eq_of_visit_eq (a := .shape shape) (b := .shape shape') heq).1
    revert hmem hmem'
    cases shape <;> decide
  · rw [hcursor]
    intro w hw
    refine (hchanges _ _ hw.not_plain ?_).trans (hunread w hw)
    rintro ⟨shape, _, heq⟩
    exact hw.not_shape shape (congrArg Prod.fst heq)

end RubyIndent.Ruby
