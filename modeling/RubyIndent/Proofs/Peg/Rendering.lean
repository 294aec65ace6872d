import Mathlib.Algebra.GroupWithZero.Nat
import Mathlib.Algebra.Order.BigOperators.Group.List
import Mathlib.Algebra.Order.Group.Nat
import Mathlib.Data.List.Nodup
import RubyIndent.Peg.Printer
import RubyIndent.Proofs.Peg.Growing
import RubyIndent.Proofs.Text.Replacing
import RubyIndent.Proofs.Text.Words

/-!
# What the rendered rule shows

A rule is shown by replacing markers in the text of its body, so whatever looks like
the marker of a rule counts as a reference to it. No marker reaches over the
punctuation of an expression, so the replacing works on each text of the expression by
itself: on each quoted literal, pattern and name of a label, and on each reference
(`resolve_showWith`). A reference comes out as the name of the rule, unless that name has
the marker of a rule which is replaced later. So a rule is shown as it is if no text of
its body has a marker, and only then, where no rule has an angle bracket in its name
(`render_is_faithful`).
-/

namespace RubyIndent.Peg

open RubyIndent.Text

variable {Ctx : Type}

/-! ## Markers -/

/-- The characters of a reference to a rule. -/
def marker (k : RuleId) : List Char :=
  '<' :: (Nat.toDigits 10 k ++ ['>'])

theorem toList_renderReference (k : RuleId) : (renderReference k).toList = marker k := by
  simp [renderReference, marker, Nat.repr, toString]

theorem marker_ne_nil (k : RuleId) : marker k ≠ [] :=
  List.cons_ne_nil _ _

/-- The characters of no marker. -/
def IsPunctuation (c : Char) : Prop :=
  c ≠ '<' ∧ c ≠ '>' ∧ c.isDigit = false

instance (c : Char) : Decidable (IsPunctuation c) :=
  inferInstanceAs (Decidable (_ ∧ _))

theorem not_mem_digits {c : Char} (h : c.isDigit = false) (k : RuleId) :
    c ∉ Nat.toDigits 10 k := by
  intro hc
  have hdigit := Nat.isDigit_of_mem_toDigits (by decide) (by decide) hc
  exact Bool.noConfusion (hdigit.symm.trans h)

theorem IsPunctuation.not_mem_marker {c : Char} (h : IsPunctuation c) (k : RuleId) :
    c ∉ marker k := by
  rw [marker, List.mem_cons, List.mem_append, List.mem_singleton]
  rintro (hc | hc | hc)
  · exact h.1 hc
  · exact not_mem_digits h.2.2 k hc
  · exact h.2.1 hc

/-- No marker stands within another one. -/
theorem eq_of_infix_marker {j k : RuleId} (h : marker j <:+: marker k) : j = k := by
  rw [marker, marker, List.infix_cons_iff, List.cons_prefix_cons] at h
  rcases h with ⟨-, h⟩ | h
  · rcases List.prefix_concat_iff.1 h with h | h
    · have hdigits := List.append_cancel_right h
      rw [← Nat.ofDigitChars_ten_toDigits (n := j), hdigits, Nat.ofDigitChars_ten_toDigits]
    · exact absurd (h.subset (by simp)) (not_mem_digits (c := '>') (by decide) k)
  · have hmem := h.subset List.mem_cons_self
    rcases List.mem_append.1 hmem with hmem | hmem
    · exact absurd hmem (not_mem_digits (by decide) k)
    · exact absurd (List.mem_singleton.1 hmem) (by decide)

/-! ## The order of the replacing -/

/-- The first rule has more digits, or as many and the lower number. -/
def Sooner (k j : RuleId) : Prop :=
  (toString j).length < (toString k).length ∨
    (toString j).length = (toString k).length ∧ k < j

instance (k j : RuleId) : Decidable (Sooner k j) :=
  inferInstanceAs (Decidable (_ ∨ _))

theorem Sooner.length_le {k j : RuleId} (h : Sooner k j) :
    (toString j).length ≤ (toString k).length :=
  h.elim Nat.le_of_lt fun hsame => Nat.le_of_eq hsame.1

theorem perm_insertByDigits (k : RuleId) (ids : List RuleId) :
    (insertByDigits k ids).Perm (k :: ids) := by
  induction ids with
  | nil => exact List.Perm.refl _
  | cons other ids ih =>
    rw [insertByDigits]
    split
    · exact List.Perm.refl _
    · exact (ih.cons other).trans (List.Perm.swap k other ids)

theorem pairwise_insertByDigits {k : RuleId} {ids : List RuleId}
    (hlt : ∀ other ∈ ids, k < other) (h : ids.Pairwise Sooner) :
    (insertByDigits k ids).Pairwise Sooner := by
  induction ids with
  | nil => exact List.pairwise_singleton _ _
  | cons other ids ih =>
    obtain ⟨hother, hids⟩ := List.pairwise_cons.1 h
    obtain ⟨hk, hlt⟩ := List.forall_mem_cons.1 hlt
    rw [insertByDigits]
    split
    · rename_i hle
      have hfirst : ∀ j, (toString j).length ≤ (toString k).length → k < j → Sooner k j :=
        fun j hj hlt => (Nat.lt_or_eq_of_le hj).imp_right fun heq => ⟨heq, hlt⟩
      refine List.pairwise_cons.2 ⟨List.forall_mem_cons.2 ⟨hfirst other hle hk, ?_⟩, h⟩
      intro j hj
      exact hfirst j ((hother j hj).length_le.trans hle) (hlt j hj)
    · rename_i hmore
      refine List.pairwise_cons.2 ⟨fun j hj => ?_, ih hlt hids⟩
      rcases List.mem_cons.1 ((perm_insertByDigits k ids).mem_iff.1 hj) with rfl | hj
      · exact .inl (Nat.lt_of_not_le hmore)
      · exact hother j hj

theorem foldr_insertByDigits {ids : List RuleId} (h : ids.Pairwise (· < ·)) :
    (ids.foldr insertByDigits []).Perm ids ∧
      (ids.foldr insertByDigits []).Pairwise Sooner := by
  induction ids with
  | nil => exact ⟨List.Perm.refl _, List.Pairwise.nil⟩
  | cons k ids ih =>
    obtain ⟨hk, hids⟩ := List.pairwise_cons.1 h
    obtain ⟨hperm, hsooner⟩ := ih hids
    refine ⟨(perm_insertByDigits k _).trans (hperm.cons k), ?_⟩
    exact pairwise_insertByDigits (fun j hj => hk j (hperm.mem_iff.1 hj)) hsooner

namespace Grammar

variable (g : Grammar Ctx)

theorem mem_idsByDigits {k : RuleId} : k ∈ g.idsByDigits ↔ k < g.size := by
  rw [idsByDigits, (foldr_insertByDigits List.pairwise_lt_range).1.mem_iff, List.mem_range]

/-- Each rule has its turn once, and the rules behind it come later. -/
theorem idsByDigits_split {k : RuleId} (hk : k < g.size) :
    ∃ before behind, g.idsByDigits = before ++ k :: behind ∧ k ∉ before ∧
      ∀ j ∈ behind, j < g.size ∧ Sooner k j := by
  obtain ⟨hperm, hsooner⟩ := foldr_insertByDigits (List.pairwise_lt_range (n := g.size))
  have hnodup := hperm.nodup_iff.2 List.nodup_range
  obtain ⟨before, behind, hids⟩ := List.append_of_mem (g.mem_idsByDigits.2 hk)
  rw [idsByDigits] at hids
  rw [hids] at hnodup hsooner
  refine ⟨before, behind, hids, fun hmem => ?_, fun j hj => ⟨?_, ?_⟩⟩
  · exact List.disjoint_of_nodup_append hnodup hmem List.mem_cons_self
  · rw [← mem_idsByDigits, idsByDigits, hids]
    exact List.mem_append_right _ (List.mem_cons_of_mem _ hj)
  · exact (List.pairwise_cons.1 (List.pairwise_append.1 hsooner).2.1).1 j hj

/-! ## Replacing markers by names -/

/-- Puts the names of some rules for their markers, one rule after the other. -/
def resolveAll (ids : List RuleId) (s : List Char) : List Char :=
  ids.foldl (fun s k => replaceAll (renderReference k).toList (g.name k).toList s) s

def resolve (s : String) : String :=
  String.ofList (g.resolveAll g.idsByDigits s.toList)

theorem render_eq {k : RuleId} {r : Rule Ctx} (h : g.rule? k = some r) :
    g.render k = r.name ++ " = " ++ g.resolve r.body.render := by
  rw [render, h]
  rfl

theorem resolveAll_cons (k : RuleId) (ids : List RuleId) (s : List Char) :
    g.resolveAll (k :: ids) s
      = g.resolveAll ids (replaceAll (marker k) (g.name k).toList s) := by
  rw [← toList_renderReference]
  rfl

theorem resolveAll_append (ids more : List RuleId) (s : List Char) :
    g.resolveAll (ids ++ more) s = g.resolveAll more (g.resolveAll ids s) :=
  List.foldl_append

theorem resolveAll_append_cons (ids : List RuleId) {c : Char} (hc : IsPunctuation c)
    (x y : List Char) : g.resolveAll ids (x ++ c :: y)
      = g.resolveAll ids x ++ c :: g.resolveAll ids y := by
  induction ids generalizing x y with
  | nil => rfl
  | cons k ids ih =>
    rw [resolveAll_cons, replaceAll_append_cons (marker_ne_nil k) (hc.not_mem_marker k), ih,
      ← resolveAll_cons, ← resolveAll_cons]

theorem resolveAll_of_unmarked {ids : List RuleId} {s : List Char}
    (h : ∀ k ∈ ids, ¬ marker k <:+: s) : g.resolveAll ids s = s := by
  induction ids with
  | nil => rfl
  | cons k ids ih =>
    obtain ⟨hk, hids⟩ := List.forall_mem_cons.1 h
    rw [resolveAll_cons, replaceAll_of_absent hk, ih hids]

theorem resolveAll_nil (ids : List RuleId) : g.resolveAll ids [] = [] :=
  g.resolveAll_of_unmarked fun k _ h => marker_ne_nil k (List.infix_nil.1 h)

theorem count_resolveAll_le {ids : List RuleId}
    (hnames : ∀ k ∈ ids, '<' ∉ (g.name k).toList) (s : List Char) :
    (g.resolveAll ids s).count '<' ≤ s.count '<' := by
  induction ids generalizing s with
  | nil => exact Nat.le_refl _
  | cons k ids ih =>
    obtain ⟨hk, hids⟩ := List.forall_mem_cons.1 hnames
    rw [resolveAll_cons]
    exact (ih hids _).trans (count_replaceAll_le (marker_ne_nil k) hk s)

/-- Names without angle brackets bring no markers, so each one that is replaced is
missing at the end. -/
theorem count_resolveAll_lt {ids : List RuleId}
    (hnames : ∀ k ∈ ids, '<' ∉ (g.name k).toList) {s : List Char}
    (h : ∃ k ∈ ids, marker k <:+: s) : (g.resolveAll ids s).count '<' < s.count '<' := by
  induction ids with
  | nil =>
    obtain ⟨k, hk, -⟩ := h
    cases hk
  | cons k ids ih =>
    obtain ⟨hk, hids⟩ := List.forall_mem_cons.1 hnames
    rw [resolveAll_cons]
    by_cases hmarker : marker k <:+: s
    · exact (g.count_resolveAll_le hids _).trans_lt
        (count_replaceAll_lt List.mem_cons_self hk hmarker)
    · rw [replaceAll_of_absent hmarker]
      obtain ⟨j, hj, hwithin⟩ := h
      rcases List.mem_cons.1 hj with rfl | hj
      · exact absurd hwithin hmarker
      · exact ih hids ⟨j, hj, hwithin⟩

/-- What stands for a reference: the name of the rule, if there is such a rule. -/
def reference (k : RuleId) : String :=
  if k < g.size then g.name k else renderReference k

/-- Nothing in the text looks like a reference to a rule. -/
def Unmarked (s : String) : Prop :=
  ∀ k < g.size, ¬ marker k <:+: s.toList

/-- Nothing in the name of a rule looks like a reference to a rule whose references are
replaced after those to it. -/
def KeepsName (k : RuleId) : Prop :=
  ∀ j < g.size, Sooner k j → ¬ marker j <:+: (g.name k).toList

theorem resolve_of_unmarked {s : String} (h : g.Unmarked s) : g.resolve s = s := by
  rw [resolve, resolveAll_of_unmarked, String.ofList_toList]
  exact fun k hk => h k (g.mem_idsByDigits.1 hk)

theorem resolve_reference {k : RuleId} (h : k < g.size → g.KeepsName k) :
    g.resolve (renderReference k) = g.reference k := by
  rw [reference]
  split
  · rename_i hk
    obtain ⟨before, behind, hids, hbefore, hbehind⟩ := g.idsByDigits_split hk
    have hmarker : ∀ j ∈ before, ¬ marker j <:+: marker k := fun j hj hwithin =>
      hbefore (eq_of_infix_marker hwithin ▸ hj)
    have hname : ∀ j ∈ behind, ¬ marker j <:+: (g.name k).toList := fun j hj =>
      h hk j (hbehind j hj).1 (hbehind j hj).2
    rw [resolve, hids, toList_renderReference, resolveAll_append,
      resolveAll_of_unmarked g hmarker, resolveAll_cons, replaceAll_self (marker_ne_nil k),
      resolveAll_of_unmarked g hname, String.ofList_toList]
  · rename_i hk
    refine g.resolve_of_unmarked fun j hj hwithin => ?_
    rw [toList_renderReference] at hwithin
    exact hk (eq_of_infix_marker hwithin ▸ hj)

end Grammar

/-! ## Replacing in an expression -/

/-- Some characters, none of them from a marker. -/
def Separates (sep : String) : Prop :=
  sep.toList ≠ [] ∧ ∀ c ∈ sep.toList, IsPunctuation c

instance (sep : String) : Decidable (Separates sep) :=
  @instDecidableAnd _ _ inferInstance (List.decidableBAll _ sep.toList)

mutual

/-- Shows an expression, with its texts and the references in it in a given form. -/
def Expr.showWith (text : String → String) (ref : RuleId → String) : Expr Ctx → String
  | .literal s => text (quote s)
  | .pattern p => "/" ++ text p.source ++ "/"
  | .sequence items => "(" ++ " ".intercalate (showAllWith text ref items) ++ ")"
  | .choice items => "(" ++ " | ".intercalate (showAllWith text ref items) ++ ")"
  | .many inner => inner.showWith text ref ++ "*"
  | .optional inner => inner.showWith text ref ++ "?"
  | .not inner => "!" ++ inner.showWith text ref
  | .predicate _ => "&\x7b .. \x7d"
  | .label name inner => inner.showWith text ref ++ ":" ++ text name
  | .rule k => ref k

def showAllWith (text : String → String) (ref : RuleId → String) :
    List (Expr Ctx) → List String
  | [] => []
  | e :: es => e.showWith text ref :: showAllWith text ref es

end

mutual

/-- In itself, an expression is shown with its texts unchanged and with markers for
references. -/
theorem Expr.render_eq_showWith : ∀ e : Expr Ctx, e.render = e.showWith id renderReference
  | .literal _ | .pattern _ => by
    rw [Expr.render, Expr.showWith]
    rfl
  | .predicate _ | .rule _ => by
    rw [Expr.render, Expr.showWith]
  | .sequence items | .choice items => by
    rw [Expr.render, Expr.showWith, renderEach_eq_showAllWith items]
  | .many inner | .optional inner | .not inner => by
    rw [Expr.render, Expr.showWith, Expr.render_eq_showWith inner]
  | .label name inner => by
    rw [Expr.render, Expr.showWith, Expr.render_eq_showWith inner]
    rfl

theorem renderEach_eq_showAllWith :
    ∀ es : List (Expr Ctx), renderEach es = showAllWith id renderReference es
  | [] => rfl
  | e :: es => by
    rw [renderEach, showAllWith, Expr.render_eq_showWith e, renderEach_eq_showAllWith es]

end

mutual

/-- The texts of an expression as they are shown: its literals with their quotation
marks, its patterns and the names of its labels. -/
def Expr.texts : Expr Ctx → List String
  | .literal s => [quote s]
  | .pattern p => [p.source]
  | .sequence items | .choice items => textsAll items
  | .many inner | .optional inner | .not inner => inner.texts
  | .predicate _ => []
  | .label name inner => inner.texts ++ [name]
  | .rule _ => []

def textsAll : List (Expr Ctx) → List String
  | [] => []
  | e :: es => e.texts ++ textsAll es

end

namespace Grammar

variable (g : Grammar Ctx)

theorem resolveAll_punctuation (ids : List RuleId) {sep : List Char}
    (hsep : ∀ c ∈ sep, IsPunctuation c) (y : List Char) :
    g.resolveAll ids (sep ++ y) = sep ++ g.resolveAll ids y := by
  induction sep with
  | nil => rfl
  | cons c sep ih =>
    obtain ⟨hc, hsep⟩ := List.forall_mem_cons.1 hsep
    have hfirst := g.resolveAll_append_cons ids hc [] (sep ++ y)
    rw [resolveAll_nil, List.nil_append, List.nil_append, ih hsep] at hfirst
    exact hfirst

/-- No reference reaches over punctuation. -/
theorem resolve_between {sep : String} (h : Separates sep) (x y : String) :
    g.resolve (x ++ sep ++ y) = g.resolve x ++ sep ++ g.resolve y := by
  obtain ⟨hne, hsep⟩ := h
  obtain ⟨c, t, ht⟩ := List.exists_cons_of_ne_nil hne
  rw [ht] at hsep
  obtain ⟨hc, hrest⟩ := List.forall_mem_cons.1 hsep
  refine String.toList_inj.1 ?_
  simp only [resolve, String.toList_append, String.toList_ofList, ht, List.append_assoc,
    List.cons_append, resolveAll_append_cons g _ hc, resolveAll_punctuation g _ hrest]

theorem resolve_empty : g.resolve "" = "" := by
  rw [resolve, String.toList_empty, resolveAll_nil, String.ofList_nil]

theorem resolve_behind {sep : String} (h : Separates sep) (y : String) :
    g.resolve (sep ++ y) = sep ++ g.resolve y := by
  have hsplit := g.resolve_between h "" y
  rwa [resolve_empty, String.empty_append] at hsplit

theorem resolve_before {sep : String} (h : Separates sep) (x : String) :
    g.resolve (x ++ sep) = g.resolve x ++ sep := by
  have hsplit := g.resolve_between h x ""
  rwa [resolve_empty, String.append_empty, String.append_empty] at hsplit

theorem resolve_intercalate {sep : String} (h : Separates sep) (parts : List String) :
    g.resolve (sep.intercalate parts) = sep.intercalate (parts.map g.resolve) := by
  induction parts with
  | nil => exact g.resolve_empty
  | cons part parts ih =>
    cases parts with
    | nil => simp
    | cons other parts =>
      rw [String.intercalate_cons_cons, resolve_between g h, ih]
      exact String.intercalate_cons_cons.symm

section

variable (text : String → String) (ref : RuleId → String)

mutual

/-- Replacing in a shown expression is replacing in each of its texts and references. -/
theorem resolve_showWith : ∀ e : Expr Ctx, g.resolve (e.showWith text ref)
    = e.showWith (g.resolve ∘ text) (g.resolve ∘ ref)
  | .literal s => rfl
  | .pattern p => by
    rw [Expr.showWith, Expr.showWith, resolve_before g (by decide),
      resolve_behind g (by decide)]
    rfl
  | .sequence items | .choice items => by
    rw [Expr.showWith, Expr.showWith, resolve_before g (by decide),
      resolve_behind g (by decide), resolve_intercalate g (by decide), resolve_showAllWith]
  | .many inner | .optional inner => by
    rw [Expr.showWith, Expr.showWith, resolve_before g (by decide), resolve_showWith inner]
  | .not inner => by
    rw [Expr.showWith, Expr.showWith, resolve_behind g (by decide), resolve_showWith inner]
  | .predicate check => by
    have hfixed := g.resolve_behind (by decide : Separates "&\x7b .. \x7d") ""
    rwa [resolve_empty, String.append_empty] at hfixed
  | .label name inner => by
    rw [Expr.showWith, Expr.showWith, resolve_between g (by decide), resolve_showWith inner]
    rfl
  | .rule k => rfl

theorem resolve_showAllWith : ∀ es : List (Expr Ctx), (showAllWith text ref es).map g.resolve
    = showAllWith (g.resolve ∘ text) (g.resolve ∘ ref) es
  | [] => rfl
  | e :: es => by
    rw [showAllWith, showAllWith, List.map_cons, resolve_showWith e, resolve_showAllWith es]

end

end

end Grammar

/-! ## Quoted texts -/

/-- A character that a quotation shows as it is, of those that keyboards have. -/
def IsPlain (c : Char) : Prop :=
  0x20 ≤ c.toNat ∧ c.toNat ≤ 0x7e ∧ c ≠ '\"' ∧ c ≠ '\\'

instance (c : Char) : Decidable (IsPlain c) :=
  inferInstanceAs (Decidable (_ ∧ _))

theorem isPrintable_of_isPlain {c : Char} (h : IsPlain c) : isPrintable c = true := by
  -- The table is taken as a list, because looking up each index takes too long.
  have houtside : ∀ r ∈ unprintableRanges.toList, r.2 < 0x20 ∨ 0x7e < r.1 := by
    decide +kernel
  obtain ⟨hmin, hmax, -, -⟩ := h
  rw [isPrintable, ← Array.any_toList, Bool.not_eq_true', List.any_eq_false]
  intro r hr
  have hr := houtside r hr
  simp only [Bool.and_eq_true, decide_eq_true_eq]
  omega

theorem quoteChar_of_isPlain {c : Char} (h : IsPlain c) : quoteChar c = [c] := by
  have hprintable := isPrintable_of_isPlain h
  obtain ⟨hmin, -, hquotation, hbackslash⟩ := h
  have hcontrol : c ≠ '\t' ∧ c ≠ '\n' ∧ c ≠ '\r' ∧ c ≠ '\x00' := by
    refine ⟨?_, ?_, ?_, ?_⟩ <;> (rintro rfl; exact absurd hmin (by decide))
  simp [quoteChar, hquotation, hbackslash, hcontrol, hprintable]

def Plain (s : String) : Prop :=
  ∀ c ∈ s.toList, IsPlain c

instance (s : String) : Decidable (Plain s) :=
  List.decidableBAll _ s.toList

theorem quote_of_plain {s : String} (h : Plain s) : quote s = "\"" ++ s ++ "\"" := by
  have hchars : s.toList.flatMap quoteChar = s.toList := by
    rw [List.flatMap_congr fun c hc => quoteChar_of_isPlain (h c hc)]
    simp
  refine String.toList_inj.1 ?_
  rw [quote, hchars]
  simp

theorem plain_renderReference (k : RuleId) : Plain (renderReference k) := by
  intro c h
  rw [toList_renderReference, marker, List.mem_cons, List.mem_append,
    List.mem_singleton] at h
  rcases h with rfl | h | rfl
  · decide
  · obtain ⟨hmin, hmax⟩ :=
      toNat_of_isDigit (Nat.isDigit_of_mem_toDigits (by decide) (by decide) h)
    have hquotation : c ≠ '\"' ∧ c ≠ '\\' := by
      constructor <;> (rintro rfl; revert hmin hmax; decide)
    exact ⟨by omega, by omega, hquotation⟩
  · decide

/-- A literal that looks like a reference to a rule is shown as the name of the rule. -/
theorem Grammar.resolve_quote_reference (g : Grammar Ctx) {k : RuleId} (hk : k < g.size)
    (h : g.KeepsName k) :
    g.resolve (quote (renderReference k)) = "\"" ++ g.name k ++ "\"" := by
  rw [quote_of_plain (plain_renderReference k), resolve_before g (by decide),
    resolve_behind g (by decide), g.resolve_reference fun _ => h, reference, if_pos hk]

/-! ## Comparing what is shown -/

section

variable {text text' : String → String} {ref ref' : RuleId → String}

mutual

theorem Expr.showWith_congr : ∀ {e : Expr Ctx}, (∀ t ∈ e.texts, text t = text' t) →
    (∀ k ∈ e.references, ref k = ref' k) → e.showWith text ref = e.showWith text' ref'
  | .literal s, ht, _ => ht (quote s) List.mem_cons_self
  | .pattern p, ht, _ => by
    rw [Expr.showWith, Expr.showWith, ht p.source List.mem_cons_self]
  | .sequence items, ht, hr | .choice items, ht, hr => by
    rw [Expr.showWith, Expr.showWith, showAllWith_congr ht hr]
  | .many inner, ht, hr | .optional inner, ht, hr | .not inner, ht, hr => by
    rw [Expr.showWith, Expr.showWith, Expr.showWith_congr (e := inner) ht hr]
  | .predicate _, _, _ => rfl
  | .label name inner, ht, hr => by
    obtain ⟨hinner, hname⟩ := List.forall_mem_append.1 ht
    rw [Expr.showWith, Expr.showWith, Expr.showWith_congr hinner hr,
      hname name List.mem_cons_self]
  | .rule k, _, hr => hr k List.mem_cons_self

theorem showAllWith_congr : ∀ {es : List (Expr Ctx)},
    (∀ t ∈ textsAll es, text t = text' t) →
    (∀ k ∈ referencesAll es, ref k = ref' k) →
    showAllWith text ref es = showAllWith text' ref' es
  | [], _, _ => rfl
  | e :: es, ht, hr => by
    obtain ⟨hte, htes⟩ := List.forall_mem_append.1 ht
    obtain ⟨hre, hres⟩ := List.forall_mem_append.1 hr
    rw [showAllWith, showAllWith, Expr.showWith_congr hte hre,
      showAllWith_congr htes hres]

end

end

def angles (s : String) : Nat :=
  s.toList.count '<'

theorem angles_append (s t : String) : angles (s ++ t) = angles s + angles t := by
  rw [angles, String.toList_append, List.count_append, angles, angles]

theorem Separates.angles_eq {sep : String} (h : Separates sep) : angles sep = 0 :=
  List.count_eq_zero.2 fun hmem => (h.2 _ hmem).1 rfl

theorem angles_intercalate {sep : String} (h : Separates sep) (parts : List String) :
    angles (sep.intercalate parts) = (parts.map angles).sum := by
  induction parts with
  | nil => rfl
  | cons part parts ih =>
    cases parts with
    | nil => simp
    | cons other parts =>
      rw [String.intercalate_cons_cons, angles_append, angles_append, h.angles_eq, ih,
        Nat.add_zero, ← List.sum_cons, ← List.map_cons]

section

variable (text : String → String) (ref : RuleId → String)

mutual

/-- Angle brackets are only in the texts and the references. -/
theorem Expr.angles_showWith : ∀ e : Expr Ctx, angles (e.showWith text ref)
    = (e.texts.map (angles ∘ text)).sum + (e.references.map (angles ∘ ref)).sum
  | .literal s => by simp [Expr.showWith, Expr.texts, Expr.references]
  | .pattern p => by
    have hslash : angles "/" = 0 := by decide
    simp [Expr.showWith, Expr.texts, Expr.references, angles_append, hslash]
  | .sequence items | .choice items => by
    have hopen : angles "(" = 0 := by decide
    have hclose : angles ")" = 0 := by decide
    rw [Expr.showWith, Expr.texts, Expr.references, angles_append, angles_append, hopen,
      hclose, angles_intercalate (by decide), angles_showAllWith items, Nat.zero_add,
      Nat.add_zero]
  | .many inner | .optional inner => by
    rw [Expr.showWith, Expr.texts, Expr.references, angles_append,
      Expr.angles_showWith inner]
    rfl
  | .not inner => by
    rw [Expr.showWith, Expr.texts, Expr.references, angles_append,
      Expr.angles_showWith inner]
    exact Nat.zero_add _
  | .predicate _ => by
    rw [Expr.showWith, Expr.texts, Expr.references]
    exact (by decide : angles "&\x7b .. \x7d" = 0)
  | .label name inner => by
    have hcolon : angles ":" = 0 := by decide
    simp [Expr.showWith, Expr.texts, Expr.references, angles_append, hcolon,
      Expr.angles_showWith inner]
    omega
  | .rule k => by simp [Expr.showWith, Expr.texts, Expr.references]

theorem angles_showAllWith : ∀ es : List (Expr Ctx),
    ((showAllWith text ref es).map angles).sum
      = ((textsAll es).map (angles ∘ text)).sum
        + ((referencesAll es).map (angles ∘ ref)).sum
  | [] => rfl
  | e :: es => by
    rw [showAllWith, textsAll, referencesAll, List.map_cons, List.sum_cons,
      Expr.angles_showWith e, angles_showAllWith es]
    simp
    omega

end

end

/-! ## The main result -/

namespace Grammar

variable {g : Grammar Ctx}

theorem keepsName_of_no_angle (hnames : ∀ k < g.size, '<' ∉ (g.name k).toList)
    {k : RuleId} (hk : k < g.size) : g.KeepsName k :=
  fun _ _ _ hwithin => hnames k hk (hwithin.subset List.mem_cons_self)

theorem angles_resolve_le (hnames : ∀ k < g.size, '<' ∉ (g.name k).toList) (s : String) :
    angles (g.resolve s) ≤ angles s := by
  rw [angles, resolve, String.toList_ofList]
  exact g.count_resolveAll_le (fun k hk => hnames k (g.mem_idsByDigits.1 hk)) s.toList

theorem angles_resolve_lt (hnames : ∀ k < g.size, '<' ∉ (g.name k).toList) {s : String}
    (h : ¬ g.Unmarked s) : angles (g.resolve s) < angles s := by
  simp only [Unmarked, not_forall, not_not] at h
  obtain ⟨k, hk, hwithin⟩ := h
  rw [angles, resolve, String.toList_ofList]
  exact g.count_resolveAll_lt (fun k hk => hnames k (g.mem_idsByDigits.1 hk))
    ⟨k, g.mem_idsByDigits.2 hk, hwithin⟩

/-- Where no name has an angle bracket, every marker in a text shows. -/
theorem unmarked_of_showWith_eq (hnames : ∀ k < g.size, '<' ∉ (g.name k).toList)
    {e : Expr Ctx} (h : e.showWith g.resolve g.reference = e.showWith id g.reference) :
    ∀ t ∈ e.texts, g.Unmarked t := by
  by_contra hmarked
  simp only [not_forall] at hmarked
  obtain ⟨t, ht, hmarked⟩ := hmarked
  have hlt := List.sum_lt_sum (angles ∘ g.resolve) (angles ∘ id)
    (fun s _ => angles_resolve_le hnames s) ⟨t, ht, angles_resolve_lt hnames hmarked⟩
  have hsame := congrArg angles h
  rw [Expr.angles_showWith, Expr.angles_showWith] at hsame
  omega

/-- A rule is shown as its name and its body, with the names of rules in place of
whatever looks like a reference, in each text of the body and each reference by itself.
So it is shown as it is, with names for references and all else unchanged, if nothing in
the texts of the body looks like a reference and the names of the rules that it refers
to come through the replacing. Where no rule has an angle bracket in its name, it is
shown as it is exactly if nothing in the texts of the body looks like a reference. -/
theorem render_is_faithful {g : Grammar Ctx} {k : RuleId} {r : Rule Ctx}
    (h : g.rule? k = some r) :
    g.render k = r.name ++ " = " ++
      r.body.showWith g.resolve (fun j => g.resolve (renderReference j)) ∧
    ((∀ t ∈ r.body.texts, g.Unmarked t) →
      (∀ j ∈ r.body.references, j < g.size → g.KeepsName j) →
      g.render k = r.name ++ " = " ++ r.body.showWith id g.reference) ∧
    ((∀ j < g.size, '<' ∉ (g.name j).toList) →
      (g.render k = r.name ++ " = " ++ r.body.showWith id g.reference ↔
        ∀ t ∈ r.body.texts, g.Unmarked t)) := by
  have hrender : g.render k = r.name ++ " = " ++
      r.body.showWith g.resolve (fun j => g.resolve (renderReference j)) := by
    rw [g.render_eq h, Expr.render_eq_showWith, resolve_showWith]
    rfl
  have hfaithful : (∀ t ∈ r.body.texts, g.Unmarked t) →
      (∀ j ∈ r.body.references, j < g.size → g.KeepsName j) →
      g.render k = r.name ++ " = " ++ r.body.showWith id g.reference := by
    intro htexts hreferences
    rw [hrender, Expr.showWith_congr (fun t ht => g.resolve_of_unmarked (htexts t ht))
      fun j hj => g.resolve_reference (hreferences j hj)]
    rfl
  refine ⟨hrender, hfaithful, fun hnames => ⟨fun hsame => ?_, fun htexts => ?_⟩⟩
  · refine unmarked_of_showWith_eq hnames ?_
    rw [hrender, String.append_right_inj] at hsame
    rw [← hsame]
    exact Expr.showWith_congr (fun _ _ => rfl) fun j _ =>
      (g.resolve_reference fun hj => keepsName_of_no_angle hnames hj).symm
  · exact hfaithful htexts fun j _ hj => keepsName_of_no_angle hnames hj

def lists : Grammar Unit where
  rules := #[
    { name := "list", body := .sequence [.literal "<", .many (.rule 1), .literal ">"] },
    { name := "item", body := .choice [.rule 0, .label "<2>" (.literal "x")] }]

theorem render_is_faithful_lists : lists.render 1 = "item = (list | \"x\":<2>)" := by
  have hnames : ∀ j < lists.size, '<' ∉ (lists.name j).toList := by
    intro j hj
    match j, hj with
    | 0, _ => decide
    | 1, _ => decide
  have hquote : quote "x" = "\"x\"" := quote_of_plain (by decide)
  have htexts : ∀ t ∈ [quote "x", "<2>"], lists.Unmarked t := by
    intro t ht j hj
    rw [hquote] at ht
    match j, hj with
    | 0, _ => revert t; decide
    | 1, _ => revert t; decide
  obtain ⟨-, -, hiff⟩ := render_is_faithful (g := lists) (k := 1) rfl
  rw [(hiff hnames).2 htexts]
  show "item" ++ " = " ++
    ("(" ++ " | ".intercalate ["list", quote "x" ++ ":" ++ "<2>"] ++ ")") = _
  rw [hquote]
  decide

/-- A literal that looks like a reference is shown as one. -/
theorem render_literal_as_reference : ∃ (g : Grammar Unit) (r : Rule Unit),
    (({} : Builder Unit).add "a" (.literal "<0>")).2.build = .ok g ∧
      g.rule? 0 = some r ∧ g.render 0 = "a = \"a\"" ∧
      r.name ++ " = " ++ r.body.showWith id g.reference = "a = \"<0>\"" := by
  let g : Grammar Unit := ⟨#[{ name := "a", body := .literal "<0>" }]⟩
  have hkeeps : g.KeepsName 0 := by
    intro j hj hsooner
    obtain rfl : j = 0 := Nat.lt_one_iff.1 hj
    exact absurd hsooner (by decide)
  refine ⟨g, _, ?_, rfl, ?_, ?_⟩
  · simp [Builder.add, Builder.declare, Builder.define, Builder.build, Builder.finish]
    rfl
  · rw [g.render_eq rfl]
    show "a" ++ " = " ++ g.resolve (quote (renderReference 0)) = _
    rw [g.resolve_quote_reference (by decide) hkeeps]
    decide
  · show "a" ++ " = " ++ quote "<0>" = _
    rw [quote_of_plain (by decide)]
    decide

end Grammar

end RubyIndent.Peg
