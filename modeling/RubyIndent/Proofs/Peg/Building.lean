import Mathlib.Data.List.Induction
import Mathlib.Data.List.Nodup
import RubyIndent.Peg.Grammar

/-!
# Putting a grammar together

A builder is used by a row of calls in any order. What comes of them is told here from
the calls alone, without the builder: the names that they declare, the definitions that
they make, with rules numbered by the first declaration of their names, and the first
mistake (`firstMistake`) or, where there is none, the first rule without a body
(`firstUndefined`). The builder's declarations are these names with their latest
definitions (`ruleNames_after`, `latest_after`), and its first error is the first
mistake (`head?_errors`). So a grammar comes out exactly if no name is declared twice,
no rule is defined twice and none is left out (`build_is_sound`).
-/

namespace RubyIndent.Peg.Builder

variable {Ctx : Type}

inductive Call (Ctx : Type) where
  | declare (name : String)
  | define (id : RuleId) (body : Expr Ctx) (action : Option (Action Ctx))
  | add (name : String) (body : Expr Ctx)

abbrev Definition (Ctx : Type) := Expr Ctx × Option (Action Ctx)

def call (b : Builder Ctx) : Call Ctx → Builder Ctx
  | .declare name => (b.declare name).2
  | .define id body action => b.define id body action
  | .add name body => (b.add name body).2

def after (cs : List (Call Ctx)) : Builder Ctx :=
  cs.foldl call {}

/-! ## What the calls say -/

def Call.declares? : Call Ctx → Option String
  | declare name => some name
  | define .. => none
  | add name _ => some name

def declared (cs : List (Call Ctx)) : List String :=
  cs.filterMap Call.declares?

/-- The names of the rules: each name where it is declared first. -/
def names (cs : List (Call Ctx)) : List String :=
  (declared cs).eraseDups

/-- The rule that a call defines, and how, where rules have the given names. -/
def Call.definition? (names : List String) : Call Ctx → Option (RuleId × Definition Ctx)
  | declare _ => none
  | define id body action => some (id, body, action)
  | add name body => some (names.idxOf name, body, none)

def definitions (cs : List (Call Ctx)) : List (RuleId × Definition Ctx) :=
  cs.filterMap (Call.definition? (names cs))

def defined (cs : List (Call Ctx)) : List RuleId :=
  (definitions cs).map Prod.fst

/-- What is wrong with a call that comes behind others. -/
def Call.mistake? (earlier : List (Call Ctx)) : Call Ctx → Option GrammarError
  | declare name | add name _ =>
    if name ∈ declared earlier then some (.duplicate name) else none
  | define id _ _ =>
    if id ∈ defined earlier then (names earlier)[id]?.map .redefined else none

/-- What is wrong with the first call with which something is wrong. -/
def firstMistake (cs : List (Call Ctx)) : Option GrammarError :=
  cs.zipIdx.findSome? fun p => p.1.mistake? (cs.take p.2)

def firstUndefined (cs : List (Call Ctx)) : Option GrammarError :=
  (names cs).zipIdx.findSome? fun p =>
    if p.2 ∈ defined cs then none else some (.undefined p.1)

/-- One of the calls declares the name and is given the number for it. -/
def Gave (cs : List (Call Ctx)) (name : String) (id : RuleId) : Prop :=
  ∃ i c, cs[i]? = some c ∧ c.declares? = some name ∧
    ((after (cs.take i)).declare name).1 = id

/-- Rules are defined under numbers that were given before. -/
def Legal (cs : List (Call Ctx)) : Prop :=
  ∀ i id body action, cs[i]? = some (.define id body action) →
    ∃ name, Gave (cs.take i) name id

/-! ## One more call -/

variable {cs : List (Call Ctx)} {c : Call Ctx} {name : String} {id : RuleId}

theorem after_snoc (cs : List (Call Ctx)) (c : Call Ctx) :
    after (cs ++ [c]) = (after cs).call c := by
  rw [after, List.foldl_append]
  rfl

theorem declared_snoc (cs : List (Call Ctx)) (c : Call Ctx) :
    declared (cs ++ [c]) = declared cs ++ c.declares?.toList := by
  rw [declared, List.filterMap_append]
  cases h : c.declares? <;> simp [declared, h]

theorem mem_names : name ∈ names cs ↔ name ∈ declared cs :=
  List.mem_eraseDups

theorem names_snoc_of_none (h : c.declares? = none) : names (cs ++ [c]) = names cs := by
  rw [names, declared_snoc, h, Option.toList_none, List.append_nil, names]

theorem names_snoc_of_some (h : c.declares? = some name) :
    names (cs ++ [c])
      = if name ∈ names cs then names cs else names cs ++ [name] := by
  rw [names, declared_snoc, h, Option.toList_some, List.eraseDups_append, ← names]
  by_cases hmem : name ∈ declared cs
  · simp [List.removeAll, mem_names, hmem]
  · simp [List.removeAll, mem_names, hmem, List.eraseDups_cons]

theorem nodup_names (cs : List (Call Ctx)) : (names cs).Nodup := by
  induction cs using List.reverseRecOn with
  | nil => exact List.nodup_nil
  | append_singleton cs c ih =>
    cases hc : c.declares? with
    | none => rwa [names_snoc_of_none hc]
    | some name =>
      rw [names_snoc_of_some hc]
      split
      · exact ih
      · rename_i hnew
        refine List.nodup_append.2 ⟨ih, List.nodup_singleton name, ?_⟩
        rintro a ha b hb rfl
        rw [List.mem_singleton.1 hb] at ha
        exact hnew ha

/-- The number of a rule does not change any more. -/
theorem idxOf_names_snoc (h : name ∈ names cs) (c : Call Ctx) :
    (names (cs ++ [c])).idxOf name = (names cs).idxOf name := by
  cases hc : c.declares? with
  | none => rw [names_snoc_of_none hc]
  | some other =>
    rw [names_snoc_of_some hc]
    split
    · rfl
    · exact List.idxOf_append_of_mem h

/-- A name that is declared first gets the next number. -/
theorem idxOf_names_self (hc : c.declares? = some name) :
    (names (cs ++ [c])).idxOf name = (names cs).idxOf name := by
  by_cases h : name ∈ names cs
  · exact idxOf_names_snoc h c
  · rw [names_snoc_of_some hc, if_neg h, List.idxOf_append, if_neg h,
      List.idxOf_cons_self, Nat.zero_add, List.idxOf_eq_length h]

theorem mem_names_self (hc : c.declares? = some name) : name ∈ names (cs ++ [c]) := by
  rw [mem_names, declared_snoc, hc]
  exact List.mem_append_right _ List.mem_cons_self

theorem definitions_snoc (cs : List (Call Ctx)) (c : Call Ctx) :
    definitions (cs ++ [c])
      = definitions cs ++ (c.definition? (names (cs ++ [c]))).toList := by
  have hsame : ∀ d ∈ cs, d.definition? (names (cs ++ [c])) = d.definition? (names cs) := by
    intro d hd
    cases d with
    | declare name => rfl
    | define id body action => rfl
    | add name body =>
      have hmem : name ∈ names cs := mem_names.2 (List.mem_filterMap.2 ⟨_, hd, rfl⟩)
      rw [Call.definition?, idxOf_names_snoc hmem c, Call.definition?]
  rw [definitions, List.filterMap_append, List.filterMap_congr hsame, definitions]
  cases h : c.definition? (names (cs ++ [c])) <;> simp [h]

theorem firstMistake_snoc (cs : List (Call Ctx)) (c : Call Ctx) :
    firstMistake (cs ++ [c]) = (firstMistake cs).or (c.mistake? cs) := by
  have hsame : ∀ p ∈ cs.zipIdx, p.1.mistake? ((cs ++ [c]).take p.2)
      = p.1.mistake? (cs.take p.2) := by
    intro p hp
    have hlt : p.2 < cs.length :=
      (List.getElem?_eq_some_iff.1 (List.mem_zipIdx_iff_getElem?.1 hp)).1
    rw [List.take_append_of_le_length (Nat.le_of_lt hlt)]
  have hfirst : cs.zipIdx.findSome? (fun p => p.1.mistake? ((cs ++ [c]).take p.2))
      = firstMistake cs := by
    rw [firstMistake, ← List.head?_filterMap, ← List.head?_filterMap,
      List.filterMap_congr hsame]
  rw [firstMistake, List.zipIdx_append, List.findSome?_append, hfirst]
  simp

/-! ## The declarations of the builder -/

theorem findIdx?_name {α : Type} (f : α → String) (xs : Array α) (name : String) :
    xs.findIdx? (fun a => f a == name) = if name ∈ xs.toList.map f then
      some ((xs.toList.map f).idxOf name) else none := by
  obtain ⟨l⟩ := xs
  rw [List.findIdx?_toArray]
  induction l with
  | nil => rfl
  | cons a l ih =>
    rw [List.findIdx?_cons, ih]
    by_cases ha : f a = name
    · simp [ha]
    · have hne : ¬ name = f a := fun h => ha h.symm
      by_cases hmem : name ∈ l.map f <;> simp [ha, hne, hmem]

variable (b : Builder Ctx)

def ruleNames : List String :=
  b.declarations.toList.map Declaration.name

theorem getElem?_ruleNames (id : RuleId) :
    b.ruleNames[id]? = b.declarations[id]?.map Declaration.name := by
  rw [ruleNames, List.getElem?_map, Array.getElem?_toList]

theorem length_ruleNames : b.ruleNames.length = b.declarations.size := by
  rw [ruleNames, List.length_map, Array.length_toList]

theorem findIdx?_ruleNames (name : String) :
    b.declarations.findIdx? (fun d => d.name == name)
      = if name ∈ b.ruleNames then some (b.ruleNames.idxOf name) else none :=
  findIdx?_name Declaration.name b.declarations name

/-- What declaring a name does: it is a mistake, or it makes a declaration. -/
theorem declare_snd (name : String) : (b.declare name).2 =
    if name ∈ b.ruleNames then { b with errors := b.errors ++ [.duplicate name] }
    else { b with declarations := b.declarations.push { name } } := by
  rw [Builder.declare, findIdx?_ruleNames]
  by_cases hmem : name ∈ b.ruleNames
  · rw [if_pos hmem, if_pos hmem]
  · rw [if_neg hmem, if_neg hmem]

theorem declare_fst (name : String) : (b.declare name).1 = b.ruleNames.idxOf name := by
  rw [Builder.declare, findIdx?_ruleNames]
  by_cases hmem : name ∈ b.ruleNames
  · rw [if_pos hmem]
  · rw [if_neg hmem, List.idxOf_eq_length hmem, length_ruleNames]

theorem ruleNames_declare (name : String) : (b.declare name).2.ruleNames
    = if name ∈ b.ruleNames then b.ruleNames else b.ruleNames ++ [name] := by
  rw [declare_snd]
  split
  · rfl
  · simp [ruleNames]

theorem ruleNames_define (id : RuleId) (body : Expr Ctx) (action : Option (Action Ctx)) :
    (b.define id body action).ruleNames = b.ruleNames := by
  refine List.ext_getElem? fun other => ?_
  rw [getElem?_ruleNames, getElem?_ruleNames, Builder.define]
  cases hid : b.declarations[id]? with
  | none => rfl
  | some d =>
    rw [Array.getElem?_setIfInBounds]
    split
    · rename_i heq
      obtain ⟨hlt, -⟩ := Array.getElem?_eq_some_iff.1 hid
      rw [if_pos hlt, ← heq, hid]
      rfl
    · rfl

theorem ruleNames_after (cs : List (Call Ctx)) : (after cs).ruleNames = names cs := by
  induction cs using List.reverseRecOn with
  | nil => rfl
  | append_singleton cs c ih =>
    rw [after_snoc]
    cases c with
    | define id body action =>
      rw [names_snoc_of_none rfl, ← ih]
      exact ruleNames_define _ _ _ _
    | declare name =>
      rw [names_snoc_of_some rfl, ← ih]
      exact ruleNames_declare _ _
    | add name body =>
      rw [names_snoc_of_some rfl, ← ih, ← ruleNames_declare]
      exact ruleNames_define _ _ _ _

/-! ## Numbers -/

/-- A number that was given is that of the name. -/
theorem Gave.idxOf_eq (h : Gave cs name id) :
    name ∈ names cs ∧ (names cs).idxOf name = id := by
  obtain ⟨i, c, hi, hc, hid⟩ := h
  rw [declare_fst, ruleNames_after] at hid
  have hsplit : cs = cs.take i ++ [c] ++ cs.drop (i + 1) := by
    obtain ⟨hlt, rfl⟩ := List.getElem?_eq_some_iff.1 hi
    rw [List.append_assoc, List.singleton_append, List.getElem_cons_drop,
      List.take_append_drop]
  have hfirst : name ∈ names (cs.take i ++ [c]) ∧
      (names (cs.take i ++ [c])).idxOf name = id :=
    ⟨mem_names_self hc, (idxOf_names_self hc).trans hid⟩
  rw [hsplit]
  generalize cs.drop (i + 1) = later
  induction later using List.reverseRecOn with
  | nil => rwa [List.append_nil]
  | append_singleton later c' ih =>
    rw [← List.append_assoc]
    refine ⟨?_, (idxOf_names_snoc ih.1 c').trans ih.2⟩
    rw [mem_names, declared_snoc]
    exact List.mem_append_left _ (mem_names.1 ih.1)

theorem Gave.getElem?_names (h : Gave cs name id) : (names cs)[id]? = some name := by
  obtain ⟨hmem, rfl⟩ := h.idxOf_eq
  have hlt := List.idxOf_lt_length_iff.2 hmem
  rw [List.getElem?_eq_getElem hlt, List.getElem_idxOf hlt]

/-- Every declared rule has a number that was given for its name. -/
theorem gave_of_getElem?_names (h : (names cs)[id]? = some name) : Gave cs name id := by
  have hmem := mem_names.1 (List.mem_of_getElem? h)
  obtain ⟨c, hc, hname⟩ := List.mem_filterMap.1 hmem
  obtain ⟨i, hi⟩ := List.mem_iff_getElem?.1 hc
  have hgave : Gave cs name _ := ⟨i, c, hi, hname, rfl⟩
  have hsame := hgave.getElem?_names
  obtain ⟨hlt, hget⟩ := List.getElem?_eq_some_iff.1 h
  obtain ⟨hlt', hget'⟩ := List.getElem?_eq_some_iff.1 hsame
  have hid := (List.Nodup.getElem_inj_iff (nodup_names cs)).1 (hget'.trans hget.symm)
  rwa [hid] at hgave

theorem Legal.init (h : Legal (cs ++ [c])) : Legal cs := by
  intro i id body action hi
  obtain ⟨hlt, -⟩ := List.getElem?_eq_some_iff.1 hi
  have hlegal := h i id body action (by rwa [List.getElem?_append_left hlt])
  rwa [List.take_append_of_le_length (Nat.le_of_lt hlt)] at hlegal

theorem Legal.last {body : Expr Ctx} {action : Option (Action Ctx)}
    (h : Legal (cs ++ [.define id body action])) : ∃ name, (names cs)[id]? = some name := by
  obtain ⟨name, hgave⟩ := h cs.length id body action (by simp)
  rw [List.take_left] at hgave
  exact ⟨name, hgave.getElem?_names⟩

theorem defined_snoc (cs : List (Call Ctx)) (c : Call Ctx) : defined (cs ++ [c])
    = defined cs ++ ((c.definition? (names (cs ++ [c]))).map Prod.fst).toList := by
  rw [defined, definitions_snoc, List.map_append, defined]
  cases c.definition? (names (cs ++ [c])) <;> rfl

theorem length_names_le (cs : List (Call Ctx)) (c : Call Ctx) :
    (names cs).length ≤ (names (cs ++ [c])).length := by
  cases hc : c.declares? with
  | none => exact Nat.le_of_eq (congrArg List.length (names_snoc_of_none hc).symm)
  | some name =>
    rw [names_snoc_of_some hc]
    split <;> simp

/-- Only declared rules are defined. -/
theorem lt_of_mem_defined (h : Legal cs) : ∀ id ∈ defined cs, id < (names cs).length := by
  induction cs using List.reverseRecOn with
  | nil => exact nofun
  | append_singleton cs c ih =>
    intro id hid
    rw [defined_snoc, List.mem_append] at hid
    rcases hid with hid | hid
    · exact Nat.lt_of_lt_of_le (ih h.init id hid) (length_names_le cs c)
    · cases c with
      | declare name => cases hid
      | define id' body action =>
        obtain rfl : id = id' := List.mem_singleton.1 hid
        obtain ⟨name, hname⟩ := h.last
        rw [names_snoc_of_none rfl]
        exact (List.getElem?_eq_some_iff.1 hname).1
      | add name body =>
        obtain rfl : id = _ := List.mem_singleton.1 hid
        exact List.idxOf_lt_length_iff.2 (mem_names_self rfl)

/-- The next number is not that of a defined rule. -/
theorem idxOf_not_mem_defined (h : Legal cs) (hnew : name ∉ declared cs) :
    (names cs).idxOf name ∉ defined cs := by
  intro hid
  have hlt := lt_of_mem_defined h _ hid
  rw [List.idxOf_eq_length (mt mem_names.1 hnew)] at hlt
  exact Nat.lt_irrefl _ hlt

/-! ## The bodies and the errors of the builder -/

/-- The body of a declared rule is the latest of some definitions of it. -/
def Latest (b : Builder Ctx) (ds : List (RuleId × Definition Ctx)) : Prop :=
  ∀ id d, b.declarations[id]? = some d → d.definition = ds.reverse.lookup id

variable {b : Builder Ctx} {ds : List (RuleId × Definition Ctx)}

theorem lookup_snoc (ds : List (RuleId × Definition Ctx)) (id : RuleId)
    (x : Definition Ctx) (other : RuleId) : (ds ++ [(id, x)]).reverse.lookup other
      = if other = id then some x else ds.reverse.lookup other := by
  rw [List.reverse_append, List.reverse_singleton, List.singleton_append,
    List.lookup_cons]
  by_cases heq : other = id
  · simp [heq]
  · simp [heq, beq_eq_false_iff_ne.2 heq]

theorem isSome_lookup_iff :
    (ds.reverse.lookup id).isSome = true ↔ id ∈ ds.map Prod.fst := by
  rw [List.lookup_isSome_iff, List.mem_map]
  constructor
  · rintro ⟨p, hp, heq⟩
    exact ⟨p, List.mem_reverse.1 hp, (beq_iff_eq.1 heq).symm⟩
  · rintro ⟨p, hp, rfl⟩
    exact ⟨p, List.mem_reverse.2 hp, beq_self_eq_true p.1⟩

theorem Latest.declare (h : Latest b ds)
    (hds : ∀ id ∈ ds.map Prod.fst, id < b.ruleNames.length) (name : String) :
    Latest (b.declare name).2 ds := by
  rw [declare_snd]
  split
  · exact h
  · intro id d hd
    rw [Array.getElem?_push] at hd
    split at hd
    · rename_i hid
      have hnew : ¬ (ds.reverse.lookup id).isSome = true := by
        intro hsome
        have hlt := hds id (isSome_lookup_iff.1 hsome)
        rw [length_ruleNames, hid] at hlt
        exact Nat.lt_irrefl _ hlt
      cases hd
      exact (Option.not_isSome_iff_eq_none.1 hnew).symm
    · exact h id d hd

theorem Latest.define (h : Latest b ds) (id : RuleId) (body : Expr Ctx)
    (action : Option (Action Ctx)) :
    Latest (b.define id body action) (ds ++ [(id, body, action)]) := by
  intro other d hd
  rw [lookup_snoc]
  rw [Builder.define] at hd
  cases hid : b.declarations[id]? with
  | none =>
    rw [hid] at hd
    have hne : other ≠ id := by
      rintro rfl
      cases hid.symm.trans hd
    rw [if_neg hne, h other d hd]
  | some d' =>
    obtain ⟨hlt, -⟩ := Array.getElem?_eq_some_iff.1 hid
    rw [hid] at hd
    simp only [Array.getElem?_setIfInBounds] at hd
    by_cases heq : other = id
    · rw [if_pos heq.symm, if_pos hlt] at hd
      cases hd
      rw [if_pos heq]
    · rw [if_neg fun h => heq h.symm] at hd
      rw [if_neg heq, h other d hd]

theorem errors_declare (b : Builder Ctx) (name : String) : (b.declare name).2.errors
    = b.errors ++ if name ∈ b.ruleNames then [.duplicate name] else [] := by
  rw [declare_snd]
  split
  · rfl
  · exact (List.append_nil _).symm

theorem Latest.errors_define (h : Latest b ds) (id : RuleId) (body : Expr Ctx)
    (action : Option (Action Ctx)) : (b.define id body action).errors = b.errors ++
      (if id ∈ ds.map Prod.fst then b.ruleNames[id]?.map GrammarError.redefined
        else none).toList := by
  rw [Builder.define, getElem?_ruleNames]
  cases hid : b.declarations[id]? with
  | none => simp
  | some d =>
    have hsome : d.definition.isSome = true ↔ id ∈ ds.map Prod.fst := by
      rw [h id d hid, isSome_lookup_iff]
    by_cases hmem : id ∈ ds.map Prod.fst
    · simp [hsome.2 hmem, hmem]
    · simp [mt hsome.1 hmem, hmem]

/-- What adding a rule does, where rules are numbered by the calls so far. -/
theorem call_add (cs : List (Call Ctx)) (name : String) (body : Expr Ctx) :
    (after cs).call (.add name body)
      = ((after cs).declare name).2.define ((names cs).idxOf name) body := by
  rw [← ruleNames_after, ← declare_fst]
  rfl

theorem lt_length_ruleNames (h : Legal cs) :
    ∀ id ∈ defined cs, id < (after cs).ruleNames.length := by
  rw [ruleNames_after]
  exact lt_of_mem_defined h

/-- The body of a rule is the latest definition of it. -/
theorem latest_after (h : Legal cs) : Latest (after cs) (definitions cs) := by
  induction cs using List.reverseRecOn with
  | nil => exact fun id d hd => by cases hd
  | append_singleton cs c ih =>
    have hlatest := ih h.init
    have hds := lt_length_ruleNames h.init
    rw [after_snoc, definitions_snoc]
    cases c with
    | declare name =>
      rw [Call.definition?, Option.toList_none, List.append_nil]
      exact hlatest.declare hds name
    | define id body action => exact hlatest.define id body action
    | add name body =>
      rw [call_add, Call.definition?, idxOf_names_self rfl]
      exact (hlatest.declare hds name).define _ body none

/-- The first error of the builder is the first mistake. -/
theorem head?_errors (h : Legal cs) : (after cs).errors.head? = firstMistake cs := by
  induction cs using List.reverseRecOn with
  | nil => rfl
  | append_singleton cs c ih =>
    have hlatest := latest_after h.init
    have hnames := ruleNames_after cs
    rw [after_snoc, firstMistake_snoc, ← ih h.init]
    cases c with
    | declare name =>
      show ((after cs).declare name).2.errors.head? = _
      rw [errors_declare, List.head?_append, hnames, Call.mistake?]
      by_cases hmem : name ∈ declared cs <;> simp [hmem, mem_names]
    | define id body action =>
      show ((after cs).define id body action).errors.head? = _
      rw [hlatest.errors_define, List.head?_append, hnames, Call.mistake?,
        Option.head?_toList]
      rfl
    | add name body =>
      have hdeclared := hlatest.declare (lt_length_ruleNames h.init) name
      rw [call_add, hdeclared.errors_define, errors_declare,
        List.append_assoc, List.head?_append, hnames, Call.mistake?]
      -- A name that was declared is the first mistake, whatever defining it adds to it;
      -- a new name has a number that was not defined before.
      by_cases hmem : name ∈ declared cs
      · simp [hmem, mem_names]
      · have hnew : (names cs).idxOf name ∉ (definitions cs).map Prod.fst :=
          idxOf_not_mem_defined h.init hmem
        rw [if_neg hnew]
        simp [hmem, mem_names]

/-! ## Finishing -/

theorem finish_eq_ok {d : Declaration Ctx} {r : Rule Ctx} :
    finish d = .ok r ↔ d.name = r.name ∧ d.definition = some (r.body, r.action) := by
  obtain ⟨name, definition⟩ := d
  obtain ⟨name', body, action⟩ := r
  cases definition with
  | none => simp [finish]
  | some x => simp [finish, Prod.ext_iff]

def complaint? (d : Declaration Ctx) : Option GrammarError :=
  if d.definition.isSome then none else some (.undefined d.name)

/-- Finishing stops at the first complaint and otherwise makes all rules. -/
theorem mapM_finish (ds : List (Declaration Ctx)) :
    (∃ e, ds.findSome? complaint? = some e ∧ ds.mapM finish = .error e) ∨
      (ds.findSome? complaint? = none ∧
        ∃ rs, ds.mapM finish = .ok rs ∧ ds.map finish = rs.map .ok) := by
  induction ds with
  | nil => exact .inr ⟨rfl, [], rfl, rfl⟩
  | cons d ds ih =>
    rw [List.findSome?_cons, List.mapM_cons]
    obtain ⟨name, definition⟩ := d
    cases definition with
    | none => exact .inl ⟨_, rfl, rfl⟩
    | some x =>
      rcases ih with ⟨e, hfind, hmap⟩ | ⟨hfind, rs, hmap, hrs⟩
      · refine .inl ⟨e, hfind, ?_⟩
        rw [hmap]
        rfl
      · refine .inr ⟨hfind, { name, body := x.1, action := x.2 } :: rs, ?_, ?_⟩
        · rw [hmap]
          rfl
        · rw [List.map_cons, hrs]
          rfl

/-- The first complaint about the declarations is about the first undefined rule. -/
theorem findSome?_complaint (h : Legal cs) :
    (after cs).declarations.toList.findSome? complaint? = firstUndefined cs := by
  have hsame : ∀ p ∈ (after cs).declarations.toList.zipIdx,
      (if p.2 ∈ defined cs then none else some (GrammarError.undefined p.1.name))
        = complaint? p.1 := by
    intro p hp
    have hget := List.mem_zipIdx_iff_getElem?.1 hp
    rw [Array.getElem?_toList] at hget
    have hiff : p.1.definition.isSome = true ↔ p.2 ∈ defined cs := by
      rw [latest_after h p.2 p.1 hget]
      exact isSome_lookup_iff
    simp only [complaint?, hiff]
  rw [firstUndefined, ← ruleNames_after, ruleNames, List.zipIdx_map,
    ← List.head?_filterMap, ← List.head?_filterMap, List.filterMap_map]
  conv_lhs => rw [← List.zipIdx_map_fst 0 (after cs).declarations.toList,
    List.filterMap_map]
  exact congrArg List.head? (List.filterMap_congr hsame).symm

/-- Building reports the first mistake or else the first rule without a body, and where
there is neither it finishes all declarations. -/
theorem build_after (h : Legal cs) :
    (∃ e, (firstMistake cs).or (firstUndefined cs) = some e ∧
      (after cs).build = .error e) ∨
    ((firstMistake cs).or (firstUndefined cs) = none ∧
      ∃ g, (after cs).build = .ok g ∧
        (after cs).declarations.toList.map finish = g.rules.toList.map .ok) := by
  rw [← head?_errors h, ← findSome?_complaint h, Builder.build]
  cases herrors : (after cs).errors with
  | cons e es => exact .inl ⟨e, rfl, rfl⟩
  | nil =>
    rw [Array.mapM_eq_mapM_toList]
    rcases mapM_finish (after cs).declarations.toList with
      ⟨e, hfind, hmap⟩ | ⟨hfind, rs, hmap, hrs⟩
    · refine .inl ⟨e, hfind, ?_⟩
      simp only [hmap]
      rfl
    · refine .inr ⟨hfind, ⟨rs.toArray⟩, ?_, hrs⟩
      simp only [hmap]
      rfl

/-- The rules of a grammar are the finished declarations. -/
theorem map_finish_getElem? {b : Builder Ctx} {g : Grammar Ctx}
    (h : b.declarations.toList.map finish = g.rules.toList.map .ok) (id : RuleId) :
    b.declarations[id]?.map finish = (g.rule? id).map .ok := by
  have hid := congrArg (fun rs => rs[id]?) h
  simpa only [Grammar.rule?, List.getElem?_map, Array.getElem?_toList] using hid

theorem rule?_eq_some_iff {b : Builder Ctx} {g : Grammar Ctx}
    (h : b.declarations.toList.map finish = g.rules.toList.map .ok) {r : Rule Ctx} :
    g.rule? id = some r ↔ ∃ d, b.declarations[id]? = some d ∧ finish d = .ok r := by
  rw [← Option.map_eq_some_iff, map_finish_getElem? h]
  cases g.rule? id <;> simp

theorem map_name_eq_ruleNames {b : Builder Ctx} {g : Grammar Ctx}
    (h : b.declarations.toList.map finish = g.rules.toList.map .ok) :
    g.rules.toList.map Rule.name = b.ruleNames := by
  refine List.ext_getElem? fun id => ?_
  rw [getElem?_ruleNames, List.getElem?_map, Array.getElem?_toList]
  cases hrule : g.rule? id with
  | none =>
    have hid := map_finish_getElem? h id
    rw [hrule, Option.map_none, Option.map_eq_none_iff] at hid
    rw [hid, show g.rules[id]? = none from hrule, Option.map_none, Option.map_none]
  | some r =>
    obtain ⟨d, hd, hfinish⟩ := (rule?_eq_some_iff h).1 hrule
    rw [hd, show g.rules[id]? = some r from hrule, Option.map_some, Option.map_some,
      (finish_eq_ok.1 hfinish).1]

/-! ## Calls without a mistake -/

theorem nodup_snoc {α : Type} {l : List α} {a : α} :
    (l ++ [a]).Nodup ↔ l.Nodup ∧ a ∉ l := by
  rw [← List.concat_eq_append, List.nodup_concat, and_comm]

theorem names_eq_declared (h : (declared cs).Nodup) : names cs = declared cs := by
  induction cs using List.reverseRecOn with
  | nil => rfl
  | append_singleton cs c ih =>
    rw [declared_snoc] at h ⊢
    cases hc : c.declares? with
    | none =>
      rw [hc, Option.toList_none, List.append_nil] at h
      rw [names_snoc_of_none hc, ih h, Option.toList_none, List.append_nil]
    | some name =>
      rw [hc, Option.toList_some, nodup_snoc] at h
      rw [names_snoc_of_some hc, if_neg (mt mem_names.1 h.2), ih h.1, Option.toList_some]

theorem firstMistake_eq_none_iff (h : Legal cs) :
    firstMistake cs = none ↔ (declared cs).Nodup ∧ (defined cs).Nodup := by
  induction cs using List.reverseRecOn with
  | nil => exact ⟨fun _ => ⟨List.nodup_nil, List.nodup_nil⟩, fun _ => rfl⟩
  | append_singleton cs c ih =>
    rw [firstMistake_snoc, Option.or_eq_none_iff, ih h.init, declared_snoc, defined_snoc]
    cases c with
    | declare name =>
      simp [Call.declares?, Call.definition?, Call.mistake?, nodup_snoc]
      tauto
    | define id body action =>
      obtain ⟨name, hname⟩ := h.last
      simp [Call.declares?, Call.definition?, Call.mistake?, nodup_snoc, hname]
      tauto
    | add name body =>
      have hnew : name ∉ declared cs → (names cs).idxOf name ∉ defined cs :=
        idxOf_not_mem_defined h.init
      simp [Call.declares?, Call.definition?, Call.mistake?, nodup_snoc,
        idxOf_names_self (c := .add name body) rfl]
      tauto

theorem firstUndefined_eq_none_iff :
    firstUndefined cs = none ↔ ∀ name id, Gave cs name id → id ∈ defined cs := by
  rw [firstUndefined, List.findSome?_eq_none_iff]
  constructor
  · intro h name id hgave
    have hmem : (name, id) ∈ (names cs).zipIdx :=
      List.mem_zipIdx_iff_getElem?.2 hgave.getElem?_names
    by_contra hid
    simpa [hid] using h _ hmem
  · intro h p hp
    have hgave := gave_of_getElem?_names (List.mem_zipIdx_iff_getElem?.1 hp)
    rw [if_pos (h _ _ hgave)]

/-- The latest definition of a rule, where it has only one. -/
theorem lookup_eq_some_iff (h : (ds.map Prod.fst).Nodup) {x : Definition Ctx} :
    ds.reverse.lookup id = some x ↔ (id, x) ∈ ds := by
  induction ds using List.reverseRecOn with
  | nil => simp
  | append_singleton ds p ih =>
    obtain ⟨id', x'⟩ := p
    rw [List.map_append, List.map_singleton, nodup_snoc] at h
    rw [lookup_snoc, List.mem_append, List.mem_singleton]
    by_cases heq : id = id'
    · subst heq
      have hnot : (id, x) ∉ ds := fun hmem => h.2 (List.mem_map.2 ⟨_, hmem, rfl⟩)
      simp [hnot, eq_comm]
    · simp [heq, ih h.1]

/-! ## The main result -/

/-- A grammar comes out exactly if no name is declared twice, no rule is defined twice
and every declared rule is defined. It has the declared names in their order, finds
each by the number that was given for it, and has the one body and action that were
defined under that number. Otherwise the error is the first mistake in the order of the
calls or, where there is none, the lack of a body for the first declared rule without. -/
theorem build_is_sound {cs : List (Call Ctx)} (h : Legal cs) :
    ((∃ g, (after cs).build = .ok g) ↔
      (declared cs).Nodup ∧ (defined cs).Nodup ∧
        ∀ name id, Gave cs name id → id ∈ defined cs) ∧
    (∀ g, (after cs).build = .ok g →
      g.rules.toList.map Rule.name = declared cs ∧
        (∀ name id, Gave cs name id → g.find? name = some id) ∧
        ∀ id r, g.rule? id = some r ↔
          (declared cs)[id]? = some r.name ∧ (id, r.body, r.action) ∈ definitions cs) ∧
    ∀ e, (after cs).build = .error e ↔ (firstMistake cs).or (firstUndefined cs) = some e := by
  have hnone : (firstMistake cs).or (firstUndefined cs) = none ↔
      (declared cs).Nodup ∧ (defined cs).Nodup ∧
        ∀ name id, Gave cs name id → id ∈ defined cs := by
    rw [Option.or_eq_none_iff, firstMistake_eq_none_iff h, firstUndefined_eq_none_iff,
      and_assoc]
  rcases build_after h with ⟨e, he, hbuild⟩ | ⟨hno, g, hbuild, hrules⟩
  · rw [hbuild, ← hnone, he]
    refine ⟨⟨nofun, nofun⟩, nofun, fun e' => ?_⟩
    constructor <;> (rintro ⟨⟩; rfl)
  · obtain ⟨hdeclared, hdefined, -⟩ := hnone.1 hno
    rw [hbuild, ← hnone, hno]
    refine ⟨⟨fun _ => rfl, fun _ => ⟨g, rfl⟩⟩, ?_, fun e => ⟨nofun, nofun⟩⟩
    rintro g ⟨⟩
    have hnames := names_eq_declared hdeclared
    have hrow : g.rules.toList.map Rule.name = declared cs := by
      rw [map_name_eq_ruleNames hrules, ruleNames_after, hnames]
    refine ⟨hrow, ?_, ?_⟩
    · intro name id hgave
      obtain ⟨hmem, rfl⟩ := hgave.idxOf_eq
      rw [Grammar.find?, findIdx?_name Rule.name, hrow, ← hnames, if_pos hmem]
    · intro id r
      rw [rule?_eq_some_iff hrules, ← hnames, ← ruleNames_after, getElem?_ruleNames,
        ← lookup_eq_some_iff hdefined]
      constructor
      · rintro ⟨d, hd, hfinish⟩
        obtain ⟨hname, hbody⟩ := finish_eq_ok.1 hfinish
        rw [hd, ← latest_after h id d hd]
        exact ⟨congrArg some hname, hbody⟩
      · rintro ⟨hname, hbody⟩
        obtain ⟨d, hd, hname⟩ := Option.map_eq_some_iff.1 hname
        rw [← latest_after h id d hd] at hbody
        exact ⟨d, hd, finish_eq_ok.2 ⟨hname, hbody⟩⟩

/-- Two rules that refer to each other, where the second is defined first. -/
def crossedCalls : List (Call Unit) :=
  [.declare "list", .declare "item",
    .define 1 (.choice [.rule 0, .literal "x"]) none,
    .define 0 (.sequence [.literal "(", .rule 1, .literal ")"]) none]

theorem build_is_sound_crossedCalls : Legal crossedCalls ∧
    ∃ g, (after crossedCalls).build = .ok g ∧
      g.rules.toList.map Rule.name = ["list", "item"] ∧ g.find? "item" = some 1 := by
  have hlegal : Legal crossedCalls := by
    intro i id body action hi
    rcases i with _ | _ | _ | _ | i
    · cases hi
    · cases hi
    · cases hi
      exact ⟨"item", gave_of_getElem?_names (by decide)⟩
    · cases hi
      exact ⟨"list", gave_of_getElem?_names (by decide)⟩
    · cases hi
  have hall : ∀ name id, Gave crossedCalls name id → id ∈ defined crossedCalls := by
    intro name id hgave
    have hlt := (List.getElem?_eq_some_iff.1 hgave.getElem?_names).1
    match id, hlt with
    | 0, _ => decide
    | 1, _ => decide
  obtain ⟨hok, hgrammar, -⟩ := build_is_sound hlegal
  obtain ⟨g, hg⟩ := hok.2 ⟨by decide, by decide, hall⟩
  obtain ⟨hnames, hfind, -⟩ := hgrammar g hg
  exact ⟨hlegal, g, hg, hnames, hfind _ _ (gave_of_getElem?_names (by decide))⟩

end RubyIndent.Peg.Builder
