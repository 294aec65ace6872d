import Mathlib.Data.List.Basic
import RubyIndent.Files.Path

/-!
# The components of paths

What a path means is read off its components, so the operations on paths are known
from what they do to these: joining a name adds a component (`components_join`), and
the paths above an absolute one have fewer and fewer (`pairwise_ancestors`), so no
two of them describe the same way.
-/

namespace RubyIndent.Path

theorem sameAs_iff {p q : Path} : p.sameAs q = true ↔ p.components = q.components :=
  decide_eq_true_iff

theorem sameAs_eq_false_iff {p q : Path} :
    p.sameAs q = false ↔ p.components ≠ q.components :=
  decide_eq_false_iff_not

theorem splitSlashes_eq (s : List Char) : splitSlashes s = s.splitOn '/' := by
  induction s with
  | nil => rfl
  | cons c s ih =>
    obtain ⟨part, parts, hparts⟩ :=
      List.exists_cons_of_ne_nil (List.splitOn_ne_nil '/' s)
    rw [splitSlashes, List.splitOn_cons_eq_if_modifyHead, ih, hparts]
    by_cases hc : c = '/'
    · simp [hc]
    · simp [hc]

/-! ## Steps -/

theorem componentsFrom_append (first : Bool) (xs ys : List String) :
    componentsFrom first (xs ++ ys)
      = componentsFrom first xs ++ componentsFrom (first && xs.isEmpty) ys := by
  induction xs generalizing first with
  | nil => simp [componentsFrom]
  | cons x xs ih =>
    rw [List.cons_append, componentsFrom, componentsFrom]
    cases component? first x with
    | none => simpa using ih false
    | some c => simpa using ih false

def IsName (s : String) : Prop :=
  s ≠ "" ∧ s ≠ "." ∧ s ≠ ".." ∧ '/' ∉ s.toList

instance (s : String) : Decidable (IsName s) :=
  inferInstanceAs (Decidable (_ ∧ _))

theorem IsName.componentsFrom {n : String} (hn : IsName n) (first : Bool) :
    componentsFrom first [n] = [.name n] := by
  obtain ⟨hempty, hdot, hup, _⟩ := hn
  simp [Path.componentsFrom, component?, hempty, hdot, hup]

/-- The steps between slashes. -/
def stepsOf (first : Bool) (s : List Char) : List Component :=
  componentsFrom first ((splitSlashes s).map String.ofList)

theorem stepsOf_slash (first : Bool) (s t : List Char) :
    stepsOf first (s ++ '/' :: t) = stepsOf first s ++ stepsOf false t := by
  have hne : ((s.splitOn '/').map String.ofList).isEmpty = false := by simp
  unfold stepsOf
  rw [splitSlashes_eq, splitSlashes_eq, splitSlashes_eq, List.splitOn_append_cons_self,
    List.map_append, componentsFrom_append, hne, Bool.and_false]

@[simp] theorem stepsOf_nil (first : Bool) : stepsOf first [] = [] :=
  rfl

theorem IsName.stepsOf {n : String} (hn : IsName n) (first : Bool) :
    stepsOf first n.toList = [.name n] := by
  have hsplit : splitSlashes n.toList = [n.toList] := by
    rw [splitSlashes_eq, List.splitOn_eq_singleton hn.2.2.2]
  rw [Path.stepsOf, hsplit, List.map_cons, List.map_nil, String.ofList_toList,
    hn.componentsFrom]

def steps : List Char → List Component
  | '/' :: s => .root :: stepsOf false s
  | s => stepsOf true s

theorem steps_relative {s : List Char} (hs : s.head? ≠ some '/') :
    steps s = stepsOf true s := by
  unfold steps
  split
  · exact absurd rfl hs
  · rfl

theorem components_eq (p : Path) : p.components = steps p.text.toList := by
  unfold components parts isAbsolute
  by_cases hp : p.text.toList.head? = some '/'
  · obtain ⟨s, hs⟩ := List.head?_eq_some_iff.1 hp
    rw [hs]
    rfl
  · rw [steps_relative hp]
    simp [hp, stepsOf]

/-- What stands behind a slash adds its steps. -/
theorem steps_slash {s : List Char} (hs : s ≠ []) (t : List Char) :
    steps (s ++ '/' :: t) = steps s ++ stepsOf false t := by
  unfold steps
  split
  · rename_i u heq
    cases s with
    | nil => exact absurd rfl hs
    | cons c s =>
      obtain ⟨rfl, rfl⟩ := List.cons.inj heq
      simp [stepsOf_slash]
  · rename_i hne
    split
    · rename_i u
      exact absurd rfl (hne (u ++ '/' :: t))
    · exact stepsOf_slash true s t

/-! ## Joining -/

/-- A name is put behind the text of a path and one slash. -/
theorem text_join (n : String) (p : Path) :
    p.text.toList = [] ∧ (p.join n).text.toList = n.toList ∨
      (∃ s, p.text.toList = s ++ ['/'] ∧
        (p.join n).text.toList = s ++ '/' :: n.toList) ∨
      p.text.toList ≠ [] ∧
        (p.join n).text.toList = p.text.toList ++ '/' :: n.toList := by
  unfold join
  split
  · rename_i h
    exact .inl ⟨List.getLast?_eq_none_iff.1 h, rfl⟩
  · rename_i h
    obtain ⟨s, hs⟩ := List.getLast?_eq_some_iff.1 h
    exact .inr (.inl ⟨s, hs, by simp [hs]⟩)
  · rename_i h
    obtain ⟨s, hs⟩ := List.getLast?_eq_some_iff.1 h
    exact .inr (.inr ⟨by simp [hs], by simp⟩)

/-- A name that is joined to a path is one more step. -/
theorem components_join {n : String} (hn : IsName n) (p : Path) :
    (p.join n).components = p.components ++ [.name n] := by
  rw [components_eq, components_eq, ← hn.stepsOf false]
  rcases text_join n p with ⟨htext, hjoin⟩ | ⟨s, htext, hjoin⟩ | ⟨htext, hjoin⟩
  · have hrelative : n.toList.head? ≠ some '/' := fun h =>
      hn.2.2.2 (List.mem_of_mem_head? h)
    rw [htext, hjoin, steps_relative hrelative, hn.stepsOf, hn.stepsOf]
    rfl
  · rw [htext, hjoin]
    cases s with
    | nil => rfl
    | cons c s =>
      rw [steps_slash (List.cons_ne_nil c s), steps_slash (List.cons_ne_nil c s),
        stepsOf_nil, List.append_nil]
  · rw [hjoin, steps_slash htext]

/-! ## The paths above -/

theorem not_mem_of_mem_splitSlashes {s part : List Char}
    (h : part ∈ splitSlashes s) : '/' ∉ part := by
  induction s generalizing part with
  | nil =>
    cases List.mem_singleton.1 h
    exact List.not_mem_nil
  | cons c s ih =>
    rw [splitSlashes] at h
    split at h
    · rcases List.mem_cons.1 h with rfl | h
      · exact List.not_mem_nil
      · exact ih h
    · rename_i hc
      split at h
      · cases List.mem_singleton.1 h
        simpa using Ne.symm hc
      · rename_i first others heq
        rw [heq] at ih
        rcases List.mem_cons.1 h with rfl | h
        · have hfirst := ih List.mem_cons_self
          simpa [Ne.symm hc] using hfirst
        · exact ih (List.mem_cons_of_mem _ h)

theorem not_slash_of_mem_parts {p : Path} {part : String} (h : part ∈ p.parts) :
    '/' ∉ part.toList := by
  obtain ⟨s, hs, rfl⟩ := List.mem_map.1 h
  rw [String.toList_ofList]
  exact not_mem_of_mem_splitSlashes hs

theorem components_of_isAbsolute {p : Path} (hp : p.isAbsolute = true) :
    p.components = .root :: componentsFrom false p.parts := by
  rw [components, if_pos hp]

theorem isAbsolute_ofReversed (reversed : List String) :
    (ofReversed true reversed).isAbsolute = true := by
  simp [ofReversed, isAbsolute]

theorem parts_ofReversed {reversed : List String} (hne : reversed ≠ [])
    (h : ∀ part ∈ reversed, '/' ∉ part.toList) :
    (ofReversed true reversed).parts = reversed.reverse := by
  have htext : (ofReversed true reversed).text.toList
      = '/' :: ['/'].intercalate (reversed.reverse.map String.toList) := by
    simp [ofReversed, String.toList_intercalate]
  have hsplit : (['/'].intercalate (reversed.reverse.map String.toList)).splitOn '/'
      = reversed.reverse.map String.toList :=
    List.splitOn_intercalate '/' (by simpa using h) (by simpa using hne)
  rw [parts, if_pos (isAbsolute_ofReversed reversed), htext, List.drop_succ_cons,
    List.drop_zero, splitSlashes_eq, hsplit, List.map_map]
  simp [Function.comp_def]

theorem components_ofReversed {reversed : List String}
    (h : ∀ part ∈ reversed, '/' ∉ part.toList) :
    (ofReversed true reversed).components
      = .root :: componentsFrom false reversed.reverse := by
  by_cases hne : reversed = []
  · subst hne
    rfl
  · rw [components_of_isAbsolute (isAbsolute_ofReversed reversed),
      parts_ofReversed hne h]

/-- One more part at the end is one more step, or none. -/
theorem componentsFrom_reverse_cons (part : String) (before : List String) :
    componentsFrom false (part :: before).reverse
      = componentsFrom false before.reverse ++ (component? false part).toList := by
  rw [List.reverse_cons, componentsFrom_append, Bool.false_and]
  congr 1
  simp only [componentsFrom]
  cases component? false part <;> rfl

theorem componentsFrom_dropIdle (reversed : List String) :
    componentsFrom false (dropIdle true reversed).reverse
      = componentsFrom false reversed.reverse := by
  induction reversed with
  | nil => rfl
  | cons part before ih =>
    rw [dropIdle]
    split
    · rfl
    · rename_i hidle
      have hnone : component? false part = none := by
        simpa [isStep] using hidle
      rw [ih, componentsFrom_reverse_cons, hnone]
      exact (List.append_nil _).symm

theorem mem_of_mem_dropIdle {absolute : Bool} {reversed : List String} {part : String}
    (h : part ∈ dropIdle absolute reversed) : part ∈ reversed := by
  induction reversed with
  | nil => exact h
  | cons part' before ih =>
    rw [dropIdle] at h
    split at h
    · exact h
    · exact List.mem_cons_of_mem _ (ih h)

/-- The paths above are absolute, and the further up they are the fewer components
they have. -/
theorem parentsFrom_shorter {reversed : List String}
    (h : ∀ part ∈ reversed, '/' ∉ part.toList) :
    (∀ q ∈ parentsFrom true reversed, q.isAbsolute = true ∧
      q.components.length ≤ (componentsFrom false reversed.reverse).length) ∧
    (parentsFrom true reversed).Pairwise
      fun p q => q.components.length < p.components.length := by
  induction reversed with
  | nil => exact ⟨nofun, .nil⟩
  | cons part before ih =>
    obtain ⟨hpart, hbefore⟩ := List.forall_mem_cons.1 h
    obtain ⟨hbound, hpairs⟩ := ih hbefore
    rw [parentsFrom, componentsFrom_reverse_cons, List.length_append]
    split
    · rename_i hstep
      have hlength : (component? false part).toList.length = 1 := by
        obtain ⟨c, hc⟩ := Option.isSome_iff_exists.1 hstep
        rw [Bool.not_true, Bool.and_false] at hc
        rw [hc]
        rfl
      have hnearest : (ofReversed true (dropIdle true before)).components
          = .root :: componentsFrom false before.reverse := by
        rw [components_ofReversed fun part hmem => hbefore part (mem_of_mem_dropIdle hmem),
          componentsFrom_dropIdle]
      refine ⟨List.forall_mem_cons.2 ⟨⟨isAbsolute_ofReversed _, ?_⟩, ?_⟩,
        List.pairwise_cons.2 ⟨?_, hpairs⟩⟩
      · exact Nat.le_of_eq (by rw [hnearest, List.length_cons, hlength])
      · intro q hq
        obtain ⟨habsolute, hle⟩ := hbound q hq
        exact ⟨habsolute, Nat.le_add_right_of_le hle⟩
      · intro q hq
        rw [hnearest, List.length_cons]
        exact Nat.lt_succ_of_le (hbound q hq).2
    · refine ⟨?_, hpairs⟩
      intro q hq
      obtain ⟨habsolute, hle⟩ := hbound q hq
      exact ⟨habsolute, Nat.le_add_right_of_le hle⟩

theorem isAbsolute_of_mem_parents {p q : Path} (hp : p.isAbsolute = true)
    (hq : q ∈ p.parents) : q.isAbsolute = true := by
  rw [parents, hp] at hq
  refine ((parentsFrom_shorter ?_).1 q hq).1
  intro part hmem
  exact not_slash_of_mem_parts (List.mem_reverse.1 hmem)

/-- An absolute path and the paths above it have fewer and fewer components. -/
theorem pairwise_ancestors {p : Path} (hp : p.isAbsolute = true) :
    p.ancestors.Pairwise fun d e => e.components.length < d.components.length := by
  have hparts : ∀ part ∈ p.parts.reverse, '/' ∉ part.toList := fun part hmem =>
    not_slash_of_mem_parts (List.mem_reverse.1 hmem)
  obtain ⟨hbound, hpairs⟩ := parentsFrom_shorter hparts
  rw [List.reverse_reverse] at hbound
  rw [ancestors, parents, hp]
  refine List.pairwise_cons.2 ⟨?_, hpairs⟩
  intro q hq
  rw [components_of_isAbsolute hp, List.length_cons]
  exact Nat.lt_succ_of_le (hbound q hq).2

end RubyIndent.Path
