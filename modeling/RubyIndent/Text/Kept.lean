import RubyIndent.Text.Cursor

/-!
# Kept values

A value at a place may depend on values at places further right, and on the
same ones again and again. `Cursor.keep` computes such values but keeps each
of them, so that it is computed once however often it is asked for.

Keeping values changes the work, not the result. `Cursor.fromRight` is the
recursion as it stands, and `keep_eq_fromRight` says that both agree; the
equation to compute with is `keep_eq`.
-/

namespace RubyIndent.Text

/-- Values at consecutive places, each computed when it is first asked for. -/
inductive Kept (α : Type) where
  | nil
  | cons (here : Thunk α) (right : Thunk (Kept α))

def Kept.get? {α : Type} : Nat → Kept α → Option α
  | _, nil => none
  | 0, cons here _ => some here.get
  | n + 1, cons _ right => right.get.get? n

namespace Cursor

variable {text : List Char} {α : Type}

/-- How a value at a place comes about, given the values further right. -/
abbrev Recurrence (text : List Char) (α : Type) :=
  Cursor text → (Cursor text → Option α) → Option α

/-- The values to the right of a place; there are none at other places. -/
def onlyRight (c : Cursor text) (value : Cursor text → Option α) :
    Cursor text → Option α :=
  fun d => if c.index < d.index then value d else none

theorem onlyRight_congr {c : Cursor text} {u v : Cursor text → Option α}
    (h : ∀ d, c.index < d.index → u d = v d) : c.onlyRight u = c.onlyRight v := by
  funext d
  unfold onlyRight
  split
  · exact h d (by assumption)
  · rfl

def fromRight (f : Recurrence text α) (c : Cursor text) : Option α :=
  f c fun d =>
    if h : c.index < d.index then
      have := length_rest_lt h
      fromRight f d
    else none
termination_by c.rest.length

theorem fromRight_eq (f : Recurrence text α) (c : Cursor text) :
    fromRight f c = f c (c.onlyRight (fromRight f)) := by
  rw [fromRight]
  rfl

theorem index_of_next? {c d : Cursor text} {ch : Char}
    (h : c.next? = some (ch, d)) : d.index = c.index + 1 := by
  obtain ⟨i, r, _, _⟩ := c
  cases r with
  | nil => cases h
  | cons _ _ => cases h; rfl

theorem index_eq_of_next? {c : Cursor text} (h : c.next? = none) :
    c.index = text.length := by
  have hlen := c.index_add_length_rest
  obtain ⟨i, r, _, _⟩ := c
  cases r with
  | nil => simpa using hlen
  | cons _ _ => cases h

theorem length_rest_of_next? {c d : Cursor text} {ch : Char}
    (h : c.next? = some (ch, d)) : d.rest.length < c.rest.length := by
  refine length_rest_lt ?_
  rw [index_of_next? h]
  exact Nat.lt_succ_self _

/-- The values at a place and further right, for a given number of places. -/
def kept (f : Recurrence text α) : Nat → Cursor text → Kept (Option α)
  | 0, _ => .nil
  | n + 1, c =>
    let right := Thunk.mk fun _ =>
      match c.next? with
      | none => .nil
      | some (_, d) => kept f n d
    .cons (Thunk.mk fun _ => f c (c.onlyRight fun d =>
      (right.get.get? (d.index - c.index - 1)).join)) right

def keep (f : Recurrence text α) (c : Cursor text) : Option α :=
  ((kept f (c.rest.length + 1) c).get? 0).join

/-- Every value that is kept is the one that the recursion gives. -/
theorem get?_kept (f : Recurrence text α) (n : Nat) (c d : Cursor text)
    (hn : c.rest.length < n) (h : c.index ≤ d.index) :
    (kept f n c).get? (d.index - c.index) = some (fromRight f d) := by
  induction n generalizing c d with
  | zero => cases hn
  | succ n ih =>
    have right : ∀ e : Cursor text, c.index < e.index →
        Kept.get? (e.index - c.index - 1)
          (match c.next? with
            | none => .nil
            | some (_, d) => kept f n d) = some (fromRight f e) := by
      intro e he
      cases hc : c.next? with
      | none =>
        have := index_eq_of_next? hc
        have := e.index_le
        omega
      | some p =>
        have hd := index_of_next? hc
        have hlt := length_rest_of_next? hc
        have := ih p.2 e (by omega) (by omega)
        rwa [hd, ← Nat.sub_sub] at this
    rw [kept]
    rcases Nat.lt_or_eq_of_le h with hlt | heq
    · have hright := right d hlt
      obtain ⟨m, hm⟩ : ∃ m, d.index - c.index = m + 1 :=
        ⟨d.index - c.index - 1, by omega⟩
      rw [hm] at hright ⊢
      exact hright
    · obtain rfl : c = d := ext_index heq
      rw [Nat.sub_self, fromRight_eq]
      exact congrArg (fun look => some (f c look))
        (onlyRight_congr fun e he => congrArg Option.join (right e he))

theorem keep_eq_fromRight (f : Recurrence text α) (c : Cursor text) :
    keep f c = fromRight f c := by
  have := get?_kept f (c.rest.length + 1) c c (Nat.lt_succ_self _)
    (Nat.le_refl _)
  rw [Nat.sub_self] at this
  rw [keep, this]
  rfl

/-- A value comes about from the values further right. -/
theorem keep_eq (f : Recurrence text α) (c : Cursor text) :
    keep f c = f c (c.onlyRight (keep f)) := by
  rw [keep_eq_fromRight, fromRight_eq]
  congr
  funext d
  exact (keep_eq_fromRight f d).symm

end Cursor

end RubyIndent.Text
