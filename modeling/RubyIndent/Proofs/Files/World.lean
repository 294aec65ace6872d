import Mathlib.Data.List.Basic
import RubyIndent.Files.Selection

/-!
# A world under observation

`World.answer` is what an action returns in a world, and `World.after` the world
that it leaves behind. Actions that only look around leave the world as it is
(`Looks`). Writing to a file that exists keeps the shape of the tree: the same
places are files and directories as before, and every path leads to the same
place, so all that looks around but does not read that file gets the same
answers (`SameShape`).
-/

namespace RubyIndent

/-! ## Trees of one shape -/

namespace FileTree

/-- Files and directories are at the same places; contents may differ. -/
structure SameShape (t t' : FileTree) : Prop where
  directories : t'.directories = t.directories
  files : t'.files.map Prod.fst = t.files.map Prod.fst

variable {t t' : FileTree}

theorem isSome_file? {p : Place} :
    (t.file? p).isSome ↔ p ∈ t.files.map Prod.fst := by
  unfold file?
  induction t.files with
  | nil => simp
  | cons f files ih =>
    rw [List.lookup_cons, List.map_cons, List.mem_cons]
    by_cases h : p = f.1
    · simp [h]
    · rw [beq_false_of_ne h]
      simp [h, ih]

theorem SameShape.isSome_file? (h : t.SameShape t') (p : Place) :
    (t'.file? p).isSome = (t.file? p).isSome := by
  rw [Bool.eq_iff_iff, FileTree.isSome_file?, FileTree.isSome_file?, h.files]

theorem SameShape.isDirectory (h : t.SameShape t') (p : Place) :
    t'.isDirectory p = t.isDirectory p := by
  rw [FileTree.isDirectory, FileTree.isDirectory, places, places, h.directories,
    h.files]

theorem SameShape.follow (h : t.SameShape t') (from_ : Place)
    (steps : List Path.Component) : t'.follow from_ steps = t.follow from_ steps := by
  fun_induction FileTree.follow t from_ steps <;>
    simp_all [FileTree.follow, h.isDirectory]

theorem SameShape.locate? (h : t.SameShape t') (from_ : Place) (p : Path) :
    t'.locate? from_ p = t.locate? from_ p := by
  simp only [FileTree.locate?, h.follow, h.isDirectory, h.isSome_file?]

/-! ## Writing to a file -/

theorem lookup_putFile (p q : Place) (contents : ByteArray)
    (files : List (Place × ByteArray)) :
    (putFile p contents files).lookup q
      = if q = p then some contents else files.lookup q := by
  induction files with
  | nil =>
    rw [putFile, List.lookup_cons, List.lookup_nil]
    by_cases h : q = p
    · simp [h]
    · rw [beq_false_of_ne h, if_neg h]
  | cons f files ih =>
    obtain ⟨r, old⟩ := f
    by_cases hr : r = p
    · subst hr
      rw [putFile, if_pos rfl, List.lookup_cons, List.lookup_cons]
      by_cases hq : q = r
      · simp [hq]
      · rw [beq_false_of_ne hq, if_neg hq]
    · rw [putFile, if_neg hr, List.lookup_cons, List.lookup_cons, ih]
      by_cases hq : q = r
      · subst hq
        simp [hr]
      · rw [beq_false_of_ne hq]

theorem file?_setFile (p q : Place) (contents : ByteArray) :
    (t.setFile p contents).file? q
      = if q = p then some contents else t.file? q :=
  lookup_putFile p q contents t.files

theorem map_fst_putFile {p : Place} {files : List (Place × ByteArray)}
    (h : p ∈ files.map Prod.fst) (contents : ByteArray) :
    (putFile p contents files).map Prod.fst = files.map Prod.fst := by
  induction files with
  | nil => cases h
  | cons f files ih =>
    rw [putFile]
    split
    · rfl
    · rename_i hne
      have hmem := (List.mem_cons.1 h).resolve_left fun heq => hne heq.symm
      rw [List.map_cons, List.map_cons, ih hmem]

/-- Writing to a file that is there makes no new place. -/
theorem sameShape_setFile {p : Place} (h : (t.file? p).isSome)
    (contents : ByteArray) : t.SameShape (t.setFile p contents) where
  directories := rfl
  files := map_fst_putFile (isSome_file?.1 h) contents

end FileTree

/-! ## Worlds of one shape -/

namespace World

/-- Only contents of files and what was printed may differ. -/
structure SameShape (w w' : World) : Prop where
  tree : w.tree.SameShape w'.tree
  working : w'.working = w.working
  home : w'.home = w.home
  stdin : w'.stdin = w.stdin

theorem SameShape.refl (w : World) : w.SameShape w :=
  ⟨⟨rfl, rfl⟩, rfl, rfl, rfl⟩

theorem SameShape.trans {w w' w'' : World} (h : w.SameShape w')
    (h' : w'.SameShape w'') : w.SameShape w'' where
  tree := ⟨h'.tree.directories.trans h.tree.directories,
    h'.tree.files.trans h.tree.files⟩
  working := h'.working.trans h.working
  home := h'.home.trans h.home
  stdin := h'.stdin.trans h.stdin

theorem SameShape.locate? {w w' : World} (h : w.SameShape w') (p : Path) :
    w'.locate? p = w.locate? p := by
  rw [World.locate?, World.locate?, h.working, h.tree.locate?]

theorem SameShape.isDirectory {w w' : World} (h : w.SameShape w') (p : Path) :
    (w'.locate? p).any w'.tree.isDirectory
      = (w.locate? p).any w.tree.isDirectory := by
  rw [h.locate?]
  cases w.locate? p with
  | none => rfl
  | some q => exact h.tree.isDirectory q

theorem SameShape.isSome_file? {w w' : World} (h : w.SameShape w') (p : Path) :
    (w'.file? p).isSome = (w.file? p).isSome := by
  rw [file?, file?, h.locate?]
  cases w.locate? p with
  | none => rfl
  | some q => exact h.tree.isSome_file? q

/-! ## Answers and effects -/

variable {α β : Type}

def answer (w : World) (x : StateM World α) : α :=
  (x.run w).1

def after (w : World) (x : StateM World α) : World :=
  (x.run w).2

@[simp] theorem answer_pure (w : World) (a : α) : w.answer (pure a) = a := rfl

@[simp] theorem after_pure (w : World) (a : α) : w.after (pure a) = w := rfl

@[simp] theorem answer_bind (w : World) (x : StateM World α)
    (f : α → StateM World β) :
    w.answer (x >>= f) = (w.after x).answer (f (w.answer x)) := rfl

@[simp] theorem after_bind (w : World) (x : StateM World α)
    (f : α → StateM World β) :
    w.after (x >>= f) = (w.after x).after (f (w.answer x)) := rfl

@[simp] theorem answer_isFile (w : World) (p : Path) :
    w.answer (Host.isFile p) = (w.file? p).isSome := rfl

@[simp] theorem answer_isDirectory (w : World) (p : Path) :
    w.answer (Host.isDirectory p) = (w.locate? p).any w.tree.isDirectory := rfl

@[simp] theorem answer_read? (w : World) (p : Path) :
    w.answer (Host.read? p) = w.file? p := rfl

@[simp] theorem answer_home? (w : World) : w.answer Host.home? = w.home := rfl

/-- Writing to a file that is there changes its contents and nothing else. -/
theorem after_write {w : World} {p : Path} {place : Place}
    (hplace : w.locate? p = some place) (hfile : (w.tree.file? place).isSome)
    (contents : ByteArray) : w.SameShape (w.after (Host.write p contents)) ∧
      ∀ q, (w.after (Host.write p contents)).tree.file? q
        = if q = place then some contents else w.tree.file? q := by
  have hafter : w.after (Host.write p contents) = w.put p contents := rfl
  rw [hafter, put, hplace]
  exact ⟨⟨FileTree.sameShape_setFile hfile contents, rfl, rfl, rfl⟩,
    fun q => FileTree.file?_setFile place q contents⟩

/-! ## Looking around -/

/-- An action that changes nothing. -/
def Looks (x : StateM World α) : Prop :=
  ∀ w : World, w.after x = w

theorem looks_pure (a : α) : Looks (pure a) := fun _ => rfl

theorem looks_isFile (p : Path) : Looks (Host.isFile p) := fun _ => rfl

theorem looks_isDirectory (p : Path) : Looks (Host.isDirectory p) := fun _ => rfl

theorem looks_read? (p : Path) : Looks (Host.read? p) := fun _ => rfl

theorem looks_home? : Looks Host.home? := fun _ => rfl

theorem looks_currentDirectory : Looks Host.currentDirectory := fun _ => rfl

theorem Looks.bind {x : StateM World α} {f : α → StateM World β} (hx : Looks x)
    (hf : ∀ a, Looks (f a)) : Looks (x >>= f) := by
  intro w
  rw [after_bind, hx, hf]

theorem Looks.ite {c : Prop} [Decidable c] {x y : StateM World α} (hx : Looks x)
    (hy : Looks y) : Looks (if c then x else y) := by
  split
  · exact hx
  · exact hy

theorem Looks.answer_bind {x : StateM World α} (hx : Looks x) (w : World)
    (f : α → StateM World β) : w.answer (x >>= f) = w.answer (f (w.answer x)) := by
  rw [World.answer_bind, hx]

theorem Looks.after_bind {x : StateM World α} (hx : Looks x) (w : World)
    (f : α → StateM World β) : w.after (x >>= f) = w.after (f (w.answer x)) := by
  rw [World.after_bind, hx]

theorem looks_mapM {f : α → StateM World β} (hf : ∀ a, Looks (f a))
    (l : List α) : Looks (l.mapM f) := by
  induction l with
  | nil => exact looks_pure []
  | cons a l ih =>
    rw [List.mapM_cons]
    exact (hf a).bind fun _ => ih.bind fun _ => looks_pure _

theorem answer_mapM {f : α → StateM World β} (hf : ∀ a, Looks (f a)) (w : World)
    (l : List α) : w.answer (l.mapM f) = l.map fun a => w.answer (f a) := by
  induction l with
  | nil => rfl
  | cons a l ih =>
    rw [List.mapM_cons, (hf a).answer_bind, (looks_mapM hf l).answer_bind, ih]
    rfl

theorem filterAuxM_looks {f : α → StateM World Bool} (hf : ∀ a, Looks (f a))
    (w : World) (l kept : List α) : w.after (l.filterAuxM f kept) = w ∧
      w.answer (l.filterAuxM f kept)
        = (l.filter fun a => w.answer (f a)).reverse ++ kept := by
  induction l generalizing kept with
  | nil => exact ⟨rfl, rfl⟩
  | cons a l ih =>
    rw [List.filterAuxM, (hf a).after_bind, (hf a).answer_bind, List.filter_cons]
    cases w.answer (f a) with
    | false => exact ih kept
    | true =>
      obtain ⟨hafter, hanswer⟩ := ih (a :: kept)
      refine ⟨hafter, ?_⟩
      rw [if_pos rfl, List.reverse_cons, List.append_assoc]
      exact hanswer

theorem looks_filterM {f : α → StateM World Bool} (hf : ∀ a, Looks (f a))
    (l : List α) : Looks (l.filterM f) := by
  intro w
  exact (filterAuxM_looks hf w l []).1

theorem answer_filterM {f : α → StateM World Bool} (hf : ∀ a, Looks (f a))
    (w : World) (l : List α) :
    w.answer (l.filterM f) = l.filter fun a => w.answer (f a) := by
  have hanswer := (filterAuxM_looks hf w l []).2
  rw [List.append_nil] at hanswer
  have : w.answer (l.filterM f) = (w.answer (l.filterAuxM f [])).reverse := rfl
  rw [this, hanswer, List.reverse_reverse]

/-! ## Printing -/

/-- An action that changes nothing but what was printed. -/
def Prints (x : StateM World α) : Prop :=
  ∀ w : World, w.SameShape (w.after x) ∧ (w.after x).tree = w.tree

theorem prints_putError (s : String) : Prints (Host.putError s) :=
  fun _ => ⟨⟨⟨rfl, rfl⟩, rfl, rfl, rfl⟩, rfl⟩

theorem prints_putOutput (b : ByteArray) : Prints (Host.putOutput b) :=
  fun _ => ⟨⟨⟨rfl, rfl⟩, rfl, rfl, rfl⟩, rfl⟩

theorem Looks.prints {x : StateM World α} (h : Looks x) : Prints x := by
  intro w
  rw [h w]
  exact ⟨.refl w, rfl⟩

theorem Prints.bind {x : StateM World α} {f : α → StateM World β} (hx : Prints x)
    (hf : ∀ a, Prints (f a)) : Prints (x >>= f) := by
  intro w
  obtain ⟨hshape, htree⟩ := hx w
  obtain ⟨hshape', htree'⟩ := hf (w.answer x) (w.after x)
  exact ⟨hshape.trans hshape', htree'.trans htree⟩

/-! ## Choosing files -/

end World

end RubyIndent
