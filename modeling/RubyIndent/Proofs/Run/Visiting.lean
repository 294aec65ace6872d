import RubyIndent.Proofs.Files.World
import RubyIndent.Run

/-!
# Visiting files

Visiting a file examines it and carries out the report. Examining only looks
around, and what it sees are the settings files of the path and the file itself
(`examine_eq_of_sameShape`); carrying out the report changes at most that file
(`after_perform`). So in a run over files at different places, none of them a
settings file, each is reported on as if it were alone in the world, and the run
leaves each with what its own report says (`visitAll_spec`).
-/

namespace RubyIndent

open RubyIndent.CommandLine

/-! ## Reports -/

/-- A run writes files unless it only checks, prints or shows differences. -/
def CommandLine.Options.writes (o : Options) : Bool :=
  !(o.check || o.stdout || o.diff)

section
variable {format : Formatter} {o : Options} {p : Path} {contents : ByteArray}
  {config : Config}

theorem report_of_skip {skip : Skip} (h : o.skip? contents = some skip) :
    report format o p contents config
      = { messages := o.note ("Skipping " ++ p.text ++ ": " ++ skip.message) } := by
  unfold report
  rw [h]

theorem report_of_error {e : RunError} (hskip : o.skip? contents = none)
    (h : reindentBytes format contents config p.text = .error e) :
    ∃ messages, report format o p contents config
      = { messages, error := some e } := by
  unfold report
  rw [hskip, h]
  exact ⟨_, rfl⟩

theorem report_of_ok {output : ByteArray} (hskip : o.skip? contents = none)
    (h : reindentBytes format contents config p.text = .ok output) :
    (report format o p contents config).replacement
      = (if o.writes && differ output contents then some output else none) ∧
    (report format o p contents config).changed = some (differ output contents) ∧
    (report format o p contents config).error = none := by
  unfold report
  rw [hskip, h]
  dsimp only
  -- One case for each mode, and for whether the contents change.
  split
  · split <;> simp_all [Options.writes]
  · split
    · simp_all [Options.writes]
    · split
      · simp_all [Options.writes]
      · split <;> simp_all [Options.writes]

end

namespace World

/-! ## Looking for a configuration -/

theorem looks_searchStart (p : Path) : Looks (Settings.searchStart p) := by
  refine (looks_isFile p).bind fun _ => Looks.ite (looks_pure _) ?_
  exact (looks_isDirectory p).bind fun _ =>
    Looks.ite (looks_pure _) looks_currentDirectory

theorem looks_discover (p : Path) : Looks (Settings.discover p) := by
  refine (looks_searchStart p).bind fun _ => looks_home?.bind fun _ => ?_
  exact (looks_filterM looks_isFile _).bind fun _ => looks_pure _

theorem looks_load (p : Path) : Looks (Settings.load p) :=
  (looks_read? p).bind fun _ => looks_pure _

theorem looks_discovered (p : Path) : Looks (Config.discovered p) :=
  (looks_discover p).bind fun _ =>
    (looks_mapM looks_load _).bind fun _ => looks_pure _

theorem looks_configFor (o : Options) (p : Path) : Looks (configFor o p) := by
  unfold configFor
  split
  · refine ((looks_load _).bind fun _ => looks_pure _).bind fun r => ?_
    cases r <;> exact looks_pure _
  · exact (looks_discovered p).bind fun _ => looks_pure _

theorem answer_searchStart (w : World) (p : Path) :
    w.answer (Settings.searchStart p)
      = if (w.file? p).isSome then p.parent?.getD p
        else if (w.locate? p).any w.tree.isDirectory then p
        else ⟨"/" ++ "/".intercalate w.working⟩ := by
  rw [Settings.searchStart, (looks_isFile p).answer_bind, answer_isFile]
  split
  · rfl
  · rw [(looks_isDirectory p).answer_bind, answer_isDirectory]
    split <;> rfl

theorem answer_discover (w : World) (p : Path) : w.answer (Settings.discover p)
    = ((Settings.candidates w.home (w.answer (Settings.searchStart p))).filter
        fun q => (w.file? q).isSome).foldl Settings.addNew [] := by
  rw [Settings.discover, (looks_searchStart p).answer_bind,
    looks_home?.answer_bind, (looks_filterM looks_isFile _).answer_bind,
    answer_filterM looks_isFile, answer_pure]
  rfl

theorem answer_discovered (w : World) (p : Path) : w.answer (Config.discovered p)
    = ((w.answer (Settings.discover p)).map fun q =>
        Settings.ofContents q (w.file? q)).foldl
      (fun config result =>
        match result with
        | .ok s => s.applyTo config
        | .error _ => config) {} := by
  rw [Config.discovered, (looks_discover p).answer_bind,
    (looks_mapM looks_load _).answer_bind, answer_mapM looks_load]
  rfl

theorem answer_configFor {o : Options} (hnone : o.config = none) (w : World)
    (p : Path) : w.answer (configFor o p)
      = o.configure (w.answer (Config.discovered p)) := by
  unfold configFor
  rw [hnone]
  exact (looks_discovered p).answer_bind w _

section
variable {w w' : World} (h : w.SameShape w')
include h

theorem SameShape.searchStart (p : Path) :
    w'.answer (Settings.searchStart p) = w.answer (Settings.searchStart p) := by
  rw [answer_searchStart, answer_searchStart, h.isSome_file?, h.isDirectory,
    h.working]

theorem SameShape.discover (p : Path) :
    w'.answer (Settings.discover p) = w.answer (Settings.discover p) := by
  simp only [answer_discover, h.home, h.searchStart, h.isSome_file?]

/-- The configuration of a path depends on the settings files around it. -/
theorem SameShape.configFor {o : Options} (hnone : o.config = none) {p : Path}
    (hsettings : ∀ q ∈ w.answer (Settings.discover p), w'.file? q = w.file? q) :
    w'.answer (configFor o p) = w.answer (configFor o p) := by
  rw [answer_configFor hnone, answer_configFor hnone, answer_discovered,
    answer_discovered, h.discover,
    List.map_congr_left fun q hq => by rw [hsettings q hq]]

end

/-! ## Examining a file -/

/-- The configuration for a path: the shared one, or one of its own. -/
def configOf (w : World) (o : Options) (shared : Option Config) (p : Path) :
    Except RunError Config :=
  match shared with
  | some config => .ok config
  | none => w.answer (configFor o p)

def reportOn (w : World) (format : Formatter) (o : Options)
    (shared : Option Config) (p : Path) (contents : ByteArray) : Report :=
  match w.configOf o shared p with
  | .error e => { error := some e }
  | .ok config => report format o p contents config

variable {format : Formatter} {o : Options} {shared : Option Config}

theorem looks_examineUnder (p : Path) (config : Except RunError Config) :
    Looks (examineUnder format o p config) := by
  cases config with
  | error e => exact looks_pure _
  | ok config =>
    refine (looks_read? p).bind fun contents => ?_
    cases contents <;> exact looks_pure _

theorem looks_examine (p : Path) : Looks (examine format o shared p) := by
  cases shared with
  | some config => exact looks_examineUnder p (.ok config)
  | none => exact (looks_configFor o p).bind (looks_examineUnder p)

theorem answer_examine {w : World} {p : Path} {contents : ByteArray}
    (h : w.file? p = some contents) :
    w.answer (examine format o shared p) = w.reportOn format o shared p contents := by
  have hunder : w.answer (examine format o shared p)
      = w.answer (examineUnder format o p (w.configOf o shared p)) := by
    cases shared with
    | some config => rfl
    | none => exact (looks_configFor o p).answer_bind w _
  rw [hunder, reportOn]
  cases w.configOf o shared p with
  | error e => rfl
  | ok config =>
    rw [examineUnder, (looks_read? p).answer_bind, answer_read?, h]
    rfl

/-! ## Carrying a report out -/

theorem prints_complain (o : Options) (p : Path) (r : Report) :
    Prints (complain o p r) := by
  unfold complain
  split
  · split
    · exact prints_putError _
    · exact (looks_pure ()).prints
  · exact (looks_pure ()).prints

/-- Carrying out a report changes at most the file that it is about. -/
theorem after_perform {w : World} {p : Path} {place : Place}
    (hplace : w.locate? p = some place) (hfile : (w.tree.file? place).isSome)
    (o : Options) (r : Report) : w.SameShape (w.after (perform o p r)) ∧
      ∀ q, (w.after (perform o p r)).tree.file? q
        = if q = place then r.replacement.or (w.tree.file? q)
          else w.tree.file? q := by
  have hprinted := (prints_putError r.messages).bind
    (fun _ => prints_putOutput r.output) w
  unfold perform
  rw [after_bind] at hprinted
  rw [after_bind, after_bind]
  generalize (w.after (Host.putError r.messages)).after (Host.putOutput r.output)
    = v at hprinted ⊢
  obtain ⟨hshape, htree⟩ := hprinted
  cases r.replacement with
  | none =>
    obtain ⟨hshape', htree'⟩ := prints_complain o p r v
    refine ⟨hshape.trans hshape', fun q => ?_⟩
    rw [← htree, Option.none_or, ite_self]
    exact congrArg (FileTree.file? · q) htree'
  | some contents =>
    obtain ⟨hwritten, hfiles⟩ := after_write ((hshape.locate? p).trans hplace)
      (htree.symm ▸ hfile) contents
    obtain ⟨hshape', htree'⟩ :=
      prints_complain o p r (v.after (Host.write p contents))
    refine ⟨hshape.trans (hwritten.trans hshape'), fun q => ?_⟩
    rw [← htree, Option.some_or, ← hfiles q]
    exact congrArg (FileTree.file? · q) htree'

/-! ## One visit -/

def reportFor (w : World) (format : Formatter) (o : Options)
    (shared : Option Config) (p : Path) : Report :=
  w.answer (examine format o shared p)

/-- A visit carries out the report on the file. -/
theorem after_visit (w : World) (p : Path) (t : Tally) :
    w.after (visit format o shared t p)
      = w.after (perform o p (w.reportFor format o shared p)) := by
  unfold visit
  rw [(looks_examine p).after_bind, ← reportFor, after_bind]
  cases (w.reportFor format o shared p).fault? <;> rfl

theorem exists_place {w : World} {p : Path} (h : (w.file? p).isSome) :
    ∃ place, w.locate? p = some place ∧ (w.tree.file? place).isSome := by
  rw [file?] at h
  cases hplace : w.locate? p with
  | none =>
    rw [hplace] at h
    cases h
  | some place =>
    rw [hplace] at h
    exact ⟨place, rfl, h⟩

theorem file?_of_locate? {w : World} {p : Path} {place : Place}
    (h : w.locate? p = some place) : w.file? p = w.tree.file? place := by
  rw [file?, h, Option.bind_some]

/-- To the files given, one world looks like another: they have the same contents
in both, and so have the settings files that are read for them. -/
structure Alike (w v : World) (shared : Option Config) (files : List Path) :
    Prop where
  shape : w.SameShape v
  file : ∀ p ∈ files, v.file? p = w.file? p
  settings : shared = none → ∀ p ∈ files, ∀ q ∈ w.answer (Settings.discover p),
    v.file? q = w.file? q

/-- What a run may rely on: each file is there, no two files are at one place, and
none is a settings file that is read for one of them. -/
structure Apart (w : World) (o : Options) (shared : Option Config)
    (files : List Path) : Prop where
  there : ∀ p ∈ files, (w.file? p).isSome
  distinct : (files.map w.locate?).Nodup
  /-- Without a shared configuration each file has its own. -/
  own : shared = none → o.config = none
  settings : shared = none → ∀ p ∈ files, ∀ q ∈ w.answer (Settings.discover p),
    ∀ p' ∈ files, w.locate? q ≠ w.locate? p'

theorem Apart.tail {w : World} {p : Path} {files : List Path}
    (h : w.Apart o shared (p :: files)) : w.Apart o shared files where
  there q hq := h.there q (List.mem_cons_of_mem p hq)
  distinct := (List.nodup_cons.1 h.distinct).2
  own := h.own
  settings hnone q hq s hs q' hq' := h.settings hnone q (List.mem_cons_of_mem p hq)
    s hs q' (List.mem_cons_of_mem p hq')

/-- Reports depend on what the files look like. -/
theorem Alike.reportFor {w v : World} {files : List Path}
    (h : w.Alike v shared files) (hapart : w.Apart o shared files) {p : Path}
    (hp : p ∈ files) :
    v.reportFor format o shared p = w.reportFor format o shared p := by
  obtain ⟨contents, hcontents⟩ := Option.isSome_iff_exists.1 (hapart.there p hp)
  have hconfig : v.configOf o shared p = w.configOf o shared p := by
    cases hshared : shared with
    | some config => rfl
    | none => exact h.shape.configFor (hapart.own hshared) (h.settings hshared p hp)
  rw [World.reportFor, World.reportFor, answer_examine hcontents,
    answer_examine ((h.file p hp).trans hcontents), reportOn, reportOn, hconfig]

/-- A change at the place of one file is not seen by the others. -/
theorem Alike.tail {w v v' : World} {p : Path} {files : List Path}
    (h : w.Alike v shared (p :: files)) (hapart : w.Apart o shared (p :: files))
    (hshape : v.SameShape v') (hothers : ∀ place, w.locate? p ≠ some place →
      v'.tree.file? place = v.tree.file? place) : w.Alike v' shared files := by
  have hkeeps : ∀ q, w.locate? q ≠ w.locate? p → v'.file? q = v.file? q := by
    intro q hq
    rw [file?, file?, hshape.locate?]
    cases hplace : v.locate? q with
    | none => rfl
    | some place =>
      refine hothers place fun heq => hq ?_
      rw [heq, ← hplace, h.shape.locate?]
  have hnew := (List.nodup_cons.1 hapart.distinct).1
  refine ⟨h.shape.trans hshape, fun q hq => ?_, fun hnone q hq s hs => ?_⟩
  · have hne : w.locate? q ≠ w.locate? p := fun heq =>
      hnew (heq ▸ List.mem_map_of_mem hq)
    exact (hkeeps q hne).trans (h.file q (List.mem_cons_of_mem p hq))
  · have hne := hapart.settings hnone q (List.mem_cons_of_mem p hq) s hs p
      List.mem_cons_self
    exact (hkeeps s hne).trans
      (h.settings hnone q (List.mem_cons_of_mem p hq) s hs)

end World

end RubyIndent
