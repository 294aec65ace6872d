import Mathlib.Data.List.Induction
import RubyIndent.Proofs.Files.Paths
import RubyIndent.Proofs.Run.Visiting

/-!
# Which settings win

The settings files around a path are applied one after the other, so for every key
the last one that sets it decides (`foldl_applyTo`). They are listed from the home
directory and from the root down to the path, and a file that is met again is not
listed again (`answer_discover_eq`). Nearer files win thereby, with one exception: if
the home directory is itself above the path, its files keep the first place, and those
of the directories above it are stronger.
-/

namespace RubyIndent

/-! ## What a file says -/

namespace Settings

/-- The indentation that settings ask for. A unit is stronger than tabs, and tabs are
stronger than a width. -/
def unit? (s : Settings) : Option String :=
  s.indentUnit.or (if s.tabs = some true then some "\t"
    else s.indent.map fun width => String.ofList (List.replicate width ' '))

theorem applyTo_eq (s : Settings) (c : Config) : s.applyTo c
    = { indentUnit := s.unit?.getD c.indentUnit
        imposeIndent := s.imposeIndent.getD c.imposeIndent } := by
  obtain ⟨indent, tabs, unit, impose⟩ := s
  cases indent <;> cases unit <;> cases impose <;> by_cases htabs : tabs = some true <;>
    simp [applyTo, unit?, htabs, Config.withWidth, Config.withTabs, Config.withUnit,
      Config.withImposeIndent]

/-- The settings files of a directory, the stronger one first. -/
def filesIn (d : Path) : List Path :=
  [d.join ".rbeautify.toml", d.join "rbeautify.toml"]

theorem isName_of_mem_fileNames {n : String} (h : n ∈ fileNames) : Path.IsName n := by
  revert n
  decide

/-! ## Paths that are there already -/

/-- No path is added twice. -/
theorem pairwise_foldl_addNew {found : List Path} (files : List Path)
    (h : found.Pairwise fun p q => p.sameAs q = false) :
    (files.foldl addNew found).Pairwise fun p q => p.sameAs q = false := by
  induction files generalizing found with
  | nil => exact h
  | cons p files ih =>
    refine ih ?_
    unfold addNew
    split
    · exact h
    · rename_i hnew
      refine List.pairwise_append.2 ⟨h, List.pairwise_singleton _ _, ?_⟩
      intro q hq r hr
      cases List.mem_singleton.1 hr
      refine Path.sameAs_eq_false_iff.2 ?_
      intro heq
      exact hnew (List.any_eq_true.2 ⟨q, hq, Path.sameAs_iff.2 heq.symm⟩)

/-- Of paths that differ, those are added that are not there. -/
theorem foldl_addNew {files : List Path}
    (h : files.Pairwise fun p q => p.sameAs q = false) (found : List Path) :
    files.foldl addNew found
      = found ++ files.filter fun p => !found.any p.sameAs := by
  induction files generalizing found with
  | nil => simp
  | cons p files ih =>
    obtain ⟨hp, hfiles⟩ := List.pairwise_cons.1 h
    rw [List.foldl_cons, ih hfiles, addNew]
    cases hany : found.any p.sameAs with
    | true => simp [hany]
    | false =>
      have hsame : ∀ q ∈ files, (!(found ++ [p]).any q.sameAs)
          = !found.any q.sameAs := by
        intro q hq
        have hqp : q.sameAs p = false :=
          Path.sameAs_eq_false_iff.2 (Path.sameAs_eq_false_iff.1 (hp q hq)).symm
        simp [hqp]
      rw [if_neg Bool.false_ne_true, List.filter_congr hsame, List.filter_cons, hany]
      simp

end Settings

namespace World

open Settings

variable {α : Type}

/-- What a file says about a key. A file that cannot be used says nothing. -/
def settingAt (w : World) (key : Settings → Option α) (q : Path) : Option α :=
  (Settings.ofContents q (w.file? q)).toOption.bind key

/-- What the settings files of some directories say about a key, where the first
directory is the strongest. -/
def setting (w : World) (key : Settings → Option α) (dirs : List Path) : Option α :=
  (dirs.flatMap filesIn).findSome? (w.settingAt key)

/-- The configuration that the settings files of some directories give, where the
first directory is the strongest. -/
def configIn (w : World) (dirs : List Path) : Config where
  indentUnit := (w.setting Settings.unit? dirs).getD "  "
  imposeIndent := (w.setting Settings.imposeIndent dirs).getD true

theorem setting_append (w : World) (key : Settings → Option α) (ds es : List Path) :
    w.setting key (ds ++ es) = (w.setting key ds).or (w.setting key es) := by
  rw [setting, List.flatMap_append, List.findSome?_append]
  rfl

/-! ## Files one after the other -/

/-- For every key the last file that sets it decides. -/
theorem foldl_applyTo (w : World) (files : List Path) :
    ((files.map fun q => Settings.ofContents q (w.file? q)).foldl
      (fun config result =>
        match result with
        | .ok s => s.applyTo config
        | .error _ => config) ({} : Config))
      = { indentUnit := (files.reverse.findSome? (w.settingAt Settings.unit?)).getD "  "
          imposeIndent :=
            (files.reverse.findSome? (w.settingAt Settings.imposeIndent)).getD true } := by
  induction files using List.reverseRecOn with
  | nil => rfl
  | append_singleton files q ih =>
    rw [List.map_append, List.foldl_append, ih, List.reverse_append]
    simp only [List.map_cons, List.map_nil, List.foldl_cons, List.foldl_nil,
      List.reverse_singleton, List.singleton_append, List.findSome?_cons, settingAt]
    cases Settings.ofContents q (w.file? q) with
    | error e => rfl
    | ok s =>
      dsimp only
      rw [applyTo_eq]
      cases hunit : s.unit? <;> cases himpose : s.imposeIndent <;>
        simp [Except.toOption, hunit, himpose]

/-- Files that are not there say nothing. -/
theorem findSome?_filter_isFile (w : World) (key : Settings → Option α)
    (files : List Path) :
    (files.filter fun q => (w.file? q).isSome).findSome? (w.settingAt key)
      = files.findSome? (w.settingAt key) := by
  induction files with
  | nil => rfl
  | cons q files ih =>
    rw [List.filter_cons]
    cases hq : w.file? q with
    | none =>
      have hnone : w.settingAt key q = none := by
        rw [settingAt, hq]
        rfl
      rw [List.findSome?_cons, hnone]
      exact ih
    | some contents =>
      simp only [Option.isSome_some, if_true]
      rw [List.findSome?_cons, List.findSome?_cons, ih]

/-! ## Directories that are met twice -/

section

variable {w : World} {d e : Path} {n m : String}

theorem sameAs_join_iff (hn : n ∈ fileNames) (hm : m ∈ fileNames) :
    (d.join n).sameAs (e.join m) = true ↔ d.sameAs e = true ∧ n = m := by
  rw [Path.sameAs_iff, Path.sameAs_iff,
    Path.components_join (isName_of_mem_fileNames hn),
    Path.components_join (isName_of_mem_fileNames hm), List.append_singleton_inj,
    Path.Component.name.injEq]

/-- Where a settings file is, is known from the components of its path. -/
theorem locate?_join (hn : n ∈ fileNames) (d : Path) : w.locate? (d.join n)
    = (w.tree.follow w.working (d.join n).components).filter fun q =>
        w.tree.isDirectory q || (w.tree.file? q).isSome := by
  obtain ⟨s, hs⟩ : ∃ s, (d.join n).text.toList = s ++ n.toList := by
    rcases Path.text_join n d with ⟨_, h⟩ | ⟨s, _, h⟩ | ⟨_, h⟩
    · exact ⟨[], h⟩
    · exact ⟨s ++ ['/'], by simp [h]⟩
    · exact ⟨d.text.toList ++ ['/'], by simp [h]⟩
  have hlast : ∃ r, (d.join n).text.toList.reverse = 'l' :: r := by
    simp only [fileNames, List.mem_cons, List.not_mem_nil, or_false] at hn
    rcases hn with rfl | rfl
    · exact ⟨_, by rw [hs, List.reverse_append]; rfl⟩
    · exact ⟨_, by rw [hs, List.reverse_append]; rfl⟩
  obtain ⟨r, hr⟩ := hlast
  have hfile : (d.join n).endsAsDirectory = false := by
    rw [Path.endsAsDirectory, hr]
    rfl
  have htext : (d.join n).text ≠ "" := by
    intro heq
    rw [heq] at hr
    cases hr
  rw [locate?, FileTree.locate?, if_neg htext, hfile]
  simp

theorem file?_join (hn : n ∈ fileNames) (h : d.sameAs e = true) :
    w.file? (d.join n) = w.file? (e.join n) := by
  have hsame := Path.sameAs_iff.1 ((sameAs_join_iff hn hn).2 ⟨h, rfl⟩)
  rw [file?, file?, locate?_join hn, locate?_join hn, hsame]

/-- Directories that describe the same way have the same settings. -/
theorem setting_congr (h : d.sameAs e = true) (key : Settings → Option α) :
    w.setting key [d] = w.setting key [e] := by
  have settled : ∀ n ∈ fileNames,
      w.settingAt key (d.join n) = w.settingAt key (e.join n) := by
    intro n hn
    rw [settingAt, settingAt, file?_join hn h]
    unfold Settings.ofContents
    cases (w.file? (e.join n)).bind String.fromUTF8? with
    | none => rfl
    | some source =>
      dsimp only
      cases (Toml.parse? source).bind Settings.ofEntries? with
      | none => rfl
      | some s => rfl
  simp only [setting, filesIn, List.flatMap_cons, List.flatMap_nil, List.append_nil,
    List.findSome?_cons, List.findSome?_nil, settled "rbeautify.toml" (by decide),
    settled ".rbeautify.toml" (by decide)]

end

/-! ## The files that are there -/

def settingsIn (w : World) (dirs : List Path) : List Path :=
  (dirs.flatMap fun d => fileNames.map d.join).filter fun q => (w.file? q).isSome

section

variable {w : World} {dirs : List Path}

theorem mem_settingsIn {q : Path} : q ∈ w.settingsIn dirs ↔
    ∃ d ∈ dirs, ∃ n ∈ fileNames, d.join n = q ∧ (w.file? (d.join n)).isSome := by
  simp only [settingsIn, List.mem_filter, List.mem_flatMap, List.mem_map]
  constructor
  · rintro ⟨⟨d, hd, n, hn, rfl⟩, hfile⟩
    exact ⟨d, hd, n, hn, rfl, hfile⟩
  · rintro ⟨d, hd, n, hn, rfl, hfile⟩
    exact ⟨⟨d, hd, n, hn, rfl⟩, hfile⟩

theorem settingsIn_append (w : World) (ds es : List Path) :
    w.settingsIn (ds ++ es) = w.settingsIn ds ++ w.settingsIn es := by
  rw [settingsIn, List.flatMap_append, List.filter_append]
  rfl

/-- The settings files of directories that differ are different. -/
theorem pairwise_settingsIn (h : dirs.Pairwise fun d e => d.sameAs e = false) :
    (w.settingsIn dirs).Pairwise fun p q => p.sameAs q = false := by
  refine (List.pairwise_flatMap.2 ⟨?_, h.imp ?_⟩).filter _
  · intro d _
    refine List.pairwise_map.2 (List.Pairwise.imp_of_mem ?_
      (show fileNames.Pairwise (· ≠ ·) by decide))
    intro n m hn hm hne
    exact Bool.eq_false_iff.2 fun hsame => hne ((sameAs_join_iff hn hm).1 hsame).2
  · intro d e hde p hp q hq
    obtain ⟨n, hn, rfl⟩ := List.mem_map.1 hp
    obtain ⟨m, hm, rfl⟩ := List.mem_map.1 hq
    exact Bool.eq_false_iff.2 fun hsame =>
      Bool.eq_false_iff.1 hde ((sameAs_join_iff hn hm).1 hsame).1

/-- A file was listed before if its directory was. -/
theorem any_settingsIn {d : Path} {n : String} (hn : n ∈ fileNames)
    (hfile : (w.file? (d.join n)).isSome = true) :
    (w.settingsIn dirs).any (d.join n).sameAs = dirs.any d.sameAs := by
  rw [Bool.eq_iff_iff, List.any_eq_true, List.any_eq_true]
  constructor
  · rintro ⟨q, hq, hsame⟩
    obtain ⟨e, he, m, hm, rfl, _⟩ := mem_settingsIn.1 hq
    exact ⟨e, he, ((sameAs_join_iff hn hm).1 hsame).1⟩
  · rintro ⟨e, he, hsame⟩
    rw [file?_join hn hsame] at hfile
    exact ⟨e.join n, mem_settingsIn.2 ⟨e, he, n, hn, rfl, hfile⟩,
      (sameAs_join_iff hn hn).2 ⟨hsame, rfl⟩⟩

theorem filter_settingsIn (w : World) (dirs before : List Path) :
    ((w.settingsIn dirs).filter fun q => !(w.settingsIn before).any q.sameAs)
      = w.settingsIn (dirs.filter fun d => !before.any d.sameAs) := by
  induction dirs with
  | nil => rfl
  | cons d dirs ih =>
    have hkeep : ∀ q ∈ w.settingsIn [d],
        (!(w.settingsIn before).any q.sameAs) = !before.any d.sameAs := by
      intro q hq
      obtain ⟨e, he, n, hn, rfl, hfile⟩ := mem_settingsIn.1 hq
      cases List.mem_singleton.1 he
      rw [any_settingsIn hn hfile]
    rw [← List.singleton_append, settingsIn_append, List.filter_append, ih,
      List.filter_congr hkeep, List.filter_append, settingsIn_append]
    congr 1
    cases hd : before.any d.sameAs with
    | true => simp [settingsIn, hd]
    | false => simp [hd]

/-- Of the files in a list the last that sets a key decides, so the directories are
asked from the last to the first. -/
theorem findSome?_settingsIn (w : World) (key : Settings → Option α)
    (dirs : List Path) :
    (w.settingsIn dirs).reverse.findSome? (w.settingAt key)
      = w.setting key dirs.reverse := by
  rw [settingsIn, ← List.filter_reverse, findSome?_filter_isFile,
    List.reverse_flatMap]
  rfl

end

/-! ## Around a path -/

/-- The directories whose settings are nearest to a path, from the one where the search
starts up to the root. -/
def chain (w : World) (p : Path) : List Path :=
  (w.answer (Settings.searchStart p)).ancestors

section

variable {w : World} {p : Path} (hp : p.isAbsolute = true)
include hp

theorem isAbsolute_searchStart :
    (w.answer (Settings.searchStart p)).isAbsolute = true := by
  rw [answer_searchStart]
  split
  · rw [Path.parent?]
    cases hparents : p.parents with
    | nil => exact hp
    | cons q above =>
      exact Path.isAbsolute_of_mem_parents hp (by simp [hparents])
  · split
    · exact hp
    · simp [Path.isAbsolute]

/-- No directory is met twice on the way up. -/
theorem pairwise_chain : (w.chain p).Pairwise fun d e => d.sameAs e = false := by
  refine (Path.pairwise_ancestors (isAbsolute_searchStart hp)).imp ?_
  intro d e hlt
  refine Path.sameAs_eq_false_iff.2 ?_
  intro heq
  exact absurd (congrArg List.length heq) (Nat.ne_of_gt hlt)

/-- The home directory comes first, and on the way down to the path it is left out. -/
theorem answer_discover_eq : w.answer (Settings.discover p)
    = w.settingsIn (w.home.toList
        ++ (w.chain p).reverse.filter fun d => !w.home.toList.any d.sameAs) := by
  have hhome : w.home.toList.Pairwise fun d e => d.sameAs e = false := by
    cases w.home with
    | none => exact .nil
    | some h => exact List.pairwise_singleton _ h
  have hdown : (w.chain p).reverse.Pairwise fun d e => d.sameAs e = false := by
    refine List.pairwise_reverse.2 ((pairwise_chain hp).imp ?_)
    intro d e hde
    exact Path.sameAs_eq_false_iff.2 (Path.sameAs_eq_false_iff.1 hde).symm
  have hfiles : (Settings.candidates w.home (w.answer (Settings.searchStart p))).filter
      (fun q => (w.file? q).isSome)
        = w.settingsIn w.home.toList ++ w.settingsIn (w.chain p).reverse :=
    settingsIn_append w _ _
  rw [answer_discover, hfiles, List.foldl_append,
    foldl_addNew (pairwise_settingsIn hhome), foldl_addNew (pairwise_settingsIn hdown),
    settingsIn_append, ← filter_settingsIn]
  simp

/-- The configuration is that of the directories on the way up except for the home
directory, which comes last. -/
theorem answer_discovered_eq : w.answer (Config.discovered p)
    = w.configIn ((w.chain p).filter (fun d => !w.home.toList.any d.sameAs)
        ++ w.home.toList) := by
  have hhome : w.home.toList.reverse = w.home.toList := by
    cases w.home <;> rfl
  rw [answer_discovered, answer_discover_eq hp]
  refine (foldl_applyTo w _).trans ?_
  rw [findSome?_settingsIn, findSome?_settingsIn, List.reverse_append,
    List.filter_reverse, List.reverse_reverse, hhome]
  rfl

end

/-! ## The nearest file -/

/-- Of what is said about a key in a directory, below it and above it, it makes no
difference whether the directory or what is above it comes first: something below
decides, or one of the two says nothing, or both say the same. -/
def Undisputed (w : World) (key : Settings → Option α) (below : List Path) (d : Path)
    (above : List Path) : Prop :=
  (w.setting key below).isSome ∨ w.setting key [d] = none ∨
    w.setting key above = none ∨ w.setting key [d] = w.setting key above

/-- A directory may move behind those above it where it is undisputed. -/
theorem getD_setting_eq_iff {w : World} {key : Settings → Option α} {d h : Path}
    (hd : d.sameAs h = true) (below above : List Path) (default : α) :
    (w.setting key (below ++ above ++ [h])).getD default
        = (w.setting key (below ++ d :: above ++ [h])).getD default
      ↔ w.Undisputed key below h above := by
  have hsplit : d :: above = [d] ++ above := rfl
  rw [hsplit, setting_append, setting_append, setting_append, setting_append,
    setting_append, setting_congr hd, Undisputed]
  cases w.setting key below <;> cases w.setting key above <;>
    cases w.setting key [h] <;> simp [eq_comm]

theorem filter_sameAs {below above : List Path} {d h : Path} (hd : d.sameAs h = true)
    (hpairs : (below ++ d :: above).Pairwise fun d e => d.sameAs e = false) :
    ((below ++ d :: above).filter fun e => !([h].any e.sameAs)) = below ++ above := by
  have hkeep : ∀ e, d.sameAs e = false ∨ e.sameAs d = false →
      (!([h].any e.sameAs)) = true := by
    intro e he
    simp only [List.any_cons, List.any_nil, Bool.or_false, Bool.not_eq_true',
      Path.sameAs_eq_false_iff, ← Path.sameAs_iff.1 hd] at he ⊢
    rcases he with he | he
    · exact he.symm
    · exact he
  obtain ⟨_, hbelow, hcross⟩ := List.pairwise_append.1 hpairs
  obtain ⟨habove, _⟩ := List.pairwise_cons.1 hbelow
  rw [List.filter_append, List.filter_cons_of_neg (by simp [hd]),
    List.filter_eq_self.2 fun e he => hkeep e (.inr (hcross e he d List.mem_cons_self)),
    List.filter_eq_self.2 fun e he => hkeep e (.inl (habove e he))]

/-- For a path that starts at the root no settings file is listed twice, and the
configuration is that of the nearest files unless the home directory is above the path
and its files are disputed: those of the directories above it are stronger. -/
theorem discovered_nearest_iff (w : World) {p : Path} (hp : p.isAbsolute = true) :
    (w.answer (Settings.discover p)).Pairwise (fun q r => q.sameAs r = false) ∧
    w.answer (Config.discovered p)
      = w.configIn ((w.chain p).filter (fun d => !w.home.toList.any d.sameAs)
          ++ w.home.toList) ∧
    (w.answer (Config.discovered p) = w.configIn (w.chain p ++ w.home.toList) ↔
      ∀ h ∈ w.home, ∀ below d above, w.chain p = below ++ d :: above →
        d.sameAs h = true → w.Undisputed Settings.unit? below h above ∧
          w.Undisputed Settings.imposeIndent below h above) := by
  have hconfig := answer_discovered_eq (w := w) hp
  have hpairs := pairwise_chain (w := w) hp
  refine ⟨?_, hconfig, ?_⟩
  · rw [answer_discover]
    exact pairwise_foldl_addNew _ .nil
  rw [hconfig]
  cases hhome : w.home with
  | none => simp
  | some h =>
    have moved : ∀ below d above, w.chain p = below ++ d :: above →
        d.sameAs h = true →
        (w.configIn ((w.chain p).filter (fun e => !([h].any e.sameAs)) ++ [h])
            = w.configIn (w.chain p ++ [h])
          ↔ w.Undisputed Settings.unit? below h above ∧
            w.Undisputed Settings.imposeIndent below h above) := by
      intro below d above hchain hd
      rw [hchain] at hpairs ⊢
      rw [filter_sameAs hd hpairs, configIn, configIn, Config.mk.injEq,
        getD_setting_eq_iff hd, getD_setting_eq_iff hd]
    simp only [Option.toList_some, Option.mem_some]
    constructor
    · rintro hsame _ rfl below d above hchain hd
      exact (moved below d above hchain hd).1 hsame
    · intro hundisputed
      by_cases hon : ∃ d ∈ w.chain p, d.sameAs h = true
      · obtain ⟨d, hmem, hd⟩ := hon
        obtain ⟨below, above, hchain⟩ := List.append_of_mem hmem
        exact (moved below d above hchain hd).2
          (hundisputed h rfl below d above hchain hd)
      · have hoff : ((w.chain p).filter fun e => !([h].any e.sameAs)) = w.chain p := by
          refine List.filter_eq_self.2 ?_
          intro e he
          simpa using fun hsame => hon ⟨e, he, hsame⟩
        rw [hoff]

def threeSettings : World where
  tree := { files := [(["rbeautify.toml"], "indent = 4\nimpose_indent = false\n".toUTF8),
    (["home", "rbeautify.toml"], "indent = 3\n".toUTF8),
    (["lib", ".rbeautify.toml"], "tabs = true\n".toUTF8)] }
  working := ["work"]
  home := some ⟨"/home"⟩

/-- The home directory is not above the project. -/
theorem discovered_nearest_iff_lib :
    (⟨"/lib"⟩ : Path).isAbsolute = true ∧
    threeSettings.answer (Config.discovered ⟨"/lib"⟩)
      = threeSettings.configIn [⟨"/lib"⟩, ⟨"/"⟩, ⟨"/home"⟩] ∧
    threeSettings.configIn [⟨"/lib"⟩, ⟨"/"⟩, ⟨"/home"⟩]
      = { indentUnit := "\t", imposeIndent := false } := by
  refine ⟨by decide, ?_, by decide +kernel⟩
  have hchain : threeSettings.chain ⟨"/lib"⟩ = [⟨"/lib"⟩, ⟨"/"⟩] := by decide +kernel
  refine (discovered_nearest_iff threeSettings (by decide)).2.2.2 ?_
  rintro h hh below d above hsplit hd
  cases hh
  have hoff : ∀ e ∈ ([⟨"/lib"⟩, ⟨"/"⟩] : List Path), e.sameAs ⟨"/home"⟩ = false := by
    decide
  have hmem : d ∈ ([⟨"/lib"⟩, ⟨"/"⟩] : List Path) := by simp [← hchain, hsplit]
  exact absurd hd (Bool.eq_false_iff.1 (hoff d hmem))

/-- In the home directory itself, the settings at the root are stronger. -/
theorem discovered_home_not_nearest :
    threeSettings.answer (Config.discovered ⟨"/home"⟩)
      = { indentUnit := "    ", imposeIndent := false } ∧
    threeSettings.configIn (threeSettings.chain ⟨"/home"⟩ ++ threeSettings.home.toList)
      = { indentUnit := "   ", imposeIndent := false } := by
  constructor
  · decide +kernel
  · decide +kernel

end World

end RubyIndent
