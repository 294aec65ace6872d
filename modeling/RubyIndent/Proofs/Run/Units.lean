import Mathlib.Tactic.Common
import Mathlib.Tactic.SplitIfs
import RubyIndent.Run

/-!
# Units of indentation

Settings files, the command line and directives may all set the unit, to anything,
and a later place may mend what an earlier one has spoilt. What the formatter gets
to see has passed a check: all configurations that a run hands to it have a unit of
one to sixteen spaces and tabs. This is said without looking into the formatter: a
run does not change if another one is put in its place that agrees with it on such
units (`runCommandLine_congr`).

The check comes after the unit was made, and a width can be too great for any
text. Then there is no configuration and no message, but a fault.
-/

namespace RubyIndent

open RubyIndent.CommandLine RubyIndent.Text

/-! ## Valid units -/

/-- One to sixteen spaces and tabs. -/
structure ValidUnit (unit : String) : Prop where
  length_pos : 1 ≤ unit.length
  length_le : unit.length ≤ Config.maxUnitLength
  blank : ∀ c ∈ unit.toList, c = ' ' ∨ c = '\t'

theorem byteLength_of_blank {s : List Char} (h : ∀ c ∈ s, c = ' ' ∨ c = '\t') :
    byteLength s = s.length := by
  induction s with
  | nil => rfl
  | cons c s ih =>
    obtain ⟨hc, hs⟩ := List.forall_mem_cons.1 h
    have hsize : c.utf8Size = 1 := by rcases hc with rfl | rfl <;> rfl
    rw [byteLength_cons, ih hs, hsize, List.length_cons, Nat.add_comm]

namespace Config

/-- The check finds a problem exactly in units that are not valid. -/
theorem problem?_eq_none_iff {c : Config} :
    c.problem? = none ↔ ValidUnit c.indentUnit := by
  have hempty : c.indentUnit.toList.isEmpty = true ↔ c.indentUnit.length = 0 := by
    rw [List.isEmpty_iff, ← List.length_eq_zero_iff, String.length_toList]
  have hblank : (c.indentUnit.toList.any fun ch => ch ≠ ' ' ∧ ch ≠ '\t') = false ↔
      ∀ ch ∈ c.indentUnit.toList, ch = ' ' ∨ ch = '\t' := by
    simp only [List.any_eq_false, decide_eq_true_eq, not_and_or, not_not]
  unfold problem?
  dsimp only
  constructor
  · intro h
    split at h
    · cases h
    split at h
    · cases h
    split at h
    · cases h
    rename_i hne hb hlen
    rw [Bool.not_eq_true] at hb
    rw [byteLength_of_blank (hblank.1 hb), String.length_toList] at hlen
    exact ⟨Nat.pos_of_ne_zero fun h => hne (hempty.2 h), Nat.le_of_not_lt hlen,
      hblank.1 hb⟩
  · intro h
    have hlen : ¬ byteLength c.indentUnit.toList > maxUnitLength := by
      rw [byteLength_of_blank h.blank, String.length_toList]
      exact Nat.not_lt.2 h.length_le
    rw [if_neg fun he => Nat.one_ne_zero
        (Nat.le_zero.1 (hempty.1 he ▸ h.length_pos)), hblank.2 h.blank,
      if_neg Bool.false_ne_true, if_neg hlen]

/-- The only things that can be wrong with a width. -/
theorem problem?_withWidth (n : Nat) (c : Config) :
    (c.withWidth n).problem? = if n = 0 then some .empty
      else if maxUnitLength < n then some (.tooLong n) else none := by
  have hblank : ∀ ch ∈ List.replicate n ' ', ch = ' ' ∨ ch = '\t' :=
    fun ch hch => .inl (List.eq_of_mem_replicate hch)
  have hany : ((List.replicate n ' ').any fun ch => ch ≠ ' ' ∧ ch ≠ '\t')
      = false := by
    simpa only [List.any_eq_false, decide_eq_true_eq, not_and_or, not_not]
      using hblank
  have hunit : (c.withWidth n).indentUnit.toList = List.replicate n ' ' :=
    String.toList_ofList
  rw [problem?, hunit, byteLength_of_blank hblank, List.length_replicate, hany]
  simp

end Config

/-! ## Directives -/

namespace Directive

/-- A width alone: the rest of the configuration stays, but for what the directive
says about indenting at all. -/
theorem applyTo_width {d : Directive} {n : Nat} (hindent : d.indent = some n)
    (htabs : d.tabs ≠ some true) (config : Config) :
    d.applyTo config = if n ≤ maxLength then
      .ok { config.withWidth n with
        imposeIndent := d.imposeIndent.getD config.imposeIndent }
    else .error .capacityOverflow := by
  by_cases hn : n ≤ maxLength
  · simp only [applyTo, hindent, Config.setWidth, if_pos hn, if_neg htabs]
    cases d.imposeIndent <;> rfl
  · simp only [applyTo, hindent, Config.setWidth, if_neg hn]
    rfl

end Directive

/-- A document has the configuration it was given, or one that was checked. -/
theorem effectiveConfig_cases {config config' : Config} {contents : ByteArray}
    {source : String} (h : effectiveConfig config contents source = .ok config') :
    config' = config ∨ config'.problem? = none := by
  rw [effectiveConfig] at h
  split at h
  · exact .inl (Except.ok.inj h).symm
  · split at h
    · cases h
    · split at h
      · cases h
      · rename_i hproblem
        exact .inr (Except.ok.inj h ▸ hproblem)

/-- The configuration of a document is valid if the one it starts from is. -/
theorem validUnit_of_effectiveConfig {config config' : Config}
    {contents : ByteArray} {source : String} (hvalid : ValidUnit config.indentUnit)
    (h : effectiveConfig config contents source = .ok config') :
    ValidUnit config'.indentUnit := by
  rcases effectiveConfig_cases h with rfl | hproblem
  · exact hvalid
  · exact Config.problem?_eq_none_iff.1 hproblem

/-- What a directive with a width makes of a configuration. -/
theorem effectiveConfig_width {config : Config} {contents : ByteArray}
    {d : Directive} {n : Nat} (hfind : Directive.find? contents = some d)
    (hindent : d.indent = some n) (htabs : d.tabs ≠ some true) (source : String) :
    effectiveConfig config contents source =
      if maxLength < n then .error (.fault .capacityOverflow)
      else if n = 0 then .error (.invalid source .empty)
      else if Config.maxUnitLength < n then .error (.invalid source (.tooLong n))
      else .ok { indentUnit := String.ofList (List.replicate n ' ')
                 imposeIndent := d.imposeIndent.getD config.imposeIndent } := by
  have hproblem : Config.problem? { config.withWidth n with
      imposeIndent := d.imposeIndent.getD config.imposeIndent }
      = if n = 0 then some .empty
        else if Config.maxUnitLength < n then some (.tooLong n) else none :=
    Config.problem?_withWidth n config
  rw [effectiveConfig, hfind]
  dsimp only
  rw [Directive.applyTo_width hindent htabs]
  by_cases hn : n ≤ maxLength
  · rw [if_pos hn, if_neg (Nat.not_lt.2 hn)]
    dsimp only
    rw [hproblem]
    split_ifs <;> rfl
  · rw [if_neg hn, if_pos (Nat.lt_of_not_le hn)]

/-! ## Runs with different formatters

The lemmas follow a run from the configuration of one document up to the command
line. Each says that a run does not tell apart two formatters that agree on valid
units. -/

/-- Two formatters do the same wherever the unit is valid. -/
def AgreeOnValid (f g : Formatter) : Prop :=
  ∀ contents config name, ValidUnit config.indentUnit →
    f contents config name = g contents config name

section
variable {f g : Formatter} (hfg : AgreeOnValid f g)
include hfg

theorem reindentBytes_congr {config : Config} (hvalid : ValidUnit config.indentUnit)
    (contents : ByteArray) (name : String) :
    reindentBytes f contents config name = reindentBytes g contents config name := by
  rw [reindentBytes, reindentBytes]
  cases h : effectiveConfig config contents name with
  | error e => rfl
  | ok config' =>
    dsimp only
    rw [hfg _ _ _ (validUnit_of_effectiveConfig hvalid h)]

theorem report_congr {config : Config} (hvalid : ValidUnit config.indentUnit)
    (o : Options) (p : Path) (contents : ByteArray) :
    report f o p contents config = report g o p contents config := by
  rw [report, report, reindentBytes_congr hfg hvalid]

theorem reportInput_congr {config : Config} (hvalid : ValidUnit config.indentUnit)
    (o : Options) (contents : ByteArray) :
    reportInput f o contents config = reportInput g o contents config := by
  rw [reportInput, reportInput, reindentBytes_congr hfg hvalid]

end

theorem validUnit_of_configure {o : Options} {config config' : Config}
    (h : o.configure config = .ok config') : ValidUnit config'.indentUnit := by
  rw [Options.configure] at h
  split at h
  · cases h
  · rw [checked] at h
    split at h
    · cases h
    · rename_i hproblem
      cases h
      exact Config.problem?_eq_none_iff.1 hproblem

section
variable {m : Type → Type} [Monad m] [LawfulMonad m] [Host m]

/-- Whatever comes after the search for a configuration finds an error or a valid
unit. -/
theorem configFor_bind_congr {β : Type} {k k' : Except RunError Config → m β}
    (o : Options) (p : Path) (herror : ∀ e, k (.error e) = k' (.error e))
    (hok : ∀ config, ValidUnit config.indentUnit →
      k (.ok config) = k' (.ok config)) :
    configFor o p >>= k = configFor o p >>= k' := by
  have hconfigure : ∀ config, k (o.configure config) = k' (o.configure config) := by
    intro config
    cases h : o.configure config with
    | error e => exact herror e
    | ok config' => exact hok config' (validUnit_of_configure h)
  rw [configFor]
  split
  · simp only [bind_assoc]
    refine bind_congr fun r => ?_
    cases r with
    | error e => simp only [pure_bind, herror]
    | ok config => simp only [pure_bind, hconfigure]
  · simp only [bind_assoc, pure_bind, hconfigure]

variable {f g : Formatter} (hfg : AgreeOnValid f g)
include hfg

omit [LawfulMonad m] in
theorem examineUnder_congr {config : Config} (hvalid : ValidUnit config.indentUnit)
    (o : Options) (p : Path) :
    (examineUnder f o p (.ok config) : m Report)
      = examineUnder g o p (.ok config) := by
  refine bind_congr fun contents => ?_
  cases contents with
  | none => rfl
  | some contents => simp only [report_congr hfg hvalid]

theorem examine_congr {shared : Option Config}
    (hshared : ∀ config ∈ shared, ValidUnit config.indentUnit) (o : Options)
    (p : Path) : (examine f o shared p : m Report) = examine g o shared p := by
  cases shared with
  | some config => exact examineUnder_congr hfg (hshared config rfl) o p
  | none =>
    refine configFor_bind_congr o p (fun e => ?_) fun config hvalid => ?_
    · rfl
    · exact examineUnder_congr hfg hvalid o p

theorem visitAll_congr {shared : Option Config}
    (hshared : ∀ config ∈ shared, ValidUnit config.indentUnit) (o : Options)
    (files : List Path) (t : Tally) :
    (visitAll f o shared t files : m (Except Fault Tally))
      = visitAll g o shared t files := by
  induction files generalizing t with
  | nil => rfl
  | cons p files ih =>
    rw [visitAll, visitAll, visit, visit, examine_congr hfg hshared]
    refine bind_congr fun r => ?_
    cases r with
    | error f => rfl
    | ok t => exact ih t

theorem runFiles_congr {shared : Option Config}
    (hshared : ∀ config ∈ shared, ValidUnit config.indentUnit) (o : Options) :
    (runFiles f o shared : m Nat) = runFiles g o shared := by
  rw [runFiles, runFiles]
  refine bind_congr fun files => ?_
  rw [reindentFiles, reindentFiles, visitAll_congr hfg hshared]

theorem runInput_congr (o : Options) : (runInput f o : m Nat) = runInput g o := by
  rw [runInput, runInput]
  refine bind_congr fun directory => ?_
  refine configFor_bind_congr o directory (fun e => ?_) fun config hvalid => ?_
  · rfl
  · refine bind_congr fun contents => ?_
    rw [reportInput_congr hfg hvalid]

theorem run_congr (o : Options) : (run f o : m Nat) = run g o := by
  rw [run, run, runInput_congr hfg]
  split
  · rfl
  split
  · refine configFor_bind_congr o _ (fun e => ?_) fun config hvalid => ?_
    · rfl
    · refine runFiles_congr hfg (fun config' h => ?_) o
      cases h
      exact hvalid
  · exact runFiles_congr hfg (fun _ h => (Option.not_mem_none _ h).elim) o

/-- A run does not ask the formatter for anything but valid units. -/
theorem runCommandLine_congr (words : List String) :
    (runCommandLine f words : m Nat) = runCommandLine g words := by
  rw [runCommandLine, runCommandLine]
  cases CommandLine.parse words with
  | error e => cases e <;> rfl
  | ok o => exact run_congr hfg o

end

/-- Only valid units reach the formatter: on any host, a run is the same with
every other formatter that does the same for them. A document without a directive
leaves the configuration as it is. A directive that sets a width fails exactly if
the width is zero or above sixteen, and else gives that many spaces; the error
names the document and the problem, unless the width is too great for a text. -/
theorem units_are_checked {m : Type → Type} [Monad m] [LawfulMonad m] [Host m] :
    (∀ f g, AgreeOnValid f g → ∀ words,
      (runCommandLine f words : m Nat) = runCommandLine g words) ∧
    ∀ (config : Config) (contents : ByteArray) (source : String),
      (Directive.find? contents = none →
        effectiveConfig config contents source = .ok config) ∧
      ∀ d n, Directive.find? contents = some d → d.indent = some n →
        d.tabs ≠ some true →
        ((∃ e, effectiveConfig config contents source = .error e) ↔
          n = 0 ∨ 16 < n) ∧
        (∀ e, effectiveConfig config contents source = .error e →
          (e = .fault .capacityOverflow ↔ maxLength < n) ∧
          (n ≤ maxLength → ∃ problem : Config.Problem,
            e.message = source ++ ": invalid directive: " ++ problem.message)) ∧
        (1 ≤ n → n ≤ 16 → effectiveConfig config contents source = .ok
          { indentUnit := String.ofList (List.replicate n ' ')
            imposeIndent := d.imposeIndent.getD config.imposeIndent }) := by
  refine ⟨fun f g hfg words => runCommandLine_congr hfg words, ?_⟩
  intro config contents source
  refine ⟨fun hnone => by rw [effectiveConfig, hnone], ?_⟩
  intro d n hfind hindent htabs
  have hmax : (16 : Nat) ≤ maxLength := by decide
  rw [effectiveConfig_width hfind hindent htabs, Config.maxUnitLength]
  refine ⟨?_, ?_, ?_⟩
  · split_ifs <;> simp <;> omega
  · intro e he
    split_ifs at he with hn h₀ h₁
    · cases he
      exact ⟨by simp [hn], fun h => absurd hn (Nat.not_lt.2 h)⟩
    · cases he
      exact ⟨by simp [hn], fun _ => ⟨_, rfl⟩⟩
    · cases he
      exact ⟨by simp [hn], fun _ => ⟨_, rfl⟩⟩
  · intro hpos hle
    rw [if_neg (by omega), if_neg (by omega), if_neg (by omega)]

/-- A formatter that refuses units which are not valid does as well as any, and a
width of four is four spaces. -/
theorem units_are_checked_strict :
    (runCommandLine formatBytes ["--indent", "17", "a.rb"] : StateM World Nat)
      = runCommandLine (fun contents config name =>
          if config.problem? = none then formatBytes contents config name
          else .error (.notUtf8 name)) ["--indent", "17", "a.rb"] ∧
    effectiveConfig {} "# rbeautify: -i 4\n".toUTF8 "a.rb"
      = .ok { indentUnit := "    " } := by
  have hall := units_are_checked (m := StateM World)
  refine ⟨hall.1 _ _ (fun contents config name hvalid => ?_) _, ?_⟩
  · rw [if_pos (Config.problem?_eq_none_iff.2 hvalid)]
  · have hfind : Directive.find? "# rbeautify: -i 4\n".toUTF8
        = some { indent := some 4 } := by decide +kernel
    exact ((hall.2 {} _ "a.rb").2 _ 4 hfind rfl (by decide)).2.2
      (by decide) (by decide)

/-- A width that no text can have is not reported as the problem that it is. -/
theorem effectiveConfig_overflow :
    effectiveConfig {} "# rbeautify: -i 18446744073709551615\n".toUTF8 "a.rb"
      = .error (.fault .capacityOverflow) := by
  have hfind : Directive.find? "# rbeautify: -i 18446744073709551615\n".toUTF8
      = some { indent := some 18446744073709551615 } := by decide +kernel
  rw [effectiveConfig_width hfind rfl (by decide), if_pos (by decide)]

end RubyIndent
