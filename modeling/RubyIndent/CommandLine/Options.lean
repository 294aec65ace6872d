import RubyIndent.Files.Path

/-!
# Options

What a command line can ask for, and the names of its options. An option is a
flag, takes a value, or asks for a text about the program.
-/

namespace RubyIndent.CommandLine

structure Options where
  inputs : List Path := []
  indent : Option Nat := none
  tabs : Bool := false
  noIndent : Bool := false
  stdout : Bool := false
  diff : Bool := false
  check : Bool := false
  config : Option Path := none
  recursive : Bool := false
  silent : Bool := false
  jobs : Option Nat := none
  exclude : List String := []
  extensions : List String := []
  maxLines : Option Nat := none
  debug : Bool := false
  deriving DecidableEq, Repr

inductive Flag where
  | tabs | noIndent | stdout | diff | check | recursive | debug | silent
  deriving DecidableEq, Repr

inductive Setting where
  | indent | config | exclude | extension | maxLines | jobs
  deriving DecidableEq, Repr

inductive Switch where
  | flag (f : Flag)
  | setting (s : Setting)
  | help
  | version
  deriving DecidableEq, Repr

def Switch.ofLong? : String → Option Switch
  | "indent" => some (.setting .indent)
  | "tabs" => some (.flag .tabs)
  | "no-indent" => some (.flag .noIndent)
  | "stdout" => some (.flag .stdout)
  | "diff" => some (.flag .diff)
  | "check" => some (.flag .check)
  | "config" => some (.setting .config)
  | "recursive" => some (.flag .recursive)
  | "exclude" => some (.setting .exclude)
  | "ext" => some (.setting .extension)
  | "exclude-max-lines" => some (.setting .maxLines)
  | "debug" => some (.flag .debug)
  | "silent" => some (.flag .silent)
  | "jobs" => some (.setting .jobs)
  | "help" => some .help
  | "version" => some .version
  | _ => none

def Switch.ofShort? : Char → Option Switch
  | 'i' => some (.setting .indent)
  | 't' => some (.flag .tabs)
  | 's' => some (.flag .stdout)
  | 'd' => some (.flag .diff)
  | 'c' => some (.setting .config)
  | 'r' => some (.flag .recursive)
  | 'e' => some (.setting .exclude)
  | 'x' => some (.setting .extension)
  | 'm' => some (.setting .maxLines)
  | 'D' => some (.flag .debug)
  | 'S' => some (.flag .silent)
  | 'j' => some (.setting .jobs)
  | 'h' => some .help
  | 'V' => some .version
  | _ => none

def usage : String :=
  "\n".intercalate [
    "Reindents Ruby source by keywords and brackets",
    "",
    "Usage: rbeautify [OPTIONS] [FILE]...",
    "",
    "Files and directories are reindented in place; '-' or nothing reads stdin.",
    "",
    "  -i, --indent NUM             spaces per indent level",
    "  -t, --tabs                   indent with one tab per level",
    "      --no-indent              copy input unchanged",
    "  -s, --stdout                 write to stdout; leave files untouched",
    "  -d, --diff                   show changed lines; leave files untouched",
    "      --check                  exit with status 1 if any file would change",
    "  -c, --config FILE            read settings from this TOML file",
    "  -r, --recursive              look into directories recursively",
    "  -e, --exclude PATTERN        skip paths matching this glob",
    "  -x, --ext EXT                additional Ruby file extension",
    "  -m, --exclude-max-lines NUM  skip files with more lines",
    "  -D, --debug                  log more",
    "  -S, --silent                 print nothing",
    "  -j, --jobs NUM               files reindented in parallel",
    "  -h, --help                   print this text",
    "  -V, --version                print the version",
    ""]

inductive UsageError where
  | help
  | version
  | unknownArgument
  /-- A value is missing, or empty where it must not be. -/
  | missingValue
  /-- A value is not a number of 64 bits. -/
  | badNumber
  | valueForFlag
  /-- An option is repeated, or two options exclude each other. -/
  | conflict
  deriving DecidableEq, Repr

def UsageError.message : UsageError → String
  | .help => "help was asked for"
  | .version => "the version was asked for"
  | .unknownArgument => "unexpected argument"
  | .missingValue => "a value is required"
  | .badNumber => "invalid value: not a number"
  | .valueForFlag => "unexpected value for a flag"
  | .conflict => "an option is repeated or excluded by another"

end RubyIndent.CommandLine
