import ReactiveDoc.Cli.Arguments

namespace ReactiveDoc.Cli

/-!
# Help texts

* `helpText` — the help for a command, or for all commands.
* `versionText` — the name of the program with its version.
-/

/-- The name of the program with its version. -/
def versionText : String := "livedoc 0.1.0\n"

/-- Texts on lines of their own. -/
def linesText (lines : List String) : String := String.join (lines.map (· ++ "\n"))

/-- The help for all commands. -/
def generalHelp : List String :=
  ["Typecheck and evaluate live documents", "",
    "Usage: livedoc [OPTIONS] <COMMAND>", "",
    "Commands:",
    "  check  Typecheck documents given as JSON",
    "  eval   Typecheck and evaluate one document, printing each fragment's current value",
    "  init   Write a default livedoc.toml into the current directory",
    "  help   Print this message or the help of the given subcommand(s)", "",
    "Options:",
    "      --config <CONFIG>        Configuration file; defaults to the nearest livedoc.toml",
    "      --log-level <LOG_LEVEL>  Override the configured log level",
    "      --no-color               Disable colored output",
    "  -h, --help                   Print help",
    "  -V, --version                Print version"]

/-- The help for the check. -/
def checkHelp : List String :=
  ["Typecheck documents given as JSON", "",
    "Usage: livedoc check [OPTIONS] [FILES]...", "",
    "Arguments:",
    "  [FILES]...  ", "",
    "Options:",
    "      --config <CONFIG>        Configuration file; defaults to the nearest livedoc.toml",
    "      --modules <MODULES>      JSON map of module path to module type",
    "      --interfaces             Print the interface map of each document as JSON",
    "      --log-level <LOG_LEVEL>  Override the configured log level",
    "      --no-color               Disable colored output",
    "      --workers <WORKERS>      Number of worker threads (0 = auto) [default: 0]",
    "  -h, --help                   Print help"]

/-- The help for the word that asks for help. -/
def helpHelp : List String :=
  ["Print this message or the help of the given subcommand(s)", "",
    "Usage: livedoc help [COMMAND]...", "",
    "Arguments:",
    "  [COMMAND]...  Print help for the subcommand(s)"]

/-- The help for a command that has only the flags of all commands. -/
def plainHelp (about usage : String) (operands : List String) : List String :=
  [about, "", "Usage: livedoc " ++ usage, ""] ++ operands ++
    ["Options:",
      "      --config <CONFIG>        Configuration file; defaults to the nearest livedoc.toml",
      "      --log-level <LOG_LEVEL>  Override the configured log level",
      "      --no-color               Disable colored output",
      "  -h, --help                   Print help"]

/-- The help for a command, or for all commands if there is no name. -/
def helpText : Option String → String
  | some "check" => linesText checkHelp
  | some "eval" =>
      linesText (plainHelp
        "Typecheck and evaluate one document, printing each fragment's current value"
        "eval [OPTIONS] <FILE>" ["Arguments:", "  <FILE>  ", ""])
  | some "init" =>
      linesText (plainHelp "Write a default livedoc.toml into the current directory"
        "init [OPTIONS]" [])
  | some "help" => linesText helpHelp
  | _ => linesText generalHelp

end ReactiveDoc.Cli
