import LatexIntegrity.Text.Basic

/-!
What the program says about itself and its command line.
-/

namespace LatexIntegrity.Command

def version : Text := "texguard v0.1.0"

def versionText : Text := version ++ "\nLaTeX document integrity checker\n"

def usage : Text :=
  version ++ " - LaTeX document integrity checker\n" ++
  "\n" ++
  "Usage: texguard [--config <file.ini>] <command> [options]\n" ++
  "\n" ++
  "Commands:\n" ++
  "  clean <in.tex> [-o out] [--dry-run] [--tables-only]\n" ++
  "                                 Escape special characters in prose\n" ++
  "  check <in.tex> [--check-anon] [--venue NAME] [--stats] [--no-inputs]\n" ++
  "                                 Check environments, markers, sections and\n" ++
  "                                 anonymization\n" ++
  "  diagnose <file.log> [--tex <in.tex>]\n" ++
  "                                 Classify a compiler log\n" ++
  "  fix <in.tex> [--log <file.log> | --auto-detect] [-o out] [--dry-run]\n" ++
  "      [--rounds N]               Apply automated repairs\n" ++
  "  spans <in.tex>                 Dump the region segmentation\n" ++
  "\n" ++
  "Options:\n" ++
  "  --config FILE                  Read settings from an INI file\n" ++
  "  -h, --help                     Show this help message\n" ++
  "  --version                      Show version information\n" ++
  "\n" ++
  "Examples:\n" ++
  "  texguard clean paper.tex -o paper.clean.tex\n" ++
  "  texguard fix paper.tex --auto-detect -o paper.tex\n" ++
  "  texguard check paper.tex --venue neurips --stats\n" ++
  "\n"

inductive UsageError where
  | missingArgument
  | unknownCommand (name : Text)
  | unknownOption (command option : Text)
  | unknownVenue (name : Text)
  | invalidRounds (value : Text)
  | conflictingLogs
  deriving DecidableEq, Repr

def UsageError.message : UsageError → Text
  | .missingArgument => usage
  | .unknownCommand name => "unknown command: " ++ name ++ "\n" ++ usage
  | .unknownOption command option =>
      "unknown " ++ command ++ " option: " ++ option ++ "\n" ++ usage
  | .unknownVenue name => "unknown venue: " ++ name ++ "\n"
  | .invalidRounds value => "invalid --rounds value: " ++ value ++ "\n"
  | .conflictingLogs => "--log and --auto-detect are mutually exclusive\n"

end LatexIntegrity.Command
