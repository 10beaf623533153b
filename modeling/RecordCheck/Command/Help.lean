/-!
# Help texts

What the command line prints about itself.
-/

namespace RecordCheck.Command.Help

set_option autoImplicit false

/-- A text of lines, each with its end. -/
def text (lines : List String) : String := String.join (lines.map fun l => l ++ "\n")

def version : String := "recval 0.1.0\n"

def verbose : String :=
  "Enable verbose logging. Repeat for more (-v, -vv, -vvv). \x60RUST_LOG\x60 takes precedence when set"

def logJson : String := "Emit logs as JSON"

def config : String := "Path to a validator configuration file (YAML or JSON)"

def schema : String := "Schema file path or absolute URI"

def schemaDir : String :=
  "Directory of schema files. Every file is preloaded, and relative schema paths are resolved against it"

def record : String := "Record file (JSON, or YAML by extension). \x60-\x60 reads stdin [default: -]"

def main : String := text [
  "Command-line interface for recval: validate records against JSON Schema and normalize their date fields.",
  "",
  "Usage: recval [OPTIONS] <COMMAND>",
  "",
  "Commands:",
  "  validate       Validate a record, or a JSON-Lines stream of records",
  "  convert-dates  Rewrite date fields of a record to YYYY-MM-DD",
  "  help           Print this message or the help of the given subcommand(s)",
  "",
  "Options:",
  "  -v, --verbose...       " ++ verbose,
  "      --log-json         " ++ logJson,
  "      --config <CONFIG>  " ++ config,
  "  -h, --help             Print help",
  "  -V, --version          Print version"]

/-- The options of a command, each with its text on the next line. -/
def options (switch about : String) : List String := [
  "Options:",
  "      --schema <SCHEMA>",
  "          " ++ schema,
  "  -v, --verbose...",
  "          " ++ verbose,
  "      --log-json",
  "          " ++ logJson,
  "      --schema-dir <SCHEMA_DIR>",
  "          " ++ schemaDir,
  "      --config <CONFIG>",
  "          " ++ config,
  "      --" ++ switch,
  "          " ++ about,
  "  -h, --help",
  "          Print help"]

def command (about name : String) : List String := [
  about,
  "",
  "Usage: recval " ++ name ++ " [OPTIONS] --schema <SCHEMA> [RECORD]",
  "",
  "Arguments:",
  "  [RECORD]  " ++ record,
  ""]

def validate : String := text
  (command "Validate a record, or a JSON-Lines stream of records" "validate"
    ++ options "lines" "Read JSON Lines: one record per line, one result per line")

def convertDates : String := text
  (command "Rewrite date fields of a record to YYYY-MM-DD" "convert-dates"
    ++ options "pretty" "Pretty-print the converted record")

def help : String := text [
  "Print this message or the help of the given subcommand(s)",
  "",
  "Usage: recval help [COMMAND]...",
  "",
  "Arguments:",
  "  [COMMAND]...  Print help for the subcommand(s)"]

end RecordCheck.Command.Help
