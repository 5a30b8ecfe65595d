/-!
The text that tells how to use the program.
-/

set_option autoImplicit false

namespace CodeFolding.Command

def helpText : String :=
  "Finds the blocks of source files that can be folded: bodies of fn, struct, impl, enum, trait and
mod, and the use statements of a file, taken together.

Usage: mta_rust_structuralcode_blockfold [OPTIONS] [PATH] [COMMAND]

Commands:
  list <FILE>    List the regions of a file
  render <FILE>  Print a file with its regions folded
  help           Print this text

Arguments:
  [PATH]  Directory to scan [default: .]

Options:
  -f, --format <FORMAT>        json, yaml, summary or ansi [default: json]
  -o, --output <OUTPUT>        Write into a file instead of printing
      --ignore <IGNORE>        Leave out paths that match a pattern
      --ignore-file <FILE>     Ignore file [default: .gitignore]
      --include-deps           Scan dependencies and build output too
      --threads <THREADS>      Threads that may be used, 0 for any number
      --ext <EXTENSION>        Extension of the files to scan [default: rs]
      --config <CONFIG>        Settings file [default: blockfold.toml]
      --fold-all               Report every region as folded
      --expand-all             Report every region as expanded
      --no-color               No colour on a terminal
  -v, --verbose                More messages
  -h, --help                   Print this text
  -V, --version                Print the version

Options of list:
  -f, --format <FORMAT>        json, yaml, summary or ansi [default: json]

Options of render:
      --ansi                   Colour even where there is no terminal
      --toggle <LINE>          Toggle the region that starts on a line, 0 for the imports
"

/-- What is said about a command line that cannot be read. -/
def usageText : String :=
  "error: the command line cannot be read\n\nFor more information, try '--help'.\n"

end CodeFolding.Command
