import Detachment.CommandLine.Arguments

/-! # Help texts

The help text of each topic, `Topic.helpLines`; the lines that several of them have stand first. -/

namespace Detachment.CommandLine

/-- The line on the option `Flag.axioms`, which every command has. -/
def axiomsHelp : String :=
  "      --axioms <LIST>          " ++
    "Comma-separated axioms in prefix notation, like CpCqp,CCpCqrCCpqCpr"

/-- The line on the option `Flag.necessitation`, which every command has. -/
def necessitationHelp : String :=
  "      --necessitation <LIMIT>  " ++
    "How many N may appear in a row: a number, or \"unbounded\" [default: 0]"

/-- The line on asking for help, which is the last one. -/
def helpHelp : String :=
  "  -h, --help                   Print help"

/-- The lines of the help text on a topic. -/
def Topic.helpLines : Topic → List String
  | program => [
    "Enumerates minimal condensed detachment proofs",
    "",
    "Usage: dproofs [OPTIONS] <COMMAND>",
    "",
    "Commands:",
    "  generate  Find representative proofs for every length up to LENGTH",
    "  parse     Print the conclusion of a proof string",
    "  filter    Run the schema filter for a length that was collected unfiltered",
    "  help      Print this message or the help of the given subcommand(s)",
    "",
    "Options:",
    axiomsHelp,
    necessitationHelp,
    helpHelp,
    "  -V, --version                Print version"]
  | generate => [
    "Find representative proofs for every length up to LENGTH",
    "",
    "Usage: dproofs generate [OPTIONS] --length <LENGTH>",
    "",
    "Options:",
    axiomsHelp,
    "      --length <LENGTH>        ",
    "      --data <DIR>             Where the results are kept [default: data]",
    necessitationHelp,
    "      --workers <WORKERS>      Number of evaluation threads",
    "      --combined               Generate all missing lengths in a single round",
    "      --unfiltered-from <K>    Skip the schema filter for this length and above",
    "      --with-conclusions       Store each proof's conclusion next to it",
    helpHelp]
  | parse => [
    "Print the conclusion of a proof string",
    "",
    "Usage: dproofs parse [OPTIONS] <PROOF>",
    "",
    "Arguments:",
    "  <PROOF>  ",
    "",
    "Options:",
    axiomsHelp,
    necessitationHelp,
    helpHelp]
  | filter => [
    "Run the schema filter for a length that was collected unfiltered",
    "",
    "Usage: dproofs filter [OPTIONS] --length <LENGTH> --data <DIR> --unfiltered-from <K>",
    "",
    "Options:",
    axiomsHelp,
    "      --length <LENGTH>        ",
    "      --data <DIR>             ",
    necessitationHelp,
    "      --unfiltered-from <K>    The length the unfiltered files start at",
    "      --ranks <RANKS>          Simulate this many ranks within this process",
    "      --rank <RANK>            This process's rank",
    "      --hosts <HOSTS>          Comma-separated HOST:PORT of every rank, in rank order",
    helpHelp]
  | help => [
    "Print this message or the help of the given subcommand(s)",
    "",
    "Usage: dproofs help [COMMAND]...",
    "",
    "Arguments:",
    "  [COMMAND]...  Print help for the subcommand(s)"]

end Detachment.CommandLine
