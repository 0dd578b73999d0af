/-!
What a command line tells about itself.
-/

namespace RelayLogic.CommandLine

def usage : String := "Usage: logicsim [OPTIONS] <CIRCUIT_FILE>\n"

def help : String :=
  "Cycle-driven tri-state simulator for relay-logic gate and timer circuits\n\n" ++
  usage ++ "\n" ++
  "Arguments:\n" ++
  "  <CIRCUIT_FILE>  Path to the circuit (.lgc block language or .lgn netlist)\n\n" ++
  "Options:\n" ++
  "  -n, --cycles <CYCLES>                Number of cycles to simulate [default: 10]\n" ++
  "  -s, --set <TAG=VALUE>                Write a tag before the first cycle " ++
    "(TAG=true|false|unknown)\n" ++
  "  -c, --config <CONFIG>                TOML configuration file with a [simulator] table\n" ++
  "  -r, --resolution-ms <RESOLUTION_MS>  Cycle length in milliseconds " ++
    "(overrides the configuration)\n" ++
  "      --trace                          Log compile statistics\n" ++
  "      --emit-netlist <NETLIST_FILE>    Write the circuit as a binary netlist and exit\n" ++
  "      --realtime <SECONDS>             Run in real time for this many seconds " ++
    "instead of stepping\n" ++
  "  -h, --help                           Print help\n" ++
  "  -V, --version                        Print version\n"

def version : String := "logicsim_core 0.1.0\n"

end RelayLogic.CommandLine
