/-!
# Usage and help

The texts that tell how the command is used.
-/

namespace Xdr.CommandLine

def commandName : String := "fastxdr"

def usage : String :=
  String.join
    ["usage: fastxdr [-h] [--version] [-o PATH] [--config PATH] [--strict-padding]\n",
     "               [--runtime-module NAME] [--no-all] [--dump-parse] [--dump-ast]\n",
     "               [-v]\n",
     "               [source]\n"]

def help : String :=
  String.join
    [usage,
     "\n",
     "Compile an XDR specification into a Python module\n",
     "\n",
     "positional arguments:\n",
     "  source                Path to the XDR specification (.x)\n",
     "\n",
     "options:\n",
     "  -h, --help            show this help message and exit\n",
     "  --version             Show version and exit\n",
     "  -o PATH, --out PATH   Write the generated module to PATH (default: stdout)\n",
     "  --config PATH         TOML configuration: a pyproject.toml with\n",
     "                        [tool.fastxdr], or a standalone file\n",
     "  --strict-padding      Generated decoders reject non-zero padding bytes\n",
     "  --runtime-module NAME\n",
     "                        Module the generated code imports its runtime from\n",
     "                        (default: fastxdr.runtime)\n",
     "  --no-all              Do not emit __all__\n",
     "  --dump-parse          Print raw Lark tree\n",
     "  --dump-ast            Print AST\n",
     "  -v, --verbose         Log compiler stages to stderr (twice: include the\n",
     "                        parser's own log)\n"]

end Xdr.CommandLine
