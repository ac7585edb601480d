import Xdr.Config
import Xdr.Emit.Naming

/-!
# Imports

A generated module takes its support from the module that the configuration names.
-/

namespace Xdr.Imports

inductive Support
  | whole
  | unmeasured
  | foreign
deriving DecidableEq

def standard : List String :=
  ["abc", "aifc", "argparse", "array", "ast", "asynchat", "asyncio", "asyncore", "atexit",
   "audioop", "base64", "bdb", "binascii", "bisect", "builtins", "bz2", "cProfile", "calendar",
   "cgi", "cgitb", "chunk", "cmath", "cmd", "code", "codecs", "codeop", "collections",
   "colorsys", "compileall", "concurrent", "configparser", "contextlib", "contextvars", "copy",
   "copyreg", "crypt", "csv", "ctypes", "curses", "dataclasses", "datetime", "dbm", "decimal",
   "difflib", "dis", "distutils", "doctest", "email", "encodings", "ensurepip", "enum", "errno",
   "faulthandler", "fcntl", "filecmp", "fileinput", "fnmatch", "fractions", "ftplib",
   "functools", "gc", "genericpath", "getopt", "getpass", "gettext", "glob", "graphlib", "grp",
   "gzip", "hashlib", "heapq", "hmac", "html", "http", "imaplib", "imghdr", "imp", "importlib",
   "inspect", "io", "ipaddress", "itertools", "json", "keyword", "lib2to3", "linecache",
   "locale", "logging", "lzma", "mailbox", "mailcap", "marshal", "math", "mimetypes", "mmap",
   "modulefinder", "multiprocessing", "netrc", "nntplib", "ntpath", "nturl2path", "numbers",
   "opcode", "operator", "optparse", "os", "ossaudiodev", "pathlib", "pdb", "pickle",
   "pickletools", "pipes", "pkgutil", "platform", "plistlib", "poplib", "posix", "posixpath",
   "pprint", "profile", "pstats", "pty", "pwd", "py_compile", "pyclbr", "pydoc", "pydoc_data",
   "pyexpat", "queue", "quopri", "random", "re", "readline", "reprlib", "resource",
   "rlcompleter", "runpy", "sched", "secrets", "select", "selectors", "shelve", "shlex",
   "shutil", "signal", "site", "smtpd", "smtplib", "sndhdr", "socket", "socketserver", "spwd",
   "sqlite3", "sre_compile", "sre_constants", "sre_parse", "ssl", "stat", "statistics",
   "string", "stringprep", "struct", "subprocess", "sunau", "symtable", "sys", "sysconfig",
   "syslog", "tabnanny", "tarfile", "telnetlib", "tempfile", "termios", "textwrap", "threading",
   "time", "timeit", "token", "tokenize", "tomllib", "trace", "traceback", "tracemalloc", "tty",
   "types", "typing", "unicodedata", "unittest", "urllib", "uu", "uuid", "venv", "warnings",
   "wave", "weakref", "webbrowser", "wsgiref", "xdrlib", "xml", "xmlrpc", "zipapp", "zipfile",
   "zipimport", "zlib", "zoneinfo", "__future__", "__main__"]

def nested : List String :=
  ["asyncio.events", "asyncio.futures", "asyncio.locks", "asyncio.queues", "asyncio.streams",
   "asyncio.subprocess", "asyncio.tasks", "collections.abc", "concurrent.futures",
   "ctypes.util", "curses.ascii", "dbm.dumb", "email.message", "email.parser", "email.policy",
   "email.utils", "encodings.ascii", "encodings.idna", "encodings.utf_8", "html.entities",
   "html.parser", "http.client", "http.cookies", "http.server", "importlib.abc",
   "importlib.machinery", "importlib.metadata", "importlib.resources", "importlib.util",
   "json.decoder", "json.encoder", "json.scanner", "json.tool", "logging.config",
   "logging.handlers", "multiprocessing.pool", "multiprocessing.queues", "os.path",
   "unittest.case", "unittest.mock", "urllib.error", "urllib.parse", "urllib.request",
   "urllib.response", "urllib.robotparser", "wsgiref.util", "xml.dom", "xml.dom.minidom",
   "xml.etree", "xml.etree.ElementTree", "xml.parsers", "xml.parsers.expat", "xml.sax",
   "xml.sax.handler", "xmlrpc.client", "xmlrpc.server"]

def ours : List (String × List String) :=
  [("fastxdr", ["backend", "compiler", "frontend", "internals", "semantics"]),
   ("fastxdr.backend", ["codegen_python", "expressions", "naming", "source_writer", "types"]),
   ("fastxdr.backend.types", ["constants", "enums", "structs", "typedefs", "unions"]),
   ("fastxdr.compiler", ["build", "cli", "config", "pipeline"]),
   ("fastxdr.frontend", ["ast_printer"]),
   ("fastxdr.internals", ["errors", "parse_errors", "parser", "report"]),
   ("fastxdr.runtime", ["codec", "errors"]),
   ("fastxdr.semantics",
    ["ast", "ast_builder", "passes", "semantic_analyzer", "type_index", "typesys"]),
   ("fastxdr.semantics.ast_builder", ["builder", "declarations", "exceptions", "types", "utils"]),
   ("fastxdr.semantics.ast_builder.declarations",
    ["constants", "enums", "structs", "typedefs", "unions"]),
   ("fastxdr.semantics.ast_builder.types", ["parser"]),
   ("fastxdr.semantics.ast_builder.utils", ["tree_navigation"]),
   ("fastxdr.semantics.passes",
    ["collect", "const_eval", "cycles", "layout", "resolve", "unions"])]

def begun : List String :=
  ["fastxdr.__init__", "fastxdr.semantics.ast_builder.__init__"]

def isOurs (name : String) : Bool :=
  name = "fastxdr" || begun.contains name ||
    ours.any fun (package, modules) => modules.any fun m => name = package ++ "." ++ m

def support? (name : String) : Option Support :=
  if name = "fastxdr.runtime" || name = "fastxdr.runtime.__init__" then some .whole
  else if name = "fastxdr.runtime.types" then some .unmeasured
  else if isOurs name || standard.contains name || nested.contains name then some .foreign
  else none

def hasKeyword (name : String) : Bool :=
  (dotParts (dropFinalBreak name.toList)).any fun part =>
    Naming.keywords.contains (String.ofList part)

end Xdr.Imports
