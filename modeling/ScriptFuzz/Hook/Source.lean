/-!
# The source of the hook

The module that every executed script imports. Its object describes values and lists the builtins of
the interpreter that runs it, one line of the side channel for each answer.
-/

namespace ScriptFuzz.Hook

set_option autoImplicit false

/-- How the module describes itself. -/
def preface : String :=
  "\"\"\"Runtime side of refuzz.

Every fuzzed program starts with ``from refuzz_mirror import *``, which
brings ``Mirror`` and a fixed set of standard modules into scope. All
output meant for the fuzzer goes to the file named by the ``fuzzout``
environment variable, one line per message.
\"\"\"

"

/-- The modules that the module uses. -/
def used : List String := ["builtins", "importlib", "inspect", "json", "os", "sys"]

def body : String :=
  "
_MODULES = (
    \"array\",
    \"bisect\",
    \"binascii\",
    \"cmath\",
    \"codecs\",
    \"collections\",
    \"copy\",
    \"datetime\",
    \"decimal\",
    \"fractions\",
    \"functools\",
    \"heapq\",
    \"itertools\",
    \"math\",
    \"operator\",
    \"re\",
    \"statistics\",
    \"string\",
    \"struct\",
)

# Builtins that block, leave the process or touch the file system
_EXCLUDED_BUILTINS = \x7b
    \"breakpoint\",
    \"compile\",
    \"copyri\x67ht\",
    \"credits\",
    \"eval\",
    \"exec\",
    \"exit\",
    \"help\",
    \"input\",
    \"licens\x65\",
    \"open\",
    \"quit\",
\x7d

_MAX_ATTRIBUTES = 64

for _name in _MODULES:
    globals()[_name] = importlib.import_module(_name)

__all__ = [\"Mirror\"] + list(_MODULES)

_channel = None


def _emit(line):
    global _channel
    if _channel is None:
        path = os.environ.get(\"fuzzout\")
        _channel = open(path, \"a\", buffering=1) if path else sys.stderr
    _channel.write(line + \"\\n\")
    _channel.flush()


def _arity(value):
    try:
        signature = inspect.signature(value)
    except BaseException:
        return None
    required = 0
    for parameter in signature.parameters.values():
        positional = parameter.kind in (
            parameter.POSITIONAL_ONLY,
            parameter.POSITIONAL_OR_KEYWORD,
        )
        if positional and parameter.default is parameter.empty:
            required += 1
    return required


def _kind(value):
    if isinstance(value, (bool, int, float, complex, str, bytes)):
        return \"primitive\"
    if isinstance(value, type):
        return \"class\"
    if callable(value):
        return \"function\"
    return \"object\"


def _type_name(value, kind):
    if kind in (\"function\", \"class\"):
        qualname = getattr(value, \"__qualname__\", None) or \"?\"
        return \"%s.%s\" % (type(value).__name__, qualname)
    return type(value).__name__


def _describe(value):
    kind = _kind(value)
    fields = []
    methods = []
    try:
        names = [n for n in dir(value) if not n.startswith(\"_\")]
    except BaseException:
        names = []
    for name in names[:_MAX_ATTRIBUTES]:
        try:
            attribute = getattr(value, name)
        except BaseException:
            continue
        if callable(attribute):
            arity = _arity(attribute)
            methods.append([name, \"null\" if arity is None else str(arity)])
        else:
            fields.append(name)
    return \x7b
        \"kind\": kind,
        \"type\": _type_name(value, kind),
        \"arity\": _arity(value) if kind in (\"function\", \"class\") else None,
        \"fields\": fields,
        \"methods\": methods,
    \x7d


def _builtin_paths():
    paths = [
        name
        for name in dir(builtins)
        if not name.startswith(\"_\") and name not in _EXCLUDED_BUILTINS
    ]
    for module_name in _MODULES:
        module = globals()[module_name]
        paths.extend(
            \"%s.%s\" % (module_name, name)
            for name in dir(module)
            if not name.startswith(\"_\")
        )
    return sorted(set(paths))


class Mirror:
    @staticmethod
    def record(value, index):
        if value is None:
            return
        try:
            entry = _describe(value)
        except BaseException:
            return
        entry[\"index\"] = index
        _emit(json.dumps(entry))

    @staticmethod
    def enumerate():
        _emit(json.dumps(_builtin_paths()))

    @staticmethod
    def print(value):
        try:
            text = str(value)
        except BaseException:
            text = \"<unprintable>\"
        _emit(text.replace(\"\\n\", \"\\\\n\"))

    @staticmethod
    def crash():
        os.abort()
"

def source : String :=
  preface ++ String.join (used.map fun name => "import " ++ name ++ "\n") ++ body


end ScriptFuzz.Hook
