import Petospa.Lib.Dict
import Petospa.Lib.Json

/-!
# The serializable objects of the tuner

`to_json` walks the attributes of a live object, `from_json` calls the constructor
of its class with whatever keys the text has. Objects are values here, so that
lists of objects, attributes and parsed documents are walked by the same recursion.
-/

namespace Petospa.Serializable

open Text

/-- What a Python run raises. -/
inductive PyError where
  | assertionError
  | attributeError
  | keyError
  | typeError
  | valueError
  | overflowError
  | jsonDecodeError
  deriving DecidableEq, Repr

/-- The classes of the objects that can be part of a document. -/
inductive ClassName where
  | sourceFile
  | inputOutputPair
  | benchmark
  | experiment
  | optimisticChoice
  deriving DecidableEq, Repr

/-- `__type__`, which the choices do not have. -/
def ClassName.type : ClassName → Option Str
  | .sourceFile => some (lit "SourceFile")
  | .inputOutputPair => some (lit "InputOutputPair")
  | .benchmark => some (lit "Benchmark")
  | .experiment => some (lit "Experiment")
  | .optimisticChoice => none

/-- Python values, objects with their `__dict__`. -/
inductive Value (F : Type) where
  | none
  | bool (b : Bool)
  | int (i : Int)
  | float (x : PyFloat F)
  | str (s : Str)
  | list (items : List (Value F))
  | tuple (items : List (Value F))
  | dict (entries : List (Str × Value F))
  | object (c : ClassName) (attributes : List (Str × Value F))

variable {F : Type}

namespace Value

/-- `bool(value)`. -/
def truthy [FloatFormat F] : Value F → Bool
  | .none => false
  | .bool b => b
  | .int i => i ≠ 0
  | .float (.finite x) => !FloatFormat.isZero x
  | .float _ => true
  | .str s => !s.isEmpty
  | .list items => !items.isEmpty
  | .tuple items => !items.isEmpty
  | .dict entries => !entries.isEmpty
  | .object _ _ => true

/-- The elements of an `Iterable`. -/
def elements? : Value F → Option (List (Value F))
  | .str s => some (s.map fun c => .str [c])
  | .list items => some items
  | .tuple items => some items
  | .dict entries => some (entries.map fun e => .str e.1)
  | _ => Option.none

def isStr : Value F → Bool
  | .str _ => true
  | _ => false

end Value

/-! ### The constructors -/

/-- `os.path.splitext(os.path.basename(path))[0]`: dots at the front of the name
do not start an extension. -/
def getFileName (path : Str) : Str :=
  let base := (path.reverse.takeWhile (· ≠ ord '/')).reverse
  let stem := ((base.reverse.dropWhile (· ≠ ord '.')).drop 1).reverse
  if stem.any (· ≠ ord '.') then stem else base

/-- The attributes of a `Sourcefile`. -/
abbrev Sourcefile.object (path options onlyFunctions outputFile optimisticChoices
    currentControlString : Value F) : Value F :=
  .object .sourceFile [(lit "path", path), (lit "options", options),
    (lit "only_functions", onlyFunctions), (lit "output_file", outputFile),
    (lit "optimistic_choices", optimisticChoices),
    (lit "current_control_string", currentControlString)]

section Init

variable [FloatFormat F]

/-- `Sourcefile.__init__`. -/
def Sourcefile.init (path options onlyFunctions outputFile : Value F) : Except PyError (Value F) :=
  match path with
  | .str path =>
      if lit ".c" <:+ path ∨ lit ".cc" <:+ path ∨ lit ".cpp" <:+ path then
        .ok (Sourcefile.object (.str path) options onlyFunctions
          (if outputFile.truthy then outputFile else .str (getFileName path ++ lit ".o"))
          (.list []) (.str []))
      else .error .assertionError
  | _ => .error .attributeError

/-- `InputOutputPair.__init__`: the attributes are the parameters. -/
abbrev InputOutputPair.init (input output timeout returncode useStdout useStderr : Value F) :
    Value F :=
  .object .inputOutputPair [(lit "input", input), (lit "output", output), (lit "timeout", timeout),
    (lit "returncode", returncode), (lit "use_stdout", useStdout), (lit "use_stderr", useStderr)]

/-- What `Benchmark.__init__` appends for an element of `source_files`. -/
def Benchmark.sourceFile : Value F → Except PyError (Value F)
  | .object .sourceFile attributes => .ok (.object .sourceFile attributes)
  | .str path => Sourcefile.init (.str path) (.list []) (.list []) (.str [])
  | _ => .error .valueError

/-- What `Benchmark.__init__` appends for an element of `input_output_pairs`. Two
strings are passed on as they are, which leaves the `timeout` out. -/
def Benchmark.ioPair : Value F → Except PyError (Value F)
  | .object .inputOutputPair attributes => .ok (.object .inputOutputPair attributes)
  | .tuple [.str _, .str _] => .error .typeError
  | _ => .error .valueError

/-- `for element in value: elements.append(...)`. -/
def Benchmark.appendAll (value : Value F) (append : Value F → Except PyError (Value F)) :
    Except PyError (Value F) :=
  match value.elements? with
  | some elements => do return .list (← elements.mapM append)
  | none => .error .typeError

/-- The attributes of a `Benchmark`. -/
abbrev Benchmark.object (name sourceFiles inputOutputPairs options executable makeCmd verifyCmd
    verifyCmdTimeout numOutVersions : Value F) : Value F :=
  .object .benchmark [(lit "name", name), (lit "source_files", sourceFiles),
    (lit "input_output_pairs", inputOutputPairs), (lit "options", options),
    (lit "executable", executable), (lit "make_cmd", makeCmd), (lit "verify_cmd", verifyCmd),
    (lit "verify_cmd_timeout", verifyCmdTimeout), (lit "_num_out_versions", numOutVersions)]

/-- `Benchmark.__init__`. -/
def Benchmark.init (name sourceFiles options executable inputOutputPairs verifyCmd
    verifyCmdTimeout makeCmd : Value F) : Except PyError (Value F) :=
  if options.elements?.any (·.all Value.isStr) then do
    let files ← Benchmark.appendAll sourceFiles Benchmark.sourceFile
    let pairs ← Benchmark.appendAll inputOutputPairs Benchmark.ioPair
    return Benchmark.object name files pairs options executable makeCmd verifyCmd
      verifyCmdTimeout (.int 0)
  else .error .assertionError

/-- `time.time() + seconds`, at the time of the call. -/
abbrev Clock (F : Type) := Int ⊕ PyFloat F → Except PyError (PyFloat F)

/-- `(time.time() + max_time) if max_time else None`. -/
def Experiment.timeEnd (now : Clock F) (maxTime : Value F) : Except PyError (Value F) :=
  if maxTime.truthy then
    match maxTime with
    | .int seconds => do return .float (← now (.inl seconds))
    | .bool _ => do return .float (← now (.inl 1))
    | .float seconds => do return .float (← now (.inr seconds))
    | _ => .error .typeError
  else .ok .none

/-- The attributes of an `Experiment`. -/
abbrev Experiment.object (benchmarkFiles maxTries maxTime timeEnd ocBlacklist ocWhitelist
    annotationRun : Value F) : Value F :=
  .object .experiment [(lit "benchmark_files", benchmarkFiles), (lit "max_tries", maxTries),
    (lit "max_time", maxTime), (lit "time_end", timeEnd), (lit "oc_blacklist", ocBlacklist),
    (lit "oc_whitelist", ocWhitelist), (lit "annotation_run", annotationRun)]

/-- `Experiment.__init__` at a time. -/
def Experiment.init (now : Clock F)
    (benchmarkFiles maxTries maxTime ocBlacklist ocWhitelist : Value F) :
    Except PyError (Value F) := do
  let timeEnd ← Experiment.timeEnd now maxTime
  let blacklist := match ocBlacklist with
    | .list items => .list items
    | value => .list [value]
  let whitelist := match ocWhitelist with
    | .list [] => .none
    | value => value
  return Experiment.object benchmarkFiles maxTries maxTime timeEnd blacklist whitelist (.int 0)

/-- The parameters of a constructor with their defaults. -/
def ClassName.parameters : ClassName → List (Str × Option (Value F))
  | .sourceFile => [(lit "path", none), (lit "options", some (.list [])),
      (lit "only_functions", some (.list [])), (lit "output_file", some (.str []))]
  | .inputOutputPair => [(lit "input", none), (lit "output", none), (lit "timeout", none),
      (lit "returncode", some (.int 0)), (lit "use_stdout", some (.bool true)),
      (lit "use_stderr", some (.bool true))]
  | .benchmark => [(lit "name", none), (lit "source_files", none), (lit "options", none),
      (lit "executable", none), (lit "input_output_pairs", none),
      (lit "verify_cmd", some (.str [])), (lit "verify_cmd_timeout", some (.int 86400)),
      (lit "make_cmd", some (.str (lit "make")))]
  | .experiment => [(lit "benchmark_files", none), (lit "max_tries", some .none),
      (lit "max_time", some .none), (lit "oc_blacklist", some (.list [])),
      (lit "oc_whitelist", some .none)]
  | .optimisticChoice => []

/-- A constructor, called with its arguments in the order of its parameters. -/
def ClassName.init (now : Clock F) : ClassName → List (Value F) → Except PyError (Value F)
  | .sourceFile, [path, options, onlyFunctions, outputFile] =>
      Sourcefile.init path options onlyFunctions outputFile
  | .inputOutputPair, [input, output, timeout, returncode, useStdout, useStderr] =>
      .ok (InputOutputPair.init input output timeout returncode useStdout useStderr)
  | .benchmark, [name, sourceFiles, options, executable, inputOutputPairs, verifyCmd,
      verifyCmdTimeout, makeCmd] =>
      Benchmark.init name sourceFiles options executable inputOutputPairs verifyCmd
        verifyCmdTimeout makeCmd
  | .experiment, [benchmarkFiles, maxTries, maxTime, ocBlacklist, ocWhitelist] =>
      Experiment.init now benchmarkFiles maxTries maxTime ocBlacklist ocWhitelist
  | _, _ => .error .typeError

end Init

/-! ### Writing -/

def typeKey : Str := lit "__type__"

/-- `not k.startswith('_')`. -/
def isPublic (key : Str) : Bool := key.head? ≠ some (ord '_')

mutual

/-- The document of a value: `class_encoder` where `json` asks for it. An object
without `__type__` is handed back by `class_encoder`, which `json` takes for a cycle. -/
def encode : Value F → Except PyError (Json F)
  | .none => .ok .null
  | .bool b => .ok (.bool b)
  | .int i => .ok (.int i)
  | .float x => .ok (.float x)
  | .str s => .ok (.str s)
  | .list items => do return .arr (← encodeItems items)
  | .tuple items => do return .arr (← encodeItems items)
  | .dict entries => do return .obj (← encodeEntries entries)
  | .object c attributes =>
      match c.type with
      | none => .error .valueError
      | some type => do return .obj ((typeKey, .str type) :: (← encodeAttributes attributes))

def encodeItems : List (Value F) → Except PyError (List (Json F))
  | [] => .ok []
  | v :: items => do return (← encode v) :: (← encodeItems items)

def encodeEntries : List (Str × Value F) → Except PyError (List (Str × Json F))
  | [] => .ok []
  | (k, v) :: entries => do return (k, ← encode v) :: (← encodeEntries entries)

def encodeAttributes : List (Str × Value F) → Except PyError (List (Str × Json F))
  | [] => .ok []
  | (k, v) :: attributes =>
      if isPublic k then do return (k, ← encode v) :: (← encodeAttributes attributes)
      else encodeAttributes attributes

end

/-- `value.to_json()`. -/
def toJson [FloatFormat F] (v : Value F) : Except PyError Str := do
  return Json.dumps (← encode v)

/-! ### Reading -/

/-- `dict(pairs)`: the last value of a key counts. -/
def dictOf (pairs : List (Str × Value F)) : List (Str × Value F) :=
  pairs.foldl (fun entries e => Dict.modifyEntries e.1 e.2 (fun _ => e.2) entries) []

def lookup (key : Str) (entries : List (Str × Value F)) : Option (Value F) :=
  (entries.find? (·.1 = key)).map Prod.snd

/-- `f(**kwargs)`: every keyword has to be a parameter, every parameter without a
default has to be given. -/
def bindArguments (parameters : List (Str × Option (Value F))) (kwargs : List (Str × Value F)) :
    Except PyError (List (Value F)) :=
  if kwargs.all fun e => parameters.any fun p => p.1 = e.1 then
    parameters.mapM fun p =>
      match lookup p.1 kwargs, p.2 with
      | some v, _ => .ok v
      | none, some default => .ok default
      | none, none => .error .typeError
  else .error .typeError

/-- `serializable.classes[type]`. Lists and dictionaries cannot be looked up. -/
def classes : Value F → Except PyError ClassName
  | .str type =>
      if type = lit "SourceFile" then .ok .sourceFile
      else if type = lit "InputOutputPair" then .ok .inputOutputPair
      else if type = lit "Benchmark" then .ok .benchmark
      else if type = lit "Experiment" then .ok .experiment
      else .error .keyError
  | .list _ => .error .typeError
  | .dict _ => .error .typeError
  | _ => .error .keyError

section Decoding

variable [FloatFormat F]

/-- `class_decoder`. -/
def classDecoder (now : Clock F) (entries : List (Str × Value F)) : Except PyError (Value F) :=
  match lookup typeKey entries with
  | none => .ok (.dict entries)
  | some type => do
      let c ← classes type
      c.init now (← bindArguments c.parameters (entries.filter (·.1 ≠ typeKey)))

mutual

/-- The value of a document; the objects inside come first. -/
def decode (now : Clock F) : Json F → Except PyError (Value F)
  | .null => .ok .none
  | .bool b => .ok (.bool b)
  | .int i => .ok (.int i)
  | .float x => .ok (.float x)
  | .str s => .ok (.str s)
  | .arr items => do return .list (← decodeItems now items)
  | .obj members => do classDecoder now (dictOf (← decodeMembers now members))

def decodeItems (now : Clock F) : List (Json F) → Except PyError (List (Value F))
  | [] => .ok []
  | d :: items => do return (← decode now d) :: (← decodeItems now items)

def decodeMembers (now : Clock F) : List (Str × Json F) → Except PyError (List (Str × Value F))
  | [] => .ok []
  | (k, d) :: members => do return (k, ← decode now d) :: (← decodeMembers now members)

end

/-- `serializable.from_json(text)` at a time. -/
def fromJson (now : Clock F) (text : Str) : Except PyError (Value F) :=
  match Json.loads text with
  | some document => decode now document
  | none => .error .jsonDecodeError

end Decoding

end Petospa.Serializable
