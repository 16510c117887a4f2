import TailLisp.Node.Outline
import TailLisp.Notice
import TailLisp.Source

namespace TailLisp

/-!
The command line.

The program reads one source, from a file or from standard input, and prints
its forms, either as text or as outlines.  Everything it does is a function of
the arguments and of the sources they can name, so this module only computes
what is written and how the program exits.
-/

namespace CommandLine

/-- What the arguments ask for. -/
structure Options where
  /-- The file to read; the empty name stands for standard input. -/
  file : Bytes
  data : Bool
  outline : Bool
  verbose : Bool

/-- Why the arguments are refused. -/
inductive ArgumentError where
  | unrecognizedOption (argument : Bytes)
  | multipleSources

/-- What the arguments amount to. -/
inductive Request where
  | help
  | refuse (error : ArgumentError)
  | run (options : Options)

/-- What the program writes, and the status it exits with. -/
structure Result where
  status : UInt8
  output : Bytes
  diagnostics : Bytes

namespace ArgumentError

def message : ArgumentError -> Bytes
  | unrecognizedOption argument => Bytes.ofText "Unrecognized option: " ++ argument
  | multipleSources => Bytes.ofText "Multiple input sources provided."

end ArgumentError

namespace Options

/-- What is asked for without arguments. -/
def default : Options :=
  { file := [], data := false, outline := false, verbose := false }

end Options

/-- Reads the remaining arguments.  The flag tells that standard input was
asked for by a lone dash.  Options are single letters; asking for help ends
the reading, and so does the first argument that is refused. -/
def requestFrom (options : Options) (dash : Bool) : List Bytes -> Request
  | [] => .run options
  | argument :: arguments =>
      if argument.head? = some '-'.toUInt8 then
        match argument with
        | [_] =>
            if dash || !options.file.isEmpty then .refuse .multipleSources
            else requestFrom options true arguments
        | [_, letter] =>
            if letter = 'h'.toUInt8 then .help
            else if letter = 'd'.toUInt8 then
              requestFrom { options with data := true } dash arguments
            else if letter = 't'.toUInt8 then
              requestFrom { options with outline := true } dash arguments
            else if letter = 'v'.toUInt8 then
              requestFrom { options with verbose := true } dash arguments
            else .refuse (.unrecognizedOption argument)
        | _ => .refuse (.unrecognizedOption argument)
      else if dash || !options.file.isEmpty then
        .refuse .multipleSources
      else
        requestFrom { options with file := argument } dash arguments

/-- Reads the arguments. -/
def request (arguments : List Bytes) : Request :=
  requestFrom .default false arguments

/-- The help text. -/
def usage : Bytes :=
  Bytes.ofText <|
    "Usage: sprig [options] [FILE | -]\n" ++
    "Description:\n" ++
    "  Parse sprig source and print the resulting syntax tree.\n" ++
    "Options/Arguments:\n" ++
    "  -h            Show this help message and exit.\n" ++
    "  -d            Data mode. Read the input as quoted data.\n" ++
    "  -t            Print an indented tree dump with tail flags.\n" ++
    "  -v            Verbose. Log each form as it is parsed.\n" ++
    "  -             Take file input directly from STDIN.\n" ++
    "  FILE          File to parse. Omitting this reads STDIN.\n"

/-- A notice of the program itself. -/
def notice (severity : Severity) (origin : Option Position) (message : Bytes) : Notice :=
  { severity, origin, subsystem := Bytes.ofText "driver", message }

namespace Options

/-- Information is shown only on request. -/
def channels (options : Options) : Channels :=
  { errors := true, info := options.verbose }

/-- How a form is printed. -/
def present (options : Options) (table : SymbolTable) (form : Node SymbolId) : Bytes :=
  if options.outline then form.outline table.nameOf
  else form.print table.nameOf ++ Bytes.ofText "\n"

/-- What is said about a form that was read. -/
def remark (options : Options) (form : Node SymbolId) : Bytes :=
  options.channels.emit <| notice .info (some form.pos) <|
    Bytes.ofText "Parsed " ++ form.kindName ++ Bytes.ofText " form."

/-- Prints forms in turn, and a fault behind them. -/
def report (options : Options) (table : SymbolTable) (forms : List (Node SymbolId))
    (fault : Option Fault) : Result :=
  let complaint := match fault with
    | some fault => options.channels.emit (.ofFault fault)
    | none => []
  { status := if fault.isSome then 1 else 0
    output := forms.flatMap (options.present table)
    diagnostics := forms.flatMap options.remark ++ complaint }

/-- Reads a program.  It is printed only if all of it is sound. -/
def runCode (options : Options) (text : Bytes) : Result :=
  let (batch, table) := SymbolTable.empty.prepare.readItems (.code false) (.ofText text)
  options.report table (batch.outcome.toOption.getD []) batch.fault

/-- Reads data.  Each datum before a fault is printed. -/
def runData (options : Options) (text : Bytes) : Result :=
  let begun := (Cursor.ofText text).skipBlank
  if begun.atEnd then
    { status := 0
      output := []
      diagnostics := options.channels.emit <|
        notice .warning none (Bytes.ofText "Input contained no data.") }
  else
    let (batch, table) := SymbolTable.empty.prepare.readItems .data begun
    options.report table batch.items batch.fault

/-- Reads a source with a name to show. -/
def runOn (options : Options) (name text : Bytes) : Result :=
  let opening := options.channels.emit <|
    notice .info none (Bytes.ofText "Reading " ++ name ++ Bytes.ofText ".")
  let result := if options.data then options.runData text else options.runCode text
  { result with diagnostics := opening ++ result.diagnostics }

/-- Finds the source and reads it. -/
def run (options : Options) (input : Bytes) (contents? : Bytes -> Option Bytes) : Result :=
  if options.file.isEmpty then
    options.runOn (Bytes.ofText "<stdin>") input
  else
    match contents? options.file with
    | some text => options.runOn options.file text
    | none =>
        { status := 1
          output := []
          diagnostics := options.channels.emit <| notice .error none <|
            Bytes.ofText "Could not open file " ++ options.file ++ Bytes.ofText "." }

end Options

namespace Request

/-- Carries out a request, given the standard input and what can be read from
the files that can be opened. -/
def result (request : Request) (input : Bytes) (contents? : Bytes -> Option Bytes) : Result :=
  match request with
  | help => { status := 0, output := usage, diagnostics := [] }
  | refuse error =>
      { status := 255
        output := Bytes.ofText "Error processing command line arguments:\n  " ++
          error.message ++ Bytes.ofText "\n"
        diagnostics := [] }
  | run options => options.run input contents?

end Request

end CommandLine

end TailLisp
