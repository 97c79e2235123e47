/-
Vapor/Command/Options.lean

The options of the command line and what its words mean.  First every word is
classified: as an option, possibly with a value attached to it, as a plain
argument, or as the separator after which all words are plain.  Then the words
are taken from left to right; the first plain argument is the input.
-/
import Vapor.Text.Integer

namespace Vapor.Command

open Text

/-- The stages of a compilation that one can stop after. -/
inductive Phase where
  | lex
  | parse
  | liveness
  | alloc
  | lower
deriving DecidableEq, Repr

namespace Phase

/-- All stages in their order. -/
def all : List Phase :=
  [lex, parse, liveness, alloc, lower]

/-- The name of a stage. -/
def name : Phase → String
  | lex => "lex"
  | parse => "parse"
  | liveness => "liveness"
  | alloc => "alloc"
  | lower => "lower"

/-- The stage of a name. -/
def named? (name : String) : Option Phase :=
  all.find? fun p => p.name == name

end Phase

/-- What the command line asks for.  A width or a stage that has been given
without a value is `none`. -/
structure Options where
  /-- The file to read, or a hyphen for the standard input. -/
  input : String
  /-- The file to write; empty if there is none. -/
  output : String := ""
  /-- The stage to stop after. -/
  stopAfter : Option Phase := some .lower
  /-- The width of an indentation level. -/
  indent : Option Int := some 2
  printTokens : Bool := false
  printProgram : Bool := false
  printSpans : Bool := false
  printLiveness : Bool := false
  printAllocation : Bool := false
  printResult : Bool := false
deriving DecidableEq, Repr

/-! ### The options and their spellings -/

/-- The options. -/
inductive Opt where
  | help
  | output
  | stopAfter
  | indent
  | printTokens
  | printProgram
  | printSpans
  | printLiveness
  | printAllocation
  | printResult
deriving DecidableEq, Repr

namespace Opt

/-- All options in the order in which they are explained. -/
def all : List Opt :=
  [help, output, stopAfter, indent, printTokens, printProgram, printSpans, printLiveness,
    printAllocation, printResult]

/-- The spellings of an option, a short one first. -/
def spellings : Opt → List String
  | help => ["-h", "--help"]
  | output => ["-o", "--output"]
  | stopAfter => ["--stop-after"]
  | indent => ["--indent"]
  | printTokens => ["--print-tokens"]
  | printProgram => ["--print-ir"]
  | printSpans => ["--print-ir-spans"]
  | printLiveness => ["--print-liveness"]
  | printAllocation => ["--print-allocation"]
  | printResult => ["--print-vaporm"]

/-- Does the option come with a value? -/
def takesValue : Opt → Bool
  | output | stopAfter | indent => true
  | _ => false

/-- The spelling of the option in messages. -/
def title (o : Opt) : String :=
  String.intercalate "/" o.spellings

/-- All spellings with their options. -/
def table : List (String × Opt) :=
  all.flatMap fun o => o.spellings.map fun s => (s, o)

end Opt

/-! ### Errors -/

/-- What is wrong with a command line. -/
inductive UsageError where
  | ambiguous (word : String) (candidates : List String)
  | noInput
  | unrecognized (words : List String)
  | noValue (o : Opt)
  | unwantedValue (o : Opt) (value : String)
  | badInteger (o : Opt) (value : String)
  | badPhase (o : Opt) (value : String)
deriving DecidableEq, Repr

/-- The wording of an error. -/
def UsageError.text : UsageError → String
  | ambiguous word candidates =>
    s!"ambiguous option: {word} could match " ++ String.intercalate ", " candidates
  | noInput => "the following arguments are required: input"
  | unrecognized words => "unrecognized arguments: " ++ String.intercalate " " words
  | noValue o => s!"argument {o.title}: expected one argument"
  | unwantedValue o value => s!"argument {o.title}: ignored explicit argument {quoted value}"
  | badInteger o value => s!"argument {o.title}: invalid int value: {quoted value}"
  | badPhase o value =>
    s!"argument {o.title}: invalid choice: {quoted value} (choose from " ++
      String.intercalate ", " (Phase.all.map fun p => quoted p.name) ++ ")"

/-! ### Words -/

/-- A word of the command line. -/
inductive Word where
  /-- The word after which there are no more options. -/
  | separator
  | plain (text : String)
  /-- An option, `short` if a single hyphen introduces it, with the text that
  the same word attaches to it. -/
  | option (o : Opt) (short : Bool) (attached : Option (List Char))
  /-- A word that looks like an option and is none. -/
  | unknown (text : String)
deriving DecidableEq, Repr

/-- Does the word begin with a single hyphen? -/
def isShort : List Char → Bool
  | '-' :: '-' :: _ => false
  | _ => true

/-- The option of a spelling. -/
def optionOf? (spelling : List Char) : Option Opt :=
  Opt.table.lookup (String.ofList spelling)

/-- Is the word a negative number?  A line feed may end it. -/
def isNegativeNumber : List Char → Bool
  | '-' :: cs =>
    let cs := if cs.getLast? = some '\n' then cs.dropLast else cs
    let isDecimal (c : Char) : Bool := (decimal? c).isSome
    match cs.dropWhile isDecimal with
    | [] => !cs.isEmpty
    | '.' :: fraction => !fraction.isEmpty && fraction.all isDecimal
    | _ => false
  | _ => false

/-- The spellings that a word with two hyphens may abbreviate. -/
def abbreviated (stem : List Char) : List (String × Opt) :=
  Opt.table.filter fun s => stem.isPrefixOf s.1.toList

/-- The value after an equals sign, if there is one. -/
def afterEquals : List Char → Option (List Char)
  | '=' :: value => some value
  | _ => none

/-- What a word means that is not spelled like an option. -/
def classifyOther (word : List Char) : Word :=
  if isNegativeNumber word || word.contains ' ' then .plain (String.ofList word)
  else .unknown (String.ofList word)

/-- What a word before the separator means. -/
def classify (text : String) : Except UsageError Word :=
  let word := text.toList
  let stem := word.takeWhile (· != '=')
  let value := afterEquals (word.drop stem.length)
  if word.head? ≠ some '-' then .ok (.plain text)
  else
    match optionOf? word with
    | some o => .ok (.option o (isShort word) none)
    | none =>
      if word.length = 1 then .ok (.plain text)
      else
        match value, optionOf? stem with
        | some attached, some o => .ok (.option o (isShort word) (some attached))
        | _, _ =>
          if isShort word then
            match optionOf? (word.take 2) with
            | some o => .ok (.option o true (some (word.drop 2)))
            | none => .ok (classifyOther word)
          else
            match abbreviated stem with
            | [] => .ok (classifyOther word)
            | [s] => .ok (.option s.2 false value)
            | candidates => .error (.ambiguous text (candidates.map Prod.fst))

/-- What all the words mean. -/
def classifyAll : List String → Except UsageError (List Word)
  | [] => .ok []
  | "--" :: rest => .ok (.separator :: rest.map .plain)
  | word :: rest => do
    let w ← classify word
    return w :: (← classifyAll rest)

/-! ### Taking the words -/

/-- What has been asked for so far. -/
structure Request where
  input : Option String := none
  options : Options := { input := "" }
  /-- The words that mean nothing. -/
  extras : List String := []

/-- What a command line asks for. -/
inductive Action where
  | help
  | compile (options : Options)
deriving DecidableEq, Repr

namespace Request

/-- The value of an option: a text spelled like the separator is none. -/
def valueOf? (text : String) : Option String :=
  if text = "--" then none else some text

/-- Sets an option.  The text counts only for an option that takes a value. -/
def setOption (r : Request) (o : Opt) (text : String) : Except UsageError Request :=
  let set (options : Options) : Except UsageError Request := .ok { r with options := options }
  match o with
  | .help => .ok r
  | .output => set { r.options with output := (valueOf? text).getD "" }
  | .stopAfter =>
    match valueOf? text with
    | none => set { r.options with stopAfter := none }
    | some value =>
      match Phase.named? value with
      | some p => set { r.options with stopAfter := some p }
      | none => .error (.badPhase o value)
  | .indent =>
    match valueOf? text with
    | none => set { r.options with indent := none }
    | some value =>
      match readInteger value with
      | .ok n => set { r.options with indent := some n }
      | .error _ => .error (.badInteger o value)
  | .printTokens => set { r.options with printTokens := true }
  | .printProgram => set { r.options with printProgram := true }
  | .printSpans => set { r.options with printSpans := true }
  | .printLiveness => set { r.options with printLiveness := true }
  | .printAllocation => set { r.options with printAllocation := true }
  | .printResult => set { r.options with printResult := true }

/-- The whole request, when no word is left. -/
def finish (r : Request) : Except UsageError Action :=
  match r.input, r.extras with
  | none, _ => .error .noInput
  | some input, [] => .ok (.compile { r.options with input := input })
  | some _, extras => .error (.unrecognized extras)

end Request

/-- The last option of a word that begins with a short flag, given the letters
behind the flag.  Each letter is a short option of its own, up to the first one
that takes a value, whose value is the rest of the word, if anything is left. -/
def cluster (flag : Opt) : List Char → Except UsageError (Opt × Option String)
  | [] => .error (.unwantedValue flag "")
  | c :: rest =>
    match optionOf? ['-', c] with
    | none => .error (.unwantedValue flag (String.ofList (c :: rest)))
    | some o =>
      if rest = [] then .ok (o, none)
      else if o.takesValue then .ok (o, some (String.ofList rest))
      else cluster o rest

/-- Takes the words from left to right. -/
def take (r : Request) : List Word → Except UsageError Action
  | [] => r.finish
  | .plain text :: rest =>
    match r.input, rest with
    | none, .separator :: rest => take { r with input := some text } rest
    | none, rest => take { r with input := some text } rest
    | some _, rest => take { r with extras := r.extras ++ [text] } rest
  | .separator :: rest =>
    match r.input, rest with
    | none, .plain text :: rest => take { r with input := some text } rest
    | _, rest => take { r with extras := r.extras ++ ["--"] } rest
  | .unknown text :: rest => take { r with extras := r.extras ++ [text] } rest
  | .option o short attached :: rest =>
    if o.takesValue then
      match attached, rest with
      | some text, rest => do take (← r.setOption o (String.ofList text)) rest
      | none, .plain text :: rest => do take (← r.setOption o text) rest
      | none, _ => .error (.noValue o)
    else
      match short, attached with
      | _, none => if o = .help then .ok .help else do take (← r.setOption o "") rest
      | false, some text => .error (.unwantedValue o (String.ofList text))
      | true, some text =>
        -- The only flag with a short spelling is the one for help.
        match cluster o text, rest with
        | .error e, _ => .error e
        | .ok (_, some _), _ => .ok .help
        | .ok (_, none), .plain _ :: _ => .ok .help
        | .ok (last, none), _ => if last.takesValue then .error (.noValue last) else .ok .help

/-- What a command line asks for. -/
def command (args : List String) : Except UsageError Action := do
  take {} (← classifyAll args)

/-! ### Usage -/

/-- The name of the program. -/
def programName : String :=
  "v2vm"

/-- A summary of the command line. -/
def usage : String :=
  String.join
    ["usage: v2vm [-h] [-o OUTPUT] [--stop-after \x7blex,parse,liveness,alloc,lower\x7d]\n",
      "            [--indent INDENT] [--print-tokens] [--print-ir] [--print-ir-spans]\n",
      "            [--print-liveness] [--print-allocation] [--print-vaporm]\n",
      "            input\n"]

/-- An explanation of the command line. -/
def helpText : String :=
  usage ++ String.join
    ["\n",
      "Vapor register allocator (default: emit Vapor-M).\n",
      "\n",
      "positional arguments:\n",
      "  input                 Input .vapor source file ('-' reads stdin)\n",
      "\n",
      "options:\n",
      "  -h, --help            show this help message and exit\n",
      "  -o OUTPUT, --output OUTPUT\n",
      "                        Output .vaporm file path (default: stdout)\n",
      "  --stop-after \x7blex,parse,liveness,alloc,lower\x7d\n",
      "                        Stop after a compiler phase for debugging\n",
      "  --indent INDENT       Spaces per indentation level in the output\n",
      "  --print-tokens        Print tokens after lexing\n",
      "  --print-ir            Print parsed IR as JSON\n",
      "  --print-ir-spans      Include spans in --print-ir output\n",
      "  --print-liveness      Print per-instruction liveness sets\n",
      "  --print-allocation    Print the register/stack assignment\n",
      "  --print-vaporm        Also print emitted Vapor-M to stdout\n"]

/-- What is said about a command line that is wrong. -/
def UsageError.message (e : UsageError) : String :=
  usage ++ programName ++ ": error: " ++ e.text ++ "\n"

end Vapor.Command
