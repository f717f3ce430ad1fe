import CodeIndex.Text.Quoted

/-!
# Options

How the words of a command line are read. A word is an option, an operand, or the mark `--` after
which everything is an operand. Options can be shortened as long as they stay unambiguous, and a
value follows as the next word or after an equals sign.
-/

namespace CodeIndex.CommandLine

/-- What an option does. -/
inductive Action where
  /-- Shows the help and stops. -/
  | help
  /-- Shows the version and stops. -/
  | version
  /-- Takes a value. -/
  | value
  /-- Is either given or not. -/
  | switch
  deriving DecidableEq, Repr

/-- An option. -/
structure Opt where
  /-- The spellings of the option, the one under which its value is kept last. -/
  spellings : List String
  /-- What it does. -/
  action : Action
  /-- Whether it has to be given. -/
  required : Bool := false
  deriving DecidableEq, Repr

/-- The option in messages. -/
def Opt.title (o : Opt) : String := String.intercalate "/" o.spellings

/-- The spelling under which the value of the option is kept. -/
def Opt.key (o : Opt) : String := o.spellings.getLast?.getD ""

/-- A set of options with its texts. -/
structure Grammar where
  /-- The name of the program or of the command in messages. -/
  program : String
  /-- The usage line or lines. -/
  usage : String
  /-- What the help says below the usage. -/
  details : String
  /-- The options, in the order in which they are listed. -/
  options : List Opt

/-- The end of a program before any work. -/
structure Exit where
  /-- What is printed. -/
  out : String := ""
  /-- What is printed as a complaint. -/
  err : String := ""
  /-- The status. -/
  status : Int
  deriving DecidableEq, Repr

namespace Grammar

/-- The end of the program by a complaint. -/
def fail (g : Grammar) (message : String) : Exit :=
  { err := g.usage ++ g.program ++ ": error: " ++ message ++ "\n", status := 2 }

/-- The end of the program by a complaint about an option or an operand. -/
def failAt (g : Grammar) (title message : String) : Exit :=
  g.fail ("argument " ++ title ++ ": " ++ message)

/-- The end of the program by its help. -/
def showHelp (g : Grammar) : Exit := { out := g.usage ++ "\n" ++ g.details, status := 0 }

/-- All spellings with their options. -/
def spellings (g : Grammar) : List (String × Opt) :=
  g.options.flatMap fun o => o.spellings.map (·, o)

/-- The option with a spelling. -/
def option? (g : Grammar) (s : String) : Option Opt := g.spellings.lookup s

end Grammar

/-- A word of a command line. -/
inductive Word where
  /-- Not an option. -/
  | operand (text : String)
  /-- The mark after which everything is an operand. -/
  | mark
  /-- Looks like an option, but is none that is known. -/
  | unknown (text : String)
  /-- An option in one of its spellings, possibly with a value attached. -/
  | option (o : Opt) (spelling : String) (attached : Option String)
  deriving DecidableEq, Repr

/-- The word as it was written, for those that are passed on. -/
def Word.text : Word → String
  | operand text | unknown text => text
  | mark => "--"
  | option _ spelling _ => spelling

/-- The text before and after the first equals sign. -/
def splitValue (s : List Char) : Option (String × String) :=
  if s.contains '=' then
    some (String.ofList (s.takeWhile (· != '=')), String.ofList ((s.dropWhile (· != '=')).drop 1))
  else none

/-- A text of at least one digit. A line end may follow. -/
def isDigits (s : List Char) : Bool :=
  match s.dropWhile Text.isDecimal with
  | [] => !s.isEmpty
  | rest => s.length > 1 && rest = ['\n']

/-- The word is a negative number: a minus sign and digits, with at most one point among them that
has a digit after it. -/
def isNegativeNumber : List Char → Bool
  | '-' :: s =>
    isDigits s || (match s.dropWhile Text.isDecimal with
      | '.' :: fraction => isDigits fraction
      | _ => false)
  | _ => false

namespace Grammar

/-- The options that a word may be short for, each with its spelling and the value attached to it. A
word with two dashes is compared up to its equals sign; one with a single dash may also have its
value directly attached. -/
def candidates (g : Grammar) (word : List Char) : List Word :=
  match word with
  | '-' :: '-' :: _ =>
    let (start, attached) :=
      match splitValue word with
      | some (start, value) => (start.toList, some value)
      | none => (word, none)
    (g.spellings.filter fun p => start.isPrefixOf p.1.toList).map fun p =>
      .option p.2 p.1 attached
  | _ =>
    g.spellings.filterMap fun p =>
      if p.1.toList = word.take 2 then
        some (.option p.2 p.1 (some (String.ofList (word.drop 2))))
      else if word.isPrefixOf p.1.toList then some (.option p.2 p.1 none)
      else none

/-- What a word with a dash in front is, if it is longer than the dash and no spelling itself. -/
def readDashed (g : Grammar) (word : String) : Except Exit Word :=
  match g.candidates word.toList with
  | [w] => .ok w
  | [] =>
    if isNegativeNumber word.toList || word.toList.contains ' ' then .ok (.operand word)
    else .ok (.unknown word)
  | several =>
    .error (g.fail ("ambiguous option: " ++ word ++ " could match " ++
      String.intercalate ", " (several.map Word.text)))

/-- What a word is, as long as no mark came before it. -/
def readWord (g : Grammar) (word : String) : Except Exit Word :=
  match word.toList with
  | '-' :: rest =>
    match g.option? word with
    | some o => .ok (.option o word none)
    | none =>
      if rest.isEmpty then .ok (.operand word)
      else
        match splitValue word.toList with
        | none => g.readDashed word
        | some (spelling, value) =>
          match g.option? spelling with
          | some o => .ok (.option o spelling (some value))
          | none => g.readDashed word
  | _ => .ok (.operand word)

/-- What the words of a command line are. -/
def readWords (g : Grammar) : List String → Except Exit (List Word)
  | [] => .ok []
  | word :: rest =>
    if word = "--" then .ok (.mark :: rest.map .operand)
    else do
      let w ← g.readWord word
      return w :: (← g.readWords rest)

end Grammar

/-- What the options of a command line say. -/
structure Reading where
  /-- The values, by the key of the option; the last one counts. -/
  values : List (String × String) := []
  /-- The keys of the switches that are given. -/
  switches : List String := []
  /-- The words that mean nothing. -/
  extras : List String := []
  deriving DecidableEq, Repr

namespace Reading

/-- The value of an option. -/
def value? (r : Reading) (key : String) : Option String := r.values.lookup key

/-- The switch is given. -/
def isOn (r : Reading) (key : String) : Bool := r.switches.contains key

/-- The reading with one more value. -/
def withValue (r : Reading) (o : Opt) (value : String) : Reading :=
  { r with values := (o.key, value) :: r.values }

/-- The reading with one more switch. -/
def withSwitch (r : Reading) (o : Opt) : Reading := { r with switches := o.key :: r.switches }

/-- The reading with one more word that means nothing. -/
def withExtra (r : Reading) (word : String) : Reading := { r with extras := r.extras ++ [word] }

end Reading

namespace Grammar

/-- Carries out an option that takes no value. -/
def carryOut (g : Grammar) (version : String) (o : Opt) (r : Reading) : Except Exit Reading :=
  match o.action with
  | .help => .error g.showHelp
  | .version => .error { out := version ++ "\n", status := 0 }
  | .value | .switch => .ok (r.withSwitch o)

/-- The complaint about a value that an option does not take. -/
def ignored (g : Grammar) (o : Opt) (value : String) : Exit :=
  g.failAt o.title ("ignored explicit argument " ++ Text.quote value)

/-- Reads what is attached to a one-letter option that takes no value: further one-letter options
without values. The result is the options to carry out. -/
def readCluster (g : Grammar) (o : Opt) : List Char → Except Exit (List Opt)
  | [] => .ok [o]
  | c :: rest =>
    match g.option? (String.ofList ['-', c]) with
    | none => .error (g.ignored o (String.ofList (c :: rest)))
    | some next => do return o :: (← g.readCluster next rest)

/-- Reads an option with a value attached. -/
def readAttached (g : Grammar) (version : String) (o : Opt) (spelling value : String)
    (r : Reading) : Except Exit Reading :=
  if o.action = .value then .ok (r.withValue o value)
  else if spelling.toList.take 2 = ['-', '-'] || value.isEmpty then .error (g.ignored o value)
  else do
    let options ← g.readCluster o value.toList
    options.foldlM (fun r o => g.carryOut version o r) r

/-- Reads the words of a command. -/
def readOptions (g : Grammar) (version : String) : List Word → Reading → Except Exit Reading
  | [], r => .ok r
  | .option o spelling (some value) :: rest, r => do
    g.readOptions version rest (← g.readAttached version o spelling value r)
  | .option o _ none :: rest, r =>
    if o.action = .value then
      match rest with
      | .operand value :: rest => g.readOptions version rest (r.withValue o value)
      | _ => .error (g.failAt o.title "expected one argument")
    else do g.readOptions version rest (← g.carryOut version o r)
  | word :: rest, r => g.readOptions version rest (r.withExtra word.text)

/-- The required options that are not given. -/
def absent (g : Grammar) (r : Reading) : List String :=
  (g.options.filter fun o => o.required && (r.value? o.key).isNone).map Opt.title

/-- Reads a command line of options only. -/
def read (g : Grammar) (version : String) (words : List String) : Except Exit Reading := do
  let r ← g.readOptions version (← g.readWords words) {}
  if (g.absent r).isEmpty then return r
  else
    throw (g.fail ("the following arguments are required: " ++
      String.intercalate ", " (g.absent r)))

end Grammar

end CodeIndex.CommandLine
