/-
# Arguments

The arguments of a command are settings and operands. A setting is written by its name behind two
dashes or by its letter behind one; letters may share a dash. Its value, if it takes one, is written
behind `=`, or right behind the letter, or as the next argument, which then must not look like a
setting. A dash alone is no setting, and all arguments behind two dashes alone are operands.

Arguments are read from left to right, and the first that is out of place, or that asks for a notice
instead of a run, ends the reading.

Key definitions: `Setting`, `Given`, `Given.read`, `firstOperand`.
-/
namespace SelectLang

/-- What the program says instead of running a command. -/
inductive Notice where
  /-- The arguments are not in order. -/
  | misuse
  | help
  | version
deriving DecidableEq, Repr

/-- How often a setting is given, and with what. -/
inductive SettingKind where
  /-- Is given at most once. -/
  | switch
  /-- Is given any number of times. -/
  | counter
  /-- Takes a value that is not empty, and is given at most once. -/
  | value
  | notice (notice : Notice)
deriving DecidableEq, Repr

/-- A setting that a command knows, by its name and, if it has one, its letter. -/
structure Setting where
  name : String
  letter : Option Char
  kind : SettingKind
deriving DecidableEq, Repr

/-! ### Single arguments -/

/-- The form of an argument. -/
inductive Argument where
  /-- Two dashes, behind which all are operands. -/
  | divider
  | named (name : String) (value : Option String)
  | letters (letters : List Char)
  | plain (text : String)
deriving DecidableEq, Repr

namespace Argument

/-- A setting by its name, and by its value if there is an `=`. -/
def ofNamed (text : List Char) : Argument :=
  let name := String.ofList (text.takeWhile (· != '='))
  match text.dropWhile (· != '=') with
  | [] => named name none
  | _ :: value => named name (some (String.ofList value))

/-- The form of an argument, by the dashes that it begins with. -/
def ofText (text : String) : Argument :=
  match text.toList with
  | ['-', '-'] => divider
  | '-' :: '-' :: rest => ofNamed rest
  | '-' :: c :: rest => letters (c :: rest)
  | _ => plain text

end Argument

/-! ### Settings -/

/-- What the arguments have given so far. -/
structure Given where
  /-- The settings by name. -/
  settings : List (String × Option String)
  operands : List String
deriving DecidableEq, Repr

namespace Given

/-- Nothing is given. -/
def empty : Given := ⟨[], []⟩

/-- The setting is given, with or without a value. -/
def isSet (given : Given) (name : String) : Bool := (given.settings.lookup name).isSome

/-- The value that is given for the setting. -/
def value? (given : Given) (name : String) : Option String := (given.settings.lookup name).join

/-- Adds what may be given once. -/
def addOnce (given : Given) (name : String) (value : Option String) : Except Notice Given :=
  if given.isSet name then .error .misuse
  else .ok { given with settings := given.settings ++ [(name, value)] }

/-- Adds a setting with the value that is written for it. -/
def add (given : Given) (setting : Setting) (value : Option String) : Except Notice Given :=
  match setting.kind, value with
  | .notice notice, none => .error notice
  | .counter, none => .ok given
  | .switch, none => given.addOnce setting.name none
  | .value, some text =>
    if text.isEmpty then .error .misuse else given.addOnce setting.name (some text)
  | _, _ => .error .misuse

/-- Adds an operand, when there may be `limit` of them. -/
def addOperand (limit : Nat) (given : Given) (text : String) : Except Notice Given :=
  if given.operands.length < limit then
    .ok { given with operands := given.operands ++ [text] }
  else .error .misuse

/-- What is given after an argument, and the setting that waits for its value. -/
abbrev Step : Type := Except Notice (Given × Option Setting)

/-- The step that leaves no setting waiting. -/
def Step.settled (given : Except Notice Given) : Step := given.map (·, none)

/-- Adds a setting by its name. -/
def addNamed (settings : List Setting) (given : Given) (name : String) (value : Option String) :
    Step :=
  match settings.find? (·.name == name) with
  | none => .error .misuse
  | some setting =>
    if setting.kind = .value ∧ value = none then .ok (given, some setting)
    else .settled (given.add setting value)

/-- Adds the settings of letters that share a dash. What stands behind the letter of a setting with a
value is that value. -/
def addLetters (settings : List Setting) (given : Given) : List Char → Step
  | [] => .ok (given, none)
  | c :: rest =>
    match settings.find? (·.letter == some c) with
    | none => .error .misuse
    | some setting =>
      if setting.kind = .value then
        match rest with
        | [] => .ok (given, some setting)
        | '=' :: value => .settled (given.add setting (some (String.ofList value)))
        | value => .settled (given.add setting (some (String.ofList value)))
      else
        match given.add setting none with
        | .error notice => .error notice
        | .ok given => addLetters settings given rest

/-! ### All arguments -/

/-- Reads arguments, the first of which is the value of the setting that is `waiting`. -/
def readFrom (settings : List Setting) (limit : Nat) :
    Option Setting → Given → List String → Except Notice Given
  | none, given, [] => .ok given
  | some _, _, [] => .error .misuse
  | some setting, given, text :: rest =>
    match Argument.ofText text with
    | .plain value =>
      match given.add setting (some value) with
      | .error notice => .error notice
      | .ok given => readFrom settings limit none given rest
    | _ => .error .misuse
  | none, given, text :: rest =>
    match Argument.ofText text with
    | .divider => rest.foldlM (addOperand limit) given
    | .plain operand =>
      match given.addOperand limit operand with
      | .error notice => .error notice
      | .ok given => readFrom settings limit none given rest
    | .named name value =>
      match given.addNamed settings name value with
      | .error notice => .error notice
      | .ok (given, waiting) => readFrom settings limit waiting given rest
    | .letters letters =>
      match given.addLetters settings letters with
      | .error notice => .error notice
      | .ok (given, waiting) => readFrom settings limit waiting given rest

/-- What the arguments give, when there are these settings and up to `limit` operands. -/
def read (settings : List Setting) (limit : Nat) (arguments : List String) :
    Except Notice Given :=
  readFrom settings limit none .empty arguments

end Given

/-- The first operand, and the arguments behind it. Before it there are only settings without a
value. -/
def firstOperand (settings : List Setting) : List String → Except Notice (String × List String)
  | [] => .error .misuse
  | text :: rest =>
    match Argument.ofText text with
    | .divider => .error .misuse
    | .plain operand => .ok (operand, rest)
    | .named name value =>
      match Given.empty.addNamed settings name value with
      | .error notice => .error notice
      | .ok _ => firstOperand settings rest
    | .letters letters =>
      match Given.empty.addLetters settings letters with
      | .error notice => .error notice
      | .ok _ => firstOperand settings rest

end SelectLang
