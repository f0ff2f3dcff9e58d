import SpriteConfig.Document.Edit
import SpriteConfig.Selector
/-!
# Arguments

The arguments of the command line name one command and what it is for. They are read from left to
right, and the first that does not fit ends the reading. After `--` every argument is taken as it
is; before it, an argument that starts with `-` is an option.
-/
namespace SpriteConfig

inductive Command
  | outline (file : Text)
  | subjects (file : Text)
  | get (file : Text) (subject : Selector) (property : Text)
  /-- To edit a subject. A dry run leaves the file as it is. -/
  | edit (file : Text) (subject : Selector) (change : SubjectId → Edit) (isDryRun : Bool)
  | inputType (file : Text) (subject : Selector)
  | spriteId (file : Text) (subject : Selector)
  | diff (current proposed : Text)

/-- A command, and the file of its options if there is one. -/
structure Invocation where
  command : Command
  options : Option Text

inductive Refusal
  | usage
  | help
  | version
  deriving DecidableEq, Repr

namespace Command

inductive Name
  | outline | subjects | get | set | remove | clear | delete | inputType | spriteId | diff
  deriving DecidableEq, Repr

def Name.all : List Name :=
  [outline, subjects, get, set, remove, clear, delete, inputType, spriteId, diff]

def Name.text : Name → Text
  | outline => "outline".toList
  | subjects => "subjects".toList
  | get => "get".toList
  | set => "set".toList
  | remove => "remove".toList
  | clear => "clear".toList
  | delete => "delete".toList
  | inputType => "input-type".toList
  | spriteId => "sprite-id".toList
  | diff => "diff".toList

def Name.ofText? (t : Text) : Option Name := all.find? fun n => n.text = t

/-- Whether a command can write to a file, and so can be run dry. -/
def Name.writes : Name → Bool
  | set | remove | clear | delete | inputType | spriteId => true
  | outline | subjects | get | diff => false

inductive Slot
  | file
  | selector
  | layout
  | text
  deriving DecidableEq, Repr

/-- The places of the arguments of a command: those it needs, and those it can do without. Any
number of texts can follow the arguments of `set`. -/
def Name.slots : Name → List Slot × List Slot
  | outline | subjects => ([.file], [])
  | get | remove => ([.file, .selector, .text], [])
  | set => ([.file, .selector, .text], [])
  | clear | delete => ([.file, .selector], [])
  | inputType => ([.file, .selector], [.layout])
  | spriteId => ([.file, .selector], [.text])
  | diff => ([.file, .file], [])

/-- The slot of an argument, by the number of arguments before it. -/
def Name.slot? (n : Name) (index : Nat) : Option Slot :=
  match (n.slots.1 ++ n.slots.2)[index]? with
  | some slot => some slot
  | none => if n = .set then some .text else none

def Slot.fits (t : Text) : Slot → Bool
  | file => !t.isEmpty
  | selector => (Selector.parse? t).isSome
  | layout => (Layout.ofToken? t).isSome
  | text => true

structure Reading where
  name : Option Name := none
  /-- Whether `--` has been read. -/
  isPlain : Bool := false
  /-- The file of the options that was named before the command. -/
  outerOptions : Option Text := none
  /-- The file of the options that was named after the command. -/
  innerOptions : Option Text := none
  isDryRun : Bool := false
  values : List Text := []

namespace Reading

/-- Takes an argument that is no option: the name of the command, and after it the command's own
arguments. -/
def takeValue (r : Reading) (t : Text) : Except Refusal Reading :=
  match r.name with
  | none =>
    if r.isPlain then .error .usage
    else
      match Name.ofText? t with
      | some n => .ok { r with name := some n }
      | none => .error .usage
  | some n =>
    match n.slot? r.values.length with
    | some slot => if slot.fits t then .ok { r with values := r.values ++ [t] } else .error .usage
    | none => .error .usage

/-- Takes the file of the options. It may be named once before the command and once after it. -/
def takeOptions (r : Reading) (file : Text) : Except Refusal Reading :=
  if file.isEmpty then .error .usage
  else
    match r.name, r.outerOptions, r.innerOptions with
    | none, none, _ => .ok { r with outerOptions := some file }
    | some _, _, none => .ok { r with innerOptions := some file }
    | _, _, _ => .error .usage

def takeFlag (r : Reading) (flag : Text) : Except Refusal Reading :=
  if flag = "verbose".toList then .ok r
  else if flag = "help".toList then .error .help
  else if flag = "version".toList && r.name.isNone then .error .version
  else if flag = "dry-run".toList && r.name.any Name.writes && !r.isDryRun then
    .ok { r with isDryRun := true }
  else .error .usage

/-- Takes the letters of short options: the reading after them, and whether the file of the options
is still missing. -/
def takeLetters (r : Reading) : Text → Except Refusal (Reading × Bool)
  | [] => .ok (r, false)
  | 'v' :: t => takeLetters r t
  | ['o'] => .ok (r, true)
  | 'o' :: '=' :: t => (r.takeOptions t).map (·, false)
  | 'o' :: t => (r.takeOptions t).map (·, false)
  | 'h' :: _ => .error .help
  | 'V' :: _ => .error (if r.name.isNone then .version else .usage)
  | _ => .error .usage

/-- Takes an argument that starts with `-`: the reading after it, and whether the file of the
options is still missing. -/
def takeOption (r : Reading) : Text → Except Refusal (Reading × Bool)
  | '-' :: '-' :: t =>
    match Text.splitOnce? '=' t with
    | some (name, value) =>
      if name = "options".toList then (r.takeOptions value).map (·, false) else .error .usage
    | none => if t = "options".toList then .ok (r, true) else (r.takeFlag t).map (·, false)
  | '-' :: t => r.takeLetters t
  | _ => .error .usage

/-- Whether an argument is an option. A single `-` is none. -/
def isOption : Text → Bool
  | ['-'] => false
  | '-' :: _ => true
  | _ => false

/-- Takes what follows `help`: nothing, or the name of one command. -/
def takeHelp : List Text → Refusal
  | [] => .help
  | [t] => if (Name.ofText? t).isSome || t = "help".toList then .help else .usage
  | _ => .usage

/-- Takes all arguments. With `isMissing` the first is the file of the options. -/
def takeAll (r : Reading) (isMissing : Bool) : List Text → Except Refusal Reading
  | [] => if isMissing then .error .usage else .ok r
  | t :: ts =>
    if isMissing then
      if isOption t then .error .usage
      else
        match r.takeOptions t with
        | .ok r => takeAll r false ts
        | .error e => .error e
    else if r.isPlain || !isOption t then
      if r.name.isNone && !r.isPlain && t = "help".toList then .error (takeHelp ts)
      else
        match r.takeValue t with
        | .ok r => takeAll r false ts
        | .error e => .error e
    else if t = "--".toList then takeAll { r with isPlain := true } false ts
    else
      match r.takeOption t with
      | .ok (r, isMissing) => takeAll r isMissing ts
      | .error e => .error e

/-- The command of a name and its arguments, if there are enough of them. -/
def command? (isDryRun : Bool) : Name → List Text → Option Command
  | .outline, [file] => some (.outline file)
  | .subjects, [file] => some (.subjects file)
  | .get, [file, s, property] => return .get file (← Selector.parse? s) property
  | .set, file :: s :: property :: values =>
    return .edit file (← Selector.parse? s) (Edit.writeProperty · property values) isDryRun
  | .remove, [file, s, property] =>
    return .edit file (← Selector.parse? s) (Edit.deleteProperty · property) isDryRun
  | .clear, [file, s] => return .edit file (← Selector.parse? s) Edit.deleteBlock isDryRun
  | .delete, [file, s] => return .edit file (← Selector.parse? s) Edit.deleteSubject isDryRun
  | .inputType, [file, s] => return .inputType file (← Selector.parse? s)
  | .inputType, [file, s, layout] => do
    let layout ← Layout.ofToken? layout
    return .edit file (← Selector.parse? s) (Edit.setLayout · layout) isDryRun
  | .spriteId, [file, s] => return .spriteId file (← Selector.parse? s)
  | .spriteId, [file, s, name] =>
    return .edit file (← Selector.parse? s) (Edit.renameSprite · name) isDryRun
  | .diff, [current, proposed] => some (.diff current proposed)
  | _, _ => none

end Reading

def paths : Command → List Text
  | outline file | subjects file => [file]
  | get file _ _ | inputType file _ | spriteId file _ => [file]
  | edit file _ _ _ => [file]
  | diff current proposed => [current, proposed]

end Command

def Invocation.paths (i : Invocation) : List Text := i.options.toList ++ i.command.paths

/-- Reads the arguments of the program. The file of the options that is named last counts. -/
def Invocation.parse (arguments : List Text) : Except Refusal Invocation := do
  let r ← Command.Reading.takeAll {} false arguments
  match r.name.bind fun n => Command.Reading.command? r.isDryRun n r.values with
  | some command => return { command, options := r.innerOptions <|> r.outerOptions }
  | none => .error .usage

end SpriteConfig
