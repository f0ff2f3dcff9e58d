import SpriteConfig.Command.Arguments
import SpriteConfig.Command.Files
import SpriteConfig.Command.Log
import SpriteConfig.Options.Json
import SpriteConfig.Outline
import SpriteConfig.Patch.Json
import SpriteConfig.Session.Basic
/-!
# Running commands

A command reads its files and answers with what it prints, what it logs and what it writes. Options
are read first, and the first thing that goes wrong ends the command.
-/
namespace SpriteConfig

inductive CommandError
  | unreadable (path : Text) (e : ReadError)
  | notText (path : Text) (e : Utf8.Fault)
  | unreadableOptions (path : Text) (e : ReadError)
  | invalidOptions (path : Text)
  | selector (e : SelectorError)
  | otherKind (s : Selector) (kind : SubjectKind)
  | patch (e : OutOfRange)
  | fault (f : Fault)

/-- What an error is called in messages, if it is one of those that are reported: the step that
failed, and the reasons for it. -/
def CommandError.message? : CommandError → Option Text
  | unreadable path e => some ("reading ".toList ++ path ++ ": ".toList ++ e.message)
  | notText path e =>
    let reason := e.message.toList
    some ("reading ".toList ++ path ++ ": parsing configuration failed: ".toList ++ reason ++
      ": ".toList ++ reason)
  | unreadableOptions path e =>
    some ("loading options from ".toList ++ path ++ ": I/O error: ".toList ++ e.message ++
      ": ".toList ++ e.message)
  | invalidOptions path =>
    some ("loading options from ".toList ++ path ++ ": invalid options".toList)
  | selector e => some e.message
  | otherKind s kind => some ('\'' :: s.display ++ "' is not a ".toList ++ kind.token)
  | patch e => some e.message.toList
  | fault _ => none

structure Answer where
  exitCode : Nat
  stdout : Text := []
  /-- The lines of the log, each with its level. -/
  log : List Text := []
  write : Option (Text × Text) := none

namespace Command

def loadText (read : ReadFile) (path : Text) : Except CommandError Text := do
  let bytes ← (read path).mapError (CommandError.unreadable path)
  (Utf8.decode bytes).mapError (CommandError.notText path)

def loadOptions (read : ReadFile) : Option Text → Except CommandError Options
  | none => .ok {}
  | some path => do
    let bytes ← (read path).mapError (CommandError.unreadableOptions path)
    match Utf8.decode bytes with
    | .error _ =>
      .error (.unreadableOptions path (.other "stream did not contain valid UTF-8".toList))
    | .ok text =>
      match Options.parse? text with
      | some options => return options
      | none => .error (.invalidOptions path)

/-- The answer of an operation, whose fault ends the command. -/
def checked (r : Checked α) : Except CommandError α := r.mapError .fault

def loadDocument (read : ReadFile) (options : Options) (path : Text) :
    Except CommandError Document := do
  let text ← loadText read path
  let session ← checked ((Session.empty options).reread text).1.numbered
  return session.document

def resolve (d : Document) (s : Selector) : Except CommandError SubjectId :=
  (s.resolve d).mapError .selector

def resolveKind (d : Document) (s : Selector) (kind : SubjectKind) :
    Except CommandError SubjectId := do
  let id ← resolve d s
  if d.registry.kind? id = some kind then return id else .error (.otherKind s kind)

/-- The line of an outline: the depth shows as indentation, and lines count from one. -/
def outlineRow (depth : Nat) (h : Heading) : Text :=
  List.replicate (2 * depth) ' ' ++ h.name ++ ' ' :: h.detail ++ "  (line ".toList ++
    Text.ofNat (h.line + 1) ++ ")\n".toList

def printOutline (d : Document) : Text :=
  (Outline.entriesAll 0 (Outline.ofLines d.lines)).flatMap fun (depth, h, _) => outlineRow depth h

/-- The line of a subject as a listing shows it, counted from one. -/
def lineNumber (d : Document) (s : SubjectId) : Text :=
  match d.registry.line? s with
  | some n => Text.ofNat (n + 1)
  | none => ['-']

/-- What a listing shows of a subject after its line. -/
def subjectDetails (d : Document) (s : SubjectId) : Selector → Checked (List Text)
  | .sheet _ => .ok []
  | .input _ => do
    let file ← d.ownParameter? s 0
    return [(← d.layout s).token, file.getD []]
  | .sprite _ _ => return [← d.spriteName s]

def subjectRow (d : Document) (selector : Selector) (s : SubjectId) : Checked Text := do
  let details ← subjectDetails d s selector
  let line := "line ".toList ++ lineNumber d s
  return Text.join ['\t'] (selector.display :: line :: details) ++ ['\n']

def printSubjects (d : Document) : Checked Text := do
  let rows ← (Selector.rows d.registry).mapM fun (selector, s) => subjectRow d selector s
  return rows.flatten

def parametersJson : Option (List Text) → Json
  | none => .null
  | some values => .array (values.map Json.ofText)

def printProperty (d : Document) (s : SubjectId) (name : Text) : Checked Text := do
  let direct ← d.direct? s name
  let common ← d.common? s name
  let effective ← d.effective? s name
  let report : Json :=
    .object
      [("common".toList.map .char, parametersJson common),
       ("direct".toList.map .char, parametersJson direct),
       ("effective".toList.map .char, parametersJson effective)]
  return report.pretty ++ ['\n']

def printPatch : Option Patch → Text
  | none => "null\n".toList
  | some p => p.toJson.pretty ++ ['\n']

def runEdit (read : ReadFile) (options : Options) (file : Text) (selector : Selector)
    (change : SubjectId → Edit) (isDryRun : Bool) : Except CommandError Answer := do
  let buffer := Buffer.ofText (← loadText read file)
  let session ← checked (Session.ofHost buffer options).numbered
  let s ← resolve session.document selector
  let (committed, isChanged) ← checked (session.edit buffer (·.apply (change s)))
  let patch ← committed.outcome.mapError .patch
  let unchanged :=
    if isChanged then [] else ["INFO nothing to change subject=".toList ++ selector.display]
  let writes := patch.isSome && !isDryRun
  return {
    exitCode := 0
    stdout := printPatch patch
    log := unchanged ++ if writes then ["INFO updated file=".toList ++ file] else []
    write := if writes then some (file, committed.host.text) else none }

def prints (stdout : Text) : Answer := { exitCode := 0, stdout }

def run (read : ReadFile) (options : Options) : Command → Except CommandError Answer
  | .outline file => do
    let d ← loadDocument read options file
    return prints (printOutline d)
  | .subjects file => do
    let d ← loadDocument read options file
    return prints (← checked (printSubjects d))
  | .get file selector name => do
    let d ← loadDocument read options file
    let s ← resolve d selector
    return prints (← checked (printProperty d s name))
  | .edit file selector change isDryRun => runEdit read options file selector change isDryRun
  | .inputType file selector => do
    let d ← loadDocument read options file
    let s ← resolveKind d selector .input
    return prints ((← checked (d.layout s)).token ++ ['\n'])
  | .spriteId file selector => do
    let d ← loadDocument read options file
    let s ← resolveKind d selector .sprite
    return prints ((← checked (d.spriteName s)) ++ ['\n'])
  | .diff current proposed => do
    let current ← loadText read current
    let proposed ← loadText read proposed
    let patch ← checked
      (Patch.compute current ((LineBreak.detect proposed).normalize proposed))
    return prints (printPatch patch)

end Command

def Invocation.run (read : ReadFile) (i : Invocation) : Except CommandError Answer := do
  let options ← Command.loadOptions read i.options
  i.command.run read options

def versionText : Text := "spright 0.1.0\n".toList

def helpText : Text :=
  ("Inspect and edit spright sprite-sheet configuration files\n\n" ++
    "Usage: spright [OPTIONS] <COMMAND>\n").toList

/-- The answer of the program to its arguments. Arguments that do not fit end it with status 2, an
error with status 1, and a fault with status 101. -/
def answer (read : ReadFile) (arguments : List Text) : Answer :=
  match Invocation.parse arguments with
  | .error .usage => { exitCode := 2 }
  | .error .help => { exitCode := 0, stdout := helpText }
  | .error .version => { exitCode := 0, stdout := versionText }
  | .ok i =>
    match i.run read with
    | .ok a => a
    | .error e =>
      match e.message? with
      | some message => { exitCode := 1, log := ["ERROR ".toList ++ message.shown] }
      | none => { exitCode := 101 }

end SpriteConfig
