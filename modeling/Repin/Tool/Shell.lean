import Repin.Tool.Program
/-!
# Running scripts

A shell runs the steps of a script one behind another. A step that hangs on the success or failure of
the one before it may be passed over. The output of a command in a pipeline is the input of the next.
-/
namespace Repin.Tool

-- How a shell ended before the end of its script.
inductive Ending where
  | exited (status : Nat)
  | killed
  -- It had run on and on, and was given up.
  | endless
  deriving DecidableEq, Repr

structure Shell where
  disk : Disk
  directory : Location
  -- The parameters by position; the first is the name of the shell.
  parameters : List String
  assigned : List (String × String) := []
  input : List UInt8 := []
  chunks : List (Channel × List UInt8) := []
  status : Nat := 0
  elapsed : Nat := 0
  ending : Option Ending := none

namespace Shell

-- What the shell takes its own number for.
def processNumber : String := "100"

-- The value of a parameter.
def parameter (s : Shell) (name : String) : List String :=
  match name with
  | "?" => [toString s.status]
  | "$" => [processNumber]
  | "#" => [toString (s.parameters.length - 1)]
  | "@" | "*" => s.parameters.drop 1
  | name =>
    if name.toList.all Char.isDigit then (s.parameters[(numberOf name).natAbs]?).toList
    else (s.assigned.lookup name).toList

-- The words that a text is split into at blanks.
def fields (s : String) : List String :=
  ((Text.splitOn Text.isBlank s.toList).filter (!·.isEmpty)).map String.ofList

-- The words so far, of which the last may go on.
structure Expansion where
  closed : List String := []
  last : Option String := none

def Expansion.append (e : Expansion) (s : String) : Expansion :=
  { e with last := some (e.last.getD "" ++ s) }

-- Adds words, the first of which goes on where the last one stood.
def Expansion.appendAll (e : Expansion) : List String → Expansion
  | [] => e
  | [w] => e.append w
  | w :: ws =>
    (⟨e.closed ++ (e.append w).last.toList, none⟩ : Expansion).appendAll ws

-- The words that a word stands for.
def expand (s : Shell) (w : Word) : List String :=
  let e := w.foldl (fun (e : Expansion) piece =>
    match piece with
    | .text cs => e.append (String.ofList cs)
    | .parameter name quoted =>
      let values := s.parameter name
      if quoted then
        if name = "@" then e.appendAll values else e.append (" ".intercalate values)
      else e.appendAll (values.flatMap fields)) {}
  e.closed ++ e.last.toList

-- A word that must stand for one.
def expandOne (s : Shell) (w : Word) : String :=
  " ".intercalate (s.expand w)

-- The variable that a word assigns, if it assigns one.
def assignment? : Word → Option (String × Word)
  | .text cs :: rest =>
    match Text.splitOnce '=' cs with
    | some (c :: name, value) =>
      if Script.isNameStart c && name.all Script.isNameChar then
        some (String.ofList (c :: name), .text value :: rest)
      else
        none
    | _ => none
  | _ => none

def apply (s : Shell) (e : Effect) : Shell :=
  { s with
    chunks := s.chunks ++ e.chunks
    status := e.status
    elapsed := s.elapsed + e.elapsed
    disk := e.disk.getD s.disk }

def complain (s : Shell) (status : Nat) (message : String) : Shell :=
  s.apply (.fail status (s.parameters.headD "sh" ++ ": 1: " ++ message ++ "\n"))

-- What the shell writes itself: escapes are always understood.
def echo (arguments : List String) : Effect :=
  let (newline, words) :=
    match arguments with
    | "-n" :: rest => (false, rest)
    | rest => (true, rest)
  let text := " ".intercalate words
  .printBytes (unescape (text.length + 1) text.toList ++ if newline then [10] else [])

def changeDirectory (s : Shell) (target : String) : Shell :=
  match s.disk.resolve? (Disk.below s.directory.path ++ target) with
  | some path =>
    if s.disk.isDirectory path then
      { s with
        directory := ⟨path, s.directory.display target⟩
        status := 0 }
    else
      s.complain 2 ("cd: can't cd to " ++ target)
  | none => s.complain 2 ("cd: can't cd to " ++ target)

-- What variables are given of some fields: one each, and all that are left to the last.
def assignFields (s : Shell) : List String → List String → List (String × String)
  | [], _ => []
  | [name], values => [(name, " ".intercalate values)]
  | name :: names, values => (name, values.headD "") :: s.assignFields names values.tail

-- Runs what the shell knows itself.
def builtin? (s : Shell) (name : String) (arguments : List String) : Option Shell :=
  match name, arguments with
  | ":", _ => some { s with status := 0 }
  | "echo", arguments => some (s.apply (echo arguments))
  | "cd", target :: _ => some (s.changeDirectory target)
  | "cd", [] => some { s with status := 0 }
  | "exit", [] => some { s with ending := some (.exited s.status) }
  | "exit", n :: _ =>
    if n.toList.all Char.isDigit && n ≠ "" then
      some { s with ending := some (.exited ((numberOf n).natAbs % 256)) }
    else
      let told := s.complain 2 ("exit: Illegal number: " ++ n)
      some { told with ending := some (.exited 2) }
  | "read", names =>
    let (line, rest) := s.input.span (· != 10)
    let values := fields (String.fromUTF8? ⟨line.toArray⟩ |>.getD "")
    some { s with
      assigned := s.assignFields names values ++ s.assigned
      input := rest.drop 1
      status := if rest.isEmpty then 1 else 0 }
  | "kill", arguments =>
    if arguments.contains processNumber then some { s with ending := some .killed }
    else some (s.complain 1 "kill: No such process")
  | "shift", _ =>
    some { s with parameters := s.parameters.take 1 ++ s.parameters.drop 2, status := 0 }
  | _, _ => none

-- The name that a program goes by, without the directory it is kept in.
def programName (name : String) : String :=
  let directories := ["/bin/", "/usr/bin/"]
  (directories.findSome? fun d => Disk.behind? d name).getD name

-- Where the chunks of a channel go.
inductive Target where
  | channel (c : Channel)
  | file (name : String) (append : Bool)
  deriving DecidableEq

-- The targets of both channels.
structure Targets where
  out : Target := .channel .out
  err : Target := .channel .err

def Targets.of (t : Targets) : Channel → Target
  | .out => t.out
  | .err => t.err

def Targets.set (t : Targets) (c : Channel) (target : Target) : Targets :=
  match c with
  | .out => { t with out := target }
  | .err => { t with err := target }

-- Input that is empty, and output that is lost.
def nullDevice : String := "/dev/null"

-- Redirections carried out from left to right.
def redirect (s : Shell) (rs : List Redirection) : Except String (Targets × List UInt8) :=
  rs.foldlM (fun (targets, input) r =>
    match r with
    | .duplicate c target => .ok (targets.set c (targets.of target), input)
    | .output c append w => .ok (targets.set c (.file (s.expandOne w) append), input)
    | .input w =>
      let name := s.expandOne w
      if name = nullDevice then .ok (targets, [])
      else
        match ({ disk := s.disk, directory := s.directory, input } : Surroundings).readFile name with
        | .ok bytes => .ok (targets, bytes)
        | .error _ => .error ("cannot open " ++ name ++ ": No such file")) ({}, s.input)

-- Writes the bytes that go to a file.
def store (s : Shell) (name : String) (append : Bool) (bytes : List UInt8) : Shell :=
  if name = nullDevice then s
  else
    match s.disk.resolve? (Disk.below s.directory.path ++ name) with
    | none => s
    | some path =>
      let before :=
        match append, s.disk.read path with
        | true, .ok old => old.data.toList
        | _, _ => []
      { s with disk := s.disk.insert path (.file ⟨(before ++ bytes).toArray⟩) }

-- Sends the chunks of a command, of which `before` is what was written before it, where they are
-- to go.
def deliver (s : Shell) (before : List (Channel × List UInt8)) (targets : Targets) : Shell :=
  let written := s.chunks.drop before.length
  let kept := written.filterMap fun (c, bytes) =>
    match targets.of c with
    | .channel c => some (c, bytes)
    | .file _ _ => none
  let bytesTo (target : Target) : List UInt8 :=
    (written.filter fun (c, _) => targets.of c = target).flatMap (·.2)
  let files := [targets.out, targets.err].eraseDups
  files.foldl (fun (s : Shell) target =>
    match target with
    | .file name append => s.store name append (bytesTo target)
    | .channel _ => s) { s with chunks := before ++ kept }

-- The input that is left after a command: the shell's own, if the command had another one.
def inputAfter (s : Shell) (redirections : List Redirection) (inner : Shell) : List UInt8 :=
  let isInput : Redirection → Bool
    | .input _ => true
    | _ => false
  if redirections.any isInput then s.input else inner.input

mutual

-- Runs a command in a number of steps.
def runCommand : Nat → Command → Shell → Shell
  | 0, _, s => { s with ending := some .endless }
  | fuel + 1, .simple words redirections, s =>
    match s.redirect redirections with
    | .error message => s.complain 2 message
    | .ok (targets, input) =>
      let before := s.chunks
      let inner := runWords fuel words { s with input }
      { inner.deliver before targets with input := s.inputAfter redirections inner }
  | fuel + 1, .group isolated body redirections, s =>
    match s.redirect redirections with
    | .error message => s.complain 2 message
    | .ok (targets, input) =>
      let before := s.chunks
      let inner := runSteps fuel body { s with input }
      let delivered :=
        { inner.deliver before targets with input := s.inputAfter redirections inner }
      if isolated then
        let status :=
          match inner.ending with
          | some (.exited n) => n
          | some .killed | some .endless | none => inner.status
        { delivered with
          directory := s.directory
          assigned := s.assigned
          ending := inner.ending.filter fun e => e = .killed || e = .endless
          status }
      else
        delivered
  | fuel + 1, .branch condition yes no, s =>
    let asked := runSteps fuel condition s
    if asked.ending.isSome then asked
    else if asked.status = 0 then runSteps fuel yes asked
    else runSteps fuel no { asked with status := 0 }
  | fuel + 1, .loop whileFailing condition body, s =>
    let asked := runSteps fuel condition s
    if asked.ending.isSome then asked
    else if (asked.status = 0) = whileFailing then { asked with status := 0 }
    else
      let after := runSteps fuel body asked
      if after.ending.isSome then after
      else runCommand fuel (.loop whileFailing condition body) after
  | fuel + 1, .each name words body, s =>
    (words.flatMap s.expand).foldl (fun (s : Shell) value =>
      if s.ending.isSome then s
      else runSteps fuel body { s with assigned := (name, value) :: s.assigned })
      { s with status := 0 }

-- Runs the words of a simple command.
def runWords : Nat → List Word → Shell → Shell
  | 0, _, s => { s with ending := some .endless }
  | _ + 1, [], s => { s with status := 0 }
  | fuel + 1, w :: ws, s =>
    match assignment? w with
    | some (name, value) =>
      let s := { s with assigned := (name, s.expandOne value) :: s.assigned }
      runWords fuel ws s
    | none =>
      match s.expand w ++ ws.flatMap s.expand with
      | [] => { s with status := 0 }
      | name :: arguments =>
        match s.builtin? name arguments with
        | some s => s
        | none =>
          let surroundings : Surroundings := ⟨s.disk, s.directory, s.input⟩
          match runProgram (programName name) name arguments surroundings with
          | some e => s.apply e
          | none =>
            match programName name, arguments with
            | "sh", "-c" :: text :: rest | "bash", "-c" :: text :: rest =>
              let inner := runScript fuel text
                { s with parameters := if rest.isEmpty then [name] else rest, ending := none }
              let status :=
                match inner.ending with
                | some (.exited n) => n
                | some .killed => 137
                | some .endless | none => inner.status
              { s with
                disk := inner.disk
                chunks := inner.chunks
                elapsed := inner.elapsed
                ending := inner.ending.filter (· = .endless)
                status }
            | _, _ => s.complain 127 (name ++ ": not found")

-- Runs the commands of a pipeline. All but the last run in shells of their own.
def runPipeline : Nat → List Command → Shell → Shell
  | 0, _, s => { s with ending := some .endless }
  | _ + 1, [], s => s
  | fuel + 1, [c], s => runCommand fuel c s
  | fuel + 1, c :: cs, s =>
    let left := runCommand fuel c s
    let written := left.chunks.drop s.chunks.length
    let piped := (written.filter (·.1 = .out)).flatMap (·.2)
    let kept := written.filter (·.1 ≠ .out)
    let right := runPipeline fuel cs
      { s with
        disk := left.disk
        elapsed := left.elapsed
        chunks := s.chunks ++ kept
        input := piped }
    { right with input := s.input }

-- Runs steps, until the shell ends.
def runSteps : Nat → List Step → Shell → Shell
  | 0, _, s => { s with ending := some .endless }
  | _ + 1, [], s => s
  | fuel + 1, .step link negated pipeline :: steps, s =>
    let isRun :=
      match link with
      | .always => true
      | .onSuccess => s.status = 0
      | .onFailure => s.status ≠ 0
    if isRun then
      let after := runPipeline fuel pipeline s
      let after :=
        if negated then { after with status := if after.status = 0 then 1 else 0 } else after
      if after.ending.isSome then after else runSteps fuel steps after
    else
      runSteps fuel steps s

-- Runs a script.
def runScript : Nat → String → Shell → Shell
  | 0, _, s => { s with ending := some .endless }
  | fuel + 1, text, s =>
    match Script.parse text with
    | some steps => runSteps fuel steps s
    | none => { s.complain 2 "Syntax error" with ending := some (.exited 2) }

end

end Shell
end Repin.Tool
