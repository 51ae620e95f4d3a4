import Repin.Run.State
import Repin.Tool.Shell
/-!
# A plain system

The runner of tools that the program has (see `CommandLine.surroundings`). It knows the everyday programs
and a shell, by their names or where they are kept. A program that takes too long or does not come to an
end is stopped, and so is one that writes more than a pipe holds, because nobody reads from it while it
runs; whatever it has written is lost.
-/
namespace Repin.Tool

-- The bytes that a pipe holds.
def pipeCapacity : Nat := 65536

-- The steps that a script may take.
def maxSteps : Nat := 2000

-- A span of time in milliseconds, in the largest unit that it fills.
def renderMillis (n : Nat) : String :=
  if n = 0 then "0ns"
  else if n < 1000 then toString n ++ "ms"
  else
    let fraction := (toString (1000 + n % 1000)).toList.drop 1
    let digits := (fraction.reverse.dropWhile (· == '0')).reverse
    toString (n / 1000) ++ (if digits.isEmpty then "" else "." ++ String.ofList digits) ++ "s"

-- What a system is left with: the disk, and what the program wrote and ended with.
structure Finished where
  disk : Disk
  elapsed : Nat
  chunks : List (Channel × List UInt8)
  exitCode : Option Int
  -- Whether the program went on and on.
  isEndless : Bool := false

-- The text that bytes stand for. What is no text is replaced by a mark, one for each part of a
-- character that was begun.
def lossyText (bytes : List UInt8) : String :=
  go (bytes.length + 1) bytes
where
  go : Nat → List UInt8 → String
    | 0, _ => ""
    | _ + 1, [] => ""
    | fuel + 1, b :: bs =>
      let whole := [1, 2, 3, 4].findSome? fun n =>
        let taken := (b :: bs).take n
        if taken.length = n then
          (String.fromUTF8? ⟨taken.toArray⟩).map fun s => (s, (b :: bs).drop n)
        else
          none
      match whole with
      | some (s, rest) => s ++ go fuel rest
      | none => "\uFFFD" ++ go fuel (bs.drop (begun b bs))
  -- How many bytes behind a first one belong to the character that it begins.
  begun (b : UInt8) (bs : List UInt8) : Nat :=
    let isNext (c : UInt8) : Bool := 0x80 ≤ c && c ≤ 0xBF
    let second : UInt8 → Bool :=
      if b == 0xE0 then fun c => 0xA0 ≤ c && c ≤ 0xBF
      else if b == 0xED then fun c => 0x80 ≤ c && c ≤ 0x9F
      else if b == 0xF0 then fun c => 0x90 ≤ c && c ≤ 0xBF
      else if b == 0xF4 then fun c => 0x80 ≤ c && c ≤ 0x8F
      else isNext
    let length :=
      if 0xC2 ≤ b && b ≤ 0xDF then 1
      else if 0xE0 ≤ b && b ≤ 0xEF then 2
      else if 0xF0 ≤ b && b ≤ 0xF4 then 3
      else 0
    match bs with
    | c :: more => if 0 < length && second c then 1 + ((more.take (length - 1)).takeWhile isNext).length
      else 0
    | [] => 0

-- Where the system keeps a program that is not called by a path.
def whereabouts (program : String) : String :=
  if program.toList.contains '/' then program else "/usr/bin/" ++ program

-- Runs a program to its end, if the system has it.
def finish (disk : Disk) (directory : Location) (program : String) (arguments : List String) :
    Option Finished :=
  let name := Shell.programName program
  let program := whereabouts program
  match runProgram name program arguments ⟨disk, directory, []⟩ with
  | some e =>
    some
      { disk := e.disk.getD disk
        elapsed := e.elapsed
        chunks := e.chunks
        exitCode := some e.status }
  | none =>
    match name, arguments with
    | "sh", "-c" :: text :: rest | "bash", "-c" :: text :: rest =>
      let parameters := if rest.isEmpty then [program] else rest
      let s := Shell.runScript maxSteps text { disk, directory, parameters }
      let exitCode : Option Int :=
        match s.ending with
        | some (.exited n) => some n
        | some .killed | some .endless => none
        | none => some s.status
      some ⟨s.disk, s.elapsed, s.chunks, exitCode, s.ending = some .endless⟩
    | "sh", [] | "bash", [] => some { disk, elapsed := 0, chunks := [], exitCode := some 0 }
    | _, _ => none

-- Runs a program for a number of milliseconds at most.
def runFor (millis : Nat) (directory : Location) (program : String) (arguments : List String)
    (disk : Disk) : Except RunError ToolOutput × Disk :=
  match finish disk directory program arguments with
  | none => (.error (.process program "cannot find binary path"), disk)
  | some f =>
    let bytes (c : Channel) : List UInt8 := (f.chunks.filter (·.1 = c)).flatMap (·.2)
    let out := bytes .out
    let err := bytes .err
    if f.isEndless ∨ millis ≤ f.elapsed ∨ pipeCapacity < out.length ∨ pipeCapacity < err.length then
      let output : ToolOutput :=
        { exitCode := none, stderr := "timed out after " ++ renderMillis millis, timedOut := true }
      (.ok output, f.disk)
    else
      (.ok { exitCode := f.exitCode, stdout := lossyText out, stderr := lossyText err }, f.disk)

-- Runs the tool that a run starts. Nothing but the disk is changed.
def run {σ : Type} (call : ToolCall) : StateM (World σ) (Except RunError ToolOutput) := fun w =>
  let (answer, disk) :=
    runFor (1000 * call.timeout.toNat) call.directory call.program call.arguments w.disk
  (answer, { w with disk })

end Repin.Tool
