import Repin.Disk.Location
import Repin.Disk.Resolve
import Repin.Text.Blank
import Repin.Text.Lines
import Repin.Tool.Script
/-!
# Programs of a plain system

The runner of tools (`Tool.run`) takes any program with any arguments. Here is what the everyday
programs of a system do with their arguments, their input and the files around them. Time is counted in
milliseconds; only waiting takes any.
-/
namespace Repin.Tool

-- What a program did.
structure Effect where
  chunks : List (Channel × List UInt8) := []
  status : Nat := 0
  elapsed : Nat := 0
  -- The disk afterwards, if it was changed.
  disk : Option Disk := none

def bytesOf (s : String) : List UInt8 :=
  s.toUTF8.data.toList

namespace Effect

def print (s : String) : Effect :=
  { chunks := [(.out, bytesOf s)] }

def printBytes (bytes : List UInt8) : Effect :=
  { chunks := [(.out, bytes)] }

def fail (status : Nat) (message : String) : Effect :=
  { chunks := [(.err, bytesOf message)], status }

end Effect

-- Where a program runs: its disk, the directory it starts in, and its input.
structure Surroundings where
  disk : Disk
  directory : Location
  input : List UInt8

namespace Surroundings

-- The path on the disk of what a program calls by a name.
def pathOf? (s : Surroundings) (name : String) : Option String :=
  s.disk.resolve? (Disk.below s.directory.path ++ name)

def readFile (s : Surroundings) (name : String) : Except String (List UInt8) :=
  match s.pathOf? name with
  | none => .error "No such file or directory"
  | some path =>
    match s.disk.read path with
    | .ok bytes => .ok bytes.data.toList
    | .error .isDirectory => .error "Is a directory"
    | .error .missing => .error "No such file or directory"
    | .error (.refused cause) => .error cause

end Surroundings

-- The value of a character as a digit of a base.
def digit? (base : Nat) (c : Char) : Option Nat :=
  let n :=
    if c.isDigit then c.toNat - 48
    else if 'a' ≤ c ∧ c ≤ 'f' then c.toNat - 87
    else if 'A' ≤ c ∧ c ≤ 'F' then c.toNat - 55
    else base
  if n < base then some n else none

-- The number that up to a number of digits of a base form, if there is one, and what follows.
def readDigits (base count : Nat) (cs : List Char) : Option (Nat × List Char) :=
  let digits := (cs.take count).takeWhile fun c => (digit? base c).isSome
  if digits.isEmpty then none
  else
    some (digits.foldl (fun n c => base * n + (digit? base c).getD 0) 0, cs.drop digits.length)

-- The bytes of a text in which backslashes start escapes.
def unescape : Nat → List Char → List UInt8
  | 0, _ => []
  | _ + 1, [] => []
  | fuel + 1, '\\' :: c :: cs =>
    let simple (n : Nat) := UInt8.ofNat n :: unescape fuel cs
    match c with
    | 'n' => simple 10
    | 't' => simple 9
    | 'r' => simple 13
    | 'a' => simple 7
    | 'b' => simple 8
    | 'f' => simple 12
    | 'v' => simple 11
    | '\\' => simple 92
    | _ =>
      match readDigits 8 3 (c :: cs) with
      | some (n, rest) => UInt8.ofNat n :: unescape fuel rest
      | none => bytesOf (String.ofList ['\\', c]) ++ unescape fuel cs
  | fuel + 1, c :: cs => bytesOf c.toString ++ unescape fuel cs

-- The first number of a text, by its sign and digits.
def numberOf (s : String) : Int :=
  match s.toList with
  | '-' :: cs => -(((readDigits 10 cs.length cs).map (·.1)).getD 0 : Nat)
  | cs => (((readDigits 10 cs.length cs).map (·.1)).getD 0 : Nat)

-- Fills arguments into a format once. The rest are the arguments that are left over.
def format : Nat → List Char → List String → List UInt8 × List String
  | 0, _, arguments => ([], arguments)
  | _ + 1, [], arguments => ([], arguments)
  | fuel + 1, '%' :: c :: cs, arguments =>
    let filled (bytes : List UInt8) (rest : List String) :=
      let (more, rest) := format fuel cs rest
      (bytes ++ more, rest)
    let first := arguments.headD ""
    match c with
    | '%' => filled (bytesOf "%") arguments
    | 's' => filled (bytesOf first) arguments.tail
    | 'b' => filled (unescape (first.length + 1) first.toList) arguments.tail
    | 'd' | 'i' => filled (bytesOf (toString (numberOf first))) arguments.tail
    | 'c' => filled (bytesOf (String.ofList (first.toList.take 1))) arguments.tail
    | _ => filled (bytesOf (String.ofList ['%', c])) arguments
  | fuel + 1, '\\' :: c :: cs, arguments =>
    let octal := (readDigits 8 3 (c :: cs)).map (·.2)
    let rest := octal.getD cs
    let escape := (c :: cs).take (cs.length + 1 - rest.length)
    let (more, left) := format fuel rest arguments
    (unescape (escape.length + 2) ('\\' :: escape) ++ more, left)
  | fuel + 1, c :: cs, arguments =>
    let (more, rest) := format fuel cs arguments
    (bytesOf c.toString ++ more, rest)

-- Fills arguments into a format, which is used again while arguments are left over.
def formatAll (text : List Char) : Nat → List String → List UInt8
  | 0, _ => []
  | fuel + 1, arguments =>
    match format (text.length + 1) text arguments with
    | (bytes, rest) =>
      if rest.isEmpty || rest.length == arguments.length then bytes
      else bytes ++ formatAll text fuel rest

def printf (name : String) : List String → Effect
  | [] => .fail 2 (name ++ ": usage: printf format [arg ...]\n")
  | text :: arguments => .printBytes (formatAll text.toList (arguments.length + 1) arguments)

-- The bytes of all files that are named, or of the input if none is.
def cat (s : Surroundings) (program : String) (names : List String) : Effect :=
  if names.isEmpty then .printBytes s.input
  else
    names.foldl (fun (e : Effect) name =>
      if name = "-" then { e with chunks := e.chunks ++ [(.out, s.input)] }
      else
        match s.readFile name with
        | .ok bytes => { e with chunks := e.chunks ++ [(.out, bytes)] }
        | .error cause =>
          { e with
            chunks := e.chunks ++ [(.err, bytesOf (program ++ ": " ++ name ++ ": " ++ cause ++ "\n"))]
            status := 1 }) {}

-- The lines of some bytes, each with its terminator.
def linesOf : List UInt8 → List (List UInt8)
  | [] => []
  | b :: bs =>
    if b = 10 then [b] :: linesOf bs
    else
      match linesOf bs with
      | [] => [[b]]
      | line :: rest => (b :: line) :: rest

-- The number of words in some bytes.
def countWords (bytes : List UInt8) : Nat :=
  let isBlank (b : UInt8) : Bool := b == 32 || (9 ≤ b && b ≤ 13)
  (bytes.foldl (fun (inWord, n) b =>
    if isBlank b then (false, n) else (true, if inWord then n else n + 1)) (false, 0)).2

-- Counts lines, words and bytes of the input or of a file.
def wc (s : Surroundings) (program : String) (arguments : List String) : Effect :=
  let (flags, names) := arguments.partition fun a => a.length > 1 && a.toList.head? == some '-'
  let wanted := flags.flatMap fun f => f.toList.drop 1
  let counts (bytes : List UInt8) : List Nat :=
    let all := [('l', bytes.countP (· == 10)), ('w', countWords bytes), ('c', bytes.length)]
    (all.filter fun (flag, _) => wanted.isEmpty || wanted.contains flag).map (·.2)
  let pad (width n : Nat) : String :=
    let digits := toString n
    String.ofList (List.replicate (width - digits.length) ' ') ++ digits
  match names with
  | name :: _ =>
    match s.readFile name with
    | .error cause => .fail 1 (program ++ ": " ++ name ++ ": " ++ cause ++ "\n")
    | .ok bytes =>
      let width := (toString bytes.length).length
      .print (" ".intercalate ((counts bytes).map (pad width)) ++ " " ++ name ++ "\n")
  | [] =>
    match counts s.input with
    | [n] => .print (toString n ++ "\n")
    | ns => .print (" ".intercalate (ns.map (pad 7)) ++ "\n")

-- The number of lines or bytes that the arguments ask for, and the files.
def readCount : List String → Bool × Nat × List String
  | "-n" :: n :: names => (false, (numberOf n).natAbs, names)
  | "-c" :: n :: names => (true, (numberOf n).natAbs, names)
  | a :: names =>
    match a.toList with
    | '-' :: 'n' :: digits => (false, (numberOf (String.ofList digits)).natAbs, names)
    | '-' :: 'c' :: digits => (true, (numberOf (String.ofList digits)).natAbs, names)
    | '-' :: d :: digits => (false, (numberOf (String.ofList (d :: digits))).natAbs, names)
    | _ => (false, 10, a :: names)
  | [] => (false, 10, [])

-- A part of the input or of a file: its first or its last lines or bytes.
def part (s : Surroundings) (program : String) (first : Bool) (arguments : List String) : Effect :=
  let (inBytes, count, names) := readCount arguments
  let keep {α : Type} (items : List α) : List α :=
    if first then items.take count else items.drop (items.length - count)
  let cut (bytes : List UInt8) : List UInt8 :=
    if inBytes then keep bytes else (keep (linesOf bytes)).flatten
  match names with
  | [] => .printBytes (cut s.input)
  | name :: _ =>
    match s.readFile name with
    | .ok bytes => .printBytes (cut bytes)
    | .error cause =>
      .fail 1 (program ++ ": cannot open '" ++ name ++ "' for reading: " ++ cause ++ "\n")

-- The failure of a program that was given nothing to work on.
def missingOperand (program : String) : Effect :=
  .fail 1 (program ++ ": missing operand\nTry '" ++ program ++ " --help' for more information.\n")

-- Waits for as many seconds as the arguments say together.
def sleep (program : String) (arguments : List String) : Effect :=
  let millis (a : String) : Nat :=
    match Text.splitOnce '.' a.toList with
    | none => 1000 * (numberOf a).natAbs
    | some (whole, fraction) =>
      let digits := (fraction ++ ['0', '0', '0']).take 3
      1000 * (numberOf (String.ofList whole)).natAbs + (numberOf (String.ofList digits)).natAbs
  match arguments with
  | [] => missingOperand program
  | _ => { elapsed := arguments.foldl (fun sum a => sum + millis a) 0 }

-- Whether a condition on texts and files holds.
def condition (s : Surroundings) : List String → Bool
  | [] => false
  | ["!", a] => a = ""
  | [a] => a ≠ ""
  | ["-n", a] => a ≠ ""
  | ["-z", a] => a = ""
  | ["-f", a] => (s.pathOf? a).any s.disk.isFile
  | ["-d", a] => (s.pathOf? a).any s.disk.isDirectory
  | ["-e", a] => (s.pathOf? a).any fun p => s.disk.isFile p || s.disk.isDirectory p
  | [a, "=", b] => a = b
  | [a, "!=", b] => a ≠ b
  | [a, "-eq", b] => numberOf a = numberOf b
  | [a, "-ne", b] => numberOf a ≠ numberOf b
  | [a, "-lt", b] => numberOf a < numberOf b
  | [a, "-gt", b] => numberOf a > numberOf b
  | _ => false

-- Puts empty files where there are none.
def touch (s : Surroundings) (names : List String) : Effect :=
  let disk := names.foldl (fun (d : Disk) name =>
    match s.pathOf? name with
    | some path => if d.isFile path then d else d.insert path (.file .empty)
    | none => d) s.disk
  { disk := some disk }

-- Removes files.
def rm (s : Surroundings) (program : String) (arguments : List String) : Effect :=
  let (flags, names) := arguments.partition fun a => a.toList.head? == some '-'
  names.foldl (fun (e : Effect) name =>
    let disk := e.disk.getD s.disk
    match (s.pathOf? name).filter disk.isFile with
    | some path => { e with disk := some (disk.erase path) }
    | none =>
      if flags.any (·.toList.contains 'f') then e
      else
        let message := program ++ ": cannot remove '" ++ name ++ "': No such file or directory\n"
        { e with chunks := e.chunks ++ [(.err, bytesOf message)], status := 1 }) {}

-- The numbers from the first to the last.
def seq (program : String) (arguments : List String) : Effect :=
  let range (first last : Int) : Effect :=
    let count := (last - first + 1).toNat
    .print (String.join ((List.range count).map fun i => toString (first + Int.ofNat i) ++ "\n"))
  match arguments with
  | [last] => range 1 (numberOf last)
  | [first, last] => range (numberOf first) (numberOf last)
  | _ => missingOperand program

def echo (arguments : List String) : Effect :=
  match arguments with
  | "-n" :: rest => .print (" ".intercalate rest)
  | "-e" :: rest =>
    let text := " ".intercalate rest
    .printBytes (unescape (text.length + 1) text.toList ++ [10])
  | rest => .print (" ".intercalate rest ++ "\n")

-- Programs that refuse options they do not know, each with its status for that.
def strictPrograms : List (String × Nat) :=
  [("cat", 1), ("head", 1), ("ls", 2), ("rm", 1), ("seq", 1), ("sleep", 1), ("tail", 1),
   ("touch", 1), ("wc", 1)]

-- What a strict program says of the first long option in its arguments.
def unknownOption? (name program : String) (arguments : List String) : Option Effect := do
  let status ← strictPrograms.lookup name
  let option ← arguments.find? fun a => "--".toList.isPrefixOf a.toList && a.length > 2
  return .fail status
    (program ++ ": unrecognized option '" ++ option ++ "'\nTry '" ++ program
      ++ " --help' for more information.\n")

-- Runs a program of the system that is no shell; `none` if there is no such program. It speaks of
-- itself by what it is called by.
def runProgram (name program : String) (arguments : List String) (s : Surroundings) :
    Option Effect :=
  match unknownOption? name program arguments with
  | some e => some e
  | none =>
    match name with
    | "true" => some {}
    | "false" => some { status := 1 }
    | "echo" => some (echo arguments)
    | "printf" => some (printf program arguments)
    | "cat" => some (cat s program arguments)
    | "pwd" => some (.print (s.directory.shown ++ "\n"))
    | "wc" => some (wc s program arguments)
    | "head" => some (part s program true arguments)
    | "tail" => some (part s program false arguments)
    | "sleep" => some (sleep program arguments)
    | "test" => some { status := if condition s arguments then 0 else 1 }
    | "[" => some { status := if condition s arguments.dropLast then 0 else 1 }
    | "touch" => some (touch s arguments)
    | "rm" => some (rm s program arguments)
    | "seq" => some (seq program arguments)
    | _ => none

end Repin.Tool
