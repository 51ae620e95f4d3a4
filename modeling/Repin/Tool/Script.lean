import Repin.Text.Split
/-!
# Scripts of a shell

The program that the runner of tools is given may be a shell with a script. A script is a list of
pipelines. A word of a command consists of pieces that are taken as they are and of parameters that are
filled in when the command is run.
-/
namespace Repin.Tool

-- A piece of a word. What was quoted is never split into several words.
inductive Piece where
  | text (s : List Char)
  | parameter (name : String) (quoted : Bool)
  deriving DecidableEq, Repr

abbrev Word := List Piece

inductive Channel where
  | out
  | err
  deriving DecidableEq, Repr

-- Where a channel of a command goes, or where its input comes from.
inductive Redirection where
  | input (source : Word)
  | output (channel : Channel) (append : Bool) (target : Word)
  | duplicate (channel target : Channel)
  deriving DecidableEq, Repr

-- How a command hangs on the one before it.
inductive Link where
  | always
  | onSuccess
  | onFailure
  deriving DecidableEq, Repr

inductive Lexeme where
  | word (w : Word)
  | redirection (r : Redirection)
  -- A redirection whose word follows.
  | into (channel : Option Channel) (append : Bool)
  | link (l : Link)
  | pipe
  | negation
  | openGroup (isolated : Bool)
  | closeGroup (isolated : Bool)
  deriving DecidableEq, Repr

mutual

inductive Command where
  | simple (words : List Word) (redirections : List Redirection)
  -- Commands that stand together; changes of an isolated group stay in it.
  | group (isolated : Bool) (body : List Step) (redirections : List Redirection)
  | branch (condition yes no : List Step)
  -- Repeats a body as long as its condition succeeds, or fails.
  | loop (whileFailing : Bool) (condition body : List Step)
  -- Runs a body once for each of some words, which a variable holds meanwhile.
  | each (name : String) (words : List Word) (body : List Step)

-- A pipeline behind a link.
inductive Step where
  | step (link : Link) (negated : Bool) (pipeline : List Command)

end

namespace Script

def isBlank (c : Char) : Bool :=
  c == ' ' || c == '\t'

def isNameStart (c : Char) : Bool :=
  c.isAlpha || c == '_'

def isNameChar (c : Char) : Bool :=
  c.isAlphanum || c == '_'

-- Characters that end a word unless they are quoted.
def endsWord (c : Char) : Bool :=
  isBlank c || c == '\n' || c == ';' || c == '&' || c == '|' || c == '<' || c == '>' || c == '('
    || c == ')'

-- The parameter behind a dollar sign, and what follows it.
def readParameter : List Char → Option (String × List Char)
  | '\x7b' :: cs =>
    let (name, rest) := cs.span (· != '\x7d')
    match rest with
    | _ :: rest => some (String.ofList name, rest)
    | [] => none
  | c :: cs =>
    if isNameStart c then
      let (name, rest) := cs.span isNameChar
      some (String.ofList (c :: name), rest)
    else if c.isDigit || c == '?' || c == '$' || c == '#' || c == '@' || c == '*' then
      some (c.toString, cs)
    else
      none
  | [] => none

-- Adds a character to a word, the last piece of which comes first.
def addChar (c : Char) : Word → Word
  | .text s :: rest => .text (s ++ [c]) :: rest
  | pieces => .text [c] :: pieces

-- An empty text: it makes a word of nothing but quotes.
def addEmpty : Word → Word
  | .text s :: rest => .text s :: rest
  | pieces => .text [] :: pieces

-- Reads a word of at most a number of characters. The last piece of the result comes first.
def readWord (inQuotes : Bool) : Nat → Word → List Char → Option (Word × List Char)
  | 0, _, _ => none
  | _ + 1, pieces, [] => if inQuotes then none else some (pieces, [])
  | fuel + 1, pieces, c :: cs =>
    if c = '"' then
      readWord (!inQuotes) fuel (addEmpty pieces) cs
    else if c = Char.ofNat 39 && !inQuotes then
      let (body, rest) := cs.span (· != Char.ofNat 39)
      match rest with
      | [] => none
      | _ :: rest => readWord false fuel (body.foldl (fun w c => addChar c w) (addEmpty pieces)) rest
    else if c = '\\' then
      match cs with
      | [] => some (addChar '\\' pieces, [])
      | d :: rest =>
        if inQuotes && !(d == '"' || d == '\\' || d == '$') then
          readWord inQuotes fuel (addChar '\\' pieces) cs
        else
          readWord inQuotes fuel (addChar d pieces) rest
    else if c = '$' then
      match readParameter cs with
      | some (name, rest) => readWord inQuotes fuel (.parameter name inQuotes :: pieces) rest
      | none => readWord inQuotes fuel (addChar '$' pieces) cs
    else if endsWord c && !inQuotes then
      some (pieces, c :: cs)
    else
      readWord inQuotes fuel (addChar c pieces) cs

-- The channel that is meant by its number.
def channel? : Char → Option Channel
  | '1' => some .out
  | '2' => some .err
  | _ => none

-- Reads what follows the sign of an output, whose channel may have been named.
def readOutput (channel : Channel) : List Char → Lexeme × List Char
  | '>' :: rest => (.into (some channel) true, rest)
  | '&' :: d :: rest =>
    match channel? d with
    | some target => (.redirection (.duplicate channel target), rest)
    | none => (.into (some channel) false, d :: rest)
  | rest => (.into (some channel) false, rest)

-- The lexemes of a script of at most a number of characters.
def lexemes : Nat → List Char → Option (List Lexeme)
  | 0, _ => none
  | _ + 1, [] => some []
  | fuel + 1, c :: cs =>
    let go (lexeme : Lexeme) (rest : List Char) : Option (List Lexeme) :=
      (lexemes fuel rest).map (lexeme :: ·)
    if isBlank c then lexemes fuel cs
    else if c = '#' then lexemes fuel (cs.dropWhile (· != '\n'))
    else if c = '\n' || c = ';' then go (.link .always) cs
    else if c = '(' then go (.openGroup true) cs
    else if c = ')' then go (.closeGroup true) cs
    else if c = '<' then go (.into none false) cs
    else if c = '>' then
      let (lexeme, rest) := readOutput .out cs
      go lexeme rest
    else if c = '&' then
      match cs with
      | '&' :: rest => go (.link .onSuccess) rest
      | _ => go (.link .always) cs
    else if c = '|' then
      match cs with
      | '|' :: rest => go (.link .onFailure) rest
      | _ => go .pipe cs
    else
      match channel? c, cs with
      | some channel, '>' :: rest =>
        let (lexeme, rest) := readOutput channel rest
        go lexeme rest
      | _, _ =>
        match readWord false (cs.length + 2) [] (c :: cs) with
        | none => none
        | some ([.text ['\x7b']], rest) => go (.openGroup false) rest
        | some ([.text ['\x7d']], rest) => go (.closeGroup false) rest
        | some ([.text ['!']], rest) => go .negation rest
        | some (pieces, rest) => go (.word pieces.reverse) rest

-- The redirection into or from a word.
def redirectionTo (channel : Option Channel) (append : Bool) (word : Word) : Redirection :=
  match channel with
  | none => .input word
  | some channel => .output channel append word

-- The words and redirections of a simple command.
def readSimple : List Lexeme → List Word × List Redirection × List Lexeme
  | .word w :: rest =>
    let (ws, rs, rest) := readSimple rest
    (w :: ws, rs, rest)
  | .redirection r :: rest =>
    let (ws, rs, rest) := readSimple rest
    (ws, r :: rs, rest)
  | .into channel append :: .word w :: rest =>
    let (ws, rs, rest) := readSimple rest
    (ws, redirectionTo channel append w :: rs, rest)
  | rest => ([], [], rest)

-- The words that end the steps of a branch or of a loop.
def closers : List String :=
  ["then", "else", "elif", "fi", "do", "done"]

-- The text of a lexeme that is a word of nothing but a text.
def keyword? : Lexeme → Option String
  | .word [.text cs] => some (String.ofList cs)
  | _ => none

-- What follows a keyword, if the lexemes start with it.
def behindKeyword? (keyword : String) : List Lexeme → Option (List Lexeme)
  | [] => none
  | l :: rest => if keyword? l = some keyword then some rest else none

-- The words at the start of some lexemes, and what follows them.
def readWords : List Lexeme → List Word × List Lexeme
  | .word w :: rest =>
    let (ws, rest) := readWords rest
    (w :: ws, rest)
  | rest => ([], rest)

-- Gives redirections to a command that has no place for them.
def redirected (command : Command) : List Redirection → Command
  | [] => command
  | redirections => .group false [.step .always false [command]] redirections

mutual

-- Reads a command in a number of steps.
def readCommand : Nat → List Lexeme → Option (Command × List Lexeme)
  | 0, _ => none
  | fuel + 1, .openGroup isolated :: rest => do
    let (body, rest) ← readSteps fuel .always rest
    match rest with
    | .closeGroup closed :: rest =>
      if closed = isolated then
        match readSimple rest with
        | ([], redirections, rest) => some (.group isolated body redirections, rest)
        | _ => none
      else
        none
    | _ => none
  | fuel + 1, lexemes =>
    let behind (command : Command) (rest : List Lexeme) : Option (Command × List Lexeme) :=
      match readSimple rest with
      | ([], redirections, rest) => some (redirected command redirections, rest)
      | _ => none
    match lexemes.head?.bind keyword? with
    | some "if" => do
      let (command, rest) ← readBranch fuel lexemes.tail
      behind command rest
    | some "while" => do
      let (condition, body, rest) ← readLoop fuel lexemes.tail
      behind (.loop false condition body) rest
    | some "until" => do
      let (condition, body, rest) ← readLoop fuel lexemes.tail
      behind (.loop true condition body) rest
    | some "for" => do
      let name ← (lexemes.tail).head?.bind keyword?
      let rest ← behindKeyword? "in" (lexemes.drop 2)
      let (words, rest) := readWords rest
      let (_, body, rest) ← readLoop fuel rest
      behind (.each name words body) rest
    | _ =>
      match readSimple lexemes with
      | ([], [], _) => none
      | (words, redirections, rest) => some (.simple words redirections, rest)

-- Reads a branch behind its first keyword.
def readBranch : Nat → List Lexeme → Option (Command × List Lexeme)
  | 0, _ => none
  | fuel + 1, lexemes => do
    let (condition, rest) ← readSteps fuel .always lexemes
    let rest ← behindKeyword? "then" rest
    let (yes, rest) ← readSteps fuel .always rest
    match rest.head?.bind keyword? with
    | some "fi" => some (.branch condition yes [], rest.tail)
    | some "else" => do
      let (no, rest) ← readSteps fuel .always rest.tail
      let rest ← behindKeyword? "fi" rest
      some (.branch condition yes no, rest)
    | some "elif" => do
      let (inner, rest) ← readBranch fuel rest.tail
      some (.branch condition yes [.step .always false [inner]], rest)
    | _ => none

-- Reads a condition and the body behind it.
def readLoop : Nat → List Lexeme → Option (List Step × List Step × List Lexeme)
  | 0, _ => none
  | fuel + 1, lexemes => do
    let (condition, rest) ← readSteps fuel .always lexemes
    let rest ← behindKeyword? "do" rest
    let (body, rest) ← readSteps fuel .always rest
    let rest ← behindKeyword? "done" rest
    some (condition, body, rest)

-- Reads the commands of a pipeline.
def readPipeline : Nat → List Lexeme → Option (List Command × List Lexeme)
  | 0, _ => none
  | fuel + 1, lexemes => do
    let (command, rest) ← readCommand fuel lexemes
    match rest with
    | .pipe :: rest =>
      let (commands, rest) ← readPipeline fuel rest
      some (command :: commands, rest)
    | rest => some ([command], rest)

-- Reads steps up to the end of their group.
def readSteps : Nat → Link → List Lexeme → Option (List Step × List Lexeme)
  | 0, _, _ => none
  | _ + 1, .always, [] => some ([], [])
  | _ + 1, .always, .closeGroup isolated :: rest => some ([], .closeGroup isolated :: rest)
  | fuel + 1, .always, .link .always :: rest => readSteps fuel .always rest
  | fuel + 1, link, lexemes => do
    if link = .always ∧ (lexemes.head?.bind keyword?).any closers.contains then
      return ([], lexemes)
    let (negated, lexemes) :=
      match lexemes with
      | .negation :: rest => (true, rest)
      | lexemes => (false, lexemes)
    let (pipeline, rest) ← readPipeline fuel lexemes
    let (steps, rest) ←
      match rest with
      | .link next :: rest => readSteps fuel next rest
      | rest => readSteps fuel .always rest
    some (.step link negated pipeline :: steps, rest)

end

-- The steps of a script, if it is well-formed.
def parse (text : String) : Option (List Step) := do
  let cs := text.toList
  let lexemes ← lexemes (cs.length + 1) cs
  match readSteps (8 * lexemes.length + 8) .always lexemes with
  | some (steps, []) => some steps
  | _ => none

end Script
end Repin.Tool
