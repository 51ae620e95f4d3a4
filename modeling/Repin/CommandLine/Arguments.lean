import Repin.Text.Split
/-!
# Arguments

A command takes options, each a name behind two dashes. An option that takes a value finds it behind
an equals sign or in the next argument, which must not look like an option itself. Only some options
may be given more than once.
-/
namespace Repin.CommandLine

-- What an option takes.
inductive OptionKind where
  | flag
  | text
  -- A text that is not empty.
  | path
  | choice (values : List String)
  deriving DecidableEq, Repr

structure OptionRule where
  name : String
  kind : OptionKind
  repeatable : Bool := false
  deriving DecidableEq, Repr

-- Why there is nothing to be done with the arguments.
inductive Refusal where
  -- They ask for help.
  | help
  -- They ask for the version.
  | version
  | misuse
  deriving DecidableEq, Repr

-- An argument by its shape.
inductive Argument where
  | long (name : String) (value : Option String)
  | short (letters : List Char)
  -- Two dashes alone: no option follows.
  | escape
  | plain (text : String)
  deriving DecidableEq, Repr

def Argument.of (text : String) : Argument :=
  match text.toList with
  | ['-', '-'] => .escape
  | '-' :: '-' :: rest =>
    match Text.splitOnce '=' rest with
    | some (name, value) => .long (String.ofList name) (some (String.ofList value))
    | none => .long (String.ofList rest) none
  | '-' :: c :: rest => .short (c :: rest)
  | _ => .plain text

-- Whether an argument can be the value of the option before it.
def Argument.isValue : Argument → Bool
  | plain _ => true
  | long _ _ | short _ | escape => false

-- The options that were given, in order; flags have no value.
abbrev Given := List (String × String)

-- Whether a value fits an option.
def OptionKind.accepts (value : String) : OptionKind → Bool
  | flag => false
  | text => true
  | path => value ≠ ""
  | choice values => values.contains value

-- Adds an option with its value.
def give (rule : OptionRule) (value : String) (given : Given) : Except Refusal Given :=
  if !rule.repeatable && (given.lookup rule.name).isSome then .error .misuse
  else .ok (given ++ [(rule.name, value)])

-- Reads options up to the first argument that is none.
def readOptions (rules : List OptionRule) (hasVersion : Bool) (given : Given) :
    List String → Except Refusal (Given × List String)
  | [] => .ok (given, [])
  | arg :: rest =>
    match Argument.of arg with
    | .plain _ | .escape => .ok (given, arg :: rest)
    | .short (c :: _) =>
      .error (if c = 'h' then .help else if c = 'V' && hasVersion then .version else .misuse)
    | .short [] => .error .misuse
    | .long name value =>
      match rules.find? (·.name = name), value with
      | some rule, some value =>
        if rule.kind.accepts value then
          match give rule value given with
          | .ok given => readOptions rules hasVersion given rest
          | .error refusal => .error refusal
        else
          .error .misuse
      | some ⟨name, .flag, repeatable⟩, none =>
        match give ⟨name, .flag, repeatable⟩ "" given with
        | .ok given => readOptions rules hasVersion given rest
        | .error refusal => .error refusal
      | some rule, none =>
        match rest with
        | value :: rest =>
          if (Argument.of value).isValue && rule.kind.accepts value then
            match give rule value given with
            | .ok given => readOptions rules hasVersion given rest
            | .error refusal => .error refusal
          else
            .error .misuse
        | [] => .error .misuse
      | none, value =>
        .error
          (if value.isSome then .misuse
          else if name = "help" then .help
          else if name = "version" && hasVersion then .version
          else .misuse)

-- Reads arguments that consist of options only.
def readAll (rules : List OptionRule) (arguments : List String) : Except Refusal Given :=
  match readOptions rules false [] arguments with
  | .error refusal => .error refusal
  | .ok (given, []) | .ok (given, ["--"]) => .ok given
  | .ok (_, _ :: _) => .error .misuse

-- The last value of an option.
def last? (given : Given) (name : String) : Option String :=
  given.reverse.lookup name

-- All values of an option.
def valuesOf (given : Given) (name : String) : List String :=
  (given.filter (·.1 = name)).map (·.2)

def has (given : Given) (name : String) : Bool :=
  (given.lookup name).isSome

end Repin.CommandLine
