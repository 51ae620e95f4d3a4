/-!
# TOML tables

A document is a table of named items. Headers and dotted keys reach tables that need not exist yet;
what reached a table first decides who may come back to it:

* a header may define a table that so far was only implied by headers below it, but no other twice;
* a dotted key may only extend tables that dotted keys made;
* what was written as a value is never extended.
-/
namespace Repin.Toml

-- How a table came to be.
inductive TableKind where
  -- By its own header.
  | defined
  -- By the header of a table below it.
  | implied
  -- By a dotted key.
  | dotted
  deriving DecidableEq, Repr

inductive Item where
  | boolean (b : Bool)
  | integer (n : Int)
  | string (s : String)
  -- A float or a point in time.
  | scalar
  | array (items : List Item)
  -- A table that was written as a value.
  | inline (entries : List (String × Item))
  | table (kind : TableKind) (entries : List (String × Item))
  -- The tables of a repeated header, the last first.
  | tables (tables : List (List (String × Item)))

abbrev Entries := List (String × Item)

-- Puts an item under a name, in the place of the one that is there.
def put (name : String) (item : Item) : Entries → Entries
  | [] => [(name, item)]
  | (other, old) :: entries =>
    if other = name then (name, item) :: entries else (other, old) :: put name item entries

-- Changes the table at the end of a path. Missing tables on the way are made; `dotted` tells
-- whether a dotted key leads there, or a header. The change is told how the table came to be.
def change (dotted : Bool) (f : TableKind → Entries → Except String Entries) :
    List String → TableKind → Entries → Except String Entries
  | [], kind, entries => f kind entries
  | name :: path, _, entries => do
    match entries.lookup name with
    | none =>
      let kind := if dotted then .dotted else .implied
      return put name (.table kind (← change dotted f path kind [])) entries
    | some (.table kind inner) =>
      if dotted && kind = .defined then throw "duplicate key"
      return put name (.table kind (← change dotted f path kind inner)) entries
    | some (.tables (last :: others)) =>
      return put name (.tables ((← change dotted f path .defined last) :: others)) entries
    | some _ => throw "a value cannot be extended"

-- Adds a value under a dotted key, given its last name and the ones before.
def addValue (path : List String) (name : String) (value : Item) :
    TableKind → Entries → Except String Entries :=
  change true (fun kind entries =>
    if (kind = .dotted) = path.isEmpty then throw "duplicate key"
    else if (entries.lookup name).isSome then throw "duplicate key"
    else return put name value entries) path

-- Defines a table by its header.
def addTable (path : List String) (name : String) : Entries → Except String Entries :=
  change false (fun _ entries =>
    match entries.lookup name with
    | none => return put name (.table .defined []) entries
    | some (.table .implied inner) => return put name (.table .defined inner) entries
    | some _ => throw "duplicate key") path .defined

-- Adds a table by a repeated header.
def addToTables (path : List String) (name : String) : Entries → Except String Entries :=
  change false (fun _ entries =>
    match entries.lookup name with
    | none => return put name (.tables [[]]) entries
    | some (.tables tables) => return put name (.tables ([] :: tables)) entries
    | some _ => throw "duplicate key") path .defined

-- Adds a value to the table that the last header has reached.
def addUnder (header : List String) (path : List String) (name : String) (value : Item) :
    Entries → Except String Entries :=
  change false (fun _ entries => addValue path name value .defined entries) header .defined

end Repin.Toml
