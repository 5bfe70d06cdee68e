/-!
# TOML documents

A document is a table, and what a table holds is laid down piece by piece: by pairs of a key and a value,
by headers, and by dotted keys.  Each table remembers how it came about, because that decides what may
still be added to it.  Nothing can be laid down twice.
-/

namespace FormulaNet

/-- How a table came about. -/
inductive Toml.Standing where
  /-- By a header of its own; the document itself counts as such. -/
  | declared
  /-- On the way to a table with a header. -/
  | implied
  /-- On the way of a dotted key. -/
  | dotted
  /-- Between braces, complete with all it holds. -/
  | closed
  deriving DecidableEq, Repr

inductive Toml where
  | string (s : String)
  | integer (n : Int)
  | real (x : Float)
  | bool (b : Bool)
  /-- A date, a time or both, as it is written. -/
  | moment (text : String)
  | array (items : List Toml)
  | table (standing : Toml.Standing) (entries : List (String × Toml))
  /-- The tables of one doubly bracketed header; only the last one can still grow. -/
  | tables (earlier : List (List (String × Toml))) (last : List (String × Toml))

namespace Toml

/-- The keys of a table with their values, each key once. -/
abbrev Entries := List (String × Toml)

namespace Standing

/-- Whether a way leads on through a table: that of a dotted key through tables without a header, that of
a header through all but closed ones. -/
def admits : Standing → Standing → Bool
  | dotted, standing => standing = implied || standing = dotted
  | _, standing => standing ≠ closed

end Standing

/-- Changes the value of one key; `change` gets `none` if the key is new, and may refuse. -/
def alter (key : String) (change : Option Toml → Option Toml) : Entries → Option Entries
  | [] => (change none).map fun value => [(key, value)]
  | (k, value) :: rest =>
    if k = key then (change (some value)).map fun value => (k, value) :: rest
    else (alter key change rest).map ((k, value) :: ·)

/-- Changes the table at the end of a way.  Tables that are missing on the way come about as `via`. -/
def within (via : Standing) (change : Standing → Entries → Option Entries) :
    List String → Standing → Entries → Option Entries
  | [], standing, entries => change standing entries
  | key :: path, _, entries => entries |> alter key fun
    | none => (within via change path via []).map (table via)
    | some (table standing inner) =>
      if via.admits standing then (within via change path standing inner).map (table standing) else none
    | some (tables earlier last) => (within via change path .declared last).map (tables earlier)
    | some _ => none

/-- Lays down a value under a dotted key, whose last part is `key`.  The last table on the way has to
belong to dotted keys. -/
def assign (path : List String) (key : String) (value : Toml) : Entries → Option Entries :=
  within .dotted (fun standing entries =>
    if path = [] ∨ standing = .dotted then
      entries |> alter key fun
        | none => some value
        | some _ => none
    else none) path .declared

/-- Lays down the table of a header.  It may have been implied before. -/
def declare (path : List String) (key : String) : Entries → Option Entries :=
  within .implied (fun _ => alter key fun
    | none => some (table .declared [])
    | some (table .implied entries) => some (table .declared entries)
    | some _ => none) path .declared

/-- Lays down one more table of a doubly bracketed header. -/
def declareNext (path : List String) (key : String) : Entries → Option Entries :=
  within .implied (fun _ => alter key fun
    | none => some (tables [] [])
    | some (tables earlier last) => some (tables (earlier ++ [last]) [])
    | some _ => none) path .declared

/-- Lays down a value under a dotted key in the table of a header. -/
def assignUnder (header path : List String) (key : String) (value : Toml) : Entries → Option Entries :=
  within .implied (fun _ => assign path key value) header .declared

end Toml

end FormulaNet
