/-!
TOML documents as tables. A table remembers how it came to be, since that decides what may still be
added to it: one with a header of its own is closed to dotted keys, one that only lies on the way of
a header may get its header later, and one made by dotted keys is open to dotted keys alone.
-/

set_option autoImplicit false

namespace ApiProperties

namespace Toml

inductive Origin where
  | header
  | passage
  | dotted
  deriving DecidableEq, Repr

end Toml

inductive Toml where
  | boolean (b : Bool)
  | integer (i : Int)
  | float (literal : List Char)
  | string (text : List Char)
  | moment (literal : List Char)
  | array (items : List Toml)
  /-- A table in braces; `dotted` if dotted keys made it. -/
  | inline (dotted : Bool) (entries : List (List Char × Toml))
  | table (origin : Toml.Origin) (entries : List (List Char × Toml))
  | tables (items : List (List (List Char × Toml)))

namespace Toml

abbrev Key := List Char

abbrev Entries := List (Key × Toml)

def find? (entries : Entries) (key : Key) : Option Toml := entries.lookup key

def Entries.alter? (key : Key) (f : Option Toml → Option Toml) : Entries → Option Entries
  | [] => (f none).map fun v => [(key, v)]
  | (k, v) :: rest =>
    if k = key then (f (some v)).map fun v => (k, v) :: rest
    else (alter? key f rest).map ((k, v) :: ·)

def Entries.add? (key : Key) (value : Toml) (entries : Entries) : Option Entries :=
  entries.alter? key fun old => if old.isSome then none else some value

/-! ### Braces -/

/-- Goes down a dotted key inside braces and adds the value at its last part. Only tables that
dotted keys made are entered. -/
def addInline? (value : Toml) : List Key → Entries → Option Entries
  | [], _ => none
  | [key], entries => entries.add? key value
  | key :: path, entries =>
    entries.alter? key fun
      | none => (addInline? value path []).map (.inline true)
      | some (.inline true inner) => (addInline? value path inner).map (.inline true)
      | some _ => none

def ofPairs? (pairs : List (List Key × Toml)) : Option Toml :=
  (pairs.foldlM (fun entries (path, value) => addInline? value path entries) []).map
    (.inline false)

/-! ### Documents -/

/-- What `f` makes of the table at the end of a path. Tables missing on the way are made with the given
origin; of an array of tables the last one is entered. A table with a header is closed to dotted
keys. -/
def below? (made : Origin) (f : Origin → Entries → Option Entries) :
    List Key → Origin → Entries → Option Entries
  | [], origin, entries => f origin entries
  | key :: path, _, entries =>
    entries.alter? key fun
      | none => (below? made f path made []).map (.table made)
      | some (.table origin inner) =>
        if made = .dotted ∧ origin = .header then none
        else (below? made f path origin inner).map (.table origin)
      | some (.tables items) =>
        match items.getLast? with
        | some last => (below? made f path .header last).map fun t => .tables (items.dropLast ++ [t])
        | none => none
      | some _ => none

structure Assignment where
  path : List Key
  key : Key
  value : Toml

/-- Dotted keys may only add to tables that dotted keys made. -/
def Assignment.apply? (a : Assignment) (entries : Entries) : Option Entries :=
  below? .dotted
    (fun origin inner =>
      if a.path.isEmpty || origin == .dotted then inner.add? a.key a.value else none)
    a.path .header entries

def assignAll? (body : List Assignment) (entries : Entries) : Option Entries :=
  body.foldlM (fun entries a => a.apply? entries) entries

structure Section where
  repeated : Bool
  path : List Key
  key : Key
  body : List Assignment

/-- A header may name a table once, but also one that was only passed through before; a repeated
header adds a table to an array of them. -/
def Section.apply? (s : Section) (root : Entries) : Option Entries :=
  below? .passage
    (fun _ entries => entries.alter? s.key fun
      | none => (assignAll? s.body []).map fun t =>
          if s.repeated then .tables [t] else .table .header t
      | some (.table .passage inner) =>
        if s.repeated then none else (assignAll? s.body inner).map (.table .header)
      | some (.tables items) =>
        if s.repeated then (assignAll? s.body []).map fun t => .tables (items ++ [t]) else none
      | some _ => none)
    s.path .header root

/-- A document: what comes before the first header, and the sections. -/
structure Document where
  body : List Assignment
  sections : List Section

def Document.entries? (d : Document) : Option Entries := do
  let root ← assignAll? d.body []
  d.sections.foldlM (fun root s => s.apply? root) root

end Toml
end ApiProperties
