import ApiProperties.Settings
import ApiProperties.Toml.Reader

/-!
Settings out of a configuration text. A group of settings is a table or an array of its values in
order; a date has no settings in it, so that a group given as one has the usual ones.
-/

set_option autoImplicit false

namespace ApiProperties.Settings

/-- The values of a group by their names. Others are ignored. -/
def group? (names : List String) : Toml → Option (List (List Char × Toml))
  | .table _ entries => some entries
  | .inline _ entries => some entries
  | .array items => some ((names.map String.toList).zip items)
  | .tables items => some ((names.map String.toList).zip (items.map (Toml.table .header)))
  | .moment _ => some []
  | _ => none

/-- Changes the settings by the value of a name, if there is one. -/
def withValue? {α : Type} (entries : List (List Char × Toml)) (name : String)
    (read : Toml → Option α) (set : α → Settings) (unset : Settings) : Option Settings :=
  match entries.lookup name.toList with
  | some v => (read v).map set
  | none => some unset

def readBool? : Toml → Option Bool
  | .boolean b => some b
  | _ => none

def readCount? : Toml → Option Nat
  | .integer i => if 0 ≤ i then some i.toNat else none
  | _ => none

def synthesisGroup? (s : Settings) (v : Toml) : Option Settings := do
  let entries ← group? synthesisFields v
  withValue? entries "use_heuristics" readBool? (fun b => { s with useHeuristics := b }) s

def runGroup? (s : Settings) (v : Toml) : Option Settings := do
  let entries ← group? runFields v
  let s ← withValue? entries "max_files" readCount? (fun n => { s with maxFiles := some n }) s
  let s ← withValue? entries "parallel_threads" readCount?
    (fun n => { s with threads := some n }) s
  withValue? entries "verbose_errors" readBool? (fun b => { s with verboseErrors := b }) s

def ofEntries? (entries : Toml.Entries) : Option Settings := do
  let s ← match entries.lookup "synthesis".toList with
    | some v => default.synthesisGroup? v
    | none => some default
  match entries.lookup "run".toList with
  | some v => s.runGroup? v
  | none => pure s

def ofToml? (text : String) : Option Settings := (Toml.parse text.toList).bind ofEntries?

end ApiProperties.Settings
