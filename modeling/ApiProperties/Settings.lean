import ApiProperties.Json.Decoding

/-!
How a batch of models is processed, as given in a request or a configuration file.
-/

set_option autoImplicit false

namespace ApiProperties

structure Settings where
  useHeuristics : Bool
  maxFiles : Option Nat
  threads : Option Nat
  verboseErrors : Bool
  deriving DecidableEq, Repr

namespace Settings

def default : Settings :=
  { useHeuristics := true, maxFiles := none, threads := none, verboseErrors := false }

open Json in
def encode (s : Settings) : Json :=
  ofFields [
    ("synthesis", ofFields [("use_heuristics", .bool s.useHeuristics)]),
    ("run", ofFields [
      ("max_files", ofOption nat s.maxFiles),
      ("parallel_threads", ofOption nat s.threads),
      ("verbose_errors", .bool s.verboseErrors)])]

def synthesisFields : List String := ["use_heuristics"]

def runFields : List String := ["max_files", "parallel_threads", "verbose_errors"]

def decodeSynthesis (s : Settings) : Decoder Settings := fun source budget j => do
  let f ← Fields.record synthesisFields source budget j
  pure { s with useHeuristics := ← f.defaulted "use_heuristics" s.useHeuristics Decoder.bool }

def decodeRun (s : Settings) : Decoder Settings := fun source budget j => do
  let f ← Fields.record runFields source budget j
  pure { s with
    maxFiles := ← f.optional "max_files" Decoder.word
    threads := ← f.optional "parallel_threads" Decoder.word
    verboseErrors := ← f.defaulted "verbose_errors" s.verboseErrors Decoder.bool }

def decode : Decoder Settings := fun source budget j => do
  let f ← Fields.record ["synthesis", "run"] source budget j
  let s ← f.defaulted "synthesis" default (decodeSynthesis default)
  f.defaulted "run" s (decodeRun s)

end Settings
end ApiProperties
