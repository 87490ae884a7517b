import ApiProperties.Synthesis
import ApiProperties.Json.Decoding

/-!
What a synthesis did, as JSON.
-/

set_option autoImplicit false

namespace ApiProperties

open Json

def Statistics.fieldNames : List String :=
  ["classes_visited", "properties_committed", "methods_absorbed", "methods_demoted",
   "members_renamed"]

def Statistics.encode (a : Statistics) : Json :=
  ofFields [
    ("classes_visited", nat a.classesVisited),
    ("properties_committed", nat a.propertiesCommitted),
    ("methods_absorbed", nat a.methodsAbsorbed),
    ("methods_demoted", nat a.methodsDemoted),
    ("members_renamed", nat a.membersRenamed)]

def Statistics.decode : Decoder Statistics := fun source budget j => do
  let f ← Fields.record fieldNames source budget j
  pure {
    classesVisited := ← f.required "classes_visited" Decoder.word
    propertiesCommitted := ← f.required "properties_committed" Decoder.word
    methodsAbsorbed := ← f.required "methods_absorbed" Decoder.word
    methodsDemoted := ← f.required "methods_demoted" Decoder.word
    membersRenamed := ← f.required "members_renamed" Decoder.word }

def MemberKind.name : MemberKind → String
  | .method => "method"
  | .event => "event"

def RenameRecord.encode (r : RenameRecord) : Json :=
  ofFields [
    ("class_name", ofString r.className),
    ("member", ofString r.member.name),
    ("old_name", ofString r.oldName),
    ("new_name", ofString r.newName)]

def Report.encode (r : Report) : Json :=
  ofFields [
    ("options", ofFields [("use_heuristics", .bool r.useHeuristics)]),
    ("stats", r.stats.encode),
    ("renames", ofList RenameRecord.encode r.renames)]

end ApiProperties
