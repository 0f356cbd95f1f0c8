import IndexedStore.Json.Basic
import IndexedStore.Settings.Basic

/-!
# Settings as JSON

`Settings.ofJson` reads settings from a JSON text and checks them (`RegionConfig::from_json`);
`Settings.toJson` writes them, two blanks to a level, with the fields in order (`RegionConfig::to_json`). The
names of fields and cases are those of `RegionConfig`, `DataPolicy`, `EvictionConfig`, `IndexMaintenanceMode`
and `IndexConfig`.
-/

namespace IndexedStore

namespace Settings

/-- A case without content: nothing, or null. -/
def hasNoContent : Option JsonValue → Bool
  | none => true
  | some .null => true
  | some _ => false

/-- The one field of a record that has only it. -/
def onlyField? (name : String) (v : JsonValue) : Option JsonValue :=
  match v.toRecord? [name] with
  | some [some field] => some field
  | _ => none

def layoutOfJson? (v : JsonValue) : Option Layout :=
  match v.toCase? with
  | some (name, content) =>
    if name = "Replicate" ∧ hasNoContent content then some .replicate
    else if name = "Partition" then
      ((content.bind (onlyField? "total_buckets")).bind JsonValue.toWord?).map .partition
    else none
  | none => none

def maintenanceOfJson? (v : JsonValue) : Option Maintenance :=
  match v.toCase? with
  | some (name, content) =>
    if !hasNoContent content then none
    else if name = "Synchronous" then some .synchronous
    else if name = "Asynchronous" then some .asynchronous
    else none
  | none => none

/-- The limit on values in memory; null, or no field at all, is no limit. -/
def overflowOfJson? : Option JsonValue → Option (Option Nat)
  | none | some .null => some none
  | some v => ((onlyField? "max_resident_entries" v).bind JsonValue.toWord?).map some

/-- Settings from a JSON value. -/
def ofJsonValue? (v : JsonValue) : Option Settings := do
  let fields ← v.toRecord? ["data_policy", "persistent", "eviction", "index_maintenance", "index"]
  match fields with
  | [some layout, some persistent, overflow, some maintenance, some index] =>
    let layout ← layoutOfJson? layout
    let persistent ← persistent.toBool?
    let overflow ← overflowOfJson? overflow
    let maintenance ← maintenanceOfJson? maintenance
    let stripes ← (onlyField? "hash_stripes" index).bind JsonValue.toWord?
    return ⟨layout, persistent, overflow, maintenance, stripes⟩
  | _ => none

/-- Settings from a JSON text, checked (`RegionConfig::from_json`). -/
def ofJson (text : String) : Except Error Settings :=
  match (JsonValue.ofText? text).bind ofJsonValue? with
  | none => .error .unreadableSettings
  | some s => s.validate.map fun _ => s

/-- Settings as a JSON text (`RegionConfig::to_json`). -/
def toJson (s : Settings) : String :=
  let layout := match s.layout with
    | .replicate => "\"Replicate\""
    | .partition buckets =>
      "\x7b\n    \"Partition\": \x7b\n      \"total_buckets\": " ++ toString buckets ++ "\n    \x7d\n  \x7d"
  let overflow := match s.overflow with
    | some residents => "\x7b\n    \"max_resident_entries\": " ++ toString residents ++ "\n  \x7d"
    | none => "null"
  let maintenance := match s.maintenance with
    | .synchronous => "\"Synchronous\""
    | .asynchronous => "\"Asynchronous\""
  "\x7b\n  \"data_policy\": " ++ layout ++
    ",\n  \"persistent\": " ++ (if s.persistent then "true" else "false") ++
    ",\n  \"eviction\": " ++ overflow ++
    ",\n  \"index_maintenance\": " ++ maintenance ++
    ",\n  \"index\": \x7b\n    \"hash_stripes\": " ++ toString s.hashStripes ++ "\n  \x7d\n\x7d"

end Settings

end IndexedStore
