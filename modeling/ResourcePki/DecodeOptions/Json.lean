import ResourcePki.DecodeOptions
import ResourcePki.JsonValue.Parser

/-!
Choices for decoding in JSON. What is not given is chosen by default.
-/

namespace ResourcePki.DecodeOptions

/-- The value of a field, or the default if it is missing. -/
def fieldOr {α : Type} (default : α) (read : JsonValue → Option α) : Option JsonValue → Option α
  | none => some default
  | some v => read v

/-- The largest limit. -/
def largestLimit : Nat := 0xffffffffffffffff

/-- The choices that a value holds. -/
def ofJson? (v : JsonValue) : Option DecodeOptions := do
  let [strict, maxIp, maxAs] ←
    v.fieldsFrom? 0 ["strict", "max-ip-resources", "max-as-resources"] | none
  let default : DecodeOptions := {}
  return { strict := ← fieldOr default.strict JsonValue.bool? strict
           maxIp := ← fieldOr default.maxIp (JsonValue.nat? largestLimit) maxIp
           maxAs := ← fieldOr default.maxAs (JsonValue.nat? largestLimit) maxAs }

/-- The choices that a text holds. -/
def ofJsonText? (s : String) : Option DecodeOptions := do
  ofJson? (← JsonValue.parse? s)

end ResourcePki.DecodeOptions
