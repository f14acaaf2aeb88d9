import ResourcePki.DecodeOptions
import ResourcePki.Record
import Std.Data.TreeMap

/-!
The keys that routers may sign with, one entry for each AS number that a key is authorised for.

The certificate of a router authorises its key for every number in its AS resources. A key that is
certified more than once has one entry, which expires with the last of its certificates; of several
that expire last the first one added counts. A range can hold billions of numbers, so a certificate
that covers more of them than the limit of the table adds nothing at all.
-/

namespace ResourcePki

/-- The authorisation of a key for an AS number. -/
structure RouterKey where
  asNumber : AsNumber
  identifier : KeyIdentifier
  key : PublicKey
  deriving DecidableEq

namespace RouterKey

/-- The order by number, then identifier, then encoding. -/
def order : RouterKey → RouterKey → Ordering :=
  compareLex (compareOn (·.asNumber.value))
    (compareLex (compareOn (·.identifier.octets)) (compareOn (·.key.encoding)))

instance : Ord RouterKey := ⟨order⟩

instance : Std.TransOrd RouterKey :=
  inferInstanceAs (Std.TransCmp (compareLex _ (compareLex _ _)))

end RouterKey

/-- What is known of the key of a router. -/
structure RouterKeyStatus where
  expires : Time
  anchorNumber : UInt32
  deriving DecidableEq, Repr

/-- The keys of routers, with the most that one certificate may add. -/
structure RouterKeyTable where
  limit : Nat
  keys : Std.TreeMap RouterKey RouterKeyStatus

namespace RouterKeyTable

/-- A table without keys. -/
def withLimit (limit : Nat) : RouterKeyTable :=
  ⟨limit, ∅⟩

/-- A table without keys and with the limit that certificates are decoded with by default. -/
def empty : RouterKeyTable :=
  withLimit ({} : DecodeOptions).maxAs

/-- The number of keys. -/
def size (t : RouterKeyTable) : Nat :=
  t.keys.size

/-- Whether there are no keys. -/
def isEmpty (t : RouterKeyTable) : Bool :=
  t.keys.isEmpty

/-- What is known of a key. -/
def get? (t : RouterKeyTable) (k : RouterKey) : Option RouterKeyStatus :=
  t.keys[k]?

/-- Adds a key. What is known of it stays as it is unless the new information expires later. -/
def insert (t : RouterKeyTable) (k : RouterKey) (info : RouterKeyStatus) : RouterKeyTable :=
  match t.get? k with
  | none => { t with keys := t.keys.insert k info }
  | some old =>
    if old.expires.before info.expires then { t with keys := t.keys.insert k info } else t

/-- How many AS numbers an entry holds; none if it inherits. -/
def countOf : AsEntry → Nat
  | .inherit => 0
  | .single _ => 1
  | .range r => r.last.toNat + 1 - r.first.toNat

/-- The AS numbers that an entry holds, in ascending order. -/
def numbersOf : AsEntry → List AsNumber
  | .inherit => []
  | .single n => [n]
  | .range r => (List.range' r.first.toNat (r.last.toNat + 1 - r.first.toNat)).map AsNumber.ofNat

/-- How many AS numbers the entries of resources hold together. -/
def countAll (r : AsResources) : Nat :=
  r.entries.foldr (fun e n => countOf e + n) 0

/-- The AS numbers that the entries of resources hold. -/
def numbersOfAll (r : AsResources) : List AsNumber :=
  r.entries.flatMap numbersOf

/-- Adds the key of a record for all AS numbers of the record, unless there are too many of them. A
record of a CA adds nothing. -/
def insertRecord (t : RouterKeyTable) (r : Record) : RouterKeyTable :=
  match r.role.routerKey? with
  | none => t
  | some key =>
    if countAll r.asResources > t.limit then t
    else
      (numbersOfAll r.asResources).foldl
        (fun t n => t.insert ⟨n, r.subjectKey, key⟩ ⟨r.expires, r.anchorNumber⟩) t

/-- All keys in order with what is known of them. -/
def toList (t : RouterKeyTable) : List (RouterKey × RouterKeyStatus) :=
  t.keys.toList

end RouterKeyTable

end ResourcePki
