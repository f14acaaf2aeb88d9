import ResourcePki.Record
import Std.Data.TreeMap

/-!
The records of accepted CA certificates by their subject key identifiers, each with a link to that
of its issuer.

Records are added while the tree is walked downwards and never removed, so an issuer is there before
what it has issued, and every link points to an earlier entry. That is why a chain of links comes to
an end. A key identifier occurs once; a map from the identifiers to the entries is kept beside the
entries. An identifier of an entry is nothing but its position, so one from another index is only
noticed if it is out of range.
-/

namespace ResourcePki

/-- The identifier of an entry in an index. -/
structure EntryId where
  position : Nat
  deriving DecidableEq, Repr

/-- A record with the link to that of its issuer; a trust anchor has none. -/
structure IssuerEntry where
  record : Record
  parent : Option EntryId
  deriving DecidableEq

namespace IssuerEntry

/-- The subject key identifier of an entry. -/
def key (e : IssuerEntry) : KeyIdentifier :=
  e.record.subjectKey

end IssuerEntry

/-- Records by their subject key identifiers, in the order in which they were added. -/
structure IssuerIndex where
  entries : Array IssuerEntry
  /-- Where the entry with a subject key identifier is. -/
  byKey : Std.TreeMap KeyIdentifier EntryId
  /-- Links point to earlier entries. -/
  parent_lt : ∀ (i : Nat) (e : IssuerEntry), entries[i]? = some e → ∀ p ∈ e.parent, p.position < i

/-- Why a record cannot be added. -/
inductive IssuerIndexError where
  /-- The issuer is not an entry of the index. -/
  | foreignParent
  /-- The subject key identifier is taken. -/
  | duplicateKey (key : KeyIdentifier)
  deriving DecidableEq

namespace IssuerIndexError

/-- The wording of the refusal. -/
def message : IssuerIndexError → String
  | .foreignParent => "foreign parent ID"
  | .duplicateKey key => "duplicate subject key identifier " ++ key.text

/-- The wording where the index can no longer be trusted if a key occurs twice. -/
def corruptionMessage : IssuerIndexError → String
  | .foreignParent => message .foreignParent
  | .duplicateKey key => "trust index corrupted: " ++ message (.duplicateKey key)

end IssuerIndexError

namespace IssuerIndex

/-- An index without entries. -/
def empty : IssuerIndex :=
  ⟨#[], ∅, by simp⟩

/-- The number of entries. -/
def size (t : IssuerIndex) : Nat :=
  t.entries.size

/-- Whether there are no entries. -/
def isEmpty (t : IssuerIndex) : Bool :=
  t.entries.isEmpty

/-- The entry with an identifier. -/
def get? (t : IssuerIndex) (id : EntryId) : Option IssuerEntry :=
  t.entries[id.position]?

/-- The link of the entry with an identifier. -/
def parent? (t : IssuerIndex) (id : EntryId) : Option (Option EntryId) :=
  (t.get? id).map (·.parent)

/-- The entry whose subject key identifier is given. -/
def find? (t : IssuerIndex) (key : KeyIdentifier) : Option EntryId :=
  t.byKey[key]?

/-- Whether a link can be followed in the index. -/
def isValidParent (t : IssuerIndex) (parent : Option EntryId) : Bool :=
  parent.all (·.position < t.size)

/-- Adds an entry whose link can be followed. -/
def push (t : IssuerIndex) (e : IssuerEntry) (h : t.isValidParent e.parent) : IssuerIndex where
  entries := t.entries.push e
  byKey := t.byKey.insert e.key ⟨t.size⟩
  parent_lt := by
    intro i f hf p hp
    rw [Array.getElem?_push] at hf
    split at hf
    · next hi =>
      obtain rfl := Option.some.inj hf
      rw [Option.mem_def] at hp
      rw [isValidParent, hp] at h
      exact hi ▸ of_decide_eq_true h
    · exact t.parent_lt i f hf p hp

/-- Adds a record, unless its key is taken. The issuer has to be an entry of the index. The answer
comes with the index as it is left, whatever the answer is. -/
def insert (t : IssuerIndex) (r : Record) (parent : Option EntryId) :
    IssuerIndex × Except IssuerIndexError EntryId :=
  if h : t.isValidParent parent then
    if (t.find? r.subjectKey).isSome then (t, .error (.duplicateKey r.subjectKey))
    else (t.push ⟨r, parent⟩ h, .ok ⟨t.size⟩)
  else (t, .error .foreignParent)

/-- The entry of the issuer of a record, if the record names one and it has been added. -/
def issuer? (t : IssuerIndex) (r : Record) : Option IssuerEntry := do
  t.get? (← t.find? (← r.authorityKey))

/-- The first `n` entries from the given one upwards. -/
def chainUpTo (t : IssuerIndex) : (n : Nat) → EntryId → List IssuerEntry
  | 0, _ => []
  | n + 1, id =>
    match t.get? id with
    | none => []
    | some e =>
      match e.parent with
      | none => [e]
      | some p => e :: t.chainUpTo n p

/-- The entries from the given one up to its trust anchor. There are no more of them than entries up
to its position, since every link points to an earlier one. -/
def chain? (t : IssuerIndex) (id : EntryId) : Option (List IssuerEntry) :=
  if id.position < t.size then some (t.chainUpTo (id.position + 1) id) else none

/-- All entries by their subject key identifiers in ascending order. -/
def toSortedList (t : IssuerIndex) : List IssuerEntry :=
  t.byKey.toList.filterMap fun p => t.get? p.2

end IssuerIndex

end ResourcePki
