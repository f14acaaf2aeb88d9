import ResourcePki.Record.Transfer.Reader
import ResourcePki.Resources.As
import ResourcePki.Resources.Ip

/-!
Entries of resources in the transfer form.

An entry has a number for its kind and both of its ends, whatever the kind is; parts without a
meaning are zero. An entry of IP resources also has a number for its family and the length of a
prefix, whose bits beyond that length are cleared when it is read. Which of the parts belong
together is checked once they are all there.
-/

namespace ResourcePki.Transfer

/-- The number that stands for a family. -/
def familyCode : Family → Nat
  | .v4 => 1
  | .v6 => 2

/-- The family that a number stands for. -/
def familyOf (code : Nat) : Except RecordFault Family :=
  if code = 1 then .ok .v4 else if code = 2 then .ok .v6 else .error .family

/-- An entry of a prefix or a single number. -/
def singleCode : Nat := 0

/-- An entry of a range. -/
def rangeCode : Nat := 1

/-- An entry that inherits. -/
def inheritCode : Nat := 2

/-- The length of an entry of IP resources. -/
def ipEntryLength : Nat := 35

/-- The octets of an entry of IP resources from its parts. -/
def ipParts (family : Family) (kind length first last : Nat) : Octets :=
  Octets.ofNat 1 (familyCode family) ++ Octets.ofNat 1 kind ++ Octets.ofNat 1 length
    ++ Octets.ofNat 16 first ++ Octets.ofNat 16 last

/-- Writes an entry of IP resources. -/
def writeIpEntry : IpEntry → Octets
  | .inherit family => ipParts family inheritCode 0 0 0
  | .block family (.ofPrefix p) => ipParts family singleCode p.length p.first.value p.last.value
  | .block family (.ofRange r) => ipParts family rangeCode 0 r.first.value r.last.value

/-- The entry with the given kind and parts. -/
def ipEntryOf (family : Family) (kind length : Nat) (first last : Address) :
    Except RecordFault IpEntry :=
  if kind = singleCode then
    if length > family.octets * 8 then .error .prefixLength
    else .ok (.block family (.ofPrefix ⟨first.floor length, length⟩))
  else if kind = rangeCode then
    match AddressRange.make first last with
    | .ok r => .ok (.block family (.ofRange r))
    | .error _ => .error .addressRange
  else if kind = inheritCode then .ok (.inherit family)
  else .error .ipKind

/-- Reads an entry of IP resources. -/
def readIpEntry : Reader IpEntry := do
  let family ← orFault (familyOf (← number 1))
  let kind ← number 1
  let length ← number 1
  let first ← take 16
  let last ← take 16
  orFault (ipEntryOf family kind length (Address.ofOctets first) (Address.ofOctets last))

/-- The length of an entry of AS resources. -/
def asEntryLength : Nat := 9

/-- The octets of an entry of AS resources from its parts. -/
def asParts (kind first last : Nat) : Octets :=
  Octets.ofNat 1 kind ++ Octets.ofNat 4 first ++ Octets.ofNat 4 last

/-- Writes an entry of AS resources. -/
def writeAsEntry : AsEntry → Octets
  | .inherit => asParts inheritCode 0 0
  | .single n => asParts singleCode n.toNat n.toNat
  | .range r => asParts rangeCode r.first.toNat r.last.toNat

/-- The entry with the given kind and numbers. -/
def asEntryOf (kind : Nat) (first last : AsNumber) : Except RecordFault AsEntry :=
  if kind = singleCode then .ok (.single first)
  else if kind = rangeCode then
    match AsRange.make first last with
    | .ok r => .ok (.range r)
    | .error _ => .error .asRange
  else if kind = inheritCode then .ok .inherit
  else .error .asKind

/-- Reads an entry of AS resources. -/
def readAsEntry : Reader AsEntry := do
  let kind ← number 1
  let first ← number 4
  let last ← number 4
  orFault (asEntryOf kind (AsNumber.ofNat first) (AsNumber.ofNat last))

end ResourcePki.Transfer
