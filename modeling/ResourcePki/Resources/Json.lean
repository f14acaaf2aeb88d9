import ResourcePki.JsonValue
import ResourcePki.Resources.As
import ResourcePki.Resources.Ip

/-!
Resources in JSON.

Addresses are written as numbers and blocks by what they are made of. Reading only asks that
numbers are in range: a prefix may have bits beyond its length or more than an address has, and the
ends of a range may be in any order.
-/

namespace ResourcePki

namespace Family

/-- The family as a value. -/
def toJson : Family → JsonValue
  | .v4 => .ofText "Ipv4"
  | .v6 => .ofText "Ipv6"

/-- The family that a value holds. -/
def ofJson? (v : JsonValue) : Option Family :=
  match v.case? with
  | some ("Ipv4", content) => if JsonValue.isBare content then some .v4 else none
  | some ("Ipv6", content) => if JsonValue.isBare content then some .v6 else none
  | _ => none

end Family

namespace Address

/-- The address as a value. -/
def toJson (a : Address) : JsonValue :=
  .ofNat a.value

/-- The address that a value holds. -/
def ofJson? (v : JsonValue) : Option Address :=
  (v.nat? (0xffffffffffffffffffffffffffffffff)).map ofNat

end Address

namespace AddressPrefix

/-- The block as a value. -/
def toJson (p : AddressPrefix) : JsonValue :=
  .ofMembers [("addr", p.address.toJson), ("len", .ofNat p.length)]

/-- The block that a value holds. -/
def ofJson? (v : JsonValue) : Option AddressPrefix := do
  let [some address, some length] ← v.fields? ["addr", "len"] | none
  return ⟨← Address.ofJson? address, ← length.nat? 255⟩

end AddressPrefix

namespace AddressRange

/-- The range as a value. -/
def toJson (r : AddressRange) : JsonValue :=
  .ofMembers [("min", r.first.toJson), ("max", r.last.toJson)]

/-- The range that a value holds. -/
def ofJson? (v : JsonValue) : Option AddressRange := do
  let [some first, some last] ← v.fields? ["min", "max"] | none
  return ⟨← Address.ofJson? first, ← Address.ofJson? last⟩

end AddressRange

namespace AddressBlock

/-- The block as a value. -/
def toJson : AddressBlock → JsonValue
  | .ofPrefix p => .ofMembers [("Prefix", p.toJson)]
  | .ofRange r => .ofMembers [("Range", r.toJson)]

/-- The block that a value holds. -/
def ofJson? (v : JsonValue) : Option AddressBlock :=
  match v.case? with
  | some ("Prefix", some p) => (AddressPrefix.ofJson? p).map .ofPrefix
  | some ("Range", some r) => (AddressRange.ofJson? r).map .ofRange
  | _ => none

end AddressBlock

namespace IpEntry

/-- The entry as a value. -/
def toJson : IpEntry → JsonValue
  | .inherit family => .ofMembers [("Inherit", family.toJson)]
  | .block family b => .ofMembers [("Block", .array [family.toJson, b.toJson])]

/-- The entry that a value holds. -/
def ofJson? (v : JsonValue) : Option IpEntry :=
  match v.case? with
  | some ("Inherit", some family) => (Family.ofJson? family).map .inherit
  | some ("Block", some (.array [family, b])) => do
    return .block (← Family.ofJson? family) (← AddressBlock.ofJson? b)
  | _ => none

end IpEntry

namespace IpResources

/-- The resources as a value. -/
def toJson (r : IpResources) : JsonValue :=
  .array (r.entries.map (·.toJson))

/-- The resources that a value holds. -/
def ofJson? (v : JsonValue) : Option IpResources :=
  (v.list? IpEntry.ofJson?).map IpResources.mk

end IpResources

namespace AsNumber

/-- The number as a value. -/
def toJson (n : AsNumber) : JsonValue :=
  .ofNat n.toNat

/-- The number that a value holds. -/
def ofJson? (v : JsonValue) : Option AsNumber :=
  (v.nat? (0xffffffff)).map ofNat

end AsNumber

namespace AsRange

/-- The range as a value. -/
def toJson (r : AsRange) : JsonValue :=
  .ofMembers [("min", r.first.toJson), ("max", r.last.toJson)]

/-- The range that a value holds. -/
def ofJson? (v : JsonValue) : Option AsRange := do
  let [some first, some last] ← v.fields? ["min", "max"] | none
  return ⟨← AsNumber.ofJson? first, ← AsNumber.ofJson? last⟩

end AsRange

namespace AsEntry

/-- The entry as a value. -/
def toJson : AsEntry → JsonValue
  | .inherit => .ofText "Inherit"
  | .single n => .ofMembers [("Id", n.toJson)]
  | .range r => .ofMembers [("Range", r.toJson)]

/-- The entry that a value holds. -/
def ofJson? (v : JsonValue) : Option AsEntry :=
  match v.case? with
  | some ("Inherit", content) => if JsonValue.isBare content then some .inherit else none
  | some ("Id", some n) => (AsNumber.ofJson? n).map .single
  | some ("Range", some r) => (AsRange.ofJson? r).map .range
  | _ => none

end AsEntry

namespace AsResources

/-- The resources as a value. -/
def toJson (r : AsResources) : JsonValue :=
  .array (r.entries.map (·.toJson))

/-- The resources that a value holds. -/
def ofJson? (v : JsonValue) : Option AsResources :=
  (v.list? AsEntry.ofJson?).map AsResources.mk

end AsResources

end ResourcePki
