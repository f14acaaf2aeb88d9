import ResourcePki.Record
import ResourcePki.Record.Transfer.Entry

/-!
The form in which records are sent from one process to another.

A header of 21 octets holds when the record expires, what it is for, the number of the trust anchor,
and how many entries of IP and of AS resources follow. Every entry has a fixed length. Eight texts
come last, each behind its length; a length of zero stands for a text that is absent. The decoded
certificate is not sent.

Reading takes exactly the octets of one record. The counts are held against the octets that are left
before any entry is looked at, and all texts are read before any of them is understood. Texts that
the role of a record has no use for are passed over.
-/

namespace ResourcePki

namespace Transfer

/-- The number that stands for a purpose. -/
def purposeCode : Purpose → Nat
  | .ca => 1
  | .router => 2

/-- The purpose that a number stands for. -/
def purposeOf (code : Nat) : Except RecordFault Purpose :=
  if code = 1 then .ok .ca else if code = 2 then .ok .router else .error .purpose

/-- The parts of a record as they are sent. -/
structure Form where
  expires : Time
  purpose : Purpose
  anchorNumber : UInt32
  ipResources : IpResources
  asResources : AsResources
  manifest : Option Octets
  notification : Option Octets
  repository : Option Octets
  crlUri : Option Octets
  caIssuer : Option Octets
  authorityKey : Option Octets
  subjectKey : Option Octets
  routerKey : Option Octets

namespace Form

/-- The text of a key identifier as octets. -/
def keyText (k : KeyIdentifier) : Octets :=
  Octets.ofAscii k.text

/-- The parts that are sent of a record. -/
def ofRecord (r : Record) : Form where
  expires := r.expires
  purpose := r.role.purpose
  anchorNumber := r.anchorNumber
  ipResources := r.ipResources
  asResources := r.asResources
  manifest := r.role.repository?.map (·.manifest.octets)
  notification := (r.role.repository?.bind (·.notification)).map (·.octets)
  repository := r.role.repository?.map (·.base.octets)
  crlUri := r.crlUri.map (·.octets)
  caIssuer := r.caIssuer.map (·.octets)
  authorityKey := r.authorityKey.map keyText
  subjectKey := some (keyText r.subjectKey)
  routerKey := r.role.routerKey?.map fun key => Octets.ofAscii key.base64

/-- Writes the parts. -/
def encode (f : Form) : Octets :=
  signed f.expires.seconds ++ Octets.ofNat 1 (purposeCode f.purpose)
    ++ Octets.ofNat 4 f.anchorNumber.toNat
    ++ Octets.ofNat 4 f.ipResources.entries.length ++ Octets.ofNat 4 f.asResources.entries.length
    ++ f.ipResources.entries.flatMap writeIpEntry ++ f.asResources.entries.flatMap writeAsEntry
    ++ [f.manifest, f.notification, f.repository, f.crlUri, f.caIssuer, f.authorityKey,
        f.subjectKey, f.routerKey].flatMap writeText

/-- The moment a number of seconds from the beginning of 1970. -/
def timeOf (seconds : Int) : Except RecordFault Time :=
  match Time.ofSeconds? seconds with
  | some t => .ok t
  | none => .error .expiry

/-- The length of the header. -/
def headerLength : Nat := 21

/-- Reads the parts. -/
def read : Reader Form := do
  if (← get).length < headerLength then throw .shortInput
  let expires ← orFault (timeOf (ofSigned (← number 8)))
  let purpose ← orFault (purposeOf (← number 1))
  let anchorNumber := UInt32.ofNat (← number 4)
  let ipCount ← number 4
  let asCount ← number 4
  let ipEntries ← readEntries ipEntryLength readIpEntry ipCount
  let asEntries ← readEntries asEntryLength readAsEntry asCount
  let manifest ← readText
  let notification ← readText
  let repository ← readText
  let crlUri ← readText
  let caIssuer ← readText
  let authorityKey ← readText
  let subjectKey ← readText
  let routerKey ← readText
  return { expires, purpose, anchorNumber, ipResources := ⟨ipEntries⟩, asResources := ⟨asEntries⟩,
           manifest, notification, repository, crlUri, caIssuer, authorityKey, subjectKey,
           routerKey }

/-- The rsync URI with the given octets. -/
def rsyncOf (bs : Octets) : Except RecordFault RsyncUri :=
  (RsyncUri.ofOctets bs).mapError fun _ => .rsyncUri

/-- The https URI with the given octets. -/
def httpsOf (bs : Octets) : Except RecordFault HttpsUri :=
  (HttpsUri.ofOctets bs).mapError fun _ => .httpsUri

/-- The key identifier with the given text. -/
def keyOf (bs : Octets) : Except RecordFault KeyIdentifier :=
  match KeyIdentifier.ofText? (Octets.toText bs) with
  | some k => .ok k
  | none => .error .keyIdentifier

/-- The role of a CA. -/
def caRole (f : Form) : Except RecordFault Role :=
  match f.manifest, f.repository with
  | some manifest, some base => do
    let base ← rsyncOf base
    let manifest ← rsyncOf manifest
    let notification ← f.notification.mapM httpsOf
    match Repository.make base manifest notification with
    | .ok repository => return .ca repository
    | .error _ => throw .repository
  | _, _ => .error .manifestMissing

/-- The role of a router. -/
def routerRole (f : Form) : Except RecordFault Role :=
  match f.routerKey with
  | none => .error .routerKeyMissing
  | some text =>
    match PublicKey.ofBase64? (Octets.toText text) with
    | some key => .ok (.router key)
    | none => .error .routerKey

/-- The record with the given parts. -/
def record (f : Form) : Except RecordFault Record := do
  match f.subjectKey with
  | none => throw .subjectKeyMissing
  | some text =>
    let subjectKey ← keyOf text
    let role ←
      match f.purpose with
      | .ca => f.caRole
      | .router => f.routerRole
    let authorityKey ← f.authorityKey.mapM keyOf
    let caIssuer ← f.caIssuer.mapM rsyncOf
    let crlUri ← f.crlUri.mapM rsyncOf
    return { role, ipResources := f.ipResources, asResources := f.asResources, subjectKey,
             authorityKey, caIssuer, crlUri, expires := f.expires,
             anchorNumber := f.anchorNumber, certificate := none }

end Form

end Transfer

namespace Record

open Transfer

/-- The octets in which a record is sent. -/
def toTransfer (r : Record) : Octets :=
  (Form.ofRecord r).encode

/-- Reads a record. -/
def readTransfer : Reader Record := do
  let form ← Form.read
  orFault form.record

/-- The record at the beginning of octets and what follows it. -/
def ofTransfer (bs : Octets) : Except TransferError (Record × Octets) :=
  readTransfer bs

end Record

end ResourcePki
