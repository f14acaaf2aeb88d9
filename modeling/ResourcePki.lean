import ResourcePki.DecodeOptions.Json
import ResourcePki.IssuerIndex
import ResourcePki.Main
import ResourcePki.Proofs.Address.Block
import ResourcePki.Proofs.Certificate.Decoded
import ResourcePki.Proofs.Certificate.Fields
import ResourcePki.Proofs.CommandLine.Arguments
import ResourcePki.Proofs.CommandLine.Batch
import ResourcePki.Proofs.Der.Ensures
import ResourcePki.Proofs.Der.Header
import ResourcePki.Proofs.Der.Reads
import ResourcePki.Proofs.Der.Skip
import ResourcePki.Proofs.IssuerIndex.Consistent
import ResourcePki.Proofs.IssuerIndex.Filled
import ResourcePki.Proofs.IssuerIndex.Runs
import ResourcePki.Proofs.KeyIdentifier
import ResourcePki.Proofs.Octets
import ResourcePki.Proofs.Reading
import ResourcePki.Proofs.Record.Accepted
import ResourcePki.Proofs.Record.Findings
import ResourcePki.Proofs.Record.Transfer
import ResourcePki.Proofs.Record.Transfer.Entry
import ResourcePki.Proofs.Record.Transfer.Form
import ResourcePki.Proofs.Record.Transfer.Reader
import ResourcePki.Proofs.Resources.AllPairs
import ResourcePki.Proofs.Resources.As
import ResourcePki.Proofs.Resources.Claimed
import ResourcePki.Proofs.Resources.Collector
import ResourcePki.Proofs.Resources.Ip
import ResourcePki.Proofs.RouterKeyTable.Numbers
import ResourcePki.Proofs.RouterKeyTable.Order
import ResourcePki.Proofs.RouterKeyTable.Runs
import ResourcePki.Proofs.Text
import ResourcePki.Proofs.Time
import ResourcePki.Proofs.Uri
import ResourcePki.Record.Json
import ResourcePki.Record.Transfer
import ResourcePki.Proofs.Repository.Manifest
import ResourcePki.Proofs.Der.Whole
import ResourcePki.Proofs.Der.Written
import ResourcePki.Proofs.Address.Bits
import ResourcePki.Proofs.Resources.IpWritten
import ResourcePki.Proofs.Resources.IpRoundTrip
import ResourcePki.Proofs.Certificate.Overlooked
import ResourcePki.Proofs.Decimal
import ResourcePki.Proofs.Der.Within
import ResourcePki.Proofs.JsonValue.Fields
import ResourcePki.Proofs.JsonValue.Written
import ResourcePki.Proofs.Record.Json
import ResourcePki.Proofs.Record.Laxer
import ResourcePki.Proofs.Record.Recognised
import ResourcePki.Proofs.Record.Transfer.Bare
import ResourcePki.Proofs.Record.Transfer.Safe
import ResourcePki.Proofs.Resources.Json
import ResourcePki.Proofs.Resources.Laxer
import ResourcePki.Proofs.Calendar
import ResourcePki.Proofs.Record.RoleCheck
import ResourcePki.Proofs.Record.Transfer.Truncated
import ResourcePki.Proofs.Resources.AsRoundTrip
import ResourcePki.Proofs.Time.Rfc3339
import ResourcePki.Proofs.RouterKeyTable.Expansion
import ResourcePki.Proofs.RouterKeyTable.Words
import ResourcePki.Proofs.Address.Words
import ResourcePki.Proofs.Address.SharedBits
import ResourcePki.Proofs.Address.Ends
import ResourcePki.Proofs.Uri.Scheme
import ResourcePki.Proofs.Uri.Grammar
import ResourcePki.Proofs.Uri.Parts
import ResourcePki.Proofs.Time.Der
import ResourcePki.Proofs.PublicKey.RouterKey
import ResourcePki.Proofs.PublicKey.SameKey
import ResourcePki.Proofs.Certificate.Purpose
import ResourcePki.Proofs.Repository.Locations
import ResourcePki.Proofs.Certificate.CrlLocation
import ResourcePki.Proofs.Certificate.ExtensionList
import ResourcePki.Proofs.KeyIdentifier.Text
import ResourcePki.Proofs.Policy
import ResourcePki.Proofs.Address.Nested
import ResourcePki.Proofs.AsNumber.Text
import ResourcePki.Proofs.IssuerIndex.Foreign
