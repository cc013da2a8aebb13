import RecordExchange.Admission.Pattern
import RecordExchange.Admission.Policy
import RecordExchange.Admission.PolicyFile
import RecordExchange.Admission.Whitelist
import RecordExchange.Digest.Sha256
import RecordExchange.Endpoint.Basic
import RecordExchange.Endpoint.Deployment
import RecordExchange.Endpoint.Inspection
import RecordExchange.Endpoint.Registry
import RecordExchange.Endpoint.Settings
import RecordExchange.ExchangeError
import RecordExchange.Fingerprint
import RecordExchange.Group.Application
import RecordExchange.Group.Basic
import RecordExchange.Group.Described
import RecordExchange.Group.Id
import RecordExchange.Inspection
import RecordExchange.Json.Basic
import RecordExchange.Json.Parser
import RecordExchange.Json.Printer
import RecordExchange.Number.Binary
import RecordExchange.Number.ByteOrder
import RecordExchange.Number.Shortest
import RecordExchange.Payload.Decode
import RecordExchange.Payload.Encode
import RecordExchange.Payload.FieldOrder
import RecordExchange.Payload.Skip
import RecordExchange.Proofs.Acceptance
import RecordExchange.Proofs.Admission
import RecordExchange.Proofs.Announcements
import RecordExchange.Proofs.Bounds
import RecordExchange.Proofs.BufferReading
import RecordExchange.Proofs.Calls
import RecordExchange.Proofs.CanonicalOrder
import RecordExchange.Proofs.CanonicalPlaces
import RecordExchange.Proofs.CanonicalText
import RecordExchange.Proofs.Conformance
import RecordExchange.Proofs.Consumption
import RecordExchange.Proofs.Contents
import RecordExchange.Proofs.Corruptions
import RecordExchange.Proofs.DecodeFailures
import RecordExchange.Proofs.Defaults
import RecordExchange.Proofs.Delimiting
import RecordExchange.Proofs.Delivery
import RecordExchange.Proofs.Deployments
import RecordExchange.Proofs.DepthFirst
import RecordExchange.Proofs.Drafts
import RecordExchange.Proofs.Evolution
import RecordExchange.Proofs.Exchanges
import RecordExchange.Proofs.Failures
import RecordExchange.Proofs.FieldOrders
import RecordExchange.Proofs.Following
import RecordExchange.Proofs.Interchange
import RecordExchange.Proofs.JsonText
import RecordExchange.Proofs.Nesting
import RecordExchange.Proofs.NormalForm
import RecordExchange.Proofs.Outcomes
import RecordExchange.Proofs.Policies
import RecordExchange.Proofs.Primitive
import RecordExchange.Proofs.Promotion
import RecordExchange.Proofs.Readers
import RecordExchange.Proofs.Reading
import RecordExchange.Proofs.RecordNames
import RecordExchange.Proofs.Reentrancy
import RecordExchange.Proofs.Refusals
import RecordExchange.Proofs.Relocation
import RecordExchange.Proofs.Resolution
import RecordExchange.Proofs.Rounding
import RecordExchange.Proofs.SchemaText
import RecordExchange.Proofs.SelfDelimiting
import RecordExchange.Proofs.Shortcut
import RecordExchange.Proofs.Skipping
import RecordExchange.Proofs.Spelling
import RecordExchange.Proofs.Storekeeping
import RecordExchange.Proofs.Stores
import RecordExchange.Proofs.TextOrder
import RecordExchange.Proofs.Throughout
import RecordExchange.Proofs.Truncation
import RecordExchange.Proofs.Validity
import RecordExchange.Proofs.Weights
import RecordExchange.Proofs.WordNumbers
import RecordExchange.Schema.Basic
import RecordExchange.Schema.Canonical
import RecordExchange.Schema.Draft
import RecordExchange.Schema.Error
import RecordExchange.Schema.Text
import RecordExchange.Schema.Validity
import RecordExchange.SchemaStore
import RecordExchange.StoredFile
import RecordExchange.Text.Blank
import RecordExchange.Text.Hex
import RecordExchange.Text.Quoted
import RecordExchange.Text.Utf8
import RecordExchange.Text.Visibility
import RecordExchange.Toml.Basic
import RecordExchange.Toml.Document
import RecordExchange.Toml.Number
import RecordExchange.Toml.Printer
import RecordExchange.Toml.Text
import RecordExchange.Value.Basic
import RecordExchange.Value.Extraction
import RecordExchange.Value.Validity
import RecordExchange.Wire.Decoder
import RecordExchange.Wire.Header
import RecordExchange.Wire.Item
import RecordExchange.Wire.Primitive
