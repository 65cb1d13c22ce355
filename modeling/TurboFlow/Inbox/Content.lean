import TurboFlow.Status

/-!
# Content descriptors

A content descriptor names the domain, profile, encoding and projection schema of a payload.
`contentDescriptorCheck` normalises the media type and refuses a known one in another spelling or
with another encoding.

The fixed character arrays are strings; that an array ends in a terminator is a bound on the length.
-/

namespace TurboFlow

/-- `turbo_flow_domain_t`. -/
inductive Domain
  | none
  | data
  | execution
  | ioTransport
  | protocolPattern
  | bufferPersistence
  | rules
  | management
  deriving DecidableEq

/-- `turbo_flow_content_profile_t`. -/
inductive ContentProfile
  | generic
  | httpRequestBody
  | httpResponseBody
  | s3Object
  | databaseParameters
  | databaseRowset
  | databaseCommandResult
  | protocolData
  | protocolControl
  | mqttApplication
  | mqttControl
  deriving DecidableEq

/-- `turbo_flow_data_encoding_t`. -/
inductive DataEncoding
  | tbe
  | json
  | csv
  | xml
  | utf8
  | opaqueBytes
  deriving DecidableEq

/-- `turbo_flow_content_descriptor_t`. The flag word keeps the known bits as booleans and the rest
as a number. -/
structure ContentDescriptor where
  domain : Domain
  profile : ContentProfile
  encoding : DataEncoding
  schemaDeclared : Bool
  batch : Bool
  protocolControl : Bool
  unknownFlags : ℕ
  schemaVersion : ℕ
  mediaType : String
  schemaName : String
  typeName : String
  identity : String
  deriving DecidableEq

def contentMediaTypeMax : ℕ := 127

def contentSchemaNameMax : ℕ := 127

def contentTypeNameMax : ℕ := 127

def contentIdentityMax : ℕ := 255

def contentProfileDomainValid (domain : Domain) : ContentProfile → Bool
  | .generic => domain ≠ .none
  | .httpRequestBody | .httpResponseBody => domain = .ioTransport
  | .s3Object | .databaseParameters | .databaseRowset | .databaseCommandResult =>
    domain = .bufferPersistence
  | .protocolData => domain = .protocolPattern ∨ domain = .data
  | .protocolControl | .mqttApplication | .mqttControl => domain = .protocolPattern

def isMediaBlank (c : Char) : Bool :=
  c = ' ' ∨ c = '\t'

def mediaTypeEssence (mediaType : String) : List Char :=
  let begin := mediaType.toList.dropWhile isMediaBlank
  ((begin.takeWhile (· ≠ ';')).reverse.dropWhile isMediaBlank).reverse

def asciiLower (c : Char) : Char :=
  if 'A' ≤ c ∧ c ≤ 'Z' then Char.ofNat (c.toNat + ('a'.toNat - 'A'.toNat)) else c

def contentMediaEqual (value : List Char) (expected : String) : Bool :=
  value.map asciiLower = expected.toList.map asciiLower

/-- `turbo_flow_content_media_type_normalize`: encoding and registry key of a known media type. -/
def contentMediaTypeNormalize (mediaType : String) : Option (DataEncoding × String) :=
  let value := mediaTypeEssence mediaType
  if contentMediaEqual value "application/json" then some (.json, "application/json")
  else if contentMediaEqual value "text/csv" then some (.csv, "text/csv")
  else if contentMediaEqual value "application/xml" || contentMediaEqual value "text/xml" then
    some (.xml, "application/xml")
  else if contentMediaEqual value "text/plain" then some (.utf8, "text/plain")
  else if contentMediaEqual value "application/octet-stream" then
    some (.opaqueBytes, "application/octet-stream")
  else if contentMediaEqual value "application/vnd.tbe" then some (.tbe, "application/vnd.tbe")
  else if contentMediaEqual value "application/vnd.turboflow.pg-rowset+json" then
    some (.json, "application/vnd.turboflow.pg-rowset+json")
  else if contentMediaEqual value "application/vnd.turboflow.pg-command+json" then
    some (.json, "application/vnd.turboflow.pg-command+json")
  else none

def mediaTypeCoherent (descriptor : ContentDescriptor) : Bool :=
  descriptor.mediaType == "" ||
    match contentMediaTypeNormalize descriptor.mediaType with
    | none => true
    | some (encoding, normalized) =>
      descriptor.encoding == encoding && descriptor.mediaType == normalized

def contentDescriptorCheck (descriptor : ContentDescriptor) : Status :=
  if descriptor.domain = .none then .einval
  else if ¬ contentProfileDomainValid descriptor.domain descriptor.profile ∨
      descriptor.unknownFlags ≠ 0 then .einval
  else if descriptor.mediaType.utf8ByteSize > contentMediaTypeMax ∨
      descriptor.schemaName.utf8ByteSize > contentSchemaNameMax ∨
      descriptor.typeName.utf8ByteSize > contentTypeNameMax ∨
      descriptor.identity.utf8ByteSize > contentIdentityMax then .einval
  else if descriptor.profile ≠ .generic ∧ descriptor.mediaType = "" then .einval
  else if descriptor.protocolControl ∧ descriptor.profile ≠ .protocolControl ∧
      descriptor.profile ≠ .mqttControl then .einval
  else if ¬ mediaTypeCoherent descriptor then .einval
  else if descriptor.schemaDeclared then
    if descriptor.schemaName ≠ "" ∧ descriptor.typeName ≠ "" ∧ descriptor.schemaVersion ≠ 0 then .ok
    else .einval
  else
    if descriptor.schemaName = "" ∧ descriptor.typeName = "" ∧ descriptor.schemaVersion = 0 then .ok
    else .einval

end TurboFlow
