import TinyCrypto.Crl.Records
import TinyCrypto.Library.Together

/-! # Revoked entries

`x509_crl_entries.c` and the entry reader of `x509_crl.c`: the entries of a CRL one after the
other, with the issuer that each of them inherits, and the search for a certificate among them.
-/

namespace TinyCrypto.Crl

open Library Library.Program Library.Metered
open Tlv
open X509 (Time timeValue)

abbrev EntryProgram := Metered Result Unit

/-- `TC_X509_crl_extensions`, as a record and whether the CRL is indirect. -/
structure Extensions extends Record where
  indirect : Bool
  deriving DecidableEq

/-- `tc_x509_crl_entry`. -/
structure CrlEntry where
  serial : Bytes
  serialNegative : Bool
  revokedAt : Time
  extensions : Bytes
  deriving DecidableEq

/-- `tc_x509_crl_entry_info`. -/
structure EntryInfo where
  issuer : Bytes
  unknownCritical : Bool
  invalidityDate : Time
  reason : Nat
  present : Nat
  critical : Nat
  deriving DecidableEq

/-- `tc_x509_crl_entry_issuer`: the Name of the CRL, or the contents of a certificateIssuer. -/
structure EntryIssuer where
  name : Bytes
  names : Bytes
  deriving DecidableEq

/-- `tc_x509_crl_revoked_entry`. -/
structure RevokedEntry where
  entry : CrlEntry
  extensions : EntryInfo
  issuer : EntryIssuer
  deriving DecidableEq

/-- `TC_X509_crl_target`. -/
structure Target where
  serial : Bytes
  issuer : Bytes
  deriving DecidableEq

/-- `TC_X509_crl`, with the matches that it is prepared with. -/
structure RevocationList where
  encoded : Bytes
  tbs : Bytes
  revoked : Bytes
  issuer : Bytes
  version : Nat
  prepared : Option (List (Target × EntryMatch))
  deriving DecidableEq

structure EntryReaders where
  sizeT : Nat
  sizeMax : Nat
  limits : Limits
  /-- `tc_pki_tree_read` in DER. -/
  treeRead : Bytes → EntryProgram Element
  /-- `tc_x509_crl_entry_info_read`. -/
  infoRead : Bytes → EntryProgram EntryInfo
  /-- `TC_X509_name_equal`. -/
  nameEqual : Bytes → Bytes → EntryProgram Bool
  /-- `tc_pki_name_equal` in DER. -/
  treeNameEqual : Bytes → Bytes → EntryProgram Bool
  treeRead_bytes : ∀ {input s e s'}, Gives (treeRead input) s e s' → e.encoded ≠ []

def entryReason : Nat := 1
def entryInvalidity : Nat := 2
def entryIssuer : Nat := 4

def entryKnown : Nat := 7

def EntryInfo.has (info : EntryInfo) (extension : Nat) : Bool := info.present &&& extension ≠ 0

/-- `tc_x509_crl_entry_policy`. -/
def entryPolicy (crl : Extensions) (entry : EntryInfo) : Result :=
  if !covered entry.present entryKnown || !covered entry.critical entry.present then .argument
  else if entry.unknownCritical then .unsupported
  else if entry.critical &&& (entryReason ||| entryInvalidity) ≠ 0 then .invalid
  else if entry.has entryIssuer && (entry.critical &&& entryIssuer = 0 || !crl.has extDistribution ||
      !crl.indirect) then .invalid
  else if entry.has entryReason && entry.reason = reasonRemove && !crl.has extDelta then .invalid
  else .ok

/-- `value` of `der.c`. -/
def derValue (sizeT sizeMax : Nat) (tag : UInt8) (encoded : Bytes) : Except Result Bytes :=
  match read sizeT ⟨sizeMax, sizeMax, 1, 1⟩ encoded with
  | .error .more => .error .invalid
  | .error .limit => .error .invalid
  | .error e => .error e
  | .ok e =>
    if e.encoded.length ≠ encoded.length || !e.tagIs tag then .error .invalid else .ok e.value

/-- `TC_DER_integer_contents`. -/
def integerContents : Bytes → Bool
  | [] => false
  | [_] => true
  | a :: b :: _ => !((a = 0 && b.toNat < 128) || (a = 255 && b.toNat ≥ 128))

/-- `TC_DER_integer`. -/
def derInteger (sizeT sizeMax : Nat) (encoded : Bytes) : Except Result (Bytes × Bool) :=
  match derValue sizeT sizeMax 2 encoded with
  | .error e => .error e
  | .ok v => if integerContents v then .ok (v, (v.getD 0 0).toNat ≥ 128) else .error .invalid

section

variable (c : EntryReaders)

/-- `tc_pki_tree_next`. -/
def treeNext (reader : Reader) : EntryProgram (Element × Reader) :=
  if reader.rest = [] then throw .end
  else if reader.elements ≥ c.limits.maxElements then throw .limit
  else do
    let element ← c.treeRead reader.rest
    return (element, ⟨reader.rest.drop element.encoded.length, reader.elements + 1⟩)

/-- `tc_pki_tree_next` where an end is INVALID. -/
def treeExpect (reader : Reader) : EntryProgram (Element × Reader) :=
  if reader.rest = [] then throw .invalid else treeNext c reader

/-- `tc_pki_tree_field`. -/
def treeField (tag : UInt8) (reader : Reader) : EntryProgram (Element × Reader) := do
  let (element, reader) ← treeExpect c reader
  if element.tagIs tag then return (element, reader) else throw .invalid

/-- `tc_pki_tree_open`. -/
def treeOpen (tag : UInt8) (input : Bytes) : EntryProgram Reader := do
  let outer ← c.treeRead input
  if !outer.tagIs tag || !outer.header.constructed || outer.encoded.length ≠ input.length then
    throw .invalid
  else lift (readerInit c.limits outer.value)

/-- `tc_x509_crl_entries_init`. An absent list has no bytes. -/
def entriesInit (encoded : Bytes) : EntryProgram Reader :=
  if encoded = [] then lift (readerInit c.limits [])
  else do
    let reader ← treeOpen c 0x30 encoded
    if reader.rest = [] then throw .invalid else return reader

def entryExtensions (version : Nat) (fields : Reader) : EntryProgram Bytes :=
  if fields.rest = [] then pure []
  else if version ≠ 2 then throw .invalid
  else do
    let (element, fields) ← treeField c 0x30 fields
    if element.value = [] || fields.rest ≠ [] then throw .invalid else return element.encoded

/-- `tc_x509_crl_entry_next`. -/
def entryNext (version : Nat) (reader : Reader) : EntryProgram (CrlEntry × Reader) := do
  let (element, next) ← treeNext c reader
  let fields ← treeOpen c 0x30 element.encoded
  let (number, fields) ← treeField c 2 fields
  let (serial, serialNegative) ← lift (derInteger c.sizeT c.sizeMax number.encoded)
  let (date, fields) ← treeExpect c fields
  match timeValue date.header.tag date.value with
  | none => throw .invalid
  | some revokedAt =>
    let extensions ← entryExtensions c version fields
    return (⟨serial, serialNegative, revokedAt, extensions⟩, next)

/-- `tc_x509_crl_revoked_init`. -/
def revokedInit (crl : RevocationList) (extensions : Extensions) : EntryProgram Reader :=
  if (crl.version ≠ 1 ∧ crl.version ≠ 2) ∨ crl.issuer = [] then throw .argument
  else if extensionPolicy extensions.toRecord ≠ .ok then throw (extensionPolicy extensions.toRecord)
  else entriesInit c crl.revoked

def directoryName : UInt8 := 0xa4

/-- The loop of `entry_issuer_directory_name`, over the names that pass a test. -/
def namesLoop (test : Bytes → EntryProgram Bool) : (passes : Nat) → Reader → EntryProgram Bool
  | 0, _ => pure false
  | passes + 1, reader =>
    if reader.rest = [] then pure false
    else do
      let (element, reader) ← treeNext c reader
      if element.tagIs directoryName then
        if ← test element.value then return true else namesLoop test passes reader
      else namesLoop test passes reader

/-- `entry_issuer_directory_name`, with a query or without one. -/
def issuerDirectoryName (names : Bytes) (query : Option Bytes) : EntryProgram Bool := do
  let reader ← lift (readerInit c.limits names)
  namesLoop c (fun name => query.elim (pure true) (c.treeNameEqual name)) names.length reader

/-- `tc_x509_crl_entry_resolve`. -/
def entryResolve (entry : CrlEntry) (crl : Extensions) (issuer : EntryIssuer) :
    EntryProgram RevokedEntry := do
  let info ← c.infoRead entry.extensions
  if entryPolicy crl info ≠ .ok then throw (entryPolicy crl info)
  else if info.has entryIssuer then
    if ← issuerDirectoryName c info.issuer none then return ⟨entry, info, ⟨[], info.issuer⟩⟩
    else throw .invalid
  else return ⟨entry, info, issuer⟩

/-- `tc_x509_crl_query_matches`. -/
def queryMatches (entry : RevokedEntry) (query : Target) : EntryProgram Bool :=
  if entry.entry.serial = [] || query.serial = [] then throw .argument
  else do
    charge .limit entry.entry.serial.length
    if entry.entry.serial ≠ query.serial then return false
    else if entry.issuer.names = [] then c.nameEqual entry.issuer.name query.issuer
    else issuerDirectoryName c entry.issuer.names (some query.issuer)

def RevokedEntry.reported (entry : RevokedEntry) : EntryMatch where
  revokedAt := entry.entry.revokedAt
  invalidityDate := entry.extensions.invalidityDate
  reason := entry.extensions.reason
  found := 1
  hasInvalidityDate := if entry.extensions.has entryInvalidity then 1 else 0

/-- `tc_x509_crl_match_update`. -/
def matchUpdate (entry : RevokedEntry) (query : Target) (found : EntryMatch) :
    EntryProgram EntryMatch := do
  if ← queryMatches c entry query then
    if found.found ≠ 0 then throw .invalid else return entry.reported
  else return found

/-- The loop of `tc_x509_crl_find` over `tc_x509_crl_revoked_next`. -/
def findLoop (crl : Extensions) (version : Nat) (query : Target) : (passes : Nat) → Reader →
    EntryIssuer → EntryMatch → EntryProgram EntryMatch
  | 0, _, _, found => pure found
  | passes + 1, reader, issuer, found =>
    if reader.rest = [] then pure found
    else do
      let (entry, reader) ← entryNext c version reader
      let entry ← entryResolve c entry crl issuer
      let found ← matchUpdate c entry query found
      findLoop crl version query passes reader entry.issuer found

/-- `crl_prepared_find`. -/
def preparedFind (query : Target) : List (Target × EntryMatch) → EntryProgram EntryMatch
  | [] => throw .unsupported
  | (target, found) :: rest =>
    if target.serial = [] || target.issuer = [] then throw .argument
    else do
      charge .limit 1
      charge .limit target.serial.length
      if target.serial ≠ query.serial then preparedFind query rest
      else do
        charge .limit target.issuer.length
        if target.issuer ≠ query.issuer then preparedFind query rest else return found

/-- `tc_x509_crl_find`. -/
def crlFind (crl : RevocationList) (extensions : Extensions) (query : Target) :
    EntryProgram EntryMatch :=
  if query.serial = [] || query.issuer = [] then throw .argument
  else
    match crl.prepared with
    | some prepared =>
      if crl.encoded ≠ [] ∨ crl.tbs ≠ [] ∨ crl.revoked ≠ [] ∨
          (crl.version ≠ 1 ∧ crl.version ≠ 2) ∨ crl.issuer = [] then throw .argument
      else if extensionPolicy extensions.toRecord ≠ .ok then
        throw (extensionPolicy extensions.toRecord)
      else preparedFind query prepared
    | none => do
      let reader ← revokedInit c crl extensions
      findLoop c extensions crl.version query reader.rest.length reader ⟨crl.issuer, []⟩ .zero

/-- `tc_x509_crl_selected_lookup`, of the CRLs themselves. -/
def crlLookup (base : RevocationList × Extensions) (delta : Option (RevocationList × Extensions))
    (query : Target) : EntryProgram EntryMatch := do
  let found ← crlFind c base.1 base.2 query
  match delta with
  | none => lift (combine found none)
  | some delta =>
    let entry ← crlFind c delta.1 delta.2 query
    lift (combine found (some entry))

end

end TinyCrypto.Crl
