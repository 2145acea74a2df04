import TinyCrypto.Aes.AeadAgreement
import TinyCrypto.Aes.Ctr
import TinyCrypto.Aes.Fips197
import TinyCrypto.Aes.GhashField
import TinyCrypto.Apdu.Chaining
import TinyCrypto.Cms.AttributeOrder
import TinyCrypto.Cms.SignedData
import TinyCrypto.Credential.CanceledCards
import TinyCrypto.Credential.Fascn
import TinyCrypto.Crl.Accumulation
import TinyCrypto.Crl.CacheRuns
import TinyCrypto.Crl.DeltaSelection
import TinyCrypto.Crl.Freshness
import TinyCrypto.Crl.MergedLists
import TinyCrypto.Drbg.Runs
import TinyCrypto.Ec.Signing
import TinyCrypto.Gzip.Conformance
import TinyCrypto.Gzip.SymbolDecoding
import TinyCrypto.Hash.Parts
import TinyCrypto.Kdf.Hkdf
import TinyCrypto.Mac.Iso9797
import TinyCrypto.Mp.LimbsDivide
import TinyCrypto.Piv.CardResponse
import TinyCrypto.Piv.KeyChallenge
import TinyCrypto.Piv.VerifyRuns
import TinyCrypto.Pki.OctetChunks
import TinyCrypto.Pki.StoragePlan
import TinyCrypto.Rsa.CrtDerive
import TinyCrypto.Rsa.Oaep
import TinyCrypto.Rsa.ProbablePrime
import TinyCrypto.Rsa.Signing
import TinyCrypto.Snapshot.Stores
import TinyCrypto.Tlv.Cursor
import TinyCrypto.Tlv.Widening
import TinyCrypto.Tlv.Windowed
import TinyCrypto.Unicode.Segments
import TinyCrypto.X509.Arena
import TinyCrypto.X509.MemberEvidence
import TinyCrypto.X509.NodeLookups
import TinyCrypto.X509.PathValidate
import TinyCrypto.X509.SearchComplete
