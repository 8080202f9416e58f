import C64Https.Lib.Word
import C64Https.Lib.Loop
import C64Https.Lib.Bytes
import C64Https.Lib.Transition
import C64Https.Lib.Fallible
import C64Https.Tls.Transcript
import C64Https.Tls.HsSeq
import C64Https.Tls.Deframe
import C64Https.Tls.DeframeSafety
import C64Https.Tls.CertWalk
import C64Https.Tls.CertList
import C64Https.Tls.Trace
import C64Https.Tls.CertStream
import C64Https.Tls.Pump
import C64Https.Tls.CertLeaf
import C64Https.Tls.CertParse
import C64Https.Tls.Cert
import C64Https.Tls.CertRoutes
import C64Https.Tls.Messages
import C64Https.Tls.DeframeRuns
import C64Https.Tls.Record
import C64Https.Tls.ServerHello
import C64Https.Tls.Connect
import C64Https.Tls.RecordSpec
import C64Https.Tls.RecordStream
import C64Https.Crypto.Aead
import C64Https.Tls.RecordProtect
import C64Https.Tls.MessageLog
import C64Https.Tls.ConnectOrder
import C64Https.Tls.KeyFlow
import C64Https.Lib.History
import C64Https.Tls.CertPin
import C64Https.Tls.PinnedKey
import C64Https.Tls.Consumed
import C64Https.Tls.Epochs
import C64Https.Tls.EpochRuns
import C64Https.Tls.ServerHelloSpec
import C64Https.Tls.ServerHelloGrammar
import C64Https.Tls.ServerHelloFeed
import C64Https.Tls.KeyChanges
import C64Https.Http.Parser
import C64Https.Http.Split
import C64Https.Http.Decode
import C64Https.Http.Grammar
import C64Https.Http.HeaderRuns
import C64Https.Http.Sink
import C64Https.Http.History
import C64Https.Http.RecvBody
import C64Https.Http.Fetches
import C64Https.Http.GetPlain
import C64Https.Lib.Ring
import C64Https.Lib.Der
import C64Https.Net.Rx
import C64Https.Net.Uci
import C64Https.Net.Ip65
import C64Https.X509.Hostname
import C64Https.X509.Scans
import C64Https.Lib.BigEndian
import C64Https.Crypto.DerSig
import C64Https.X509.MatchName
import C64Https.Tls.AppData
import C64Https.Tls.ClassicWalk
import C64Https.Tls.ClassicHello
import C64Https.Lib.Footprint
import C64Https.Tls.Handlers
import C64Https.Tls.CertKey
import C64Https.Lib.Presentation
import C64Https.Tls.ClientHelloGrammar
import C64Https.Tls.ClientHello
import C64Https.Lib.Word32
import C64Https.Lib.Fips180
import C64Https.Crypto.Sha256
import C64Https.Tls.TranscriptRam
import C64Https.Lib.Hkdf
import C64Https.Lib.HmacDrbg
import C64Https.Crypto.Hmac
import C64Https.Tls.KeySchedule
import C64Https.Tls.KeyRuns
import C64Https.Crypto.Drbg
import C64Https.Lib.LittleEndian
import C64Https.Lib.Rfc8439
import C64Https.Crypto.ChaCha20
import C64Https.Net.StatusSlot
import C64Https.Http.BuildGet
import C64Https.Ui.TargetPrompt
import C64Https.Ui.Viewer
import C64Https.Crypto.Poly1305
import C64Https.Crypto.AeadRam
import C64Https.Store.TrustStore
import C64Https.Store.Image
import C64Https.Store.Mirror
import C64Https.Store.Agreement
import C64Https.Store.StoreRuns
import C64Https.Store.TornSave
import C64Https.Store.TrustPolicy
import C64Https.Store.PolicyRuns
import C64Https.Store.TofuRuns
import C64Https.Tls.WireText
