import FinBit.Store.Refinement
import FinBit.Store.MlsLog
import FinBit.Crypto.ConversationRuns
import FinBit.Desktop.Replies
import FinBit.Desktop.FriendRelay
import FinBit.Desktop.PqPinRuns
import FinBit.Desktop.MlsAgreement
import FinBit.Crypto.RatchetPair
import FinBit.Desktop.Glare
import FinBit.Desktop.DmAtomicity
import FinBit.Lib.SavedChain
import FinBit.Desktop.ChannelSend
import FinBit.Desktop.ChannelDelivery
import FinBit.Desktop.Channels
import FinBit.Desktop.ChannelRestart
import FinBit.Desktop.VerifiedPeers
import FinBit.Desktop.SentMessages
import FinBit.Desktop.Attribution
import FinBit.Desktop.ForwarderElection
import FinBit.Desktop.RoomSecrets
import FinBit.Crypto.SenderKeysForgery
import FinBit.Crypto.SenderKeysRestore
import FinBit.Crypto.SendingKeys
import FinBit.Crypto.MlsGenerations
import FinBit.Handshake.SigningRoles
import FinBit.Handshake.BundleSignatures
import FinBit.P2P.DhtCompletion
import FinBit.P2P.RelayQueues
import FinBit.P2P.GossipReach
import FinBit.Web.WebClient
import FinBit.Identity.GossipRounds
import FinBit.Server.BeforeSignIn
import FinBit.Server.DirectoryNames
import FinBit.Server.Memberships
import FinBit.Server.OfflineQueues
import FinBit.Server.RateLimit
import FinBit.Server.Directory
import FinBit.Net.FrameCodec
import FinBit.Net.FrameParser
import FinBit.Net.Handshake
import FinBit.Crypto.Shamir
import FinBit.Handshake.RecordReadings
import FinBit.Web.BrowserStores
import FinBit.Web.SessionStarts
import FinBit.Web.HybridStarts
import FinBit.P2P.Detection
import FinBit.Mesh.SerialBridge
import FinBit.P2P.Buckets
import FinBit.P2P.LastSeen
import FinBit.Desktop.Acquaintances
import FinBit.P2P.RecordRuns
import FinBit.P2P.RecordExpiry
import FinBit.Desktop.Disappearing
import FinBit.Lib.Paging
import FinBit.Identity.ClaimPages
import FinBit.Lib.Rotation
import FinBit.Media.RoomKeyRuns
import FinBit.Lib.Utf8
import FinBit.Desktop.AttachmentFrames
import FinBit.Web.Vault
import FinBit.Web.ProtoMessages
import FinBit.Web.KeyFetches
import FinBit.Web.OutboxRuns
import FinBit.Web.ServerBookRuns
import FinBit.Desktop.SealedSearch
import FinBit.Net.DnsAnswers
import FinBit.Media.CallTopology
import FinBit.Media.ForwarderRouting
import FinBit.Media.VideoPlan
import FinBit.Media.DistributionTree
import FinBit.Crypto.Fingerprint
import FinBit.Crypto.Hkdf
import FinBit.Crypto.RatchetSkips
import FinBit.Net.ComputeAccept
import FinBit.Lib.Base64
import FinBit.Net.Ech
import FinBit.P2P.PeerLinkProgress
import FinBit.Net.Socks5
import FinBit.Desktop.ForwarderHost
import FinBit.Media.FrameNonces
import FinBit.Desktop.IdentityVault
import FinBit.Web.CallSession
import FinBit.Web.CallKeys
import FinBit.Web.CallCandidates
import FinBit.Web.CallCapture
import FinBit.Desktop.MediaCalls
import FinBit.Desktop.CrossedCalls
