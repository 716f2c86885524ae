import SylvaServer.Auth.RecoveryCodes
import SylvaServer.Auth.ServerCode
import SylvaServer.Platform.PossessionProof
import SylvaServer.Server.DiscoveryPayload
import SylvaServer.Server.Startup
import SylvaServer.Audit.Tamper
import SylvaServer.Audit.Chain
import SylvaServer.Audit.Walk
import SylvaServer.Audit.ServerLog
import SylvaServer.Platform.Declaration
import SylvaServer.Auth.Limiter
import SylvaServer.Auth.Throttle
import SylvaServer.Auth.OneTimeCodes
import SylvaServer.Auth.Provisioning
import SylvaServer.Auth.SingleUse
import SylvaServer.Auth.ValidCodes
import SylvaServer.Auth.SignIn
import SylvaServer.Auth.Enrolment
import SylvaServer.Auth.Sessions
import SylvaServer.Platform.Sync
import SylvaServer.Platform.Isolation
import SylvaServer.Platform.FeedOrder
import SylvaServer.Platform.Enablement
import SylvaServer.Model.Repository
import SylvaServer.Platform.Listing
import SylvaServer.Platform.Atomicity
import SylvaServer.Platform.FirstOwner
import SylvaServer.Platform.RowHistory
import SylvaServer.Platform.Telemetry
import SylvaServer.Identity.Lifecycle
import SylvaServer.Identity.InvitationTokens
import SylvaServer.Identity.Redaction
import SylvaServer.Identity.Invitations
import SylvaServer.ReadCommitted.Solo
import SylvaServer.Platform.KeyPairing
import SylvaServer.Platform.Warrants
