import SynQt.Service.Expiry
import SynQt.Service.MeshLink
import SynQt.Service.Revocation
import SynQt.Service.Handoffs
import SynQt.Identity.SharedStore
import SynQt.Edge.Logout
import SynQt.Edge.Ceilings
import SynQt.Edge.Coverage
import SynQt.Transport.ReadCeiling
import SynQt.Transport.SplitWrites
import SynQt.Service.SpoolCrash
import SynQt.Service.IngestOrder
import SynQt.Tools.ScanAgreement
import SynQt.Edge.RateGates
import SynQt.Gateway.ApiServer
import SynQt.Identity.LoginState
import SynQt.Identity.TokenRefresh
import SynQt.Identity.JwksVerifier
import SynQt.Service.RingRefinement
import SynQt.Edge.ClientAddress
import SynQt.Providers.CacheSwap
import SynQt.Tools.SynComments
import SynQt.Providers.Http
import SynQt.Monitor.ExportRun
import SynQt.Edge.HostingRun
import SynQt.Tools.YamlEdits
import SynQt.Client.PageReplies
import SynQt.Providers.PooledTransactions
import SynQt.Generated.Convergence
import SynQt.Generated.Fronts
import SynQt.Generated.Bounds
import SynQt.Tools.DesignRoundTrip
import SynQt.Tools.ProfileLayer
import SynQt.Consumer.Calls
import SynQt.Service.CallerFollowing
import SynQt.Providers.DocumentSwap
import SynQt.Service.SpoolTrim
import SynQt.Service.RoomCheck
import SynQt.Service.Tracer
import SynQt.Tools.EnvFrame
import SynQt.Tools.ClientCaches
import SynQt.Tools.DeadRoutes
import SynQt.Tools.FrontSurfaces
import SynQt.Service.ExpirySweep
import SynQt.Identity.CredentialLifetimes
import SynQt.Edge.SocketEntries
import SynQt.Edge.ReloadConvergence
import SynQt.Generated.CallerEmit
import SynQt.Gateway.ApiRoutes
import SynQt.Tools.SchemaStatements
import SynQt.Service.LinkLifetimes
import SynQt.Monitor.EventSearch
import SynQt.Client.HistoryAgreement
import SynQt.Monitor.JsonlRun
import SynQt.Client.StoredCredential
import SynQt.Tools.PageImports
import SynQt.Identity.ClaimStore
import SynQt.Edge.RemoteWaits
import SynQt.Providers.Jobs
import SynQt.Tools.ZipArchive
import SynQt.Client.LoopbackReceiver
