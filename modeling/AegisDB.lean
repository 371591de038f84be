import AegisDB.Storage.Durability
import AegisDB.Storage.IndexCheckpoint
import AegisDB.Storage.SemanticRecovery
import AegisDB.Storage.Damage
import AegisDB.Storage.ScanRange
import AegisDB.Storage.FailedAppends
import AegisDB.Replication.Copy
import AegisDB.Access.Revocation
import AegisDB.Index.VectorSearch
import AegisDB.Inference.Budget
import AegisDB.Query.Links
import AegisDB.Query.Contradictions
import AegisDB.Query.Confinement
import AegisDB.Query.Batch
import AegisDB.Query.Counts
import AegisDB.Query.Export
import AegisDB.Query.FailedPromote
import AegisDB.Query.FailedDelete
import AegisDB.Query.Immutability
import AegisDB.Query.IndexRuns
import AegisDB.Query.Sessions
import AegisDB.Query.Similarity
import AegisDB.Server.Framing
import AegisDB.Replication.ReadOnly
import AegisDB.Query.Selection
