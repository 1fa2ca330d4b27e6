import InlaySql.Bm25.Churn
import InlaySql.Btree.History
import InlaySql.Btree.PageCache
import InlaySql.Btree.RangeReads
import InlaySql.Btree.Recovery
import InlaySql.Btree.Splits
import InlaySql.Device.Acknowledgement
import InlaySql.Eval.Borrowed
import InlaySql.Eval.Like
import InlaySql.Eval.SetOperations
import InlaySql.Hnsw.Pruning
import InlaySql.Json.Closed
import InlaySql.Json.PathLaws
import InlaySql.Planner.AgreeStatement
import InlaySql.Server.AccountRuns
import InlaySql.Server.LoginFacts
import InlaySql.Server.Packet
import InlaySql.Server.TransactionRuns
import InlaySql.Sql.CatalogStored
import InlaySql.Sql.JoinAgree
import InlaySql.Sql.KeyedRuns
import InlaySql.Sql.RowCodecFacts
import InlaySql.Sql.TempCommit
import InlaySql.Wal.Scan
