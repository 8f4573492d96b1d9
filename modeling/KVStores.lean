import KVStores.Gdb.Traverse
import KVStores.Gdb.BlockRuns
import KVStores.Gdb.HashTableBlock
import KVStores.Gdb.BlockCache
import KVStores.Gdb.ChainLoop
import KVStores.Gdb.KeySizes
import KVStores.LevelDb.Recover
import KVStores.LevelDb.LogFaults
import KVStores.LevelDb.Boundaries
import KVStores.LevelDb.Flush
import KVStores.LevelDb.DropValues
import KVStores.LevelDb.DbIterCursor
import KVStores.LevelDb.WriteGroups
import KVStores.LevelDb.ManifestRecovery
import KVStores.Redis.DictIterRun
import KVStores.Redis.ZsetReplies
import KVStores.Redis.ZiplistRun
import KVStores.Redis.PropagateRun
import KVStores.Redis.QueryRun
import KVStores.Redis.RdbSaveErrors
import KVStores.Redis.ReplyBytes
import KVStores.Redis.LzfRun
import KVStores.Redis.Numerals
import KVStores.Redis.SplitArgsSpec
import KVStores.Redis.Srandmember
import KVStores.Redis.SetRun
import KVStores.Redis.SkipListRun
import KVStores.MemcacheDb.WorkersRun
import KVStores.Qdbm.Transfer
import KVStores.Qdbm.Repair
import KVStores.Snappy.Cuttings
import KVStores.Snappy.RoundTrip
import KVStores.Redis.BitopsRun
import KVStores.Redis.TimeToLive
import KVStores.Redis.SortLimit
import KVStores.Gdbm.Bucket
import KVStores.Gdbm.FlatFile
import KVStores.Qdbm.VillaCompare
import KVStores.Qdbm.VillaPage
import KVStores.Qdbm.CabinSearch
import KVStores.LevelDb.VersionEditCoding
import KVStores.LevelDb.WriteBatchRecords
import KVStores.LevelDb.LruCache
import KVStores.LevelDb.Merger
import KVStores.LevelDb.Separators
import KVStores.LevelDb.Scans
