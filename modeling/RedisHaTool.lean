import RedisHaTool.Lib.Text
import RedisHaTool.Lib.Endian
import RedisHaTool.Lib.Reader
import RedisHaTool.Lib.Run
import RedisHaTool.Lib.Cuts
import RedisHaTool.Error
import RedisHaTool.Resp.Value
import RedisHaTool.Resp.Decoder
import RedisHaTool.Rdb.Types
import RedisHaTool.Rdb.Parser
import RedisHaTool.Rdb.Format
import RedisHaTool.Rdb.Crc64
import RedisHaTool.Rdb.Dump
import RedisHaTool.Store.DataSet
import RedisHaTool.Store.Storer
import RedisHaTool.Checkpoint.Manager
import RedisHaTool.Syncer.Input
import RedisHaTool.Syncer.Session
import RedisHaTool.Syncer.Output
import RedisHaTool.Syncer.Forwarder
import RedisHaTool.Syncer.Leader
import RedisHaTool.Syncer.Restart
import RedisHaTool.Proofs.RespRoundTrip
import RedisHaTool.Proofs.RespConserve
import RedisHaTool.Proofs.RespChunks
import RedisHaTool.Proofs.RdbRoundTrip
import RedisHaTool.Proofs.InputEffects
import RedisHaTool.Proofs.Steps
import RedisHaTool.Proofs.Streaming
import RedisHaTool.Proofs.Delivery
import RedisHaTool.Proofs.Handshake
import RedisHaTool.Proofs.Phases
import RedisHaTool.Proofs.Saves
import RedisHaTool.Proofs.Boundary
import RedisHaTool.Proofs.RdbHandoff
import RedisHaTool.Proofs.Resume
import RedisHaTool.Lib.Budget
import RedisHaTool.Proofs.RdbHalts
import RedisHaTool.Proofs.SendRdb
import RedisHaTool.Filter.Trie
import RedisHaTool.Filter.RangeList
import RedisHaTool.Filter.KeyFilter
import RedisHaTool.Proofs.CanonicalRanges
import RedisHaTool.Proofs.Checkpoints
import RedisHaTool.Syncer.Lifecycle
import RedisHaTool.Proofs.OneLeader
import RedisHaTool.Store.Scan
import RedisHaTool.Store.AofWriter
import RedisHaTool.Proofs.Rotation
import RedisHaTool.Proofs.Availability
import RedisHaTool.Store.Gc
import RedisHaTool.Proofs.Listed
import RedisHaTool.Syncer.Wakeup
import RedisHaTool.Proofs.Wakeups
import RedisHaTool.Proofs.Received
import RedisHaTool.Syncer.Target
import RedisHaTool.Proofs.Databases
import RedisHaTool.Lib.Plain
import RedisHaTool.Rdb.Records
import RedisHaTool.Proofs.RdbReaders
import RedisHaTool.Proofs.RdbRounds
import RedisHaTool.Proofs.RdbRecords
import RedisHaTool.Proofs.RdbInversion
import RedisHaTool.Proofs.RdbLengths
import RedisHaTool.Rdb.Collections
import RedisHaTool.Proofs.RdbCollections
import RedisHaTool.Syncer.Control
import RedisHaTool.Proofs.Restarts
import RedisHaTool.Proofs.Retries
import RedisHaTool.Syncer.Pausing
import RedisHaTool.Proofs.Pausing
import RedisHaTool.Cluster.Election
import RedisHaTool.Proofs.NothingLost
import RedisHaTool.Proofs.OneElected
import RedisHaTool.Checkpoint.Clients
import RedisHaTool.Proofs.Versions
import RedisHaTool.Proofs.TornSaves
import RedisHaTool.Proofs.RespOffset
import RedisHaTool.Filter.CommandKeys
import RedisHaTool.Syncer.Wire
import RedisHaTool.Proofs.Unfiltered
import RedisHaTool.Syncer.Identity
import RedisHaTool.Proofs.Identity
import RedisHaTool.Lib.Lines
import RedisHaTool.Lib.Lzf
import RedisHaTool.Rdb.KeyEncoding
import RedisHaTool.Proofs.CompressedKeys
import RedisHaTool.Lib.Truncation
import RedisHaTool.Proofs.RdbTruncation
import RedisHaTool.Lib.Panics
import RedisHaTool.Rdb.Strings
import RedisHaTool.Proofs.RdbPanics
import RedisHaTool.Lib.Recognizers
import RedisHaTool.Lib.Scans
import RedisHaTool.Rdb.StreamFormat
import RedisHaTool.Rdb.StreamFields
import RedisHaTool.Proofs.RdbFields
import RedisHaTool.Proofs.RdbStreams
import RedisHaTool.Proofs.RdbBodies
import RedisHaTool.Lib.Overwrite
import RedisHaTool.Syncer.Keyspace
import RedisHaTool.Proofs.Keyspace
import RedisHaTool.Proofs.KeyPolicy
import RedisHaTool.Proofs.Expiry
import RedisHaTool.Proofs.FilePositions
import RedisHaTool.Syncer.Transaction
import RedisHaTool.Proofs.Transactions
import RedisHaTool.Proofs.SlotRanges
import RedisHaTool.Lib.Crc
import RedisHaTool.Proofs.KeySlot
import RedisHaTool.Proofs.RespSpelling
import RedisHaTool.Proofs.Collecting
import RedisHaTool.Proofs.Unrotated
import RedisHaTool.Proofs.Seeking
import RedisHaTool.Lib.ReflectedCrc
import RedisHaTool.Proofs.Draining
import RedisHaTool.Proofs.Convergence
import RedisHaTool.Proofs.DumpChecksum
import RedisHaTool.Proofs.Lookups
import RedisHaTool.Proofs.PsyncInfo
import RedisHaTool.Resp.Command
import RedisHaTool.Proofs.Commands
import RedisHaTool.Proofs.OwnKey
import RedisHaTool.Syncer.Startup
import RedisHaTool.Syncer.StateMachine
import RedisHaTool.Proofs.Startup
import RedisHaTool.Proofs.StateMachine
import RedisHaTool.Proofs.Rescan
import RedisHaTool.Proofs.Reclaim
import RedisHaTool.Proofs.Recovery
import RedisHaTool.Lib.Interleave
import RedisHaTool.Lib.Replay
import RedisHaTool.Checkpoint.Replicas
import RedisHaTool.Proofs.AllCheckpoints
import RedisHaTool.Proofs.Replicas
import RedisHaTool.Syncer.Heartbeat
import RedisHaTool.Syncer.Observers
import RedisHaTool.Proofs.Heartbeats
import RedisHaTool.Proofs.Observers
import RedisHaTool.Proofs.AtLeastOnce
import RedisHaTool.Proofs.Lapses
import RedisHaTool.Proofs.Snapshot
import RedisHaTool.Proofs.AnyReply
import RedisHaTool.Proofs.Leftovers
