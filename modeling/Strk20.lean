import Strk20.Foundation.BitPath
import Strk20.Foundation.Lists
import Strk20.Foundation.Patricia
import Strk20.Foundation.Bytes
import Strk20.Foundation.Result
import Strk20.Foundation.Effect
import Strk20.Foundation.Chunks
import Strk20.Foundation.Hoare
import Strk20.Foundation.Text
import Strk20.Foundation.Json
import Strk20.Foundation.Tables
import Strk20.Foundation.Displace
import Strk20.Foundation.Versioned
import Strk20.Foundation.Sha256
import Strk20.Feed.Felt
import Strk20.Feed.Mpt
import Strk20.Feed.MptRoot
import Strk20.Feed.StorageProof
import Strk20.Feed.ProofNodes
import Strk20.Feed.SubtreeHash
import Strk20.Feed.Trie
import Strk20.Feed.TrieNode
import Strk20.Feed.TrieUpdate
import Strk20.Feed.TrieCache
import Strk20.Feed.Codec
import Strk20.Feed.CodecRoundTrip
import Strk20.Feed.CodecParsed
import Strk20.Feed.Framing
import Strk20.Feed.Manifest
import Strk20.Feed.Snapshot
import Strk20.Feed.SnapshotFraming
import Strk20.Consumer.Store
import Strk20.Consumer.Rows
import Strk20.Consumer.MemStore
import Strk20.Consumer.FeedStore
import Strk20.Consumer.Apply
import Strk20.Consumer.History
import Strk20.Consumer.Accepts
import Strk20.Consumer.Metadata
import Strk20.Consumer.SoloFeed
import Strk20.Consumer.EpochChain
import Strk20.Consumer.Floor
import Strk20.Feed.Checkpoint
import Strk20.Feed.Committed
import Strk20.Consumer.Anchors
import Strk20.Consumer.ColdStart
import Strk20.Consumer.Observe
import Strk20.Consumer.Roots
import Strk20.Consumer.EventQuery
import Strk20.Consumer.Cache
import Strk20.Consumer.Discover
import Strk20.Consumer.Balances
import Strk20.Consumer.Shared
import Strk20.Consumer.Rewind
import Strk20.Consumer.FeedWrite
import Strk20.Consumer.Owners
import Strk20.Consumer.Sdk
import Strk20.Consumer.SdkDiscover
import Strk20.Consumer.NoteNonce
import Strk20.Wasm.Engine
import Strk20.Wasm.Gate
import Strk20.Wasm.Blob
import Strk20.Indexer.Db
import Strk20.Indexer.RootCache
import Strk20.Indexer.Rpc
import Strk20.Indexer.RpcCall
import Strk20.Indexer.Scan
import Strk20.Indexer.Ingest
import Strk20.Indexer.Audit
import Strk20.Indexer.Cutter
import Strk20.Indexer.Rollback
import Strk20.Indexer.Chain
import Strk20.Indexer.Cycle
import Strk20.Indexer.Frontier
import Strk20.Indexer.Reorg
import Strk20.Indexer.Canonical
import Strk20.Indexer.Settled
import Strk20.Indexer.Recut
import Strk20.Indexer.RecutCrash
import Strk20.Indexer.RecutServed
import Strk20.Indexer.TrieDiff
import Strk20.Indexer.WalkEnds
import Strk20.Indexer.Attribute
import Strk20.Indexer.Publish
import Strk20.Indexer.Daemon
import Strk20.Indexer.Publication
import Strk20.Indexer.Passes
import Strk20.Indexer.Runs
import Strk20.Indexer.Published
import Strk20.Indexer.Readable
import Strk20.Indexer.Grounding
import Strk20.Indexer.Delivery
import Strk20.Live.Assembler
import Strk20.Client.Events
