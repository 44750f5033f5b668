import Hub.BijectiveBase
import Hub.BufferPool
import Hub.MessageBuilder
import Hub.MessageParser
import Hub.MessageRoundTrip
import Hub.Runs
import Hub.Forest
import Hub.Chain
import Hub.BlocksDB
import Hub.HeaderRuns
import Hub.HeaderFrontier
import Hub.HeaderWork
import Hub.Transaction
import Hub.Coins
import Hub.Maps
import Hub.CoinsView
import Hub.CoinsStack
import Hub.BlockUndo
import Hub.Worklist
import Hub.MemPool
import Hub.MemPoolRuns
import Hub.MemPoolLinks
import Hub.MemPoolGraph
import Hub.TxValidation
import Hub.MemPoolBacked
import Hub.MemPoolPackages
import Hub.PaddedTree
import Hub.Merkle
import Hub.ByteCodec
import Hub.Serialization
import Hub.FastBlock
import Hub.TxIterator
import Hub.FrameFile
import Hub.BlockFiles
import Hub.BlockFileScan
import Hub.NetworkMessage
import Hub.NetworkReceiver
import Hub.Segments
import Hub.PacketIsolation
import Hub.SinglePrecision
import Hub.NetworkSender
import Hub.SkipList
import Hub.PartialMerkleTree
import Hub.PartialMerkleCodec
import Hub.ForestClimb
import Hub.BlockProof
import Hub.Startup
import Hub.BlockArena
import Hub.BlockArrival
import Hub.InvalidateBlock
import Hub.ArrivalOrder
import Hub.InFlight
import Hub.Handshake
import Hub.Pipeline
import Hub.ScriptNum
import Hub.Script
import Hub.Halting
import Hub.Interpreter
import Hub.ScriptSafety
import Hub.ScriptFrame
import Hub.SoftFork
import Hub.SigOps
import Hub.ScriptRoundTrip
import Hub.LockTime
import Hub.MessageKinds
import Hub.BestHeader
import Hub.FailureFlags
import Hub.BlockChecks
import Hub.VarInt
import Hub.Compressor
import Hub.CoinsCodec
import Hub.BlockTemplate
import Hub.Rollback
import Hub.Reorg
import Hub.ChainForks
import Hub.LoadBlock
import Hub.TokenizerBounds
import Hub.TransactionScan
import Hub.BuilderReuse
import Hub.HeaderRoom
import Hub.PacketDiscipline
import Hub.CloseConnection
import Hub.LiveOrClosed
import Hub.MerkleBranch
import Hub.SendRecovery
import Hub.SignatureHash
import Hub.ForkIdDigest
import Hub.ScriptNumCodec
import Hub.StackOps
import Hub.OpcodeFilter
import Hub.DerSignature
import Hub.GreedyMatching
import Hub.MultiSig
import Hub.SignatureChunks
import Hub.BaseUint
import Hub.ArithUint256
import Hub.Pow
import Hub.Retarget
import Hub.LockPoints
import Hub.ActiveChain
import Hub.Scheduling
import Hub.CompactWork
import Hub.BlockDownload
import Hub.DownloadChoice
import Hub.BlockStatus
import Hub.ReconsiderBlock
import Hub.BloomFilter
import Hub.RollingBloomFilter
import Hub.OrphanCache
import Hub.FeeEstimator
import Hub.VersionBits
import Hub.Locator
import Hub.PoolStorage
import Hub.FixedPoint
import Hub.PeerBans
import Hub.Prevector
import Hub.PrevectorRuns
import Hub.RadixConversion
import Hub.Base58
import Hub.VarIntWidth
import Hub.ArithOperators
import Hub.Multimap
import Hub.LimitedMap
import Hub.CoinsMemory
import Hub.UpdateCoins
import Hub.AddrMan
import Hub.MemPoolLimits
import Hub.MoneySupply
import Hub.HeaderDecoding
import Hub.Transport
import Hub.BlockHash
import Hub.InPlaceRounds
import Hub.HashWriter
import Hub.Hashers
import Hub.Hmac
import Hub.AddrManRuns
