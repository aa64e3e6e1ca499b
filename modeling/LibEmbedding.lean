import LibEmbedding.AtomicWrite
import LibEmbedding.AutotuneCache
import LibEmbedding.AutotuneCacheReads
import LibEmbedding.AutotuneClear
import LibEmbedding.BackendTuning
import LibEmbedding.Batch
import LibEmbedding.BatchRanges
import LibEmbedding.BenchmarkRun
import LibEmbedding.BytePairs
import LibEmbedding.Cjson
import LibEmbedding.CjsonBounds
import LibEmbedding.CjsonNumbers
import LibEmbedding.CjsonRoundTrip
import LibEmbedding.CjsonStrings
import LibEmbedding.CjsonText
import LibEmbedding.CorpusFingerprint
import LibEmbedding.CorpusSampling
import LibEmbedding.DenseAgree
import LibEmbedding.DenseBackends
import LibEmbedding.DenseBatch
import LibEmbedding.DenseBuckets
import LibEmbedding.DenseLlama
import LibEmbedding.DenseLoops
import LibEmbedding.DensePooling
import LibEmbedding.DenseUnit
import LibEmbedding.EmbeddingPool
import LibEmbedding.EmbeddingPoolParts
import LibEmbedding.EmbeddingPoolStream
import LibEmbedding.Foundation.Breaks
import LibEmbedding.Foundation.Buffer
import LibEmbedding.Foundation.ByteReader
import LibEmbedding.Foundation.Checked
import LibEmbedding.Foundation.Counted
import LibEmbedding.Foundation.Doubles
import LibEmbedding.Foundation.FileTree
import LibEmbedding.Foundation.Framing
import LibEmbedding.Foundation.Frontier
import LibEmbedding.Foundation.Inodes
import LibEmbedding.Foundation.Interpolation
import LibEmbedding.Foundation.Leaders
import LibEmbedding.Foundation.Logged
import LibEmbedding.Foundation.LongestMatch
import LibEmbedding.Foundation.Lru
import LibEmbedding.Foundation.Numerals
import LibEmbedding.Foundation.PairMerging
import LibEmbedding.Foundation.Rounding
import LibEmbedding.Foundation.Runs
import LibEmbedding.Foundation.Scatter
import LibEmbedding.Foundation.Selection
import LibEmbedding.Foundation.Sorting
import LibEmbedding.Foundation.SteadyFrontier
import LibEmbedding.Foundation.Strided
import LibEmbedding.Foundation.Tensor
import LibEmbedding.Foundation.Tolerance
import LibEmbedding.Foundation.Turns
import LibEmbedding.Foundation.Utf8
import LibEmbedding.GgufAccepted
import LibEmbedding.GgufAlone
import LibEmbedding.GgufArena
import LibEmbedding.GgufBatching
import LibEmbedding.GgufBinding
import LibEmbedding.GgufDescribe
import LibEmbedding.GgufEmbed
import LibEmbedding.GgufEncoder
import LibEmbedding.GgufFile
import LibEmbedding.GgufFormula
import LibEmbedding.GgufGraph
import LibEmbedding.GgufHeaders
import LibEmbedding.GgufHeads
import LibEmbedding.GgufLoad
import LibEmbedding.GgufNames
import LibEmbedding.GgufProbe
import LibEmbedding.GgufReload
import LibEmbedding.GgufRoundTrip
import LibEmbedding.GgufRouting
import LibEmbedding.GgufSession
import LibEmbedding.GgufSpec
import LibEmbedding.GgufTables
import LibEmbedding.GgufWeights
import LibEmbedding.ImageEmbedding
import LibEmbedding.ImagePaths
import LibEmbedding.ImagePreprocess
import LibEmbedding.InferenceStats
import LibEmbedding.LlamaBuckets
import LibEmbedding.LlamaBudget
import LibEmbedding.LlamaContexts
import LibEmbedding.LlamaScheduler
import LibEmbedding.LlamaSchedulerDelivery
import LibEmbedding.LlamaSchedulerOrder
import LibEmbedding.LlamaSession
import LibEmbedding.LlamaSessionPool
import LibEmbedding.LlamaSubmissions
import LibEmbedding.LlamaWorkers
import LibEmbedding.LruCache
import LibEmbedding.LruCacheRefines
import LibEmbedding.LruMemory
import LibEmbedding.ModelCache
import LibEmbedding.ModelCacheCleanup
import LibEmbedding.ModelCacheIdentity
import LibEmbedding.ModelSelection
import LibEmbedding.OnnxSession
import LibEmbedding.ParetoFrontier
import LibEmbedding.ParetoMarks
import LibEmbedding.ParetoOrder
import LibEmbedding.ParetoSteady
import LibEmbedding.Percentiles
import LibEmbedding.PythonCache
import LibEmbedding.QuantizationAuto
import LibEmbedding.QuantizationPick
import LibEmbedding.QuantizationRoundTrip
import LibEmbedding.QuantizationStored
import LibEmbedding.QuantizationTransparent
import LibEmbedding.QuantizationTruncated
import LibEmbedding.Reranker
import LibEmbedding.RerankerCache
import LibEmbedding.RerankerCreate
import LibEmbedding.RerankerNames
import LibEmbedding.RerankerOutput
import LibEmbedding.RerankerPairs
import LibEmbedding.RerankerTransparent
import LibEmbedding.RerankerTuning
import LibEmbedding.RerankerTuningBest
import LibEmbedding.RerankerTuningConstraints
import LibEmbedding.SessionSearch
import LibEmbedding.SparseBackends
import LibEmbedding.SparseFailures
import LibEmbedding.SparseOutput
import LibEmbedding.SparsePooling
import LibEmbedding.SparsePostprocess
import LibEmbedding.SparsePruning
import LibEmbedding.SparseSafe
import LibEmbedding.TextEmbedding
import LibEmbedding.TextEmbeddingCache
import LibEmbedding.TextModels
import LibEmbedding.TextTuning
import LibEmbedding.TextTuningCache
import LibEmbedding.TextTuningMeasured
import LibEmbedding.Tokenizer
import LibEmbedding.TokenizerAgree
import LibEmbedding.TokenizerBounds
import LibEmbedding.TokenizerEncode
import LibEmbedding.TokenizerFolding
import LibEmbedding.TokenizerIds
import LibEmbedding.TokenizerLoad
import LibEmbedding.TokenizerMalformed
import LibEmbedding.TokenizerScan
import LibEmbedding.TokenizerWords
import LibEmbedding.TuneCache
import LibEmbedding.TuneCacheFailures
import LibEmbedding.TuneCacheHistory
import LibEmbedding.TuneCacheText
import LibEmbedding.TuneFingerprint
import LibEmbedding.TuneSweeps
import LibEmbedding.TuningReaders
import LibEmbedding.TuningTruncated
import LibEmbedding.Types
import LibEmbedding.WordPiece
