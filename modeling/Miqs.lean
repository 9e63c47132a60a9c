import Miqs.AbsentSearch
import Miqs.AffixAgreement
import Miqs.AffixArt
import Miqs.AffixSearch
import Miqs.AffixTrie
import Miqs.AofCodec
import Miqs.AofLog
import Miqs.AofReplay
import Miqs.Art
import Miqs.ArtEdges
import Miqs.ArtIter
import Miqs.ArtNode
import Miqs.ArtOrder
import Miqs.ArtRefinement
import Miqs.ArtRuns
import Miqs.ArtShrink
import Miqs.ArtTree
import Miqs.AssocMap
import Miqs.AttrRegion
import Miqs.BinFileBytes
import Miqs.BinFileOps
import Miqs.Buckets
import Miqs.CArray
import Miqs.CData
import Miqs.ConcurrentIndexing
import Miqs.CriticalSections
import Miqs.DirTraversal
import Miqs.DoublyLinked
import Miqs.FieldAlignment
import Miqs.FsOps
import Miqs.GrowArray
import Miqs.HashTable
import Miqs.HashTableLock
import Miqs.HashTableRuns
import Miqs.Hdf52Index
import Miqs.Hdf5Lists
import Miqs.Hdf5MetaExtractor
import Miqs.InMemIndex
import Miqs.IndexFiles
import Miqs.IndexStep
import Miqs.Interleaving
import Miqs.IndexSections
import Miqs.InternTable
import Miqs.KeyedTree
import Miqs.LinkList
import Miqs.LinkListEntries
import Miqs.LinkListRuns
import Miqs.LittleEndian
import Miqs.LoadStatistics
import Miqs.MdbAlignment
import Miqs.MdbFailedLoad
import Miqs.MdbFile
import Miqs.MdbLoad
import Miqs.MdbMerge
import Miqs.MdbRoundTrip
import Miqs.MiqsIndexing
import Miqs.Mkpath
import Miqs.NumberSpi
import Miqs.OnDiskSearch
import Miqs.PartitionLocks
import Miqs.PathIndex
import Miqs.PathTables
import Miqs.QueryUtils
import Miqs.Querying
import Miqs.RbTree
import Miqs.RbTreeBalance
import Miqs.RbTreeSize
import Miqs.RbTreeWalk
import Miqs.Refinement
import Miqs.Reorder
import Miqs.Runs
import Miqs.SearchExact
import Miqs.SearchTree
import Miqs.SimpleMatches
import Miqs.SkipList
import Miqs.SkipListMap
import Miqs.SkipListOrder
import Miqs.SparseArray
import Miqs.SparseArrayRuns
import Miqs.SpiRefinement
import Miqs.StringSpi
import Miqs.StringUtils
import Miqs.TailQueue
import Miqs.ThPool
import Miqs.ThPoolRuns
import Miqs.Threads
import Miqs.TokenStream
import Miqs.Trie
import Miqs.TrieBuffer
import Miqs.TrieIteration
import Miqs.TrieReports
import Miqs.TrieRuns
import Miqs.TypeIsolation
import Miqs.Unfolding
import Miqs.ValueTree
import Miqs.WorkDivision
