import Sserialize.ItemIndex.EliasFanoIteration
import Sserialize.ItemIndex.WAHSetOpsResult
import Sserialize.Containers.DynamicBitSetRun
import Sserialize.Utility.BitpackingMultiBit
import Sserialize.Containers.MultiVarBitArrayRun
import Sserialize.Containers.OADHashTableTermination
import Sserialize.Containers.HashBasedFlatTrieFind
import Sserialize.Containers.HuffmanTreeOptimal
import Sserialize.Containers.OOMArrayRun
import Sserialize.Spatial.CellQueryResultIds
import Sserialize.Search.SetOpsOpTreeParserCorrect
import Sserialize.Static.HuffmanDecoder
import Sserialize.Search.SetOpTreeRuns
import Sserialize.Spatial.GeoHierarchySubSetLink
import Sserialize.Containers.UnicodeTrieRun
import Sserialize.Spatial.CQRDilatorWithCache
import Sserialize.Spatial.CQRDilatorWorkers
import Sserialize.Spatial.HCQRTextIndex
import Sserialize.Storage.CompressedMmappedFileRun
import Sserialize.Storage.ChunkedMmappedFile
import Sserialize.Search.OOMCTCValuesCreatorAppendRun
import Sserialize.Search.OOMCTCValuesCreatorResult
import Sserialize.Spatial.GridRegionTreeRun
import Sserialize.ItemIndex.RleDESetOpsResult
import Sserialize.Mt.ThreadPoolResult
import Sserialize.Containers.UnionFind
import Sserialize.Containers.BoundedCompactUintArray
import Sserialize.Containers.RLEStreamCheckpoints
import Sserialize.Spatial.TreedCQRImpToCQR
import Sserialize.Storage.UByteArrayAdapterFill
import Sserialize.Search.TokenizeExternal
import Sserialize.Spatial.GeoHierarchyIntersectingCells
import Sserialize.Search.SetOpTreePrivateSimple
import Sserialize.ItemIndex.PFoROptimizer
import Sserialize.Spatial.SpatialGeoHierarchyExclusive
import Sserialize.Spatial.SpatialGeoHierarchyNeighbors
import Sserialize.Static.StringTable
import Sserialize.Spatial.SpatialGridInfoFromCellIndexItems
import Sserialize.Spatial.FlushFetchedItems
import Sserialize.Spatial.HCQRCompactifyExpand
import Sserialize.Algorithm.Reorder
import Sserialize.Search.SetOpTreeIterator
import Sserialize.Static.FlatGST
import Sserialize.Static.GeneralizedTrie
import Sserialize.Algorithm.TreeReduceMap
import Sserialize.ItemIndex.ItemIndexFactoryDeduplication
