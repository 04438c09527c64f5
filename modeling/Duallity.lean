import Duallity.Lib.Transducer
import Duallity.Lib.Interner
import Duallity.Lib.LazyGraph
import Duallity.Lib.Scan
import Duallity.Lib.Alignment
import Duallity.StateEncoding
import Duallity.Dictionary
import Duallity.NodeRegistry
import Duallity.NodeHistory
import Duallity.Levenshtein.Codec
import Duallity.Levenshtein.StateSource
import Duallity.Lib.EditDistance
import Duallity.Levenshtein.EditMachine
import Duallity.Levenshtein.Refinement
import Duallity.Levenshtein.Registration
import Duallity.Levenshtein.Relation
import Duallity.ByteDictionary
import Duallity.Levenshtein.ByteUnits
import Duallity.Universal.StateSource
import Duallity.Universal.Depths
import Duallity.Universal.ProductMachine
import Duallity.Universal.Refinement
import Duallity.Universal.Expansion
import Duallity.Universal.Successors
import Duallity.Universal.PositionAutomaton
import Duallity.Universal.Relation
import Duallity.Universal.Budget
import Duallity.Generalized.Expansion
import Duallity.LazyCache
import Duallity.Generalized.Computation
import Duallity.Generalized.Construction
import Duallity.Generalized.OperationMachine
import Duallity.Generalized.Budget
import Duallity.Generalized.Sharing
import Duallity.Generalized.DictionaryPaths
import Duallity.Generalized.Reconciliation
import Duallity.Generalized.Preparation
import Duallity.Generalized.Batches
import Duallity.Generalized.Isolation
import Duallity.Generalized.Chains
import Duallity.Generalized.Relation
import Duallity.Generalized.Clones
import Duallity.ProductPaths
import Duallity.WallBreaker.Paths
import Duallity.Bindings.FaultScope
import Duallity.Bindings.ResourceEdges
import Duallity.Lib.LruMap
import Duallity.LruCache
import Duallity.Rewrite.Loading
import Duallity.Rewrite.Prune
import Duallity.Rewrite.Relation
import Duallity.Fzf.Surfaces
import Duallity.Fzf.Completions
import Duallity.Fzf.Matrix
import Duallity.Phonetic.Anchors
import Duallity.Phonetic.NfaClones
import Duallity.Phonetic.FrontierKeys
import Duallity.Phonetic.ProductRelation
import Duallity.Ffi.RoundTrip
import Duallity.Ffi.Accesses
import Duallity.ValidStates
import Duallity.NoState
import Duallity.CacheTransparency
import Duallity.Bindings.LevenshteinAdapter
import Duallity.Backend
import Duallity.ProductAgreement
import Duallity.Ffi.WallBreaker
import Duallity.Fzf.Agreement
import Duallity.Ffi.Exports
