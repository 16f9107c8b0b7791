import SearchQuery.Index
import SearchQuery.Proofs.Failure
import SearchQuery.Proofs.Nesting
import SearchQuery.Proofs.Deferred
import SearchQuery.Proofs.Embedding
import SearchQuery.Proofs.Searches
import SearchQuery.Proofs.Rounding
import SearchQuery.Proofs.Numeral
import SearchQuery.Proofs.Layout
import SearchQuery.Proofs.Reader
import SearchQuery.Proofs.Merging
import SearchQuery.Proofs.Resolution
import SearchQuery.Proofs.Accumulation
import SearchQuery.Proofs.Operands
import SearchQuery.Proofs.Names
import SearchQuery.Proofs.Pieces
import SearchQuery.Proofs.Aggregations
import SearchQuery.Proofs.Host
import SearchQuery.Proofs.Registration
import SearchQuery.Proofs.FullText
import SearchQuery.Proofs.Sorting
import SearchQuery.Proofs.Decimals
import SearchQuery.Proofs.Coercion
