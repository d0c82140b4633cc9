import IssunDB.Runs
import IssunDB.BulkLoad
import IssunDB.Counters
import IssunDB.FullText
import IssunDB.EdgeDeclarations
import IssunDB.Rebuild
import IssunDB.LabelBitmaps
import IssunDB.GroupCodes
import IssunDB.SchemaProbes
import IssunDB.ColumnsFile
import IssunDB.EncodingOrder
import IssunDB.Cypher.SingleWriter
import IssunDB.Cypher.Intersections
import IssunDB.Vector.Restart
import IssunDB.Vector.Nearest
import IssunDB.Cypher.Sorting
import IssunDB.Cypher.KeyEquality
import IssunDB.Csr.Search
import IssunDB.Csr.PathCount
import IssunDB.Csr.NeighborCounts
import IssunDB.Csr.Triangles
import IssunDB.Csr.Expand
import IssunDB.Csr.Refresh
import IssunDB.Csr.Components
import IssunDB.Csr.Betweenness
import IssunDB.Csr.MaximumFlow
import IssunDB.ItemColumns
import IssunDB.Csr.SimplePaths
import IssunDB.Csr.StrongComponents
import IssunDB.Csr.CheapestPaths
import IssunDB.Csr.HopBall
import IssunDB.Csr.GroupedDegree
import IssunDB.Csr.SpanningForest
import IssunDB.Cypher.Aggregates
import IssunDB.Cypher.CaseForms
import IssunDB.Cypher.CombinedCodes
import IssunDB.Cypher.CountWindow
import IssunDB.Temporal.Order
import IssunDB.Temporal.Totality
import IssunDB.Temporal.Clocks
import IssunDB.Cypher.CsvExport
import IssunDB.Cypher.ParquetBatch
import IssunDB.Cypher.Deletion
import IssunDB.Cypher.CreatePattern
import IssunDB.Cypher.Creation
import IssunDB.Cypher.ClauseReadings
import IssunDB.Cypher.CreateClause
import IssunDB.Checksum
import IssunDB.Temporal.DayNumbers
import IssunDB.Cypher.TrivialFilters
import IssunDB.Cypher.IntegerLiterals
import IssunDB.Cypher.AggregateDetection
import IssunDB.Text.Scorers
import IssunDB.Text.Wand
import IssunDB.Text.Corpus
import IssunDB.Text.Search
import IssunDB.Retrieval
import IssunDB.Lib.BoundedHeap
import IssunDB.Lib.Selection
import IssunDB.Cypher.Projecting
