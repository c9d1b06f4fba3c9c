import GraphReorder.Library.Memory
import GraphReorder.Library.Observed
import GraphReorder.Library.Buckets
import GraphReorder.Library.Scatter
import GraphReorder.Library.Window
import GraphReorder.Graph
import GraphReorder.Placement
import GraphReorder.Moves
import GraphReorder.Accounting
import GraphReorder.Loading
import GraphReorder.Flushing
import GraphReorder.Rounds
import GraphReorder.Placing
import GraphReorder.Library.MergeSort
import GraphReorder.Sort
import GraphReorder.EdgeList
import GraphReorder.ReadCsr
import GraphReorder.Reverse
import GraphReorder.Setup
import GraphReorder.Apply
import GraphReorder.PH
import GraphReorder.PHLoop
import GraphReorder.PHProgram
import GraphReorder.Expand
import GraphReorder.Block
import GraphReorder.Compress
import GraphReorder.BlockFinish
import GraphReorder.Br
import GraphReorder.BrPy
import GraphReorder.Degree
import GraphReorder.Hub
import GraphReorder.OrderScripts
import GraphReorder.BinaryCsr
import GraphReorder.CsrGen
import GraphReorder.PageRank
import GraphReorder.Renumbering
import GraphReorder.Records
import GraphReorder.Transpose
import GraphReorder.DegreeOrder
import GraphReorder.Library.Lockstep
import GraphReorder.Orientation
import GraphReorder.PageRankThreads
import GraphReorder.HubOrder
import GraphReorder.Library.StdSort
import GraphReorder.Library.Chain
import GraphReorder.Library.Ranked
import GraphReorder.Library.BinarySearch
import GraphReorder.Library.BreadthFirst
import GraphReorder.Gorder.Queue
import GraphReorder.Gorder.Main
import GraphReorder.GraphIt.Components
import GraphReorder.GraphIt.ShortestPaths
import GraphReorder.GraphIt.SearchPull
import GraphReorder.GraphIt.BreadthFirst
import GraphReorder.PageRankBarrier
import GraphReorder.PageRankRuns
