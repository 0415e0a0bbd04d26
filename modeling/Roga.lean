import Roga.Network.OddEvenMerge
import Roga.Oblivious.MergeProofs
import Roga.Histogram.Interference
import Roga.Histogram.Sensitivity
import Roga.Histogram.Exports
import Roga.Histogram.Window
import Roga.Histogram.History
import Roga.Histogram.Occupancy
import Roga.Histogram.Collisions
import Roga.Histogram.Partitioned
import Roga.Sharded.Flush
import Roga.Sharded.Histogram
import Roga.Histogram.Cadence
import Roga.Histogram.Peak
import Roga.Oblivious.Sorting
import Roga.Oblivious.Selection
import Roga.Oblivious.Runs
import Roga.Sharded.Coordination
import Roga.Sharded.Alignment
import Roga.Sharded.Obliviousness
import Roga.Sharded.Totals
import Roga.Sharded.Exports
import Roga.Histogram.Batching
import Roga.Histogram.KeyOrder
import Roga.Histogram.Comparators
import Roga.Histogram.Sampler
import Roga.Oblivious.FlowRecord
import Roga.Sharded.Quota
import Roga.Oblivious.BinomialSolver
import Roga.Histogram.Replacement
import Roga.Histogram.Accuracy
import Roga.Sharded.OverflowRuns
import Roga.Sharded.Slack
import Roga.Sharded.Increment
