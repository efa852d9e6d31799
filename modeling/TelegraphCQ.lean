import TelegraphCQ.ResultQueue.Interleavings
import TelegraphCQ.Window.FAggSlicesCorrect
import TelegraphCQ.Events.SequenceCorrect
import TelegraphCQ.Events.NotFollowsCorrect
import TelegraphCQ.Wrapper.CsvChunks
import TelegraphCQ.Flux.TsbMoved
import TelegraphCQ.Window.Lifetime
import TelegraphCQ.Shedding.Sample
import TelegraphCQ.Eddy.RangeTableAligned
import TelegraphCQ.Shedding.WaveletInverse
import TelegraphCQ.Shedding.MhistMergeExact
import TelegraphCQ.Flux.SocketTransCorrect
import TelegraphCQ.Flux.OrderedMergeCorrect
import TelegraphCQ.Window.NextSlide
import TelegraphCQ.Flux.Swizzle
import TelegraphCQ.Filter.Removal
import TelegraphCQ.Stems.WindowSize
import TelegraphCQ.Eddy.RenumberingCorrect
import TelegraphCQ.Filter.ConstListCorrect
import TelegraphCQ.Stems.Membership
import TelegraphCQ.Stems.SharedClauses
import TelegraphCQ.Triage.EpochIndex
import TelegraphCQ.ResultQueue.TableLock
import TelegraphCQ.Wrapper.TimestampMode
import TelegraphCQ.Shedding.FixedGrid
import TelegraphCQ.Shedding.SkipRandom
import TelegraphCQ.Flux.TsbCorrect
import TelegraphCQ.Foundation.Heap
import TelegraphCQ.Shedding.WaveletQueue
import TelegraphCQ.Shedding.Reservoir
import TelegraphCQ.Shedding.WaveletUnion
import TelegraphCQ.Eddy.BitArray
import TelegraphCQ.Wrapper.SocketLines
import TelegraphCQ.Archive.StreamHeap
