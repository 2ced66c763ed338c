import Materialize.Lib.Bytes
import Materialize.Lib.Decimal
import Materialize.Lib.Chain
import Materialize.Lib.Run
import Materialize.Lib.Replace
import Materialize.Lib.SortedMap
import Materialize.Lib.Buffer
import Materialize.Lib.Maximal
import Materialize.Repr.Numeric
import Materialize.Repr.Row
import Materialize.Repr.Packer
import Materialize.Repr.Range
import Materialize.Repr.Fallible
import Materialize.Lib.Signed
import Materialize.Repr.Interval
import Materialize.Repr.Packed
import Materialize.Lib.Segment
import Materialize.Repr.RangeSet
import Materialize.Repr.Strconv
import Materialize.Repr.StrconvRoundTrip
import Materialize.Lib.Weighted
import Materialize.Storage.Upsert
import Materialize.Lib.Trace
import Materialize.Oracle.Timestamp
import Materialize.Oracle.Batching
import Materialize.Lib.Frontier
import Materialize.Temporal.BucketChain
import Materialize.Sink.Correction
import Materialize.Pgcopy.Copy
import Materialize.Persist.StateDiff
import Materialize.Persist.Spine
import Materialize.Persist.SpineInv
import Materialize.Persist.Trace
import Materialize.Persist.MergeRes
import Materialize.Persist.Flat
import Materialize.Persist.TraceInv
import Materialize.Persist.ApplyMergeRes
import Materialize.Lib.Completion
import Materialize.Expr.Scalar
import Materialize.Expr.Ideal
import Materialize.Expr.Memoize
import Materialize.Expr.Mfp
import Materialize.Expr.Func
import Materialize.Persist.Compact
import Materialize.Persist.Runs
import Materialize.Persist.State
import Materialize.Persist.StateInv
import Materialize.Persist.Retry
import Materialize.Persist.FieldDiffs
import Materialize.Coord.TimestampSelection
import Materialize.Sql.Lexer
import Materialize.Sql.Display
import Materialize.Lib.Glob
import Materialize.Expr.LikePattern
