import Verdict.Session
import Verdict.Proofs.Characters
import Verdict.Proofs.Cutting
import Verdict.Proofs.ClauseReading
import Verdict.Proofs.LookBehind
import Verdict.Proofs.Utf8
import Verdict.Proofs.ByteScan
import Verdict.Proofs.Segmentation
import Verdict.Proofs.Spine
import Verdict.Proofs.LeftDeep
import Verdict.Proofs.History
import Verdict.Proofs.EngineState
import Verdict.Proofs.Layout
import Verdict.Proofs.Verdicts
import Verdict.Proofs.Conjunction
import Verdict.Proofs.LineFeeds
import Verdict.Proofs.NormalForm
import Verdict.Proofs.PlainRule
import Verdict.Proofs.JsonTexts
import Verdict.Proofs.WireRoundTrip
import Verdict.Proofs.HostAgreement
import Verdict.Proofs.OutlineValues
import Verdict.Proofs.FieldReading
import Verdict.Proofs.NodeFaults
import Verdict.Proofs.WellShaped
import Verdict.Proofs.ReaderAgreement
import Verdict.Proofs.Coherence
import Verdict.Proofs.Pattern
import Verdict.Proofs.ClauseGrammar
import Verdict.Proofs.HostReading
import Verdict.Proofs.Attributes
import Verdict.Proofs.Seams
import Verdict.Proofs.SingleClause
import Verdict.Proofs.Nearest
import Verdict.Proofs.Rounding
import Verdict.Proofs.NumericText
import Verdict.Proofs.ExactOrder
import Verdict.Proofs.CanonicalText
import Verdict.Proofs.IntegerOrder
import Verdict.Proofs.CacheContent
import Verdict.Proofs.Joining
import Verdict.Proofs.EqualNumbers
import Verdict.Proofs.HostIntegers
import Verdict.Proofs.HostValues
import Verdict.Proofs.HostRecords
