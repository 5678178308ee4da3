import RangeBearing.Json.Codec
import RangeBearing.Simulation.Session
import RangeBearing.Proofs.Calls
import RangeBearing.Proofs.CallsAlone
import RangeBearing.Proofs.Simulated
import RangeBearing.Proofs.FailedCalls
import RangeBearing.Proofs.Sampling
import RangeBearing.Proofs.Reports
import RangeBearing.Proofs.SilenceCounters
import RangeBearing.Proofs.Histories
import RangeBearing.Proofs.Cycles
import RangeBearing.Proofs.Publications
import RangeBearing.Proofs.EndedCycles
import RangeBearing.Proofs.SilentSensors
import RangeBearing.Proofs.Rounding
import RangeBearing.Proofs.Magnitudes
import RangeBearing.Proofs.Polling
import RangeBearing.Proofs.Timeline
import RangeBearing.Proofs.Timetable
import RangeBearing.Proofs.Interleaving
import RangeBearing.Proofs.LockStep
import RangeBearing.Proofs.PunctualWaits
import RangeBearing.Proofs.Discipline
import RangeBearing.Proofs.CallsInterrupted
import RangeBearing.Proofs.Acceptances
import RangeBearing.Proofs.SingleCycle
import RangeBearing.Proofs.OverlappingUse
import RangeBearing.Proofs.PublishedUnits
import RangeBearing.Proofs.MaskHistories
import RangeBearing.Proofs.BrightestCells
import RangeBearing.Proofs.NineCells
import RangeBearing.Proofs.LogLines
import RangeBearing.Proofs.Surroundings
import RangeBearing.Proofs.Illumination
import RangeBearing.Proofs.Values
import RangeBearing.Proofs.Exactness
import RangeBearing.Proofs.Order
import RangeBearing.Proofs.Bounds
import RangeBearing.Proofs.Turns
import RangeBearing.Proofs.Gains
import RangeBearing.Proofs.Predictions
import RangeBearing.Proofs.AcceptedFits
import RangeBearing.Proofs.Arctangents
import RangeBearing.Proofs.LitSeeds
import RangeBearing.Proofs.Monotonicity
import RangeBearing.Proofs.Distances
import RangeBearing.Proofs.CountedSixths
import RangeBearing.Proofs.Scaling
import RangeBearing.Proofs.Signs
import RangeBearing.Proofs.DoubledReadings
import RangeBearing.Proofs.InnovationLaws
import RangeBearing.Proofs.Quadrants
import RangeBearing.Proofs.OverallBrightness
import RangeBearing.Proofs.StoreOperations
import RangeBearing.Proofs.RoundingErrors
import RangeBearing.Proofs.RecoveredDistances
import RangeBearing.Proofs.RereadEstimates
import RangeBearing.Proofs.JsonLexemes
import RangeBearing.Proofs.JsonGrammar
import RangeBearing.Proofs.CompactTexts
import RangeBearing.Proofs.JsonRecords
import RangeBearing.Proofs.PublishedTexts
import RangeBearing.Proofs.MatrixTexts
