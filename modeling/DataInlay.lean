import DataInlay.Declaration.Session
import DataInlay.Main
import DataInlay.Proofs.BetweenFiles
import DataInlay.Proofs.BlockBuffers
import DataInlay.Proofs.DeclarationText
import DataInlay.Proofs.Decoding
import DataInlay.Proofs.FileAccess
import DataInlay.Proofs.InPlace
import DataInlay.Proofs.Lines
import DataInlay.Proofs.OnePass
import DataInlay.Proofs.OutputExtension
import DataInlay.Proofs.Pieces
import DataInlay.Proofs.QuoteParity
import DataInlay.Proofs.QuotedText
import DataInlay.Proofs.SpanGrammar
import DataInlay.Proofs.StreamFaults
import DataInlay.Proofs.WriterSession
import DataInlay.Proofs.SummaryCounts
import DataInlay.Proofs.LineBuffers
import DataInlay.Proofs.RunModes
import DataInlay.Proofs.RunEffects
import DataInlay.Proofs.ConfigDiscovery
import DataInlay.Proofs.SelfFeeding
import DataInlay.Proofs.EndlessRuns
import DataInlay.Proofs.ExitStatus
import DataInlay.Proofs.LineLocality
import DataInlay.Proofs.StrippedLine
import DataInlay.Proofs.CleanTwice
import DataInlay.Proofs.ContinuedLine
import DataInlay.Proofs.LineFeeds
import DataInlay.Proofs.CarriageReturns
import DataInlay.Proofs.KeptPositions
import DataInlay.Proofs.WrappedRows
import DataInlay.Proofs.DerivedPath
import DataInlay.Proofs.WrittenSettings
import DataInlay.Proofs.WrittenConfig
import DataInlay.Proofs.CursorScan
import DataInlay.Proofs.WrittenCommandLine
