import EztScan.MissingTables
import EztScan.Proofs.CommentLines
import EztScan.Proofs.GlobalNames
import EztScan.Proofs.CodeChecksum
import EztScan.Proofs.Isolation
import EztScan.Proofs.Termination
import EztScan.Proofs.ParsingExpressions
import EztScan.Proofs.Selection
import EztScan.Proofs.WrittenRecords
import EztScan.Proofs.ReadingAhead
import EztScan.Proofs.SectionLengths
import EztScan.Proofs.QueryStarts
import EztScan.Proofs.ClosestProgram
import EztScan.Proofs.StreamEnds
import EztScan.Proofs.SequenceParts
import EztScan.Proofs.CodeLines
import EztScan.Proofs.Ways
import EztScan.Proofs.MarkedSources
import EztScan.Proofs.UnknownPrograms
import EztScan.Proofs.QueryNames
import EztScan.Proofs.StepCalls
import EztScan.Proofs.TextPlaces
