import SingleAssignment.Convert.Converter
import SingleAssignment.Flow.Dot
import SingleAssignment.Proofs.EventOrder
import SingleAssignment.Proofs.Flow.Transfer
import SingleAssignment.Proofs.IncomingValues
import SingleAssignment.Proofs.OffsetNames
import SingleAssignment.Proofs.ReachingDefinitions
import SingleAssignment.Proofs.Scheduling
import SingleAssignment.Proofs.Stability
import SingleAssignment.Text.Tag
import SingleAssignment.Proofs.Flow.AnyMarks
import SingleAssignment.Proofs.Batches
import SingleAssignment.Proofs.Flow.Renumbering
import SingleAssignment.Proofs.Convert.Renumbering
import SingleAssignment.Proofs.LocalNames
import SingleAssignment.Proofs.Convert.Account
import SingleAssignment.Proofs.Statistics
import SingleAssignment.Proofs.Flow.RecursiveWalk
import SingleAssignment.Proofs.Flow.AssignedIds
import SingleAssignment.Proofs.Flow.Mismatch
import SingleAssignment.Proofs.Requests
import SingleAssignment.Proofs.Text.Escaping
import SingleAssignment.Proofs.Text.Reading
import SingleAssignment.Proofs.Flow.Dangling
import SingleAssignment.Proofs.EdgeHistory
import SingleAssignment.Proofs.Flow.Dot
import SingleAssignment.Proofs.IndexHistory
