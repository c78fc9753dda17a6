import TypeLayout.Main
import TypeLayout.Proofs.Faithful
import TypeLayout.Proofs.MergedBytes
import TypeLayout.Proofs.OptimizedTables
import TypeLayout.Table.Converter
import TypeLayout.Proofs.C.Clauses
import TypeLayout.Proofs.C.Items
import TypeLayout.Proofs.C.Models
import TypeLayout.Proofs.C.Reading
import TypeLayout.Proofs.C.Acting
import TypeLayout.Proofs.C.Declaring
import TypeLayout.Proofs.C.Layouts
import TypeLayout.Proofs.Consistent
import TypeLayout.Proofs.EmitErrors
import TypeLayout.Proofs.NormalForm
import TypeLayout.Proofs.Rounds
import TypeLayout.Proofs.JumpSlots
import TypeLayout.Proofs.StableSlots
import TypeLayout.Proofs.TableText
import TypeLayout.Proofs.Decoding
import TypeLayout.Proofs.Constants
import TypeLayout.Proofs.LexicalFaults
import TypeLayout.Proofs.Flaws
import TypeLayout.Proofs.Histories
import TypeLayout.Proofs.Additions
import TypeLayout.Proofs.Respelling
import TypeLayout.Proofs.Concatenation
import TypeLayout.Proofs.Progress
import TypeLayout.Proofs.Dimensions
import TypeLayout.Proofs.ObjectDeclarations
import TypeLayout.Proofs.NoisePlaces
import TypeLayout.Proofs.KeyResolution
import TypeLayout.Proofs.KeyLists
import TypeLayout.Proofs.LiteralDimensions
import TypeLayout.Proofs.SavedCells
import TypeLayout.Proofs.SpecifierOrder
import TypeLayout.Proofs.LineMarkers
import TypeLayout.Proofs.MergingEnds
import TypeLayout.Proofs.Increments
import TypeLayout.Proofs.Interning
import TypeLayout.Proofs.SourceLines
