import CrossAssembler.Assembly
import CrossAssembler.Command.Run
import CrossAssembler.Main
import CrossAssembler.Proofs.Program.Decodability
import CrossAssembler.Proofs.Program.Arrival
import CrossAssembler.Proofs.Program.Drift
import CrossAssembler.Proofs.Region.Image
import CrossAssembler.Proofs.Item.Isolation
import CrossAssembler.Proofs.Program.Deletion
import CrossAssembler.Proofs.Program.Relocation
import CrossAssembler.Proofs.Item.Rendering
import CrossAssembler.Proofs.Command.Split
import CrossAssembler.Proofs.Instruction.Load
import CrossAssembler.Proofs.Command.Plain
import CrossAssembler.Proofs.Instruction.Renaming
import CrossAssembler.Proofs.Program.Renaming
import CrossAssembler.Proofs.Token.CaseFold
import CrossAssembler.Proofs.Item.Outline
import CrossAssembler.Proofs.Program.CaseFold
import CrossAssembler.Proofs.Instruction.Relative
import CrossAssembler.Proofs.Program.Counter
import CrossAssembler.Proofs.Region.Grouping
import CrossAssembler.Proofs.Region.Layout
import CrossAssembler.Proofs.Program.Symbols
import CrossAssembler.Proofs.Instruction.Memory
import CrossAssembler.Proofs.Program.Alias
import CrossAssembler.Proofs.Text.EditDistance
import CrossAssembler.Proofs.Item.Order
import CrossAssembler.Proofs.Token.Cover
import CrossAssembler.Proofs.Token.Literal
import CrossAssembler.Proofs.Program.ReportOrder
import CrossAssembler.Proofs.Token.CarriageReturn
import CrossAssembler.Proofs.Program.CarriageReturn
import CrossAssembler.Proofs.Text.Numeral
import CrossAssembler.Proofs.Command.Numeral
