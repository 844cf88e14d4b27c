import StackScript.Text.Hex
import StackScript.Text.Quoted
import StackScript.Json.Tree
import StackScript.Json.Written
import StackScript.Json.Field
import StackScript.Names
import StackScript.Script.Describe
import StackScript.Script.Build
import StackScript.Script.ModuleJson
import StackScript.Catalog.Seed
import StackScript.Catalog.OverlayJson
import StackScript.Diagnostic.Wording
import StackScript.Code.Listing
import StackScript.Code.Record
import StackScript.Code.ProgramJson
import StackScript.Lowering.Basic
import StackScript.Lowering.Module
import StackScript.Command.Memory
import StackScript.Main
import StackScript.Proofs.CallConvention
import StackScript.Proofs.Fallthrough
import StackScript.Proofs.Meaning.Event
import StackScript.Proofs.Calls.Operands
import StackScript.Proofs.Calls.References
import StackScript.Proofs.LabelClosure
import StackScript.Proofs.JumpBounds
import StackScript.Proofs.EventSlots
import StackScript.Proofs.Confinement
import StackScript.Proofs.Dispatch
import StackScript.Proofs.TypeSoundness
import StackScript.Proofs.ClosedProgram
import StackScript.Proofs.CallSites
import StackScript.Proofs.Identifiers
import StackScript.Proofs.SlotOwnership
import StackScript.Proofs.NameResolution
import StackScript.Proofs.Records
import StackScript.Proofs.CatalogExtension
import StackScript.Proofs.Positions
import StackScript.Proofs.EntryLabels
import StackScript.Proofs.Resolution
import StackScript.Proofs.AssemblyText
import StackScript.Proofs.EmitterRuns
import StackScript.Proofs.ModuleForms
import StackScript.Proofs.VariableTable
import StackScript.Proofs.CatalogLookup
import StackScript.Proofs.ListingRows
import StackScript.Proofs.FaultPlaces
import StackScript.Proofs.Quoting
import StackScript.Proofs.NameClashes
import StackScript.Proofs.GeneratedNames
