import Wasm.Instance
import Wasm.Proofs.Binary.Words
import Wasm.Proofs.Binary.Grammar
import Wasm.Proofs.Binary.Minimal
import Wasm.Proofs.Binary.Locality
import Wasm.Proofs.Binary.Budget
import Wasm.Proofs.Binary.Exact
import Wasm.Proofs.Binary.BlockType
import Wasm.Proofs.Binary.Truncation
import Wasm.Proofs.Binary.Offsets
import Wasm.Proofs.Integer.Division
import Wasm.Proofs.Integer.Standard
import Wasm.Proofs.Instr.Boundary
import Wasm.Proofs.Instr.Extension
import Wasm.Proofs.Instr.Delimiters
import Wasm.Proofs.Module.Format
import Wasm.Proofs.Module.WellTyped
import Wasm.Proofs.Module.Filling
import Wasm.Proofs.Module.Source
import Wasm.Proofs.Module.Items
import Wasm.Proofs.Module.RoundTrip
import Wasm.Proofs.Module.Order
import Wasm.Proofs.Module.Volume
import Wasm.Proofs.Module.Truncation
import Wasm.Proofs.Module.Offsets
import Wasm.Proofs.Module.Contents
import Wasm.Proofs.Machine.Cells
import Wasm.Proofs.Machine.Effect
import Wasm.Proofs.Machine.Runs
import Wasm.Proofs.Machine.Activations
import Wasm.Proofs.Machine.Control
import Wasm.Proofs.Machine.Layout
import Wasm.Proofs.Machine.Isolation
import Wasm.Proofs.Machine.Leads
import Wasm.Proofs.Machine.Cache
import Wasm.Proofs.Machine.Heights
import Wasm.Proofs.Machine.Limits
import Wasm.Proofs.Machine.Raised
import Wasm.Proofs.Machine.Context
import Wasm.Proofs.Machine.Looser
import Wasm.Proofs.Machine.Underflow
import Wasm.Proofs.Machine.Trace
import Wasm.Proofs.Machine.Padding
import Wasm.Proofs.Machine.Immediates
import Wasm.Proofs.Machine.Selected
import Wasm.Proofs.Machine.Exits
import Wasm.Proofs.Machine.Numeric
import Wasm.Proofs.Structured.Syntax
import Wasm.Proofs.Structured.Eval
import Wasm.Proofs.Structured.Site
import Wasm.Proofs.Structured.Landing
import Wasm.Proofs.Structured.Simulation
import Wasm.Proofs.Structured.Refinement
import Wasm.Proofs.Validation.Discipline
import Wasm.Proofs.Validation.Targets
import Wasm.Proofs.Validation.Checked
import Wasm.Proofs.Validation.Soundness
import Wasm.Proofs.Validation.Floors
