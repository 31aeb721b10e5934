import Cartridge.Hex
import Cartridge.Word
import Cartridge.Vectors
import Cartridge.Ty.Basic
import Cartridge.Ty.Render
import Cartridge.Ty.Rules
import Cartridge.Ty.Size
import Cartridge.Ty.NameTable
import Cartridge.Syntax
import Cartridge.Typing.Error
import Cartridge.Typing.Env
import Cartridge.Typing.Attributes
import Cartridge.Typing.Infer
import Cartridge.Typing.Analysis
import Cartridge.BlockTree.Instr
import Cartridge.BlockTree.Basic
import Cartridge.BlockTree.Render
import Cartridge.BlockTree.OfDecls
import Cartridge.Initializer
import Cartridge.Cpu.Mnemonic
import Cartridge.Cpu.Mode
import Cartridge.Cpu.Opcode
import Cartridge.Cpu.Operand
import Cartridge.Fault
import Cartridge.Assembly.Segment
import Cartridge.Assembly.Assembler
import Cartridge.Storage
import Cartridge.ObjectCode.Select
import Cartridge.ObjectCode.Draft
import Cartridge.ObjectCode.Basic
import Cartridge.Image.Error
import Cartridge.Image.Board
import Cartridge.Image.Header
import Cartridge.Image.Rom
import Cartridge.Image.Bank
import Cartridge.Image.Injection
import Cartridge.Journal
import Cartridge.Build.Basic
import Cartridge.Build.Session
import Cartridge.Command.Disk
import Cartridge.Command.Script
import Cartridge.Command.Args
import Cartridge.Command.Demo
import Cartridge.Command.Run
import Cartridge.Main
import Cartridge.Proofs.Cpu.Memory
import Cartridge.Proofs.Cpu.Decode
import Cartridge.Proofs.Cpu.Machine
import Cartridge.Proofs.Success
import Cartridge.Proofs.Bytes
import Cartridge.Proofs.ObjectCode.Layout
import Cartridge.Proofs.BlockTree.Shape
import Cartridge.Proofs.BlockTree.Walks
import Cartridge.Proofs.BlockTree.Meaning
import Cartridge.Proofs.ObjectCode.Execution
import Cartridge.Proofs.ObjectCode.Selection
import Cartridge.Proofs.ObjectCode.Simulation
import Cartridge.Proofs.ObjectCode.Correctness
import Cartridge.Proofs.Image.Window
import Cartridge.Proofs.Image.Injection
import Cartridge.Proofs.ObjectCode.Density
import Cartridge.Proofs.Build.Placement
import Cartridge.Proofs.Typing.Judgment
import Cartridge.Proofs.Initializer.Value
import Cartridge.Proofs.Initializer.Effect
import Cartridge.Proofs.BlockTree.OfDecls
import Cartridge.Proofs.ObjectCode.Straight
import Cartridge.Proofs.Build.Variables
import Cartridge.Proofs.Build.Correctness
import Cartridge.Proofs.Ty.Relations
import Cartridge.Proofs.Typing.Soundness
import Cartridge.Proofs.Initializer.Storable
import Cartridge.Proofs.BlockTree.Existence
import Cartridge.Proofs.Initializer.Bounds
import Cartridge.Proofs.Build.Bounds
import Cartridge.Proofs.Assembly.Orders
import Cartridge.Proofs.Assembly.Listing
import Cartridge.Proofs.Typing.Idempotence
import Cartridge.Proofs.Typing.Isolation
import Cartridge.Proofs.Storage.Regions
import Cartridge.Proofs.Assembly.Relocation
import Cartridge.Proofs.Build.Relocation
import Cartridge.Proofs.Storage.Runs
import Cartridge.Proofs.BlockTree.Scopes
import Cartridge.Proofs.Image.Codec
import Cartridge.Proofs.Build.Files
import Cartridge.Proofs.Initializer.Names
import Cartridge.Proofs.ObjectCode.Progress
import Cartridge.Proofs.Build.Outcomes
import Cartridge.Proofs.Assembly.Atomicity
import Cartridge.Proofs.Ty.Fitting
import Cartridge.Proofs.ObjectCode.Safety
import Cartridge.Proofs.Typing.Preservation
import Cartridge.Proofs.Image.Effect
import Cartridge.Proofs.Initializer.Folding
import Cartridge.Proofs.Ty.Algebra
import Cartridge.Proofs.Command.Crashes
import Cartridge.Proofs.Text
import Cartridge.Proofs.Ty.Extent
import Cartridge.Proofs.Ty.Names
import Cartridge.Proofs.BlockTree.Reading
import Cartridge.Proofs.Initializer.Overflow
