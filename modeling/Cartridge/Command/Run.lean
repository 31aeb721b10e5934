/-
# `Cartridge.Command.Run` — the three commands

    pack    a raw bank and an optional startup routine become an image
    info    the header and the vectors of an image
    demo    the sample unit becomes an image
-/
import Cartridge.BlockTree.Render
import Cartridge.Build.Session
import Cartridge.Command.Args
import Cartridge.Command.Demo
import Cartridge.Command.Script

namespace Cartridge

namespace Command

/-- Write an image and say so. -/
def writeRom (rom : Rom) (output : String) : Script :=
  let contents := rom.toBytes
  .write output contents fun
    | .error e => .fail s!"Writing {output}" e.message
    | .ok () =>
        match rom.vectors with
        | .error f => .crash f
        | .ok vectors =>
            .printLine s!"{output} ({contents.size} bytes, reset {showAddress vectors.reset})" .done

/-- Give up on `context`. -/
def giveUp {ε : Type} (context : String) (text : ε → String) : Stop ε → Script
  | .error e => .fail context (text e)
  | .fault f => .crash f

/-- Build the image of a bank and a startup routine. -/
def packBank (input output : String) (header : Header) (bank startup : Bytes) : Script :=
  match Rom.ofBankTraced header bank { bytes := startup } #[] with
  | .ok rom events => .report events (writeRom rom output)
  | .error s events => .report events (giveUp s!"Packing {input}" ImageError.message s)

/-- The command `pack`. -/
def packScript (input : String) (startup : Option String) (output : String) (header : Header) : Script :=
  .readOrFail input fun bank =>
    match startup with
    | none => packBank input output header bank #[]
    | some file => .readOrFail file fun routine => packBank input output header bank routine

/-- The header and the vectors of an image, a line each. -/
def describe (header : Header) (vectors : Vectors) : List String :=
  [ s!"PRG ROM:    {header.prgBanks} x 16 KiB",
    s!"CHR ROM:    {header.chrBanks} x 8 KiB",
    s!"Mapper:     {header.mapper}",
    s!"Mirroring:  {header.mirroring.name}",
    s!"Battery:    {header.battery}",
    s!"NMI:        {showAddress vectors.nmi}",
    s!"RESET:      {showAddress vectors.reset}",
    s!"IRQ:        {showAddress vectors.irq}" ]

/-- The command `info`. -/
def infoScript (file : String) : Script :=
  .readOrFail file fun contents =>
    match Rom.ofBytes contents with
    | .error e => .fail s!"Parsing {file}" e.message
    | .ok rom =>
        match rom.vectors with
        | .error f => .crash f
        | .ok vectors => (describe rom.header vectors).foldr Script.printLine .done

/-- Assemble the block tree of the sample unit. -/
def demoImage (tree : BlockTree) (target : Target) (output : String) : Script :=
  match Build.image tree target #[] with
  | .ok rom events => .report events (writeRom rom output)
  | .error s events => .report events (giveUp "Assembling demo program" BuildError.message s)

/-- The command `demo`. -/
def demoScript (output : String) (board : Board) (dump : Bool) : Script :=
  let target : Target := { board := board }
  match Session.tree { target := target, decls := demoUnit, tracing := true } with
  | .ok tree s =>
      let next := demoImage tree target output
      .report s.journal (if dump then .print tree.render next else next)
  | .error e s => .report s.journal (giveUp "Compiling demo program" BuildError.message e)

/-- The steps of a command. -/
def script : Command → Script
  | .pack input startup output board vertical =>
      packScript input startup output
        { Header.ofBoard board with mirroring := if vertical then .vertical else .horizontal }
  | .info file => infoScript file
  | .demo output board dump => demoScript output board dump

/-- Run a command line on a disk. -/
def run (args : List String) (disk : Disk) : Outcome :=
  match Args.parse args with
  | .error e => ⟨Outcome.misused, "", s!"error: {e.message}\n", disk⟩
  | .ok request => request.command.script.run disk ""

end Command

end Cartridge
