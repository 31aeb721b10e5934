/-
# `Cartridge.Image.Rom` — complete images

An image is a header, the program memory and the character memory, written
one after the other without padding.  The vectors are the last three words of
program memory; an image without program memory has none, and asking for them
is a fault.
-/
import Cartridge.Fault
import Cartridge.Image.Header
import Cartridge.Vectors

namespace Cartridge

/-- An image. -/
structure Rom where
  header : Header
  prg : Bytes
  chr : Bytes
deriving DecidableEq, Inhabited, Repr

/-- Distance of the vectors from the end of program memory. -/
def Vectors.nmiFromEnd : Nat := 6
@[inherit_doc Vectors.nmiFromEnd]
def Vectors.resetFromEnd : Nat := 4
@[inherit_doc Vectors.nmiFromEnd]
def Vectors.irqFromEnd : Nat := 2

/-- The word that lies `fromEnd` bytes before the end of a bank. -/
def Bytes.vector? (bank : Bytes) (fromEnd : Nat) : Option UInt16 :=
  if fromEnd ≤ bank.size then bank.word? (bank.size - fromEnd) else none

/-- Overwrite the word that lies `fromEnd` bytes before the end of a bank. -/
def Bytes.putVector? (bank : Bytes) (fromEnd : Nat) (address : UInt16) : Option Bytes :=
  if fromEnd ≤ bank.size then bank.putWord? (bank.size - fromEnd) address else none

namespace Rom

/-- An image with the given program memory; its character memory is zero. -/
def ofPrg (header : Header) (prg : Bytes) : Except ImageError Rom :=
  if prg.size = header.prgSize then
    .ok { header := header, prg := prg, chr := Array.replicate header.chrSize 0 }
  else
    .error (.sizeMismatch header.prgSize prg.size)

/-- Read an image. -/
def ofBytes (file : Bytes) : Except ImageError Rom :=
  match Header.parse file with
  | .error e => .error e
  | .ok header =>
      let expected := headerSize + header.prgSize + header.chrSize
      if file.size = expected then
        let prgEnd := headerSize + header.prgSize
        .ok {
          header := header
          prg := file.extract headerSize prgEnd
          chr := file.extract prgEnd file.size }
      else
        .error (.sizeMismatch expected file.size)

/-- The bytes of an image. -/
def toBytes (rom : Rom) : Bytes :=
  rom.header.toList.toArray ++ rom.prg ++ rom.chr

/-- The vectors of an image. -/
def vectors (rom : Rom) : Except Fault Vectors :=
  match rom.prg.vector? Vectors.nmiFromEnd, rom.prg.vector? Vectors.resetFromEnd,
      rom.prg.vector? Vectors.irqFromEnd with
  | some nmi, some reset, some irq => .ok { nmi := nmi, reset := reset, irq := irq }
  | _, _, _ => .error .outOfRange

end Rom

end Cartridge
