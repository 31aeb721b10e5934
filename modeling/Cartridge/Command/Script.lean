/-
# `Cartridge.Command.Script` — what a command does to the world

A command is a finite tree of questions to the world and what follows from
each answer.  The same tree is carried out on real files by the program and on
a disk in memory by `run`.
-/
import Cartridge.Command.Disk
import Cartridge.Fault
import Cartridge.Journal

namespace Cartridge

/-- The steps of a command. -/
inductive Script where
  /-- Nothing is left to do. -/
  | done
  /-- Give up: what was attempted, and why it failed. -/
  | fail (context cause : String)
  /-- A contract is broken. -/
  | crash (fault : Fault)
  /-- Print to standard output. -/
  | print (text : String) (next : Script)
  /-- Report events, if anyone listens. -/
  | report (events : Journal) (next : Script)
  /-- Read a file. -/
  | read (path : String) (next : Except FileError Bytes → Script)
  /-- Write a file. -/
  | write (path : String) (contents : Bytes) (next : Except FileError Unit → Script)

namespace Script

/-- Print one line. -/
def printLine (text : String) (next : Script) : Script := .print (text ++ "\n") next

/-- The text of a failure. -/
def failureText (context cause : String) : String :=
  s!"Error: {context}\n\nCaused by:\n    {cause}\n"

/-- Read a file or give up. -/
def readOrFail (path : String) (next : Bytes → Script) : Script :=
  .read path fun
    | .ok contents => next contents
    | .error e => .fail s!"Reading {path}" e.message

end Script

/-- What a command leaves behind. -/
structure Outcome where
  code : Nat
  stdout : String
  stderr : String
  disk : Disk
deriving DecidableEq, Inhabited, Repr

/-- The exit code of a failure. -/
def Outcome.failed : Nat := 1
/-- The exit code of a wrong command line. -/
def Outcome.misused : Nat := 2
/-- The exit code of a broken contract. -/
def Outcome.crashed : Nat := 101

/-- Carry a script out on a disk; `out` is already printed. -/
def Script.run (disk : Disk) (out : String) : Script → Outcome
  | .done => ⟨0, out, "", disk⟩
  | .fail context cause => ⟨Outcome.failed, out, failureText context cause, disk⟩
  | .crash _ => ⟨Outcome.crashed, out, "", disk⟩
  | .print text next => next.run disk (out ++ text)
  | .report _ next => next.run disk out
  | .read path next => (next (disk.read path)).run disk out
  | .write path contents next =>
      match disk.write path contents with
      | .ok disk' => (next (.ok ())).run disk' out
      | .error e => (next (.error e)).run disk out

end Cartridge
