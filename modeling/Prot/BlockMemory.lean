import Prot.Memory

/-!
# Block access

The functions that every memory has to define itself, and what `Memory` builds on
them. A read fills a buffer that the caller owns, so its state is that buffer.
-/

namespace Prot

/-- The pure virtual functions of a memory of type `μ`. -/
class BlockMemory (μ : Type) where
  writeBlock : List Byte → Addr → EStateM Exn μ Unit
  readBlock : μ → Addr → EStateM Exn (List Byte) Unit

namespace BlockMemory

variable {μ : Type} [BlockMemory μ]

/-- `Memory::fillBlock`. -/
def fillBlock (addr : Addr) (value : Byte) (count : ℕ) : EStateM Exn μ Unit :=
  forM (List.range count) fun i => writeBlock [value] (addr + BitVec.ofNat 32 i)

/-! Access to one byte after the other; past the last address comes the first. -/

/-- Writes byte by byte, each at an address of 32 bits. -/
def writeBytes : List Byte → Addr → EStateM Exn μ Unit
  | [], _ => pure ()
  | b :: src, addr => do
    writeBlock [b] addr
    writeBytes src (addr + 1#32)

/-- The bytes that take the places of those of the destination. -/
def readBytes (m : μ) : Addr → List Byte → Except Exn (List Byte)
  | _, [] => pure []
  | addr, b :: dest =>
    match (readBlock m addr).run [b] with
    | .ok _ data => do
      let rest ← readBytes m (addr + 1#32) dest
      pure (data ++ rest)
    | .error e _ => throw e

end BlockMemory

end Prot
