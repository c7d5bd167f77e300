import Prot.FlatStore

/-!
# Plain memory as a flat map of bytes

Words of three widths, blocks and fills are written to one mapping, over one another and
at any alignment. What is read afterwards, at whatever width, is made up of the bytes
last written, and of zeros where nothing was written.

Every access here lies in the mapping. What happens to the others is in
`Prot.PlainBounds`.

## Main results

* `WriteOp.run_perform`: each way of writing is a write to the flat map
* `PlainMemory.reads_eq_flat`: what is read after any sequence of writes
-/

namespace Prot

open Stateful

/-- The ways of writing to a `Memory`. -/
inductive WriteOp where
  | write (T : MemTy) (addr : Addr) (val : BitVec T.bits)
  | writeBlock (src : List Byte) (addr : Addr)
  | fillBlock (addr : Addr) (value : Byte) (count : ℕ)

namespace WriteOp

/-- The address of the first byte. -/
def addr : WriteOp → Addr
  | write _ addr _ => addr
  | writeBlock _ addr => addr
  | fillBlock addr _ _ => addr

/-- The number of bytes. -/
def bytes : WriteOp → ℕ
  | write T _ _ => T.bytes
  | writeBlock src _ => src.length
  | fillBlock _ _ count => count

variable {m_start : Addr} {size : ℕ}

/-- The write as the memory makes it. -/
def perform : WriteOp → EStateM Exn (PlainMemory m_start size) Unit
  | write T addr val => PlainMemory.overwrite fun m => Memory.write T m addr val
  | writeBlock src addr => BlockMemory.writeBlock src addr
  | fillBlock addr value count => BlockMemory.fillBlock addr value count

/-- The write to the flat map. A word is written as its bytes, the lowest one first. -/
def apply (f : FlatMemory) : WriteOp → FlatMemory
  | write T addr val => f.write (toBytes T.bytes val) addr
  | writeBlock src addr => f.write src addr
  | fillBlock addr value count => f.fill addr value count

/-- The map after a sequence of writes. -/
def contents (ops : List WriteOp) : FlatMemory := ops.foldl apply fun _ => none

/-- A write leaves the rest alone. -/
theorem apply_of_not_inRange (op : WriteOp) (f : FlatMemory) {x : Addr}
    (hx : ¬ InRange op.addr op.bytes x) : op.apply f x = f x := by
  cases op with
  | write T addr val =>
    rw [apply, FlatMemory.write, length_toBytes]
    exact if_neg hx
  | writeBlock src addr => exact if_neg hx
  | fillBlock addr value count => exact if_neg hx

end WriteOp

/-- The range lies inside `[start, start + size)`. -/
structure Inside (m_start : Addr) (size : ℕ) (addr : Addr) (n : ℕ) : Prop where
  le : m_start.toNat ≤ addr.toNat
  fits : addr.toNat + n ≤ m_start.toNat + size

theorem Inside.covers {m_start addr : Addr} {size n : ℕ} (h : Inside m_start size addr n)
    (hspace : m_start.toNat + size ≤ 2 ^ 32) : PlainMemory.Covers m_start size addr n :=
  ⟨h.le, h.fits, h.fits.trans hspace⟩

section Writes

variable {m_start : Addr} {size : ℕ} (hspace : m_start.toNat + size ≤ 2 ^ 32)
  {m : PlainMemory m_start size} {f : FlatMemory}

include hspace

/-- A write within the mapping is the write of the map. A narrow one is a block write of the bytes
of its value. -/
theorem WriteOp.run_perform (h : m.Represents f) {op : WriteOp}
    (hop : Inside m_start size op.addr op.bytes) :
    ∃ m', (op.perform).run m = .ok () m' ∧ m'.Represents (op.apply f) := by
  have hcovers := hop.covers hspace
  cases op with
  | write T addr val =>
    rw [WriteOp.perform]
    simp only [PlainMemory.write_eq]
    rw [PlainMemory.overwrite_writeAs]
    exact h.writeBlock (by rwa [length_toBytes])
  | writeBlock src addr => exact h.writeBlock hcovers
  | fillBlock addr value count =>
    obtain ⟨m', hrun, hm'⟩ := (PlainMemory.flatStore m_start size).fillBlock value h (k := 0)
      hcovers (Nat.zero_add _).le
    rw [BitVec.add_zero] at hrun hm'
    exact ⟨m', hrun, hm'⟩

/-- So is any history of writes. -/
theorem WriteOp.run_forM (h : m.Represents f) {ops : List WriteOp}
    (hops : ∀ op ∈ ops, Inside m_start size op.addr op.bytes) :
    ∃ m', (forM ops WriteOp.perform).run m = .ok () m' ∧
      m'.Represents (ops.foldl WriteOp.apply f) := by
  induction ops generalizing m f with
  | nil => exact ⟨m, rfl, h⟩
  | cons op ops ih =>
    obtain ⟨m₁, hrun, hm₁⟩ := WriteOp.run_perform hspace h (hops op List.mem_cons_self)
    obtain ⟨m', hrest, hm'⟩ := ih hm₁ fun op' hop' => hops op' (List.mem_cons_of_mem op hop')
    exact ⟨m', by rw [List.forM_cons, run_seq_ok hrun, hrest], hm'⟩

/-- A read within the mapping is the read of the map. -/
theorem PlainMemory.Represents.read_eq (h : m.Represents f) {T : MemTy} {addr : Addr}
    (hinside : Inside m_start size addr T.bytes) :
    Memory.read T m addr = .ok (fromBytes T.bits (f.bytes addr T.bytes)) := by
  have hbuf : (List.replicate T.bytes 0#8).length = T.bytes := List.length_replicate
  rw [PlainMemory.read_eq, PlainMemory.readAs_eq T m addr hbuf, TypedAccess.readBuffer,
    h.readBlock (by rw [hbuf]; exact hinside.covers hspace), hbuf]

end Writes

namespace PlainMemory

variable {m_start : Addr} {size : ℕ}

theorem represents_empty : Represents ({} : PlainMemory m_start size) fun _ => none :=
  fun _ _ _ => rfl

/-- Whatever was written before, each read brings the bytes last written, and the next
write leaves everything outside its range as it was. -/
theorem reads_eq_flat (hspace : m_start.toNat + size ≤ 2 ^ 32) (ops : List WriteOp)
    (hops : ∀ op ∈ ops, Inside m_start size op.addr op.bytes) :
    ∃ m : PlainMemory m_start size, (forM ops WriteOp.perform).run {} = .ok () m ∧
      (∀ T addr, Inside m_start size addr T.bytes →
        Memory.read T m addr =
          .ok (fromBytes T.bits ((WriteOp.contents ops).bytes addr T.bytes))) ∧
      (∀ addr dest, Inside m_start size addr dest.length →
        (BlockMemory.readBlock m addr).run dest =
          .ok () ((WriteOp.contents ops).bytes addr dest.length)) ∧
      ∀ op : WriteOp, Inside m_start size op.addr op.bytes →
        ∃ m', op.perform.run m = .ok () m' ∧ ∀ x, Inside m_start size x 1 →
          ¬ InRange op.addr op.bytes x → Memory.read8 m' x = Memory.read8 m x := by
  obtain ⟨m, hrun, hm⟩ := WriteOp.run_forM hspace represents_empty hops
  refine ⟨m, hrun, fun T addr h => hm.read_eq hspace h, fun addr dest h =>
    hm.readBlock (h.covers hspace), fun op hop => ?_⟩
  obtain ⟨m', hwrite, hm'⟩ := WriteOp.run_perform hspace hm hop
  refine ⟨m', hwrite, fun x hx hout => ?_⟩
  have hread := hm.read_eq hspace (T := .byte) hx
  have hread' := hm'.read_eq hspace (T := .byte) hx
  change Memory.read .byte m' x = Memory.read .byte m x
  rw [hread, hread']
  simp only [FlatMemory.bytes, MemTy.bytes, List.range_one, List.map_cons, List.map_nil,
    BitVec.add_zero, op.apply_of_not_inRange _ hout]

/-- A half written over the middle of a word, and a read that begins before both. -/
theorem reads_eq_flat_overlap :
    let ops : List WriteOp := [.write .word 0x1002#32 0x44332211#32,
      .write .half 0x1003#32 0xBBAA#16, .fillBlock 0x1000#32 0xFF#8 1]
    ∃ m : PlainMemory 0x1000#32 16, (forM ops WriteOp.perform).run {} = .ok () m ∧
      Memory.read .word m 0x1001#32 = .ok 0xBBAA1100#32 := by
  intro ops
  have hops : ∀ op ∈ ops, Inside 0x1000#32 16 op.addr op.bytes := by
    simp only [ops, List.forall_mem_cons, List.not_mem_nil, false_implies, implies_true, and_true]
    exact ⟨⟨by decide, by decide⟩, ⟨by decide, by decide⟩, ⟨by decide, by decide⟩⟩
  have hspace : (0x1000#32 : Addr).toNat + 16 ≤ 2 ^ 32 := by decide
  obtain ⟨m, hrun, hread, -⟩ := reads_eq_flat hspace ops hops
  have hbytes : fromBytes 32 ((WriteOp.contents ops).bytes 0x1001#32 4) = 0xBBAA1100#32 := by
    decide +kernel
  exact ⟨m, hrun, (hread .word 0x1001#32 ⟨by decide, by decide⟩).trans (congrArg _ hbytes)⟩

end PlainMemory

end Prot
