import Prot.FlatStore

/-!
# Loading an ELF file

`ElfLoader::loadMemory` goes over the program headers of an executable file. For each
header of type `PT_LOAD` it writes the bytes of the file and fills the rest of the segment
with zeros. Both are block operations of the memory, so for well-formed headers the
result can be read off the flat map that the memory holds.

The parser of the file is not part of the repository. It is taken to return what the file
says: the fields of the headers, and for each segment as many bytes as its header promises.

## Main results

* `exists_holds_forM_load`: the flat map after loading, for any memory
* `FlatStore.readByte_of_contains`, `FlatStore.readByte_of_not_contains`: what is read then
-/

namespace Prot

open Stateful

/-! ### Files -/

/-- A program header of a file of class `ELFCLASS32`, with the bytes of the segment. -/
structure Segment where
  p_type : Word
  p_vaddr : Word
  p_filesz : Word
  p_memsz : Word
  data : List Byte
  length_data : data.length = p_filesz.toNat

namespace Segment

variable (seg : Segment)

/-! The accessors widen the fields, as one parser serves both classes. -/

/-- `get_virtual_address`, which ELFIO widens to 64 bits. -/
def get_virtual_address : BitVec 64 := seg.p_vaddr.setWidth 64

/-- `get_file_size`, which ELFIO widens to 64 bits. -/
def get_file_size : BitVec 64 := seg.p_filesz.setWidth 64

/-- `get_memory_size`, which ELFIO widens to 64 bits. -/
def get_memory_size : BitVec 64 := seg.p_memsz.setWidth 64

end Segment

/-- The type of a segment that is loaded. -/
def PT_LOAD : Word := 1#32

/-- What the loader reads of an ELF file. -/
structure Elf where
  e_type : Half
  ei_data : Byte
  ei_class : Byte
  e_machine : Half
  segments : List Segment

namespace Elf

/-- An executable file. -/
def ET_EXEC : Half := 2#16

/-- Little-endian data. -/
def ELFDATA2LSB : Byte := 1#8

/-- 32-bit objects. -/
def ELFCLASS32 : Byte := 1#8

/-- The machine. -/
def EM_RISCV : Half := 243#16

/-- What `ElfLoader::validate` throws. -/
inductive Invalid where
  | type | encoding | class32 | machine
  deriving DecidableEq, Repr

/-- The texts of the exceptions, as the source has them. -/
def Invalid.message : Invalid → String
  | type => "Invalud ELF type"
  | encoding => "Invalid ELF encoding"
  | class32 => "Invalid ELF class"
  | machine => "Invalid machine"

/-- `ElfLoader::validate`. -/
def validate (m_elf : Elf) : Except Invalid Unit :=
  if m_elf.e_type ≠ ET_EXEC then throw .type
  else if m_elf.ei_data ≠ ELFDATA2LSB then throw .encoding
  else if m_elf.ei_class ≠ ELFCLASS32 then throw .class32
  else if m_elf.e_machine ≠ EM_RISCV then throw .machine
  else pure ()

end Elf

/-- A loader is built only from a file that is valid. -/
structure ElfLoader where
  m_elf : Elf
  valid : m_elf.validate = .ok ()

/-! ### Loading -/

section Load

variable {μ : Type} [BlockMemory μ]

open BlockMemory

/-- `loadMemory` for one segment: the bytes of the file, then as many zeros as it is shorter
than memory. The address of the fill is narrowed to 32 bits, and its count is a difference of
64 bits. -/
def Segment.load (seg : Segment) : EStateM Exn μ Unit := do
  writeBlock seg.data (seg.get_virtual_address.setWidth 32)
  fillBlock ((seg.get_virtual_address + seg.get_file_size).setWidth 32) 0#8
    (seg.get_memory_size - seg.get_file_size).toNat

namespace ElfLoader

/-- The segments that are loaded, in the order of their headers. -/
def loads (loader : ElfLoader) : List Segment :=
  loader.m_elf.segments.filter fun seg => seg.p_type = PT_LOAD

/-- `ElfLoader::loadMemory`: every segment that is loaded, in the order of the file. -/
def loadMemory (loader : ElfLoader) : EStateM Exn μ Unit := forM loader.loads Segment.load

end ElfLoader

end Load

/-! ### The image of a file -/

namespace Segment

/-- The file has no more bytes than the segment, which ends within the address space. -/
structure WellFormed (seg : Segment) : Prop where
  filesz_le : seg.p_filesz.toNat ≤ seg.p_memsz.toNat
  space : seg.p_vaddr.toNat + seg.p_memsz.toNat ≤ 2 ^ 32

/-- The segment has a byte at the address. -/
def Contains (seg : Segment) (x : Addr) : Prop :=
  seg.p_vaddr.toNat ≤ x.toNat ∧ x.toNat < seg.p_vaddr.toNat + seg.p_memsz.toNat

/-- No address is in both segments. -/
def Disjoint (seg seg' : Segment) : Prop := ∀ x, seg.Contains x → ¬ seg'.Contains x

/-- The `k`-th byte of the segment: a byte of the file, or a zero after the last of them. -/
def byte (seg : Segment) (k : ℕ) : Byte :=
  if k < seg.p_filesz.toNat then seg.data.getD k 0#8 else 0#8

/-- The flat map with the segment in it. -/
def put (seg : Segment) (f : FlatMemory) : FlatMemory :=
  (f.write seg.data seg.p_vaddr).fill
    (seg.p_vaddr + BitVec.ofNat 32 seg.p_filesz.toNat) 0#8
    (seg.p_memsz.toNat - seg.p_filesz.toNat)

theorem address_eq (seg : Segment) : seg.get_virtual_address.setWidth 32 = seg.p_vaddr :=
  BitVec.setWidth_setWidth_of_le _ (by decide)

/-- The fill begins after the bytes of the file. -/
theorem fill_address_eq (seg : Segment) :
    (seg.get_virtual_address + seg.get_file_size).setWidth 32 =
      seg.p_vaddr + BitVec.ofNat 32 seg.p_filesz.toNat := by
  rw [BitVec.setWidth_add _ _ (by decide), address_eq, get_file_size,
    BitVec.setWidth_setWidth_of_le _ (by decide), BitVec.setWidth_eq, BitVec.ofNat_toNat,
    BitVec.setWidth_eq]

/-- The difference does not wrap around if there are no more bytes in the file than in memory. -/
theorem WellFormed.count_eq {seg : Segment} (h : seg.WellFormed) :
    (seg.get_memory_size - seg.get_file_size).toNat =
      seg.p_memsz.toNat - seg.p_filesz.toNat := by
  have hle := h.filesz_le
  rw [BitVec.toNat_sub_of_le, get_memory_size, get_file_size,
    BitVec.toNat_setWidth_of_le (by decide), BitVec.toNat_setWidth_of_le (by decide)]
  rw [BitVec.le_def, get_memory_size, get_file_size, BitVec.toNat_setWidth_of_le (by decide),
    BitVec.toNat_setWidth_of_le (by decide)]
  exact hle

/-- Inside the segment there are the bytes of the file, and zeros after the last of them. -/
theorem put_of_contains {seg : Segment} (h : seg.WellFormed) (f : FlatMemory) {x : Addr}
    (hx : seg.Contains x) :
    seg.put f x = some (seg.byte (x.toNat - seg.p_vaddr.toNat)) := by
  obtain ⟨hle, hspace⟩ := h
  obtain ⟨hbegin, hend⟩ := hx
  have hlength := seg.length_data
  have hsub : (x - seg.p_vaddr).toNat = x.toNat - seg.p_vaddr.toNat :=
    BitVec.toNat_sub_of_le (BitVec.le_def.mpr hbegin)
  by_cases hfile : x.toNat - seg.p_vaddr.toNat < seg.p_filesz.toNat
  · have hout : ¬ InRange (seg.p_vaddr + BitVec.ofNat 32 seg.p_filesz.toNat)
        (seg.p_memsz.toNat - seg.p_filesz.toNat) x := by
      have hx := x.isLt
      rw [InRange, BitVec.toNat_sub, BitVec.toNat_add, BitVec.toNat_ofNat]
      omega
    rw [put, FlatMemory.fill, if_neg hout, FlatMemory.write, if_pos (by rw [InRange]; omega), hsub,
      byte, if_pos hfile, List.getD_eq_getElem?_getD, List.getElem?_eq_getElem (by omega),
      Option.getD_some]
  · have hin : InRange (seg.p_vaddr + BitVec.ofNat 32 seg.p_filesz.toNat)
        (seg.p_memsz.toNat - seg.p_filesz.toNat) x := by
      have hx := x.isLt
      rw [InRange, BitVec.toNat_sub, BitVec.toNat_add, BitVec.toNat_ofNat]
      omega
    rw [put, FlatMemory.fill, if_pos hin, byte, if_neg hfile]

/-- A segment leaves everything outside it alone. -/
theorem put_of_not_contains {seg : Segment} (h : seg.WellFormed) (f : FlatMemory) {x : Addr}
    (hx : ¬ seg.Contains x) : seg.put f x = f x := by
  obtain ⟨hle, hspace⟩ := h
  have hlength := seg.length_data
  have hlt := x.isLt
  have hfill : ¬ InRange (seg.p_vaddr + BitVec.ofNat 32 seg.p_filesz.toNat)
      (seg.p_memsz.toNat - seg.p_filesz.toNat) x := by
    rw [Contains] at hx
    rw [InRange, BitVec.toNat_sub, BitVec.toNat_add, BitVec.toNat_ofNat]
    omega
  have hwrite : ¬ InRange seg.p_vaddr seg.data.length x := by
    rw [Contains] at hx
    rw [FlatMemory.inRange_iff (by omega)]
    omega
  rw [put, FlatMemory.fill, if_neg hfill, FlatMemory.write, if_neg hwrite]

/-- Loading a segment puts it into the flat map that the memory holds. -/
theorem WellFormed.run_load {μ : Type} [BlockMemory μ] (S : FlatStore μ) {seg : Segment}
    (h : seg.WellFormed) (hcovers : S.Covers seg.p_vaddr seg.p_memsz.toNat) {m : μ}
    {f : FlatMemory} (hm : S.Holds m f) :
    ∃ m', seg.load.run m = .ok () m' ∧ S.Holds m' (seg.put f) := by
  have hle := h.filesz_le
  have hdata : S.Covers seg.p_vaddr seg.data.length :=
    S.covers_take hcovers (seg.length_data.trans_le hle)
  obtain ⟨m₁, hwrite, hm₁⟩ := S.writeBlock hm hdata
  obtain ⟨m', hfill, hm'⟩ := S.fillBlock 0#8 hm₁ hcovers (Nat.add_sub_cancel' hle).le
  refine ⟨m', ?_, hm'⟩
  rw [load, address_eq, fill_address_eq, h.count_eq, run_seq_ok hwrite, hfill]

end Segment

/-- The bytes that the segments put into the map, in whatever order they come. -/
structure IsImage (segments : List Segment) (f f' : FlatMemory) : Prop where
  inside : ∀ seg ∈ segments, ∀ x, seg.Contains x →
    f' x = some (seg.byte (x.toNat - seg.p_vaddr.toNat))
  outside : ∀ x, (∀ seg ∈ segments, ¬ seg.Contains x) → f' x = f x

/-- Loading a list of segments that do not overlap. -/
theorem exists_holds_forM_load {μ : Type} [BlockMemory μ] (S : FlatStore μ)
    {segments : List Segment} (hwf : ∀ seg ∈ segments, seg.WellFormed)
    (hdisjoint : segments.Pairwise Segment.Disjoint)
    (hcovers : ∀ seg ∈ segments, S.Covers seg.p_vaddr seg.p_memsz.toNat) {m : μ}
    {f : FlatMemory} (hm : S.Holds m f) :
    ∃ m' f', (forM segments Segment.load).run m = .ok () m' ∧ S.Holds m' f' ∧
      IsImage segments f f' := by
  induction segments generalizing m f with
  | nil => exact ⟨m, f, rfl, hm, ⟨fun _ h => (List.not_mem_nil h).elim, fun _ _ => rfl⟩⟩
  | cons seg segments ih =>
    rw [List.forall_mem_cons] at hwf hcovers
    obtain ⟨hfirst, hrest⟩ := List.pairwise_cons.mp hdisjoint
    obtain ⟨m₁, hload, hm₁⟩ := hwf.1.run_load S hcovers.1 hm
    obtain ⟨m', f', hloads, hm', himage⟩ := ih hwf.2 hrest hcovers.2 hm₁
    refine ⟨m', f', by rw [List.forM_cons, run_seq_ok hload, hloads], hm', ?_, ?_⟩
    · rintro seg' hmem x hx
      rcases List.mem_cons.mp hmem with rfl | hmem
      · -- the other segments leave the first one alone
        rw [himage.outside x fun other hother => hfirst other hother x hx,
          Segment.put_of_contains hwf.1 f hx]
      · exact himage.inside seg' hmem x hx
    · intro x hx
      rw [List.forall_mem_cons] at hx
      rw [himage.outside x hx.2, Segment.put_of_not_contains hwf.1 f hx.1]

/-! ### The image in memory -/

/-- The byte that a block read of length one brings, if it does not raise. -/
def readByte {μ : Type} [BlockMemory μ] (m : μ) (x : Addr) : Option Byte :=
  match (BlockMemory.readBlock m x).run [0#8] with
  | .ok _ data => data.head?
  | .error _ _ => none

namespace FlatStore

variable {μ : Type} [BlockMemory μ] (S : FlatStore μ) {m m' : μ} {f f' : FlatMemory} {x : Addr}

/-- What can be read is what the flat memory holds, or zero. -/
theorem readByte_of_readable (h : S.Holds m f) (hreadable : S.Readable f x) :
    readByte m x = some ((f x).getD 0#8) := by
  rw [readByte, S.readBlock h hreadable]
  rfl

theorem readByte_of_not_readable (h : S.Holds m f) (hnot : ¬ S.Readable f x) :
    readByte m x = none := by
  obtain ⟨e, d, hraise⟩ := S.readBlock_of_not_readable h hnot 0#8
  rw [readByte, hraise]

variable {segments : List Segment}

/-- A loaded byte is read back. -/
theorem readByte_of_contains (hm' : S.Holds m' f') (himage : IsImage segments f f')
    {seg : Segment} (hseg : seg ∈ segments) (hwf : seg.WellFormed)
    (hcovers : S.Covers seg.p_vaddr seg.p_memsz.toNat) {k : ℕ} (hk : k < seg.p_memsz.toNat) :
    readByte m' (seg.p_vaddr + BitVec.ofNat 32 k) = some (seg.byte k) := by
  have hspace := hwf.space
  have hx : (seg.p_vaddr + BitVec.ofNat 32 k).toNat = seg.p_vaddr.toNat + k := by
    rw [BitVec.toNat_add, BitVec.toNat_ofNat]
    omega
  have hcontains : seg.Contains (seg.p_vaddr + BitVec.ofNat 32 k) := by
    rw [Segment.Contains]
    omega
  have hbyte := himage.inside seg hseg _ hcontains
  rw [hx, Nat.add_sub_cancel_left] at hbyte
  have hin : InRange seg.p_vaddr seg.p_memsz.toNat (seg.p_vaddr + BitVec.ofNat 32 k) :=
    (FlatMemory.inRange_iff hspace _).mpr hcontains
  have hwritten : f' (seg.p_vaddr + BitVec.ofNat 32 k) ≠ none := by
    rw [hbyte]
    exact Option.some_ne_none _
  have hreadable := S.readable_of_covers hcovers hin hwritten
  rw [S.readByte_of_readable hm' hreadable, hbyte, Option.getD_some]

/-- Outside of the segments, nothing changes but what may be read. -/
theorem readByte_of_not_contains (hm : S.Holds m f) (hm' : S.Holds m' f')
    (himage : IsImage segments f f') (hx : ∀ seg ∈ segments, ¬ seg.Contains x) :
    readByte m' x = readByte m x ∨ ¬ S.Readable f x ∧ S.Readable f' x ∧
      readByte m x = none ∧ readByte m' x = some 0#8 := by
  have hle : ∀ y, f y ≠ none → f' y ≠ none := by
    intro y hy
    by_cases hcontained : ∃ seg ∈ segments, seg.Contains y
    · obtain ⟨seg, hseg, hcontains⟩ := hcontained
      rw [himage.inside seg hseg y hcontains]
      exact Option.some_ne_none _
    · push Not at hcontained
      rwa [himage.outside y hcontained]
  by_cases hreadable : S.Readable f x
  · left
    rw [S.readByte_of_readable hm hreadable,
      S.readByte_of_readable hm' (S.readable_mono hle hreadable), himage.outside x hx]
  · by_cases hreadable' : S.Readable f' x
    · refine .inr ⟨hreadable, hreadable', S.readByte_of_not_readable hm hreadable, ?_⟩
      rw [S.readByte_of_readable hm' hreadable', himage.outside x hx,
        S.eq_none_of_readable hreadable hreadable', Option.getD_none]
    · left
      rw [S.readByte_of_not_readable hm hreadable, S.readByte_of_not_readable hm' hreadable']

end FlatStore

end Prot
