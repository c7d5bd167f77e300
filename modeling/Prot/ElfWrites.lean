import Prot.ElfLoader

/-!
# What a file makes the loader write

`ElfLoader::validate` does not look at the program headers. The count of the fill is the
difference of two of their fields, in 64 bits, and the address of each byte is narrowed
to 32 bits. So a header with more bytes in the file than in memory asks for almost `2 ^ 64`
zeros, and a fill that runs past the top of the address space goes on at the bottom. The
bytes of the file are one block, whose address is narrowed once.

The writes that are issued are recorded on their way to the memory, which may be any.

## Main results

* `Segment.byteWrites_calls`: the addresses that a segment makes the loader write
* `ElfLoader.isBounded_iff`: the files that do not make it write out of their segments
-/

namespace Prot

open Stateful

/-! ### Recorded writes -/

/-- A call of `writeBlock`. -/
abbrev WriteCall := List Byte × Addr

/-- A memory with the calls of `writeBlock` that were made so far. -/
structure Recorded (μ : Type) where
  memory : μ
  calls : List WriteCall := []

section Record

variable {μ : Type} [BlockMemory μ]

/-- The call is passed on. -/
instance : BlockMemory (Recorded μ) where
  writeBlock src addr := fun r =>
    match (BlockMemory.writeBlock src addr).run r.memory with
    | .ok _ m => .ok () ⟨m, r.calls ++ [(src, addr)]⟩
    | .error e m => .error e ⟨m, r.calls ++ [(src, addr)]⟩
  readBlock r addr := BlockMemory.readBlock r.memory addr

/-- The addresses of the bytes that are written, one after the other. A block goes on
upwards from its address: no memory takes it around the top of the address space, so the sum
is not narrowed here. -/
def byteWrites (calls : List WriteCall) : List ℕ :=
  calls.flatMap fun call => (List.range call.1.length).map fun i => call.2.toNat + i

/-- A write under the record succeeds or fails as without, and it is recorded if it succeeds. -/
theorem run_writeBlock_recorded (src : List Byte) (addr : Addr) (r : Recorded μ) :
    (BlockMemory.writeBlock src addr).run r =
      match (BlockMemory.writeBlock src addr).run r.memory with
      | .ok _ m => .ok () ⟨m, r.calls ++ [(src, addr)]⟩
      | .error e m => .error e ⟨m, r.calls ++ [(src, addr)]⟩ := rfl

/-- Recording does not change what is done. -/
theorem refines_writeBlock (src : List Byte) (addr : Addr) :
    Refines Recorded.memory (fun _ => True)
      (BlockMemory.writeBlock src addr : EStateM Exn (Recorded μ) Unit)
      (BlockMemory.writeBlock src addr) := by
  intro r _
  rw [run_writeBlock_recorded]
  cases (BlockMemory.writeBlock src addr).run r.memory with
  | ok _ m => exact .returned rfl trivial
  | error e m => exact .raised rfl

/-- Loading a segment under the record does the same to memory. -/
theorem Segment.refines_load (seg : Segment) :
    Refines Recorded.memory (fun _ => True) (seg.load : EStateM Exn (Recorded μ) Unit) seg.load :=
  (refines_writeBlock _ _).seq (Refines.forM _ fun _ _ => refines_writeBlock _ _)

/-- Loading a file under the record does the same to memory. -/
theorem ElfLoader.refines_loadMemory (loader : ElfLoader) :
    Refines Recorded.memory (fun _ => True) (loader.loadMemory : EStateM Exn (Recorded μ) Unit)
      loader.loadMemory :=
  Refines.forM _ fun seg _ => seg.refines_load

/-! ### The calls for a segment -/

variable {r r' : Recorded μ}

/-- A write is recorded after those before it. -/
theorem calls_writeBlock {src : List Byte} {addr : Addr}
    (h : (BlockMemory.writeBlock src addr).run r = .ok () r') :
    r'.calls = r.calls ++ [(src, addr)] := by
  rw [run_writeBlock_recorded] at h
  cases hwrite : (BlockMemory.writeBlock src addr).run r.memory with
  | ok _ m =>
    rw [hwrite] at h
    cases h
    rfl
  | error e m =>
    rw [hwrite] at h
    cases h

/-- The writes of a loop are recorded in its order. -/
theorem calls_forM_writeBlock {α : Type} {src : α → List Byte} {addr : α → Addr} {l : List α}
    (h : (forM l fun a => BlockMemory.writeBlock (src a) (addr a)).run r = .ok () r') :
    r'.calls = r.calls ++ l.map fun a => (src a, addr a) := by
  induction l generalizing r with
  | nil =>
    cases h
    rw [List.map_nil, List.append_nil]
  | cons a l ih =>
    rw [List.forM_cons] at h
    obtain ⟨_, r₁, hfirst, hrest⟩ := run_seq_eq_ok.mp h
    rw [ih hrest, calls_writeBlock hfirst, List.map_cons, List.append_assoc, List.singleton_append]

/-- The number of zeros that are asked for. -/
def Segment.count (seg : Segment) : ℕ := (seg.get_memory_size - seg.get_file_size).toNat

/-- The calls that loading the segment makes if it returns. -/
def Segment.calls (seg : Segment) : List WriteCall :=
  (seg.data, seg.p_vaddr) :: (List.range seg.count).map fun i =>
    ([0#8], seg.p_vaddr + BitVec.ofNat 32 seg.p_filesz.toNat + BitVec.ofNat 32 i)

/-- A segment that is loaded has made its calls. -/
theorem Segment.calls_load {seg : Segment} (h : seg.load.run r = .ok () r') :
    r'.calls = r.calls ++ seg.calls := by
  rw [Segment.load, Segment.address_eq, Segment.fill_address_eq] at h
  obtain ⟨_, r₁, hwrite, hfill⟩ := run_seq_eq_ok.mp h
  rw [calls_forM_writeBlock hfill, calls_writeBlock hwrite, List.append_assoc,
    List.singleton_append]
  rfl

end Record

namespace Segment

variable {seg : Segment}

/-- The bytes of the file go upwards from the address of the segment; the zeros follow them,
each at an address that is narrowed. -/
theorem byteWrites_calls (seg : Segment) :
    byteWrites seg.calls =
      ((List.range seg.p_filesz.toNat).map fun i => seg.p_vaddr.toNat + i) ++
        (List.range seg.count).map fun i =>
          (seg.p_vaddr.toNat + seg.p_filesz.toNat + i) % 2 ^ 32 := by
  rw [byteWrites, calls, List.flatMap_cons, List.flatMap_map, seg.length_data]
  congr 1
  simp [← List.map_eq_flatMap]

/-- How many bytes are written for a segment. -/
theorem length_byteWrites_calls (seg : Segment) :
    (byteWrites seg.calls).length = seg.p_filesz.toNat + seg.count := by
  rw [byteWrites_calls, List.length_append, List.length_map, List.length_map, List.length_range,
    List.length_range]

/-- Where the bytes are written: the block goes on past the end of the address space, the fill
starts over. -/
theorem mem_byteWrites_calls {a : ℕ} :
    a ∈ byteWrites seg.calls ↔
      (∃ i < seg.p_filesz.toNat, seg.p_vaddr.toNat + i = a) ∨
        ∃ i < seg.count, (seg.p_vaddr.toNat + seg.p_filesz.toNat + i) % 2 ^ 32 = a := by
  simp only [byteWrites_calls, List.mem_append, List.mem_map, List.mem_range]

/-- At most as many writes as the larger of the sizes, all of them in the range of the
larger size. -/
structure Bounds (seg : Segment) (calls : List WriteCall) : Prop where
  count : (byteWrites calls).length ≤ max seg.p_filesz.toNat seg.p_memsz.toNat
  range : ∀ a ∈ byteWrites calls, seg.p_vaddr.toNat ≤ a ∧
    a < seg.p_vaddr.toNat + max seg.p_filesz.toNat seg.p_memsz.toNat

/-- The file has no more bytes than the segment, and if it has fewer, the zeros that follow
them end within the address space. -/
structure FillsWithin (seg : Segment) : Prop where
  filesz_le : seg.p_filesz.toNat ≤ seg.p_memsz.toNat
  fill : seg.p_filesz = seg.p_memsz ∨ seg.p_vaddr.toNat + seg.p_memsz.toNat ≤ 2 ^ 32

/-- The count of the fill, computed in 64 bits. -/
theorem count_toNat (seg : Segment) :
    seg.count = (2 ^ 64 - seg.p_filesz.toNat + seg.p_memsz.toNat) % 2 ^ 64 := by
  rw [count, get_memory_size, get_file_size, BitVec.toNat_sub,
    BitVec.toNat_setWidth_of_le (by decide), BitVec.toNat_setWidth_of_le (by decide)]

/-- With no more bytes in the file than in the segment, the count does not wrap around. -/
theorem filesz_add_count (hle : seg.p_filesz.toNat ≤ seg.p_memsz.toNat) :
    seg.p_filesz.toNat + seg.count = seg.p_memsz.toNat := by
  have hfilesz := seg.p_filesz.isLt
  have hmemsz := seg.p_memsz.isLt
  have hcount := seg.count_toNat
  omega

/-- Otherwise almost `2 ^ 64` zeros are asked for, which is too many. -/
theorem Bounds.filesz_le (h : seg.Bounds seg.calls) :
    seg.p_filesz.toNat ≤ seg.p_memsz.toNat := by
  have hfilesz := seg.p_filesz.isLt
  have hmemsz := seg.p_memsz.isLt
  have hcount := seg.count_toNat
  have hlength := h.count
  rw [length_byteWrites_calls] at hlength
  omega

/-- A fill that runs past the top of the address space ends below the segment. -/
theorem Bounds.fill (h : seg.Bounds seg.calls) :
    seg.p_filesz = seg.p_memsz ∨ seg.p_vaddr.toNat + seg.p_memsz.toNat ≤ 2 ^ 32 := by
  have hmemsz := seg.p_memsz.isLt
  have hvaddr := seg.p_vaddr.isLt
  have hcount := filesz_add_count h.filesz_le
  rw [← BitVec.toNat_inj]
  by_contra hout
  have hlast : (seg.p_vaddr.toNat + seg.p_filesz.toNat + (seg.count - 1)) % 2 ^ 32 ∈
      byteWrites seg.calls :=
    mem_byteWrites_calls.mpr (.inr ⟨seg.count - 1, by omega, rfl⟩)
  have hbegin := (h.range _ hlast).1
  omega

/-- A segment that fills within the address space is bounded. -/
theorem FillsWithin.bounds (h : seg.FillsWithin) : seg.Bounds seg.calls := by
  have hcount := filesz_add_count h.filesz_le
  have hfill := h.fill
  rw [← BitVec.toNat_inj] at hfill
  constructor
  · rw [length_byteWrites_calls, hcount]
    exact le_max_right _ _
  · intro a ha
    rcases mem_byteWrites_calls.mp ha with ⟨i, hi, rfl⟩ | ⟨i, hi, rfl⟩ <;> omega

/-- What the loader writes for a segment stays within its bounds exactly if its fill does. -/
theorem bounds_calls_iff : seg.Bounds seg.calls ↔ seg.FillsWithin :=
  ⟨fun h => ⟨h.filesz_le, h.fill⟩, FillsWithin.bounds⟩

end Segment

/-! ### Files that stay within their segments -/

namespace ElfLoader

variable {loader : ElfLoader}

/-- Loading into `m` raises, or it returns after writes for each segment in its turn that
stay within its bounds. -/
def BoundedIn {μ : Type} [BlockMemory μ] (loader : ElfLoader) (m : μ) : Prop :=
  (∃ e last, loader.loadMemory.run (⟨m, []⟩ : Recorded μ) = .error e last) ∨
    (∃ last, loader.loadMemory.run (⟨m, []⟩ : Recorded μ) = .ok () last) ∧
      ∀ before seg after, loader.loads = before ++ seg :: after →
        ∃ (r r' : Recorded μ) (calls : List WriteCall),
          (forM before Segment.load).run ⟨m, []⟩ = .ok () r ∧ seg.load.run r = .ok () r' ∧
            r'.calls = r.calls ++ calls ∧ seg.Bounds calls

/-- Whatever the memory. -/
def IsBounded (loader : ElfLoader) : Prop :=
  ∀ (μ : Type) [BlockMemory μ] (m : μ), loader.BoundedIn m

/-- A file of such segments is bounded in every memory. -/
theorem boundedIn_of_fillsWithin (h : ∀ seg ∈ loader.loads, seg.FillsWithin) {μ : Type}
    [BlockMemory μ] (m : μ) : loader.BoundedIn m := by
  cases hrun : loader.loadMemory.run (⟨m, []⟩ : Recorded μ) with
  | error e last => exact .inl ⟨e, last, hrun⟩
  | ok _ last =>
    refine .inr ⟨⟨last, hrun⟩, fun before seg after hloads => ?_⟩
    rw [loadMemory, hloads, List.forM_append, List.forM_cons] at hrun
    obtain ⟨_, r, hbefore, hrun⟩ := run_seq_eq_ok.mp hrun
    obtain ⟨_, r', hload, -⟩ := run_seq_eq_ok.mp hrun
    have hmem : seg ∈ loader.loads := hloads ▸ List.mem_append_right _ List.mem_cons_self
    exact ⟨r, r', seg.calls, hbefore, hload, Segment.calls_load hload,
      Segment.bounds_calls_iff.mpr (h seg hmem)⟩

/-- A memory that takes any write of a file of 32 bits. -/
abbrev Large : Type := PlainMemory 0#32 0x200000000

/-- The large memory accepts every block up to the size of the address space. -/
theorem exists_run_writeBlock_large {src : List Byte} (hlength : src.length ≤ 2 ^ 32)
    (addr : Addr) (m : Large) :
    ∃ m', (BlockMemory.writeBlock src addr).run m = .ok () m' := by
  have haddr := addr.isLt
  have htranslate : PlainMemory.translate 0#32 0x200000000 src.length addr = .ok addr.toNat :=
    PlainMemory.translate_eq_ok.mpr ⟨Nat.zero_add _, by omega⟩
  refine ⟨{ m_data := PlainMemory.storeBytes m.m_data addr.toNat src }, ?_⟩
  change (PlainMemory.writeBlock src addr).run m = _
  rw [PlainMemory.writeBlock, htranslate, run_seq_ok (run_ofExcept_ok _ m)]
  rfl

/-- The large memory loads every file. -/
theorem exists_run_loadMemory_large (loader : ElfLoader) (m : Large) :
    ∃ m', loader.loadMemory.run m = .ok () m' := by
  refine exists_run_forM_ok (fun seg _ m => ?_) m
  have hfilesz := seg.p_filesz.isLt
  have hlength : seg.data.length ≤ 2 ^ 32 := by
    rw [seg.length_data]
    omega
  obtain ⟨m₁, hwrite⟩ :=
    exists_run_writeBlock_large hlength (seg.get_virtual_address.setWidth 32) m
  rw [Segment.load, run_seq_ok hwrite]
  have hone : [0#8].length ≤ 2 ^ 32 := by decide
  exact exists_run_forM_ok (fun i _ m => exists_run_writeBlock_large hone _ m) m₁

/-- A segment that goes out of its bounds does so in a memory that is large enough. -/
theorem fillsWithin_of_boundedIn_large {m : Large} (h : loader.BoundedIn m) :
    ∀ seg ∈ loader.loads, seg.FillsWithin := by
  intro seg hseg
  obtain ⟨before, after, hloads⟩ := List.append_of_mem hseg
  obtain ⟨m', hplain⟩ := loader.exists_run_loadMemory_large m
  obtain ⟨last, hrun, -⟩ := loader.refines_loadMemory.ok (t := ⟨m, []⟩) trivial hplain
  rcases h with ⟨e, last', hraise⟩ | ⟨-, h⟩
  · cases hrun.symm.trans hraise
  obtain ⟨r, r', calls, -, hload, hcalls, hbounds⟩ := h before seg after hloads
  rw [Segment.calls_load hload] at hcalls
  rw [← List.append_cancel_left hcalls] at hbounds
  exact Segment.bounds_calls_iff.mp hbounds

/-- A file makes the loader write out of its segments, in some memory, unless no header has
more bytes in the file than in memory and every fill ends within the address space. -/
theorem isBounded_iff : loader.IsBounded ↔ ∀ seg ∈ loader.loads, seg.FillsWithin :=
  ⟨fun h => fillsWithin_of_boundedIn_large (h Large {}),
    fun h _ _ m => boundedIn_of_fillsWithin h m⟩

/-- A file with a segment of no bytes, of which the file has one. -/
def crookedElf : ElfLoader where
  m_elf := {
    e_type := Elf.ET_EXEC
    ei_data := Elf.ELFDATA2LSB
    ei_class := Elf.ELFCLASS32
    e_machine := Elf.EM_RISCV
    segments := [⟨PT_LOAD, 0#32, 1#32, 0#32, [0x73#8], rfl⟩] }
  valid := rfl

theorem not_boundedIn_crookedElf : ¬ crookedElf.BoundedIn ({} : Large) := by
  intro h
  have hfills := fillsWithin_of_boundedIn_large h
    ⟨PT_LOAD, 0#32, 1#32, 0#32, [0x73#8], rfl⟩ List.mem_cons_self
  exact absurd hfills.filesz_le (by decide)

end ElfLoader

end Prot
