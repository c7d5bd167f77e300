import Prot.ElfLoader

/-!
# The image of a file in either memory

For a file with well-formed headers whose segments do not overlap, both memories come to
hold the image of the file, whatever they held before, and keep the rest. There is one
exception: a paged memory with no page bits, which its constructor accepts, has no way to
find the page of an address, and no byte can be written to it.

## Main results

* `FlatStore.exists_loaded`: loading into a memory that holds a flat map
* `Implementation.loads_iff`: loading into any of the memories
-/

namespace Prot

open Stateful

/-! ### Memories that hold a flat map -/

/-- A memory that holds a flat map loads segments that it covers and that do not overlap.
Their bytes can be read then; every other byte is unchanged, or it could not be read before
and is zero. -/
theorem FlatStore.exists_loaded {μ : Type} [BlockMemory μ] (S : FlatStore μ)
    {segments : List Segment} (hwf : ∀ seg ∈ segments, seg.WellFormed)
    (hdisjoint : segments.Pairwise Segment.Disjoint)
    (hcovers : ∀ seg ∈ segments, S.Covers seg.p_vaddr seg.p_memsz.toNat) {m : μ}
    {f : FlatMemory} (hm : S.Holds m f) :
    ∃ m' f', (forM segments Segment.load).run m = .ok () m' ∧
      (∀ seg ∈ segments, ∀ k < seg.p_memsz.toNat,
        readByte m' (seg.p_vaddr + BitVec.ofNat 32 k) = some (seg.byte k)) ∧
      ∀ x, (∀ seg ∈ segments, ¬ seg.Contains x) → readByte m' x = readByte m x ∨
        (¬ S.Readable f x ∧ S.Readable f' x) ∧ readByte m x = none ∧
          readByte m' x = some 0#8 := by
  obtain ⟨m', f', hrun, hm', himage⟩ := exists_holds_forM_load S hwf hdisjoint hcovers hm
  refine ⟨m', f', hrun, fun seg hseg k hk =>
    S.readByte_of_contains hm' himage hseg (hwf seg hseg) (hcovers seg hseg) hk, fun x hx => ?_⟩
  rcases S.readByte_of_not_contains hm hm' himage hx with hsame | ⟨hnot, hnow, hread, hread'⟩
  · exact .inl hsame
  · exact .inr ⟨⟨hnot, hnow⟩, hread, hread'⟩

/-- Every state of plain memory holds a flat map. -/
theorem PlainMemory.represents_byteAt {m_start : Addr} {size : ℕ} (m : PlainMemory m_start size) :
    m.Represents fun x => some (m.byteAt x) :=
  fun _ hle _ => (if_pos hle).symm

namespace PagedMem

variable {c : PagedMemConfig} {m : PagedMem c}

/-- So does every state of paged memory that has no more pages than it should. -/
theorem represents_storage (hm : ∀ page, c.numPages ≤ page → m.m_storage page = none) :
    m.Represents fun x => (m.m_storage (x.toNat / c.bytes)).map fun data =>
      data (x.toNat % c.bytes) where
  absent x h := by rw [h, Option.map_none]
  present page data h := by
    have hlt : page < c.numPages := by
      by_contra hge
      rw [hm page (by omega)] at h
      cases h
    obtain ⟨y, hy⟩ := PagedMemConfig.exists_div_eq hlt
    refine ⟨y, hy, ?_⟩
    simp only [hy, h, Option.map_some]
    exact Option.some_ne_none _
  byte x data h := by rw [h, Option.map_some, Option.getD_some]

/-! ### Paged memory without page bits -/

/-- Nothing but the empty block can be written. -/
theorem exists_run_writeBlock_error (hpages : c.m_pageBits = 0) {src : List Byte}
    (hsrc : src ≠ []) (hlength : src.length < 2 ^ 64) (addr : Addr) (m : PagedMem c) :
    ∃ e, (BlockMemory.writeBlock src addr).run m = .error e m := by
  have hsize : BitVec.ofNat 64 src.length ≠ 0#64 := by
    intro hzero
    have htoNat := congrArg BitVec.toNat hzero
    rw [BitVec.toNat_ofNat, Nat.mod_eq_of_lt hlength] at htoNat
    exact hsrc (List.eq_nil_of_length_eq_zero htoNat)
  have hshift : 32 ≤ c.m_offsetBits := by rw [PagedMemConfig.m_offsetBits, hpages]
  change ∃ e, (pageWalk c (writePiece src addr) addr (BitVec.ofNat 64 src.length)).run m = _
  rw [pageWalk, if_neg hsize, if_pos hshift]
  split
  · exact ⟨.assertionFailed, rfl⟩
  · exact ⟨.undefinedBehaviour, rfl⟩

theorem run_writeBlock_nil (addr : Addr) (m : PagedMem c) :
    (BlockMemory.writeBlock [] addr).run m = .ok () m := by
  change (pageWalk c (writePiece [] addr) addr 0#64).run m = _
  rw [pageWalk_zero]
  rfl

end PagedMem

namespace Segment

variable {c : PagedMemConfig} {seg : Segment}

/-- A segment without bytes changes nothing. -/
theorem run_load_of_empty (hwf : seg.WellFormed) (hempty : seg.p_memsz = 0#32) (m : PagedMem c) :
    seg.load.run m = .ok () m := by
  have hle := hwf.filesz_le
  rw [hempty] at hle
  have hdata : seg.data = [] :=
    List.eq_nil_of_length_eq_zero (by rw [seg.length_data]; exact Nat.le_zero.mp hle)
  rw [load, hwf.count_eq, hempty, hdata, run_seq_ok (PagedMem.run_writeBlock_nil _ m)]
  simp [BlockMemory.fillBlock]

/-- A segment with bytes cannot be loaded without page bits. -/
theorem exists_run_load_error (hpages : c.m_pageBits = 0) (hwf : seg.WellFormed)
    (hmemsz : seg.p_memsz ≠ 0#32) (m : PagedMem c) : ∃ e m', seg.load.run m = .error e m' := by
  have hlt := seg.p_filesz.isLt
  by_cases hdata : seg.data = []
  · have hpos : 0 < seg.p_memsz.toNat := by
      by_contra hzero
      exact hmemsz (BitVec.eq_of_toNat_eq (by simpa using hzero))
    have hfilesz : seg.p_filesz.toNat = 0 := by rw [← seg.length_data, hdata, List.length_nil]
    obtain ⟨n, hn⟩ : ∃ n, seg.p_memsz.toNat - seg.p_filesz.toNat = n + 1 :=
      ⟨seg.p_memsz.toNat - 1, by omega⟩
    rw [load, hwf.count_eq, hn, hdata, run_seq_ok (PagedMem.run_writeBlock_nil _ m),
      BlockMemory.fillBlock]
    refine exists_run_forM_error (List.mem_range.mpr (Nat.succ_pos n)) (fun m => ?_) m
    obtain ⟨e, hraise⟩ := PagedMem.exists_run_writeBlock_error hpages (List.cons_ne_nil 0#8 [])
      (by decide) _ m
    exact ⟨e, m, hraise⟩
  · obtain ⟨e, hraise⟩ := PagedMem.exists_run_writeBlock_error hpages hdata
      (by rw [seg.length_data]; omega) (seg.get_virtual_address.setWidth 32) m
    exact ⟨e, m, by rw [load, run_seq_error hraise]⟩

end Segment

/-! ### Either memory -/

/-- The headers are well formed, and the segments do not overlap. -/
structure ElfLoader.WellFormed (loader : ElfLoader) : Prop where
  segment : ∀ seg ∈ loader.loads, seg.WellFormed
  disjoint : loader.loads.Pairwise Segment.Disjoint

namespace Implementation

/-- A plain memory covers all the segments. -/
def CoversSegments (segments : List Segment) : Implementation → Prop
  | .plain m_start size =>
    ∀ seg ∈ segments, m_start.toNat ≤ seg.p_vaddr.toNat ∧
      seg.p_vaddr.toNat + seg.p_memsz.toNat ≤ m_start.toNat + size
  | .paged _ => True

/-- The vector of pages has `numPages` elements. -/
def Valid : (M : Implementation) → M.State → Prop
  | .plain _ _, _ => True
  | .paged c, m => ∀ page, c.numPages ≤ page → m.m_storage page = none

/-- A paged memory has page bits. -/
def HasPages : Implementation → Prop
  | .plain _ _ => True
  | .paged c => c.m_pageBits ≠ 0

/-- Memory holds the image of the file, and outside of it what it held before. A byte that
could not be read before may be a zero now, on a page that was allocated meanwhile. -/
structure Loaded (M : Implementation) (loader : ElfLoader) (m m' : M.State) : Prop where
  inside : ∀ seg ∈ loader.loads, ∀ k < seg.p_memsz.toNat,
    readByte m' (seg.p_vaddr + BitVec.ofNat 32 k) = some (seg.byte k)
  outside : ∀ x, (∀ seg ∈ loader.loads, ¬ seg.Contains x) → readByte m' x = readByte m x ∨
    (∃ c, M = .paged c) ∧ readByte m x = none ∧ readByte m' x = some 0#8

/-- Loading returns, and leaves the image in memory. -/
def Loads (M : Implementation) (loader : ElfLoader) (m : M.State) : Prop :=
  ∃ m', loader.loadMemory.run m = .ok () m' ∧ M.Loaded loader m m'

variable {M : Implementation} {loader : ElfLoader}

/-- A memory with pages loads a file whose segments it covers. What can be read after that is
fixed by the mapping. -/
theorem loads_of_hasPages (hwf : loader.WellFormed) (hcovers : M.CoversSegments loader.loads)
    {m : M.State} (hm : M.Valid m) (hpages : M.HasPages) : M.Loads loader m := by
  cases M with
  | plain m_start size =>
    obtain ⟨m', f', hrun, hinside, houtside⟩ :=
      (PlainMemory.flatStore m_start size).exists_loaded hwf.segment hwf.disjoint
        (fun seg hseg => ⟨(hcovers seg hseg).1, (hcovers seg hseg).2, (hwf.segment seg hseg).space⟩)
        (PlainMemory.represents_byteAt m)
    refine ⟨m', hrun, hinside, fun x hx => ?_⟩
    rcases houtside x hx with hsame | ⟨⟨hnot, hnow⟩, -⟩
    · exact .inl hsame
    · exact absurd hnow hnot
  | paged c =>
    obtain ⟨m', f', hrun, hinside, houtside⟩ :=
      (PagedMem.flatStore (Nat.one_le_iff_ne_zero.mpr hpages)).exists_loaded hwf.segment
        hwf.disjoint (fun seg hseg => (hwf.segment seg hseg).space)
        (PagedMem.represents_storage hm)
    refine ⟨m', hrun, hinside, fun x hx => ?_⟩
    rcases houtside x hx with hsame | ⟨-, hfresh⟩
    · exact .inl hsame
    · exact .inr ⟨⟨c, rfl⟩, hfresh⟩

/-- Without page bits, only a file without a byte to load is loaded. -/
theorem loads_iff_of_not_hasPages (hwf : loader.WellFormed) (m : M.State)
    (hpages : ¬ M.HasPages) :
    M.Loads loader m ↔ ∀ seg ∈ loader.loads, seg.p_memsz = 0#32 := by
  cases M with
  | plain m_start size => exact absurd trivial hpages
  | paged c =>
    have hzero : c.m_pageBits = 0 := not_not.mp hpages
    constructor
    · rintro ⟨m', hrun, -⟩ seg hseg
      by_contra hmemsz
      obtain ⟨e, m'', hraise⟩ := exists_run_forM_error (f := Segment.load (μ := PagedMem c)) hseg
        (Segment.exists_run_load_error hzero (hwf.segment seg hseg) hmemsz) m
      have hraise : loader.loadMemory.run m = .error e m'' := hraise
      rw [hrun] at hraise
      cases hraise
    · intro hempty
      have hrun : (forM loader.loads (Segment.load (μ := PagedMem c))).run m = .ok () m :=
        run_forM_eq_self fun seg hseg =>
          Segment.run_load_of_empty (hwf.segment seg hseg) (hempty seg hseg) m
      refine ⟨m, hrun, fun seg hseg k hk => ?_, fun x _ => .inl rfl⟩
      rw [hempty seg hseg] at hk
      exact absurd hk (Nat.not_lt_zero k)

/-- Any memory comes to hold the image of the file, whatever it held before, unless it is
a paged memory without page bits and there is something to load. -/
theorem loads_iff (hwf : loader.WellFormed) (hcovers : M.CoversSegments loader.loads)
    {m : M.State} (hm : M.Valid m) :
    M.Loads loader m ↔ M.HasPages ∨ ∀ seg ∈ loader.loads, seg.p_memsz = 0#32 := by
  by_cases hpages : M.HasPages
  · exact iff_of_true (loads_of_hasPages hwf hcovers hm hpages) (.inl hpages)
  · rw [loads_iff_of_not_hasPages hwf m hpages, or_iff_right hpages]

/-- A file with a segment of two bytes, of which the file has one. -/
def smallElf : ElfLoader where
  m_elf := {
    e_type := Elf.ET_EXEC
    ei_data := Elf.ELFDATA2LSB
    ei_class := Elf.ELFCLASS32
    e_machine := Elf.EM_RISCV
    segments := [⟨PT_LOAD, 0x1000#32, 1#32, 2#32, [0x13#8], rfl⟩] }
  valid := rfl

theorem wellFormed_smallElf : smallElf.WellFormed where
  segment := by
    intro seg hseg
    obtain rfl := List.mem_singleton.mp hseg
    exact ⟨by decide, by decide⟩
  disjoint := List.pairwise_singleton ..

/-- With one page bit, the segment is loaded. -/
theorem loads_smallElf : Implementation.Loads (.paged ⟨1, by decide⟩) smallElf
    ({} : PagedMem ⟨1, by decide⟩) :=
  (loads_iff (M := .paged ⟨1, by decide⟩) wellFormed_smallElf trivial fun _ _ => rfl).mpr
    (.inl Nat.one_ne_zero)

/-- With none, it is not. -/
theorem not_loads_smallElf : ¬ Implementation.Loads (.paged ⟨0, by decide⟩) smallElf
    ({} : PagedMem ⟨0, by decide⟩) := by
  rintro ⟨m', hrun, -⟩
  obtain ⟨e, m'', hraise⟩ := exists_run_forM_error
    (f := Segment.load (μ := PagedMem ⟨0, by decide⟩)) List.mem_cons_self
    (Segment.exists_run_load_error rfl (wellFormed_smallElf.segment _ List.mem_cons_self)
      (by decide)) ({} : PagedMem ⟨0, by decide⟩)
  cases hrun.symm.trans hraise

end Implementation

end Prot
