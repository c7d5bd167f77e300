import Prot.BlockMemory
import Prot.Lib.Paging

/-!
# Paged memory

`PagedMem` keeps the guest's memory in pages of equal size, each of which is
allocated when something is first written to it. `pageWalk` cuts an access at the
page boundaries; reads and writes are the same walk with another operation.

The walk works out its last page from the end of the range modulo `2 ^ 32`, and the
assertion before it works in 64 bits. So a range that runs past the top of the
address space is not always rejected.
-/

namespace Prot

open Paging Stateful

/-! ### Configuration -/

/-- Page numbers have `m_pageBits` bits; the constructor rejects more than an address has. -/
structure PagedMemConfig where
  m_pageBits : ℕ
  valid : m_pageBits < 32

namespace PagedMemConfig

variable (c : PagedMemConfig)

/-- The bits that are left for the offset. -/
def m_offsetBits : ℕ := 32 - c.m_pageBits

/-- `PagedMemConfig::pageMask`. -/
def pageMask : Word := ((1#32 <<< c.m_pageBits) - 1#32) <<< c.m_offsetBits

/-- `PagedMemConfig::pageSize`, a shift of 32 bits. -/
def pageSize : Word := 1#32 <<< c.m_offsetBits

/-- `PagedMemConfig::offsetMask`. -/
def offsetMask : Word := c.pageSize - 1#32

/-- `PagedMemConfig::numPages`. -/
def numPages : ℕ := (1#32 <<< c.m_pageBits).toNat

/-- `PagedMemConfig::getOffset`: the place of an address in its page. -/
def getOffset (addr : Addr) : ℕ := (addr &&& c.offsetMask).toNat

/-- `PagedMemConfig::getPage`: the page of an address. -/
def getPage (addr : Addr) : ℕ := ((addr &&& c.pageMask) >>> c.m_offsetBits).toNat

/-- `PagedMemConfig::getAddr`, which asserts that there are such a page and offset. -/
def getAddr (page offset : ℕ) : Except Exn Addr :=
  if page < c.numPages ∧ offset ≤ c.offsetMask.toNat then
    pure (BitVec.ofNat 32 ((page <<< c.m_offsetBits) ||| offset))
  else throw .assertionFailed

/-! With at least one bit for the page number, a page is smaller than the address space,
and pages and offsets are quotients and remainders. -/

section Arithmetic

variable {c} (hpages : 1 ≤ c.m_pageBits)

/-- The number of bytes of a page. -/
abbrev bytes (c : PagedMemConfig) : ℕ := 2 ^ c.m_offsetBits

theorem bytes_pos (c : PagedMemConfig) : 0 < c.bytes := Nat.two_pow_pos _

include hpages

/-- With page bits, not all bits are offset. -/
theorem m_offsetBits_lt : c.m_offsetBits < 32 := by
  rw [m_offsetBits]
  omega

/-- With page bits, a page is smaller than the address space. -/
theorem bytes_lt : c.bytes < 2 ^ 32 := Nat.pow_lt_pow_right (by decide) (m_offsetBits_lt hpages)

/-- The shift does not overflow. -/
theorem toNat_pageSize : c.pageSize.toNat = c.bytes := by
  rw [pageSize, BitVec.toNat_shiftLeft, BitVec.toNat_ofNat, Nat.shiftLeft_eq]
  have hlt := bytes_lt hpages
  simp only [bytes] at hlt ⊢
  rw [Nat.one_mod_two_pow_eq_one.mpr (by decide), Nat.one_mul, Nat.mod_eq_of_lt hlt]

theorem offsetMask_eq : c.offsetMask = BitVec.ofNat 32 (2 ^ c.m_offsetBits - 1) :=
  Bits.one_shiftLeft_sub_one (m_offsetBits_lt hpages)

/-- The offset is a remainder. -/
theorem getOffset_eq (addr : Addr) : c.getOffset addr = addr.toNat % c.bytes := by
  have hlt := bytes_lt hpages
  simp only [bytes] at hlt ⊢
  rw [getOffset, offsetMask_eq hpages, BitVec.toNat_and, BitVec.toNat_ofNat,
    Nat.mod_eq_of_lt (by omega), Nat.and_two_pow_sub_one_eq_mod]

/-- The page is a quotient. -/
theorem getPage_eq (addr : Addr) : c.getPage addr = addr.toNat / c.bytes := by
  have hvalid := c.valid
  have hmask : (addr &&& c.pageMask) >>> c.m_offsetBits = addr >>> c.m_offsetBits := by
    refine BitVec.eq_of_getLsbD_eq fun i hi => ?_
    rw [BitVec.getLsbD_ushiftRight, BitVec.getLsbD_ushiftRight, BitVec.getLsbD_and, pageMask,
      BitVec.getLsbD_shiftLeft, Bits.one_shiftLeft_sub_one hvalid, Nat.add_sub_cancel_left,
      Bits.ofNat_two_pow_sub_one_getLsbD]
    by_cases hbit : c.m_offsetBits + i < 32
    · have hi' : i < c.m_pageBits := by
        rw [m_offsetBits] at hbit
        omega
      simp [hbit, hi', hi]
    · rw [BitVec.getLsbD_of_ge _ _ (by omega), Bool.false_and]
  rw [getPage, hmask, BitVec.toNat_ushiftRight, Nat.shiftRight_eq_div_pow]

omit hpages in
/-- There are as many pages as the page bits can tell apart. -/
theorem numPages_eq : c.numPages = 2 ^ c.m_pageBits := by
  have hlt : 2 ^ c.m_pageBits < 2 ^ 32 := Nat.pow_lt_pow_right (by decide) c.valid
  rw [numPages, BitVec.toNat_shiftLeft, BitVec.toNat_ofNat, Nat.shiftLeft_eq,
    Nat.one_mod_two_pow_eq_one.mpr (by decide), Nat.one_mul, Nat.mod_eq_of_lt hlt]

omit hpages in
/-- The pages fill the address space. -/
theorem numPages_mul_bytes : c.numPages * c.bytes = 2 ^ 32 := by
  have hvalid := c.valid
  rw [numPages_eq, ← Nat.pow_add, m_offsetBits, Nat.add_sub_cancel' hvalid.le]

omit hpages in
/-- Every address has a page. -/
theorem div_lt_numPages {x : ℕ} (hx : x < 2 ^ 32) : x / c.bytes < c.numPages := by
  refine Nat.div_lt_of_lt_mul ?_
  rwa [Nat.mul_comm, numPages_mul_bytes]

omit hpages in
/-- The page of a piece of the address space. -/
theorem page_lt {p : Piece} (hpos : 0 < p.size) (htop : p.start c.bytes + p.size ≤ 2 ^ 32) :
    p.page < c.numPages := by
  by_contra hge
  have hmul := Nat.mul_le_mul_right c.bytes (Nat.le_of_not_lt hge)
  rw [numPages_mul_bytes] at hmul
  rw [Piece.start] at htop
  omega

omit hpages in
/-- The start of a piece does not wrap around. -/
theorem toNat_start {p : Piece} (hpos : 0 < p.size) (htop : p.start c.bytes + p.size ≤ 2 ^ 32) :
    (BitVec.ofNat 32 (p.start c.bytes)).toNat = p.start c.bytes := by
  rw [BitVec.toNat_ofNat, Nat.mod_eq_of_lt (by omega)]

omit hpages in
/-- Every page has a first address. -/
theorem exists_div_eq {page : ℕ} (hpage : page < c.numPages) :
    ∃ x : Addr, x.toNat / c.bytes = page := by
  have hlt : page * c.bytes < 2 ^ 32 := by
    rw [← c.numPages_mul_bytes]
    exact Nat.mul_lt_mul_of_pos_right hpage c.bytes_pos
  refine ⟨BitVec.ofNat 32 (page * c.bytes), ?_⟩
  rw [BitVec.toNat_ofNat, Nat.mod_eq_of_lt hlt, Nat.mul_div_cancel _ c.bytes_pos]

/-- Page and offset, put together again. -/
theorem getAddr_eq {page offset : ℕ} (hpage : page < c.numPages) (hoffset : offset < c.bytes) :
    c.getAddr page offset = .ok (BitVec.ofNat 32 (page * c.bytes + offset)) := by
  have hlt := bytes_lt hpages
  have hmask : c.offsetMask.toNat = c.bytes - 1 := by
    rw [offsetMask_eq hpages, BitVec.toNat_ofNat, Nat.mod_eq_of_lt]
    exact Nat.lt_of_le_of_lt (Nat.sub_le ..) hlt
  rw [getAddr, if_pos ⟨hpage, by omega⟩, ← Nat.shiftLeft_add_eq_or_of_lt hoffset,
    Nat.shiftLeft_eq]
  rfl

end Arithmetic

end PagedMemConfig

/-! ### Walking over the pages -/

/-- `PagedMem::LocInfo`: the part of an access that lies on one page. -/
abbrev LocInfo := Piece

section Walk

variable {σ : Type} (c : PagedMemConfig) (op : LocInfo → EStateM Exn σ Unit)

/-- The loop of `pageWalk`. -/
def walkPages (addr : Addr) (firstPage : ℕ) : List ℕ → ℕ → EStateM Exn σ Unit
  | [], _ => pure ()
  | page :: pages, bytesLeft => do
    let offset := if page = firstPage then c.getOffset addr else 0
    let size := min (c.pageSize.toNat - offset) bytesLeft
    op { page, offset, size }
    walkPages addr firstPage pages (bytesLeft - size)

/-- `PagedMem::pageWalk`. -/
def pageWalk (addr : Addr) (size : SizeT) : EStateM Exn σ Unit :=
  -- the sum is one of 64 bits, and so is the check for an overflow
  if addr.setWidth 64 + size < addr.setWidth 64 then throw .assertionFailed
  else if size = 0#64 then pure ()
  -- with no page bits, `getPage` shifts 32 bits by 32
  else if 32 ≤ c.m_offsetBits then throw .undefinedBehaviour
  else
    let firstPage := c.getPage addr
    -- the argument of `getPage` has 32 bits
    let lastPage := c.getPage ((addr.setWidth 64 + size - 1#64).setWidth 32) + 1
    if lastPage < firstPage then throw .assertionFailed
    else walkPages c op addr firstPage (List.range' firstPage (lastPage - firstPage)) size.toNat

end Walk

section WalkRules

variable {σ : Type} {c : PagedMemConfig} {op : LocInfo → EStateM Exn σ Unit} {addr : Addr}
  {size : SizeT}

/-- Past the first page, every page is entered at its beginning. -/
theorem walkPages_range' (hpages : 1 ≤ c.m_pageBits) {firstPage page : ℕ} (hpage : firstPage < page)
    (n left : ℕ) :
    walkPages c op addr firstPage (List.range' page n) left =
      forM (cut c.bytes page 0 left n) op := by
  induction n generalizing page left with
  | zero => rfl
  | succ n ih =>
    rw [List.range'_succ, walkPages, cut, List.forM_cons, if_neg (Nat.ne_of_gt hpage),
      PagedMemConfig.toNat_pageSize hpages, ih (by omega)]

/-- The walk, read as an access piece by piece. -/
theorem pageWalk_eq (hpages : 1 ≤ c.m_pageBits) (hsize : size ≠ 0#64) :
    pageWalk c op addr size =
      let firstPage := addr.toNat / c.bytes
      let lastPage := (addr.toNat + size.toNat - 1) % 2 ^ 32 / c.bytes + 1
      if 2 ^ 64 ≤ addr.toNat + size.toNat ∨ lastPage < firstPage then throw .assertionFailed
      else forM (cut c.bytes firstPage (addr.toNat % c.bytes) size.toNat (lastPage - firstPage))
        op := by
  have haddr := addr.isLt
  have hpos : 0 < size.toNat := by
    by_contra h
    exact hsize (BitVec.eq_of_toNat_eq (by simpa using h))
  have hoverflow : addr.setWidth 64 + size < addr.setWidth 64 ↔
      2 ^ 64 ≤ addr.toNat + size.toNat := by
    have hlt := size.isLt
    rw [BitVec.lt_def, BitVec.toNat_add, BitVec.toNat_setWidth_of_le (by decide)]
    omega
  by_cases hover : 2 ^ 64 ≤ addr.toNat + size.toNat
  · rw [pageWalk, if_pos (hoverflow.mpr hover), if_pos (.inl hover)]
  · -- the last address, as the walk computes it
    have hlast : ((addr.setWidth 64 + size - 1#64).setWidth 32 : Addr).toNat =
        (addr.toNat + size.toNat - 1) % 2 ^ 32 := by
      have hsum : (addr.setWidth 64 + size).toNat = addr.toNat + size.toNat := by
        rw [BitVec.toNat_add, BitVec.toNat_setWidth_of_le (by decide)]
        omega
      rw [BitVec.toNat_setWidth, BitVec.toNat_sub_of_le, hsum]
      · rfl
      · rw [BitVec.le_def, hsum]
        change 1 ≤ _
        omega
    have hshift := PagedMemConfig.m_offsetBits_lt hpages
    rw [pageWalk, if_neg (mt hoverflow.mp hover), if_neg hsize, if_neg hshift.not_ge]
    simp only [PagedMemConfig.getPage_eq hpages, hlast, hover, false_or]
    split
    · rfl
    · next horder =>
      cases hn : (addr.toNat + size.toNat - 1) % 2 ^ 32 / c.bytes + 1 - addr.toNat / c.bytes with
      | zero => rfl
      | succ n =>
        rw [List.range'_succ, walkPages, cut, List.forM_cons, if_pos rfl,
          PagedMemConfig.toNat_pageSize hpages, PagedMemConfig.getOffset_eq hpages,
          walkPages_range' hpages (Nat.lt_succ_self _)]

/-- An empty access visits no page. -/
theorem pageWalk_zero : pageWalk c op addr 0#64 = pure () := by
  have hadd : addr.setWidth 64 + 0#64 = addr.setWidth 64 := BitVec.add_zero _
  rw [pageWalk, hadd, if_neg (BitVec.lt_irrefl _), if_pos rfl]

/-- A range within the address space is walked from its beginning to its end. -/
theorem exists_pageWalk_eq_of_fits (hpages : 1 ≤ c.m_pageBits) (addr : Addr) {size : SizeT}
    (hfits : addr.toNat + size.toNat ≤ 2 ^ 32) :
    ∃ pieces, Tiles c.bytes addr.toNat (addr.toNat + size.toNat) pieces ∧
      ∀ (σ : Type) (op : LocInfo → EStateM Exn σ Unit),
        pageWalk c op addr size = forM pieces op := by
  by_cases hsize : size = 0#64
  · subst hsize
    exact ⟨[], .nil _, fun σ op => pageWalk_zero⟩
  · have hpos : 0 < size.toNat := by
      by_contra h
      exact hsize (BitVec.eq_of_toNat_eq (by simpa using h))
    -- the last page is the page of the last address
    have hlast : (addr.toNat + size.toNat - 1) % 2 ^ 32 = addr.toNat + size.toNat - 1 :=
      Nat.mod_eq_of_lt (by omega)
    have hbytes := c.bytes_pos
    obtain ⟨n, hn⟩ : ∃ n, (addr.toNat + size.toNat - 1) / c.bytes = addr.toNat / c.bytes + n :=
      Nat.exists_eq_add_of_le (Nat.div_le_div_right (by omega))
    have haddr := Nat.div_add_mod' addr.toNat c.bytes
    have hend := Nat.div_add_mod' (addr.toNat + size.toNat - 1) c.bytes
    have hmod := Nat.mod_lt (addr.toNat + size.toNat - 1) hbytes
    rw [hn] at hend
    have htiles : Tiles c.bytes (addr.toNat / c.bytes * c.bytes + addr.toNat % c.bytes)
        (min (addr.toNat / c.bytes * c.bytes + addr.toNat % c.bytes + size.toNat)
          ((addr.toNat / c.bytes + n + 1) * c.bytes))
        (cut c.bytes (addr.toNat / c.bytes) (addr.toNat % c.bytes) size.toNat (n + 1)) :=
      tiles_cut (Nat.mod_lt addr.toNat hbytes) hpos (by omega)
    rw [haddr, Nat.succ_mul, Nat.min_eq_left (by omega)] at htiles
    refine ⟨_, htiles, fun σ op => ?_⟩
    rw [pageWalk_eq hpages hsize]
    simp only [hlast, hn]
    rw [if_neg (by omega), show addr.toNat / c.bytes + n + 1 - addr.toNat / c.bytes = n + 1 by
      omega]

end WalkRules

/-! ### The memory -/

/-- A page has no bytes until something is written to it, and `pageSize` bytes from then on. -/
abbrev Page := Option (ℕ → Byte)

/-- The vector of pages. -/
structure PagedMem (c : PagedMemConfig) where
  m_storage : ℕ → Page := fun _ => none

namespace PagedMem

variable {c : PagedMemConfig}

/-- `page.data()` after copying `src.subspan(from, size)` to the offset. -/
def copyIn (src : List Byte) (start offset size : ℕ) (data : ℕ → Byte) : ℕ → Byte := fun i =>
  if offset ≤ i ∧ i < offset + size then src.getD (start + (i - offset)) 0#8 else data i

/-- `dest` after copying `size` bytes from `data` to the place `at`. -/
def copyOut (data : ℕ → Byte) (offset size start : ℕ) (dest : List Byte) : List Byte :=
  dest.mapIdx fun i b => if start ≤ i ∧ i < start + size then data (offset + (i - start)) else b

/-- The operation of `writeBlock`. -/
def writePiece (src : List Byte) (start : Addr) (info : LocInfo) :
    EStateM Exn (PagedMem c) Unit := do
  if c.pageSize.toNat < info.offset + info.size then throw .assertionFailed
  let m ← get
  let addr ← Stateful.ofExcept (c.getAddr info.page info.offset)
  -- an empty page is resized, which fills it with zeros
  let data := (m.m_storage info.page).getD fun _ => 0#8
  -- `subspan` may not go past the end of the source
  if src.length < (addr - start).toNat + info.size then throw .undefinedBehaviour
  let data := copyIn src (addr - start).toNat info.offset info.size data
  set ({ m_storage := Function.update m.m_storage info.page (some data) } : PagedMem c)

/-- `PagedMem::writeBlock`. -/
def writeBlock (src : List Byte) (addr : Addr) : EStateM Exn (PagedMem c) Unit :=
  pageWalk c (writePiece src addr) addr (BitVec.ofNat 64 src.length)

/-- The operation of `readBlock`; the state is the destination. -/
def readPiece (m : PagedMem c) (start : Addr) (info : LocInfo) :
    EStateM Exn (List Byte) Unit := do
  if c.pageSize.toNat < info.offset + info.size then throw .assertionFailed
  let addr ← Stateful.ofExcept (c.getAddr info.page info.offset)
  match m.m_storage info.page with
  | none => throw (.badAccess addr info.size)
  | some data =>
    let dest ← get
    if dest.length < (addr - start).toNat + info.size then throw .undefinedBehaviour
    set (copyOut data info.offset info.size (addr - start).toNat dest)

/-- `PagedMem::readBlock`; the state is the destination. -/
def readBlock (m : PagedMem c) (addr : Addr) : EStateM Exn (List Byte) Unit := do
  let dest ← get
  pageWalk c (readPiece m addr) addr (BitVec.ofNat 64 dest.length)

instance : BlockMemory (PagedMem c) where
  writeBlock := writeBlock
  readBlock := readBlock

/-! ### One piece -/

section Pieces

variable (hpages : 1 ≤ c.m_pageBits) {m : PagedMem c} {src dest : List Byte} {start : Addr}
  {p : LocInfo}

include hpages

/-- Where `getAddr` puts a piece, as a place in the block. -/
theorem getAddr_sub (hfits : p.offset + p.size ≤ c.bytes) (hpos : 0 < p.size)
    (hle : start.toNat ≤ p.start c.bytes) (htop : p.start c.bytes + p.size ≤ 2 ^ 32) :
    ∃ addr, c.getAddr p.page p.offset = .ok addr ∧
      (addr - start).toNat = p.start c.bytes - start.toNat := by
  have hpage := PagedMemConfig.page_lt hpos htop
  have hstart := PagedMemConfig.toNat_start hpos htop
  refine ⟨_, PagedMemConfig.getAddr_eq hpages hpage (by omega), ?_⟩
  rw [← Piece.start, BitVec.toNat_sub_of_le, hstart]
  rwa [BitVec.le_def, hstart]

/-- A piece within its page and within the block is written. -/
theorem run_writePiece (hfits : p.offset + p.size ≤ c.bytes) (hpos : 0 < p.size)
    (hle : start.toNat ≤ p.start c.bytes) (htop : p.start c.bytes + p.size ≤ 2 ^ 32)
    (hsrc : p.start c.bytes + p.size ≤ start.toNat + src.length) :
    (writePiece src start p).run m = .ok ()
      { m_storage := Function.update m.m_storage p.page <| some <|
          copyIn src (p.start c.bytes - start.toNat) p.offset p.size
            ((m.m_storage p.page).getD fun _ => 0#8) } := by
  obtain ⟨addr, haddr, hsub⟩ := getAddr_sub hpages hfits hpos hle htop
  have hsize := PagedMemConfig.toNat_pageSize hpages
  simp [-BitVec.toNat_sub, writePiece, hsize, haddr, hsub,
    show ¬ c.bytes < p.offset + p.size by omega,
    show ¬ src.length < p.start c.bytes - start.toNat + p.size by omega]

/-- A piece on an allocated page is read. -/
theorem run_readPiece {data : ℕ → Byte} (hdata : m.m_storage p.page = some data)
    (hfits : p.offset + p.size ≤ c.bytes) (hpos : 0 < p.size)
    (hle : start.toNat ≤ p.start c.bytes) (htop : p.start c.bytes + p.size ≤ 2 ^ 32)
    (hdest : p.start c.bytes + p.size ≤ start.toNat + dest.length) :
    (readPiece m start p).run dest =
      .ok () (copyOut data p.offset p.size (p.start c.bytes - start.toNat) dest) := by
  obtain ⟨addr, haddr, hsub⟩ := getAddr_sub hpages hfits hpos hle htop
  have hsize := PagedMemConfig.toNat_pageSize hpages
  simp [-BitVec.toNat_sub, readPiece, hsize, haddr, hsub, hdata,
    show ¬ c.bytes < p.offset + p.size by omega,
    show ¬ dest.length < p.start c.bytes - start.toNat + p.size by omega]

/-- A piece on a page that was never written raises. -/
theorem run_readPiece_of_none (hdata : m.m_storage p.page = none)
    (hfits : p.offset + p.size ≤ c.bytes) (hpos : 0 < p.size)
    (hle : start.toNat ≤ p.start c.bytes) (htop : p.start c.bytes + p.size ≤ 2 ^ 32) :
    ∃ e, (readPiece m start p).run dest = .error e dest := by
  obtain ⟨addr, haddr, -⟩ := getAddr_sub hpages hfits hpos hle htop
  have hsize := PagedMemConfig.toNat_pageSize hpages
  exact ⟨.badAccess addr p.size, by
    simp [readPiece, hsize, haddr, hdata, show ¬ c.bytes < p.offset + p.size by omega]⟩

end Pieces

end PagedMem

end Prot
