import Prot.PagedMemory

/-!
# Paged memory as a flat map of bytes

What the pages are for: a map from addresses to the bytes last written to them, in
which a read also has to be allowed, by an earlier write to each page that it meets.
Block operations on the pages and on the map reply alike, whatever their order.

## Main results

* `PagedMem.Represents.writeBlock`, `PagedMem.Represents.readBlock`: one operation
* `PagedMem.replies_eq_flat`: any sequence of operations
-/

namespace Prot

open Paging Stateful

/-! ### Histories of block operations -/

/-- The block operations of a memory. -/
inductive BlockOp where
  | write (src : List Byte) (addr : Addr)
  | fill (addr : Addr) (value : Byte) (count : ℕ)
  | read (addr : Addr) (dest : List Byte)

/-- The range of the operation ends at the top of the address space or below. -/
def BlockOp.InSpace : BlockOp → Prop
  | write src addr => addr.toNat + src.length ≤ 2 ^ 32
  | fill addr _ count => addr.toNat + count ≤ 2 ^ 32
  | read addr dest => addr.toNat + dest.length ≤ 2 ^ 32

/-- What the caller of a block operation sees. -/
inductive Reply where
  | done
  | bytes (data : List Byte)
  | raised

/-- Performs one operation after the other. -/
def replies {σ : Type} (perform : BlockOp → σ → Reply × σ) : List BlockOp → σ → List Reply
  | [], _ => []
  | op :: ops, s => (perform op s).1 :: replies perform ops (perform op s).2

/-- A write, with the memory that it leaves behind. -/
def BlockMemory.reply {μ : Type} : EStateM.Result Exn μ Unit → Reply × μ
  | .ok _ m => (.done, m)
  | .error _ m => (.raised, m)

/-- A memory performs an operation and replies. -/
def BlockMemory.perform {μ : Type} [BlockMemory μ] : BlockOp → μ → Reply × μ
  | .write src addr, m => reply ((writeBlock src addr).run m)
  | .fill addr value count, m => reply ((fillBlock addr value count).run m)
  | .read addr dest, m =>
    match (readBlock m addr).run dest with
    | .ok _ data => (.bytes data, m)
    | .error _ _ => (.raised, m)

/-! ### The flat map -/

/-- The byte last written to each address. -/
abbrev FlatMemory := Addr → Option Byte

namespace FlatMemory

/-- The map after a block was written. -/
def write (src : List Byte) (addr : Addr) (f : FlatMemory) : FlatMemory := fun x =>
  if InRange addr src.length x then src[(x - addr).toNat]? else f x

/-- The map after a range was filled. -/
def fill (addr : Addr) (value : Byte) (count : ℕ) (f : FlatMemory) : FlatMemory := fun x =>
  if InRange addr count x then some value else f x

/-- What was never written is zero. -/
def bytes (f : FlatMemory) (addr : Addr) (n : ℕ) : List Byte :=
  (List.range n).map fun i => (f (addr + BitVec.ofNat 32 i)).getD 0#8

/-- Something was written to every page, of `S` bytes, that the range meets. -/
def Touched (S : ℕ) (f : FlatMemory) (addr : Addr) (n : ℕ) : Prop :=
  ∀ x, InRange addr n x → ∃ y : Addr, y.toNat / S = x.toNat / S ∧ f y ≠ none

open Classical in
/-- What the map replies. A block can be read if it lies on pages that were touched. -/
noncomputable def perform (S : ℕ) : BlockOp → FlatMemory → Reply × FlatMemory
  | .write src addr, f => (.done, f.write src addr)
  | .fill addr value count, f => (.done, f.fill addr value count)
  | .read addr dest, f =>
    (if f.Touched S addr dest.length then .bytes (f.bytes addr dest.length) else .raised, f)

/-- Filling is writing one byte after the other. -/
theorem fill_succ (addr : Addr) (value : Byte) {k : ℕ} (hk : k < 2 ^ 32) (f : FlatMemory) :
    f.fill addr value (k + 1) = (f.fill addr value k).write [value] (addr + BitVec.ofNat 32 k) := by
  funext x
  have hsub :
      (x - (addr + BitVec.ofNat 32 k)).toNat = ((x - addr).toNat + 2 ^ 32 - k) % 2 ^ 32 := by
    rw [← BitVec.sub_sub, BitVec.toNat_sub' (x - addr), BitVec.toNat_ofNat]
    omega
  have hx := (x - addr).isLt
  rcases Nat.lt_trichotomy (x - addr).toNat k with hlt | heq | hgt
  · have hin : InRange addr (k + 1) x := show _ < _ by omega
    have hold : InRange addr k x := hlt
    have hlast : ¬ InRange (addr + BitVec.ofNat 32 k) [value].length x := by
      rw [InRange, hsub, List.length_singleton]
      omega
    rw [fill, write, if_pos hin, if_neg hlast, fill, if_pos hold]
  · have hin : InRange addr (k + 1) x := show _ < _ by omega
    have hzero : (x - (addr + BitVec.ofNat 32 k)).toNat = 0 := by omega
    have hlast : InRange (addr + BitVec.ofNat 32 k) [value].length x := by
      rw [InRange, hzero]
      exact Nat.one_pos
    rw [fill, write, if_pos hin, if_pos hlast, hzero, List.getElem?_cons_zero]
  · have hout : ¬ InRange addr (k + 1) x := show ¬ _ < _ by omega
    have hold : ¬ InRange addr k x := show ¬ _ < _ by omega
    have hlast : ¬ InRange (addr + BitVec.ofNat 32 k) [value].length x := by
      rw [InRange, hsub, List.length_singleton]
      omega
    rw [fill, write, if_neg hout, if_neg hlast, fill, if_neg hold]

/-- A memory that holds a flat map, and can be written to byte by byte, can be filled. -/
theorem run_fillBlock {μ : Type} [BlockMemory μ] {Holds : μ → FlatMemory → Prop} {addr : Addr}
    {value : Byte} {count : ℕ} (hcount : count ≤ 2 ^ 32)
    (hwrite : ∀ k < count, ∀ m f, Holds m f →
      ∃ m', (BlockMemory.writeBlock [value] (addr + BitVec.ofNat 32 k)).run m = .ok () m' ∧
        Holds m' (f.write [value] (addr + BitVec.ofNat 32 k)))
    {m : μ} {f : FlatMemory} (h : Holds m f) :
    ∃ m', (BlockMemory.fillBlock addr value count).run m = .ok () m' ∧
      Holds m' (f.fill addr value count) := by
  induction count with
  | zero =>
    have hfill : f.fill addr value 0 = f := funext fun x => if_neg (Nat.not_lt_zero _)
    exact ⟨m, rfl, by rwa [hfill]⟩
  | succ k ih =>
    obtain ⟨m₁, hrun₁, hm₁⟩ := ih (by omega) fun i hi => hwrite i (by omega)
    obtain ⟨m', hrun, hm'⟩ := hwrite k (by omega) m₁ _ hm₁
    refine ⟨m', ?_, by rwa [fill_succ addr value (by omega)]⟩
    rw [BlockMemory.fillBlock] at hrun₁ ⊢
    rw [List.range_succ, List.forM_append, run_seq_ok hrun₁, List.forM_cons, run_seq_ok hrun]
    rfl

/-- A write that has come to the address `k`. -/
def writeUpTo (src : List Byte) (addr : Addr) (k : ℕ) (f : FlatMemory) : FlatMemory := fun x =>
  if addr.toNat ≤ x.toNat ∧ x.toNat < k then src[x.toNat - addr.toNat]? else f x

/-- At first, nothing of the block is written. -/
theorem writeUpTo_self (src : List Byte) (addr : Addr) (f : FlatMemory) :
    f.writeUpTo src addr addr.toNat = f :=
  funext fun _ => if_neg (by omega)

/-- Without a wrap, the addresses of a range are consecutive numbers. -/
theorem inRange_iff {addr : Addr} {n : ℕ} (hspace : addr.toNat + n ≤ 2 ^ 32) (x : Addr) :
    InRange addr n x ↔ addr.toNat ≤ x.toNat ∧ x.toNat < addr.toNat + n := by
  have hx := x.isLt
  rw [InRange, BitVec.toNat_sub]
  omega

/-- Going on by a piece changes the bytes of the piece. -/
theorem writeUpTo_add {addr : Addr} {k : ℕ} (hk : addr.toNat ≤ k) (n : ℕ) (src : List Byte)
    (f : FlatMemory) (x : Addr) :
    f.writeUpTo src addr (k + n) x =
      if k ≤ x.toNat ∧ x.toNat < k + n then src[x.toNat - addr.toNat]?
      else f.writeUpTo src addr k x := by
  by_cases hin : k ≤ x.toNat ∧ x.toNat < k + n
  · rw [writeUpTo, if_pos (by omega), if_pos hin]
  · by_cases hold : addr.toNat ≤ x.toNat ∧ x.toNat < k
    · rw [writeUpTo, if_pos (by omega), if_neg hin, writeUpTo, if_pos hold]
    · rw [writeUpTo, if_neg (by omega), if_neg hin, writeUpTo, if_neg hold]

/-- In the end, all of the block is written. -/
theorem writeUpTo_end {src : List Byte} {addr : Addr} (hspace : addr.toNat + src.length ≤ 2 ^ 32)
    (f : FlatMemory) : f.writeUpTo src addr (addr.toNat + src.length) = f.write src addr := by
  funext x
  have hin := inRange_iff hspace x
  by_cases hx : InRange addr src.length x
  · rw [writeUpTo, write, if_pos (hin.mp hx), if_pos hx,
      BitVec.toNat_sub_of_le (BitVec.le_def.mpr (hin.mp hx).1)]
  · rw [writeUpTo, write, if_neg (mt hin.mpr hx), if_neg hx]

/-- The bytes that a read has brought when it has come to the address `k`. -/
def readUpTo (f : FlatMemory) (addr : Addr) (dest : List Byte) (k : ℕ) : List Byte :=
  dest.mapIdx fun i b =>
    if addr.toNat + i < k then (f (addr + BitVec.ofNat 32 i)).getD 0#8 else b

@[simp] theorem length_readUpTo (f : FlatMemory) (addr : Addr) (dest : List Byte) (k : ℕ) :
    (f.readUpTo addr dest k).length = dest.length := List.length_mapIdx

/-- At first, nothing is read. -/
theorem readUpTo_self (f : FlatMemory) (addr : Addr) (dest : List Byte) :
    f.readUpTo addr dest addr.toNat = dest := by
  refine List.ext_getElem (length_readUpTo ..) fun i _ _ => ?_
  simp only [readUpTo, List.getElem_mapIdx]
  exact if_neg (by omega)

/-- In the end, the whole range is read. -/
theorem readUpTo_end (f : FlatMemory) (addr : Addr) (dest : List Byte) :
    f.readUpTo addr dest (addr.toNat + dest.length) = f.bytes addr dest.length := by
  refine List.ext_getElem (by simp [bytes]) fun i hi _ => ?_
  have hi : i < dest.length := by rwa [length_readUpTo] at hi
  simp only [readUpTo, bytes, List.getElem_mapIdx, List.getElem_map, List.getElem_range]
  exact if_pos (by omega)

end FlatMemory

/-! ### Pages hold a flat map -/

namespace PagedMem

variable {c : PagedMemConfig}

/-- A page is there if something was written to it, and holds what was written last. -/
structure Represents (m : PagedMem c) (f : FlatMemory) : Prop where
  absent : ∀ x : Addr, m.m_storage (x.toNat / c.bytes) = none → f x = none
  present : ∀ page data, m.m_storage page = some data →
    ∃ y : Addr, y.toNat / c.bytes = page ∧ f y ≠ none
  byte : ∀ (x : Addr) data, m.m_storage (x.toNat / c.bytes) = some data →
    data (x.toNat % c.bytes) = (f x).getD 0#8

/-- Nothing was ever written. -/
theorem represents_empty : Represents ({} : PagedMem c) fun _ => none where
  absent _ _ := rfl
  present _ _ h := by cases h
  byte _ _ h := by cases h

section Step

variable {m : PagedMem c} {f : FlatMemory} {src : List Byte} {addr : Addr} {p : LocInfo}

/-- Copying a piece into its page, address by address: an offset on the page is an address in the
piece. -/
theorem copyIn_eq (hle : addr.toNat ≤ p.start c.bytes)
    {x : Addr} (hpage : x.toNat / c.bytes = p.page) (data : ℕ → Byte) :
    copyIn src (p.start c.bytes - addr.toNat) p.offset p.size data (x.toNat % c.bytes) =
      if p.start c.bytes ≤ x.toNat ∧ x.toNat < p.start c.bytes + p.size then
        src.getD (x.toNat - addr.toNat) 0#8
      else data (x.toNat % c.bytes) := by
  have hx := Nat.div_add_mod' x.toNat c.bytes
  rw [hpage] at hx
  have hiff : p.offset ≤ x.toNat % c.bytes ∧ x.toNat % c.bytes < p.offset + p.size ↔
      p.start c.bytes ≤ x.toNat ∧ x.toNat < p.start c.bytes + p.size := by
    rw [Piece.start]
    omega
  by_cases hin : p.start c.bytes ≤ x.toNat ∧ x.toNat < p.start c.bytes + p.size
  · rw [copyIn, if_pos (hiff.mpr hin), if_pos hin]
    congr 1
    rw [Piece.start] at hin hle ⊢
    omega
  · rw [copyIn, if_neg (mt hiff.mp hin), if_neg hin]

/-- A piece changes nothing on another page. -/
theorem writeUpTo_of_page_ne (hfits : p.offset + p.size ≤ c.bytes)
    (hle : addr.toNat ≤ p.start c.bytes) {x : Addr} (hx : x.toNat / c.bytes ≠ p.page) :
    f.writeUpTo src addr (p.start c.bytes + p.size) x =
      f.writeUpTo src addr (p.start c.bytes) x := by
  rw [FlatMemory.writeUpTo_add hle, if_neg fun hin => hx (Piece.div_eq hfits hin.1 hin.2)]

/-- The page of a piece that was written has the first byte of the piece. -/
theorem exists_written_of_piece (hfits : p.offset + p.size ≤ c.bytes) (hpos : 0 < p.size)
    (hle : addr.toNat ≤ p.start c.bytes) (htop : p.start c.bytes + p.size ≤ 2 ^ 32)
    (hsrc : p.start c.bytes + p.size ≤ addr.toNat + src.length) :
    ∃ y : Addr, y.toNat / c.bytes = p.page ∧
      f.writeUpTo src addr (p.start c.bytes + p.size) y ≠ none := by
  have hstart := PagedMemConfig.toNat_start hpos htop
  refine ⟨BitVec.ofNat 32 (p.start c.bytes), ?_, ?_⟩
  · rw [hstart]
    exact Piece.div_eq hfits le_rfl (Nat.lt_add_of_pos_right hpos)
  · rw [FlatMemory.writeUpTo_add hle, hstart, if_pos ⟨le_rfl, Nat.lt_add_of_pos_right hpos⟩,
      List.getElem?_eq_getElem (by omega)]
    exact Option.some_ne_none _

/-- Writing one piece takes the write from the beginning of the piece to its end. -/
theorem Represents.writePiece (h : m.Represents (f.writeUpTo src addr (p.start c.bytes)))
    (hfits : p.offset + p.size ≤ c.bytes) (hpos : 0 < p.size)
    (hle : addr.toNat ≤ p.start c.bytes) (htop : p.start c.bytes + p.size ≤ 2 ^ 32)
    (hsrc : p.start c.bytes + p.size ≤ addr.toNat + src.length) :
    Represents (c := c)
      { m_storage := Function.update m.m_storage p.page <| some <|
          copyIn src (p.start c.bytes - addr.toNat) p.offset p.size
            ((m.m_storage p.page).getD fun _ => 0#8) }
      (f.writeUpTo src addr (p.start c.bytes + p.size)) := by
  constructor
  case absent =>
    intro x hnone
    by_cases hx : x.toNat / c.bytes = p.page
    · simp [hx] at hnone
    · rw [writeUpTo_of_page_ne hfits hle hx]
      exact h.absent x (by simpa [hx] using hnone)
  case present =>
    intro page data hsome
    by_cases hpage : page = p.page
    · rw [hpage]
      exact exists_written_of_piece hfits hpos hle htop hsrc
    · obtain ⟨y, hy, hwritten⟩ := h.present page data (by simpa [hpage] using hsome)
      exact ⟨y, hy, by rwa [writeUpTo_of_page_ne hfits hle (hy ▸ hpage)]⟩
  case byte =>
    intro x data hsome
    by_cases hx : x.toNat / c.bytes = p.page
    · obtain rfl : copyIn _ _ _ _ _ = data := by simpa [hx] using hsome
      rw [copyIn_eq hle hx, FlatMemory.writeUpTo_add hle]
      split
      · rw [List.getD_eq_getElem?_getD]
      · -- a page that was not there yet held zeros
        cases hold : m.m_storage p.page with
        | none => rw [h.absent x (hx ▸ hold), Option.getD_none, Option.getD_none]
        | some data => exact h.byte x data (hx ▸ hold)
    · rw [writeUpTo_of_page_ne hfits hle hx]
      exact h.byte x data (by simpa [hx] using hsome)

/-- Reading one piece takes the read from the beginning of the piece to its end. -/
theorem Represents.copyOut_eq (h : m.Represents f) {dest : List Byte} {data : ℕ → Byte}
    (hdata : m.m_storage p.page = some data) (hfits : p.offset + p.size ≤ c.bytes)
    (hle : addr.toNat ≤ p.start c.bytes) (htop : p.start c.bytes + p.size ≤ 2 ^ 32) :
    copyOut data p.offset p.size (p.start c.bytes - addr.toNat)
        (f.readUpTo addr dest (p.start c.bytes)) =
      f.readUpTo addr dest (p.start c.bytes + p.size) := by
  refine List.ext_getElem (by simp [copyOut]) fun i hi _ => ?_
  have hi : i < dest.length := by simpa [copyOut] using hi
  simp only [copyOut, FlatMemory.readUpTo, List.getElem_mapIdx]
  by_cases hin : p.start c.bytes ≤ addr.toNat + i ∧ addr.toNat + i < p.start c.bytes + p.size
  · have hx : (addr + BitVec.ofNat 32 i).toNat = addr.toNat + i := by
      rw [BitVec.toNat_add, BitVec.toNat_ofNat]
      omega
    have hpage := Piece.div_eq hfits hin.1 hin.2
    have hbyte := h.byte (addr + BitVec.ofNat 32 i) data (by rw [hx, hpage, hdata])
    rw [hx, Piece.mod_eq hfits hin.1 hin.2] at hbyte
    rw [if_pos (by omega), if_pos hin.2, ← hbyte]
    congr 1
    omega
  · rw [if_neg (by omega)]
    exact if_congr (by omega) rfl rfl

/-- A piece of a range whose pages were all written to is on a page that is there. -/
theorem Represents.exists_data_of_touched (h : m.Represents f) {n : ℕ}
    (hspace : addr.toNat + n ≤ 2 ^ 32) (htouched : f.Touched c.bytes addr n)
    (hfits : p.offset + p.size ≤ c.bytes) (hpos : 0 < p.size)
    (hle : addr.toNat ≤ p.start c.bytes) (hend : p.start c.bytes + p.size ≤ addr.toNat + n) :
    ∃ data, m.m_storage p.page = some data := by
  have hstart := PagedMemConfig.toNat_start hpos (by omega : p.start c.bytes + p.size ≤ 2 ^ 32)
  have hpage := Piece.div_eq hfits le_rfl (Nat.lt_add_of_pos_right hpos)
  obtain ⟨y, hy, hwritten⟩ := htouched (BitVec.ofNat 32 (p.start c.bytes))
    ((FlatMemory.inRange_iff hspace _).mpr (by omega))
  rw [hstart, hpage] at hy
  cases hdata : m.m_storage p.page with
  | none => exact absurd (h.absent y (hy ▸ hdata)) hwritten
  | some data => exact ⟨data, rfl⟩

end Step

/-! ### One operation -/

section Operations

variable (hpages : 1 ≤ c.m_pageBits) {m : PagedMem c} {f : FlatMemory} {addr : Addr}

include hpages

/-- Writing piece by piece writes as far as the pieces go. -/
theorem Represents.writePieces (h : m.Represents f) {src : List Byte} {e : ℕ}
    {pieces : List LocInfo} (htiles : Tiles c.bytes addr.toNat e pieces) (htop : e ≤ 2 ^ 32)
    (hsrc : e ≤ addr.toNat + src.length) :
    ∃ m' : PagedMem c, (forM pieces (PagedMem.writePiece src addr)).run m = .ok () m' ∧
      m'.Represents (f.writeUpTo src addr e) := by
  have hstep : ∀ p ∈ pieces, ∀ m : PagedMem c,
      m.Represents (f.writeUpTo src addr (p.start c.bytes)) →
      ∃ m', (PagedMem.writePiece src addr p).run m = .ok () m' ∧
        m'.Represents (f.writeUpTo src addr (p.start c.bytes + p.size)) := by
    intro p hp m hm
    obtain ⟨hle, hend, hfits, hpos⟩ := htiles.of_mem hp
    exact ⟨_, run_writePiece hpages hfits hpos hle (by omega) (by omega),
      hm.writePiece hfits hpos hle (by omega) (by omega)⟩
  exact htiles.run_forM (fun k (m : PagedMem c) => m.Represents (f.writeUpTo src addr k))
    (by rwa [FlatMemory.writeUpTo_self]) hstep

/-- Reading piece by piece reads as far as the pieces go. -/
theorem Represents.readPieces (h : m.Represents f) (dest : List Byte) {e : ℕ}
    {pieces : List LocInfo} (htiles : Tiles c.bytes addr.toNat e pieces) (htop : e ≤ 2 ^ 32)
    (hdest : e ≤ addr.toNat + dest.length)
    (hdata : ∀ p ∈ pieces, ∃ data, m.m_storage p.page = some data) :
    (forM pieces (PagedMem.readPiece m addr)).run dest = .ok () (f.readUpTo addr dest e) := by
  have hstep : ∀ p ∈ pieces, ∀ d, d = f.readUpTo addr dest (p.start c.bytes) →
      ∃ d', (PagedMem.readPiece m addr p).run d = .ok () d' ∧
        d' = f.readUpTo addr dest (p.start c.bytes + p.size) := by
    rintro p hp _ rfl
    obtain ⟨hle, hend, hfits, hpos⟩ := htiles.of_mem hp
    obtain ⟨data, hdata⟩ := hdata p hp
    refine ⟨_, run_readPiece hpages hdata hfits hpos hle (by omega) ?_,
      h.copyOut_eq hdata hfits hle (by omega)⟩
    rw [FlatMemory.length_readUpTo]
    omega
  obtain ⟨d, hrun, rfl⟩ := htiles.run_forM (fun k d => d = f.readUpTo addr dest k)
    (f.readUpTo_self addr dest).symm hstep
  exact hrun

/-- A walk over a range within the address space. -/
theorem exists_pageWalk_eq {n : ℕ} (hspace : addr.toNat + n ≤ 2 ^ 32) :
    ∃ pieces, Tiles c.bytes addr.toNat (addr.toNat + n) pieces ∧
      ∀ (σ : Type) (op : LocInfo → EStateM Exn σ Unit),
        pageWalk c op addr (BitVec.ofNat 64 n) = forM pieces op := by
  have hlength : (BitVec.ofNat 64 n).toNat = n := by
    rw [BitVec.toNat_ofNat]
    omega
  have hwalk := exists_pageWalk_eq_of_fits hpages addr (hlength.symm ▸ hspace)
  rwa [hlength] at hwalk

/-- A write returns, and leaves the flat map with the written bytes. -/
theorem Represents.writeBlock (h : m.Represents f) {src : List Byte}
    (hspace : addr.toNat + src.length ≤ 2 ^ 32) :
    ∃ m' : PagedMem c, (BlockMemory.writeBlock src addr).run m = .ok () m' ∧
      m'.Represents (f.write src addr) := by
  obtain ⟨pieces, htiles, hwalk⟩ := exists_pageWalk_eq hpages hspace
  obtain ⟨m', hrun, hm'⟩ := h.writePieces hpages htiles hspace le_rfl
  rw [FlatMemory.writeUpTo_end hspace] at hm'
  refine ⟨m', ?_, hm'⟩
  change (pageWalk c (PagedMem.writePiece src addr) addr (BitVec.ofNat 64 src.length)).run m = _
  rw [hwalk, hrun]

/-- Filling a range in the pages fills it in the map. -/
theorem Represents.fillBlock (h : m.Represents f) {value : Byte} {count : ℕ}
    (hspace : addr.toNat + count ≤ 2 ^ 32) :
    ∃ m' : PagedMem c, (BlockMemory.fillBlock addr value count).run m = .ok () m' ∧
      m'.Represents (f.fill addr value count) := by
  refine FlatMemory.run_fillBlock (by omega) (fun k hk m f h => h.writeBlock hpages ?_) h
  rw [BitVec.toNat_add, BitVec.toNat_ofNat, List.length_singleton]
  omega

/-- A read brings the bytes of the flat map if every page it meets was written to. -/
theorem Represents.readBlock (h : m.Represents f) {dest : List Byte}
    (hspace : addr.toNat + dest.length ≤ 2 ^ 32) (htouched : f.Touched c.bytes addr dest.length) :
    (BlockMemory.readBlock m addr).run dest = .ok () (f.bytes addr dest.length) := by
  obtain ⟨pieces, htiles, hwalk⟩ := exists_pageWalk_eq hpages hspace
  have hdata : ∀ p ∈ pieces, ∃ data, m.m_storage p.page = some data := by
    intro p hp
    obtain ⟨hle, hend, hfits, hpos⟩ := htiles.of_mem hp
    exact h.exists_data_of_touched hspace htouched hfits hpos hle hend
  have hrun := h.readPieces hpages dest htiles hspace le_rfl hdata
  rw [FlatMemory.readUpTo_end] at hrun
  change (pageWalk c (PagedMem.readPiece m addr) addr (BitVec.ofNat 64 dest.length)).run dest = _
  rw [hwalk, hrun]

/-- A read raises if it meets a page that was not written to. -/
theorem Represents.readBlock_of_not_touched (h : m.Represents f) {dest : List Byte}
    (hspace : addr.toNat + dest.length ≤ 2 ^ 32) (hnot : ¬ f.Touched c.bytes addr dest.length) :
    ∃ e dest', (BlockMemory.readBlock m addr).run dest = .error e dest' := by
  obtain ⟨pieces, htiles, hwalk⟩ := exists_pageWalk_eq hpages hspace
  -- some piece is on a page that is not there
  obtain ⟨x, hx, huntouched⟩ : ∃ x : Addr, InRange addr dest.length x ∧
      ∀ y : Addr, y.toNat / c.bytes = x.toNat / c.bytes → f y = none := by
    simpa [FlatMemory.Touched] using hnot
  have hrange := (FlatMemory.inRange_iff hspace x).mp hx
  obtain ⟨p, hp, hnone⟩ := (htiles.exists_page_iff (P := fun page =>
    m.m_storage page = none)).mpr ⟨x.toNat, hrange.1, hrange.2, by
      cases hpage : m.m_storage (x.toNat / c.bytes) with
      | none => rfl
      | some data =>
        obtain ⟨y, hy, hwritten⟩ := h.present _ data hpage
        exact absurd (huntouched y hy) hwritten⟩
  obtain ⟨hle, hend, hfits, hpos⟩ := htiles.of_mem hp
  change ∃ e dest', (pageWalk c (PagedMem.readPiece m addr) addr
    (BitVec.ofNat 64 dest.length)).run dest = .error e dest'
  rw [hwalk]
  exact exists_run_forM_error hp (fun d => by
    obtain ⟨e, he⟩ := run_readPiece_of_none hpages hnone hfits hpos hle (by omega)
    exact ⟨e, d, he⟩) dest

/-- One operation has the same reply, and leaves memories that correspond. -/
theorem Represents.perform (h : m.Represents f) {op : BlockOp} (hspace : op.InSpace) :
    (BlockMemory.perform op m).1 = (f.perform c.bytes op).1 ∧
      (BlockMemory.perform op m).2.Represents (f.perform c.bytes op).2 := by
  cases op with
  | write src addr =>
    obtain ⟨m', hrun, hm'⟩ := h.writeBlock hpages hspace
    rw [BlockMemory.perform, hrun]
    exact ⟨rfl, hm'⟩
  | fill addr value count =>
    obtain ⟨m', hrun, hm'⟩ := h.fillBlock hpages hspace
    rw [BlockMemory.perform, hrun]
    exact ⟨rfl, hm'⟩
  | read addr dest =>
    rw [BlockMemory.perform, FlatMemory.perform]
    by_cases htouched : f.Touched c.bytes addr dest.length
    · rw [h.readBlock hpages hspace htouched, if_pos htouched]
      exact ⟨rfl, h⟩
    · obtain ⟨e, dest', hrun⟩ := h.readBlock_of_not_touched hpages hspace htouched
      rw [hrun, if_neg htouched]
      exact ⟨rfl, h⟩

/-- Pages and map reply alike to any history. -/
theorem Represents.replies_eq (h : m.Represents f) {ops : List BlockOp}
    (hspace : ∀ op ∈ ops, op.InSpace) :
    replies BlockMemory.perform ops m = replies (FlatMemory.perform c.bytes) ops f := by
  induction ops generalizing m f with
  | nil => rfl
  | cons op ops ih =>
    obtain ⟨hreply, hrest⟩ := h.perform hpages (hspace op List.mem_cons_self)
    rw [replies, replies, hreply, ih hrest fun op' hop' => hspace op' (List.mem_cons_of_mem _ hop')]

end Operations

/-- Whatever is done to the pages, in whatever order, no caller can tell them from a
flat map whose reads are restricted to the pages that were written to. -/
theorem replies_eq_flat (hpages : 1 ≤ c.m_pageBits) (ops : List BlockOp)
    (hspace : ∀ op ∈ ops, op.InSpace) :
    replies BlockMemory.perform ops ({} : PagedMem c) =
      replies (FlatMemory.perform c.bytes) ops fun _ => none :=
  represents_empty.replies_eq hpages hspace

/-- With two pages: a write over the boundary, a fill up to the top and a read of everything
around them. -/
theorem replies_eq_flat_twoPages :
    let ops : List BlockOp := [.write [1#8, 2#8] 0x7FFFFFFF#32, .fill 0xFFFFFFFE#32 3#8 2,
      .read 0x7FFFFFFE#32 [9#8, 9#8, 9#8], .read 0xFFFFFFFD#32 [9#8, 9#8, 9#8]]
    replies BlockMemory.perform ops ({} : PagedMem ⟨1, by decide⟩) =
      replies (FlatMemory.perform (2 ^ 31)) ops fun _ => none :=
  replies_eq_flat (c := ⟨1, by decide⟩) (by decide) _ (by simp [BlockOp.InSpace])

end PagedMem

end Prot
