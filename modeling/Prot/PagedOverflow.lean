import Prot.FlatMemory

/-!
# Paged memory past the top of the address space

The assertion of `pageWalk` adds in 64 bits, and its last page is that of the end of
the range modulo `2 ^ 32`. So a range that runs past the last address is rejected only
if it ends, after the wrap, two pages or more below the page on which it begins.
Otherwise the walk stops at the end of the page of the wrapped end, which may be
before it has begun, and does not say so.

## Main results

* `PagedMem.exists_pageWalk_eq_of_wraps`: how far the walk goes
* `PagedMem.neverDrops_iff`: when such an access is not cut short
-/

namespace Prot

open Paging Stateful BlockMemory

/-! ### Access byte by byte -/

namespace FlatMemory

/-- The map after bytes were written one by one, around the top of the address space. -/
def writeBytes : List Byte → Addr → FlatMemory → FlatMemory
  | [], _, f => f
  | b :: src, addr, f => writeBytes src (addr + 1#32) (f.write [b] addr)

theorem writeBytes_append (src src' : List Byte) (addr : Addr) (f : FlatMemory) :
    f.writeBytes (src ++ src') addr =
      (f.writeBytes src addr).writeBytes src' (addr + BitVec.ofNat 32 src.length) := by
  induction src generalizing addr f with
  | nil => rw [List.nil_append, List.length_nil, BitVec.add_zero, writeBytes]
  | cons b src ih =>
    rw [List.cons_append, writeBytes, ih, writeBytes, List.length_cons, BitVec.ofNat_add,
      BitVec.add_assoc, BitVec.add_comm 1#32]

theorem write_singleton_self (b : Byte) (addr : Addr) (f : FlatMemory) :
    f.write [b] addr addr = some b := by
  simp [write, InRange]

/-- Writing a value again does not change it. -/
theorem writeBytes_replicate_of_eq {f : FlatMemory} {b : Byte} {x : Addr} (h : f x = some b)
    (n : ℕ) (addr : Addr) : f.writeBytes (List.replicate n b) addr x = some b := by
  induction n generalizing addr f with
  | zero => exact h
  | succ n ih =>
    rw [List.replicate_succ, writeBytes]
    refine ih ?_ _
    rw [write]
    split
    · next hin =>
      have hzero : (x - addr).toNat = 0 := Nat.lt_one_iff.mp hin
      rw [hzero, List.getElem?_cons_zero]
    · exact h

/-- The first byte of a fill is there. -/
theorem writeBytes_replicate_self (f : FlatMemory) (b : Byte) {n : ℕ} (hn : 0 < n) (addr : Addr) :
    f.writeBytes (List.replicate n b) addr addr = some b := by
  obtain ⟨n, rfl⟩ := Nat.exists_eq_succ_of_ne_zero hn.ne'
  rw [List.replicate_succ, writeBytes]
  exact writeBytes_replicate_of_eq (write_singleton_self b addr f) n _

/-- Writing zeros does not change what an empty map reads as. -/
theorem writeUpTo_replicate (j : ℕ) (src : List Byte) (addr x : Addr) :
    (writeUpTo (List.replicate j 0#8 ++ src) addr (addr.toNat + j) (fun _ => none) x).getD 0#8 =
      0#8 := by
  rw [writeUpTo]
  split
  · rw [List.getElem?_append_left (by rw [List.length_replicate]; omega), List.getElem?_replicate,
      if_pos (by omega), Option.getD_some]
  · rfl

end FlatMemory

namespace PagedMem

variable {c : PagedMemConfig}

/-! ### How far the walk goes -/

/-- One of the two assertions of `pageWalk` fails. -/
def Rejects (c : PagedMemConfig) (addr : Addr) (size : SizeT) : Prop :=
  2 ^ 64 ≤ addr.toNat + size.toNat ∨
    (addr.toNat + size.toNat - 1) % 2 ^ 32 / c.bytes + 1 < addr.toNat / c.bytes

section Walk

variable (hpages : 1 ≤ c.m_pageBits) {addr : Addr} {size : SizeT}

include hpages

/-- An access that is rejected fails an assertion before any page is visited. -/
theorem pageWalk_of_rejects {σ : Type} (op : LocInfo → EStateM Exn σ Unit) (hsize : size ≠ 0#64)
    (h : Rejects c addr size) : pageWalk c op addr size = throw .assertionFailed := by
  rw [pageWalk_eq hpages hsize]
  exact if_pos h

omit hpages in
/-- A range that goes past the top has a byte. -/
theorem ne_zero_of_wraps (hover : 2 ^ 32 < addr.toNat + size.toNat) : size ≠ 0#64 := by
  rintro rfl
  have haddr := addr.isLt
  rw [BitVec.toNat_ofNat, Nat.zero_mod] at hover
  omega

/-- An access that wraps around and is not rejected is walked as far as the top of the address
space, at most. If the wrapped end lies below its first page, the walk visits no page at all. -/
theorem exists_pageWalk_eq_of_wraps (hover : 2 ^ 32 < addr.toNat + size.toNat)
    (h : ¬ Rejects c addr size) :
    ∃ e pieces, Tiles c.bytes addr.toNat e pieces ∧ e ≤ 2 ^ 32 ∧
      ∀ (σ : Type) (op : LocInfo → EStateM Exn σ Unit),
        pageWalk c op addr size = forM pieces op := by
  have hsize := ne_zero_of_wraps hover
  have hwalk : ∀ (σ : Type) (op : LocInfo → EStateM Exn σ Unit), pageWalk c op addr size =
      forM (cut c.bytes (addr.toNat / c.bytes) (addr.toNat % c.bytes) size.toNat
        ((addr.toNat + size.toNat - 1) % 2 ^ 32 / c.bytes + 1 - addr.toNat / c.bytes)) op := by
    intro σ op
    rw [pageWalk_eq hpages hsize]
    exact if_neg h
  have hlast := Nat.mod_lt (addr.toNat + size.toNat - 1) (Nat.two_pow_pos 32)
  rw [Rejects, not_or, Nat.not_lt] at h
  -- the page of the wrapped end lies in the address space
  generalize (addr.toNat + size.toNat - 1) % 2 ^ 32 = last at *
  have hend : last / c.bytes * c.bytes + c.bytes ≤ 2 ^ 32 := by
    rw [← Nat.succ_mul, ← c.numPages_mul_bytes]
    exact Nat.mul_le_mul_right _ (PagedMemConfig.div_lt_numPages hlast)
  rcases Nat.lt_or_ge (last / c.bytes) (addr.toNat / c.bytes) with hbefore | hafter
  · -- the walk ends before its first page
    refine ⟨_, [], .nil _, addr.isLt.le, fun σ op => ?_⟩
    rw [hwalk, Nat.sub_eq_zero_of_le hbefore]
    rfl
  · obtain ⟨n, hn⟩ := Nat.exists_eq_add_of_le hafter
    have haddr := Nat.div_add_mod' addr.toNat c.bytes
    have hbytes := c.bytes_pos
    have htiles : Tiles c.bytes (addr.toNat / c.bytes * c.bytes + addr.toNat % c.bytes)
        (min (addr.toNat / c.bytes * c.bytes + addr.toNat % c.bytes + size.toNat)
          ((addr.toNat / c.bytes + n + 1) * c.bytes))
        (cut c.bytes (addr.toNat / c.bytes) (addr.toNat % c.bytes) size.toNat (n + 1)) :=
      tiles_cut (Nat.mod_lt addr.toNat hbytes) (by omega) (by rw [← hn]; omega)
    rw [haddr, ← hn, Nat.succ_mul] at htiles
    refine ⟨_, _, htiles, by omega, fun σ op => ?_⟩
    rw [hwalk, hn, show addr.toNat / c.bytes + n + 1 - addr.toNat / c.bytes = n + 1 by omega]

end Walk

/-! ### What happens to the rest -/

/-- The write is rejected and changes nothing, or writes every byte. -/
def WritesWhole (c : PagedMemConfig) (addr : Addr) (size : SizeT) : Prop :=
  ∀ (m : PagedMem c) (src : List Byte), src.length = size.toNat →
    (∃ e, (BlockMemory.writeBlock src addr).run m = .error e m) ∨
      ∃ m', (BlockMemory.writeBlock src addr).run m = .ok () m' ∧
        (writeBytes src addr).run m = .ok () m'

/-- The read is rejected and changes nothing in the destination, or reads every byte. -/
def ReadsWhole (c : PagedMemConfig) (addr : Addr) (size : SizeT) : Prop :=
  ∀ (m : PagedMem c) (dest : List Byte), dest.length = size.toNat →
    (∃ e, (BlockMemory.readBlock m addr).run dest = .error e dest) ∨
      ∃ dest', (BlockMemory.readBlock m addr).run dest = .ok () dest' ∧
        readBytes m addr dest = .ok dest'

/-- The walk raises or has come to some page. -/
def Walks (c : PagedMemConfig) (addr : Addr) (size : SizeT) : Prop :=
  (pageWalk c (fun info => modify (info :: ·)) addr size).run [] ≠ .ok () ([] : List LocInfo)

/-- Writes and reads transfer the whole range or nothing, and the walk visits pages. -/
structure NeverDrops (c : PagedMemConfig) (addr : Addr) (size : SizeT) : Prop where
  writes : WritesWhole c addr size
  reads : ReadsWhole c addr size
  walks : Walks c addr size

section Runs

variable {m : PagedMem c} {addr : Addr} {size : SizeT}

/-- A block write is a walk. -/
theorem run_writeBlock {src : List Byte} (hlength : src.length = size.toNat) :
    (BlockMemory.writeBlock src addr).run m =
      (pageWalk c (writePiece src addr) addr size).run m := by
  change (pageWalk c (writePiece src addr) addr (BitVec.ofNat 64 src.length)).run m = _
  rw [hlength, BitVec.ofNat_toNat, BitVec.setWidth_eq]

/-- A block read is a walk. -/
theorem run_readBlock {dest : List Byte} (hlength : dest.length = size.toNat) :
    (BlockMemory.readBlock m addr).run dest =
      (pageWalk c (readPiece m addr) addr size).run dest := by
  change (pageWalk c (readPiece m addr) addr (BitVec.ofNat 64 dest.length)).run dest = _
  rw [hlength, BitVec.ofNat_toNat, BitVec.setWidth_eq]

end Runs

/-- A memory is read in one way. -/
theorem Represents.getD_eq {m : PagedMem c} {f f' : FlatMemory} (h : m.Represents f)
    (h' : m.Represents f') (x : Addr) : (f x).getD 0#8 = (f' x).getD 0#8 := by
  cases hpage : m.m_storage (x.toNat / c.bytes) with
  | none => rw [h.absent x hpage, h'.absent x hpage]
  | some data => rw [← h.byte x data hpage, ← h'.byte x data hpage]

/-- A memory all of whose pages are there and hold zeros. -/
def zeros (c : PagedMemConfig) : PagedMem c where
  m_storage page := if page < c.numPages then some fun _ => 0#8 else none

theorem zeros_storage {page : ℕ} (h : page < c.numPages) :
    (zeros c).m_storage page = some fun _ => 0#8 := if_pos h

theorem represents_zeros : (zeros c).Represents fun _ => some 0#8 where
  absent x h := by
    rw [zeros_storage (PagedMemConfig.div_lt_numPages x.isLt)] at h
    cases h
  present page data h := by
    have hlt : page < c.numPages := by
      by_contra hge
      rw [show (zeros c).m_storage page = none from if_neg hge] at h
      cases h
    obtain ⟨y, hy⟩ := PagedMemConfig.exists_div_eq hlt
    exact ⟨y, hy, Option.some_ne_none _⟩
  byte x data h := by
    rw [zeros_storage (PagedMemConfig.div_lt_numPages x.isLt)] at h
    cases h
    rfl

section Overflow

variable (hpages : 1 ≤ c.m_pageBits) {addr : Addr} {size : SizeT}

include hpages

/-- Writing byte by byte never fails. -/
theorem Represents.writeBytes {m : PagedMem c} {f : FlatMemory} (h : m.Represents f)
    (src : List Byte) (addr : Addr) :
    ∃ m' : PagedMem c, (BlockMemory.writeBytes src addr).run m = .ok () m' ∧
      m'.Represents (f.writeBytes src addr) := by
  induction src generalizing m f addr with
  | nil => exact ⟨m, rfl, h⟩
  | cons b src ih =>
    have hspace : addr.toNat + [b].length ≤ 2 ^ 32 := addr.isLt
    obtain ⟨m₁, hrun₁, hm₁⟩ := h.writeBlock hpages hspace
    obtain ⟨m', hrun, hm'⟩ := ih hm₁ (addr + 1#32)
    exact ⟨m', by rw [BlockMemory.writeBytes, run_seq_ok hrun₁, hrun], hm'⟩

/-- A memory of zeros reads as zeros. -/
theorem readBytes_zeros (dest : List Byte) (addr : Addr) :
    readBytes (zeros c) addr dest = .ok (List.replicate dest.length 0#8) := by
  induction dest generalizing addr with
  | nil => rfl
  | cons b dest ih =>
    have hspace : addr.toNat + [b].length ≤ 2 ^ 32 := addr.isLt
    have hread := represents_zeros.readBlock hpages hspace
      fun x _ => ⟨x, rfl, Option.some_ne_none _⟩
    rw [readBytes, hread, ih]
    rfl

/-- A write past the top is whole only if it is rejected. Otherwise zeros as far as the walk goes,
and ones from there on, show the difference. -/
theorem writesWhole_iff (hover : 2 ^ 32 < addr.toNat + size.toNat) :
    WritesWhole c addr size ↔ Rejects c addr size := by
  constructor
  · intro hwrites
    by_contra hrejects
    obtain ⟨e, pieces, htiles, htop, hwalk⟩ := exists_pageWalk_eq_of_wraps hpages hover hrejects
    obtain ⟨j, rfl⟩ := Nat.exists_eq_add_of_le htiles.le
    let src := List.replicate j 0#8 ++ List.replicate (size.toNat - j) 1#8
    have hlength : src.length = size.toNat := by
      simp only [src, List.length_append, List.length_replicate]
      omega
    obtain ⟨m', hrun, hm'⟩ := (represents_empty (c := c)).writePieces hpages htiles htop
      (show _ ≤ addr.toNat + src.length by omega)
    obtain ⟨m'', hbytes, hm''⟩ := (represents_empty (c := c)).writeBytes hpages src addr
    rcases hwrites {} src hlength with ⟨_, herror⟩ | ⟨m₁, hok, hbytes'⟩
    · rw [run_writeBlock hlength, hwalk, hrun] at herror
      cases herror
    · rw [run_writeBlock hlength, hwalk, hrun] at hok
      rw [hbytes] at hbytes'
      cases hok
      cases hbytes'
      have hsame := hm'.getD_eq hm'' (addr + BitVec.ofNat 32 j)
      have hlast : src = List.replicate j 0#8 ++ List.replicate (size.toNat - j) 1#8 := rfl
      have hone := FlatMemory.writeBytes_append (List.replicate j 0#8)
        (List.replicate (size.toNat - j) 1#8) addr fun _ => none
      rw [List.length_replicate] at hone
      rw [FlatMemory.writeUpTo_replicate, hlast, hone,
        FlatMemory.writeBytes_replicate_self _ _ (by omega)] at hsame
      exact absurd hsame (by decide)
  · intro h m src hlength
    refine .inl ⟨.assertionFailed, ?_⟩
    rw [run_writeBlock hlength, pageWalk_of_rejects hpages _ (ne_zero_of_wraps hover) h]
    rfl

/-- A read past the top is whole only if it is rejected. Otherwise a memory of zeros, and a
destination of ones, show the difference. -/
theorem readsWhole_iff (hover : 2 ^ 32 < addr.toNat + size.toNat) :
    ReadsWhole c addr size ↔ Rejects c addr size := by
  constructor
  · intro hreads
    by_contra hrejects
    obtain ⟨e, pieces, htiles, htop, hwalk⟩ := exists_pageWalk_eq_of_wraps hpages hover hrejects
    have hle := htiles.le
    let dest := List.replicate size.toNat 1#8
    have hlength : dest.length = size.toNat := List.length_replicate
    have hdata : ∀ p ∈ pieces, ∃ data, (zeros c).m_storage p.page = some data := by
      intro p hp
      obtain ⟨-, hend, hfits, hpos⟩ := htiles.of_mem hp
      exact ⟨_, zeros_storage (PagedMemConfig.page_lt hpos (by omega))⟩
    have hrun := represents_zeros.readPieces hpages dest htiles htop (by omega) hdata
    rcases hreads (zeros c) dest hlength with ⟨_, herror⟩ | ⟨dest', hok, hbytes⟩
    · rw [run_readBlock hlength, hwalk, hrun] at herror
      cases herror
    · rw [run_readBlock hlength, hwalk, hrun] at hok
      rw [readBytes_zeros hpages, hlength] at hbytes
      cases hok
      -- the first byte that the walk does not come to
      have hrest := congrArg (fun d => d[e - addr.toNat]?) (Except.ok.inj hbytes)
      have hlt : e - addr.toNat < size.toNat := by omega
      simp [FlatMemory.readUpTo, dest, hlt, show ¬ addr.toNat + (e - addr.toNat) < e by omega]
        at hrest
  · intro h m dest hlength
    refine .inl ⟨.assertionFailed, ?_⟩
    rw [run_readBlock hlength, pageWalk_of_rejects hpages _ (ne_zero_of_wraps hover) h]
    rfl

/-- An access that is rejected is not walked. -/
theorem walks_of_rejects (hsize : size ≠ 0#64) (h : Rejects c addr size) : Walks c addr size := by
  rw [Walks, pageWalk_of_rejects hpages _ hsize h]
  exact fun hrun => by cases hrun

/-- An access past the top of the address space is carried out or refused as a whole
exactly if an assertion stops it. -/
theorem neverDrops_iff (hover : 2 ^ 32 < addr.toNat + size.toNat) :
    NeverDrops c addr size ↔ Rejects c addr size where
  mp h := (writesWhole_iff hpages hover).mp h.writes
  mpr h := {
    writes := (writesWhole_iff hpages hover).mpr h
    reads := (readsWhole_iff hpages hover).mpr h
    walks := walks_of_rejects hpages (ne_zero_of_wraps hover) h }

end Overflow

/-- Two bytes on the last address of two pages: the wrapped end is on the first page, and
the walk visits none. -/
theorem not_neverDrops_twoPages :
    ¬ NeverDrops ⟨1, by decide⟩ 0xFFFFFFFF#32 2#64 :=
  fun h => h.walks rfl

/-- With four pages, the wrapped end is far enough below. -/
theorem neverDrops_fourPages : NeverDrops ⟨2, by decide⟩ 0xFFFFFFFF#32 2#64 :=
  (neverDrops_iff (by decide) (by decide)).mpr (.inr (by decide))

end PagedMem

end Prot
