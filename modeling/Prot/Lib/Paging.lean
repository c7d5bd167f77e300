import Prot.Lib.Stateful
import Mathlib.Tactic.Ring

/-!
# Cutting a range at page boundaries

Page `p` of pages of size `S` holds the addresses from `p * S` up to the next page.
A range of addresses is cut into pieces, none of which reaches over the end of its
page, and an access to the range is an access to each of the pieces in turn.

## Main definitions

* `Paging.cut`: the pieces on a number of consecutive pages
* `Paging.Tiles`: the pieces lie one after another, from one address to another

## Main results

* `tiles_cut`: cutting a range tiles it, as far as the pages go
* `Tiles.run_forM`: the loop rule for an access piece by piece, with an
  invariant that says how far the access has come
* `Tiles.exists_mem`: every address of the range is in a piece
-/

namespace Paging

open Stateful

/-- Consecutive addresses on one page. -/
structure Piece where
  page : ℕ
  offset : ℕ
  size : ℕ
  deriving DecidableEq

namespace Piece

variable {S : ℕ} {p : Piece} {x : ℕ}

/-- The first address of a piece. -/
def start (S : ℕ) (p : Piece) : ℕ := p.page * S + p.offset

theorem div_eq (hfits : p.offset + p.size ≤ S) (hle : p.start S ≤ x)
    (hlt : x < p.start S + p.size) : x / S = p.page := by
  rw [start] at hle hlt
  rw [show x = (x - p.page * S) + p.page * S by omega, Nat.add_mul_div_right _ _ (by omega),
    Nat.div_eq_of_lt (by omega), Nat.zero_add]

theorem mod_eq (hfits : p.offset + p.size ≤ S) (hle : p.start S ≤ x)
    (hlt : x < p.start S + p.size) : x % S = p.offset + (x - p.start S) := by
  have hdiv := div_eq hfits hle hlt
  have hsplit := Nat.div_add_mod' x S
  rw [hdiv] at hsplit
  rw [start] at hle hlt ⊢
  omega

end Piece

/-- The pieces of the next `left` addresses on `n` pages, the first of which is
entered at an offset. -/
def cut (S page offset left : ℕ) : ℕ → List Piece
  | 0 => []
  | n + 1 =>
    let size := min (S - offset) left
    { page, offset, size } :: cut S (page + 1) 0 (left - size) n

/-- The pieces lie one after another from `a` to `b`, and none is empty. -/
inductive Tiles (S : ℕ) : ℕ → ℕ → List Piece → Prop
  | nil (a : ℕ) : Tiles S a a []
  | cons {p : Piece} {b : ℕ} {pieces : List Piece} (hfits : p.offset + p.size ≤ S)
      (hpos : 0 < p.size) (hrest : Tiles S (p.start S + p.size) b pieces) :
      Tiles S (p.start S) b (p :: pieces)

/-- Cutting a range on enough pages, but on no page that it does not reach. -/
theorem tiles_cut {S page offset left n : ℕ} (hoffset : offset < S) (hleft : 0 < left)
    (hreach : (page + n) * S < page * S + offset + left) :
    Tiles S (page * S + offset) (min (page * S + offset + left) ((page + n + 1) * S))
      (cut S page offset left (n + 1)) := by
  induction n generalizing page offset left with
  | zero =>
    -- the range ends on this page, or goes on past its end
    have hend : page * S + offset + min (S - offset) left =
        min (page * S + offset + left) ((page + 0 + 1) * S) := by
      rw [Nat.add_zero, Nat.succ_mul]
      omega
    rw [← hend]
    exact .cons (p := { page, offset, size := min (S - offset) left })
      (show offset + min (S - offset) left ≤ S by omega)
      (show 0 < min (S - offset) left by omega) (.nil _)
  | succ n ih =>
    -- the range reaches the next page, so the first piece ends where that begins
    have hpages : (page + (n + 1)) * S = page * S + S + n * S := by ring
    have hsize : min (S - offset) left = S - offset := by omega
    have hnext : page * S + offset + (S - offset) = (page + 1) * S + 0 := by
      rw [Nat.succ_mul]
      omega
    have hrest : Tiles S ((page + 1) * S + 0)
        (min ((page + 1) * S + 0 + (left - (S - offset))) ((page + 1 + n + 1) * S))
        (cut S (page + 1) 0 (left - (S - offset)) (n + 1)) :=
      ih (by omega) (by omega) (by rw [show page + 1 + n = page + (n + 1) by omega]; omega)
    have hend : (page + 1) * S + 0 + (left - (S - offset)) = page * S + offset + left := by
      omega
    rw [hend, show page + 1 + n + 1 = page + (n + 1) + 1 by omega] at hrest
    rw [cut, hsize]
    refine .cons (p := { page, offset, size := S - offset })
      (show offset + (S - offset) ≤ S by omega) (show 0 < S - offset by omega) ?_
    rw [show Piece.start S { page, offset, size := S - offset } + (S - offset) =
      (page + 1) * S + 0 from hnext]
    exact hrest

namespace Tiles

variable {S a b : ℕ} {pieces : List Piece}

/-- A range that is tiled does not end before it begins. -/
theorem le (h : Tiles S a b pieces) : a ≤ b := by
  induction h with
  | nil => exact le_rfl
  | cons _ _ _ ih => omega

/-- Every piece lies in the range and on one page. -/
theorem of_mem (h : Tiles S a b pieces) {p : Piece} (hp : p ∈ pieces) :
    a ≤ p.start S ∧ p.start S + p.size ≤ b ∧ p.offset + p.size ≤ S ∧ 0 < p.size := by
  induction h with
  | nil => cases hp
  | cons hfits hpos hrest ih =>
    rcases List.mem_cons.mp hp with rfl | hp
    · exact ⟨le_rfl, hrest.le, hfits, hpos⟩
    · have hrest := ih hp
      exact ⟨by omega, hrest.2⟩

/-- Every address of the range is in a piece. -/
theorem exists_mem (h : Tiles S a b pieces) {x : ℕ} (ha : a ≤ x) (hb : x < b) :
    ∃ p ∈ pieces, p.start S ≤ x ∧ x < p.start S + p.size := by
  induction h with
  | nil => omega
  | @cons p b pieces hfits hpos hrest ih =>
    by_cases hx : x < p.start S + p.size
    · exact ⟨p, List.mem_cons_self, ha, hx⟩
    · obtain ⟨p', hp', hx'⟩ := ih (by omega) hb
      exact ⟨p', List.mem_cons_of_mem _ hp', hx'⟩

/-- The pages of the pieces are the pages of the addresses. -/
theorem exists_page_iff (h : Tiles S a b pieces) {P : ℕ → Prop} :
    (∃ p ∈ pieces, P p.page) ↔ ∃ x, a ≤ x ∧ x < b ∧ P (x / S) := by
  constructor
  · rintro ⟨p, hp, hP⟩
    obtain ⟨hle, hlt, hfits, hpos⟩ := h.of_mem hp
    refine ⟨p.start S, hle, by omega, ?_⟩
    rwa [Piece.div_eq hfits le_rfl (by omega)]
  · rintro ⟨x, hle, hlt, hP⟩
    obtain ⟨p, hp, hstart, hend⟩ := h.exists_mem hle hlt
    refine ⟨p, hp, ?_⟩
    rwa [Piece.div_eq (h.of_mem hp).2.2.1 hstart hend] at hP

variable {ε σ : Type} {op : Piece → EStateM ε σ Unit} {s : σ}

/-- An access piece by piece returns if it does on every piece that it has come to,
where `inv x` holds of the states in which it has come to the address `x`. -/
theorem run_forM (h : Tiles S a b pieces) (inv : ℕ → σ → Prop) (hinit : inv a s)
    (hstep : ∀ p ∈ pieces, ∀ s, inv (p.start S) s →
      ∃ s', (op p).run s = .ok () s' ∧ inv (p.start S + p.size) s') :
    ∃ s', (forM pieces op).run s = .ok () s' ∧ inv b s' := by
  induction h generalizing s with
  | nil => exact ⟨s, rfl, hinit⟩
  | @cons p b pieces _ _ _ ih =>
    obtain ⟨s₁, hfirst, hs₁⟩ := hstep p List.mem_cons_self s hinit
    obtain ⟨s', hrest, hs'⟩ := ih hs₁ fun p' hp' => hstep p' (List.mem_cons_of_mem _ hp')
    exact ⟨s', by rw [List.forM_cons, run_seq_ok hfirst, hrest], hs'⟩

end Tiles

end Paging
