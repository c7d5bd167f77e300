import Prot.Rv32iDecode

/-!
# The documented encodings

The decoder writes above each of its cases the encoding that the case is for, as
thirty-two characters. This file compares what the cases accept with what is
written above them.

A case looks only at the bits that the mask of its switch keeps. Two cases stand
in a switch whose mask is too narrow for them, and accept reserved encodings.

## Main results

* `decode_eq_some_iff`: the four switches have at most one case for a word
* `followsPatterns_iff`: the words that are decoded as documented
-/

namespace Prot.Isa

/-! ### Patterns -/

/-- The encoding above the case that produces an opcode, from bit 31 down. -/
def Opcode.pattern : Opcode → Option String
  | .kLB => some "xxxxxxxxxxxxxxxxx000xxxxx0000011"
  | .kLH => some "xxxxxxxxxxxxxxxxx001xxxxx0000011"
  | .kLW => some "xxxxxxxxxxxxxxxxx010xxxxx0000011"
  | .kLBU => some "xxxxxxxxxxxxxxxxx100xxxxx0000011"
  | .kLHU => some "xxxxxxxxxxxxxxxxx101xxxxx0000011"
  | .kFENCE => some "xxxxxxxxxxxxxxxxx000xxxxx0001111"
  | .kADDI => some "xxxxxxxxxxxxxxxxx000xxxxx0010011"
  | .kSLLI => some "0000000xxxxxxxxxx001xxxxx0010011"
  | .kSLTI => some "xxxxxxxxxxxxxxxxx010xxxxx0010011"
  | .kSLTIU => some "xxxxxxxxxxxxxxxxx011xxxxx0010011"
  | .kXORI => some "xxxxxxxxxxxxxxxxx100xxxxx0010011"
  | .kORI => some "xxxxxxxxxxxxxxxxx110xxxxx0010011"
  | .kANDI => some "xxxxxxxxxxxxxxxxx111xxxxx0010011"
  | .kSB => some "xxxxxxxxxxxxxxxxx000xxxxx0100011"
  | .kSH => some "xxxxxxxxxxxxxxxxx001xxxxx0100011"
  | .kSW => some "xxxxxxxxxxxxxxxxx010xxxxx0100011"
  | .kBEQ => some "xxxxxxxxxxxxxxxxx000xxxxx1100011"
  | .kBNE => some "xxxxxxxxxxxxxxxxx001xxxxx1100011"
  | .kBLT => some "xxxxxxxxxxxxxxxxx100xxxxx1100011"
  | .kBGE => some "xxxxxxxxxxxxxxxxx101xxxxx1100011"
  | .kBLTU => some "xxxxxxxxxxxxxxxxx110xxxxx1100011"
  | .kBGEU => some "xxxxxxxxxxxxxxxxx111xxxxx1100011"
  | .kSRLI => some "0000000xxxxxxxxxx101xxxxx0010011"
  | .kSRAI => some "0100000xxxxxxxxxx101xxxxx0010011"
  | .kADD => some "0000000xxxxxxxxxx000xxxxx0110011"
  | .kSLL => some "0000000xxxxxxxxxx001xxxxx0110011"
  | .kSLT => some "0000000xxxxxxxxxx010xxxxx0110011"
  | .kSLTU => some "0000000xxxxxxxxxx011xxxxx0110011"
  | .kXOR => some "0000000xxxxxxxxxx100xxxxx0110011"
  | .kSRL => some "0000000xxxxxxxxxx101xxxxx0110011"
  | .kOR => some "0000000xxxxxxxxxx110xxxxx0110011"
  | .kAND => some "0000000xxxxxxxxxx111xxxxx0110011"
  | .kSUB => some "0100000xxxxxxxxxx000xxxxx0110011"
  | .kSRA => some "0100000xxxxxxxxxx101xxxxx0110011"
  | .kAUIPC => some "xxxxxxxxxxxxxxxxxxxxxxxxx0010111"
  | .kLUI => some "xxxxxxxxxxxxxxxxxxxxxxxxx0110111"
  | .kJALR => some "xxxxxxxxxxxxxxxxx000xxxxx1100111"
  | .kJAL => some "xxxxxxxxxxxxxxxxxxxxxxxxx1101111"
  | .kECALL => some "00000000000000000000000001110011"
  | .kEBREAK => some "00000000000100000000000001110011"
  | .kPAUSE | .kSBREAK | .kSCALL | .kNumOpcodes => none

/-- The character of a pattern for the `i`-th bit from the top. -/
def charAt (pattern : String) (i : ℕ) : Char := pattern.toList.getD i 'x'

/-- The word has the fixed bits of the pattern. -/
def Fits (pattern : String) (w : Word) : Prop :=
  ∀ i < 32, charAt pattern i ≠ 'x' → w.getMsbD i = decide (charAt pattern i = '1')

/-- The mask keeps the fixed bits of the pattern, and the label is their value. -/
def Describes (pattern : String) (mask label : Word) : Prop :=
  ∀ i < 32, mask.getMsbD i = decide (charAt pattern i ≠ 'x') ∧
    label.getMsbD i = decide (charAt pattern i = '1')

instance (pattern : String) (mask label : Word) : Decidable (Describes pattern mask label) :=
  inferInstanceAs (Decidable (∀ i < 32, _ ∧ _))

/-- A pattern is a mask and a label: where the mask has a one, the word and the label agree. -/
theorem fits_iff {pattern : String} {mask label : Word} (h : Describes pattern mask label)
    (w : Word) : Fits pattern w ↔ w &&& mask = label := by
  constructor
  · intro hfits
    refine BitVec.eq_of_getMsbD_eq fun i hi => ?_
    obtain ⟨hmask, hlabel⟩ := h i hi
    rw [BitVec.getMsbD_and, hmask, hlabel]
    by_cases hfixed : charAt pattern i = 'x'
    · simp [hfixed]
    · simp [hfixed, hfits i hi hfixed]
  · rintro rfl i hi hfixed
    obtain ⟨hmask, hlabel⟩ := h i hi
    rw [BitVec.getMsbD_and, hmask] at hlabel
    simpa [hfixed] using hlabel

/-! ### What the cases accept -/

/-- The four switches, each with its mask. -/
def switches : List (Word × List Case) :=
  [(mask₀, cases₀), (mask₁, cases₁), (mask₂, cases₂), (mask₃, cases₃)]

/-- No word gets to two cases. -/
theorem eq_of_overlap : ∀ s ∈ switches, ∀ c ∈ s.2, ∀ s' ∈ switches, ∀ c' ∈ s'.2,
    c.1 &&& s'.1 = c'.1 &&& s.1 → s.1 = s'.1 ∧ c.1 = c'.1 := by
  decide +kernel

theorem nodup_masks : (switches.map (·.1)).Nodup := by decide

theorem nodup_labels : ∀ s ∈ switches, (s.2.map (·.1)).Nodup := by decide +kernel

/-- An entry is found if no other has its key. -/
theorem lookup_of_mem {α β : Type} [BEq α] [LawfulBEq α] {a : α} {b : β} {l : List (α × β)}
    (hnodup : (l.map (·.1)).Nodup) (h : (a, b) ∈ l) : l.lookup a = some b := by
  cases hlookup : l.lookup a with
  | none => exact absurd rfl (bne_iff_ne.mp (List.lookup_eq_none_iff.mp hlookup _ h))
  | some b' =>
    have heq := List.inj_on_of_nodup_map hnodup (mem_of_lookup hlookup) h rfl
    rw [(Prod.mk.inj heq).2]

/-- A switch that returns found the label of one of its cases. -/
theorem exists_label_of_switchOn {mask word : Word} {cases : List Case} {i : Instruction}
    (h : switchOn mask cases word = some i) : ∃ c ∈ cases, word &&& mask = c.1 ∧ i = c.2 word := by
  obtain ⟨build, hlookup, rfl⟩ := Option.map_eq_some_iff.mp h
  exact ⟨_, mem_of_lookup hlookup, rfl, rfl⟩

/-- A switch answers with the case of the label. -/
theorem switchOn_of_mem {s : Word × List Case} (hs : s ∈ switches) {c : Case} (hc : c ∈ s.2)
    {w : Word} (hlabel : w &&& s.1 = c.1) : switchOn s.1 s.2 w = some (c.2 w) := by
  rw [switchOn, hlabel, lookup_of_mem (nodup_labels s hs) hc, Option.map_some]

/-- The order of the switches does not matter: a word is decoded by the case whose label
it has under the mask, and there is at most one. -/
theorem decode_eq_some_iff {w : Word} {i : Instruction} :
    decode w = some i ↔ ∃ s ∈ switches, ∃ c ∈ s.2, w &&& s.1 = c.1 ∧ i = c.2 w := by
  have hdecode : decode w = switches.findSome? fun s => switchOn s.1 s.2 w := by
    simp only [decode, switches, List.findSome?_cons, List.findSome?_nil]
    cases switchOn mask₀ cases₀ w <;> cases switchOn mask₁ cases₁ w <;>
      cases switchOn mask₂ cases₂ w <;> cases switchOn mask₃ cases₃ w <;> rfl
  rw [hdecode]
  constructor
  · intro h
    obtain ⟨s, hs, hswitch⟩ := List.exists_of_findSome?_eq_some h
    obtain ⟨c, hc, hlabel, rfl⟩ := exists_label_of_switchOn hswitch
    exact ⟨s, hs, c, hc, hlabel, rfl⟩
  · rintro ⟨s, hs, c, hc, hlabel, rfl⟩
    have hsome := switchOn_of_mem hs hc hlabel
    cases hfind : switches.findSome? fun s => switchOn s.1 s.2 w with
    | none =>
      rw [List.findSome?_eq_none_iff.mp hfind s hs] at hsome
      cases hsome
    | some j =>
      -- the switch that answered first has the same case
      obtain ⟨s', hs', hswitch⟩ := List.exists_of_findSome?_eq_some hfind
      obtain ⟨c', hc', hlabel', rfl⟩ := exists_label_of_switchOn hswitch
      have hoverlap : c.1 &&& s'.1 = c'.1 &&& s.1 := by
        rw [← hlabel, ← hlabel', BitVec.and_assoc, BitVec.and_assoc, BitVec.and_comm s.1]
      obtain ⟨hmask, -⟩ := eq_of_overlap s hs c hc s' hs' c' hc' hoverlap
      obtain rfl := List.inj_on_of_nodup_map nodup_masks hs hs' hmask
      rw [← hswitch, hsome]

/-- The opcode of each case, with the mask and the label under which it is reached. -/
def labels : List (Opcode × Word × Word) :=
  switches.flatMap fun s => s.2.map fun c => ((c.2 0#32).opcode, s.1, c.1)

theorem nodup_opcodes : (labels.map (·.1)).Nodup := by decide +kernel

/-- A case decodes to one opcode, whatever the other bits are. -/
theorem opcode_build : ∀ s ∈ switches, ∀ c ∈ s.2, ∀ w, (c.2 w).opcode = (c.2 0#32).opcode := by
  simp only [switches, cases₀, cases₁, cases₂, cases₃, List.forall_mem_cons, List.not_mem_nil,
    false_implies, implies_true, and_true]
  and_intros
  all_goals exact fun _ => rfl

/-- The label of a case is that of its opcode. -/
theorem mem_labels {s : Word × List Case} (hs : s ∈ switches) {c : Case} (hc : c ∈ s.2) (w : Word) :
    ((c.2 w).opcode, s.1, c.1) ∈ labels := by
  rw [opcode_build s hs c hc w]
  exact List.mem_flatMap.mpr ⟨s, hs, List.mem_map.mpr ⟨c, hc, rfl⟩⟩

/-- The words that are decoded to an opcode. -/
theorem decodes_to_iff {opc : Opcode} {mask label : Word}
    (hopc : labels.lookup opc = some (mask, label)) (w : Word) :
    (∃ i, decode w = some i ∧ i.opcode = opc) ↔ w &&& mask = label := by
  constructor
  · rintro ⟨i, hdecode, rfl⟩
    obtain ⟨s, hs, c, hc, hlabel, rfl⟩ := decode_eq_some_iff.mp hdecode
    rw [lookup_of_mem nodup_opcodes (mem_labels hs hc w)] at hopc
    cases hopc
    exact hlabel
  · intro hlabel
    obtain ⟨s, hs, hmem⟩ := List.mem_flatMap.mp (mem_of_lookup hopc)
    obtain ⟨c, hc, heq⟩ := List.mem_map.mp hmem
    cases heq
    exact ⟨c.2 w, decode_eq_some_iff.mpr ⟨s, hs, c, hc, hlabel, rfl⟩, opcode_build s hs c hc w⟩

/-- Every opcode that is decoded has a pattern above its case. -/
theorem exists_pattern {opc : Opcode} (h : opc.isDecoded = true) :
    ∃ pattern, opc.pattern = some pattern := by
  cases opc <;> first | exact ⟨_, rfl⟩ | cases h

/-! ### Where the cases accept what is documented -/

/-- The cases that check every fixed bit of their pattern. -/
theorem decodes_to_iff_fits {opc : Opcode} {pattern : String}
    (hpattern : opc.pattern = some pattern) (hslli : opc ≠ .kSLLI) (hjalr : opc ≠ .kJALR)
    (w : Word) : (∃ i, decode w = some i ∧ i.opcode = opc) ↔ Fits pattern w := by
  obtain ⟨mask, label, hopc, hdescribes⟩ :
      ∃ mask label, labels.lookup opc = some (mask, label) ∧ Describes pattern mask label := by
    cases opc <;> cases hpattern
    case kSLLI => exact absurd rfl hslli
    case kJALR => exact absurd rfl hjalr
    all_goals exact ⟨_, _, rfl, by decide +kernel⟩
  rw [decodes_to_iff hopc, fits_iff hdescribes]

/-! ### Reserved encodings

The fixed bits of a word are its major opcode, `funct3` and `funct7`, and a mask
keeps the first of them or more. -/

section Fields

variable (w : Word) (op : BitVec 7) (f : BitVec 3) (f' : BitVec 7)

/-- The three fields in their places, and zeros between them. -/
def pack : Word := op.setWidth 32 ||| f.setWidth 32 <<< 12 ||| f'.setWidth 32 <<< 25

theorem opcode_pack : Rv32i.opcode (pack op f f') = op := by
  ext i hi
  interval_cases i <;> simp [Rv32i.opcode, pack]

theorem funct3_pack : Rv32i.funct3 (pack op f f') = f := by
  ext i hi
  interval_cases i <;> simp [Rv32i.funct3, pack]

theorem funct7_pack : Rv32i.funct7 (pack op f f') = f' := by
  ext i hi
  interval_cases i <;> simp [Rv32i.funct7, pack]

/-- Each field can be read off the packed word. -/
theorem pack_inj {op₂ : BitVec 7} {f₂ : BitVec 3} {f₂' : BitVec 7} :
    pack op f f' = pack op₂ f₂ f₂' ↔ op = op₂ ∧ f = f₂ ∧ f' = f₂' := by
  constructor
  · intro h
    have hop := congrArg Rv32i.opcode h
    have hf := congrArg Rv32i.funct3 h
    have hf' := congrArg Rv32i.funct7 h
    rw [opcode_pack, opcode_pack] at hop
    rw [funct3_pack, funct3_pack] at hf
    rw [funct7_pack, funct7_pack] at hf'
    exact ⟨hop, hf, hf'⟩
  · rintro ⟨rfl, rfl, rfl⟩
    rfl

theorem and_mask₀_eq_iff :
    w &&& mask₀ = pack op f 0#7 ↔ Rv32i.opcode w = op ∧ Rv32i.funct3 w = f := by
  have hpack : w &&& mask₀ = pack (Rv32i.opcode w) (Rv32i.funct3 w) 0#7 := by
    rw [and_mask₀, pack]
    simp
  rw [hpack, pack_inj]
  simp

theorem and_mask₁_eq_iff :
    w &&& mask₁ = pack op f f' ↔
      Rv32i.opcode w = op ∧ Rv32i.funct3 w = f ∧ Rv32i.funct7 w = f' := by
  rw [and_mask₁, ← pack, pack_inj]

theorem and_mask₂_eq_iff : w &&& mask₂ = pack op 0#3 0#7 ↔ Rv32i.opcode w = op := by
  have hpack : w &&& mask₂ = pack (Rv32i.opcode w) 0#3 0#7 := by
    rw [and_mask₂, pack]
    simp
  rw [hpack, pack_inj]
  simp

end Fields

section Reserved

variable (w : Word)

/-- A left shift whose upper seven bits are not zero. -/
def IsReservedShift : Prop :=
  Rv32i.opcode w = 0b0010011#7 ∧ Rv32i.funct3 w = 0b001#3 ∧ Rv32i.funct7 w ≠ 0#7

/-- An indirect jump with a `funct3` other than zero. -/
def IsReservedJump : Prop := Rv32i.opcode w = 0b1100111#7 ∧ Rv32i.funct3 w ≠ 0#3

/-- `kSLLI` is a case of the first switch, whose mask leaves `funct7` out. -/
theorem decodes_to_slli_iff :
    (∃ i, decode w = some i ∧ i.opcode = .kSLLI) ↔
      Rv32i.opcode w = 0b0010011#7 ∧ Rv32i.funct3 w = 0b001#3 :=
  (decodes_to_iff rfl w).trans (and_mask₀_eq_iff w 0b0010011#7 0b001#3)

/-- The pattern of `slli` fixes `funct7`. -/
theorem fits_slli_iff :
    Fits "0000000xxxxxxxxxx001xxxxx0010011" w ↔
      Rv32i.opcode w = 0b0010011#7 ∧ Rv32i.funct3 w = 0b001#3 ∧ Rv32i.funct7 w = 0#7 :=
  have hpattern : Describes "0000000xxxxxxxxxx001xxxxx0010011" mask₁
      (pack 0b0010011#7 0b001#3 0#7) := by decide +kernel
  (fits_iff hpattern w).trans (and_mask₁_eq_iff w 0b0010011#7 0b001#3 0#7)

/-- `kJALR` is a case of the third switch, whose mask leaves `funct3` out. -/
theorem decodes_to_jalr_iff :
    (∃ i, decode w = some i ∧ i.opcode = .kJALR) ↔ Rv32i.opcode w = 0b1100111#7 :=
  (decodes_to_iff rfl w).trans (and_mask₂_eq_iff w 0b1100111#7)

/-- The pattern of `jalr` fixes `funct3`. -/
theorem fits_jalr_iff :
    Fits "xxxxxxxxxxxxxxxxx000xxxxx1100111" w ↔
      Rv32i.opcode w = 0b1100111#7 ∧ Rv32i.funct3 w = 0#3 :=
  have hpattern :
      Describes "xxxxxxxxxxxxxxxxx000xxxxx1100111" mask₀ (pack 0b1100111#7 0#3 0#7) := by
    decide +kernel
  (fits_iff hpattern w).trans (and_mask₀_eq_iff w 0b1100111#7 0#3)

/-- Decoding the word does what is written above the cases. -/
structure FollowsPatterns : Prop where
  opcode_iff : ∀ opc pattern, Opcode.pattern opc = some pattern →
    ((∃ i, decode w = some i ∧ i.opcode = opc) ↔ Fits pattern w)
  none_iff : decode w = none ↔
    ∀ opc pattern, Opcode.pattern opc = some pattern → ¬ Fits pattern w

/-- Only the masks of `kSLLI` and `kJALR` leave a field of their pattern out. -/
theorem decodes_to_iff_fits_of_not_reserved (hshift : ¬ IsReservedShift w)
    (hjump : ¬ IsReservedJump w) {opc : Opcode} {pattern : String}
    (hpattern : Opcode.pattern opc = some pattern) :
    (∃ i, decode w = some i ∧ i.opcode = opc) ↔ Fits pattern w := by
  by_cases hslli : opc = .kSLLI
  · subst hslli
    cases hpattern
    rw [decodes_to_slli_iff, fits_slli_iff]
    constructor
    · rintro ⟨hop, hf⟩
      exact ⟨hop, hf, by_contra fun hf' => hshift ⟨hop, hf, hf'⟩⟩
    · rintro ⟨hop, hf, -⟩
      exact ⟨hop, hf⟩
  by_cases hjalr : opc = .kJALR
  · subst hjalr
    cases hpattern
    rw [decodes_to_jalr_iff, fits_jalr_iff]
    constructor
    · intro hop
      exact ⟨hop, by_contra fun hf => hjump ⟨hop, hf⟩⟩
    · exact And.left
  · exact decodes_to_iff_fits hpattern hslli hjalr w

/-- If each opcode goes by its pattern, what fits none is not decoded. -/
theorem followsPatterns_of_opcode_iff (hiff : ∀ opc pattern, Opcode.pattern opc = some pattern →
    ((∃ i, decode w = some i ∧ i.opcode = opc) ↔ Fits pattern w)) : FollowsPatterns w := by
  refine ⟨hiff, ?_, ?_⟩
  · intro hnone opc pattern hpattern hfits
    obtain ⟨i, hdecode, -⟩ := (hiff opc pattern hpattern).mpr hfits
    rw [hnone] at hdecode
    cases hdecode
  · intro hno
    cases hdecode : decode w with
    | none => rfl
    | some i =>
      obtain ⟨pattern, hpattern⟩ := exists_pattern (wellFormed_of_decode hdecode).isDecoded
      exact absurd ((hiff _ pattern hpattern).mp ⟨i, hdecode, rfl⟩) (hno _ pattern hpattern)

/-- Exactly the reserved encodings of two instructions are not decoded as documented:
they are taken for the instructions whose reserved encodings they are. -/
theorem followsPatterns_iff : FollowsPatterns w ↔ ¬ IsReservedShift w ∧ ¬ IsReservedJump w := by
  constructor
  · intro h
    have hslli := h.opcode_iff .kSLLI _ rfl
    have hjalr := h.opcode_iff .kJALR _ rfl
    rw [decodes_to_slli_iff, fits_slli_iff] at hslli
    rw [decodes_to_jalr_iff, fits_jalr_iff] at hjalr
    constructor
    · rintro ⟨hop, hf, hf'⟩
      exact hf' (hslli.mp ⟨hop, hf⟩).2.2
    · rintro ⟨hop, hf⟩
      exact hf (hjalr.mp hop).2
  · rintro ⟨hshift, hjump⟩
    exact followsPatterns_of_opcode_iff w fun _ _ hpattern =>
      decodes_to_iff_fits_of_not_reserved w hshift hjump hpattern

/-- `slli x1, x1, 0` with a bit of `funct7` set, and `jalr x0, 0(x0)` with a bit of `funct3`. -/
theorem not_followsPatterns_reserved :
    ¬ FollowsPatterns 0x02009093#32 ∧ ¬ FollowsPatterns 0x00001067#32 := by
  constructor
  · intro h
    have hfits := (h.opcode_iff .kSLLI _ rfl).mp ⟨_, rfl, rfl⟩
    exact absurd (hfits 6 (by decide) (by decide)) (by decide)
  · intro h
    have hfits := (h.opcode_iff .kJALR _ rfl).mp ⟨_, rfl, rfl⟩
    exact absurd (hfits 19 (by decide) (by decide)) (by decide)

end Reserved

end Prot.Isa
