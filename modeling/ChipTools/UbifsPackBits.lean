import ChipTools.BitConcat
import ChipTools.UbifsLptPack

/-! Calls of `pack_bits` one behind the other: what they leave in the buffer is the concatenation
of the fields. -/
namespace ChipTools.Ubifs
open Bytes BitField

section Stream

/-- `pack_bits` for one field after the other. -/
def packFields (k : Packer) (fields : List Field) : Packer :=
  fields.foldl (fun k f => packBits k f.1 f.2) k

/-- The number of bits of the fields. -/
def fieldsWidth (fields : List Field) : ℕ := (fields.map Prod.snd).sum

/-- The fields as numbers. -/
def fieldNumbers (fields : List Field) : List (ℕ × ℕ) := fields.map fun f => (f.1.toNat, f.2)

variable {k : Packer} {fields : List Field}

theorem packFields_cons (f : Field) (fs : List Field) :
    packFields k (f :: fs) = packFields (packBits k f.1 f.2) fs := rfl

theorem fieldsWidth_cons (f : Field) (fs : List Field) :
    fieldsWidth (f :: fs) = f.2+fieldsWidth fs := by
  rw [fieldsWidth, List.map_cons, List.sum_cons, fieldsWidth]

theorem fieldNumbers_widths (fs : List Field) :
    (fieldNumbers fs).map Prod.snd = fs.map Prod.snd := by
  rw [fieldNumbers, List.map_map]
  rfl

theorem fieldNumbers_narrow (hf : ∀ f ∈ fields, FieldFits f) : Narrow (fieldNumbers fields) := by
  intro f hmem
  obtain ⟨g, hg, rfl⟩ := List.mem_map.mp hmem
  exact (hf g hg).lt

/-- All bits of the buffer behind the calls. Each call clears the rest of the last byte it writes,
so the bits of that byte behind the fields are zero. -/
theorem packFields_stream (hk : k.Clean) (hf : ∀ f ∈ fields, FieldFits f) :
    (packFields k fields).Clean ∧ (packFields k fields).bit = k.bit+fieldsWidth fields ∧
    ∀ n, bits (packFields k fields).buf n =
      if k.bit ≤ n ∧ n < 8*((k.bit+fieldsWidth fields+7)/8) then
        (concat (fieldNumbers fields)).testBit (n-k.bit)
      else bits k.buf n := by
  induction fields generalizing k with
  | nil =>
    refine ⟨hk, rfl, fun n => ?_⟩
    split
    next hn =>
      -- only the rest of a byte that is begun is here
      obtain ⟨hlo, hhi⟩ := hn
      have hpos := hk.pos
      unfold Packer.bit at hlo hhi
      rw [fieldsWidth, List.map_nil, List.sum_nil, Nat.add_zero] at hhi
      change bits k.buf n = Nat.testBit 0 _
      have hbyte : n = 8*k.addr+n%8 := by omega
      rw [Nat.zero_testBit, hbyte, bits_byte _ _ (Nat.mod_lt _ (by decide))]
      exact hk.rest _ (by omega) (by omega) (Nat.mod_lt _ (by decide))
    next => rfl
  | cons f fs ih =>
    have hfits := hf f List.mem_cons_self
    obtain ⟨hclean, hbit, -, -⟩ := packBits_bits hk hfits
    obtain ⟨hbytes, -, -⟩ := packBits_bytes hk hfits
    obtain ⟨h1, h2, h3⟩ := ih hclean fun g hg => hf g (List.mem_cons_of_mem _ hg)
    have hw := hfits.pos
    rw [packFields_cons, fieldsWidth_cons]
    refine ⟨h1, by rw [h2, hbit, Nat.add_assoc], fun n => ?_⟩
    have hcat := @testBit_concat_cons (fieldNumbers fs) _ _ hfits.lt (n-k.bit)
    have hnumbers : fieldNumbers (f :: fs) = (f.1.toNat, f.2) :: fieldNumbers fs := rfl
    rw [h3, hbytes, hbit, hnumbers, hcat]
    by_cases hrest : k.bit+f.2 ≤ n ∧ n < 8*((k.bit+f.2+fieldsWidth fs+7)/8)
    · rw [if_pos hrest, if_pos (by omega), if_neg (by omega), show n-(k.bit+f.2) = n-k.bit-f.2 by omega]
    · rw [if_neg hrest]
      by_cases hin : k.bit ≤ n ∧ n < k.bit+f.2
      · rw [if_pos (by omega), if_pos (by omega), if_pos (by omega)]
        rfl
      · rw [if_neg (by omega), if_neg (by omega)]

/-- The fields of a list of calls, from a byte on: the bytes hold their concatenation, and nothing
is written in front of them or behind the last one that is begun. -/
theorem packFields_concat (buf : ℕ → Byte) (addr : ℕ) (hf : ∀ f ∈ fields, FieldFits f) :
    (packFields ⟨buf, addr, 0⟩ fields).addr = addr+fieldsWidth fields/8 ∧
    (packFields ⟨buf, addr, 0⟩ fields).pos = fieldsWidth fields%8 ∧
    leVal (readBytes (packFields ⟨buf, addr, 0⟩ fields).buf addr ((fieldsWidth fields+7)/8)) =
      concat (fieldNumbers fields) ∧
    (∀ x, x < addr ∨ addr+(fieldsWidth fields+7)/8 ≤ x →
      (packFields ⟨buf, addr, 0⟩ fields).buf x = buf x) ∧
    extract (fields.map Prod.snd)
      (leVal (readBytes (packFields ⟨buf, addr, 0⟩ fields).buf addr
        ((fieldsWidth fields+7)/8))) = fields.map fun f => f.1.toNat := by
  have hstart : (Packer.mk buf addr 0).Clean := ⟨Nat.zero_lt_succ 7, fun j h0 => absurd rfl h0⟩
  have hbit0 : (Packer.mk buf addr 0).bit = 8*addr := Nat.add_zero _
  obtain ⟨hclean, hbit, hbits⟩ := packFields_stream hstart hf
  rw [hbit0] at hbit hbits
  have hpos := hclean.pos
  unfold Packer.bit at hbit
  have hnarrow := fieldNumbers_narrow hf
  have hvalue : leVal (readBytes (packFields ⟨buf, addr, 0⟩ fields).buf addr
      ((fieldsWidth fields+7)/8)) = concat (fieldNumbers fields) := by
    apply leVal_readBytes_eq
    · have hlt := concat_lt hnarrow
      rw [fieldNumbers_widths] at hlt
      exact hlt.trans_le (Nat.pow_le_pow_right (by decide) (by unfold fieldsWidth; omega))
    · intro n hn
      rw [hbits, if_pos (by omega), Nat.add_sub_cancel_left]
  have hvalues : (fieldNumbers fields).map Prod.fst = fields.map fun f => f.1.toNat := by
    rw [fieldNumbers, List.map_map]
    rfl
  refine ⟨by omega, by omega, hvalue, fun x hx => ?_, ?_⟩
  · apply BitVec.eq_of_getLsbD_eq
    intro i hi
    rw [← bits_byte _ _ hi, ← bits_byte _ _ hi, hbits, if_neg (by omega)]
  · rw [hvalue, ← fieldNumbers_widths, extract_concat hnarrow, hvalues]

/-- Three fields, the second one over five bytes. -/
theorem packFields_concat_three :
    (∀ f ∈ ([(5#32, 3), (0xdeadbeef#32, 32), (1#32, 1)] : List Field), FieldFits f) ∧
    leVal (readBytes (packFields ⟨fun _ => 0xff#8, 7, 0⟩
      [(5#32, 3), (0xdeadbeef#32, 32), (1#32, 1)]).buf 7 5) = 5+8*0xdeadbeef+2^35 := by
  have hf : ∀ f ∈ ([(5#32, 3), (0xdeadbeef#32, 32), (1#32, 1)] : List Field), FieldFits f := by
    intro f hmem
    rcases List.mem_cons.mp hmem with rfl | hmem
    · exact ⟨by decide, by decide, by decide⟩
    rcases List.mem_cons.mp hmem with rfl | hmem
    · exact ⟨by decide, by decide, by decide⟩
    rw [List.mem_singleton.mp hmem]
    exact ⟨by decide, by decide, by decide⟩
  exact ⟨hf, (packFields_concat (fun _ => 0xff#8) 7 hf).2.2.1⟩

end Stream

end ChipTools.Ubifs
