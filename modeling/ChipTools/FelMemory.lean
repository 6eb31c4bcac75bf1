import ChipTools.ArmMachine

/-! Device memory as the FEL commands see it: block writes, and the uploads of
code whose words the host converts to little-endian order. -/
namespace ChipTools.Fel
open Arm

/-- `aw_fel_write`: the bytes appear at consecutive device addresses. -/
def awFelWrite (m : Mem) (buf : List (BitVec 8)) (offset : Word) : Mem :=
  fun x => buf.getD (x-offset).toNat (m x)

/-- Words after `htole32`. -/
def leBytes (ws : List Word) : List (BitVec 8) :=
  ws.flatMap fun w => (List.range 4).map fun k => w.extractLsb' (8*k) 8

@[simp] theorem leBytes_length (ws : List Word) : (leBytes ws).length = 4*ws.length := by
  induction ws with
  | nil => rfl
  | cons w ws ih =>
    simp only [leBytes, List.flatMap_cons, List.length_append] at ih ⊢
    rw [ih, List.length_cons, List.length_map, List.length_range]
    omega

theorem leBytes_getElem? (ws : List Word) (i k : ℕ) (hk : k < 4) :
    (leBytes ws)[4*i+k]? = ws[i]?.map fun w => w.extractLsb' (8*k) 8 := by
  induction ws generalizing i with
  | nil => rfl
  | cons w ws ih =>
    change ((List.range 4).map (fun k => w.extractLsb' (8*k) 8) ++ leBytes ws)[4*i+k]? = _
    cases i with
    | zero =>
      rw [List.getElem?_append_left (by simpa using hk)]
      simp [hk]
    | succ i =>
      rw [List.getElem?_append_right (by simp; omega), List.length_map, List.length_range,
        show 4*(i+1)+k-4 = 4*i+k from by omega, ih]
      rfl

theorem awFelWrite_byte (m : Mem) (buf : List (BitVec 8)) (offset : Word) (k : ℕ)
    (hk : k < buf.length) (hlen : buf.length ≤ 2^32) :
    awFelWrite m buf offset (offset+BitVec.ofNat 32 k) = buf[k] := by
  unfold awFelWrite
  have he : offset+BitVec.ofNat 32 k-offset = BitVec.ofNat 32 k := by
    rw [BitVec.add_comm, BitVec.add_sub_cancel]
  rw [he, BitVec.toNat_ofNat, Nat.mod_eq_of_lt (by omega), List.getD_eq_getElem?_getD,
    List.getElem?_eq_getElem hk, Option.getD_some]

theorem awFelWrite_outside (m : Mem) (buf : List (BitVec 8)) (offset x : Word)
    (hx : buf.length ≤ (x-offset).toNat) : awFelWrite m buf offset x = m x := by
  unfold awFelWrite
  rw [List.getD_eq_getElem?_getD, List.getElem?_eq_none hx, Option.getD_none]

/-- An uploaded word is read back by the device as it was on the host. -/
theorem load32_upload (m : Mem) (ws : List Word) (base : Word) (i : ℕ) (hi : i < ws.length)
    (hlen : 4*ws.length ≤ 2^32) :
    load32 (awFelWrite m (leBytes ws) base) (base+BitVec.ofNat 32 (4*i)) = ws[i] := by
  apply load32_of_bytes
  intro k hk
  rw [BitVec.add_assoc, ← BitVec.ofNat_add,
    awFelWrite_byte _ _ _ _ (by rw [leBytes_length]; omega) (by rw [leBytes_length]; exact hlen)]
  have h := leBytes_getElem? ws i k hk
  rw [List.getElem?_eq_getElem (by rw [leBytes_length]; omega), List.getElem?_eq_getElem hi] at h
  exact Option.some.inj h

/-- A program is loaded when `n` words from word `o` of an upload decode to it. -/
theorem loaded_upload_at (m : Mem) (ws : List Word) (base : Word) (asm : List (Cond × Instr))
    (o n : ℕ) (hlen : 4*ws.length ≤ 2^32) (hd : ((ws.drop o).take n).map decode = asm.map some) :
    Loaded asm (base+BitVec.ofNat 32 (4*o)) (awFelWrite m (leBytes ws) base) := by
  intro i ci hi
  have h : (((ws.drop o).take n).map decode)[i]? = some (some ci) := by
    rw [hd, List.getElem?_map, hi, Option.map_some]
  rw [List.getElem?_map, Option.map_eq_some_iff] at h
  obtain ⟨w, hw, hdw⟩ := h
  rw [List.getElem?_take] at hw
  split_ifs at hw
  rw [List.getElem?_drop] at hw
  obtain ⟨hiw, he⟩ := List.getElem?_eq_some_iff.mp hw
  rw [BitVec.add_assoc, ← BitVec.ofNat_add, ← Nat.mul_add,
    load32_upload m ws base (o+i) hiw hlen, he]
  exact hdw

theorem loaded_upload (m : Mem) (ws : List Word) (base : Word) (asm : List (Cond × Instr)) (n : ℕ)
    (hlen : 4*ws.length ≤ 2^32) (hd : (ws.take n).map decode = asm.map some) :
    Loaded asm base (awFelWrite m (leBytes ws) base) := by
  have h := loaded_upload_at m ws base asm 0 n hlen hd
  rw [Nat.mul_zero, BitVec.add_zero] at h
  exact h

/-- Bytes `lo` to `hi` of the block at `src` copied to `dst`, from one memory. -/
def copied (m : Mem) (dst src : Word) (lo hi : ℕ) : Mem :=
  fun x => if lo ≤ (x-dst).toNat ∧ (x-dst).toNat < hi then m (src+(x-dst)) else m x

section Copy

variable (m : Mem) (dst src : Word)

theorem copied_empty (lo : ℕ) : copied m dst src lo lo = m := by
  funext x
  unfold copied
  rw [if_neg (by omega)]

theorem sub_dst_toNat (j : ℕ) (hj : j < 2^32) : (dst+BitVec.ofNat 32 j-dst).toNat = j := by
  rw [BitVec.add_comm, BitVec.add_sub_cancel, BitVec.toNat_ofNat, Nat.mod_eq_of_lt hj]

theorem src_offset (j : ℕ) (hj : (src-dst).toNat+j < 2^32) :
    (src+BitVec.ofNat 32 j-dst).toNat = (src-dst).toNat+j := by
  have he : src+BitVec.ofNat 32 j-dst = src-dst+BitVec.ofNat 32 j := by
    bv_omega
  rw [he, BitVec.toNat_add, BitVec.toNat_ofNat, Nat.mod_eq_of_lt (a := j) (by omega),
    Nat.mod_eq_of_lt hj]

theorem eq_add_of_offset (x : Word) (k : ℕ) (h : (x-dst).toNat = k) :
    x = dst+BitVec.ofNat 32 k := by
  subst h
  bv_omega

/-- A byte moved inside `c`, where the source byte is still the one of `m`. -/
theorem store8_move (c : Mem) (j : ℕ) (hj : j < 2^32)
    (hc : c (src+BitVec.ofNat 32 j) = m (src+BitVec.ofNat 32 j)) (x : Word) :
    store8 c (dst+BitVec.ofNat 32 j) (c (src+BitVec.ofNat 32 j)) x =
      if j ≤ (x-dst).toNat ∧ (x-dst).toNat < j+1 then m (src+(x-dst)) else c x := by
  by_cases hx : x = dst+BitVec.ofNat 32 j
  · subst hx
    rw [store8_same, sub_dst_toNat dst j hj, if_pos (by omega), hc, BitVec.add_comm dst,
      BitVec.add_sub_cancel]
  · have hne : (x-dst).toNat ≠ j := fun h => hx (eq_add_of_offset dst x j h)
    rw [store8_other _ hx, if_neg (by omega)]

/-- A word moved from one place to another, byte by byte. -/
theorem store32_load32 (m c : Mem) (a b x : Word) :
    store32 m a (load32 c b) x = if (x-a).toNat < 4 then c (b+(x-a)) else m x := by
  by_cases hx : (x-a).toNat < 4
  · have he := eq_add_of_offset a x _ rfl
    rw [if_pos hx]
    conv_lhs => rw [he]
    rw [store32_byte _ _ _ _ hx, load32_byte _ _ _ hx, BitVec.ofNat_toNat, BitVec.setWidth_eq]
  · rw [if_neg hx]
    exact store32_other _ (by omega)

/-- The same for a word. -/
theorem store32_move (c : Mem) (j : ℕ) (hj : j+3 < 2^32)
    (hc : ∀ k < 4, c (src+BitVec.ofNat 32 (j+k)) = m (src+BitVec.ofNat 32 (j+k))) (x : Word) :
    store32 c (dst+BitVec.ofNat 32 j) (load32 c (src+BitVec.ofNat 32 j)) x =
      if j ≤ (x-dst).toNat ∧ (x-dst).toNat < j+4 then m (src+(x-dst)) else c x := by
  rw [store32_load32]
  by_cases hx : (x-(dst+BitVec.ofNat 32 j)).toNat < 4
  · have hk := eq_add_of_offset (dst+BitVec.ofNat 32 j) x _ rfl
    rw [BitVec.add_assoc, ← BitVec.ofNat_add] at hk
    have hoff : x-dst = BitVec.ofNat 32 (j+(x-(dst+BitVec.ofNat 32 j)).toNat) := by
      conv_lhs => rw [hk]
      rw [BitVec.add_comm, BitVec.add_sub_cancel]
    have hn : (x-dst).toNat = j+(x-(dst+BitVec.ofNat 32 j)).toNat := by
      rw [hoff, BitVec.toNat_ofNat]
      omega
    rw [if_pos hx, if_pos (by omega), hoff, ← hc _ hx, BitVec.ofNat_add, BitVec.ofNat_toNat,
      BitVec.setWidth_eq, BitVec.add_assoc]
  · rw [if_neg hx, if_neg]
    intro hr
    have hn : (x-(dst+BitVec.ofNat 32 j)).toNat = (x-dst).toNat-j := by
      bv_omega
    omega

theorem copied_up_source (j k : ℕ) (hj : (src-dst).toNat+(j+k) < 2^32) :
    copied m dst src 0 j (src+BitVec.ofNat 32 (j+k)) = m (src+BitVec.ofNat 32 (j+k)) := by
  unfold copied
  rw [src_offset dst src _ hj, if_neg (by omega)]

theorem copy_up_byte (j : ℕ) (hj : (src-dst).toNat+j < 2^32) :
    store8 (copied m dst src 0 j) (dst+BitVec.ofNat 32 j)
      (copied m dst src 0 j (src+BitVec.ofNat 32 j)) = copied m dst src 0 (j+1) := by
  funext x
  rw [store8_move m dst src _ j (by omega) (copied_up_source m dst src j 0 hj)]
  unfold copied
  split_ifs <;> first | rfl | omega

theorem copy_up_word (j : ℕ) (hj : (src-dst).toNat+(j+3) < 2^32) :
    store32 (copied m dst src 0 j) (dst+BitVec.ofNat 32 j)
      (load32 (copied m dst src 0 j) (src+BitVec.ofNat 32 j)) = copied m dst src 0 (j+4) := by
  funext x
  rw [store32_move m dst src _ j (by omega)
    (fun k hk => copied_up_source m dst src j k (by omega))]
  unfold copied
  split_ifs <;> first | rfl | omega

/-- Below `dst` plus `lo` nothing has been written, and neither above the block. -/
theorem copied_down_source (j lo n : ℕ) (hj : j < lo)
    (hd : (dst-src).toNat+n ≤ 2^32) :
    copied m dst src lo n (src+BitVec.ofNat 32 j) = m (src+BitVec.ofNat 32 j) := by
  unfold copied
  rw [if_neg]
  intro h
  have : (src+BitVec.ofNat 32 j-dst).toNat = (2^32-(dst-src).toNat+j)%2^32 := by
    bv_omega
  omega

theorem copy_down_byte (j n : ℕ) (hj : j < n) (hd : (dst-src).toNat+n ≤ 2^32) :
    store8 (copied m dst src (j+1) n) (dst+BitVec.ofNat 32 j)
      (copied m dst src (j+1) n (src+BitVec.ofNat 32 j)) = copied m dst src j n := by
  funext x
  rw [store8_move m dst src _ j (by omega)
    (copied_down_source m dst src j (j+1) n (by omega) hd)]
  unfold copied
  split_ifs <;> first | rfl | omega

theorem copy_down_word (j n : ℕ) (hj : j+4 ≤ n) (hd : (dst-src).toNat+n ≤ 2^32) :
    store32 (copied m dst src (j+4) n) (dst+BitVec.ofNat 32 j)
      (load32 (copied m dst src (j+4) n) (src+BitVec.ofNat 32 j)) = copied m dst src j n := by
  funext x
  rw [store32_move m dst src _ j (by omega)
    (fun k hk => copied_down_source m dst src (j+k) (j+4) n (by omega) hd)]
  unfold copied
  split_ifs <;> first | rfl | omega

end Copy

end ChipTools.Fel
