import ChipTools.BchEncode
import Mathlib.Tactic.NormNum.Prime

/-! `init_bch` of `nand-image-builder`: the tables of the field and of the encoder, and the roots of
polynomials of degree two that the decoder would use. -/
namespace ChipTools.Bch
open BinaryPoly Polynomial Loop

section Model

/-- `gf_sqr`. -/
def gfSqr (bch : BchControl) (a : ℕ) : ℕ :=
  if a ≠ 0 then (bch.a_pow_tab (mod_s bch (2*(bch.a_log_tab a).toNat))).toNat else 0

/-- `a_pow`, with a bound on the passes of `modulo`. -/
def aPow (bch : BchControl) (fuel i : ℕ) : Except Stop ℕ :=
  match modulo bch fuel (BitVec.ofNat 32 i) with
  | some v => .ok (bch.a_pow_tab v.toNat).toNat
  | none => .error .passes

/-- The sum over the powers of `a^i`, for `count` more of them from number `j` on. -/
def traceLoop (bch : BchControl) (fuel i : ℕ) : ℕ → ℕ → ℕ → Except Stop ℕ
  | 0, _, sum => .ok sum
  | count+1, j, sum =>
    match aPow bch fuel (i*2^j) with
    | .ok a => traceLoop bch fuel i count (j+1) (sum ^^^ a)
    | .error e => .error e

/-- The loop for `ak`, from number `i` on. -/
def findAk (bch : BchControl) (fuel : ℕ) : ℕ → ℕ → Except Stop ℕ
  | 0, _ => .ok 0
  | count+1, i =>
    match traceLoop bch fuel i bch.m 0 0 with
    | .ok sum => if sum ≠ 0 then .ok (bch.a_pow_tab i).toNat else findAk bch fuel count (i+1)
    | .error e => .error e

/-- What `build_deg2_base` changes in its loop. -/
structure Deg2Base where
  xi_tab : ℕ → ℕ
  xi : ℕ → Bool
  remaining : ℕ

/-- The two candidates for a value of `x`. -/
def Deg2Base.pass (bch : BchControl) (ak x : ℕ) (s : Deg2Base) : Deg2Base :=
  let y := gfSqr bch x ^^^ x
  let r := (bch.a_log_tab y).toNat
  if y ≠ 0 ∧ r < bch.m ∧ s.xi r = false then
    ⟨Function.update s.xi_tab r x, Function.update s.xi r true, s.remaining-1⟩
  else
    let y := y ^^^ ak
    let r := (bch.a_log_tab y).toNat
    if y ≠ 0 ∧ r < bch.m ∧ s.xi r = false then
      ⟨Function.update s.xi_tab r x, Function.update s.xi r true, s.remaining-1⟩
    else s

/-- The loop over `x`, for `count` more values. -/
def deg2Loop (bch : BchControl) (ak : ℕ) : ℕ → ℕ → Deg2Base → Deg2Base
  | 0, _, s => s
  | count+1, x, s => if s.remaining = 0 then s else deg2Loop bch ak count (x+1) (s.pass bch ak x)

/-- `build_deg2_base`: `xi_tab`. -/
def buildDeg2Base (bch : BchControl) (fuel : ℕ) : Except Stop (ℕ → ℕ) :=
  match findAk bch fuel bch.m 0 with
  | .ok ak =>
    let s := deg2Loop bch ak (bch.n+1) 0 ⟨fun _ => 0, fun _ => false, bch.m⟩
    if s.remaining ≠ 0 then .error .null else .ok s.xi_tab
  | .error e => .error e

/-- `prim_poly_tab`. -/
def prim_poly_tab : List (BitVec 32) :=
  [0x25, 0x43, 0x83, 0x11d, 0x211, 0x409, 0x805, 0x1053, 0x201b, 0x402b, 0x8003]

/-- The polynomial that is used. -/
def primPoly (m : ℕ) (prim_poly : BitVec 32) : BitVec 32 :=
  if prim_poly = 0#32 then prim_poly_tab.getD (m-5) 0#32 else prim_poly

/-- The structure after `memset`, with its first members. -/
def zeroedControl (m : ℕ) (h1 : 1 ≤ m) (h16 : m ≤ 16) : BchControl where
  m := m
  n := 2^m-1
  a_pow_tab := fun _ => 0#16
  a_log_tab := fun _ => 0#16
  pos := h1
  le := h16
  n_eq := rfl

/-- `init_bch`, with a bound on the passes of each `while` loop, where `m*t` fits into an `int`. -/
def initBch (fuel : ℕ) (m t : ℤ) (prim_poly : BitVec 32) : Except Stop BchCodec :=
  if h : m < 5 ∨ 15 < m then .error .null
  else if t < 1 ∨ 2^m.toNat-1 ≤ m*t then .error .null
  else
    match buildGfTables (zeroedControl m.toNat (by omega) (by omega)) (primPoly m.toNat prim_poly)
      with
    | none => .error .null
    | some bch =>
      let (genpoly, ecc_bits) := computeGeneratorPolynomial bch t.toNat
      match buildMod8Tables fuel (DIV_ROUND_UP (bch.m*t.toNat) 32) ecc_bits genpoly with
      | .error e => .error e
      | .ok mod8_tab =>
        match buildDeg2Base bch fuel with
        | .error e => .error e
        | .ok xi_tab => .ok
          { bch with
            t := t.toNat
            ecc_bits := ecc_bits
            ecc_bytes := DIV_ROUND_UP (bch.m*t.toNat) 8
            mod8_tab := mod8_tab
            xi_tab := xi_tab }

end Model

section Powers

variable {bch : BchControl} {poly : BitVec 32}

theorem Entries.gfSqr_eq (h : Entries bch poly) {a : ℕ} (ha : a < 2^bch.m) :
    gfSqr bch a < 2^bch.m ∧ elem poly.toNat (gfSqr bch a) = elem poly.toNat a^2 := by
  have hmul : gfSqr bch a = gfMul bch a a := by
    unfold gfSqr gfMul
    rw [Nat.two_mul]
    simp only [and_self]
  rw [hmul, pow_two]
  exact h.gfMul_eq ha ha

/-- A power of the primitive element, also beyond the table. -/
theorem Entries.aPow_eq (h : Entries bch poly) {fuel i : ℕ} (hfuel : i < fuel) (hi : i < 2^32) :
    ∃ a < 2^bch.m, aPow bch fuel i = .ok a ∧
      elem poly.toNat a = AdjoinRoot.root (toPoly poly.toNat)^i := by
  have htoNat : (BitVec.ofNat 32 i).toNat = i := by
    rw [BitVec.toNat_ofNat, Nat.mod_eq_of_lt hi]
  have hmod : i%bch.n < bch.n := Nat.mod_lt _ bch.n_pos
  refine ⟨powX bch.m poly.toNat (i%bch.n), powX_lt h.modulus _, ?_, ?_⟩
  · unfold aPow
    rw [modulo_eq bch (v := BitVec.ofNat 32 i) (by rw [htoNat]; exact hfuel), htoNat]
    dsimp only
    rw [BitVec.toNat_ofNat, Nat.mod_eq_of_lt (hmod.trans (bch.n_lt.trans (by decide))),
      h.pow _ hmod]
  · rw [elem_powX, bch.n_eq, h.late.root_pow_mod h.modulus]

/-- The exponents of the sums are small. -/
theorem exponent_lt (bch : BchControl) {i j : ℕ} (hi : i < bch.m) (hj : j < bch.m) :
    i*2^j < 2^20 := by
  have hle := bch.le
  have hpow : 2^j ≤ 2^15 := Nat.pow_le_pow_right Nat.two_pos (by omega)
  calc i*2^j ≤ 15*2^15 := Nat.mul_le_mul (by omega) hpow
    _ < 2^20 := by decide

theorem Entries.traceLoop_eq (h : Entries bch poly) {fuel i : ℕ} (hfuel : 2^20 ≤ fuel)
    (hi : i < bch.m) {count j sum : ℕ} (hj : j+count ≤ bch.m) (hsum : sum < 2^bch.m) :
    ∃ s < 2^bch.m, traceLoop bch fuel i count j sum = .ok s ∧ elem poly.toNat s =
      elem poly.toNat sum+∑ k ∈ Finset.Ico j (j+count),
        (AdjoinRoot.root (toPoly poly.toNat)^i)^2^k := by
  induction count generalizing j sum with
  | zero =>
    refine ⟨sum, hsum, rfl, ?_⟩
    rw [Nat.add_zero, Finset.Ico_self, Finset.sum_empty, add_zero]
  | succ count ih =>
    have hlt := exponent_lt bch hi (show j < bch.m by omega)
    obtain ⟨a, ha, hpow, helem⟩ := h.aPow_eq (hlt.trans_le hfuel) (hlt.trans (by decide))
    obtain ⟨s, hs, hloop, helem'⟩ := @ih (j+1) (sum ^^^ a) (by omega)
      (Nat.xor_lt_two_pow hsum ha)
    refine ⟨s, hs, ?_, ?_⟩
    · rw [traceLoop, hpow]
      exact hloop
    · rw [helem', elem_xor, helem, pow_mul, add_assoc, show j+1+count = j+(count+1) by ring,
        Finset.sum_eq_sum_Ico_succ_bot (show j < j+(count+1) by omega)]

theorem elem_eq_zero_iff {m p x : ℕ} (h : Modulus m p) (hx : x < 2^m) : elem p x = 0 ↔ x = 0 := by
  constructor
  · intro h0
    exact elem_injective h hx (Nat.two_pow_pos m) (h0.trans elem_zero.symm)
  · rintro rfl
    exact elem_zero

variable [hirr : Fact (Irreducible (toPoly poly.toNat))]

theorem Entries.trace_eq (h : Entries bch poly) {fuel i : ℕ} (hfuel : 2^20 ≤ fuel)
    (hi : i < bch.m) : ∃ s < 2^bch.m, traceLoop bch fuel i bch.m 0 0 = .ok s ∧
      elem poly.toNat s = trace bch.m (AdjoinRoot.root (toPoly poly.toNat)^i) := by
  obtain ⟨s, hs, hloop, helem⟩ := @Entries.traceLoop_eq bch poly h fuel i hfuel hi bch.m 0 0
    (by omega) (Nat.two_pow_pos _)
  refine ⟨s, hs, hloop, ?_⟩
  rw [helem, elem_zero, zero_add, Nat.zero_add, trace, Finset.range_eq_Ico]

/-- The loop ends at a power whose trace is one. -/
theorem Entries.findAk_eq (h : Entries bch poly) {fuel : ℕ} (hfuel : 2^20 ≤ fuel) :
    ∃ k < bch.m, trace bch.m (AdjoinRoot.root (toPoly poly.toNat)^k) = 1 ∧
      findAk bch fuel bch.m 0 = .ok (bch.a_pow_tab k).toNat := by
  have hrun (count i : ℕ) (hcount : i+count = bch.m)
      (hex : ∃ k, i ≤ k ∧ k < bch.m ∧ trace bch.m (AdjoinRoot.root (toPoly poly.toNat)^k) = 1) :
      ∃ k < bch.m, trace bch.m (AdjoinRoot.root (toPoly poly.toNat)^k) = 1 ∧
        findAk bch fuel count i = .ok (bch.a_pow_tab k).toNat := by
    induction count generalizing i with
    | zero =>
      obtain ⟨k, hik, hk, -⟩ := hex
      omega
    | succ count ih =>
      obtain ⟨s, hs, hloop, helem⟩ := h.trace_eq hfuel (show i < bch.m by omega)
      by_cases hzero : s = 0
      · -- not this power
        have htrace : trace bch.m (AdjoinRoot.root (toPoly poly.toNat)^i) = 0 := by
          rw [← helem, hzero, elem_zero]
        obtain ⟨k, hik, hk, hone⟩ := hex
        have hne : i ≠ k := by
          rintro rfl
          exact zero_ne_one (htrace.symm.trans hone)
        obtain ⟨k', hk', hone', hfind⟩ := ih (i+1) (by omega) ⟨k, by omega, hk, hone⟩
        refine ⟨k', hk', hone', ?_⟩
        rw [findAk, hloop]
        dsimp only
        rw [if_neg (not_not_intro hzero)]
        exact hfind
      · refine ⟨i, by omega, ?_, ?_⟩
        · rcases BinaryPoly.trace_eq h.modulus h.late
            (AdjoinRoot.root (toPoly poly.toNat)^i) with h0 | h1
          · exact absurd ((elem_eq_zero_iff h.modulus hs).mp (helem.trans h0)) hzero
          · exact h1
        · rw [findAk, hloop]
          dsimp only
          rw [if_pos hzero]
  obtain ⟨k, hk, hone⟩ := exists_trace h.modulus h.late
  exact hrun bch.m 0 (Nat.zero_add _) ⟨k, Nat.zero_le k, hk, hone⟩

end Powers

section Deg2

variable {bch : BchControl} {poly : BitVec 32} {ak : ℕ} {s : Deg2Base}

/-- The exponent that a candidate stands for. -/
def Candidate (bch : BchControl) (y r : ℕ) : Prop :=
  y ≠ 0 ∧ (bch.a_log_tab y).toNat = r ∧ r < bch.m

/-- The value `x²+x`. -/
def sqAdd (bch : BchControl) (x : ℕ) : ℕ := gfSqr bch x ^^^ x

/-- After the values below `x`: how many exponents have a value, that the values are right for
them, and which exponents have one. A first candidate always has one; where both values with the
same `x²+x` have been tried, so has the second one. -/
structure Deg2Inv (bch : BchControl) (ak x : ℕ) (s : Deg2Base) : Prop where
  card : s.remaining+((Finset.range bch.m).filter fun r => s.xi r = true).card = bch.m
  sound : ∀ r < bch.m, s.xi r = true → s.xi_tab r < 2^bch.m ∧
    (Candidate bch (sqAdd bch (s.xi_tab r)) r ∨ Candidate bch (sqAdd bch (s.xi_tab r) ^^^ ak) r)
  first : ∀ x' < x, ∀ r, Candidate bch (sqAdd bch x') r → s.xi r = true
  second : ∀ x' < x, x' ^^^ 1 < x → ∀ r, Candidate bch (sqAdd bch x' ^^^ ak) r → s.xi r = true

/-- An exponent gets its value. -/
theorem Deg2Inv.assign {x r : ℕ} (h : Deg2Inv bch ak x s) (hx : x < 2^bch.m) (hr : r < bch.m)
    (hfree : s.xi r = false)
    (hcand : Candidate bch (sqAdd bch x) r ∨ Candidate bch (sqAdd bch x ^^^ ak) r) :
    let s' : Deg2Base := ⟨Function.update s.xi_tab r x, Function.update s.xi r true, s.remaining-1⟩
    s'.remaining+((Finset.range bch.m).filter fun r => s'.xi r = true).card = bch.m ∧
    (∀ r < bch.m, s'.xi r = true → s'.xi_tab r < 2^bch.m ∧
      (Candidate bch (sqAdd bch (s'.xi_tab r)) r ∨
        Candidate bch (sqAdd bch (s'.xi_tab r) ^^^ ak) r)) ∧
    s'.xi r = true ∧ ∀ r', s.xi r' = true → s'.xi r' = true := by
  intro s'
  have hset : (Finset.range bch.m).filter (fun r => s'.xi r = true) =
      insert r ((Finset.range bch.m).filter fun r => s.xi r = true) := by
    ext r'
    rw [Finset.mem_insert, Finset.mem_filter, Finset.mem_filter, Finset.mem_range]
    change r' < bch.m ∧ Function.update s.xi r true r' = true ↔ _
    rw [Function.update_apply]
    by_cases heq : r' = r
    · rw [if_pos heq, heq]
      exact ⟨fun _ => .inl rfl, fun _ => ⟨hr, rfl⟩⟩
    · rw [if_neg heq]
      exact ⟨fun h => .inr h, fun h => h.resolve_left heq⟩
  have hnot : r ∉ (Finset.range bch.m).filter fun r => s.xi r = true := by
    intro hmem
    exact Bool.false_ne_true (hfree.symm.trans (Finset.mem_filter.mp hmem).2)
  have hlt : ((Finset.range bch.m).filter fun r => s.xi r = true).card < bch.m := by
    have hle : (insert r ((Finset.range bch.m).filter fun r => s.xi r = true)).card ≤ bch.m := by
      rw [← hset]
      exact (Finset.card_filter_le _ _).trans_eq (Finset.card_range _)
    rw [Finset.card_insert_of_notMem hnot] at hle
    omega
  have hcard := h.card
  refine ⟨?_, fun r' hr' hxi => ?_, ?_, fun r' hxi => ?_⟩
  · rw [hset, Finset.card_insert_of_notMem hnot]
    change s.remaining-1+_ = _
    omega
  · change Function.update s.xi_tab r x r' < _ ∧
      (Candidate bch (sqAdd bch (Function.update s.xi_tab r x r')) r' ∨
        Candidate bch (sqAdd bch (Function.update s.xi_tab r x r') ^^^ ak) r')
    change Function.update s.xi r true r' = true at hxi
    by_cases heq : r' = r
    · rw [heq, Function.update_self]
      exact ⟨hx, hcand⟩
    · rw [Function.update_of_ne heq]
      rw [Function.update_of_ne heq] at hxi
      exact h.sound r' hr' hxi
  · exact Function.update_self _ _ _
  · change Function.update s.xi r true r' = true
    rw [Function.update_apply]
    split
    · rfl
    · exact hxi

/-- A pass gives a value to the first candidate that is free, if there is one. -/
theorem pass_cases (bch : BchControl) (ak x : ℕ) (s : Deg2Base) :
    (∃ r, (Candidate bch (sqAdd bch x) r ∨ Candidate bch (sqAdd bch x ^^^ ak) r) ∧
      s.xi r = false ∧ s.pass bch ak x =
        ⟨Function.update s.xi_tab r x, Function.update s.xi r true, s.remaining-1⟩ ∧
      (∀ r', Candidate bch (sqAdd bch x) r' → r' = r ∨ s.xi r' = true) ∧
      ((∀ r', Candidate bch (sqAdd bch x) r' → s.xi r' = true) →
        ∀ r', Candidate bch (sqAdd bch x ^^^ ak) r' → r' = r)) ∨
    s.pass bch ak x = s ∧ (∀ r, Candidate bch (sqAdd bch x) r → s.xi r = true) ∧
      ∀ r, Candidate bch (sqAdd bch x ^^^ ak) r → s.xi r = true := by
  have hnone {y : ℕ} (hy : ¬(y ≠ 0 ∧ (bch.a_log_tab y).toNat < bch.m ∧
      s.xi (bch.a_log_tab y).toNat = false)) (r : ℕ) (hc : Candidate bch y r) :
      s.xi r = true := by
    obtain ⟨h0, rfl, hlt⟩ := hc
    by_contra hfree
    exact hy ⟨h0, hlt, Bool.eq_false_iff.mpr hfree⟩
  unfold Deg2Base.pass
  change (∃ r, _ ∧ _ ∧ (if sqAdd bch x ≠ 0 ∧ (bch.a_log_tab (sqAdd bch x)).toNat < bch.m ∧
      s.xi (bch.a_log_tab (sqAdd bch x)).toNat = false then _ else
    if sqAdd bch x ^^^ ak ≠ 0 ∧ (bch.a_log_tab (sqAdd bch x ^^^ ak)).toNat < bch.m ∧
      s.xi (bch.a_log_tab (sqAdd bch x ^^^ ak)).toNat = false then _ else s) = _ ∧ _) ∨
    (if sqAdd bch x ≠ 0 ∧ (bch.a_log_tab (sqAdd bch x)).toNat < bch.m ∧
      s.xi (bch.a_log_tab (sqAdd bch x)).toNat = false then _ else
    if sqAdd bch x ^^^ ak ≠ 0 ∧ (bch.a_log_tab (sqAdd bch x ^^^ ak)).toNat < bch.m ∧
      s.xi (bch.a_log_tab (sqAdd bch x ^^^ ak)).toNat = false then _ else s) = s ∧ _
  by_cases h1 : sqAdd bch x ≠ 0 ∧ (bch.a_log_tab (sqAdd bch x)).toNat < bch.m ∧
      s.xi (bch.a_log_tab (sqAdd bch x)).toNat = false
  · left
    refine ⟨_, .inl ⟨h1.1, rfl, h1.2.1⟩, h1.2.2, if_pos h1, fun r' hc => .inl hc.2.1.symm,
      fun hall => ?_⟩
    have := hall _ ⟨h1.1, rfl, h1.2.1⟩
    exact absurd (h1.2.2.symm.trans this) Bool.false_ne_true
  · rw [if_neg h1]
    by_cases h2 : sqAdd bch x ^^^ ak ≠ 0 ∧ (bch.a_log_tab (sqAdd bch x ^^^ ak)).toNat < bch.m ∧
        s.xi (bch.a_log_tab (sqAdd bch x ^^^ ak)).toNat = false
    · left
      exact ⟨_, .inr ⟨h2.1, rfl, h2.2.1⟩, h2.2.2, if_pos h2, fun r' hc => .inr (hnone h1 r' hc),
        fun _ r' hc => hc.2.1.symm⟩
    · right
      exact ⟨if_neg h2, hnone h1, hnone h2⟩

end Deg2

section Pairs

variable {bch : BchControl} {poly : BitVec 32} {ak k : ℕ} {s : Deg2Base}

theorem BchControl.m_le_n (bch : BchControl) : bch.m ≤ bch.n := by
  have hlt : bch.m < 2^bch.m := Nat.lt_two_pow_self
  have hn := bch.n_eq
  omega

theorem Entries.candidate_iff (h : Entries bch poly) {y r : ℕ} (hy : y < 2^bch.m) :
    Candidate bch y r ↔ r < bch.m ∧ elem poly.toNat y = AdjoinRoot.root (toPoly poly.toNat)^r := by
  constructor
  · rintro ⟨h0, hlog, hr⟩
    obtain ⟨i, -, hpow, hlog'⟩ := h.exists_log (Nat.pos_of_ne_zero h0) hy
    obtain rfl : r = i := hlog.symm.trans hlog'
    exact ⟨hr, by rw [← hpow, elem_powX]⟩
  · rintro ⟨hr, helem⟩
    rw [← elem_powX (m := bch.m)] at helem
    obtain rfl := elem_injective h.modulus hy (powX_lt h.modulus r) helem
    exact ⟨(powX_pos h.modulus r).ne', h.log r (hr.trans_le bch.m_le_n), hr⟩

theorem Entries.sqAdd_eq (h : Entries bch poly) {x : ℕ} (hx : x < 2^bch.m) :
    sqAdd bch x < 2^bch.m ∧
    elem poly.toNat (sqAdd bch x) = elem poly.toNat x^2+elem poly.toNat x := by
  obtain ⟨hlt, hsq⟩ := h.gfSqr_eq hx
  exact ⟨Nat.xor_lt_two_pow hlt hx, by rw [sqAdd, elem_xor, hsq]⟩

theorem Entries.xor_one_lt (h : Entries bch poly) {x : ℕ} (hx : x < 2^bch.m) :
    x ^^^ 1 < 2^bch.m :=
  Nat.xor_lt_two_pow hx (Nat.one_lt_two_pow_iff.mpr (Nat.ne_of_gt h.modulus.pos))

theorem xor_one_ne (x : ℕ) : x ^^^ 1 ≠ x := by
  intro h
  have h1 : x ^^^ (x ^^^ 1) = x ^^^ x := congrArg (x ^^^ ·) h
  rw [← Nat.xor_assoc, Nat.xor_self, Nat.zero_xor] at h1
  exact Nat.one_ne_zero h1

/-- Where a power has trace one, it is `ak` that makes the difference. -/
theorem Entries.elem_ak (h : Entries bch poly) (hk : k < bch.m) :
    (bch.a_pow_tab k).toNat < 2^bch.m ∧ elem poly.toNat (bch.a_pow_tab k).toNat =
      AdjoinRoot.root (toPoly poly.toNat)^k := by
  rw [h.pow k (hk.trans_le bch.m_le_n), elem_powX]
  exact ⟨powX_lt h.modulus k, rfl⟩

variable [hirr : Fact (Irreducible (toPoly poly.toNat))]

/-- Two values give the same, and no third one does. -/
theorem Entries.sqAdd_xor_one (h : Entries bch poly) {x : ℕ} (hx : x < 2^bch.m) :
    sqAdd bch (x ^^^ 1) = sqAdd bch x := by
  obtain ⟨hlt, helem⟩ := h.sqAdd_eq hx
  obtain ⟨hlt', helem'⟩ := h.sqAdd_eq (h.xor_one_lt hx)
  apply elem_injective h.modulus hlt' hlt
  rw [helem, helem', elem_xor, elem_one]
  have htwo : (2 : AdjoinRoot (toPoly poly.toNat)) = 0 := CharTwo.two_eq_zero
  linear_combination (elem poly.toNat x+1)*htwo

theorem Deg2Inv.pass (h : Entries bch poly) {x : ℕ} (hx : x < 2^bch.m)
    (hi : Deg2Inv bch ak x s) : Deg2Inv bch ak (x+1) (s.pass bch ak x) := by
  -- of a pair, the value that is tried second finds a value for its first candidate
  have hpair {x' : ℕ} (hx' : x' < x+1) (hxor : x' ^^^ 1 < x+1) (hnot : ¬(x' < x ∧ x' ^^^ 1 < x)) :
      sqAdd bch x' = sqAdd bch x ∧ ∀ r, Candidate bch (sqAdd bch x) r → s.xi r = true := by
    have hne := xor_one_ne x'
    by_cases heq : x' = x
    · subst heq
      refine ⟨rfl, fun r hc => hi.first (x' ^^^ 1) (by omega) r ?_⟩
      rw [h.sqAdd_xor_one hx]
      exact hc
    · have heq' : x' ^^^ 1 = x := by omega
      have hsame : sqAdd bch x' = sqAdd bch x := by
        rw [← heq', h.sqAdd_xor_one (show x' < 2^bch.m by omega)]
      exact ⟨hsame, fun r hc => hi.first x' (by omega) r (hsame ▸ hc)⟩
  rcases pass_cases bch ak x s with ⟨r, hcand, hfree, hpass, hfirst, hsecond⟩ | ⟨hpass, h1, h2⟩
  · have hr : r < bch.m := by
      rcases hcand with hc | hc <;> exact hc.2.2
    obtain ⟨hcard, hsound, hself, hkeep⟩ := hi.assign hx hr hfree hcand
    rw [hpass]
    refine ⟨hcard, hsound, fun x' hx' r' hc => ?_, fun x' hx' hxor r' hc => ?_⟩
    · by_cases hlt : x' < x
      · exact hkeep r' (hi.first x' hlt r' hc)
      · obtain rfl : x' = x := by omega
        rcases hfirst r' hc with rfl | hxi
        · exact hself
        · exact hkeep r' hxi
    · by_cases hlt : x' < x ∧ x' ^^^ 1 < x
      · exact hkeep r' (hi.second x' hlt.1 hlt.2 r' hc)
      · obtain ⟨hsame, hall⟩ := hpair hx' hxor hlt
        rw [hsame] at hc
        rw [hsecond hall r' hc]
        exact hself
  · rw [hpass]
    refine ⟨hi.card, hi.sound, fun x' hx' r' hc => ?_, fun x' hx' hxor r' hc => ?_⟩
    · by_cases hlt : x' < x
      · exact hi.first x' hlt r' hc
      · obtain rfl : x' = x := by omega
        exact h1 r' hc
    · by_cases hlt : x' < x ∧ x' ^^^ 1 < x
      · exact hi.second x' hlt.1 hlt.2 r' hc
      · obtain ⟨hsame, -⟩ := hpair hx' hxor hlt
        exact h2 r' (hsame ▸ hc)

/-- The loop ends when each exponent has a value, or after all values of `x`. -/
theorem deg2Loop_inv (h : Entries bch poly) {count x : ℕ} (hcount : x+count = 2^bch.m)
    (hi : Deg2Inv bch ak x s) : ∃ x', Deg2Inv bch ak x' (deg2Loop bch ak count x s) ∧
      ((deg2Loop bch ak count x s).remaining = 0 ∨ x' = 2^bch.m) := by
  induction count generalizing x s with
  | zero => exact ⟨x, hi, .inr hcount⟩
  | succ count ih =>
    rw [deg2Loop]
    by_cases h0 : s.remaining = 0
    · rw [if_pos h0]
      exact ⟨x, hi, .inl h0⟩
    · rw [if_neg h0]
      exact ih (by omega) (hi.pass h (by omega))

/-- After all values of `x` each exponent has one: of its power, or of its power and `ak`, the trace
is zero. -/
theorem Deg2Inv.complete (h : Entries bch poly) (hk : k < bch.m)
    (hone : trace bch.m (AdjoinRoot.root (toPoly poly.toNat)^k) = 1)
    (hi : Deg2Inv bch (bch.a_pow_tab k).toNat (2^bch.m) s) {r : ℕ} (hr : r < bch.m) :
    s.xi r = true := by
  obtain ⟨hak, helem⟩ := h.elem_ak hk
  rcases BinaryPoly.trace_eq h.modulus h.late (AdjoinRoot.root (toPoly poly.toNat)^r) with h0 | h1
  · obtain ⟨f, hf⟩ := exists_sq_add h.modulus h.late h0
    obtain ⟨x, hx, rfl⟩ := exists_elem h.modulus f
    obtain ⟨hlt, hsq⟩ := h.sqAdd_eq hx
    exact hi.first x hx r ((h.candidate_iff hlt).mpr ⟨hr, hsq.trans hf⟩)
  · have hzero : trace bch.m (AdjoinRoot.root (toPoly poly.toNat)^r+
        AdjoinRoot.root (toPoly poly.toNat)^k) = 0 := by
      rw [trace_add, h1, hone]
      exact CharTwo.add_self_eq_zero 1
    obtain ⟨f, hf⟩ := exists_sq_add h.modulus h.late hzero
    obtain ⟨x, hx, rfl⟩ := exists_elem h.modulus f
    obtain ⟨hlt, hsq⟩ := h.sqAdd_eq hx
    apply hi.second x hx (h.xor_one_lt hx) r
    rw [h.candidate_iff (Nat.xor_lt_two_pow hlt hak)]
    refine ⟨hr, ?_⟩
    rw [elem_xor, helem, hsq, hf, add_assoc, CharTwo.add_self_eq_zero, add_zero]

/-- A candidate solves its equation. -/
theorem Entries.solves (h : Entries bch poly) (hk : k < bch.m)
    (hone : trace bch.m (AdjoinRoot.root (toPoly poly.toNat)^k) = 1) {x r : ℕ} (hx : x < 2^bch.m)
    (hc : Candidate bch (sqAdd bch x) r ∨
      Candidate bch (sqAdd bch x ^^^ (bch.a_pow_tab k).toNat) r) :
    elem poly.toNat x^2+elem poly.toNat x = AdjoinRoot.root (toPoly poly.toNat)^r+
      trace bch.m (AdjoinRoot.root (toPoly poly.toNat)^r)*
        AdjoinRoot.root (toPoly poly.toNat)^k := by
  obtain ⟨hak, helem⟩ := h.elem_ak hk
  obtain ⟨hlt, hsq⟩ := h.sqAdd_eq hx
  have hzero := trace_sq_add h.modulus h.late (elem poly.toNat x)
  rcases hc with hc | hc
  · obtain ⟨-, hpow⟩ := (h.candidate_iff hlt).mp hc
    rw [hsq] at hpow
    rw [← hpow, hzero, zero_mul, add_zero]
  · obtain ⟨-, hpow⟩ := (h.candidate_iff (Nat.xor_lt_two_pow hlt hak)).mp hc
    rw [elem_xor, helem, hsq] at hpow
    rw [← hpow, trace_add, hzero, zero_add, hone, one_mul, add_assoc, CharTwo.add_self_eq_zero,
      add_zero]

/-- `build_deg2_base` never fails for the tables of a field. -/
theorem buildDeg2Base_ok (h : Entries bch poly) {fuel : ℕ} (hfuel : 2^20 ≤ fuel) :
    ∃ k < bch.m, trace bch.m (AdjoinRoot.root (toPoly poly.toNat)^k) = 1 ∧
      ∃ xi_tab, buildDeg2Base bch fuel = .ok xi_tab ∧ ∀ r < bch.m, xi_tab r < 2^bch.m ∧
        elem poly.toNat (xi_tab r)^2+elem poly.toNat (xi_tab r) =
          AdjoinRoot.root (toPoly poly.toNat)^r+
            trace bch.m (AdjoinRoot.root (toPoly poly.toNat)^r)*
              AdjoinRoot.root (toPoly poly.toNat)^k := by
  obtain ⟨k, hk, hone, hfind⟩ := h.findAk_eq hfuel
  have hstart : Deg2Inv bch (bch.a_pow_tab k).toNat 0
      ⟨fun _ => 0, fun _ => false, bch.m⟩ := by
    constructor
    · rw [Finset.filter_false_of_mem fun _ _ => Bool.false_ne_true, Finset.card_empty, Nat.add_zero]
    · exact fun _ _ hxi => absurd hxi Bool.false_ne_true
    · exact fun _ hx => absurd hx (Nat.not_lt_zero _)
    · exact fun _ hx => absurd hx (Nat.not_lt_zero _)
  have hcount : 0+(bch.n+1) = 2^bch.m := by
    have hpos := Nat.two_pow_pos bch.m
    have hn := bch.n_eq
    omega
  obtain ⟨x, hi, hend⟩ := deg2Loop_inv h hcount hstart
  generalize hs : deg2Loop bch (bch.a_pow_tab k).toNat (bch.n+1) 0 _ = s at hi hend
  -- no exponent is left, whichever way the loop ends
  have hall : ∀ r < bch.m, s.xi r = true := by
    rcases hend with h0 | rfl
    · intro r hr
      have hcard := hi.card
      rw [h0, Nat.zero_add] at hcard
      have hfull := Finset.eq_of_subset_of_card_le
        (Finset.filter_subset (fun r => s.xi r = true) (Finset.range bch.m))
        (by rw [hcard, Finset.card_range])
      have hmem := Finset.mem_range.mpr hr
      rw [← hfull] at hmem
      exact (Finset.mem_filter.mp hmem).2
    · exact fun r hr => hi.complete h hk hone hr
  have hrem : s.remaining = 0 := by
    have hcard := hi.card
    rw [Finset.filter_true_of_mem fun r hr => hall r (Finset.mem_range.mp hr),
      Finset.card_range] at hcard
    omega
  refine ⟨k, hk, hone, s.xi_tab, ?_, fun r hr => ?_⟩
  · unfold buildDeg2Base
    rw [hfind]
    dsimp only
    rw [hs, if_neg (not_not_intro hrem)]
  · obtain ⟨hlt, hc⟩ := hi.sound r hr (hall r hr)
    exact ⟨hlt, h.solves hk hone hlt hc⟩

end Pairs

section Init

variable {bch : BchCodec} {fuel : ℕ} {m t : ℤ} {prim_poly : BitVec 32}

/-- What `init_bch` returns for a polynomial. -/
structure Initialised (bch : BchCodec) (poly : BitVec 32) : Prop where
  entries : Entries bch.toBchControl poly
  encoder : Encoder bch (generator poly.toNat bch.t)
  ecc_bytes : bch.ecc_bytes = bch.eccBytes
  deg2 : ∃ k < bch.m, trace bch.m (AdjoinRoot.root (toPoly poly.toNat)^k) = 1 ∧
    ∀ r < bch.m, bch.xi_tab r < 2^bch.m ∧
      elem poly.toNat (bch.xi_tab r)^2+elem poly.toNat (bch.xi_tab r) =
        AdjoinRoot.root (toPoly poly.toNat)^r+
          trace bch.m (AdjoinRoot.root (toPoly poly.toNat)^r)*AdjoinRoot.root (toPoly poly.toNat)^k

/-- The parameters that `init_bch` takes. -/
def Accepts (m t : ℤ) (poly : BitVec 32) : Prop :=
  5 ≤ m ∧ m ≤ 15 ∧ 1 ≤ t ∧ m*t < 2^m.toNat-1 ∧ (toPoly poly.toNat).natDegree = m.toNat ∧
    Primitive m.toNat (toPoly poly.toNat)

/-- The number of roots leaves room for data. -/
theorem roots_le {n : ℕ} (ht : 1 ≤ t) (hm : 5 ≤ m) (hmt : m*t < 2^m.toNat-1)
    (hn : n = 2^m.toNat-1) : 2*t.toNat ≤ n := by
  obtain ⟨a, rfl⟩ := Int.eq_ofNat_of_zero_le (show 0 ≤ m by omega)
  obtain ⟨b, rfl⟩ := Int.eq_ofNat_of_zero_le (show 0 ≤ t by omega)
  rw [Int.toNat_natCast] at hmt hn ⊢
  have hle : 2*b ≤ a*b := Nat.mul_le_mul_right b (by omega)
  have hcast : ((a*b : ℕ) : ℤ) = (a : ℤ)*b := Nat.cast_mul a b
  have hpow : ((2^a : ℕ) : ℤ) = 2^a := Nat.cast_pow 2 a
  omega

/-- `init_bch` returns a structure for the parameters it takes, `NULL` for all others, and each of
its loops comes to its end. -/
theorem initBch_cases (hfuel : 2^20 ≤ fuel) (h0 : (primPoly m.toNat prim_poly).getLsbD 0 = true) :
    (∃ bch, initBch fuel m t prim_poly = .ok bch ∧ Accepts m t (primPoly m.toNat prim_poly) ∧
      bch.m = m.toNat ∧ bch.t = t.toNat ∧ Initialised bch (primPoly m.toNat prim_poly)) ∨
    initBch fuel m t prim_poly = .error .null ∧ ¬Accepts m t (primPoly m.toNat prim_poly) := by
  unfold initBch
  by_cases hm : m < 5 ∨ 15 < m
  · rw [dif_pos hm]
    exact .inr ⟨rfl, fun ha => by unfold Accepts at ha; omega⟩
  rw [dif_neg hm]
  by_cases ht : t < 1 ∨ 2^m.toNat-1 ≤ m*t
  · rw [if_pos ht]
    refine .inr ⟨rfl, fun ha => ?_⟩
    obtain ⟨-, -, ht1, hmt, -⟩ := ha
    rcases ht with ht | ht
    · exact absurd ht1 (not_le.mpr ht)
    · exact absurd hmt (not_lt.mpr ht)
  rw [if_neg ht]
  obtain ⟨ht1, hmt⟩ := not_or.mp ht
  have hiff := buildGfTables_isSome_iff
    (zeroedControl m.toNat (by omega) (by omega)) h0
  cases htab : buildGfTables (zeroedControl m.toNat (by omega) (by omega))
      (primPoly m.toNat prim_poly) with
  | none =>
    rw [htab] at hiff
    refine .inr ⟨rfl, fun ha => ?_⟩
    obtain ⟨-, -, -, -, hdeg, hprim⟩ := ha
    exact Bool.false_ne_true (hiff.mpr ⟨hdeg, hprim⟩)
  | some ctl =>
    rw [htab] at hiff
    left
    obtain ⟨hdeg, hprim⟩ := hiff.mp rfl
    obtain ⟨hm', hentries⟩ := buildGfTables_some h0 htab
    have hm' : ctl.m = m.toNat := hm'
    have : Fact (Irreducible (toPoly (primPoly m.toNat prim_poly).toNat)) :=
      ⟨hentries.late.irreducible hentries.modulus⟩
    have hroots : 2*t.toNat ≤ ctl.n :=
      roots_le (not_lt.mp ht1) (by omega) (not_le.mp hmt) (by rw [ctl.n_eq, hm'])
    obtain ⟨hgen, hone, hle⟩ := computeGeneratorPolynomial_eq hentries
      (show 1 ≤ t.toNat by omega) hroots
    have hbits : (computeGeneratorPolynomial ctl t.toNat).2 ≤
        32*DIV_ROUND_UP (ctl.m*t.toNat) 32 := by
      unfold DIV_ROUND_UP
      omega
    obtain ⟨tab, htab', hrem⟩ := buildMod8Tables_ok hgen hbits
      ((show 32 ≤ 2^20 by decide).trans hfuel)
    obtain ⟨k, hk, htrace, xi_tab, hxi, hsolve⟩ := buildDeg2Base_ok hentries hfuel
    dsimp only
    rw [htab', hxi]
    refine ⟨_, rfl, ⟨by omega, by omega, not_lt.mp ht1, not_le.mp hmt, hdeg, hprim⟩, hm', rfl, ?_⟩
    exact ⟨hentries, ⟨hone.trans hle, hgen.monic, hgen.deg, hle, hrem⟩, rfl,
      k, hk, htrace, hsolve⟩

/-- A structure that `init_bch` returns. -/
theorem initBch_initialised (hfuel : 2^20 ≤ fuel)
    (h0 : (primPoly m.toNat prim_poly).getLsbD 0 = true)
    (hinit : initBch fuel m t prim_poly = .ok bch) :
    bch.m = m.toNat ∧ bch.t = t.toNat ∧ Initialised bch (primPoly m.toNat prim_poly) := by
  rcases initBch_cases hfuel h0 (t := t) with ⟨bch', hok, -, hbch⟩ | ⟨herror, -⟩
  · obtain rfl := Except.ok.inj (hinit.symm.trans hok)
    exact hbch
  · cases hinit.symm.trans herror

end Init

section Brom

/-- `BCH_PRIMITIVE_POLY`. -/
def BCH_PRIMITIVE_POLY : BitVec 32 := 0x5803#32

/-- The polynomial of the boot ROM is primitive. -/
theorem brom_primitive : (toPoly BCH_PRIMITIVE_POLY.toNat).natDegree = 14 ∧
    Primitive 14 (toPoly BCH_PRIMITIVE_POLY.toNat) := by
  have hmod : Modulus 14 0x5803 := ⟨by decide, by decide, by decide, rfl⟩
  refine ⟨natDegree_toPoly hmod.lo hmod.hi, ?_⟩
  refine @orderOf_root_of_powBits 14 0x5803 hmod [3, 43, 127] ?_ ?_ ?_
  · intro p hp hdvd
    have hfactors : 2^14-1 = 3*(43*127) := by decide
    rw [hfactors, hp.dvd_mul, hp.dvd_mul, Nat.prime_dvd_prime_iff_eq hp (by norm_num),
      Nat.prime_dvd_prime_iff_eq hp (by norm_num), Nat.prime_dvd_prime_iff_eq hp (by norm_num)]
      at hdvd
    rcases hdvd with rfl | rfl | rfl <;> decide
  · decide +kernel
  · decide +kernel

end Brom

end ChipTools.Bch
