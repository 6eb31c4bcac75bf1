import ChipTools.BchInit

/-! The code that the encoder of `nand-image-builder` makes: data with its parity behind it. Any two
words of the code differ in more bits than twice the number of errors it is for. -/
namespace ChipTools.Bch
open BinaryPoly Polynomial Bytes

section Model

def byteWeight (b : Byte) : ℕ := ((Finset.range 8).filter fun i => b.getLsbD i = true).card

/-- The number of bits in which two lists of bytes differ. -/
def distance (xs ys : List Byte) : ℕ := (List.zipWith (fun x y => byteWeight (x ^^^ y)) xs ys).sum

end Model

section Distance

variable {xs ys : List Byte}

theorem card_support_byte (b : Byte) : (toPoly b.toNat).support.card = byteWeight b := by
  unfold byteWeight
  congr 1
  ext i
  rw [mem_support_iff, coeff_toPoly, Finset.mem_filter, Finset.mem_range]
  change (if b.getLsbD i = true then (1 : ZMod 2) else 0) ≠ 0 ↔ _
  by_cases hbit : b.getLsbD i = true
  · rw [if_pos hbit]
    exact ⟨fun _ => ⟨BitVec.lt_of_getLsbD hbit, hbit⟩, fun _ => one_ne_zero⟩
  · rw [if_neg hbit]
    exact ⟨fun h => absurd rfl h, fun h => absurd h.2 hbit⟩

/-- Coefficients above those of another polynomial. -/
theorem card_support_shift {p q : (ZMod 2)[X]} {n : ℕ} (hq : q.degree < n) :
    (p*X^n+q).support.card = p.support.card+q.support.card := by
  have hlow (i : ℕ) (hi : n ≤ i) : q.coeff i = 0 := (degree_lt_iff_coeff_zero _ _).mp hq i hi
  have hset : (p*X^n+q).support = (p.support.image (·+n)) ∪ q.support := by
    ext i
    rw [mem_support_iff, coeff_add, coeff_mul_X_pow', Finset.mem_union, Finset.mem_image,
      mem_support_iff]
    by_cases hi : n ≤ i
    · rw [if_pos hi, hlow i hi, add_zero]
      constructor
      · exact fun h => .inl ⟨i-n, mem_support_iff.mpr h, Nat.sub_add_cancel hi⟩
      · rintro (⟨k, hk, rfl⟩ | h)
        · rw [Nat.add_sub_cancel]
          exact mem_support_iff.mp hk
        · exact absurd rfl h
    · rw [if_neg hi, zero_add]
      constructor
      · exact Or.inr
      · rintro (⟨k, -, hk⟩ | h)
        · omega
        · exact h
  rw [hset, Finset.card_union_of_disjoint]
  · rw [Finset.card_image_of_injective _ (add_left_injective n)]
  · rw [Finset.disjoint_left]
    intro i hi hmem
    obtain ⟨k, -, rfl⟩ := Finset.mem_image.mp hi
    exact mem_support_iff.mp hmem (hlow _ (Nat.le_add_left n k))

/-- The coefficients in which the polynomials of two lists differ. -/
theorem card_support_add (hlen : xs.length = ys.length) :
    (wordsPoly xs+wordsPoly ys).support.card = distance xs ys := by
  induction xs generalizing ys with
  | nil =>
    rw [List.length_eq_zero_iff.mp hlen.symm, wordsPoly, add_zero]
    rfl
  | cons x xs ih =>
    cases ys with
    | nil => exact absurd hlen (Nat.succ_ne_zero _)
    | cons y ys =>
      have hlen' : xs.length = ys.length := Nat.succ.inj hlen
      have hdeg : (wordsPoly xs+wordsPoly ys).degree < (8*xs.length : ℕ) := by
        apply (degree_add_le _ _).trans_lt
        exact max_lt (wordsPoly_degree xs) (hlen' ▸ wordsPoly_degree ys)
      have hhead : wordsPoly (x :: xs)+wordsPoly (y :: ys) =
          toPoly (x ^^^ y).toNat*X^(8*xs.length)+(wordsPoly xs+wordsPoly ys) := by
        rw [wordsPoly, wordsPoly, ← hlen', BitVec.toNat_xor, toPoly_xor]
        ring
      rw [hhead, card_support_shift hdeg, card_support_byte, ih hlen']
      rfl

end Distance

section Code

variable {bch : BchCodec} {poly : BitVec 32} {data data' ecc ecc' : List Byte}

/-- Data with its parity behind it, as a polynomial. -/
theorem codeword_dvd {g : (ZMod 2)[X]} (hp : Parity bch g data ecc) :
    g*X^(8*bch.eccBytes-bch.ecc_bits) ∣ wordsPoly (data ++ ecc) := by
  rw [wordsPoly_append, hp.length, add_comm]
  exact hp.dvd

/-- The powers of the primitive element from the first on are roots of it. -/
theorem codeword_roots (h : Initialised bch poly) (hp : Parity bch (generator poly.toNat bch.t) data ecc)
    {i : ℕ} (h1 : 1 ≤ i) (hi : i ≤ 2*bch.t) :
    aeval (AdjoinRoot.root (toPoly poly.toNat)^i) (wordsPoly (data ++ ecc)) = 0 :=
  (generator_dvd_iff h.entries).mp ((dvd_mul_right _ _).trans (codeword_dvd hp)) i h1 hi

/-- Different data with their parity, where the bits of both are no more than the exponents. -/
theorem codewords_distance (h : Initialised bch poly)
    (hp : Parity bch (generator poly.toNat bch.t) data ecc)
    (hp' : Parity bch (generator poly.toNat bch.t) data' ecc') (hlen : data.length = data'.length)
    (hfit : 8*data.length+bch.ecc_bits ≤ bch.n) (hne : data ≠ data') :
    2*bch.t < distance (data ++ ecc) (data' ++ ecc') := by
  have : Fact (Irreducible (toPoly poly.toNat)) := ⟨h.entries.late.irreducible h.entries.modulus⟩
  obtain ⟨hn, -⟩ := h.encoder.bits_le
  have hlenE : (data ++ ecc).length = (data' ++ ecc').length := by
    rw [List.length_append, List.length_append, hlen, hp.length, hp'.length]
  rw [← card_support_add hlenE]
  -- both are multiples of the zeros on the right
  obtain ⟨c, hc⟩ := (dvd_mul_left _ _).trans (codeword_dvd hp)
  obtain ⟨c', hc'⟩ := (dvd_mul_left _ _).trans (codeword_dvd hp')
  generalize hpad : 8*bch.eccBytes-bch.ecc_bits = pad at hc hc'
  have hsum : wordsPoly (data ++ ecc)+wordsPoly (data' ++ ecc') = (c+c')*X^pad := by
    rw [hc, hc']
    ring
  have hnz : wordsPoly (data ++ ecc)+wordsPoly (data' ++ ecc') ≠ 0 := by
    intro h0
    have heq : wordsPoly (data ++ ecc) = wordsPoly (data' ++ ecc') := by
      linear_combination h0-wordsPoly (data' ++ ecc')*two_eq_zero
    exact hne (List.append_inj_left (wordsPoly_injective hlenE heq) hlen)
  have hnz' : c+c' ≠ 0 := by
    rintro h0
    rw [h0, zero_mul] at hsum
    exact hnz hsum
  have hcard : ((c+c')*X^pad).support.card = (c+c').support.card := by
    have := @card_support_shift (c+c') 0 pad (by rw [degree_zero]; exact WithBot.bot_lt_coe _)
    rwa [add_zero, support_zero, Finset.card_empty, Nat.add_zero] at this
  rw [hsum, hcard]
  have hα : AdjoinRoot.root (toPoly poly.toNat) ≠ 0 := (root_isUnit h.entries.modulus).ne_zero
  apply card_support_of_roots hnz' hα (n := bch.n)
  · intro i hi j hj heq
    rw [bch.n_eq] at hi hj
    exact h.entries.late.root_pow_injective h.entries.modulus hi hj heq
  · have hdeg : ((c+c')*X^pad).degree < ((8*data.length+8*bch.eccBytes : ℕ) : WithBot ℕ) := by
      rw [← hsum]
      apply (degree_add_le _ _).trans_lt
      have hlt := wordsPoly_degree (data ++ ecc)
      have hlt' := wordsPoly_degree (data' ++ ecc')
      rw [← hlenE] at hlt'
      rw [List.length_append, hp.length, Nat.mul_add] at hlt hlt'
      exact max_lt hlt hlt'
    rw [degree_mul, degree_X_pow, degree_eq_natDegree hnz', ← Nat.cast_add, Nat.cast_lt] at hdeg
    rw [degree_eq_natDegree hnz', Nat.cast_lt]
    omega
  · intro i h1 hi
    have hzero : aeval (AdjoinRoot.root (toPoly poly.toNat)^i) ((c+c')*X^pad) = 0 := by
      rw [← hsum, map_add, codeword_roots h hp h1 hi, codeword_roots h hp' h1 hi, add_zero]
    rw [map_mul, map_pow, aeval_X] at hzero
    exact (mul_eq_zero.mp hzero).resolve_right (pow_ne_zero _ (pow_ne_zero _ hα))

end Code

section Small

/-- The default polynomial of the smallest field is primitive. -/
theorem accepts_small : Accepts 5 1 (primPoly (5 : ℤ).toNat 0#32) := by
  have hiff := @buildGfTables_isSome_iff 0x25#32 (zeroedControl 5 (by decide) (by decide)) rfl
  obtain ⟨hdeg, hprim⟩ := hiff.mp rfl
  exact ⟨by decide, by decide, by decide, by decide, hdeg, hprim⟩

theorem initBch_small : ∃ bch, initBch (2^20) 5 1 0#32 = .ok bch := by
  rcases @initBch_cases (2^20) 5 1 0#32 le_rfl rfl with ⟨bch, hinit, -⟩ | ⟨-, hnot⟩
  · exact ⟨bch, hinit⟩
  · exact absurd accepts_small hnot

end Small

section Main

variable {fuel : ℕ} {m t : ℤ} {prim_poly : BitVec 32} {bch : BchCodec}

/-- `init_bch` returns a structure exactly for the degrees from 5 to 15, the numbers of errors that
leave room for data, and the primitive polynomials of the degree. Its loops always come to their
end. The product of the two numbers is an `int`. -/
theorem initBch_ok_iff (hfuel : 2^20 ≤ fuel) (_hint : m*t < 2^31)
    (h0 : (primPoly m.toNat prim_poly).getLsbD 0 = true) :
    ((∃ bch, initBch fuel m t prim_poly = .ok bch) ↔ Accepts m t (primPoly m.toNat prim_poly)) ∧
    initBch fuel m t prim_poly ≠ .error .passes := by
  rcases initBch_cases hfuel h0 (t := t) with ⟨bch, hok, hacc, -⟩ | ⟨herror, hnot⟩
  · rw [hok]
    exact ⟨⟨fun _ => hacc, fun _ => ⟨bch, rfl⟩⟩, fun h => by cases h⟩
  · rw [herror]
    refine ⟨⟨?_, fun hacc => absurd hacc hnot⟩, fun h => ?_⟩
    · rintro ⟨bch, h⟩
      cases h
    · cases Except.error.inj h

/-- The parameters for the boot ROM, with 40 errors. -/
theorem initBch_ok_iff_brom : Accepts 14 40 (primPoly (14 : ℤ).toNat BCH_PRIMITIVE_POLY) ∧
    (∃ bch, initBch (2^20) 14 40 BCH_PRIMITIVE_POLY = .ok bch) ∧
    ¬ ∃ bch, initBch (2^20) 14 2000 BCH_PRIMITIVE_POLY = .ok bch := by
  have hacc : Accepts 14 40 (primPoly (14 : ℤ).toNat BCH_PRIMITIVE_POLY) :=
    ⟨by decide, by decide, by decide, by decide, brom_primitive.1, brom_primitive.2⟩
  refine ⟨hacc, (initBch_ok_iff le_rfl (by decide) rfl).1.mpr hacc, fun h => ?_⟩
  -- 28000 bits of parity have no room in 16383
  obtain ⟨-, -, -, hlt, -⟩ := (initBch_ok_iff le_rfl (by decide) rfl).1.mp h
  exact absurd hlt (by decide)

/-- For each power of the primitive element below the degree, `xi_tab` has a root of
`x²+x+a^i+Tr(a^i)a^k`, where `a^k` is a power of trace one. -/
theorem initBch_deg2 (hfuel : 2^20 ≤ fuel) (h0 : (primPoly m.toNat prim_poly).getLsbD 0 = true)
    (hinit : initBch fuel m t prim_poly = .ok bch) :
    let poly := (primPoly m.toNat prim_poly).toNat
    let a := AdjoinRoot.root (toPoly poly)
    ∃ k < m.toNat, trace m.toNat (a^k) = 1 ∧ ∀ i < m.toNat, bch.xi_tab i < 2^m.toNat ∧
      elem poly (bch.xi_tab i)^2+elem poly (bch.xi_tab i) = a^i+trace m.toNat (a^i)*a^k := by
  obtain ⟨hm, -, h⟩ := initBch_initialised hfuel h0 hinit
  have hdeg2 := h.deg2
  rw [hm] at hdeg2
  exact hdeg2

theorem initBch_deg2_small : ∃ bch, initBch (2^20) 5 1 0#32 = .ok bch ∧
    let a := AdjoinRoot.root (toPoly (primPoly 5 0#32).toNat)
    ∃ k < 5, trace 5 (a^k) = 1 ∧ ∀ i < 5, bch.xi_tab i < 2^5 ∧
      elem (primPoly 5 0#32).toNat (bch.xi_tab i)^2+elem (primPoly 5 0#32).toNat (bch.xi_tab i) =
        a^i+trace 5 (a^i)*a^k := by
  obtain ⟨bch, hinit⟩ := initBch_small
  exact ⟨bch, hinit, initBch_deg2 le_rfl rfl hinit⟩

/-- What is left in the parity buffer, however the data is cut and wherever its parts are in memory:
the remainder of the data by the generator polynomial, left-justified. With it behind the data, the
first `2*t` powers of the primitive element are roots. -/
theorem encodeCalls_eq (hfuel : 2^20 ≤ fuel) (h0 : (primPoly m.toNat prim_poly).getLsbD 0 = true)
    (hinit : initBch fuel m t prim_poly = .ok bch) (calls : List (ℕ × List Byte)) :
    let poly := (primPoly m.toNat prim_poly).toNat
    let data := calls.flatMap Prod.snd
    ∃ ecc, bch.encodeCalls calls = some ecc ∧ ecc.length = bch.ecc_bytes ∧
      wordsPoly ecc = (wordsPoly data*X^bch.ecc_bits %ₘ generator poly t.toNat)*
        X^(8*bch.ecc_bytes-bch.ecc_bits) ∧
      ∀ i, 1 ≤ i → i ≤ 2*t.toNat →
        aeval (AdjoinRoot.root (toPoly poly)^i) (wordsPoly (data ++ ecc)) = 0 := by
  obtain ⟨-, ht, h⟩ := initBch_initialised hfuel h0 hinit
  obtain ⟨ecc, hcalls, hp⟩ := Parity.start.calls h.encoder calls
  rw [List.nil_append] at hp
  rw [← ht, h.ecc_bytes]
  exact ⟨ecc, hcalls, hp.length, hp.remainder h.encoder, fun i h1 hi => codeword_roots h hp h1 hi⟩

theorem encodeCalls_eq_small : ∃ bch ecc, initBch (2^20) 5 1 0#32 = .ok bch ∧
    bch.encodeCalls [(1, [0x12#8]), (2, [0x34#8, 0x56#8])] = some ecc ∧
    wordsPoly ecc = (wordsPoly [0x12#8, 0x34#8, 0x56#8]*X^bch.ecc_bits %ₘ
      generator (primPoly 5 0#32).toNat 1)*X^(8*bch.ecc_bytes-bch.ecc_bits) := by
  obtain ⟨bch, hinit⟩ := initBch_small
  obtain ⟨ecc, hcalls, -, hrem, -⟩ := encodeCalls_eq le_rfl rfl hinit
    [(1, [0x12#8]), (2, [0x34#8, 0x56#8])]
  exact ⟨bch, ecc, hinit, hcalls, hrem⟩

/-- The words between the unaligned bytes are encoded as their bytes would be, from any parity. -/
theorem encodeData_eq (hfuel : 2^20 ≤ fuel) (h0 : (primPoly m.toNat prim_poly).getLsbD 0 = true)
    (hinit : initBch fuel m t prim_poly = .ok bch) (addr : ℕ) (data : List Byte)
    {ecc_buf : List (BitVec 32)} (hlen : ecc_buf.length = bch.eccWords) :
    bch.encodeData addr data ecc_buf = bch.encodeBchUnaligned data ecc_buf := by
  obtain ⟨-, -, h⟩ := initBch_initialised hfuel h0 hinit
  obtain ⟨hl, -⟩ := eccBytes_bounds h.encoder.pos
  obtain ⟨hlen₁, hdvd₁⟩ := encodeData_dvd h.encoder.tab hl addr data hlen
  obtain ⟨hlen₂, hdvd₂⟩ := encodeBchUnaligned_dvd h.encoder.tab hl data hlen
  have hbits := h.encoder.bits_le
  exact words_unique h.encoder.monic (by rw [h.encoder.deg]; exact hbits.1.trans hbits.2)
    hlen₁ hlen₂ hdvd₁ hdvd₂

theorem encodeData_eq_small : ∃ bch, initBch (2^20) 5 1 0#32 = .ok bch ∧
    bch.encodeData 3 [1#8, 2#8, 3#8, 4#8, 5#8, 6#8] (List.replicate bch.eccWords 0x80000000#32) =
      bch.encodeBchUnaligned [1#8, 2#8, 3#8, 4#8, 5#8, 6#8]
        (List.replicate bch.eccWords 0x80000000#32) := by
  obtain ⟨bch, hinit⟩ := initBch_small
  exact ⟨bch, hinit, encodeData_eq le_rfl rfl hinit 3 _ List.length_replicate⟩

/-- Different data of one length differ, with their parity, in more than `2*t` bits, as long as the
bits of both are no more than the exponents: `t` wrong bits can be told from any other word. -/
theorem encodeCalls_distance (hfuel : 2^20 ≤ fuel)
    (h0 : (primPoly m.toNat prim_poly).getLsbD 0 = true)
    (hinit : initBch fuel m t prim_poly = .ok bch) {calls calls' : List (ℕ × List Byte)}
    {ecc ecc' : List Byte} (hcalls : bch.encodeCalls calls = some ecc)
    (hcalls' : bch.encodeCalls calls' = some ecc')
    (hlen : (calls.flatMap Prod.snd).length = (calls'.flatMap Prod.snd).length)
    (hfit : 8*(calls.flatMap Prod.snd).length+bch.ecc_bits ≤ 2^m.toNat-1)
    (hne : calls.flatMap Prod.snd ≠ calls'.flatMap Prod.snd) :
    2*t.toNat < distance (calls.flatMap Prod.snd ++ ecc) (calls'.flatMap Prod.snd ++ ecc') := by
  obtain ⟨hm, ht, h⟩ := initBch_initialised hfuel h0 hinit
  obtain ⟨ecc₁, hcalls₁, hp⟩ := Parity.start.calls h.encoder calls
  obtain ⟨ecc₂, hcalls₂, hp'⟩ := Parity.start.calls h.encoder calls'
  obtain rfl := Option.some.inj (hcalls.symm.trans hcalls₁)
  obtain rfl := Option.some.inj (hcalls'.symm.trans hcalls₂)
  rw [List.nil_append] at hp hp'
  rw [← hm, ← bch.n_eq] at hfit
  rw [← ht]
  exact codewords_distance h hp hp' hlen hfit hne

theorem encodeCalls_distance_small : ∃ bch ecc ecc', initBch (2^20) 5 1 0#32 = .ok bch ∧
    bch.encodeCalls [(0, [1#8])] = some ecc ∧ bch.encodeCalls [(3, [3#8])] = some ecc' ∧
    2 < distance (1#8 :: ecc) (3#8 :: ecc') := by
  obtain ⟨bch, hinit⟩ := initBch_small
  obtain ⟨hm, ht, h⟩ := @initBch_initialised bch (2^20) 5 1 0#32 le_rfl rfl hinit
  obtain ⟨ecc, hcalls, -⟩ := Parity.start.calls h.encoder [(0, [1#8])]
  obtain ⟨ecc', hcalls', -⟩ := Parity.start.calls h.encoder [(3, [3#8])]
  have hle := h.encoder.le
  rw [hm, ht] at hle
  have hle : bch.ecc_bits ≤ 5*1 := hle
  exact ⟨bch, ecc, ecc', hinit, hcalls, hcalls', encodeCalls_distance le_rfl rfl hinit hcalls hcalls'
    rfl (by change 8*1+bch.ecc_bits ≤ 31; omega) (by decide)⟩

end Main

end ChipTools.Bch
