import ChipTools.BinaryPoly
import ChipTools.UbifsLpt

/-! The lookup tables of `nand-image-builder` for the field of its BCH code: `build_gf_tables` fills
them from a polynomial, and multiplication adds logarithms. -/
namespace ChipTools.Bch
open BinaryPoly Polynomial

section Tables

/-- The members of `struct bch_control` that are about the field. The entries of the tables have 16
bits; `init_bch` takes an `m` of 5 to 15. -/
structure BchControl where
  m : ℕ
  n : ℕ
  a_pow_tab : ℕ → BitVec 16
  a_log_tab : ℕ → BitVec 16
  pos : 1 ≤ m
  le : m ≤ 16
  n_eq : n = 2^m-1

def setEntry (tab : ℕ → BitVec 16) (i v : ℕ) : ℕ → BitVec 16 :=
  fun j => if j = i then BitVec.ofNat 16 v else tab j

/-- `deg` of a polynomial that is not zero. Both programs have the same `fls`. -/
def deg (poly : BitVec 32) : ℕ := Ubifs.fls poly.toNat-1

/-- The loop of `build_gf_tables`, for `count` more entries. -/
def gfLoop (poly k : ℕ) : ℕ → ℕ → ℕ → BchControl → Option BchControl
  | 0, _, _, bch => some bch
  | count+1, i, x, bch =>
    let bch := { bch with
      a_pow_tab := setEntry bch.a_pow_tab i x
      a_log_tab := setEntry bch.a_log_tab x i }
    if i ≠ 0 ∧ x = 1 then none
    else
      let x := x*2%2^32
      let x := if x &&& k ≠ 0 then x ^^^ poly else x
      gfLoop poly k count (i+1) x bch

/-- `build_gf_tables`. -/
def buildGfTables (bch : BchControl) (poly : BitVec 32) : Option BchControl :=
  let k := 2^deg poly
  if k ≠ 2^bch.m then none
  else match gfLoop poly.toNat k bch.n 0 1 bch with
    | none => none
    | some bch => some { bch with
        a_pow_tab := setEntry bch.a_pow_tab bch.n 1
        a_log_tab := setEntry bch.a_log_tab 0 0 }

/-- `modulo`, with a bound on its passes. -/
def modulo (bch : BchControl) : ℕ → BitVec 32 → Option (BitVec 32)
  | 0, _ => none
  | fuel+1, v =>
    let n := BitVec.ofNat 32 bch.n
    if n ≤ v then
      let v := v-n
      modulo bch fuel ((v &&& n)+(v >>> bch.m))
    else some v

def mod_s (bch : BchControl) (v : ℕ) : ℕ := if v < bch.n then v else v-bch.n

/-- `gf_mul`. -/
def gfMul (bch : BchControl) (a b : ℕ) : ℕ :=
  if a ≠ 0 ∧ b ≠ 0 then
    (bch.a_pow_tab (mod_s bch ((bch.a_log_tab a).toNat+(bch.a_log_tab b).toNat))).toNat
  else 0

end Tables

section Meaning

/-- A polynomial of degree `m` is primitive: `X` has the order of the field without its zero. -/
def Primitive (m : ℕ) (p : (ZMod 2)[X]) : Prop := orderOf (AdjoinRoot.root p) = 2^m-1

/-- The tables are those of the field of a polynomial. -/
structure FieldTables (bch : BchControl) (poly : BitVec 32) : Prop where
  log_lt : ∀ x, 0 < x → x < 2^bch.m → (bch.a_log_tab x).toNat < bch.n
  pow_log : ∀ x, 0 < x → x < 2^bch.m → (bch.a_pow_tab (bch.a_log_tab x).toNat).toNat = x
  pow_lt : ∀ i < bch.n, 0 < (bch.a_pow_tab i).toNat ∧ (bch.a_pow_tab i).toNat < 2^bch.m
  log_pow : ∀ i < bch.n, (bch.a_log_tab (bch.a_pow_tab i).toNat).toNat = i
  mul : ∀ a b, a < 2^bch.m → b < 2^bch.m → gfMul bch a b < 2^bch.m ∧
    toPoly (gfMul bch a b) = toPoly a*toPoly b %ₘ toPoly poly.toNat

end Meaning

section Modulo

variable {bch : BchControl}

theorem BchControl.n_pos (bch : BchControl) : 0 < bch.n := by
  have hpow : 2^1 ≤ 2^bch.m := Nat.pow_le_pow_right Nat.two_pos bch.pos
  have hn := bch.n_eq
  omega

theorem BchControl.n_lt (bch : BchControl) : bch.n < 2^16 := by
  have hpow : 2^bch.m ≤ 2^16 := Nat.pow_le_pow_right Nat.two_pos bch.le
  have hn := bch.n_eq
  omega

/-- One pass of `modulo`: the number gets smaller and stays in its class. -/
theorem fold_mod (bch : BchControl) {w : ℕ} :
    w%2^bch.m+w/2^bch.m ≤ w ∧ (w%2^bch.m+w/2^bch.m)%bch.n = w%bch.n := by
  have hdiv := Nat.mod_add_div w (2^bch.m)
  have hpow : 2^bch.m = bch.n+1 := by
    have hpos := Nat.two_pow_pos bch.m
    have hn := bch.n_eq
    omega
  have hle : w/2^bch.m ≤ 2^bch.m*(w/2^bch.m) := Nat.le_mul_of_pos_left _ (Nat.two_pow_pos _)
  refine ⟨by omega, ?_⟩
  have hsplit : w = w%2^bch.m+w/2^bch.m+bch.n*(w/2^bch.m) := by
    calc w = w%2^bch.m+2^bch.m*(w/2^bch.m) := hdiv.symm
      _ = w%2^bch.m+(bch.n+1)*(w/2^bch.m) := by rw [← hpow]
      _ = w%2^bch.m+w/2^bch.m+bch.n*(w/2^bch.m) := by ring
  have hmod := congrArg (·%bch.n) hsplit
  rw [Nat.add_mul_mod_self_left] at hmod
  exact hmod.symm

/-- `modulo` returns for every number, with as many passes as that at most. -/
theorem modulo_eq (bch : BchControl) {fuel : ℕ} {v : BitVec 32} (hfuel : v.toNat < fuel) :
    modulo bch fuel v = some (BitVec.ofNat 32 (v.toNat%bch.n)) := by
  have hn : (BitVec.ofNat 32 bch.n).toNat = bch.n := by
    rw [BitVec.toNat_ofNat, Nat.mod_eq_of_lt (bch.n_lt.trans (by decide))]
  induction fuel generalizing v with
  | zero => exact absurd hfuel (Nat.not_lt_zero _)
  | succ fuel ih =>
    have hv := v.isLt
    have hpos := bch.n_pos
    rw [modulo]
    dsimp only
    by_cases hle : BitVec.ofNat 32 bch.n ≤ v
    · have hle' : bch.n ≤ v.toNat := by
        rw [BitVec.le_def, hn] at hle
        exact hle
      have hsub : (v-BitVec.ofNat 32 bch.n).toNat = v.toNat-bch.n := by
        rw [BitVec.toNat_sub_of_le hle, hn]
      obtain ⟨hsmall, hclass⟩ := @fold_mod bch (v.toNat-bch.n)
      have hnext : ((v-BitVec.ofNat 32 bch.n &&& BitVec.ofNat 32 bch.n)+
          (v-BitVec.ofNat 32 bch.n) >>> bch.m).toNat =
          (v.toNat-bch.n)%2^bch.m+(v.toNat-bch.n)/2^bch.m := by
        rw [BitVec.toNat_add, BitVec.toNat_and, BitVec.toNat_ushiftRight, hsub, hn, bch.n_eq,
          Nat.and_two_pow_sub_one_eq_mod, Nat.shiftRight_eq_div_pow, ← bch.n_eq]
        exact Nat.mod_eq_of_lt (by omega)
      rw [if_pos hle, ih (by omega), hnext, hclass, ← Nat.mod_eq_sub_mod hle']
    · have hlt : v.toNat < bch.n := by
        rw [BitVec.le_def, hn] at hle
        exact Nat.not_le.mp hle
      rw [if_neg hle, Nat.mod_eq_of_lt hlt, BitVec.ofNat_toNat, BitVec.setWidth_eq]

end Modulo

section Loop

variable {bch bch' : BchControl} {poly count i j x : ℕ}

/-- A shift and a reduction. -/
theorem shift_eq (hm : bch.m ≤ 16) (hx : x < 2^bch.m) :
    (if x*2%2^32 &&& 2^bch.m ≠ 0 then x*2%2^32 ^^^ poly else x*2%2^32) = step bch.m poly x := by
  have hpow : 2^bch.m ≤ 2^16 := Nat.pow_le_pow_right Nat.two_pos hm
  have hmod : x*2%2^32 = 2*x := by
    rw [Nat.mul_comm]
    exact Nat.mod_eq_of_lt (by omega)
  have hpos := Nat.two_pow_pos bch.m
  rw [hmod, Nat.and_two_pow, step]
  cases (2*x).testBit bch.m with
  | false => rw [if_neg (by simp), if_neg (by decide)]
  | true => rw [if_pos (by simp), if_pos rfl]

/-- What the loop leaves, from entry `i` on. -/
theorem gfLoop_some (h : Modulus bch.m poly) (hc : i+count = bch.n)
    (hrun : gfLoop poly (2^bch.m) count i (powX bch.m poly i) bch = some bch') :
    (∀ j, i ≤ j → j < bch.n → 0 < j → powX bch.m poly j ≠ 1) ∧ bch'.m = bch.m ∧
    (∀ j, bch'.a_pow_tab j = if i ≤ j ∧ j < bch.n then BitVec.ofNat 16 (powX bch.m poly j)
      else bch.a_pow_tab j) ∧
    (Late bch.m poly → ∀ j, i ≤ j → j < bch.n →
      bch'.a_log_tab (powX bch.m poly j) = BitVec.ofNat 16 j) ∧
    ∀ x, (∀ j, i ≤ j → j < bch.n → powX bch.m poly j ≠ x) →
      bch'.a_log_tab x = bch.a_log_tab x := by
  induction count generalizing i bch with
  | zero =>
    obtain rfl := Option.some.inj hrun
    refine ⟨fun j _ _ => by omega, rfl, fun j => (if_neg (by omega)).symm, fun _ j _ _ => by omega,
      fun _ _ => rfl⟩
  | succ count ih =>
    rw [gfLoop] at hrun
    dsimp only at hrun
    split at hrun
    · cases hrun
    next hone =>
      rw [shift_eq bch.le (powX_lt h i), ← powX_succ] at hrun
      obtain ⟨hlate, hm, hpow, hlog, hkeep⟩ := @ih { bch with
        a_pow_tab := setEntry bch.a_pow_tab i (powX bch.m poly i)
        a_log_tab := setEntry bch.a_log_tab (powX bch.m poly i) i } (i+1) h
        (by dsimp only; omega) hrun
      dsimp only at hlate hm hpow hlog hkeep
      refine ⟨fun j hj hjn h0 => ?_, hm, fun j => ?_, fun hl j hj hjn => ?_, fun x hx => ?_⟩
      · rcases Nat.eq_or_lt_of_le hj with rfl | hlt
        · exact fun heq => hone ⟨by omega, heq⟩
        · exact hlate j hlt hjn h0
      · rw [hpow, setEntry]
        by_cases hji : j = i
        · rw [hji, if_neg (by omega), if_pos rfl, if_pos (by omega)]
        · rw [if_neg hji]
          by_cases hin : i ≤ j ∧ j < bch.n
          · rw [if_pos (by omega), if_pos hin]
          · rw [if_neg (by omega), if_neg hin]
      · rcases Nat.eq_or_lt_of_le hj with rfl | hlt
        · -- the later entries are at other places
          rw [hkeep, setEntry, if_pos rfl]
          intro j hji hjn' heq
          have hn := bch.n_eq
          have := hl.injective h (by omega) (by omega) heq
          omega
        · exact hlog hl j hlt hjn
      · rw [hkeep x fun j hj => hx j (by omega), setEntry, if_neg]
        intro heq
        exact hx i (le_refl i) (by omega) heq.symm

/-- The loop comes to its end where no power before the last one is one. -/
theorem gfLoop_isSome (h : Modulus bch.m poly) (hl : Late bch.m poly) (hc : i+count = bch.n) :
    (gfLoop poly (2^bch.m) count i (powX bch.m poly i) bch).isSome := by
  induction count generalizing i bch with
  | zero => rfl
  | succ count ih =>
    have hn := bch.n_eq
    rw [gfLoop]
    dsimp only
    rw [if_neg (fun hone => hl i (by omega) (by omega) hone.2), shift_eq bch.le (powX_lt h i),
      ← powX_succ]
    exact @ih { bch with
      a_pow_tab := setEntry bch.a_pow_tab i (powX bch.m poly i)
      a_log_tab := setEntry bch.a_log_tab (powX bch.m poly i) i } (i+1) h hl (by dsimp only; omega)

end Loop

section Field

variable {bch bch' : BchControl} {poly : BitVec 32}

/-- The degree that `deg` finds is the one of the polynomial. -/
theorem deg_natDegree (h0 : poly.getLsbD 0 = true) :
    2^deg poly ≤ poly.toNat ∧ poly.toNat < 2^(deg poly+1) ∧
    (toPoly poly.toNat).natDegree = deg poly := by
  have hpos : 0 < poly.toNat := by
    apply Nat.pos_of_ne_zero
    intro hzero
    rw [BitVec.getLsbD, hzero, Nat.zero_testBit] at h0
    exact Bool.false_ne_true h0
  obtain ⟨h1, hlo, hhi⟩ := Ubifs.fls_bounds hpos poly.isLt
  have hdeg : deg poly+1 = Ubifs.fls poly.toNat := Nat.sub_add_cancel h1
  rw [← hdeg] at hhi
  exact ⟨hlo, hhi, natDegree_toPoly hlo hhi⟩

theorem deg_eq_iff (h0 : poly.getLsbD 0 = true) {m : ℕ} :
    2^deg poly = 2^m ↔ (toPoly poly.toNat).natDegree = m := by
  rw [(deg_natDegree h0).2.2]
  constructor
  · exact fun h => Nat.pow_right_injective (le_refl 2) h
  · exact fun h => congrArg (2^·) h

/-- A polynomial of the degree `m`. -/
theorem modulus_of_degree (bch : BchControl) (h0 : poly.getLsbD 0 = true)
    (hdeg : (toPoly poly.toNat).natDegree = bch.m) : Modulus bch.m poly.toNat := by
  obtain ⟨hlo, hhi, hnat⟩ := deg_natDegree h0
  rw [← hnat, hdeg] at hlo hhi
  exact ⟨bch.pos, hlo, hhi, h0⟩

/-- The entries after a run that succeeds: the powers of `X` and, where each of them is, its
exponent. -/
structure Entries (bch : BchControl) (poly : BitVec 32) : Prop where
  modulus : Modulus bch.m poly.toNat
  late : Late bch.m poly.toNat
  pow : ∀ j < bch.n, (bch.a_pow_tab j).toNat = powX bch.m poly.toNat j
  log : ∀ j < bch.n, (bch.a_log_tab (powX bch.m poly.toNat j)).toNat = j

theorem buildGfTables_some (h0 : poly.getLsbD 0 = true)
    (h : buildGfTables bch poly = some bch') : bch'.m = bch.m ∧ Entries bch' poly := by
  unfold buildGfTables at h
  dsimp only at h
  split at h
  · cases h
  next hk =>
    rw [not_not] at hk
    have hmod := modulus_of_degree bch h0 ((deg_eq_iff h0).mp hk)
    rw [hk] at h
    cases hloop : gfLoop poly.toNat (2^bch.m) bch.n 0 1 bch with
    | none =>
      rw [hloop] at h
      cases h
    | some filled =>
      rw [hloop] at h
      obtain rfl := Option.some.inj h
      obtain ⟨hlate, hm, hpow, hlog, -⟩ := gfLoop_some hmod (Nat.zero_add _) hloop
      have hn : filled.n = bch.n := by rw [filled.n_eq, bch.n_eq, hm]
      have hlt16 := bch.n_lt
      have hl : Late bch.m poly.toNat := by
        intro i hi hin
        rw [← bch.n_eq] at hin
        exact hlate i (Nat.zero_le _) hin hi
      refine ⟨hm, ?_, ?_, ?_, ?_⟩
      · dsimp only
        rw [hm]
        exact hmod
      · dsimp only
        rw [hm]
        exact hl
      · intro j hj
        have hsmall := (powX_lt hmod j).trans_le (Nat.pow_le_pow_right Nat.two_pos bch.le)
        dsimp only at hj ⊢
        rw [setEntry, if_neg (by omega), hpow, if_pos ⟨Nat.zero_le _, by omega⟩,
          BitVec.toNat_ofNat, Nat.mod_eq_of_lt hsmall, hm]
      · intro j hj
        have hpos := powX_pos hmod j
        dsimp only at hj ⊢
        rw [hm, setEntry, if_neg (Nat.ne_of_gt hpos), hlog hl j (Nat.zero_le _) (by omega),
          BitVec.toNat_ofNat, Nat.mod_eq_of_lt (by omega)]

theorem buildGfTables_isSome_iff (bch : BchControl) (h0 : poly.getLsbD 0 = true) :
    (buildGfTables bch poly).isSome ↔
      (toPoly poly.toNat).natDegree = bch.m ∧ Primitive bch.m (toPoly poly.toNat) := by
  constructor
  · intro hsome
    obtain ⟨bch', h⟩ := Option.isSome_iff_exists.mp hsome
    obtain ⟨hm, hentries⟩ := buildGfTables_some h0 h
    have hmod := hentries.modulus
    have hlate := hentries.late
    rw [hm] at hmod hlate
    exact ⟨natDegree_toPoly hmod.lo hmod.hi, (orderOf_root_iff hmod).mpr hlate⟩
  · rintro ⟨hdeg, hprim⟩
    have hmod := modulus_of_degree bch h0 hdeg
    have hloop := @gfLoop_isSome bch _ _ 0 hmod ((orderOf_root_iff hmod).mp hprim)
      (Nat.zero_add bch.n)
    obtain ⟨filled, hfilled⟩ := Option.isSome_iff_exists.mp hloop
    change gfLoop poly.toNat (2^bch.m) bch.n 0 1 bch = some filled at hfilled
    have hk := (deg_eq_iff h0).mpr hdeg
    unfold buildGfTables
    dsimp only
    rw [if_neg (not_not_intro hk), hk, hfilled]
    rfl

/-- Every number but zero is in the table of powers, where its logarithm says. -/
theorem Entries.exists_log (h : Entries bch poly) {x : ℕ} (h0 : 0 < x) (hx : x < 2^bch.m) :
    ∃ i < bch.n, powX bch.m poly.toNat i = x ∧ (bch.a_log_tab x).toNat = i := by
  obtain ⟨i, hi, rfl⟩ := h.late.surjective h.modulus h0 hx
  rw [← bch.n_eq] at hi
  exact ⟨i, hi, rfl, h.log i hi⟩

/-- Exponents are added modulo the number of elements that are not zero. -/
theorem Entries.elem_mod_s (h : Entries bch poly) {i j : ℕ} (hi : i < bch.n) (hj : j < bch.n) :
    mod_s bch (i+j) < bch.n ∧ elem poly.toNat (powX bch.m poly.toNat (mod_s bch (i+j))) =
      elem poly.toNat (powX bch.m poly.toNat i)*elem poly.toNat (powX bch.m poly.toNat j) := by
  have hlast := (powX_eq_one_iff h.modulus).mp (h.late.last h.modulus)
  rw [← bch.n_eq] at hlast
  rw [elem_powX, elem_powX, elem_powX, ← pow_add]
  unfold mod_s
  split
  next hlt => exact ⟨hlt, rfl⟩
  next hge =>
    refine ⟨by omega, ?_⟩
    have hsum : i+j = i+j-bch.n+bch.n := (Nat.sub_add_cancel (Nat.not_lt.mp hge)).symm
    calc AdjoinRoot.root (toPoly poly.toNat)^(i+j-bch.n)
        = AdjoinRoot.root (toPoly poly.toNat)^(i+j-bch.n)*
          AdjoinRoot.root (toPoly poly.toNat)^bch.n := by rw [hlast, mul_one]
      _ = AdjoinRoot.root (toPoly poly.toNat)^(i+j) := by rw [← pow_add, ← hsum]

theorem Entries.gfMul_eq (h : Entries bch poly) {a b : ℕ} (ha : a < 2^bch.m) (hb : b < 2^bch.m) :
    gfMul bch a b < 2^bch.m ∧
    elem poly.toNat (gfMul bch a b) = elem poly.toNat a*elem poly.toNat b := by
  unfold gfMul
  split
  next hne =>
    obtain ⟨i, hi, rfl, hlogi⟩ := h.exists_log (Nat.pos_of_ne_zero hne.1) ha
    obtain ⟨j, hj, rfl, hlogj⟩ := h.exists_log (Nat.pos_of_ne_zero hne.2) hb
    obtain ⟨hlt, helem⟩ := h.elem_mod_s hi hj
    rw [hlogi, hlogj, h.pow _ hlt]
    exact ⟨powX_lt h.modulus _, helem⟩
  next hzero =>
    refine ⟨Nat.two_pow_pos _, ?_⟩
    by_cases ha0 : a = 0
    · rw [ha0, elem_zero, zero_mul]
    · have hb0 : b = 0 := by
        by_contra hne
        exact hzero ⟨ha0, hne⟩
      rw [hb0, elem_zero, mul_zero]

theorem Entries.fieldTables (h : Entries bch poly) : FieldTables bch poly where
  log_lt x h0 hx := by
    obtain ⟨i, hi, -, hlog⟩ := h.exists_log h0 hx
    rw [hlog]
    exact hi
  pow_log x h0 hx := by
    obtain ⟨i, hi, hpow, hlog⟩ := h.exists_log h0 hx
    rw [hlog, h.pow i hi, hpow]
  pow_lt i hi := by
    rw [h.pow i hi]
    exact ⟨powX_pos h.modulus i, powX_lt h.modulus i⟩
  log_pow i hi := by rw [h.pow i hi, h.log i hi]
  mul a b ha hb := by
    obtain ⟨hlt, helem⟩ := h.gfMul_eq ha hb
    refine ⟨hlt, (elem_eq_iff h.modulus hlt _).mp ?_⟩
    rw [helem, map_mul]
    rfl

/-- `build_gf_tables` accepts the primitive polynomials of degree `m` and no others, the tables are
then those of their field, and `modulo` reduces every number. -/
theorem buildGfTables_field (bch : BchControl) (h0 : poly.getLsbD 0 = true) :
    ((buildGfTables bch poly).isSome ↔
      (toPoly poly.toNat).natDegree = bch.m ∧ Primitive bch.m (toPoly poly.toNat)) ∧
    (∀ bch', buildGfTables bch poly = some bch' → bch'.m = bch.m ∧ FieldTables bch' poly) ∧
    ∀ v : BitVec 32, ∃ fuel, ∀ k, fuel ≤ k →
      modulo bch k v = some (BitVec.ofNat 32 (v.toNat%(2^bch.m-1))) := by
  refine ⟨buildGfTables_isSome_iff bch h0, fun bch' h => ?_, fun v => ⟨v.toNat+1, fun k hk => ?_⟩⟩
  · obtain ⟨hm, hentries⟩ := buildGfTables_some h0 h
    exact ⟨hm, hentries.fieldTables⟩
  · rw [← bch.n_eq]
    exact modulo_eq bch hk

/-- The smallest field that `init_bch` takes, before its tables are filled. -/
def smallControl : BchControl where
  m := 5
  n := 31
  a_pow_tab := fun _ => 0#16
  a_log_tab := fun _ => 0#16
  pos := by decide
  le := by decide
  n_eq := rfl

/-- Of the polynomials of degree five, the default one is primitive, and the one with all of its
coefficients is not. -/
theorem buildGfTables_field_small : Primitive 5 (toPoly 0x25) ∧ ¬Primitive 5 (toPoly 0x3f) := by
  refine ⟨((@buildGfTables_field 0x25#32 smallControl rfl).1.mp rfl).2, fun hprim => ?_⟩
  have hdeg : (toPoly 0x3f).natDegree = 5 := natDegree_toPoly (by decide) (by decide)
  have hsome := (@buildGfTables_field 0x3f#32 smallControl rfl).1.mpr ⟨hdeg, hprim⟩
  exact Bool.false_ne_true hsome

end Field

end ChipTools.Bch
