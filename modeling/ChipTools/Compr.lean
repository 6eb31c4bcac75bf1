import ChipTools.Mkjffs2Image
import ChipTools.Rtime

/-! `jffs2_compress`: the registered compressors are tried on a piece of a file, and the compression
mode says which of the results is taken. `write_regular_file` stores what comes out. -/
namespace ChipTools.Jffs2
open Bytes Loop

section Compressors

inductive CompressionMode
  | none
  | priority
  | size
  | favourlzo
  deriving DecidableEq

def JFFS2_COMPR_NONE : Byte := 0x00#8
def JFFS2_COMPR_RTIME : Byte := 0x02#8
def JFFS2_COMPR_LZO : Byte := 0x07#8
def FAVOUR_LZO_PERCENT : ℕ := 80

/-- What a call of `compress` returns, and what it leaves in its buffer and in the two lengths. -/
structure Trial where
  compr_ret : ℤ
  output_buf : List Byte
  datalen : ℕ
  cdatalen : ℕ

/-- `struct jffs2_compressor`. The arguments of `compress` are the input and the limit of the
output. -/
structure Compressor where
  compr : Byte
  compress : Option (List Byte → ℕ → Trial)
  disabled : Bool

/-- The calls of `malloc` that fail: that for `output_buf`, and those for the `compr_buf` of a
compressor. -/
structure MallocFails where
  output_buf : Bool
  compr_buf : Compressor → Bool

/-- A compressor that only decompresses or is disabled is skipped. -/
def Compressor.enabled (this : Compressor) : Option (List Byte → ℕ → Trial) :=
  if this.disabled then Option.none else this.compress

/-- `jffs2_is_best_compression`, with the products in 32 bits. -/
def jffs2IsBestCompression (mode : CompressionMode) (this best : Byte) (size bestsize : ℕ) : Bool :=
  match mode with
  | .size => size < bestsize
  | .favourlzo =>
    (this = JFFS2_COMPR_LZO ∧ size < bestsize) ∨
    (best ≠ JFFS2_COMPR_LZO ∧ size < bestsize) ∨
    (this = JFFS2_COMPR_LZO ∧ size*FAVOUR_LZO_PERCENT%2^32/100 < bestsize) ∨
    size < bestsize*FAVOUR_LZO_PERCENT%2^32/100
  | _ => false

/-- `ret` and the output buffer, with `*datalen` and `*cdatalen`. -/
structure Outcome where
  ret : Byte
  output_buf : List Byte
  datalen : ℕ
  cdatalen : ℕ

/-- The loop of the priority mode, which ends with the first success. A trial that failed leaves
its lengths behind. -/
def priorityLoop (data_in : List Byte) (orig_dlen : ℕ) :
    List Compressor → Outcome → Outcome
  | [], s => s
  | this :: rest, s =>
    match this.enabled with
    | Option.none => priorityLoop data_in orig_dlen rest s
    | some compress =>
      let t := compress data_in orig_dlen
      if t.compr_ret = 0 then ⟨this.compr, t.output_buf, t.datalen, t.cdatalen⟩
      else priorityLoop data_in orig_dlen rest { s with datalen := t.datalen, cdatalen := t.cdatalen }

/-- The variables of the loop that looks for the best result: `best_compr` and `best_buf` are the
fields of `best`. -/
structure BestSoFar where
  datalen : ℕ
  cdatalen : ℕ
  best_compr : Byte
  best_buf : List Byte
  best_slen : ℕ
  best_dlen : ℕ

/-- One compressor in the size and favourlzo modes. -/
def bestStep (mode : CompressionMode) (fails : MallocFails) (data_in : List Byte) (orig_dlen : ℕ)
    (s : BestSoFar) (this : Compressor) : BestSoFar :=
  match this.enabled with
  | Option.none => s
  | some compress =>
    if fails.compr_buf this then s
    else
      let t := compress data_in orig_dlen
      if t.compr_ret = 0 ∧ (s.best_dlen = 0 ∨
          jffs2IsBestCompression mode this.compr s.best_compr t.cdatalen s.best_dlen) ∧
          t.cdatalen < t.datalen then
        ⟨t.datalen, t.cdatalen, this.compr, t.output_buf, t.datalen, t.cdatalen⟩
      else { s with datalen := t.datalen, cdatalen := t.cdatalen }

/-- What is behind that loop. -/
def BestSoFar.result (s : BestSoFar) : Outcome :=
  if s.best_dlen ≠ 0 then ⟨s.best_compr, s.best_buf, s.best_slen, s.best_dlen⟩
  else ⟨JFFS2_COMPR_NONE, [], s.datalen, s.cdatalen⟩

/-- The label `out`: without compression the input is the output, cut to `*cdatalen`. -/
def Outcome.out (data_in : List Byte) (s : Outcome) : Compressed :=
  let compression := (s.ret.signExtend 16).toNat
  if s.ret = JFFS2_COMPR_NONE then ⟨compression, data_in, s.cdatalen, s.cdatalen⟩
  else ⟨compression, s.output_buf, s.datalen, s.cdatalen⟩

/-- `jffs2_compress`; `*datalen` is the length of the input. -/
def jffs2Compress (mode : CompressionMode) (jffs2_compressor_list : List Compressor)
    (fails : MallocFails) (data_in : List Byte) (cdatalen : ℕ) : Compressed :=
  let start : Outcome := ⟨JFFS2_COMPR_NONE, [], data_in.length, cdatalen⟩
  Outcome.out data_in <|
    match mode with
    | .none => start
    | .priority =>
      if fails.output_buf then start
      else priorityLoop data_in cdatalen jffs2_compressor_list start
    | .size | .favourlzo =>
      (jffs2_compressor_list.foldl (bestStep mode fails data_in cdatalen)
        ⟨data_in.length, cdatalen, JFFS2_COMPR_NONE, [], 0, 0⟩).result

end Compressors

section Contract

variable (decompress : Byte → List Byte → ℕ → Option (List Byte))

/-- How data of a type are decompressed: those without compression are copied. -/
def decompressAs (compr : Byte) (cdata : List Byte) (datalen : ℕ) : Option (List Byte) :=
  if compr = JFFS2_COMPR_NONE then some (cdata.take datalen) else decompress compr cdata datalen

/-- What a compressor promises for inputs up to a page: after a success its output is decompressed to
the start of the input, and a failure leaves the lengths as they were. -/
structure Compressor.Contract (page : ℕ) (this : Compressor) : Prop where
  success : ∀ compress, this.compress = some compress → ∀ data_in cdatalen,
    data_in.length ≤ page → 1 ≤ cdatalen → cdatalen ≤ data_in.length →
    (compress data_in cdatalen).compr_ret = 0 →
      (compress data_in cdatalen).datalen ≤ data_in.length ∧
      (compress data_in cdatalen).cdatalen ≤ cdatalen ∧
      decompress this.compr
          ((compress data_in cdatalen).output_buf.take (compress data_in cdatalen).cdatalen)
          (compress data_in cdatalen).datalen =
        some (data_in.take (compress data_in cdatalen).datalen)
  failure : ∀ compress, this.compress = some compress → ∀ data_in cdatalen,
    data_in.length ≤ page → 1 ≤ cdatalen → cdatalen ≤ data_in.length →
    (compress data_in cdatalen).compr_ret ≠ 0 →
      (compress data_in cdatalen).datalen = data_in.length ∧
      (compress data_in cdatalen).cdatalen = cdatalen

/-- A success is about some input and has some output. -/
def Compressor.Progress (page : ℕ) (this : Compressor) : Prop :=
  ∀ compress, this.compress = some compress → ∀ data_in cdatalen,
    data_in.length ≤ page → 1 ≤ cdatalen → cdatalen ≤ data_in.length →
    (compress data_in cdatalen).compr_ret = 0 →
      1 ≤ (compress data_in cdatalen).datalen ∧ 1 ≤ (compress data_in cdatalen).cdatalen

/-- What the caller of `jffs2_compress` wants. -/
structure Compressed.Sound (data_in : List Byte) (cdatalen : ℕ) (r : Compressed) : Prop where
  datalen_pos : 1 ≤ r.datalen
  datalen_le : r.datalen ≤ data_in.length
  cdatalen_le : r.cdatalen ≤ cdatalen
  decompressed : decompressAs decompress (BitVec.ofNat 8 r.compression)
    (r.cpage_out.take r.cdatalen) r.datalen = some (data_in.take r.datalen)

/-- A compressor that `jffs2_compress` tries in the size and favourlzo modes, and what it does. -/
def Compressor.Tried (fails : MallocFails) (data_in : List Byte) (cdatalen : ℕ) (this : Compressor)
    (t : Trial) : Prop :=
  ∃ compress, this.enabled = some compress ∧ fails.compr_buf this = false ∧
    compress data_in cdatalen = t

end Contract

section Best

variable {decompress : Byte → List Byte → ℕ → Option (List Byte)} {mode : CompressionMode}
variable {fails : MallocFails} {data_in : List Byte} {cdatalen page : ℕ} {this : Compressor}
variable {list : List Compressor} {s : BestSoFar} {compress : List Byte → ℕ → Trial}

theorem Compressor.enabled_eq (h : this.enabled = some compress) : this.compress = some compress := by
  unfold Compressor.enabled at h
  split at h
  · cases h
  · exact h

/-- A compressor is skipped, or its result is the best so far, or it leaves only its lengths. -/
theorem bestStep_cases (mode : CompressionMode) (fails : MallocFails) (data_in : List Byte)
    (cdatalen : ℕ) (s : BestSoFar) (this : Compressor) :
    (bestStep mode fails data_in cdatalen s this = s ∧ ∀ t, ¬ this.Tried fails data_in cdatalen t) ∨
    ∃ t, this.Tried fails data_in cdatalen t ∧
      ((t.compr_ret = 0 ∧ (s.best_dlen = 0 ∨
          jffs2IsBestCompression mode this.compr s.best_compr t.cdatalen s.best_dlen) ∧
          t.cdatalen < t.datalen ∧ bestStep mode fails data_in cdatalen s this =
            ⟨t.datalen, t.cdatalen, this.compr, t.output_buf, t.datalen, t.cdatalen⟩) ∨
        (¬(t.compr_ret = 0 ∧ (s.best_dlen = 0 ∨
          jffs2IsBestCompression mode this.compr s.best_compr t.cdatalen s.best_dlen) ∧
          t.cdatalen < t.datalen) ∧ bestStep mode fails data_in cdatalen s this =
            { s with datalen := t.datalen, cdatalen := t.cdatalen })) := by
  unfold bestStep
  cases hen : this.enabled with
  | none =>
    refine Or.inl ⟨rfl, ?_⟩
    rintro t ⟨compress, hsome, -⟩
    rw [hen] at hsome
    cases hsome
  | some compress =>
    cases hbuf : fails.compr_buf this with
    | true =>
      refine Or.inl ⟨rfl, ?_⟩
      rintro t ⟨-, -, hfree, -⟩
      rw [hbuf] at hfree
      cases hfree
    | false =>
      refine Or.inr ⟨compress data_in cdatalen, ⟨compress, hen, hbuf, rfl⟩, ?_⟩
      dsimp only
      rw [if_neg Bool.false_ne_true]
      split
      next htake => exact Or.inl ⟨htake.1, htake.2.1, htake.2.2, rfl⟩
      next hleave => exact Or.inr ⟨hleave, rfl⟩

/-- The lengths that the last trial left, and the best result so far. -/
structure BestSoFar.Sound (decompress : Byte → List Byte → ℕ → Option (List Byte))
    (data_in : List Byte) (cdatalen : ℕ) (s : BestSoFar) : Prop where
  cdatalen_pos : 1 ≤ s.cdatalen
  cdatalen_le : s.cdatalen ≤ cdatalen
  best : s.best_dlen ≠ 0 → s.best_dlen < s.best_slen ∧ s.best_slen ≤ data_in.length ∧
    s.best_dlen ≤ cdatalen ∧
    decompress s.best_compr (s.best_buf.take s.best_dlen) s.best_slen =
      some (data_in.take s.best_slen)

theorem bestStep_sound (hthis : this.Contract decompress page) (hprog : this.Progress page)
    (hpage : data_in.length ≤ page) (hpos : 1 ≤ cdatalen) (hle : cdatalen ≤ data_in.length)
    (hs : s.Sound decompress data_in cdatalen) :
    (bestStep mode fails data_in cdatalen s this).Sound decompress data_in cdatalen := by
  rcases bestStep_cases mode fails data_in cdatalen s this with
    ⟨heq, -⟩ | ⟨t, ⟨compress, hen, -, rfl⟩, ⟨hret, -, hshrunk, heq⟩ | ⟨-, heq⟩⟩
  · rw [heq]
    exact hs
  · obtain ⟨hslen, hdlen, hdec⟩ := hthis.success compress (this.enabled_eq hen) data_in cdatalen hpage
      hpos hle hret
    have hone := (hprog compress (this.enabled_eq hen) data_in cdatalen hpage hpos hle hret).2
    rw [heq]
    exact ⟨hone, hdlen, fun _ => ⟨hshrunk, hslen, hdlen, hdec⟩⟩
  · rw [heq]
    by_cases hret : (compress data_in cdatalen).compr_ret = 0
    · have hdlen := (hthis.success compress (this.enabled_eq hen) data_in cdatalen hpage hpos hle
        hret).2.1
      have hone := (hprog compress (this.enabled_eq hen) data_in cdatalen hpage hpos hle hret).2
      exact ⟨hone, hdlen, hs.best⟩
    · have hkept := (hthis.failure compress (this.enabled_eq hen) data_in cdatalen hpage hpos hle
        hret).2
      exact ⟨hkept.symm ▸ hpos, hkept.le, hs.best⟩

theorem bestLoop_sound (hlist : ∀ this ∈ list, this.Contract decompress page ∧ this.Progress page)
    (hpage : data_in.length ≤ page) (hpos : 1 ≤ cdatalen) (hle : cdatalen ≤ data_in.length)
    (hs : s.Sound decompress data_in cdatalen) :
    (list.foldl (bestStep mode fails data_in cdatalen) s).Sound decompress data_in cdatalen := by
  induction list generalizing s with
  | nil => exact hs
  | cons this rest ih =>
    rw [List.foldl_cons]
    apply ih
    · exact fun c hc => hlist c (List.mem_cons_of_mem this hc)
    · have hthis := hlist this List.mem_cons_self
      exact bestStep_sound hthis.1 hthis.2 hpage hpos hle hs

/-- In the size mode the best result so far does not get longer, and no result that shrank its input
is shorter. -/
theorem bestStep_size (fails : MallocFails) (hprog : this.Progress page)
    (hpage : data_in.length ≤ page) (hpos : 1 ≤ cdatalen) (hle : cdatalen ≤ data_in.length) :
    (s.best_dlen ≠ 0 → (bestStep .size fails data_in cdatalen s this).best_dlen ≠ 0 ∧
      (bestStep .size fails data_in cdatalen s this).best_dlen ≤ s.best_dlen) ∧
    ∀ t, this.Tried fails data_in cdatalen t → t.compr_ret = 0 → t.cdatalen < t.datalen →
      (bestStep .size fails data_in cdatalen s this).best_dlen ≠ 0 ∧
      (bestStep .size fails data_in cdatalen s this).best_dlen ≤ t.cdatalen := by
  have hone (compress : List Byte → ℕ → Trial) (hen : this.enabled = some compress)
      (hret : (compress data_in cdatalen).compr_ret = 0) : 1 ≤ (compress data_in cdatalen).cdatalen :=
    (hprog compress (this.enabled_eq hen) data_in cdatalen hpage hpos hle hret).2
  have hsame (t t' : Trial) (h : this.Tried fails data_in cdatalen t)
      (h' : this.Tried fails data_in cdatalen t') : t' = t := by
    obtain ⟨compress, hen, -, rfl⟩ := h
    obtain ⟨compress', hen', -, rfl⟩ := h'
    rw [hen] at hen'
    rw [Option.some.inj hen']
  rcases bestStep_cases .size fails data_in cdatalen s this with
    ⟨heq, hnone⟩ | ⟨t, ht, ⟨hret, hbest, -, heq⟩ | ⟨hleave, heq⟩⟩
  · rw [heq]
    exact ⟨fun h => ⟨h, le_refl _⟩, fun t ht => absurd ht (hnone t)⟩
  · obtain ⟨compress, hen, hbuf, rfl⟩ := ht
    have hpos' := hone compress hen hret
    rw [heq]
    refine ⟨fun hne => ⟨?_, ?_⟩, fun t' ht' _ _ => ?_⟩
    · exact Nat.one_le_iff_ne_zero.mp hpos'
    · have hlt : (compress data_in cdatalen).cdatalen < s.best_dlen :=
        of_decide_eq_true (hbest.resolve_left hne)
      exact hlt.le
    · obtain rfl := hsame _ t' ⟨compress, hen, hbuf, rfl⟩ ht'
      exact ⟨Nat.one_le_iff_ne_zero.mp hpos', le_refl _⟩
  · rw [heq]
    refine ⟨fun h => ⟨h, le_refl _⟩, fun t' ht' hret hshrunk => ?_⟩
    obtain rfl := hsame t t' ht ht'
    -- a result that is left although it shrank its input is not shorter than the best one
    have hnot : ¬(s.best_dlen = 0 ∨ t'.cdatalen < s.best_dlen) := fun h =>
      hleave ⟨hret, h.imp_right decide_eq_true, hshrunk⟩
    rw [not_or, not_lt] at hnot
    exact hnot

theorem bestLoop_size (fails : MallocFails) (hlist : ∀ this ∈ list, this.Progress page)
    (hpage : data_in.length ≤ page) (hpos : 1 ≤ cdatalen) (hle : cdatalen ≤ data_in.length) :
    (s.best_dlen ≠ 0 →
      (list.foldl (bestStep .size fails data_in cdatalen) s).best_dlen ≠ 0 ∧
      (list.foldl (bestStep .size fails data_in cdatalen) s).best_dlen ≤ s.best_dlen) ∧
    ∀ this ∈ list, ∀ t, this.Tried fails data_in cdatalen t → t.compr_ret = 0 →
      t.cdatalen < t.datalen →
      (list.foldl (bestStep .size fails data_in cdatalen) s).best_dlen ≠ 0 ∧
      (list.foldl (bestStep .size fails data_in cdatalen) s).best_dlen ≤ t.cdatalen := by
  induction list generalizing s with
  | nil => exact ⟨fun h => ⟨h, le_refl _⟩, fun this hthis => absurd hthis List.not_mem_nil⟩
  | cons c rest ih =>
    rw [List.foldl_cons]
    obtain ⟨hkeep, htry⟩ := bestStep_size (s := s) fails (hlist c List.mem_cons_self) hpage hpos
      hle
    obtain ⟨hkeeps, htries⟩ := ih (s := bestStep .size fails data_in cdatalen s c)
      fun this hthis => hlist this (List.mem_cons_of_mem c hthis)
    refine ⟨fun hne => ?_, fun this hthis t ht hret hshrunk => ?_⟩
    · obtain ⟨hne', hle'⟩ := hkeep hne
      exact ⟨(hkeeps hne').1, (hkeeps hne').2.trans hle'⟩
    · rcases List.mem_cons.mp hthis with rfl | hrest
      · obtain ⟨hne', hle'⟩ := htry t ht hret hshrunk
        exact ⟨(hkeeps hne').1, (hkeeps hne').2.trans hle'⟩
      · exact htries this hrest t ht hret hshrunk

end Best

section Result

variable {decompress : Byte → List Byte → ℕ → Option (List Byte)} {mode : CompressionMode}
variable {fails : MallocFails} {data_in : List Byte} {cdatalen page : ℕ}
variable {jffs2_compressor_list : List Compressor} {s : Outcome}

/-- The lower byte of the number that is returned is the type. -/
theorem low_byte (b : Byte) : BitVec.ofNat 8 (b.signExtend 16).toNat = b := by
  apply BitVec.eq_of_toNat_eq
  rw [BitVec.toNat_ofNat, BitVec.toNat_signExtend]
  split <;> simp only [BitVec.toNat_setWidth] <;> omega

/-- The lengths and the buffer at the label `out`. -/
structure Outcome.Sound (decompress : Byte → List Byte → ℕ → Option (List Byte))
    (data_in : List Byte) (cdatalen : ℕ) (s : Outcome) : Prop where
  cdatalen_pos : 1 ≤ s.cdatalen
  cdatalen_le : s.cdatalen ≤ cdatalen
  compressed : s.ret ≠ JFFS2_COMPR_NONE → 1 ≤ s.datalen ∧ s.datalen ≤ data_in.length ∧
    decompress s.ret (s.output_buf.take s.cdatalen) s.datalen = some (data_in.take s.datalen)

/-- Without a success the lengths of the last trial are those of the call. -/
theorem priorityLoop_sound
    (hlist : ∀ this ∈ jffs2_compressor_list, this.Contract decompress page ∧ this.Progress page)
    (hpage : data_in.length ≤ page) (hpos : 1 ≤ cdatalen) (hle : cdatalen ≤ data_in.length)
    (hret : s.ret = JFFS2_COMPR_NONE) (hs : s.Sound decompress data_in cdatalen) :
    (priorityLoop data_in cdatalen jffs2_compressor_list s).Sound decompress data_in cdatalen := by
  induction jffs2_compressor_list generalizing s with
  | nil => exact hs
  | cons this rest ih =>
    have hrest : ∀ c ∈ rest, c.Contract decompress page ∧ c.Progress page :=
      fun c hc => hlist c (List.mem_cons_of_mem this hc)
    obtain ⟨hthis, hprog⟩ := hlist this List.mem_cons_self
    rw [priorityLoop]
    split
    next => exact ih hrest hret hs
    next compress hen =>
      have heq := this.enabled_eq hen
      dsimp only
      split
      next h0 =>
        obtain ⟨hslen, hdlen, hdec⟩ := hthis.success compress heq data_in cdatalen hpage hpos hle h0
        obtain ⟨hspos, hdpos⟩ := hprog compress heq data_in cdatalen hpage hpos hle h0
        exact ⟨hdpos, hdlen, fun _ => ⟨hspos, hslen, hdec⟩⟩
      next h0 =>
        obtain ⟨hslen, hdlen⟩ := hthis.failure compress heq data_in cdatalen hpage hpos hle h0
        exact ih hrest hret ⟨hdlen.symm ▸ hpos, hdlen.le, fun hne => absurd hret hne⟩

theorem BestSoFar.Sound.result {s : BestSoFar} (hs : s.Sound decompress data_in cdatalen) :
    s.result.Sound decompress data_in cdatalen := by
  unfold BestSoFar.result
  split
  next hbest =>
    obtain ⟨hshrunk, hslen, hdlen, hdec⟩ := hs.best hbest
    exact ⟨Nat.one_le_iff_ne_zero.mpr hbest, hdlen, fun _ => ⟨Nat.one_le_of_lt hshrunk, hslen, hdec⟩⟩
  next => exact ⟨hs.cdatalen_pos, hs.cdatalen_le, fun hne => absurd rfl hne⟩

/-- At the label `out` the lengths of data without compression are made equal. -/
theorem Outcome.Sound.out (hle : cdatalen ≤ data_in.length) (hs : s.Sound decompress data_in cdatalen) :
    (s.out data_in).Sound decompress data_in cdatalen := by
  unfold Outcome.out
  dsimp only
  split
  next h0 =>
    refine ⟨hs.cdatalen_pos, hs.cdatalen_le.trans hle, hs.cdatalen_le, ?_⟩
    rw [low_byte, h0, decompressAs, if_pos rfl, List.take_take, min_self]
  next hne =>
    obtain ⟨hpos, hslen, hdec⟩ := hs.compressed hne
    refine ⟨hpos, hslen, hs.cdatalen_le, ?_⟩
    rw [low_byte, decompressAs, if_neg hne]
    exact hdec

/-- What is copied is the input. -/
theorem Outcome.out_none (h : BitVec.ofNat 8 (s.out data_in).compression = JFFS2_COMPR_NONE) :
    (s.out data_in).cpage_out = data_in ∧ (s.out data_in).datalen = (s.out data_in).cdatalen := by
  have hret : BitVec.ofNat 8 (s.out data_in).compression = s.ret := by
    unfold Outcome.out
    dsimp only
    split <;> exact low_byte s.ret
  unfold Outcome.out
  dsimp only
  rw [if_pos (hret.symm.trans h)]
  exact ⟨rfl, rfl⟩

theorem jffs2Compress_sound
    (hlist : ∀ this ∈ jffs2_compressor_list, this.Contract decompress page ∧ this.Progress page)
    (hpage : data_in.length ≤ page) (hpos : 1 ≤ cdatalen) (hle : cdatalen ≤ data_in.length) :
    (jffs2Compress mode jffs2_compressor_list fails data_in cdatalen).Sound decompress data_in
      cdatalen := by
  have hstart : (⟨JFFS2_COMPR_NONE, [], data_in.length, cdatalen⟩ : Outcome).Sound decompress data_in
      cdatalen := ⟨hpos, le_refl _, fun hne => absurd rfl hne⟩
  have hbest : (⟨data_in.length, cdatalen, JFFS2_COMPR_NONE, [], 0, 0⟩ : BestSoFar).Sound decompress
      data_in cdatalen := ⟨hpos, le_refl _, fun hne => absurd rfl hne⟩
  unfold jffs2Compress
  apply Outcome.Sound.out hle
  cases mode with
  | none => exact hstart
  | priority =>
    dsimp only
    split
    · exact hstart
    · exact priorityLoop_sound hlist hpage hpos hle rfl hstart
  | size => exact (bestLoop_sound hlist hpage hpos hle hbest).result
  | favourlzo => exact (bestLoop_sound hlist hpage hpos hle hbest).result

/-- In the size mode no compressor that shrank its input has a shorter output. -/
theorem jffs2Compress_size {this : Compressor} {t : Trial}
    (hlist : ∀ this ∈ jffs2_compressor_list, this.Progress page)
    (hpage : data_in.length ≤ page) (hpos : 1 ≤ cdatalen) (hle : cdatalen ≤ data_in.length)
    (hthis : this ∈ jffs2_compressor_list) (ht : this.Tried fails data_in cdatalen t)
    (hret : t.compr_ret = 0) (hshrunk : t.cdatalen < t.datalen) :
    (jffs2Compress .size jffs2_compressor_list fails data_in cdatalen).cdatalen ≤ t.cdatalen := by
  obtain ⟨-, htry⟩ := bestLoop_size (s := ⟨data_in.length, cdatalen, JFFS2_COMPR_NONE, [], 0, 0⟩)
    fails hlist hpage hpos hle
  obtain ⟨hne, hmin⟩ := htry this hthis t ht hret hshrunk
  unfold jffs2Compress
  dsimp only
  rw [BestSoFar.result, if_pos hne]
  unfold Outcome.out
  dsimp only
  split
  · exact hmin
  · exact hmin

end Result

section Tiling

variable {decompress : Byte → List Byte → ℕ → Option (List Byte)} {cfg : Config} {e : HostEntry}
variable {file : List Byte} {ws ws' : List Write} {n : Inode} {a b c : ℕ} {nodes nodes' : List Inode}

def Write.inode : Write → Option Inode
  | node (.inode n) => some n
  | _ => none

/-- The inode nodes among what is written. -/
def inodesOf (ws : List Write) : List Inode := ws.filterMap Write.inode

/-- The nodes are the bytes of the file from `a` to `b`, one behind the other. -/
def Tiles (decompress : Byte → List Byte → ℕ → Option (List Byte)) (file : List Byte) :
    ℕ → ℕ → List Inode → Prop
  | a, b, [] => a = b
  | a, b, n :: nodes => n.offset = a ∧ a+n.dsize ≤ b ∧
    decompressAs decompress (BitVec.ofNat 8 n.compr) n.data n.dsize =
      some ((file.drop a).take n.dsize) ∧ Tiles decompress file (a+n.dsize) b nodes

theorem Tiles.le (h : Tiles decompress file a b nodes) : a ≤ b := by
  cases nodes with
  | nil => exact h.le
  | cons n rest => exact (Nat.le_add_right a n.dsize).trans h.2.1

theorem Tiles.append (h : Tiles decompress file a b nodes) (h' : Tiles decompress file b c nodes') :
    Tiles decompress file a c (nodes ++ nodes') := by
  induction nodes generalizing a with
  | nil =>
    have heq : a = b := h
    rw [heq]
    exact h'
  | cons n rest ih =>
    obtain ⟨hoff, hle, hdec, hrest⟩ := h
    exact ⟨hoff, hle.trans h'.le, hdec, ih hrest⟩

theorem inodesOf_append (ws ws' : List Write) : inodesOf (ws ++ ws') = inodesOf ws ++ inodesOf ws' :=
  List.filterMap_append

theorem fullWrite_inodes {w : Write} (hw : w.inode = none) (h : fullWrite w ws = .ok ws') :
    inodesOf ws' = inodesOf ws := by
  have hnone : inodesOf [w] = [] := List.filterMap_cons_none hw
  rw [fullWrite_ok h, inodesOf_append, hnone, List.append_nil]

theorem padword_inodes (h : padword ws = .ok ws') : inodesOf ws' = inodesOf ws := by
  unfold padword at h
  split at h
  · rw [← Except.ok.inj h]
  · exact fullWrite_inodes rfl h

theorem startBlock_inodes (h : startBlock cfg ws = .ok ws') : inodesOf ws' = inodesOf ws := by
  unfold startBlock at h
  split at h
  · obtain ⟨ws₁, hmark, hpad⟩ := bind_eq_ok h
    rw [padword_inodes hpad, fullWrite_inodes rfl hmark]
  · rw [← Except.ok.inj h]

theorem makeRoom_inodes {req : ℕ} (h : makeRoom cfg req ws = .ok ws') :
    inodesOf ws' = inodesOf ws := by
  unfold makeRoom padblock at h
  split at h
  · split at h
    · rw [← Except.ok.inj h]
    · exact fullWrite_inodes rfl h
  · rw [← Except.ok.inj h]

theorem padBlockIfLessThan_inodes {req : ℕ} (h : padBlockIfLessThan cfg req ws = .ok ws') :
    inodesOf ws' = inodesOf ws := by
  obtain ⟨ws₁, h₁, h⟩ := bind_eq_ok h
  obtain ⟨ws₂, h₂, h₃⟩ := bind_eq_ok h
  rw [startBlock_inodes h₃, makeRoom_inodes h₂, startBlock_inodes h₁]

theorem writeNode_inodes {n : Node} (h : writeNode n ws = .ok ws') :
    inodesOf ws' = inodesOf ws ++ (Write.node n).inode.toList := by
  obtain ⟨ws₁, hnode, hpad⟩ := bind_eq_ok h
  have hlast : inodesOf [Write.node n] = (Write.node n).inode.toList := by
    cases hn : (Write.node n).inode with
    | none => exact List.filterMap_cons_none hn
    | some m => exact List.filterMap_cons_some hn
  rw [padword_inodes hpad, fullWrite_ok hnode, inodesOf_append, hlast]

theorem put_inodes {s s' : Mkfs} {req : ℕ} {n : Node} (h : s.put cfg req n = .ok s') :
    inodesOf s'.writes = inodesOf s.writes ++ (Write.node n).inode.toList := by
  obtain ⟨ws, hput, heq⟩ := bind_eq_ok h
  obtain ⟨ws₁, hpad, hnode⟩ := bind_eq_ok hput
  rw [← Except.ok.inj heq, Mkfs.withWrites, writeNode_inodes hnode, padBlockIfLessThan_inodes hpad]

theorem writeDirent_inodes {s s' : Mkfs} {pino ino : ℕ} (h : writeDirent cfg pino ino e s = .ok s') :
    inodesOf s'.writes = inodesOf s.writes := by
  obtain ⟨s₁, hput, heq⟩ := bind_eq_ok h
  rw [← Except.ok.inj heq]
  exact (put_inodes hput).trans (List.append_nil _)

/-- Every call of `jffs2_compress` has room for a byte of data. -/
def Config.HasRoom (cfg : Config) : Prop :=
  ∀ ws ws', padBlockIfLessThan cfg (68+JFFS2_MIN_DATA_LEN) ws = .ok ws' → roomFor cfg ws' ≠ 0

/-- What `jffs2_compress` makes of each piece of a page is sound. -/
def Config.CompressSound (decompress : Byte → List Byte → ℕ → Option (List Byte)) (page : ℕ)
    (cfg : Config) : Prop :=
  ∀ tbuf space, tbuf.length ≤ page → 1 ≤ space → space ≤ tbuf.length →
    (cfg.jffs2_compress tbuf space).Sound decompress tbuf space ∧
    (BitVec.ofNat 8 (cfg.jffs2_compress tbuf space).compression = JFFS2_COMPR_NONE →
      (cfg.jffs2_compress tbuf space).cpage_out = tbuf ∧
      (cfg.jffs2_compress tbuf space).datalen = (cfg.jffs2_compress tbuf space).cdatalen)

/-- A node of the loop is a piece of the start of `tbuf`. -/
theorem dataNode_sound {page : ℕ} (hcomp : cfg.CompressSound decompress page) {tbuf : List Byte}
    (hpage : tbuf.length ≤ page) {space : ℕ} (hpos : 1 ≤ space) (hle : space ≤ tbuf.length)
    (ino ver offset : ℕ) :
    1 ≤ (dataNode cfg e ino ver offset tbuf space).dsize ∧
    (dataNode cfg e ino ver offset tbuf space).dsize ≤ tbuf.length ∧
    decompressAs decompress (BitVec.ofNat 8 (dataNode cfg e ino ver offset tbuf space).compr)
        (dataNode cfg e ino ver offset tbuf space).data
        (dataNode cfg e ino ver offset tbuf space).dsize =
      some (tbuf.take (dataNode cfg e ino ver offset tbuf space).dsize) := by
  obtain ⟨hsound, hnone⟩ := hcomp tbuf space hpage hpos hle
  unfold dataNode inodeOf
  dsimp only
  generalize cfg.jffs2_compress tbuf space = r at hsound hnone
  have htype : BitVec.ofNat 8 (r.compression%256) = BitVec.ofNat 8 r.compression := by
    apply BitVec.eq_of_toNat_eq
    rw [BitVec.toNat_ofNat, BitVec.toNat_ofNat]
    exact Nat.mod_mod _ _
  have hzero : r.compression%256 = 0 ↔ BitVec.ofNat 8 r.compression = JFFS2_COMPR_NONE := by
    rw [← BitVec.toNat_inj, BitVec.toNat_ofNat]
    exact Iff.rfl
  rw [htype]
  split
  next h0 =>
    obtain ⟨hout, hlens⟩ := hnone (hzero.mp h0)
    have hdec := hsound.decompressed
    rw [hout, hlens] at hdec
    exact ⟨hlens ▸ hsound.datalen_pos, hlens ▸ hsound.datalen_le, hdec⟩
  next => exact ⟨hsound.datalen_pos, hsound.datalen_le, hsound.decompressed⟩

/-- The nodes for what one `read` returned: `offset` is where it starts in the file. -/
theorem writeChunk_tiles {page : ℕ} (hcomp : cfg.CompressSound decompress page) (hroom : cfg.HasRoom)
    {ino k ver offset : ℕ} {tbuf : List Byte} {r : ℕ × ℕ × List Write} (hpage : tbuf.length ≤ page)
    (hfile : (file.drop offset).take tbuf.length = tbuf)
    (hrun : writeChunk cfg e ino k tbuf ver offset ws = .ok r) :
    r.2.1 = offset+tbuf.length ∧ ver ≤ r.1 ∧ (tbuf ≠ [] → ver < r.1) ∧
      ∃ nodes, inodesOf r.2.2 = inodesOf ws ++ nodes ∧
        Tiles decompress file offset (offset+tbuf.length) nodes := by
  induction k generalizing tbuf ver offset ws with
  | zero =>
    cases tbuf with
    | nil =>
      obtain rfl := Except.ok.inj hrun
      exact ⟨rfl, le_refl _, fun h => absurd rfl h, [], (List.append_nil _).symm, rfl⟩
    | cons b bs => cases hrun
  | succ k ih =>
    cases tbuf with
    | nil =>
      obtain rfl := Except.ok.inj hrun
      exact ⟨rfl, le_refl _, fun h => absurd rfl h, [], (List.append_nil _).symm, rfl⟩
    | cons b bs =>
      obtain ⟨ws₁, h₁, hrun⟩ := bind_eq_ok hrun
      obtain ⟨ws₂, h₂, hrun⟩ := bind_eq_ok hrun
      have hspace : roomFor cfg ws₁ ≠ 0 := hroom ws ws₁ h₁
      generalize htbuf : b :: bs = tbuf at *
      have hlen : 1 ≤ tbuf.length := by
        rw [← htbuf, List.length_cons]
        omega
      have hpos : 1 ≤ min (roomFor cfg ws₁) tbuf.length := by omega
      obtain ⟨hone, hdsize, hdec⟩ := dataNode_sound (e := e) hcomp hpage hpos (min_le_right _ _) ino
        (ver+1) offset
      have hoffset : (dataNode cfg e ino (ver+1) offset tbuf (min (roomFor cfg ws₁) tbuf.length)).offset
          = offset := rfl
      generalize dataNode cfg e ino (ver+1) offset tbuf (min (roomFor cfg ws₁) tbuf.length) = n at *
      -- what is left of the buffer is what is left of the file
      have hrest : (file.drop (offset+n.dsize)).take (tbuf.drop n.dsize).length =
          tbuf.drop n.dsize := by
        rw [← List.drop_drop, List.length_drop, ← List.drop_take, hfile]
      have hfirst : (file.drop offset).take n.dsize = tbuf.take n.dsize := by
        conv_rhs => rw [← hfile]
        rw [List.take_take, min_eq_left hdsize]
      obtain ⟨hoff, hver, -, nodes, hnodes, htiles⟩ := ih
        (by rw [List.length_drop]; omega) hrest hrun
      have hend : offset+n.dsize+(tbuf.drop n.dsize).length = offset+tbuf.length := by
        rw [List.length_drop]
        omega
      rw [hend] at hoff htiles
      refine ⟨hoff, by omega, fun _ => by omega, n :: nodes, ?_, hoffset, ?_, ?_, htiles⟩
      · rw [hnodes, writeNode_inodes h₂, padBlockIfLessThan_inodes h₁, List.append_assoc]
        rfl
      · omega
      · rw [hfirst]
        exact hdec

theorem writeChunks_tiles {page : ℕ} (hcomp : cfg.CompressSound decompress page)
    (hroom : cfg.HasRoom) {ino ver offset : ℕ} {reads : List (List Byte)} {r : ℕ × List Write}
    (hpage : ∀ buf ∈ reads, buf.length ≤ page) (hfile : file.drop offset = reads.flatten)
    (hle : offset ≤ file.length)
    (hrun : writeChunks cfg e ino reads ver offset ws = .ok r) :
    ver ≤ r.1 ∧ (reads.flatten ≠ [] → ver < r.1) ∧ ∃ nodes, inodesOf r.2 = inodesOf ws ++ nodes ∧
      Tiles decompress file offset file.length nodes := by
  induction reads generalizing ver offset ws with
  | nil =>
    obtain rfl := Except.ok.inj hrun
    have hend : offset = file.length := by
      have hlen := congrArg List.length hfile
      rw [List.length_drop] at hlen
      have h0 : ([] : List (List Byte)).flatten.length = 0 := rfl
      omega
    exact ⟨le_refl _, fun h => absurd rfl h, [], (List.append_nil _).symm, hend⟩
  | cons buf reads ih =>
    obtain ⟨⟨ver₁, offset₁, ws₁⟩, h₁, h₂⟩ := bind_eq_ok hrun
    rw [List.flatten_cons] at hfile
    have hbuf : (file.drop offset).take buf.length = buf := by rw [hfile, List.take_left]
    obtain ⟨hoff, hver, hlt, nodes, hnodes, htiles⟩ := writeChunk_tiles hcomp hroom
      (hpage buf List.mem_cons_self) hbuf h₁
    dsimp only at hoff hver hlt hnodes
    have hlen : offset+buf.length ≤ file.length := by
      have := congrArg List.length hfile
      rw [List.length_drop, List.length_append] at this
      omega
    obtain ⟨hver', hlt', nodes', hnodes', htiles'⟩ := ih
      (fun b hb => hpage b (List.mem_cons_of_mem buf hb))
      (by rw [hoff, ← List.drop_drop, hfile, List.drop_left]) (hoff ▸ hlen) h₂
    refine ⟨hver.trans hver', fun hne => ?_, nodes ++ nodes', ?_, ?_⟩
    · by_cases hb : buf = []
      · rw [List.flatten_cons, hb, List.nil_append] at hne
        exact hver.trans_lt (hlt' hne)
      · exact (hlt hb).trans_le hver'
    · rw [hnodes', hnodes, List.append_assoc]
    · rw [hoff] at htiles'
      exact htiles.append htiles'

theorem writeRegularFile_tiles {page : ℕ} (hcomp : cfg.CompressSound decompress page)
    (hroom : cfg.HasRoom) {pino : ℕ} {s : Mkfs} {r : ℕ × Mkfs}
    (hpage : ∀ buf ∈ e.reads, buf.length ≤ page) (hsize : e.sb.st_size < JFFS2_MAX_FILE_SIZE)
    (hrun : writeRegularFile cfg pino e s = .ok r) :
    ∃ nodes, inodesOf r.2.writes = inodesOf s.writes ++ nodes ∧
      Tiles decompress e.reads.flatten 0 e.reads.flatten.length nodes := by
  unfold writeRegularFile at hrun
  rw [if_neg (not_le.mpr hsize)] at hrun
  obtain ⟨s₁, h₁, hrun⟩ := bind_eq_ok hrun
  obtain ⟨⟨ver, ws⟩, h₂, hrun⟩ := bind_eq_ok hrun
  obtain ⟨-, hver, nodes, hnodes, htiles⟩ := writeChunks_tiles hcomp hroom hpage
    (@List.drop_zero _ e.reads.flatten) (Nat.zero_le _) h₂
  dsimp only at hrun hver hnodes
  rw [writeDirent_inodes h₁] at hnodes
  split at hrun
  next h0 =>
    obtain ⟨s₂, h₃, hrun⟩ := bind_eq_ok hrun
    obtain rfl := Except.ok.inj hrun
    -- an empty file has one node without data
    have hempty : e.reads.flatten = [] := by
      by_contra hne
      exact absurd (hver hne) (by omega)
    rw [hempty] at htiles ⊢
    refine ⟨nodes ++ [inodeOf e (s.ino+1) 1 e.sb.st_size 0 0 0 0 []], ?_,
      htiles.append ⟨rfl, le_refl _, rfl, rfl⟩⟩
    rw [put_inodes h₃, Mkfs.withWrites]
    dsimp only
    rw [hnodes, List.append_assoc]
    rfl
  next =>
    obtain rfl := Except.ok.inj hrun
    exact ⟨nodes, hnodes, htiles⟩

end Tiling

section Ends

variable {decompress : Byte → List Byte → ℕ → Option (List Byte)} {cfg : Config} {e : HostEntry}
variable {ws ws' : List Write} {page : ℕ}

theorem fullWrite_ends (w : Write) (ws : List Write) : fullWrite w ws ≠ .error .unfinished := by
  unfold fullWrite
  split <;> exact nofun

theorem padword_ends (ws : List Write) : padword ws ≠ .error .unfinished := by
  unfold padword
  split
  · exact nofun
  · exact fullWrite_ends _ _

theorem startBlock_ends (cfg : Config) (ws : List Write) : startBlock cfg ws ≠ .error .unfinished := by
  unfold startBlock
  split
  · exact bind_ne_error (fullWrite_ends _ _) fun ws₁ _ => padword_ends ws₁
  · exact nofun

theorem padBlockIfLessThan_ends (cfg : Config) (req : ℕ) (ws : List Write) :
    padBlockIfLessThan cfg req ws ≠ .error .unfinished := by
  apply bind_ne_error (startBlock_ends cfg ws)
  intro ws₁ _
  refine bind_ne_error ?_ fun ws₂ _ => startBlock_ends cfg ws₂
  unfold makeRoom padblock
  split_ifs
  · exact nofun
  · exact fullWrite_ends _ _
  · exact nofun

theorem writeNode_ends (n : Node) (ws : List Write) : writeNode n ws ≠ .error .unfinished :=
  bind_ne_error (fullWrite_ends _ _) fun ws₁ _ => padword_ends ws₁

theorem put_ends (cfg : Config) (req : ℕ) (n : Node) (s : Mkfs) :
    s.put cfg req n ≠ .error .unfinished := by
  refine bind_ne_error ?_ fun ws _ => nofun
  exact bind_ne_error (padBlockIfLessThan_ends cfg req _) fun ws₁ _ => writeNode_ends n ws₁

theorem writeDirent_ends (cfg : Config) (pino ino : ℕ) (e : HostEntry) (s : Mkfs) :
    writeDirent cfg pino ino e s ≠ .error .unfinished :=
  bind_ne_error (put_ends cfg _ _ s) fun _ _ => nofun

/-- Each node takes a byte of the buffer, so the loop ends. -/
theorem writeChunk_ends (hcomp : cfg.CompressSound decompress page) (hroom : cfg.HasRoom)
    {ino k ver offset : ℕ} {tbuf : List Byte} (hpage : tbuf.length ≤ page) (hk : tbuf.length ≤ k) :
    writeChunk cfg e ino k tbuf ver offset ws ≠ .error .unfinished := by
  induction k generalizing tbuf ver offset ws with
  | zero =>
    cases tbuf with
    | nil => exact nofun
    | cons b bs => exact absurd hk (Nat.not_succ_le_zero _)
  | succ k ih =>
    cases tbuf with
    | nil => exact nofun
    | cons b bs =>
      apply bind_ne_error (padBlockIfLessThan_ends cfg _ ws)
      intro ws₁ h₁
      refine bind_ne_error (writeNode_ends _ _) fun ws₂ _ => ?_
      have hspace : roomFor cfg ws₁ ≠ 0 := hroom ws ws₁ h₁
      have hlen : (b :: bs).length = bs.length+1 := List.length_cons
      have hpos : 1 ≤ min (roomFor cfg ws₁) (b :: bs).length := by omega
      obtain ⟨hone, hdsize, -⟩ := dataNode_sound (e := e) hcomp hpage hpos (min_le_right _ _) ino
        (ver+1) offset
      apply ih
      · rw [List.length_drop]
        omega
      · rw [List.length_drop]
        omega

theorem writeChunks_ends (hcomp : cfg.CompressSound decompress page) (hroom : cfg.HasRoom)
    {ino ver offset : ℕ} {reads : List (List Byte)} (hpage : ∀ buf ∈ reads, buf.length ≤ page) :
    writeChunks cfg e ino reads ver offset ws ≠ .error .unfinished := by
  induction reads generalizing ver offset ws with
  | nil => exact nofun
  | cons buf reads ih =>
    apply bind_ne_error
    · exact writeChunk_ends hcomp hroom (hpage buf List.mem_cons_self) (le_refl _)
    · exact fun r _ => ih fun b hb => hpage b (List.mem_cons_of_mem buf hb)

theorem writeRegularFile_ends (hcomp : cfg.CompressSound decompress page) (hroom : cfg.HasRoom)
    {pino : ℕ} {s : Mkfs} (hpage : ∀ buf ∈ e.reads, buf.length ≤ page) :
    writeRegularFile cfg pino e s ≠ .error .unfinished := by
  unfold writeRegularFile
  split
  · exact nofun
  · apply bind_ne_error (writeDirent_ends cfg _ _ _ _)
    intro s₁ _
    apply bind_ne_error (writeChunks_ends hcomp hroom hpage)
    rintro ⟨ver, ws⟩ -
    dsimp only
    split
    · exact bind_ne_error (put_ends cfg _ _ _) fun s₂ _ => nofun
    · exact nofun

/-- There is room where an eraseblock is not full with the cleanmarker and an empty node. -/
theorem Config.hasRoom
    (h : cfg.add_cleanmarkers = true → cfg.cleanmarker_size+72 ≤ cfg.erase_block_size) :
    cfg.HasRoom := by
  intro ws ws₃ hrun
  obtain ⟨ws₁, -, hrun⟩ := bind_eq_ok hrun
  obtain ⟨ws₂, hmake, hstart⟩ := bind_eq_ok hrun
  have hmin := cfg.block_min
  have hlt := cfg.block_lt
  have hroom : outOfs ws₂%cfg.erase_block_size+196 ≤ cfg.erase_block_size := by
    unfold makeRoom padblock JFFS2_MIN_DATA_LEN at hmake
    split_ifs at hmake with hless hzero
    · rw [← Except.ok.inj hmake, hzero]
      omega
    · -- the rest of the eraseblock is filled
      rw [fullWrite_ok hmake, outOfs_append, outOfs_ff]
      have hmod : (outOfs ws₁+(cfg.erase_block_size-outOfs ws₁%cfg.erase_block_size))%
          cfg.erase_block_size = 0 := by
        have hdiv := Nat.div_add_mod (outOfs ws₁) cfg.erase_block_size
        have hle := (Nat.mod_lt (outOfs ws₁) (show 0 < cfg.erase_block_size by omega)).le
        have heq : outOfs ws₁+(cfg.erase_block_size-outOfs ws₁%cfg.erase_block_size) =
            cfg.erase_block_size*(outOfs ws₁/cfg.erase_block_size+1) := by
          rw [Nat.mul_add, Nat.mul_one]
          omega
        rw [heq, Nat.mul_mod_right]
      rw [hmod]
      omega
    · rw [← Except.ok.inj hmake]
      omega
  have hbefore : outOfs ws₃%cfg.erase_block_size+69 ≤ cfg.erase_block_size := by
    unfold startBlock at hstart
    split at hstart
    next hmark =>
      obtain ⟨ws₄, hfull, hpad⟩ := bind_eq_ok hstart
      obtain ⟨-, -, -, hofs⟩ := padword_ok hpad
      have hsize : (cleanmarker cfg).stored = cfg.cleanmarker_size := cleanmarker_totlen cfg
      rw [fullWrite_ok hfull, outOfs_append, outOfs_node, hsize] at hofs
      have hsmall := h hmark.1
      have hpad4 : pad4 (outOfs ws₂+cfg.cleanmarker_size) ≤ outOfs ws₂+cfg.cleanmarker_size+3 := by
        unfold pad4
        omega
      have hge := le_pad4_self (outOfs ws₂+cfg.cleanmarker_size)
      obtain ⟨d, hd⟩ : ∃ d, outOfs ws₃ = outOfs ws₂+d := ⟨outOfs ws₃-outOfs ws₂, by omega⟩
      rw [hd, Nat.add_mod, hmark.2, Nat.zero_add, Nat.mod_mod, Nat.mod_eq_of_lt (by omega)]
      omega
    next =>
      rw [← Except.ok.inj hstart]
      omega
  unfold roomFor
  omega

end Ends

section Rtime

/-- The `rtime` compressor, as it is registered. -/
def jffs2RtimeComp : Compressor where
  compr := JFFS2_COMPR_RTIME
  compress := some fun data_in cdatalen =>
    match jffs2RtimeCompress (fun i => data_in.getD i 0#8) data_in.length cdatalen with
    | some (out, pos) => ⟨0, out, pos, out.length⟩
    | none => ⟨-1, [], data_in.length, cdatalen⟩
  disabled := false

def rtimeOnly (compr : Byte) (cdata : List Byte) (datalen : ℕ) : Option (List Byte) :=
  if compr = JFFS2_COMPR_RTIME then some (jffs2RtimeDecompress cdata datalen) else none

theorem readBytes_getD {bs : List Byte} {n : ℕ} (h : n ≤ bs.length) :
    readBytes (fun i => bs.getD i 0#8) 0 n = bs.take n := by
  have hlen : (bs.take n).length = n := List.length_take_of_le h
  conv_lhs => rw [← hlen]
  apply readBytes_eq
  intro i hi
  have hi' : i < bs.length := by omega
  rw [Nat.zero_add, List.getD_eq_getElem?_getD, List.getElem?_eq_getElem hi', List.get_eq_getElem,
    List.getElem_take, Option.getD_some]

/-- The compressor does not take input without output. -/
theorem compressLoop_length (data_in : ℕ → Byte) (sourcelen dstlen k : ℕ) (s : Compressing) :
    compressLoop data_in sourcelen dstlen k s = s ∨
      s.cpage_out.length < (compressLoop data_in sourcelen dstlen k s).cpage_out.length := by
  induction k generalizing s with
  | zero => exact Or.inl rfl
  | succ k ih =>
    rw [compressLoop]
    split
    next =>
      refine Or.inr ?_
      have hstep : (compressStep data_in sourcelen s).cpage_out.length = s.cpage_out.length+2 := by
        rw [compressStep, List.length_append]
        rfl
      rcases ih (compressStep data_in sourcelen s) with heq | hlt
      · rw [heq]
        omega
      · omega
    next => exact Or.inl rfl

theorem jffs2RtimeCompress_ne_nil {data_in : ℕ → Byte} {sourcelen dstlen pos : ℕ} {out : List Byte}
    (h : jffs2RtimeCompress data_in sourcelen dstlen = some (out, pos)) : 1 ≤ out.length := by
  unfold jffs2RtimeCompress at h
  dsimp only at h
  split at h
  · cases h
  next hlt =>
    cases h
    rcases compressLoop_length data_in sourcelen dstlen sourcelen ⟨0, fun _ => 0, []⟩ with heq | hgrow
    · rw [heq] at hlt
      exact absurd (Nat.le_refl 0) hlt
    · exact Nat.succ_le_of_lt (Nat.zero_lt_of_lt hgrow)

/-- For pages that `short` places reach, the `rtime` compressor keeps its contract. -/
theorem jffs2RtimeComp_contract {page : ℕ} (hpage : page ≤ 32767) :
    jffs2RtimeComp.Contract rtimeOnly page ∧ jffs2RtimeComp.Progress page := by
  refine ⟨⟨?_, ?_⟩, ?_⟩
  · rintro compress heq data_in cdatalen hlen - - hret
    obtain rfl := Option.some.inj heq
    dsimp only at hret ⊢
    split at hret
    next out pos hrun =>
      obtain ⟨hout, -, hpos, hdec⟩ := rtime_round_trip _ _ _ (hlen.trans hpage) hrun
      rw [readBytes_getD hpos] at hdec
      refine ⟨hpos, hout, ?_⟩
      rw [List.take_of_length_le (le_refl _), rtimeOnly, ← hdec]
      exact if_pos rfl
    next => exact absurd hret (show ¬(-1 : ℤ) = 0 by decide)
  · rintro compress heq data_in cdatalen - - - hret
    obtain rfl := Option.some.inj heq
    dsimp only at hret ⊢
    split at hret
    next => exact absurd rfl hret
    next => exact ⟨rfl, rfl⟩
  · rintro compress heq data_in cdatalen hlen - - hret
    obtain rfl := Option.some.inj heq
    dsimp only at hret ⊢
    split at hret
    next out pos hrun =>
      have hone := jffs2RtimeCompress_ne_nil hrun
      obtain ⟨-, hlt, -, -⟩ := rtime_round_trip _ _ _ (hlen.trans hpage) hrun
      exact ⟨Nat.one_le_of_lt hlt, hone⟩
    next => exact absurd hret (show ¬(-1 : ℤ) = 0 by decide)

end Rtime

section Contracts

variable {decompress : Byte → List Byte → ℕ → Option (List Byte)} {page : ℕ}
variable {mode : CompressionMode} {jffs2_compressor_list : List Compressor}

theorem jffs2Compress_compressSound {cfg : Config}
    (hlist : ∀ this ∈ jffs2_compressor_list, this.Contract decompress page ∧ this.Progress page)
    (hcfg : ∀ data_in cdatalen, ∃ fails, cfg.jffs2_compress data_in cdatalen =
      jffs2Compress mode jffs2_compressor_list fails data_in cdatalen) :
    cfg.CompressSound decompress page := by
  intro tbuf space hpage hpos hle
  obtain ⟨fails, heq⟩ := hcfg tbuf space
  rw [heq]
  exact ⟨jffs2Compress_sound hlist hpage hpos hle, Outcome.out_none⟩

/-- With compressors that keep their contract, and whose successes are about some input and have
some output, `jffs2_compress` returns what decompresses to the start of its input, and the nodes of
a file are the whole file. -/
theorem jffs2_compress_contract (decompress : Byte → List Byte → ℕ → Option (List Byte)) (page : ℕ)
    (mode : CompressionMode) (jffs2_compressor_list : List Compressor)
    (hlist : ∀ this ∈ jffs2_compressor_list, this.Contract decompress page ∧ this.Progress page) :
    (∀ fails data_in cdatalen, data_in.length ≤ page → 1 ≤ cdatalen → cdatalen ≤ data_in.length →
      (jffs2Compress mode jffs2_compressor_list fails data_in cdatalen).Sound decompress data_in
        cdatalen ∧
      (mode = .size → ∀ this ∈ jffs2_compressor_list, ∀ t, this.Tried fails data_in cdatalen t →
        t.compr_ret = 0 → t.cdatalen < t.datalen →
        (jffs2Compress mode jffs2_compressor_list fails data_in cdatalen).cdatalen ≤ t.cdatalen)) ∧
    ∀ cfg : Config, cfg.HasRoom → (∀ data_in cdatalen, ∃ fails, cfg.jffs2_compress data_in cdatalen =
        jffs2Compress mode jffs2_compressor_list fails data_in cdatalen) →
      ∀ pino e s, e.sb.st_size < JFFS2_MAX_FILE_SIZE → (∀ buf ∈ e.reads, buf.length ≤ page) →
        writeRegularFile cfg pino e s ≠ .error .unfinished ∧
        ∀ r, writeRegularFile cfg pino e s = .ok r →
          ∃ nodes, inodesOf r.2.writes = inodesOf s.writes ++ nodes ∧
            Tiles decompress e.reads.flatten 0 e.reads.flatten.length nodes := by
  refine ⟨fun fails data_in cdatalen hpage hpos hle => ⟨?_, ?_⟩, ?_⟩
  · exact jffs2Compress_sound hlist hpage hpos hle
  · rintro rfl this hthis t ht hret hshrunk
    exact jffs2Compress_size (fun c hc => (hlist c hc).2) hpage hpos hle hthis ht hret hshrunk
  · intro cfg hroom hcfg pino e s hsize hpage
    have hcomp := jffs2Compress_compressSound hlist hcfg
    exact ⟨writeRegularFile_ends hcomp hroom hpage,
      fun r hrun => writeRegularFile_tiles hcomp hroom hpage hsize hrun⟩

/-- Eraseblocks for files that the `rtime` compressor in the size mode compresses. -/
def rtimeBlocks : Config :=
  { smallBlocks with
    jffs2_compress := jffs2Compress .size [jffs2RtimeComp] ⟨false, fun _ => false⟩ }

/-- A file of 64 equal bytes. -/
def sevens : HostEntry :=
  .mk [0x66#8] ⟨1, 3, 0x81a4, 0, 0, 64, 0, 0, 0⟩ [] [List.replicate 64 7#8] [] []

/-- The `rtime` compressor in the size mode, for a part of the file and for the file. -/
theorem jffs2_compress_rtime :
    (rtimeBlocks.jffs2_compress (List.replicate 64 7#8) 20).Sound rtimeOnly
        (List.replicate 64 7#8) 20 ∧
      ∃ r nodes, writeRegularFile rtimeBlocks 1 sevens ⟨[], 1, 0, 0, 0, [], []⟩ = .ok r ∧
        inodesOf r.2.writes = nodes ∧ nodes.map Inode.compr = [JFFS2_COMPR_RTIME.toNat] ∧
        Tiles rtimeOnly (List.replicate 64 7#8) 0 64 nodes := by
  have hlist : ∀ this ∈ [jffs2RtimeComp], this.Contract rtimeOnly 4096 ∧ this.Progress 4096 := by
    intro this hthis
    obtain rfl := List.mem_singleton.mp hthis
    exact jffs2RtimeComp_contract (by decide)
  have hcontract := jffs2_compress_contract rtimeOnly 4096 .size [jffs2RtimeComp] hlist
  refine ⟨(hcontract.1 ⟨false, fun _ => false⟩ _ _ ?_ ?_ ?_).1, ?_⟩
  · rw [List.length_replicate]
    decide
  · decide
  · rw [List.length_replicate]
    decide
  · obtain ⟨r, hrun, hcompr⟩ : ∃ r, writeRegularFile rtimeBlocks 1 sevens ⟨[], 1, 0, 0, 0, [], []⟩ =
        .ok r ∧ (inodesOf r.2.writes).map Inode.compr = [JFFS2_COMPR_RTIME.toNat] := ⟨_, rfl, rfl⟩
    have hroom : rtimeBlocks.HasRoom := Config.hasRoom fun _ => by decide
    obtain ⟨-, hnodes⟩ := hcontract.2 rtimeBlocks hroom (fun _ _ => ⟨_, rfl⟩) 1 sevens _ (by decide)
      (by decide)
    obtain ⟨nodes, hnodes, htiles⟩ := hnodes r hrun
    have hnodes : inodesOf r.2.writes = nodes := hnodes
    exact ⟨r, nodes, hrun, hnodes, by rw [← hnodes, hcompr], htiles⟩

/-- A compressor whose success is about nothing. -/
def idleComp : Compressor where
  compr := JFFS2_COMPR_RTIME
  compress := some fun _ _ => ⟨0, [], 0, 0⟩
  disabled := false

/-- Nothing is the start of every input, and no byte of the input is consumed. -/
theorem jffs2_compress_idle : ¬ ∀ (decompress : Byte → List Byte → ℕ → Option (List Byte)) (page : ℕ)
    (mode : CompressionMode) (jffs2_compressor_list : List Compressor) (fails : MallocFails)
    (data_in : List Byte) (cdatalen : ℕ),
    (∀ this ∈ jffs2_compressor_list, this.Contract decompress page) → data_in.length ≤ page →
    1 ≤ cdatalen → cdatalen ≤ data_in.length →
    (jffs2Compress mode jffs2_compressor_list fails data_in cdatalen).Sound decompress data_in
      cdatalen := by
  intro h
  have hidle : idleComp.Contract (fun _ _ _ => some []) 1 := by
    refine ⟨?_, ?_⟩
    · rintro compress heq data_in cdatalen - - - -
      obtain rfl := Option.some.inj heq
      exact ⟨Nat.zero_le _, Nat.zero_le _, rfl⟩
    · rintro compress heq data_in cdatalen - - - hret
      obtain rfl := Option.some.inj heq
      exact absurd rfl hret
  have hsound := h (fun _ _ _ => some []) 1 .priority [idleComp] ⟨false, fun _ => false⟩ [0#8] 1
    (fun this hthis => List.mem_singleton.mp hthis ▸ hidle) (le_refl _) (le_refl _) (le_refl _)
  have hlen : (jffs2Compress .priority [idleComp] ⟨false, fun _ => false⟩ [0#8] 1).datalen = 0 := rfl
  exact absurd hsound.datalen_pos (by rw [hlen]; decide)

end Contracts

end ChipTools.Jffs2
