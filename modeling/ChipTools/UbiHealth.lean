import ChipTools.Bytes
import Mathlib.Data.List.Rotate

/-! `ubihealthd`: two queues of PEBs that are read and scrubbed in turn, and the file that keeps the
statistics and the places in the queues from one run of the daemon to the next. -/
namespace ChipTools.UbiHealth
open Bytes

section Daemon

/-- `struct peb_info`; the number is signed. -/
structure PebInfo where
  peb_num : BitVec 64
  err_cnt : BitVec 64
  read_cnt : BitVec 64
  prev_read_cnt : BitVec 64
  last_stat_update : BitVec 64
  last_read : BitVec 64
  last_err : BitVec 64
deriving DecidableEq

/-- `struct ubi_stats_entry`. -/
structure StatsEntry where
  pnum : BitVec 32
  ec : BitVec 32
  rc : BitVec 32

/-- The list of PEBs and the two queues. A queue points to the PEBs by their places in the list. -/
structure Daemon where
  pebs : List PebInfo
  read : List ℕ
  scrub : List ℕ
deriving DecidableEq

/-- `read_peb` and `scrub_peb`; `ok` is whether the `ioctl` succeeds. -/
def touchPeb (now : BitVec 64) (ok : Bool) (peb : PebInfo) : PebInfo :=
  if ok then { peb with last_read := now } else peb

/-- `work` on a queue: its first PEB is read or scrubbed, and goes to the end. -/
def work (now : BitVec 64) (ok : Bool) (pebs : List PebInfo) (queue : List ℕ) :
    List PebInfo × List ℕ :=
  match queue with
  | [] => (pebs, [])
  | i :: queue => (pebs.modify i (touchPeb now ok), queue ++ [i])

/-- What the kernel reports of a PEB. A count of reads that went down means an erase. -/
def updatePeb (now : BitVec 64) (s : StatsEntry) (peb : PebInfo) : PebInfo :=
  let read_cnt := s.rc.signExtend 64
  { peb with
    err_cnt := s.ec.signExtend 64
    prev_read_cnt := if read_cnt < peb.read_cnt then read_cnt else peb.read_cnt
    read_cnt := read_cnt
    last_stat_update := now }

/-- One entry goes to the first PEB with its number. -/
def updateEntry (now : BitVec 64) (pebs : List PebInfo) (s : StatsEntry) : List PebInfo :=
  match pebs.findIdx? (fun peb => peb.peb_num = s.pnum.signExtend 64) with
  | some i => pebs.modify i (updatePeb now s)
  | none => pebs

/-- `update_stats`; none where it fails. -/
def updateStats (now : BitVec 64) (pebs : List PebInfo) (entries : Option (List StatsEntry)) :
    Option (List PebInfo) :=
  if pebs = [] then none else entries.map fun entries => entries.foldl (updateEntry now) pebs

/-- What wakes the daemon up: one of its timers, with the results of the `ioctl`s. -/
inductive Event
  | readTick (now : BitVec 64) (ok : Bool)
  | scrubTick (now : BitVec 64) (ok : Bool)
  | statsTick (now : BitVec 64) (entries : Option (List StatsEntry)) (ok : BitVec 64 → Bool)

/-- One event. After an update, the PEBs with too many reads are read. -/
def Daemon.step (read_threshold : BitVec 64) (d : Daemon) : Event → Daemon
  | .readTick now ok =>
    let r := work now ok d.pebs d.read
    { d with pebs := r.1, read := r.2 }
  | .scrubTick now ok =>
    let r := work now ok d.pebs d.scrub
    { d with pebs := r.1, scrub := r.2 }
  | .statsTick now entries ok =>
    match updateStats now d.pebs entries with
    | none => d
    | some pebs =>
      { d with pebs := pebs.map fun peb =>
          if read_threshold ≤ peb.read_cnt-peb.prev_read_cnt then touchPeb now (ok peb.peb_num) peb
          else peb }

def Daemon.run (read_threshold : BitVec 64) (d : Daemon) (events : List Event) : Daemon :=
  events.foldl (Daemon.step read_threshold) d

/-- The start without a file: both queues are the list. -/
def Daemon.init (pebs : List PebInfo) : Daemon :=
  ⟨pebs, List.range pebs.length, List.range pebs.length⟩

end Daemon

section File

def UBIHEALTHD_MAGIC_VERSION : ℕ := 1

def PEB_INFO_SZ : ℕ := 56

def PebInfo.bytes (peb : PebInfo) : List Byte :=
  le 8 peb.peb_num.toNat ++ (le 8 peb.err_cnt.toNat ++ (le 8 peb.read_cnt.toNat ++
    (le 8 peb.prev_read_cnt.toNat ++ (le 8 peb.last_stat_update.toNat ++
    (le 8 peb.last_read.toNat ++ (le 8 peb.last_err.toNat ++ []))))))

def PebInfo.ofBytes (bs : List Byte) : PebInfo where
  peb_num := BitVec.ofNat 64 (field bs 0 8)
  err_cnt := BitVec.ofNat 64 (field bs 8 8)
  read_cnt := BitVec.ofNat 64 (field bs 16 8)
  prev_read_cnt := BitVec.ofNat 64 (field bs 24 8)
  last_stat_update := BitVec.ofNat 64 (field bs 32 8)
  last_read := BitVec.ofNat 64 (field bs 40 8)
  last_err := BitVec.ofNat 64 (field bs 48 8)

/-- The number of the PEB that is first in a queue, 0 if there is none. -/
def nextPeb (pebs : List PebInfo) (queue : List ℕ) : BitVec 64 :=
  match queue.head?.bind fun i => pebs[i]? with
  | some peb => peb.peb_num
  | none => 0

/-- `write_stats_file`. -/
def writeStatsFile (d : Daemon) (pnum : BitVec 32) : List Byte :=
  le 8 UBIHEALTHD_MAGIC_VERSION ++ (le 4 pnum.toNat ++ (le 8 (nextPeb d.pebs d.read).toNat ++
    (le 8 (nextPeb d.pebs d.scrub).toNat ++ d.pebs.flatMap PebInfo.bytes)))

/-- `fread` of `n` bytes over what the variable held before: what it holds then, what is left of the
file, and whether all bytes were there. -/
def fread (var : List Byte) (n : ℕ) (file : List Byte) : List Byte × List Byte × Bool :=
  ((file.take n ++ var.drop (file.take n).length).take n, file.drop n, decide (n ≤ file.length))

/-- A record takes the place of each PEB with its number. -/
def replacePeb (pebs : List PebInfo) (peb : PebInfo) : List PebInfo :=
  pebs.map fun p => if p.peb_num = peb.peb_num then peb else p

/-- The loop over the records, with `n` to go: the PEBs, and how many records were not in the file.
`heap` is what the memory of a record holds before the read, by record. -/
def readRecords (heap : ℕ → List Byte) : ℕ → List Byte → List PebInfo → ℕ → List PebInfo × ℕ
  | 0, _, pebs, missed => (pebs, missed)
  | n+1, file, pebs, missed =>
    let r := fread (heap n) PEB_INFO_SZ file
    readRecords heap n r.2.1 (replacePeb pebs (.ofBytes r.1)) (if r.2.2 then missed else missed+1)

/-- The PEBs from the number `next` on, and then those below it. -/
def queueFrom (pebs : List PebInfo) (next : BitVec 64) : List ℕ :=
  ((List.range pebs.length).filter fun i =>
    pebs[i]?.any fun peb => next.toInt ≤ peb.peb_num.toInt) ++
  ((List.range pebs.length).filter fun i =>
    pebs[i]?.any fun peb => peb.peb_num.toInt < next.toInt)

/-- What `read_stats_file` makes of the list of a new process: the queues start out empty. The second
number counts the records that it took but were not there. None is an error. -/
def readStatsFile (stack : List Byte) (heap : ℕ → List Byte) (file : List Byte)
    (pebs : List PebInfo) : Option (Daemon × ℕ) :=
  let magic := fread (stack.take 8) 8 file
  if leVal magic.1 ≠ UBIHEALTHD_MAGIC_VERSION then none
  else
    let num := fread (le 4 0) 4 magic.2.1
    let next_read := fread ((stack.drop 8).take 8) 8 num.2.1
    let next_scrub := fread ((stack.drop 16).take 8) 8 next_read.2.1
    let num_pebs := (BitVec.ofNat 32 (leVal num.1)).toInt.toNat
    let r := readRecords heap num_pebs next_scrub.2.1 pebs 0
    some (⟨r.1, queueFrom r.1 (BitVec.ofNat 64 (leVal next_read.1)),
      queueFrom r.1 (BitVec.ofNat 64 (leVal next_scrub.1))⟩, r.2)

end File

section Spec

/-- The kernel reports the PEBs in the order of their numbers. -/
def Increasing (pebs : List PebInfo) : Prop :=
  pebs.Pairwise fun p q => p.peb_num.toInt < q.peb_num.toInt

/-- Both queues are rotations of the list. -/
def Daemon.Rotated (d : Daemon) : Prop :=
  d.read ~r List.range d.pebs.length ∧ d.scrub ~r List.range d.pebs.length

/-- A new process with the same list gets the same statistics and queues from the file, and all
records that it takes are in the file. -/
def Daemon.Restored (d : Daemon) (pnum : BitVec 32) : Prop :=
  ∀ stack heap pebs, pebs.map PebInfo.peb_num = d.pebs.map PebInfo.peb_num →
    readStatsFile stack heap (writeStatsFile d pnum) pebs = some (d, 0)

end Spec

section Queues

theorem work_rotated {now : BitVec 64} {ok : Bool} {pebs : List PebInfo} {queue l : List ℕ}
    (h : queue ~r l) : (work now ok pebs queue).2 ~r l := by
  cases queue with
  | nil => exact h
  | cons i queue => exact (List.isRotated_concat i queue).trans h

theorem touchPeb_num (now : BitVec 64) (ok : Bool) (peb : PebInfo) :
    (touchPeb now ok peb).peb_num = peb.peb_num := by
  cases ok <;> rfl

/-- A change of one PEB that keeps its number. -/
theorem modify_nums {pebs : List PebInfo} {i : ℕ} {f : PebInfo → PebInfo}
    (hf : ∀ peb, (f peb).peb_num = peb.peb_num) :
    (pebs.modify i f).map PebInfo.peb_num = pebs.map PebInfo.peb_num := by
  apply List.ext_getElem?
  intro j
  rw [List.getElem?_map, List.getElem?_map, List.getElem?_modify]
  cases pebs[j]? with
  | none => rfl
  | some peb =>
    by_cases hij : i = j
    · simp [hij, hf]
    · simp [hij]

theorem work_nums {now : BitVec 64} {ok : Bool} {pebs : List PebInfo} {queue : List ℕ} :
    (work now ok pebs queue).1.map PebInfo.peb_num = pebs.map PebInfo.peb_num := by
  cases queue with
  | nil => rfl
  | cons i queue => exact modify_nums (touchPeb_num now ok)

theorem updateEntries_nums (now : BitVec 64) (pebs : List PebInfo) (entries : List StatsEntry) :
    (entries.foldl (updateEntry now) pebs).map PebInfo.peb_num = pebs.map PebInfo.peb_num := by
  induction entries generalizing pebs with
  | nil => rfl
  | cons s entries ih =>
    rw [List.foldl_cons, ih]
    unfold updateEntry
    split
    · exact modify_nums fun _ => rfl
    · rfl

theorem updateStats_nums {now : BitVec 64} {pebs pebs' : List PebInfo}
    {entries : Option (List StatsEntry)} (h : updateStats now pebs entries = some pebs') :
    pebs'.map PebInfo.peb_num = pebs.map PebInfo.peb_num := by
  unfold updateStats at h
  split at h
  next => cases h
  next =>
    obtain ⟨entries, -, rfl⟩ := Option.map_eq_some_iff.mp h
    exact updateEntries_nums now pebs entries

/-- No event changes the numbers of the PEBs. -/
theorem step_nums (read_threshold : BitVec 64) (d : Daemon) (e : Event) :
    (d.step read_threshold e).pebs.map PebInfo.peb_num = d.pebs.map PebInfo.peb_num := by
  cases e with
  | readTick now ok => exact work_nums
  | scrubTick now ok => exact work_nums
  | statsTick now entries ok =>
    unfold Daemon.step
    dsimp only
    split
    next => rfl
    next pebs h =>
      rw [← updateStats_nums h, List.map_map]
      apply List.map_congr_left
      intro peb _
      rw [Function.comp_apply]
      split
      · exact touchPeb_num _ _ _
      · rfl

theorem step_rotated {read_threshold : BitVec 64} {d : Daemon} (e : Event) (h : d.Rotated) :
    (d.step read_threshold e).Rotated := by
  have hlen : (d.step read_threshold e).pebs.length = d.pebs.length := by
    have hnums := congrArg List.length (step_nums read_threshold d e)
    rwa [List.length_map, List.length_map] at hnums
  unfold Daemon.Rotated
  rw [hlen]
  cases e with
  | readTick now ok => exact ⟨work_rotated h.1, h.2⟩
  | scrubTick now ok => exact ⟨h.1, work_rotated h.2⟩
  | statsTick now entries ok =>
    unfold Daemon.step
    dsimp only
    split
    · exact h
    · exact h

/-- What holds over a whole run. -/
theorem run_rotated (read_threshold : BitVec 64) {d : Daemon} (events : List Event)
    (h : d.Rotated) : (d.run read_threshold events).Rotated ∧
      (d.run read_threshold events).pebs.map PebInfo.peb_num = d.pebs.map PebInfo.peb_num := by
  induction events generalizing d with
  | nil => exact ⟨h, rfl⟩
  | cons e events ih =>
    obtain ⟨hrot, hnums⟩ := ih (@step_rotated read_threshold _ e h)
    exact ⟨hrot, hnums.trans (step_nums read_threshold d e)⟩

theorem init_rotated (pebs : List PebInfo) : (Daemon.init pebs).Rotated := ⟨.refl _, .refl _⟩

end Queues

section Files

theorem fread_append {var bs rest : List Byte} {n : ℕ} (h : bs.length = n) :
    fread var n (bs ++ rest) = (bs, rest, true) := by
  unfold fread
  rw [List.take_left' h, List.drop_left' h, List.take_left' h, List.length_append, decide_eq_true]
  omega

theorem fread_nil {var : List Byte} {n : ℕ} (h : 0 < n) :
    (fread var n []).2 = ([], false) := by
  simp only [fread, List.drop_nil, List.length_nil, Prod.mk.injEq, true_and, decide_eq_false_iff_not]
  omega

theorem bytes_length (peb : PebInfo) : peb.bytes.length = PEB_INFO_SZ := by
  simp [PebInfo.bytes, PEB_INFO_SZ]

theorem ofBytes_bytes (peb : PebInfo) : .ofBytes peb.bytes = peb := by
  have e64 (v : BitVec 64) := ofNat_mod_toNat v 8 rfl
  simp (disch := simp) only [PebInfo.ofBytes, PebInfo.bytes, field_skip, field_le, le_length,
    Nat.reduceSub, e64]

/-- As many records as there are in the file. -/
theorem readRecords_all (heap : ℕ → List Byte) (recs pebs : List PebInfo) (missed : ℕ) :
    readRecords heap recs.length (recs.flatMap PebInfo.bytes) pebs missed =
      (recs.foldl replacePeb pebs, missed) := by
  induction recs generalizing pebs missed with
  | nil => rfl
  | cons peb recs ih =>
    rw [List.length_cons, List.flatMap_cons, readRecords, fread_append (bytes_length peb)]
    dsimp only
    rw [if_pos rfl, ofBytes_bytes, ih, List.foldl_cons]

/-- Records that are taken but are not in the file. -/
theorem readRecords_missed (heap : ℕ → List Byte) (recs pebs : List PebInfo) (missed j : ℕ) :
    (readRecords heap (recs.length+j) (recs.flatMap PebInfo.bytes) pebs missed).2 = missed+j := by
  induction recs generalizing pebs missed with
  | nil =>
    rw [List.length_nil, Nat.zero_add, List.flatMap_nil]
    induction j generalizing pebs missed with
    | zero => rfl
    | succ j ih =>
      rw [readRecords, fread_nil (by decide), ih, if_neg Bool.false_ne_true]
      omega
  | cons peb recs ih =>
    rw [List.length_cons, List.flatMap_cons, show recs.length+1+j = recs.length+j+1 from by omega,
      readRecords, fread_append (bytes_length peb)]
    exact ih _ _

/-- Records with the numbers of the list take its place. -/
theorem foldl_replacePeb {done ps rs : List PebInfo}
    (hnums : ps.map PebInfo.peb_num = rs.map PebInfo.peb_num)
    (hnodup : ((done ++ rs).map PebInfo.peb_num).Nodup) :
    rs.foldl replacePeb (done ++ ps) = done ++ rs := by
  induction rs generalizing done ps with
  | nil =>
    rw [List.map_nil, List.map_eq_nil_iff] at hnums
    rw [hnums]
    rfl
  | cons r rs ih =>
    cases ps with
    | nil => cases hnums
    | cons p ps =>
      rw [List.map_cons, List.map_cons, List.cons.injEq] at hnums
      have hother {q : PebInfo} (hq : q ∈ done ∨ q ∈ ps) : q.peb_num ≠ r.peb_num := by
        rw [List.map_append, List.map_cons, List.nodup_append] at hnodup
        rcases hq with hq | hq
        · exact hnodup.2.2 _ (List.mem_map_of_mem hq) _ List.mem_cons_self
        · have hmem := List.mem_map_of_mem (f := PebInfo.peb_num) hq
          rw [hnums.2] at hmem
          exact fun heq => (List.nodup_cons.mp hnodup.2.1).1 (heq ▸ hmem)
      have hkeep {qs : List PebInfo} (hqs : ∀ q ∈ qs, q ∈ done ∨ q ∈ ps) : replacePeb qs r = qs := by
        conv_rhs => rw [← List.map_id qs]
        exact List.map_congr_left fun q hq => if_neg (hother (hqs q hq))
      have hstep : replacePeb (done ++ p :: ps) r = (done ++ [r]) ++ ps := by
        have happ : replacePeb (done ++ p :: ps) r =
            replacePeb done r ++ (if p.peb_num = r.peb_num then r else p) :: replacePeb ps r := by
          simp [replacePeb]
        rw [happ, hkeep fun q hq => .inl hq, hkeep fun q hq => .inr hq, if_pos hnums.1]
        simp
      rw [List.foldl_cons, hstep, ih hnums.2 (by simpa using hnodup)]
      simp

/-- A place in the list and the number there are in the same order. -/
theorem num_lt_iff {pebs : List PebInfo} (hinc : Increasing pebs) {i j : ℕ} (hi : i < pebs.length)
    (hj : j < pebs.length) : pebs[i].peb_num.toInt < pebs[j].peb_num.toInt ↔ i < j := by
  have hlt {i j : ℕ} (hi : i < pebs.length) (hj : j < pebs.length) (hij : i < j) :
      pebs[i].peb_num.toInt < pebs[j].peb_num.toInt :=
    List.pairwise_iff_getElem.mp hinc i j hi hj hij
  constructor
  · intro h
    by_contra hle
    rcases Nat.lt_or_ge j i with hji | hji
    · have := hlt hj hi hji
      omega
    · obtain rfl : i = j := by omega
      omega
  · exact hlt hi hj

theorem queueFrom_place {pebs : List PebInfo} (hinc : Increasing pebs) {j : ℕ}
    (hj : j < pebs.length) :
    queueFrom pebs pebs[j].peb_num = (List.range pebs.length).rotate j := by
  have hge : ((List.range pebs.length).filter fun i =>
      pebs[i]?.any fun peb => pebs[j].peb_num.toInt ≤ peb.peb_num.toInt) =
      (List.range pebs.length).filter fun i => j ≤ i := by
    apply List.filter_congr
    intro i hi
    have hi' := List.mem_range.mp hi
    have hiff := num_lt_iff hinc hi' hj
    rw [List.getElem?_eq_getElem hi', Option.any_some, decide_eq_decide]
    omega
  have hlt : ((List.range pebs.length).filter fun i =>
      pebs[i]?.any fun peb => peb.peb_num.toInt < pebs[j].peb_num.toInt) =
      (List.range pebs.length).filter fun i => i < j := by
    apply List.filter_congr
    intro i hi
    have hi' := List.mem_range.mp hi
    rw [List.getElem?_eq_getElem hi', Option.any_some, decide_eq_decide]
    exact num_lt_iff hinc hi' hj
  have hsplit : List.range pebs.length = List.range j ++ (List.range (pebs.length-j)).map (j+·) := by
    rw [← List.range_add, Nat.add_sub_cancel' (by omega)]
  have hrot : (List.range pebs.length).rotate j =
      (List.range (pebs.length-j)).map (j+·) ++ List.range j := by
    rw [List.rotate_eq_drop_append_take (by rw [List.length_range]; omega), hsplit,
      List.drop_left' List.length_range, List.take_left' List.length_range]
  unfold queueFrom
  rw [hge, hlt, hrot, hsplit, List.filter_append, List.filter_append]
  have hlow : (List.range j).filter (fun i => j ≤ i) = [] := by
    simp
  have hhigh : ((List.range (pebs.length-j)).map (j+·)).filter (fun i => i < j) = [] := by
    simp
  rw [hlow, hhigh, List.nil_append, List.append_nil, List.filter_eq_self.mpr (by simp),
    List.filter_eq_self.mpr (by simp)]

/-- The queue comes back from the number of its first PEB. -/
theorem queueFrom_next {pebs : List PebInfo} (hinc : Increasing pebs) {queue : List ℕ}
    (h : queue ~r List.range pebs.length) : queueFrom pebs (nextPeb pebs queue) = queue := by
  cases queue with
  | nil =>
    have hnil := List.isRotated_nil_iff'.mp h
    have hlen : pebs.length = 0 := by
      have := congrArg List.length hnil
      simpa using this.symm
    simp [queueFrom, hlen]
  | cons j queue =>
    have hj : j < pebs.length := List.mem_range.mp (h.mem_iff.mp List.mem_cons_self)
    have hnext : nextPeb pebs (j :: queue) = pebs[j].peb_num := by
      simp [nextPeb, hj]
    obtain ⟨k, hk⟩ := h.symm
    rw [← List.rotate_mod, List.length_range] at hk
    have hlt : k%pebs.length < (List.range pebs.length).length := by
      rw [List.length_range]
      exact Nat.mod_lt _ (by omega)
    have hhead := List.head?_rotate hlt
    rw [hk, List.head?_cons, List.getElem?_range (by simpa using hlt)] at hhead
    rw [hnext, queueFrom_place hinc hj, ← hk, ← Option.some.inj hhead]

end Files

section Main

theorem leVal_word {w k : ℕ} (v : BitVec w) (hk : 256^k = 2^w) :
    BitVec.ofNat w (leVal (le k v.toNat)) = v := by
  rw [leVal_le, ofNat_mod_toNat v k hk]

/-- The header of the file is read back, and then the records. -/
theorem readStatsFile_eq (stack : List Byte) (heap : ℕ → List Byte) (d : Daemon) (pnum : BitVec 32)
    (pebs : List PebInfo) :
    readStatsFile stack heap (writeStatsFile d pnum) pebs =
      let r := readRecords heap pnum.toInt.toNat (d.pebs.flatMap PebInfo.bytes) pebs 0
      some (⟨r.1, queueFrom r.1 (nextPeb d.pebs d.read), queueFrom r.1 (nextPeb d.pebs d.scrub)⟩,
        r.2) := by
  unfold readStatsFile writeStatsFile
  have h4 := leVal_word (k := 4) pnum rfl
  have hr := leVal_word (k := 8) (nextPeb d.pebs d.read) rfl
  have hs := leVal_word (k := 8) (nextPeb d.pebs d.scrub) rfl
  simp only [fread_append (le_length _ _), h4, hr, hs]
  rw [if_neg (by decide)]

variable {d : Daemon} {pnum : BitVec 32}

theorem restored_of_count (hinc : Increasing d.pebs) (hrot : d.Rotated)
    (hcount : d.pebs.length = pnum.toInt.toNat) : d.Restored pnum := by
  intro stack heap pebs hnums
  have hnodup : (d.pebs.map PebInfo.peb_num).Nodup := by
    rw [List.nodup_iff_pairwise_ne, List.pairwise_map]
    exact hinc.imp fun hlt heq => by
      rw [heq] at hlt
      omega
  have hfold := @foldl_replacePeb [] _ _ hnums hnodup
  rw [List.nil_append, List.nil_append] at hfold
  rw [readStatsFile_eq, ← hcount, readRecords_all]
  dsimp only
  rw [hfold, queueFrom_next hinc hrot.1, queueFrom_next hinc hrot.2]

theorem count_of_restored (hle : d.pebs.length ≤ pnum.toInt.toNat) (h : d.Restored pnum) :
    d.pebs.length = pnum.toInt.toNat := by
  have hread := h [] (fun _ => []) d.pebs rfl
  rw [readStatsFile_eq] at hread
  obtain ⟨j, hj⟩ := Nat.exists_eq_add_of_le hle
  rw [hj] at hread
  have hmissed := readRecords_missed (fun _ => []) d.pebs d.pebs 0 j
  have hzero := congrArg Prod.snd (Option.some.inj hread)
  dsimp only at hzero
  omega

end Main

/-- Over every run from the PEBs that the kernel reports, the queues are rotations of the list, and
the file restores the daemon from every state that is reached, just when the number of PEBs that is
written into the file is the number of records behind it. -/
theorem queues_and_file_iff (pebs : List PebInfo) (pnum : BitVec 32) (hinc : Increasing pebs)
    (hle : pebs.length ≤ pnum.toInt.toNat) :
    (∀ read_threshold events, ((Daemon.init pebs).run read_threshold events).Rotated ∧
        ((Daemon.init pebs).run read_threshold events).Restored pnum) ↔
      pebs.length = pnum.toInt.toNat := by
  constructor
  · intro h
    exact count_of_restored (d := Daemon.init pebs) hle (h 0 []).2
  · intro hcount read_threshold events
    obtain ⟨hrot, hnums⟩ := run_rotated read_threshold events (init_rotated pebs)
    have hlen := congrArg List.length hnums
    rw [List.length_map, List.length_map] at hlen
    have hinc' : Increasing ((Daemon.init pebs).run read_threshold events).pebs := by
      have hmap : (pebs.map PebInfo.peb_num).Pairwise fun p q => p.toInt < q.toInt :=
        List.pairwise_map.mpr hinc
      have hnums' : pebs.map PebInfo.peb_num =
          ((Daemon.init pebs).run read_threshold events).pebs.map PebInfo.peb_num := hnums.symm
      rw [hnums', List.pairwise_map] at hmap
      exact hmap
    exact ⟨hrot, restored_of_count hinc' hrot (hlen.trans hcount)⟩

def twoPebs : List PebInfo := [⟨0, 0, 0, 0, 0, 0, 0⟩, ⟨1, 0, 0, 0, 0, 0, 0⟩]

/-- Two PEBs, with a header that says two and with one that says three. -/
theorem twoPebs_iff :
    (twoPebs.length = (2#32 : BitVec 32).toInt.toNat ∧
      ∀ read_threshold events, ((Daemon.init twoPebs).run read_threshold events).Rotated ∧
        ((Daemon.init twoPebs).run read_threshold events).Restored 2#32) ∧
    twoPebs.length ≠ (3#32 : BitVec 32).toInt.toNat ∧
      ¬∀ read_threshold events, ((Daemon.init twoPebs).run read_threshold events).Rotated ∧
        ((Daemon.init twoPebs).run read_threshold events).Restored 3#32 := by
  have hinc : Increasing twoPebs := by simp [Increasing, twoPebs]
  have hthree : twoPebs.length ≠ (3#32 : BitVec 32).toInt.toNat := by decide
  refine ⟨⟨rfl, (queues_and_file_iff twoPebs 2#32 hinc (by decide)).mpr rfl⟩, hthree, fun h => ?_⟩
  exact hthree ((queues_and_file_iff twoPebs 3#32 hinc (by decide)).mp h)

/-- The third record is taken from memory that nothing was read into. -/
theorem twoPebs_not_restored :
    Increasing twoPebs ∧ twoPebs.length ≤ (3#32 : BitVec 32).toInt.toNat ∧
      ¬((Daemon.init twoPebs).run 0 []).Restored 3#32 := by
  refine ⟨by simp [Increasing, twoPebs], by decide, fun h => ?_⟩
  have hcount := count_of_restored (d := Daemon.init twoPebs) (by decide) h
  exact absurd hcount (by decide)

end ChipTools.UbiHealth
