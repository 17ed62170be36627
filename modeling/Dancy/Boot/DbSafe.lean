import Dancy.Boot.Memory

/-!
# Reading any database

Whatever the files hold, a scan ends, and it reads bytes of their data areas
only. It reads past the name if it compares the name of a header that is two
characters longer, or more.
-/

namespace Dancy.Boot

open Dancy.Zip Dancy.Lib List Option

variable {db : List DbFile} {s s' : DbReader}

/-- The bytes that are left are at the end of a data area, and `db_offset` is
at the start of one. -/
structure Sound (db : List DbFile) (s : DbReader) : Prop where
  outside : s.outside = false
  offset : ∃ q ≤ db.length, s.db_offset = 65504 * q
  inside : s.size ≠ 0 → 32 ≤ s.pos ∧ s.pos + s.size = 65536 ∧ s.db_offset = 65504 * (s.block + 1)

def ahead (db : List DbFile) (s : DbReader) : Nat :=
  s.state0 + 8 * s.size + 8 * (65504 * (db.length - s.db_offset / 65504))

structure Kept (db : List DbFile) (s s' : DbReader) : Prop where
  sound : Sound db s → Sound db s'
  ahead : ahead db s' ≤ ahead db s
  beyond : s'.beyond = s.beyond

theorem Kept.refl (db : List DbFile) (s : DbReader) : Kept db s s := ⟨id, le_rfl, rfl⟩

theorem Kept.trans {s'' : DbReader} (h : Kept db s s') (h' : Kept db s' s'') : Kept db s s'' :=
  ⟨h'.sound ∘ h.sound, le_trans h'.ahead h.ahead, h'.beyond.trans h.beyond⟩

theorem Sound.block_lt (h : Sound db s) (hsize : s.size ≠ 0) : s.block < db.length := by
  obtain ⟨q, hq, hoff⟩ := h.offset
  obtain ⟨-, -, hblock⟩ := h.inside hsize
  omega

theorem dbStart_sound (db : List DbFile) : Sound db dbStart :=
  ⟨rfl, ⟨0, Nat.zero_le _, rfl⟩, fun h => absurd rfl h⟩

theorem ahead_dbStart (db : List DbFile) : ahead db dbStart = 8 * (65504 * db.length) := by
  simp [ahead, dbStart]

/-! ## Bits -/

theorem clear_kept (db : List DbFile) (s : DbReader) : Kept db s s.clear :=
  ⟨fun h => ⟨h.outside, h.offset, fun hsize => absurd rfl hsize⟩, by
    simp only [ahead, DbReader.clear]
    omega, rfl⟩

theorem setState_kept (db : List DbFile) (s : DbReader) (state : Int) :
    Kept db s { s with db_callback_state := state } :=
  ⟨fun h => ⟨h.outside, h.offset, h.inside⟩, le_rfl, rfl⟩

theorem takeBit_kept (db : List DbFile) (h0 : s.state0 ≠ 0) :
    Kept db s s.takeBit.2 ∧ ahead db s.takeBit.2 < ahead db s := by
  have hlt : ahead db s.takeBit.2 < ahead db s := by
    simp only [ahead, DbReader.takeBit]
    omega
  exact ⟨⟨fun h => ⟨h.outside, h.offset, h.inside⟩, le_of_lt hlt, rfl⟩, hlt⟩

theorem load_kept (db : List DbFile) (h0 : s.state0 = 0) (hsize : s.size ≠ 0) : Kept db s (s.load db) := by
  refine ⟨fun h => ?_, ?_, rfl⟩
  · obtain ⟨hlow, hhigh, hoff⟩ := h.inside hsize
    refine ⟨?_, h.offset, fun hleft => ?_⟩
    · have hin : s.block < db.length ∧ 32 ≤ s.pos ∧ s.pos < 65536 :=
        ⟨h.block_lt hsize, hlow, by omega⟩
      simp [DbReader.load, h.outside, hin]
    · simp only [DbReader.load] at hleft ⊢
      omega
  · simp only [ahead, DbReader.load]
    omega

theorem dbCallback_kept (db : List DbFile) (h0 : s.state0 = 0) (hsize : s.size = 0) :
    Kept db s (dbCallback db s).2 ∧ (dbCallback db s).2.state0 = 0 := by
  unfold dbCallback
  by_cases hend : s.db_offset / 65504 ≥ db.length
  · rw [if_pos hend]
    exact ⟨.refl db s, h0⟩
  rw [if_neg hend]
  by_cases hneg : dbState db s (s.db_offset / 65504) < 0
  · rw [if_pos hneg]
    exact ⟨setState_kept db s _, h0⟩
  rw [if_neg hneg]
  refine ⟨⟨fun h => ?_, ?_, rfl⟩, h0⟩
  · obtain ⟨q, hq, hoff⟩ := h.offset
    exact ⟨h.outside, ⟨q + 1, by omega, by simp only; omega⟩, fun _ => by simp only; omega⟩
  · simp only [ahead]
    omega

theorem dbBit_kept (db : List DbFile) (s : DbReader) : Kept db s (dbBit db s).2 ∧
    ∀ {x : Bool} {s' : DbReader}, dbBit db s = (some x, s') → ahead db s' < ahead db s := by
  unfold dbBit
  by_cases h0 : s.state0 ≠ 0
  · rw [if_pos h0]
    obtain ⟨hkept, hlt⟩ := takeBit_kept db h0
    exact ⟨hkept, fun heq => by rw [heq] at hlt; exact hlt⟩
  rw [if_neg h0]
  by_cases hsize : s.size ≠ 0
  · rw [if_pos hsize]
    have hload := load_kept db (not_not.mp h0) hsize
    obtain ⟨hkept, hlt⟩ := takeBit_kept db (show (s.load db).state0 ≠ 0 by simp [DbReader.load])
    refine ⟨hload.trans hkept, fun heq => ?_⟩
    rw [heq] at hlt
    exact lt_of_lt_of_le hlt hload.ahead
  · rw [if_neg hsize]
    have hclear := clear_kept db s
    obtain ⟨hcall, hstate⟩ := dbCallback_kept db (show s.clear.state0 = 0 from rfl) rfl
    split
    · rename_i s1 heq
      rw [heq] at hcall
      exact ⟨hclear.trans hcall, fun h => by cases (Prod.mk.inj h).1⟩
    rename_i s1 heq
    rw [heq] at hcall hstate
    split
    · exact ⟨hclear.trans hcall, fun h => by cases (Prod.mk.inj h).1⟩
    rename_i hsize1
    have hload := load_kept db hstate hsize1
    obtain ⟨hkept, hlt⟩ := takeBit_kept db (show (s1.load db).state0 ≠ 0 by simp [DbReader.load])
    have hall := (hclear.trans hcall).trans hload
    refine ⟨hall.trans hkept, fun heq => ?_⟩
    rw [heq] at hlt
    exact lt_of_lt_of_le hlt hall.ahead

theorem dbBit_spends (db : List DbFile) : Spends (dbBit db) (ahead db) :=
  ⟨fun s => (dbBit_kept db s).1.ahead, fun {s} => (dbBit_kept db s).2⟩

theorem takes_kept (h : Takes (dbBit db) s s') : Kept db s s' := by
  induction h with
  | refl => exact .refl db s
  | tail _ hnext ih => exact hnext ▸ ih.trans (dbBit_kept db _).1

section

variable (db)

theorem dbFetch_kept (bits : Nat) (s : DbReader) :
    Kept db s (dbFetch db bits s).2 :=
  takes_kept (fetchFrom_takes (dbBit db) bits s)

theorem dbFetch_lt {n v : Nat} (heq : dbFetch db (n + 1) s = (some v, s')) :
    ahead db s' < ahead db s := fetchFrom_spends (dbBit_spends db) heq

theorem dbSkip_kept (left : Nat) : ∀ (bytes : Nat) (s : DbReader),
    Kept db s (dbSkip db left bytes s) := by
  induction left with
  | zero => exact fun _ s => .refl db s
  | succ left ih =>
    intro bytes s
    rw [dbSkip]
    by_cases hbytes : bytes = 0
    · rw [if_pos hbytes]
      exact .refl db s
    rw [if_neg hbytes]
    by_cases hmore : s.size > bytes
    · rw [if_pos hmore]
      refine ⟨fun h => ⟨h.outside, h.offset, fun _ => ?_⟩, ?_, rfl⟩
      · have hin := h.inside (by omega)
        simp only
        omega
      · simp only [ahead]
        omega
    rw [if_neg hmore]
    by_cases hsize : s.size ≠ 0
    · rw [if_pos hsize]
      have hdrop : Kept db s { s with block := 0, pos := 0, size := 0 } := by
        refine ⟨fun h => ⟨h.outside, h.offset, fun h => absurd rfl h⟩, ?_, rfl⟩
        simp only [ahead]
        omega
      exact hdrop.trans (ih (bytes - s.size) _)
    rw [if_neg hsize]
    have hfetch := dbFetch_kept db 8 s
    split
    · rename_i s1 heq
      rw [heq] at hfetch
      exact hfetch
    · rename_i c s1 heq
      rw [heq] at hfetch
      exact hfetch.trans (ih (bytes - 1) s1)

theorem dbFastForward_kept (s : DbReader) (bytes : Nat) :
    Kept db s (dbFastForward db s bytes) := dbSkip_kept db bytes bytes s

theorem dbFields_kept (s : DbReader) : Kept db s (dbFields db s).2 := by
  have hmethod := (dbFastForward_kept db s 4).trans (dbFetch_kept db 16 _)
  have hcrc_low := (hmethod.trans (dbFastForward_kept db _ 4)).trans (dbFetch_kept db 16 _)
  have hcrc_high := hcrc_low.trans (dbFetch_kept db 16 _)
  have hcompressed := hcrc_high.trans (dbFetch_kept db 32 _)
  have huncompressed := hcompressed.trans (dbFetch_kept db 32 _)
  have hname := huncompressed.trans (dbFetch_kept db 16 _)
  simp only [dbFields]
  exact hname.trans (dbFetch_kept db 16 _)

/-- What the scan for a header leaves; a round that goes on took a byte. -/
def Scan.Kept (s : DbReader) : Scan → Prop
  | .stop s' => Boot.Kept db s s'
  | .again _ s' => Boot.Kept db s s' ∧ ahead db s' < ahead db s
  | .header _ s' => Boot.Kept db s s' ∧ ahead db s' < ahead db s

theorem dbScan_kept (padding : Nat) (s : DbReader) :
    (dbScan db padding s).Kept db s := by
  have hset := setState_kept db s 0
  have hfirst := hset.trans (dbFetch_kept db 8 { s with db_callback_state := 0 })
  unfold dbScan
  split
  · rename_i s1 heq
    rw [heq] at hfirst
    exact hfirst
  rename_i pk_header s1 heq
  have hlt := dbFetch_lt db heq
  rw [heq] at hfirst
  by_cases hzero : pk_header = 0x00
  · rw [if_pos hzero]
    by_cases hpad : padding > 64
    · rw [if_pos hpad]
      have hclear := clear_kept db s1
      exact ⟨hfirst.trans hclear, lt_of_le_of_lt hclear.ahead hlt⟩
    · rw [if_neg hpad]
      exact ⟨hfirst, hlt⟩
  rw [if_neg hzero]
  by_cases hsig : pk_header ≠ 0x50
  · rw [if_pos hsig]
    exact ⟨hfirst, hlt⟩
  rw [if_neg hsig]
  have hrest := (setState_kept db s1 1).trans (dbFetch_kept db 24 { s1 with db_callback_state := 1 })
  generalize dbFetch db 24 { s1 with db_callback_state := 1 } = r at hrest ⊢
  obtain ⟨val, s2⟩ := r
  simp only
  split
  · exact ⟨hfirst.trans hrest, lt_of_le_of_lt hrest.ahead hlt⟩
  have hall := hrest.trans (dbFields_kept db s2)
  split
  all_goals exact ⟨hfirst.trans hall, lt_of_le_of_lt hall.ahead hlt⟩

/-- A comparison keeps the reader sound, and it reads past the name if it has
more characters to compare than the name and its null character are. -/
theorem compareName_kept (name : CString) (after : Nat → UInt8) (left : Nat) :
    ∀ (i : Nat) (err : Bool) (s : DbReader),
      (Sound db s → Sound db (compareName db name after left i err s).2) ∧
      ahead db (compareName db name after left i err s).2 ≤ ahead db s ∧
      (compareName db name after left i err s).2.beyond =
        (s.beyond || decide (0 < left ∧ name.chars.length + 1 < i + left)) := by
  induction left with
  | zero => exact fun i err s => ⟨id, le_rfl, by simp [compareName]⟩
  | succ left ih =>
    intro i err s
    have hfetch := dbFetch_kept db 8 s
    rw [compareName]
    generalize dbFetch db 8 s = r at hfetch ⊢
    obtain ⟨c1, s1⟩ := r
    simp only at hfetch ⊢
    obtain ⟨hsound, hahead, hbeyond⟩ := ih (i + 1) (err || c1 != some (nameChar name after i).toNat)
      { s1 with beyond := s1.beyond || decide (i > name.chars.length) }
    refine ⟨fun h => hsound ?_, le_trans hahead hfetch.ahead, ?_⟩
    · have h1 := hfetch.sound h
      exact ⟨h1.outside, h1.offset, h1.inside⟩
    rw [hbeyond]
    simp only [hfetch.beyond, Bool.or_assoc]
    rw [← Bool.decide_or]
    have hiff : (i > name.chars.length ∨ (0 < left ∧ name.chars.length + 1 < i + 1 + left)) ↔
        (0 < left + 1 ∧ name.chars.length + 1 < i + (left + 1)) := by omega
    rw [decide_eq_decide.mpr hiff]

/-! ## A whole scan -/

theorem copyStored_kept (size : Nat) : ∀ (out : List UInt8) (s : DbReader),
    Kept db s (copyStored db size out s).2 := by
  induction size with
  | zero => exact fun _ s => .refl db s
  | succ size ih =>
    intro out s
    have hfetch := dbFetch_kept db 8 s
    rw [copyStored]
    split
    · rename_i s1 heq
      rw [heq] at hfetch
      exact hfetch
    · rename_i c s1 heq
      rw [heq] at hfetch
      exact hfetch.trans (ih _ s1)

theorem unpack_kept {fuel : Nat} (h : PkHeader) (hfuel : ahead db s < fuel) :
    ∃ r, unpack db fuel h s = some r ∧ Kept db s r.2 := by
  unfold unpack
  by_cases hmethod : h.method = 0
  · rw [if_pos hmethod]
    exact ⟨_, rfl, copyStored_kept db h.size_uncompressed [] s⟩
  · rw [if_neg hmethod]
    obtain ⟨r, hr⟩ := inflateFrom_some (dbBit_spends db) h.size_uncompressed hfuel
    rw [hr]
    exact ⟨_, rfl, takes_kept (inflateFrom_takes (dbBit db) fuel h.size_uncompressed s hr)⟩

theorem dbExtract_kept (malloc : Nat → Bool) {fuel : Nat} (h : PkHeader)
    (hfuel : ahead db s < fuel) :
    ∃ r, dbExtract db malloc fuel h s = some r ∧ Kept db s r.reader := by
  unfold dbExtract
  split
  · exact ⟨_, rfl, .refl db s⟩
  split
  · exact ⟨_, rfl, .refl db s⟩
  obtain ⟨r, hr, hkept⟩ := unpack_kept db h hfuel
  rw [hr]
  obtain ⟨out, s1⟩ := r
  cases out with
  | none => exact ⟨_, rfl, hkept⟩
  | some out =>
    simp only
    split
    · exact ⟨_, rfl, hkept⟩
    split
    all_goals exact ⟨_, rfl, hkept⟩

/-- The headers whose names a scan compares, from a round of it on. -/
inductive Compares (db : List DbFile) (name : CString) (after : Nat → UInt8) :
    Nat → DbReader → PkHeader → Prop
  | here {padding : Nat} {s s' : DbReader} {h : PkHeader} :
      dbScan db padding s = .header h s' → Compares db name after padding s h
  | again {padding padding' : Nat} {s s' : DbReader} {h : PkHeader} :
      dbScan db padding s = .again padding' s' → Compares db name after padding' s' h →
        Compares db name after padding s h
  | other {padding : Nat} {s s' : DbReader} {h k : PkHeader} :
      dbScan db padding s = .header k s' →
      (compareName db name after k.name_length 0 false s').1 = true →
      Compares db name after 0 (dbFastForward db (dbFastForward db
        (compareName db name after k.name_length 0 false s').2 k.extra_length) k.size_compressed) h →
        Compares db name after padding s h

/-- A scan ends in the data areas, and it stays in the name if and only if no
header it compares has a longer name. -/
theorem dbLoop_safe (name : CString) (after : Nat → UInt8) (malloc : Nat → Bool)
    (fuel : Nat) : ∀ (padding : Nat) (s : DbReader), Sound db s → ahead db s < fuel →
      ∃ r, dbLoop db name after malloc fuel padding s = some r ∧ r.reader.outside = false ∧
        (r.reader.beyond = false ↔ s.beyond = false ∧
          ∀ h, Compares db name after padding s h → h.name_length ≤ name.chars.length + 1) := by
  induction fuel with
  | zero => omega
  | succ fuel ih =>
    intro padding s hs hfuel
    have hkept := dbScan_kept db padding s
    rw [dbLoop]
    cases hscan : dbScan db padding s with
    | stop s1 =>
      rw [hscan] at hkept
      refine ⟨_, rfl, (hkept.sound hs).outside, ?_⟩
      rw [hkept.beyond]
      refine ⟨fun h => ⟨h, fun k hk => ?_⟩, And.left⟩
      cases hk with
      | here h | again h _ | other h _ _ => exact nomatch hscan.symm.trans h
    | again padding1 s1 =>
      rw [hscan] at hkept
      obtain ⟨hkept, hlt⟩ := hkept
      obtain ⟨r, hr, hout, hiff⟩ := ih padding1 s1 (hkept.sound hs) (by omega)
      refine ⟨r, hr, hout, hiff.trans ?_⟩
      rw [hkept.beyond]
      refine and_congr_right fun _ => ⟨fun h k hk => ?_, fun h k hk => h k (.again hscan hk)⟩
      cases hk with
      | here heq | other heq => exact nomatch hscan.symm.trans heq
      | again heq hk =>
        obtain ⟨rfl, rfl⟩ := Scan.again.inj (hscan.symm.trans heq)
        exact h k hk
    | header k s1 =>
      rw [hscan] at hkept
      obtain ⟨hkept, hlt⟩ := hkept
      obtain ⟨hsound, hahead, hbeyond⟩ := compareName_kept db name after k.name_length 0 false s1
      simp only
      obtain ⟨c, hc⟩ : ∃ c, c = compareName db name after k.name_length 0 false s1 := ⟨_, rfl⟩
      rw [← hc] at hsound hahead hbeyond ⊢
      obtain ⟨err, s2⟩ := c
      have hextra := dbFastForward_kept db s2 k.extra_length
      have hs2 := hextra.sound (hsound (hkept.sound hs))
      have hle2 := le_trans hextra.ahead hahead
      -- the name of this header fits
      have hfits : s2.beyond = false ↔ s.beyond = false ∧ k.name_length ≤ name.chars.length + 1 := by
        rw [hbeyond, hkept.beyond, Bool.or_eq_false_iff, decide_eq_false_iff_not]
        refine and_congr_right fun _ => ?_
        omega
      cases err with
      | true =>
        have hdata := dbFastForward_kept db (dbFastForward db s2 k.extra_length) k.size_compressed
        have hle := le_trans hdata.ahead hle2
        obtain ⟨r, hr, hout, hiff⟩ := ih 0 _ (hdata.sound hs2) (by omega)
        refine ⟨r, hr, hout, hiff.trans ?_⟩
        rw [hdata.beyond, hextra.beyond, hfits, and_assoc]
        refine and_congr_right fun _ => ⟨fun h j hj => ?_, fun h => ⟨h k (.here hscan), fun j hj => ?_⟩⟩
        · cases hj with
          | here heq =>
            obtain ⟨rfl, rfl⟩ := Scan.header.inj (hscan.symm.trans heq)
            exact h.1
          | again heq _ => exact nomatch hscan.symm.trans heq
          | other heq herr hj =>
            obtain ⟨rfl, rfl⟩ := Scan.header.inj (hscan.symm.trans heq)
            rw [← hc] at hj
            exact h.2 j hj
        · refine h j (.other hscan ?_ ?_)
          · rw [← hc]
          · rwa [← hc]
      | false =>
        obtain ⟨r, hr, hend⟩ := dbExtract_kept db malloc k
          (show ahead db (dbFastForward db s2 k.extra_length) < fuel by omega)
        refine ⟨r, hr, (hend.sound hs2).outside, ?_⟩
        rw [hend.beyond, hextra.beyond, hfits]
        refine and_congr_right fun _ => ⟨fun h j hj => ?_, fun h => h k (.here hscan)⟩
        cases hj with
        | here heq =>
          obtain ⟨rfl, rfl⟩ := Scan.header.inj (hscan.symm.trans heq)
          exact h
        | again heq _ => exact nomatch hscan.symm.trans heq
        | other heq herr hj =>
          obtain ⟨rfl, rfl⟩ := Scan.header.inj (hscan.symm.trans heq)
          rw [← hc] at herr
          exact nomatch herr

/-- The rounds that `db_read` needs at most. -/
def dbFuel : Nat := 8 * (65504 * db.length) + 1

theorem dbRead_safe (name : CString) (after : Nat → UInt8) (malloc : Nat → Bool)
    {fuel : Nat} (hfuel : dbFuel db ≤ fuel) :
    ∃ r, dbRead db name after malloc fuel = some r ∧ r.reader.outside = false ∧
      (r.reader.beyond = false ↔
        ∀ h, Compares db name after 0 dbStart h → h.name_length ≤ name.chars.length + 1) := by
  unfold dbRead
  by_cases hempty : db.length = 0
  · rw [if_pos hempty]
    refine ⟨_, rfl, rfl, fun _ h hh => ?_, fun _ => rfl⟩
    -- there is nothing to scan
    obtain rfl := length_eq_zero_iff.mp hempty
    have hscan : dbScan [] 0 dbStart = .stop dbStart := rfl
    cases hh with
    | here heq | again heq _ | other heq _ _ => exact nomatch hscan.symm.trans heq
  · rw [if_neg hempty]
    unfold dbFuel at hfuel
    have hleft := ahead_dbStart db
    obtain ⟨r, hr, hout, hiff⟩ := dbLoop_safe db name after malloc fuel 0 dbStart
      (dbStart_sound db) (by omega)
    exact ⟨r, hr, hout, hiff.trans (and_iff_right rfl)⟩

end

variable {st : Int} {beyond : Bool}

def Consecutive (db : List DbFile) : Prop :=
  ∀ q, 0 < q → q < db.length → dbNumber db (q - 1) + 1 = dbNumber db q

def areaAhead (db : List DbFile) (s : DbReader) : List UInt8 :=
  (((db[s.block]?.map DbFile.bytes).getD []).drop s.pos).take s.size

def bytesAhead (db : List DbFile) (s : DbReader) : List UInt8 :=
  areaAhead db s ++ (db.drop (s.db_offset / 65504)).flatMap DbFile.area

def bitsAhead (db : List DbFile) (s : DbReader) : List Bool :=
  bitsOf s.state0 s.state1 ++ bitsOfBytes (bytesAhead db s)

/-- A reader in order, in a state of its callback that is no error. -/
structure InOrder (db : List DbFile) (st : Int) (beyond : Bool) (s : DbReader) : Prop where
  sound : Sound db s
  state0 : s.state0 < 8
  callback : s.db_callback_state = st
  beyond : s.beyond = beyond

theorem bitsAhead_takeBit (h0 : s.state0 ≠ 0) :
    bitsAhead db s = decide (s.state1 % 2 = 1) :: bitsAhead db s.takeBit.2 := by
  obtain ⟨n, hn⟩ : ∃ n, s.state0 = n + 1 := ⟨s.state0 - 1, by omega⟩
  simp only [bitsAhead, DbReader.takeBit, hn]
  rfl

theorem areaAhead_load (h : Sound db s) (hsize : s.size ≠ 0) :
    areaAhead db s = ((db[s.block]?.map fun f : DbFile => f.bytes.getD s.pos 0).getD 0) ::
      areaAhead db (s.load db) := by
  have hlt := h.block_lt hsize
  obtain ⟨hlow, hhigh, -⟩ := h.inside hsize
  obtain ⟨n, hn⟩ : ∃ n, s.size = n + 1 := ⟨s.size - 1, by omega⟩
  have hlen : s.pos < db[s.block].bytes.length := by
    rw [db[s.block].length_eq]
    omega
  simp only [areaAhead, DbReader.load, hn, getElem?_eq_getElem hlt, map_some, getD_some]
  rw [drop_eq_getElem_cons hlen, take_succ_cons]
  simp [hlen]

theorem bitsAhead_load (h : Sound db s) (h0 : s.state0 = 0) (hsize : s.size ≠ 0) :
    bitsAhead db (s.load db) = bitsAhead db s := by
  rw [bitsAhead, bitsAhead, bytesAhead, bytesAhead, areaAhead_load h hsize, h0, bitsOf,
    nil_append, cons_append, bitsOfBytes_cons]
  rfl

theorem areaAhead_nil (hsize : s.size = 0) : areaAhead db s = [] := by
  simp [areaAhead, hsize]

theorem dbCallback_next (hdb : Consecutive db) (hst : 0 ≤ st) (h : InOrder db st beyond s)
    (hsize : s.size = 0) (hmore : s.db_offset / 65504 < db.length) :
    ∃ s', dbCallback db s = (true, s') ∧ InOrder db st beyond s' ∧ s'.size ≠ 0 ∧
      s'.state0 = s.state0 ∧ s'.state1 = s.state1 ∧ bytesAhead db s' = bytesAhead db s := by
  obtain ⟨q, hq, hoff⟩ := h.sound.offset
  have hdiv : s.db_offset / 65504 = q := by omega
  have hmod : s.db_offset % 65504 = 0 := by omega
  have hstate : dbState db s q = st := by
    rw [dbState, if_neg, h.callback]
    rintro ⟨-, hpos, hne⟩
    exact hne (hdb q hpos (hdiv ▸ hmore))
  have hnext : (s.db_offset + 65504) / 65504 = q + 1 := by omega
  rw [dbCallback]
  simp only [hdiv, hmod] at hmore ⊢
  rw [if_neg (by omega), hstate, if_neg (by omega)]
  refine ⟨_, rfl, ⟨⟨h.sound.outside, ⟨q + 1, hmore, ?_⟩, fun _ => ?_⟩, h.state0, rfl, h.beyond⟩,
    ?_, rfl, rfl, ?_⟩
  · simp only
    omega
  · show 32 ≤ 32 + 0 ∧ 32 + 0 + (65504 - 0) = 65536 ∧ s.db_offset + (65504 - 0) = 65504 * (q + 1)
    omega
  · show 65504 - 0 ≠ 0
    omega
  have harea : areaAhead db s = [] := areaAhead_nil hsize
  have hfull : (db[q].bytes.drop 32).take 65504 = db[q].area := by
    rw [take_of_length_le]
    · rfl
    · rw [length_drop, db[q].length_eq]
  rw [bytesAhead, bytesAhead, harea, hdiv, drop_eq_getElem_cons hmore]
  simp only [hnext, areaAhead, getElem?_eq_getElem hmore, map_some,
    getD_some, hfull, nil_append, flatMap_cons]

theorem dbBit_streams (hdb : Consecutive db) (hst : 0 ≤ st) :
    Streams (dbBit db) (InOrder db st beyond) (bitsAhead db) := by
  refine ⟨fun {s x r} h hin => ?_⟩
  -- a byte that is loaded gives its first bit
  have htake : ∀ {t : DbReader}, InOrder db st beyond t → t.size ≠ 0 → t.state0 = 0 →
      bitsAhead db t = x :: r → ∃ s', (t.load db).takeBit = (some x, s') ∧
        InOrder db st beyond s' ∧ bitsAhead db s' = r := by
    intro t ht hsize h0 hin
    have hload := load_kept db h0 hsize
    have h8 : (t.load db).state0 ≠ 0 := by simp [DbReader.load]
    rw [← bitsAhead_load ht.sound h0 hsize, bitsAhead_takeBit h8] at hin
    obtain ⟨hx, hr⟩ := cons.inj hin
    refine ⟨(t.load db).takeBit.2, by rw [← hx]; rfl, ⟨?_, show 8 - 1 < 8 by decide, ht.callback, ht.beyond⟩, hr⟩
    exact (takeBit_kept db h8).1.sound (hload.sound ht.sound)
  rw [dbBit]
  by_cases h0 : s.state0 ≠ 0
  · rw [if_pos h0]
    rw [bitsAhead_takeBit h0] at hin
    obtain ⟨hx, hr⟩ := cons.inj hin
    refine ⟨s.takeBit.2, by rw [← hx]; rfl, ⟨?_, ?_, h.callback, h.beyond⟩, hr⟩
    · exact (takeBit_kept db h0).1.sound h.sound
    · have hlt := h.state0
      simp only [DbReader.takeBit]
      omega
  rw [if_neg h0]
  by_cases hsize : s.size ≠ 0
  · rw [if_pos hsize]
    exact htake h hsize (not_not.mp h0) hin
  rw [if_neg hsize]
  -- the data area is at its end
  have hclear : InOrder db st beyond s.clear :=
    ⟨(clear_kept db s).sound h.sound, Nat.succ_pos 7, h.callback, h.beyond⟩
  have hsame : bitsAhead db s.clear = bitsAhead db s := by
    rw [bitsAhead, bitsAhead, bytesAhead, bytesAhead, areaAhead_nil (not_not.mp hsize),
      areaAhead_nil (rfl), not_not.mp h0]
    rfl
  have hmore : s.clear.db_offset / 65504 < db.length := by
    by_contra hend
    have hnil : bitsAhead db s.clear = [] := by
      rw [bitsAhead, bytesAhead, areaAhead_nil (show s.clear.size = 0 from rfl),
        drop_of_length_le (not_lt.mp hend)]
      rfl
    rw [hsame, hin] at hnil
    cases hnil
  obtain ⟨s1, hcall, h1, hsize1, hstate0, hstate1, hbytes⟩ :=
    dbCallback_next hdb hst hclear rfl hmore
  rw [hcall]
  simp only
  rw [if_neg hsize1]
  refine htake h1 hsize1 hstate0 ?_
  rw [bitsAhead, hstate0, hstate1, hbytes, ← bitsAhead, hsame, hin]

/-! ## Bytes -/

/-- A reader between two bytes, and the bytes ahead of it. -/
structure At (db : List DbFile) (st : Int) (beyond : Bool) (bytes : List UInt8) (s : DbReader) :
    Prop where
  inOrder : InOrder db st beyond s
  aligned : s.state0 = 0
  bytes : bytesAhead db s = bytes

variable {bytes r : List UInt8}

theorem At.bits (h : At db st beyond bytes s) :
    bitsAhead db s = bitsOfBytes bytes := by
  rw [bitsAhead, h.aligned, h.bytes]
  rfl

theorem InOrder.at (h : InOrder db st beyond s) (hbits : bitsAhead db s = bitsOfBytes bytes) :
    At db st beyond bytes s := by
  have hlen := congrArg length hbits
  have hlt := h.state0
  simp only [bitsAhead, length_append, length_bitsOf, length_bitsOfBytes] at hlen
  have h0 : s.state0 = 0 := by omega
  refine ⟨h, h0, bitsOfBytes_injective ?_⟩
  rw [← hbits, bitsAhead, h0]
  rfl

theorem At.fetch (hdb : Consecutive db) (hst : 0 ≤ st) {xs : List UInt8} {n v : Nat}
    (h : At db st beyond (xs ++ r) s) (hbits : bitsOfBytes xs = bitsOf n v) (hv : v < 2 ^ n)
    (hmask : v < 2 ^ 31) : ∃ s', dbFetch db n s = (some v, s') ∧ At db st beyond r s' := by
  have hin := h.bits
  rw [bitsOfBytes_append, hbits] at hin
  obtain ⟨s', hfetch, h', hin'⟩ := (dbBit_streams hdb hst).fetch h.inOrder hin hv hmask
  exact ⟨s', hfetch, h'.at hin'⟩

theorem At.fetch_byte (hdb : Consecutive db) (hst : 0 ≤ st) {c : UInt8}
    (h : At db st beyond (c :: r) s) :
    ∃ s', dbFetch db 8 s = (some c.toNat, s') ∧ At db st beyond r s' := by
  have hc := c.toNat_lt
  have hsplit : At db st beyond ([c] ++ r) s := h
  refine hsplit.fetch hdb hst ?_ hc (by omega)
  rfl

theorem At.fetch_nil (h : At db st beyond [] s) :
    ∃ s', dbFetch db 8 s = (none, s') ∧ At db st beyond [] s' := by
  have hbytes := h.bytes
  obtain ⟨harea, hrest⟩ := append_eq_nil_iff.mp hbytes
  have hsize : s.size = 0 := by
    by_contra hsize
    rw [areaAhead_load h.inOrder.sound hsize] at harea
    cases harea
  have hend : s.db_offset / 65504 ≥ db.length := by
    by_contra hmore
    rw [drop_eq_getElem_cons (not_le.mp hmore), flatMap_cons] at hrest
    have hlen := congrArg length (append_eq_nil_iff.mp hrest).1
    rw [DbFile.area, length_drop, DbFile.length_eq] at hlen
    cases hlen
  refine ⟨s.clear, ?_, ⟨(clear_kept db s).sound h.inOrder.sound, Nat.succ_pos 7, h.inOrder.callback,
    h.inOrder.beyond⟩, rfl, ?_⟩
  · have hbit : dbBit db s = (none, s.clear) := by
      rw [dbBit, if_neg (not_not_intro h.aligned), if_neg (not_not_intro hsize), dbCallback]
      rw [if_pos (show s.clear.db_offset / 65504 ≥ db.length from hend)]
    rw [dbFetch, fetchFrom, fetchLoopFrom, hbit]
  · exact hrest

theorem At.setState (h : At db st beyond bytes s) (st' : Int) :
    At db st' beyond bytes { s with db_callback_state := st' } :=
  ⟨⟨(setState_kept db s st').sound h.inOrder.sound, h.inOrder.state0, rfl, h.inOrder.beyond⟩,
    h.aligned, h.bytes⟩

theorem At.skip (hdb : Consecutive db) (hst : 0 ≤ st) (left : Nat) : ∀ {xs r : List UInt8}
    {s : DbReader}, xs.length ≤ left → At db st beyond (xs ++ r) s →
      At db st beyond r (dbSkip db left xs.length s) := by
  induction left with
  | zero =>
    intro xs r s hleft h
    obtain rfl := length_eq_zero_iff.mp (Nat.le_zero.mp hleft)
    exact h
  | succ left ih =>
    intro xs r s hleft h
    rw [dbSkip]
    by_cases hzero : xs.length = 0
    · obtain rfl := length_eq_zero_iff.mp hzero
      exact h
    rw [if_neg hzero]
    have hbytes := h.bytes
    rw [bytesAhead] at hbytes
    have harea : (areaAhead db s).length = s.size := by
      by_cases hsize : s.size = 0
      · rw [areaAhead_nil hsize, hsize]
        rfl
      have hlt := h.inOrder.sound.block_lt hsize
      obtain ⟨-, hhigh, -⟩ := h.inOrder.sound.inside hsize
      simp only [areaAhead, getElem?_eq_getElem hlt, map_some, getD_some,
        length_take, length_drop, db[s.block].length_eq]
      omega
    by_cases hmore : s.size > xs.length
    · -- the bytes are in this data area
      rw [if_pos hmore]
      have hin := h.inOrder.sound.inside (by omega)
      refine ⟨⟨⟨h.inOrder.sound.outside, h.inOrder.sound.offset, fun _ => ?_⟩, h.inOrder.state0,
        h.inOrder.callback, h.inOrder.beyond⟩, h.aligned, ?_⟩
      · simp only
        omega
      have hdrop : areaAhead db { s with pos := s.pos + xs.length, size := s.size - xs.length } =
          (areaAhead db s).drop xs.length := by
        simp only [areaAhead, drop_take, drop_drop]
      rw [bytesAhead, hdrop, ← drop_append_of_le_length (by omega), hbytes, drop_left]
    rw [if_neg hmore]
    by_cases hsize : s.size ≠ 0
    · -- all of this data area is skipped
      rw [if_pos hsize]
      obtain ⟨ys, hxs⟩ : ∃ ys, xs = areaAhead db s ++ ys := by
        refine ⟨xs.drop s.size, ?_⟩
        have htake := congrArg (take s.size) hbytes
        rw [take_append_of_le_length (by omega), take_append_of_le_length (by omega),
          take_of_length_le (by omega)] at htake
        rw [htake, take_append_drop]
      have hlen : xs.length - s.size = ys.length := by
        rw [hxs, length_append, harea]
        omega
      rw [hlen]
      refine ih (by omega) ⟨⟨⟨h.inOrder.sound.outside, h.inOrder.sound.offset,
        fun h => absurd rfl h⟩, h.inOrder.state0, h.inOrder.callback, h.inOrder.beyond⟩,
        h.aligned, ?_⟩
      rw [hxs, append_assoc] at hbytes
      have hrest := append_cancel_left hbytes
      exact hrest
    rw [if_neg hsize]
    cases xs with
    | nil => exact absurd rfl hzero
    | cons c xs =>
      obtain ⟨s1, hfetch, h1⟩ := h.fetch_byte hdb hst
      rw [hfetch]
      exact ih (Nat.le_of_succ_le_succ hleft) h1

theorem At.forward (hdb : Consecutive db) (hst : 0 ≤ st) {xs : List UInt8} {n : Nat}
    (h : At db st beyond (xs ++ r) s) (hn : n = xs.length) :
    At db st beyond r (dbFastForward db s n) := by
  subst hn
  exact h.skip hdb hst xs.length le_rfl

variable {mem : Nat → DbFile} {map : List BMem}

/-- The database entries of a map: the number of a file, and the file. -/
def databases (mem : Nat → DbFile) (map : List BMem) : List (Nat × DbFile) :=
  map.filterMap fun m =>
    if m.type < bMemDatabaseMin ∨ m.type > bMemDatabaseMin + 999 then none
    else some (m.type - bMemDatabaseMin, mem m.base)

/-- The files of an archive are in memory, each with the type of its number,
and no other ones. -/
def Loaded (mem : Nat → DbFile) (map : List BMem) (dbs : List DbFile) : Prop :=
  (databases mem (mapEntries map)).Perm (dbs.map fun f => (f.number, f))

/-- A file that `db_init` takes. -/
def GoodFile (p : Nat × DbFile) : Prop :=
  LE32 p.2.bytes 0 = 0x0D54418D ∧ p.2.number = p.1 ∧ p.1 < 1000

theorem dbInitLoop_spec : ∀ {map : List BMem} (db_count : Nat) {db_array : List (Option DbFile)},
    db_array.length = 1000 → (∀ p ∈ databases mem map, GoodFile p) →
      ((databases mem map).map Prod.fst).Nodup →
        ∃ count array, dbInitLoop mem map db_count db_array = some (count, array) ∧
          array.length = 1000 ∧ db_count ≤ count ∧ (db_count ≤ 1000 → count ≤ 1000) ∧
          (∀ n f, (n, f) ∈ databases mem map → n < count ∧ array.getD n none = some f) ∧
          ∀ n, n ∉ (databases mem map).map Prod.fst → array.getD n none = db_array.getD n none := by
  intro map
  induction map with
  | nil =>
    intro db_count db_array hlen _ _
    refine ⟨db_count, db_array, rfl, hlen, le_rfl, id, fun n f h => ?_, fun _ _ => rfl⟩
    cases h
  | cons m map ih =>
    intro db_count db_array hlen hgood hnodup
    rw [dbInitLoop]
    by_cases hother : m.type < bMemDatabaseMin ∨ m.type > bMemDatabaseMin + 999
    · have hsame : databases mem (m :: map) = databases mem map := by
        simp [databases, if_pos hother]
      rw [if_pos hother]
      rw [hsame] at hgood hnodup ⊢
      exact ih db_count hlen hgood hnodup
    have hcons : databases mem (m :: map) =
        (m.type - bMemDatabaseMin, mem m.base) :: databases mem map := by
      rw [databases, filterMap_cons, if_neg hother, databases]
    rw [hcons] at hgood hnodup ⊢
    obtain ⟨hmagic, hnumber, hlt⟩ := hgood _ (mem_cons_self ..)
    generalize m.type - bMemDatabaseMin = t at hnumber hlt hnodup ⊢
    rw [if_neg hother]
    rw [if_neg (by rw [hmagic, hnumber]; simp)]
    obtain ⟨hfresh, hnodup⟩ := nodup_cons.mp hnodup
    obtain ⟨count, array, hloop, hlen', hcount, hmax, hin, hout⟩ :=
      ih (if db_count < t + 1 then t + 1 else db_count)
        (show (db_array.set t (some (mem m.base))).length = 1000 by rw [length_set, hlen])
        (fun p hp => hgood p (.tail _ hp)) hnodup
    refine ⟨count, array, hloop, hlen', ?_, fun hle => hmax ?_, fun n f hnf => ?_, fun n hn => ?_⟩
    · split at hcount <;> omega
    · split <;> omega
    · rcases mem_cons.mp hnf with heq | hmem
      · obtain ⟨rfl, rfl⟩ := Prod.mk.inj heq
        refine ⟨by split at hcount <;> omega, ?_⟩
        rw [hout n hfresh]
        simp [hlen, hlt]
      · exact hin n f hmem
    · obtain ⟨hne, hrest⟩ := not_or.mp (fun h => hn (mem_cons.mpr h))
      rw [hout n hrest]
      simp only [getD_eq_getElem?_getD]
      rw [getElem?_set_ne (Ne.symm hne)]

theorem dbCompact_spec (left : Nat) : ∀ (i c : Nat) {db_array : List (Option DbFile)}, c ≤ i →
    i + left ≤ db_array.length →
      (((dbCompact left i c db_array).2.take (dbCompact left i c db_array).1).filterMap id) =
        (db_array.take c).filterMap id ++ ((db_array.drop i).take left).filterMap id := by
  induction left with
  | zero =>
    simp [dbCompact]
  | succ left ih =>
    intro i c db_array hle hlen
    have hi : i < db_array.length := by omega
    have hdrop : (db_array.drop i).take (left + 1) =
        db_array[i] :: (db_array.drop (i + 1)).take left := by
      rw [drop_eq_getElem_cons hi, take_succ_cons]
    have hget : db_array.getD i none = db_array[i] := by
      rw [getD_eq_getElem?_getD, getElem?_eq_getElem hi, getD_some]
    rw [dbCompact, hget, hdrop]
    cases hx : db_array[i] with
    | none =>
      rw [ih (i + 1) c (by omega) (by omega)]
      rfl
    | some f =>
      simp only
      obtain ⟨array, harray⟩ : ∃ array, array = if c ≠ i then
          (db_array.set c (some f)).set i none else db_array.set c (some f) := ⟨_, rfl⟩
      rw [← harray]
      have hlen' : array.length = db_array.length := by
        rw [harray]
        split <;> simp
      -- the file is behind the ones that were found, and the rest is not changed
      have htake : array.take (c + 1) = db_array.take c ++ [some f] := by
        have hset : (db_array.set c (some f)).take (c + 1) = db_array.take c ++ [some f] := by
          rw [take_add_one, take_set_of_le le_rfl]
          simp [show c < db_array.length by omega]
        rw [harray]
        split
        · rw [take_set_of_le (by omega), hset]
        · exact hset
      have hrest : array.drop (i + 1) = db_array.drop (i + 1) := by
        rw [harray]
        split
        · rw [drop_set_of_lt (by omega), drop_set_of_lt (by omega)]
        · rw [drop_set_of_lt (by omega)]
      rw [ih (i + 1) (c + 1) (by omega) (by omega), htake, hrest, filterMap_append, append_assoc]
      rfl

theorem dbInit_eq {dbs : List DbFile} (hload : Loaded mem map dbs)
    (hsorted : dbs.Pairwise fun f g => f.number < g.number)
    (hgood : ∀ f ∈ dbs, LE32 f.bytes 0 = 0x0D54418D ∧ f.number < 1000) :
    dbInit mem map = some dbs := by
  have hmem : ∀ n f, (n, f) ∈ databases mem (mapEntries map) ↔ f ∈ dbs ∧ f.number = n := by
    intro n f
    rw [hload.mem_iff, List.mem_map]
    constructor
    · rintro ⟨g, hg, heq⟩
      obtain ⟨rfl, rfl⟩ := Prod.mk.inj heq
      exact ⟨hg, rfl⟩
    · rintro ⟨hf, rfl⟩
      exact ⟨f, hf, rfl⟩
  have hnumbers : ((databases mem (mapEntries map)).map Prod.fst).Nodup := by
    have hperm := (hload.map Prod.fst).nodup_iff
    rw [hperm, List.map_map]
    exact pairwise_map.mpr (hsorted.imp fun h => ne_of_lt h)
  obtain ⟨count, array, hloop, hlen, -, hmax, hin, hout⟩ :=
    dbInitLoop_spec 0 (show (replicate 1000 (none : Option DbFile)).length = 1000 from
      length_replicate)
      (fun p hp => by
        obtain ⟨hf, hn⟩ := (hmem p.1 p.2).mp hp
        exact ⟨(hgood p.2 hf).1, hn, hn ▸ (hgood p.2 hf).2⟩) hnumbers
  -- the array has a file exactly at its number
  have hget : ∀ n f, array.getD n none = some f ↔ f ∈ dbs ∧ f.number = n := by
    intro n f
    constructor
    · intro h
      by_cases hn : n ∈ (databases mem (mapEntries map)).map Prod.fst
      · obtain ⟨⟨m, g⟩, hp, rfl⟩ := List.mem_map.mp hn
        have hg := (hin m g hp).2
        rw [hg] at h
        exact some.inj h ▸ (hmem m g).mp hp
      · rw [hout n hn, getD_eq_getElem?_getD, getElem?_replicate] at h
        split at h
        · cases h
        · cases h
    · intro h
      exact (hin n f ((hmem n f).mpr h)).2
  have hget? : ∀ {i : Nat} (hi : i < array.length) (f : DbFile),
      array[i] = some f ↔ f ∈ dbs ∧ f.number = i := by
    intro i hi f
    simp [← hget i f, getElem?_eq_getElem hi]
  have hbound : ∀ f ∈ dbs, f.number < count := fun f hf => (hin f.number f ((hmem _ f).mpr ⟨hf, rfl⟩)).1
  unfold dbInit
  rw [hloop]
  simp only
  have hcompact := dbCompact_spec count 0 0 (le_refl 0)
    (show 0 + count ≤ array.length by omega)
  rw [hcompact, take_zero, filterMap_nil, nil_append, drop_zero]
  congr 1
  have hfound : ((array.take count).filterMap id).Pairwise fun f g => f.number < g.number := by
    rw [pairwise_filterMap, pairwise_iff_getElem]
    intro i j hi hj hij f hf g hg
    rw [length_take] at hi hj
    simp only [getElem_take] at hf hg
    rwa [((hget? (by omega) f).mp hf).2, ((hget? (by omega) g).mp hg).2]
  have hne : ∀ {l : List DbFile}, l.Pairwise (fun f g => f.number < g.number) → l.Nodup := by
    intro l h
    refine List.Pairwise.imp ?_ h
    rintro f g hlt rfl
    exact lt_irrefl _ hlt
  refine List.Perm.eq_of_pairwise (fun f g _ _ hfg hgf => absurd hfg (lt_asymm hgf)) hfound
    hsorted ((perm_ext_iff_of_nodup (hne hfound) (hne hsorted)).mpr fun f => ?_)
  rw [mem_filterMap]
  constructor
  · rintro ⟨x, hx, rfl⟩
    obtain ⟨i, hi, heq⟩ := mem_iff_getElem.mp hx
    rw [length_take] at hi
    rw [getElem_take] at heq
    exact ((hget? (by omega) f).mp heq).1
  intro hf
  have hlt := hbound f hf
  have hlen' : f.number < array.length := by omega
  refine ⟨some f, mem_iff_getElem.mpr ⟨f.number, ?_, ?_⟩, rfl⟩
  · rw [length_take]
    omega
  · rw [getElem_take]
    exact (hget? hlen' f).mpr ⟨hf, rfl⟩

section Archive

variable {split_base : Nat} {output : List UInt8}

section

variable (hfit : split_base + output.length / 65504 ≤ 1000)
include hfit

theorem writeOutputDb_get {q : Nat} (hq : q < (writeOutputDb split_base output).length) :
    (writeOutputDb split_base output)[q].number = q + split_base := by
  have hlen := congrArg length (writeOutputDb_eq hfit)
  rw [length_map, length_range] at hlen
  simp only [writeOutputDb_eq hfit, getElem_map, getElem_range]
  exact dbFile_number output q (by omega)

theorem writeOutputDb_sorted :
    (writeOutputDb split_base output).Pairwise fun f g => f.number < g.number := by
  rw [pairwise_iff_getElem]
  intro i j hi hj hij
  rw [writeOutputDb_get hfit hi, writeOutputDb_get hfit hj]
  omega

theorem writeOutputDb_good :
    ∀ f ∈ writeOutputDb split_base output, LE32 f.bytes 0 = 0x0D54418D ∧ f.number < 1000 := by
  intro f hf
  rw [writeOutputDb_eq hfit] at hf
  obtain ⟨i, hi, rfl⟩ := List.mem_map.mp hf
  have hlt := mem_range.mp hi
  have hmagic : LE32 (dbFile output i (i + split_base)).bytes 0 = LE32 fileHeader 0 := rfl
  rw [hmagic, dbFile_number output i (by omega)]
  exact ⟨by decide, by omega⟩

theorem writeOutputDb_consecutive : Consecutive (writeOutputDb split_base output) := by
  intro q hpos hq
  rw [dbNumber, dbNumber, getElem?_eq_getElem (by omega), getElem?_eq_getElem hq]
  simp only [map_some, getD_some]
  rw [writeOutputDb_get hfit, writeOutputDb_get hfit]
  omega

end

theorem dbStart_at (db : List DbFile) :
    At db 0 false (db.flatMap DbFile.area) dbStart := by
  refine ⟨⟨dbStart_sound db, Nat.succ_pos 7, rfl, rfl⟩, rfl, ?_⟩
  rfl

end Archive

end Dancy.Boot
