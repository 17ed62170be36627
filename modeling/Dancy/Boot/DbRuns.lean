import Dancy.Boot.DbSafe
import Mathlib.Data.List.TakeWhile

/-!
# What is found in an archive

A scan of the files of an archive comes to its local headers, one after
another. It stops at the first one whose name begins the name that is looked
for: only the characters of the stored name are compared.
-/

namespace Dancy.Boot

open Dancy.Lib Dancy.Zip List Option

variable {db : List DbFile} {s s' : DbReader} {st : Int} {beyond : Bool} {bytes r : List UInt8}
  {t : Times} {name : CString} {after : Nat → UInt8} {malloc : Nat → Bool}

/-! ## Rounds of the scan -/

theorem At.ahead (h : At db st beyond bytes s) : ahead db s = 8 * bytes.length := by
  have hareas : ∀ l : List DbFile, (l.flatMap DbFile.area).length = 65504 * l.length := by
    intro l
    induction l with
    | nil => rfl
    | cons f l ih =>
      rw [flatMap_cons, length_append, ih, DbFile.area, length_drop, f.length_eq, length_cons]
      omega
  have harea : (areaAhead db s).length = s.size := by
    by_cases hsize : s.size = 0
    · rw [areaAhead_nil hsize, hsize]
      rfl
    have hlt := h.inOrder.sound.block_lt hsize
    obtain ⟨-, hhigh, -⟩ := h.inOrder.sound.inside hsize
    simp only [areaAhead, getElem?_eq_getElem hlt, map_some, getD_some,
      length_take, length_drop, db[s.block].length_eq]
    omega
  rw [Boot.ahead, h.aligned, ← h.bytes, bytesAhead, length_append, harea, hareas, length_drop]
  omega

theorem At.clear (h : At db st beyond bytes s) :
    ∃ rest, At db st beyond rest s.clear ∧ ∃ skipped, bytes = skipped ++ rest := by
  refine ⟨_, ⟨⟨(clear_kept db s).sound h.inOrder.sound, Nat.succ_pos 7, h.inOrder.callback,
    h.inOrder.beyond⟩, rfl, rfl⟩, areaAhead db s, ?_⟩
  rw [← h.bytes, bytesAhead, bytesAhead, areaAhead_nil (show s.clear.size = 0 from rfl)]
  rfl

theorem dbScan_zero (hdb : Consecutive db) (h : At db st beyond (0 :: r) s) (padding : Nat) :
    ∃ s', At db 0 beyond r s' ∧ dbScan db padding s =
      if padding > 64 then .again 0 s'.clear else .again (padding + 1) s' := by
  obtain ⟨s', hfetch, h'⟩ := (h.setState 0).fetch_byte hdb (Int.le_refl 0)
  refine ⟨s', h', ?_⟩
  rw [dbScan, hfetch]
  rfl

theorem dbScan_end (h : At db st beyond [] s) (padding : Nat) :
    ∃ s', At db 0 beyond [] s' ∧ dbScan db padding s = .stop s' := by
  obtain ⟨s', hfetch, h'⟩ := (h.setState 0).fetch_nil
  exact ⟨s', h', by rw [dbScan, hfetch]⟩

structure GoodHeader (h : PkHeader) : Prop where
  method : h.method = 0 ∨ h.method = 8
  crc32 : h.crc32 < 2 ^ 32
  size_compressed : h.size_compressed ≤ pkMax
  size_uncompressed : h.size_uncompressed ≤ pkMax
  name_length : 0 < h.name_length ∧ h.name_length < 65536
  extra_length : h.extra_length = 0
  stored : h.method = 0 → h.size_compressed = h.size_uncompressed

theorem or_halves (crc : Nat) :
    crc % 65536 ||| (crc >>> 16 <<< 16) = crc := by
  rw [Nat.shiftRight_eq_div_pow, Nat.or_comm,
    ← Nat.shiftLeft_add_eq_or_of_lt (Nat.mod_lt _ (by decide)), Nat.shiftLeft_eq]
  omega

theorem dbFields_spec (hdb : Consecutive db) (hst : 0 ≤ st) {h : PkHeader} (hgood : GoodHeader h)
    (hat : At db st beyond ((wLE16 0x0014 ++ [0, 0]) ++ ([UInt8.ofNat h.method, 0] ++
      ((wLE16 t.m_time ++ wLE16 t.m_date) ++ (wLE32 h.crc32 ++ (wLE32 h.size_compressed ++
      (wLE32 h.size_uncompressed ++ (wLE16 h.name_length ++ (wLE16 0 ++ r)))))))) s) :
    ∃ f s', dbFields db s = (f, s') ∧ f.header = some h ∧ At db st beyond r s' := by
  have hmethod : h.method < 256 := by
    rcases hgood.method with hm | hm <;> omega
  have hcrc := hgood.crc32
  have hcompressed := hgood.size_compressed
  have huncompressed := hgood.size_uncompressed
  have hname := hgood.name_length
  have hpk : pkMax < 2 ^ 31 := by decide
  have h1 := hat.forward hdb hst (show 4 = _ from rfl)
  have hbits : bitsOfBytes [UInt8.ofNat h.method, 0] = bitsOf 16 h.method := by
    rw [← bitsOfBytes_wLE16, wLE16, show h.method >>> 8 = 0 by
      omega]
    rfl
  obtain ⟨s2, hfetch2, h2⟩ := h1.fetch hdb hst hbits (by omega) (by omega)
  have h3 := h2.forward hdb hst (show 4 = _ from rfl)
  rw [wLE32_split, append_assoc] at h3
  have hlow : bitsOfBytes (wLE16 h.crc32) = bitsOf 16 (h.crc32 % 65536) := by
    rw [bitsOfBytes_wLE16]
    exact (bitsOf_mod 16 h.crc32).symm
  obtain ⟨s4, hfetch4, h4⟩ := h3.fetch hdb hst hlow (by omega) (by omega)
  have hhigh : h.crc32 >>> 16 < 65536 := by
    omega
  obtain ⟨s5, hfetch5, h5⟩ := h4.fetch hdb hst (bitsOfBytes_wLE16 _) hhigh (by omega)
  obtain ⟨s6, hfetch6, h6⟩ := h5.fetch hdb hst (bitsOfBytes_wLE32 _) (by omega) (by omega)
  obtain ⟨s7, hfetch7, h7⟩ := h6.fetch hdb hst (bitsOfBytes_wLE32 _) (by omega) (by omega)
  obtain ⟨s8, hfetch8, h8⟩ := h7.fetch hdb hst (bitsOfBytes_wLE16 _) (by omega) (by omega)
  obtain ⟨s9, hfetch9, h9⟩ := h8.fetch hdb hst (bitsOfBytes_wLE16 0) (by decide) (by decide)
  refine ⟨⟨some h.method, some (h.crc32 % 65536), some (h.crc32 >>> 16), some h.size_compressed,
    some h.size_uncompressed, some h.name_length, some 0⟩, s9, ?_, ?_, h9⟩
  · simp only [dbFields, hfetch2, hfetch4, hfetch5, hfetch6, hfetch7, hfetch8, hfetch9]
  have hfields : h = ⟨h.method, h.crc32, h.size_compressed, h.size_uncompressed, h.name_length,
      0⟩ := by rw [← hgood.extra_length]
  have hstored := hgood.stored
  have hkind := hgood.method
  simp only [PkFields.header]
  rw [if_neg (by omega), if_neg (by omega), if_neg (by omega), if_neg (by omega),
    if_neg (by omega), or_halves h.crc32, ← hfields]

theorem dbScan_header (hdb : Consecutive db) {h : PkHeader} (hgood : GoodHeader h)
    {fname : List UInt8} (hname : fname.length = h.name_length)
    (hat : At db st beyond (headerBytes t fname h.method h.crc32 h.size_compressed
      h.size_uncompressed ++ r) s) (padding : Nat) :
    ∃ s', dbScan db padding s = .header h s' ∧ At db 1 beyond (fname ++ r) s' := by
  have hsplit : At db st beyond (0x50 :: ([0x4B, 0x03, 0x04] ++ ((wLE16 0x0014 ++ [0, 0]) ++
      ([UInt8.ofNat h.method, 0] ++ ((wLE16 t.m_time ++ wLE16 t.m_date) ++ (wLE32 h.crc32 ++
      (wLE32 h.size_compressed ++ (wLE32 h.size_uncompressed ++ (wLE16 h.name_length ++
      (wLE16 0 ++ (fname ++ r))))))))))) s := by
    rwa [← hname]
  obtain ⟨s1, hfetch1, h1⟩ := (hsplit.setState 0).fetch_byte hdb (Int.le_refl 0)
  have hsig : bitsOfBytes [0x4B, 0x03, 0x04] = bitsOf 24 0x0004034B := by decide
  obtain ⟨s2, hfetch2, h2⟩ := (h1.setState 1).fetch hdb Int.one_nonneg hsig (by decide) (by decide)
  obtain ⟨f, s3, hfields, hheader, h3⟩ := dbFields_spec hdb Int.one_nonneg hgood h2
  refine ⟨s3, ?_, h3⟩
  rw [dbScan, hfetch1]
  simp only [show (0x50 : UInt8).toNat = 0x50 from rfl]
  rw [if_neg (by decide), if_neg (by decide), hfetch2]
  rw [if_neg (not_not_intro rfl), hfields]
  simp only [hheader]

theorem At.compareName (hdb : Consecutive db) (hst : 0 ≤ st) (name : CString)
    (after : Nat → UInt8) (fname : List UInt8) : ∀ {r : List UInt8} {s : DbReader} {beyond : Bool} (i : Nat) (err : Bool),
      At db st beyond (fname ++ r) s →
        ∃ err' s', compareName db name after fname.length i err s = (err', s') ∧
          At db st (beyond || decide (0 < fname.length ∧ name.chars.length + 1 < i + fname.length))
            r s' ∧
          (err' = false ↔ err = false ∧
            ∀ k (hk : k < fname.length), fname[k] = nameChar name after (i + k)) := by
  induction fname with
  | nil =>
    intro r s beyond i err h
    refine ⟨err, s, rfl, ?_, ?_⟩
    · simpa using h
    · simp
  | cons c fname ih =>
    intro r s beyond i err h
    obtain ⟨s1, hfetch, h1⟩ := h.fetch_byte hdb hst
    have hstep : Boot.compareName db name after (c :: fname).length i err s =
        Boot.compareName db name after fname.length (i + 1)
          (err || some c.toNat != some (nameChar name after i).toNat)
          { s1 with beyond := s1.beyond || decide (i > name.chars.length) } := by
      simp [Boot.compareName, hfetch]
    have hset : At db st (beyond || decide (i > name.chars.length)) (fname ++ r)
        { s1 with beyond := s1.beyond || decide (i > name.chars.length) } := by
      have hsound := h1.inOrder.sound
      refine ⟨⟨⟨hsound.outside, hsound.offset, hsound.inside⟩, h1.inOrder.state0,
        h1.inOrder.callback, ?_⟩, h1.aligned, h1.bytes⟩
      simp only [h1.inOrder.beyond]
    obtain ⟨err', s', hcompare, h', hiff⟩ := ih (i + 1)
      (err || some c.toNat != some (nameChar name after i).toNat) hset
    refine ⟨err', s', hstep.trans hcompare, ?_, hiff.trans ?_⟩
    · rw [Bool.or_assoc, ← Bool.decide_or] at h'
      have hbound : (i > name.chars.length ∨
          (0 < fname.length ∧ name.chars.length + 1 < i + 1 + fname.length)) ↔
          (0 < fname.length + 1 ∧ name.chars.length + 1 < i + (fname.length + 1)) := by omega
      rw [decide_eq_decide.mpr hbound] at h'
      exact h'
    · have hhead : (some c.toNat != some (nameChar name after i).toNat) = false ↔
          c = nameChar name after i := by
        rw [bne_eq_false_iff_eq, some.injEq, UInt8.toNat_inj]
      rw [Bool.or_eq_false_iff, hhead, and_assoc]
      refine and_congr_right fun _ => ⟨fun h k hk => ?_, fun hall => ⟨?_, fun k hk => ?_⟩⟩
      · obtain ⟨h0, hrest⟩ := h
        cases k with
        | zero => exact h0
        | succ k =>
          have := hrest k (Nat.lt_of_succ_lt_succ hk)
          rw [getElem_cons_succ, this, add_assoc, add_comm 1]
      · exact hall 0 (Nat.succ_pos _)
      · have := hall (k + 1) (Nat.succ_lt_succ hk)
        rw [getElem_cons_succ] at this
        rw [this, add_assoc, add_comm 1]

/-- Without null characters, all of them are the same if and only if the name
begins with them. -/
theorem prefix_iff_nameChar (after : Nat → UInt8) {fname : List UInt8} (hne : ∀ c ∈ fname, c ≠ 0) :
    fname <+: name.chars ↔
      ∀ k (hk : k < fname.length), fname[k] = nameChar name after (0 + k) := by
  rw [prefix_iff_getElem?]
  have hchar : ∀ {k : Nat}, k < name.chars.length →
      nameChar name after k = name.chars.getD k 0 := fun hk => by rw [nameChar, if_pos hk]
  constructor
  · intro h k hk
    have hin := h k hk
    have hlt := (List.getElem?_eq_some_iff.mp hin).1
    simp [hchar hlt, hin]
  intro h
  -- the stored name ends before the null character
  have hlen : fname.length ≤ name.chars.length := by
    by_contra hlong
    have hnull := h name.chars.length (not_le.mp hlong)
    rw [zero_add, nameChar, if_neg (lt_irrefl _), if_pos rfl] at hnull
    exact hne _ (getElem_mem _) hnull
  intro k hk
  have heq := h k hk
  have hlt : k < name.chars.length := lt_of_lt_of_le hk hlen
  rw [zero_add, hchar hlt, getD_eq_getElem?_getD, getElem?_eq_getElem hlt, getD_some] at heq
  rw [getElem?_eq_getElem hlt, heq]

/-! ## The data of a file -/

theorem At.copyStored (hdb : Consecutive db) (hst : 0 ≤ st) (data : List UInt8) :
    ∀ {s : DbReader} (out : List UInt8), At db st beyond (data ++ r) s →
      ∃ s', copyStored db data.length out s = (some (out ++ data), s') ∧ At db st beyond r s' := by
  induction data with
  | nil => exact fun out h => ⟨_, by rw [append_nil]; rfl, h⟩
  | cons c data ih =>
    intro s out h
    obtain ⟨s1, hfetch, h1⟩ := h.fetch_byte hdb hst
    obtain ⟨s2, hcopy, h2⟩ := ih (out ++ [UInt8.ofNat c.toNat]) h1
    refine ⟨s2, ?_, h2⟩
    rw [length_cons, Boot.copyStored, hfetch]
    simp only
    rw [hcopy, UInt8.ofNat_toNat, append_assoc]
    rfl

theorem packFile_cases (zmalloc : Nat → Option (Nat → UInt8)) (data : List UInt8) :
    packFile zmalloc data = (0, data) ∨
      ∃ packed, packFile zmalloc data = (8, packed) ∧ deflateCompress zmalloc data = (0, packed) := by
  have hstream : ∀ code_table dist_table buf,
      deflateStream code_table dist_table data buf = (1, data) ∨
        ∃ packed, deflateStream code_table dist_table data buf = (0, packed) := by
    intro code_table dist_table buf
    unfold deflateStream
    simp only
    split
    · exact .inl rfl
    · split
      · exact .inl rfl
      · simp
  have hcompress : deflateCompress zmalloc data = (1, data) ∨
      ∃ packed, deflateCompress zmalloc data = (0, packed) := by
    unfold deflateCompress
    split
    · exact .inl rfl
    · split
      · exact hstream _ _ _
      · exact .inl rfl
  rcases hcompress with h | ⟨packed, h⟩
  · left
    rw [packFile, h]
    rfl
  · right
    exact ⟨packed, by rw [packFile, h]; rfl, h⟩

def fileHeaderOf (zmalloc : Nat → Option (Nat → UInt8)) (f : InputFile) : PkHeader :=
  ⟨(packFile zmalloc f.data).1, (Zip.crc32 f.data).toNat, (packFile zmalloc f.data).2.length,
    f.data.length, f.stored.length, 0⟩

/-- The name of a file was checked, and the file is not too long. -/
structure GoodInput (f : InputFile) : Prop where
  checked : CheckedName f.name.chars
  size : f.data.length ≤ pkMax

variable {f : InputFile}

theorem GoodInput.header (h : GoodInput f) (zmalloc : Nat → Option (Nat → UInt8)) :
    GoodHeader (fileHeaderOf zmalloc f) := by
  have hlen := le_trans (length_putName f.name.chars) h.checked.length
  have hpos := length_pos_iff.mpr h.checked.ne_nil
  refine ⟨?_, UInt32.toNat_lt _, le_trans (packFile_length zmalloc f.data) h.size, h.size,
    ⟨hpos, lt_of_le_of_lt hlen (by decide)⟩, rfl, ?_⟩
  · rcases packFile_cases zmalloc f.data with heq | ⟨packed, heq, -⟩
    · exact .inl (by rw [fileHeaderOf, heq])
    · exact .inr (by rw [fileHeaderOf, heq])
  intro hstored
  rcases packFile_cases zmalloc f.data with heq | ⟨packed, heq, -⟩
  · simp only [fileHeaderOf, heq]
  · rw [fileHeaderOf, heq] at hstored
    cases hstored

theorem unpack_spec (hdb : Consecutive db) (hst : 0 ≤ st) {zmalloc : Nat → Option (Nat → UInt8)}
    (hat : At db st beyond ((packFile zmalloc f.data).2 ++ r) s) {fuel : Nat}
    (hfuel : Boot.ahead db s < fuel) :
    ∃ s', unpack db fuel (fileHeaderOf zmalloc f) s = some (some f.data, s') ∧
      InOrder db st beyond s' := by
  have hbits := hat.ahead
  rw [length_append] at hbits
  unfold unpack
  rcases packFile_cases zmalloc f.data with heq | ⟨packed, heq, hpacked⟩
  · rw [heq] at hat
    obtain ⟨s', hcopy, h'⟩ := hat.copyStored hdb hst f.data []
    rw [if_pos (by rw [fileHeaderOf, heq])]
    exact ⟨s', by rw [fileHeaderOf, hcopy]; rfl, h'.inOrder⟩
  rw [heq] at hat hbits
  have hin := hat.bits
  rw [bitsOfBytes_append] at hin
  obtain ⟨s', hinflate, h'⟩ := (dbBit_streams hdb hst).inflate hat.inOrder hpacked hin
    (show 8 * packed.length < fuel by simp only at hbits; omega)
  rw [if_neg (by rw [fileHeaderOf, heq]; simp), fileHeaderOf]
  rw [hinflate]
  exact ⟨s', rfl, h'⟩

theorem dbExtract_spec (hdb : Consecutive db) (hmalloc : ∀ n, malloc n = true)
    {zmalloc : Nat → Option (Nat → UInt8)}
    (hat : At db 1 beyond ((packFile zmalloc f.data).2 ++ r) s) {fuel : Nat}
    (hfuel : Boot.ahead db s < fuel) :
    ∃ s', dbExtract db malloc fuel (fileHeaderOf zmalloc f) s = some ⟨0, f.data, s'⟩ ∧
      s'.beyond = beyond := by
  unfold dbExtract
  by_cases hempty : f.data.length = 0
  · rw [if_pos (show (fileHeaderOf zmalloc f).size_uncompressed = 0 from hempty),
      length_eq_zero_iff.mp hempty]
    exact ⟨s, rfl, hat.inOrder.beyond⟩
  rw [if_neg (show ¬ (fileHeaderOf zmalloc f).size_uncompressed = 0 from hempty), hmalloc,
    Bool.not_true, if_neg Bool.false_ne_true]
  obtain ⟨s', hunpack, h'⟩ := unpack_spec hdb Int.one_nonneg hat hfuel
  rw [hunpack]
  simp only
  rw [h'.callback, if_neg (by decide), if_neg
    (show ¬ (fileHeaderOf zmalloc f).crc32 ≠ (Zip.crc32 f.data).toNat from not_not_intro rfl)]
  exact ⟨s', rfl, h'.beyond⟩

/-- The name of a file begins the name that is looked for. -/
def storedPrefix (name : CString) (f : InputFile) : Bool := f.stored.isPrefixOf name.chars

theorem dbLoop_zeros (hdb : Consecutive db) (fuel : Nat) : ∀ {n padding : Nat} {s : DbReader}
    {st : Int}, At db st beyond (replicate n 0) s → Boot.ahead db s < fuel →
      ∃ r, dbLoop db name after malloc fuel padding s = some r ∧ r.ret = 1 ∧
        r.reader.beyond = beyond := by
  induction fuel with
  | zero => omega
  | succ fuel ih =>
    intro n padding s st h hfuel
    rw [dbLoop]
    cases n with
    | zero =>
      obtain ⟨s', h', hscan⟩ := dbScan_end h padding
      rw [hscan]
      exact ⟨_, rfl, rfl, h'.inOrder.beyond⟩
    | succ n =>
      have hbits := h.ahead
      rw [length_replicate] at hbits
      obtain ⟨s', h', hscan⟩ := dbScan_zero hdb h padding
      have hbits' := h'.ahead
      rw [length_replicate] at hbits'
      rw [hscan]
      by_cases hpad : padding > 64
      · -- the rest of the data area is left out, which is zero as well
        rw [if_pos hpad]
        obtain ⟨rest, hclear, skipped, hzeros⟩ := h'.clear
        obtain ⟨-, -, hrest⟩ := append_eq_replicate_iff.mp hzeros.symm
        have hle := (clear_kept db s').ahead
        rw [hrest] at hclear
        exact ih hclear (by omega)
      · rw [if_neg hpad]
        exact ih h' (by omega)

theorem dbLoop_padding (name : CString) (after : Nat → UInt8) (malloc : Nat → Bool)
    (hdb : Consecutive db) (k : Nat) : ∀ {padding fuel : Nat} {s : DbReader}
    {st : Int}, At db st beyond (replicate k 0 ++ r) s → padding + k ≤ 65 →
      Boot.ahead db s < fuel →
        ∃ padding' fuel' s' st', dbLoop db name after malloc fuel padding s =
          dbLoop db name after malloc fuel' padding' s' ∧ At db st' beyond r s' ∧
            Boot.ahead db s' < fuel' := by
  induction k with
  | zero => exact fun h _ hfuel => ⟨_, _, _, _, rfl, h, hfuel⟩
  | succ k ih =>
    intro padding fuel s st h hpad hfuel
    have hbits := h.ahead
    rw [length_append, length_replicate] at hbits
    obtain ⟨fuel, rfl⟩ : ∃ n, fuel = n + 1 := ⟨fuel - 1, by omega⟩
    rw [replicate_succ, cons_append] at h
    obtain ⟨s1, h1, hscan⟩ := dbScan_zero hdb h padding
    have hbits1 := h1.ahead
    rw [length_append, length_replicate] at hbits1
    obtain ⟨padding', fuel', s', st', hloop, h', hfuel'⟩ :=
      ih h1 (show padding + 1 + k ≤ 65 by omega) (show Boot.ahead db s1 < fuel by omega)
    refine ⟨padding', fuel', s', st', ?_, h', hfuel'⟩
    rwa [dbLoop, hscan, if_neg (by omega)]

/-- What a scan of an archive finds: the content of the first file whose name
begins the name, and whether a name before it was too long. -/
structure Found (files : List InputFile) (name : CString) (beyond : Bool) (r : DbResult) : Prop where
  some : ∀ f, files.find? (storedPrefix name) = some f → r.ret = 0 ∧ r.buf = f.data
  none : files.find? (storedPrefix name) = none → r.ret = 1
  beyond : r.reader.beyond = (beyond || (files.takeWhile fun f => !storedPrefix name f).any
    fun f => decide (name.chars.length + 1 < f.stored.length))

theorem dbLoop_files (hdb : Consecutive db) (hmalloc : ∀ n, malloc n = true) :
    ∀ {files : List InputFile} {entries : List Entry} {bytes : List UInt8} {beyond : Bool}
      {padding fuel : Nat} {s : DbReader} {st : Int}, (∀ f ∈ files, GoodInput f) →
        Entries t files entries → Layout entries bytes → At db st beyond bytes s →
          Boot.ahead db s < fuel →
            ∃ r, dbLoop db name after malloc fuel padding s = some r ∧ Found files name beyond r := by
  intro files
  induction files with
  | nil =>
    intro entries bytes beyond padding fuel s st _ hentries hlayout h hfuel
    cases hentries
    obtain ⟨n, rfl⟩ := hlayout
    obtain ⟨r, hr, hret, hbeyond⟩ := dbLoop_zeros hdb fuel h hfuel
    refine ⟨r, hr, ⟨fun f hf => ?_, fun _ => hret, ?_⟩⟩
    · cases hf
    · rw [hbeyond]
      simp
  | cons f files ih =>
    intro entries bytes beyond padding fuel s st hgood hentries hlayout h hfuel
    cases hentries with
    | cons he hentries =>
      obtain ⟨zmalloc, rfl⟩ := he
      obtain ⟨k, hk, rest, rfl, hlayout⟩ := hlayout
      have hf := hgood f (mem_cons_self ..)
      have hname := hf.header zmalloc
      rw [makeEntry_central, localHeader_centralEntry t hname.name_length.2, makeEntry_fdata] at h
      have hfuel0 := h.ahead
      rw [length_append, length_headerBytes, length_append] at hfuel0
      obtain ⟨fuel, rfl⟩ : ∃ n, fuel = n + 1 := ⟨fuel - 1, by omega⟩
      obtain ⟨s1, hscan, h1⟩ := dbScan_header hdb hname (rfl : f.stored.length = _) h padding
      obtain ⟨err, s2, hcompare, h2, herr⟩ :=
        h1.compareName hdb Int.one_nonneg name after f.stored 0 false
      have hne : ∀ c ∈ f.stored, c ≠ 0 := putName_ne_null f.name.ne_null
      have hprefix : storedPrefix name f = true ↔ err = false := by
        rw [herr, storedPrefix, isPrefixOf_iff_prefix, prefix_iff_nameChar after hne]
        exact (and_iff_right rfl).symm
      have hlong : decide (0 < f.stored.length ∧ name.chars.length + 1 < 0 + f.stored.length) =
          decide (name.chars.length + 1 < f.stored.length) := by
        rw [decide_eq_decide, zero_add]
        omega
      rw [hlong] at h2
      have hbits2 := h2.ahead
      rw [length_append] at hbits2
      rw [dbLoop, hscan]
      simp only [show (fileHeaderOf zmalloc f).name_length = f.stored.length from rfl, hcompare,
        show (fileHeaderOf zmalloc f).extra_length = 0 from rfl,
        show ∀ s, dbFastForward db s 0 = s from fun _ => rfl]
      cases err with
      | false =>
        -- this name begins the one that is looked for
        have hyes := hprefix.mpr rfl
        obtain ⟨s3, hextract, h3⟩ := dbExtract_spec hdb hmalloc h2
          (show Boot.ahead db s2 < fuel by omega)
        rw [if_neg Bool.false_ne_true, hextract]
        have hshort : ¬ name.chars.length + 1 < f.stored.length := by
          have hle := ( isPrefixOf_iff_prefix.mp hyes).length_le
          omega
        refine ⟨_, rfl, fun g hg => ?_, fun hnone => ?_, ?_⟩
        · rw [find?_cons_of_pos hyes] at hg
          exact ⟨rfl, by rw [← some.inj hg]⟩
        · rw [find?_cons_of_pos hyes] at hnone
          cases hnone
        · rw [h3, takeWhile_cons_of_neg (by rw [hyes]; decide), decide_eq_false hshort]
          rfl
      | true =>
        have hno : ¬ storedPrefix name f = true := fun hyes =>
          Bool.noConfusion ( hprefix.mp hyes)
        have h3 := h2.forward hdb Int.one_nonneg (rfl : (fileHeaderOf zmalloc f).size_compressed = _)
        have hbits3 := h3.ahead
        obtain ⟨padding', fuel', s4, st', hloop, h4, hfuel4⟩ :=
          dbLoop_padding name after malloc hdb k h3 (show 0 + k ≤ 65 by omega)
            (show Boot.ahead db (dbFastForward db s2 _) < fuel by omega)
        rw [hloop]
        obtain ⟨r, hr, hsome, hnone, hbeyond⟩ := ih
          (fun g hg => hgood g (.tail _ hg)) hentries hlayout h4 hfuel4
        refine ⟨r, hr, fun g hg => ?_, fun hg => ?_, ?_⟩
        · rw [find?_cons_of_neg hno] at hg
          exact hsome g hg
        · rw [find?_cons_of_neg hno] at hg
          exact hnone hg
        · rw [hbeyond, takeWhile_cons_of_pos (by simp [hno]), any_cons, Bool.or_assoc]

section Archive

variable {arg_o : CString} {zmalloc : Nat → Nat → Option (Nat → UInt8)} {files : List InputFile}
  {split_base fuel : Nat} {output : List UInt8} {mem : Nat → DbFile} {map : List BMem}

theorem dbRead_archive (hprogram : program arg_o t zmalloc files = some (split_base, output))
    (hfit : split_base + output.length / 65504 ≤ 1000) (hsize : ∀ f ∈ files, f.data.length ≤ pkMax)
    (hload : Loaded mem map (writeOutputDb split_base output)) (hmalloc : ∀ n, malloc n = true)
    (name : CString) (after : Nat → UInt8) (fuel : Nat) :
    ∃ db, dbInit mem map = some db ∧ (dbFuel db ≤ fuel →
      ∃ r, dbRead db name after malloc fuel = some r ∧ Found files name false r) := by
  obtain ⟨hnames, hne, htotal, houtput⟩ := program_some hprogram
  obtain ⟨-, entries, hentries, hlayout⟩ := createOutput_spec hnames htotal houtput
  have hdb := writeOutputDb_consecutive hfit
  refine ⟨writeOutputDb split_base output,
    dbInit_eq hload (writeOutputDb_sorted hfit) (writeOutputDb_good hfit), fun hfuel => ?_⟩
  have hstart := dbStart_at (writeOutputDb split_base output)
  rw [writeOutputDb_areas hfit] at hstart
  have hahead := ahead_dbStart (writeOutputDb split_base output)
  unfold dbFuel at hfuel
  -- there is a file, so there is a block
  have hblocks : ¬ (writeOutputDb split_base output).length = 0 := by
    intro hzero
    have hbits := hstart.ahead
    cases hentries with
    | nil => exact hne rfl
    | @cons f _ _ _ he _ =>
      obtain ⟨m, rfl⟩ := he
      obtain ⟨k, -, rest, hbytes, -⟩ := hlayout
      have hf := (GoodInput.mk (hnames f (mem_cons_self ..))
        (hsize f (mem_cons_self ..))).header m
      rw [makeEntry_central, localHeader_centralEntry t hf.name_length.2] at hbytes
      rw [hbytes, length_append, length_headerBytes, hahead, hzero] at hbits
      omega
  rw [dbRead, if_neg hblocks]
  exact dbLoop_files hdb hmalloc (fun f hf => ⟨hnames f hf, hsize f hf⟩) hentries hlayout hstart
    (by omega)

/-- The file of a name is returned, and no file if there is none. -/
def RightAnswer (files : List InputFile) (name : CString) (r : DbResult) : Prop :=
  (∀ f ∈ files, f.stored = name.chars → r.ret = 0 ∧ r.buf = f.data) ∧
    ((∀ f ∈ files, f.stored ≠ name.chars) → r.ret = 1)

/-- The first file whose name begins the name has the content of the file of
that name, and no name before it is two characters longer, or more. -/
structure Unmistaken (files : List InputFile) (name : CString) : Prop where
  first : ∀ f, files.find? (storedPrefix name) = some f →
    ∃ g ∈ files, g.stored = name.chars ∧ g.data = f.data
  short : ∀ f ∈ files.takeWhile fun f => !storedPrefix name f,
    f.stored.length ≤ name.chars.length + 1

theorem storedPrefix_self {f : InputFile} (h : f.stored = name.chars) :
    storedPrefix name f = true := by
  rw [storedPrefix, h]
  simp

theorem Found.iff {r : DbResult} (h : Found files name false r)
    (hdistinct : (files.map InputFile.stored).Nodup) :
    RightAnswer files name r ∧ r.reader.beyond = false ↔ Unmistaken files name := by
  have hshort : r.reader.beyond = false ↔ ∀ f ∈ files.takeWhile fun f => !storedPrefix name f,
      f.stored.length ≤ name.chars.length + 1 := by
    rw [h.beyond, Bool.false_or, List.any_eq_false]
    simp
  constructor
  · rintro ⟨⟨hright, hwrong⟩, hbeyond⟩
    refine ⟨fun f hf => ?_, hshort.mp hbeyond⟩
    obtain ⟨hret, hbuf⟩ := h.some f hf
    by_contra hnone
    -- the file of that name has another content, or there is none
    by_cases hg : ∃ g ∈ files, g.stored = name.chars
    · obtain ⟨g, hg, hname⟩ := hg
      exact hnone ⟨g, hg, hname, ((hright g hg hname).2.symm.trans hbuf)⟩
    · have hret1 := hwrong fun g hgf hname => hg ⟨g, hgf, hname⟩
      omega
  · intro hu
    refine ⟨⟨fun f hf hname => ?_, fun hno => ?_⟩, hshort.mpr hu.short⟩
    · cases hfind : files.find? (storedPrefix name) with
      | none =>
        exact absurd (storedPrefix_self hname) (find?_eq_none.mp hfind f hf)
      | some g =>
        obtain ⟨hret, hbuf⟩ := h.some g hfind
        obtain ⟨g', hg', hname', hdata⟩ := hu.first g hfind
        have heq : f = g' := inj_on_of_nodup_map hdistinct hf hg' (hname.trans hname'.symm)
        exact ⟨hret, by rw [hbuf, ← hdata, heq]⟩
    · cases hfind : files.find? (storedPrefix name) with
      | none => exact h.none hfind
      | some g =>
        obtain ⟨g', hg', hname', -⟩ := hu.first g hfind
        exact absurd hname' (hno g' hg')

/-- `db_read` ends for any files, and it reads bytes of data areas only. It
stays in the name if and only if no header it compares is too long for it. In
an archive it does so and finds the right file if and only if no file of a
shorter name is mistaken for it. -/
theorem dbRead_exact (mem : Nat → DbFile) (map : List BMem) (name : CString)
    (after : Nat → UInt8) (malloc : Nat → Bool) (fuel : Nat) :
    (∀ db, dbInit mem map = some db → dbFuel db ≤ fuel →
      ∃ r, dbRead db name after malloc fuel = some r ∧ r.reader.outside = false ∧
        (r.reader.beyond = false ↔ ∀ h, Compares db name after 0 dbStart h →
          h.name_length ≤ name.chars.length + 1)) ∧
    ∀ (arg_o : CString) (t : Times) (zmalloc : Nat → Nat → Option (Nat → UInt8))
      (files : List InputFile) (split_base : Nat) (output : List UInt8),
        program arg_o t zmalloc files = some (split_base, output) →
        split_base + output.length / 65504 ≤ 1000 →
        (∀ f ∈ files, f.data.length ≤ pkMax) →
        (files.map InputFile.stored).Nodup →
        Loaded mem map (writeOutputDb split_base output) →
        (∀ n, malloc n = true) → ∃ db, dbInit mem map = some db ∧ (dbFuel db ≤ fuel →
            ∃ r, dbRead db name after malloc fuel = some r ∧
              (RightAnswer files name r ∧ r.reader.beyond = false ↔ Unmistaken files name)) := by
  constructor
  · intro db _ hfuel
    exact dbRead_safe db name after malloc hfuel
  intro arg_o t zmalloc files split_base output hprogram hfit hsize hdistinct hload hmalloc
  obtain ⟨db, hinit, hread⟩ := dbRead_archive hprogram hfit hsize hload hmalloc name after fuel
  refine ⟨db, hinit, fun hfuel => ?_⟩
  obtain ⟨r, hr, hfound⟩ := hread hfuel
  exact ⟨r, hr, hfound.iff hdistinct⟩

/-! ## Two files -/

/-- A map of files that are loaded one after another. -/
def mapOf (dbs : List DbFile) : List BMem :=
  dbs.zipIdx.map fun p => ⟨bMemDatabaseMin + p.1.number, 1, p.2 + 1, 0⟩

def memOf (dbs : List DbFile) (base : Nat) : DbFile := dbs.getD (base - 1) (dbFile [] 0 0)

theorem loaded_mapOf {dbs : List DbFile} (hgood : ∀ f ∈ dbs, f.number < 1000) :
    Loaded (memOf dbs) (mapOf dbs) dbs := by
  have hentries : mapEntries (mapOf dbs) = mapOf dbs := by
    have hbase : ∀ m ∈ mapOf dbs, decide (m.base ≠ 0) = true := by
      intro m hm
      obtain ⟨p, -, rfl⟩ := mem_map.mp hm
      rfl
    cases hmap : mapOf dbs with
    | nil => rfl
    | cons m rest =>
      rw [hmap] at hbase
      rw [mapEntries, takeWhile_eq_self_iff.mpr fun x hx =>
        hbase x (.tail _ hx)]
  have hall : databases (memOf dbs) (mapOf dbs) = dbs.map fun f => (f.number, f) := by
    rw [databases, mapOf, filterMap_map]
    have hstep : ∀ p ∈ dbs.zipIdx, ((fun m : BMem =>
        if m.type < bMemDatabaseMin ∨ m.type > bMemDatabaseMin + 999 then none
        else some (m.type - bMemDatabaseMin, memOf dbs m.base)) ∘ fun p : DbFile × Nat =>
          (⟨bMemDatabaseMin + p.1.number, 1, p.2 + 1, 0⟩ : BMem)) p =
        some (p.1.number, p.1) := by
      intro p hp
      have hmem := mem_zipIdx' hp
      have hlt := hgood p.1 (hmem.2 ▸ getElem_mem _)
      have hget : memOf dbs (p.2 + 1) = p.1 := by
        rw [memOf, Nat.add_sub_cancel, getD_eq_getElem?_getD,
          getElem?_eq_getElem hmem.1, getD_some]
        exact hmem.2.symm
      simp only [Function.comp_apply]
      rw [if_neg (by omega), hget, Nat.add_sub_cancel_left]
    rw [filterMap_congr hstep, filterMap_eq_map']
    conv_rhs => rw [← zipIdx_map_fst 0 dbs, List.map_map]
    rfl
  rw [Loaded, hentries, hall]

end Archive

/-- Two files, `a` and `ab`. -/
def twoFiles : List InputFile :=
  [⟨⟨[0x61], by simp⟩, [1]⟩, ⟨⟨[0x61, 0x62], by simp⟩, [2]⟩]

/-- `db_000.at`. -/
def firstDb : CString := ⟨[0x64, 0x62, 0x5F, 0x30, 0x30, 0x30, 0x2E, 0x61, 0x74], by simp⟩

theorem program_twoFiles :
    ∃ output, program firstDb ⟨0, 0⟩ (fun _ _ => none) twoFiles = some (0, output) := by
  have hsize : directorySize twoFiles = 95 := rfl
  obtain ⟨output, hout⟩ : ∃ output, createOutput ⟨0, 0⟩ (fun _ _ => none) twoFiles = some output :=
    createOutput_isSome (by omega)
  have hne : twoFiles ≠ [] := cons_ne_nil _ _
  have hnames : ¬(twoFiles.any fun f => !checkName f.name.chars) = true := by decide
  have hbase : splitBase firstDb.chars = some 0 := by decide
  have hsum : ¬(twoFiles.map fun f => f.data.length).sum > 0x7F000000 := by decide
  have hname : ¬(firstDb.chars.length < 9 ∨ firstDb.chars.length ≥ 256) := by decide
  refine ⟨output, ?_⟩
  simp only [program, if_neg hne, if_neg hnames, hbase, if_neg hsum, hout, if_neg hname]

theorem twoFiles_loaded {output : List UInt8}
    (h : program firstDb ⟨0, 0⟩ (fun _ _ => none) twoFiles = some (0, output)) :
    0 + output.length / 65504 ≤ 1000 ∧ (∀ f ∈ twoFiles, f.data.length ≤ pkMax) ∧
      (twoFiles.map InputFile.stored).Nodup ∧
      Loaded (memOf (writeOutputDb 0 output)) (mapOf (writeOutputDb 0 output))
        (writeOutputDb 0 output) := by
  obtain ⟨hnames, -, htotal, houtput⟩ := program_some h
  have hlen := (createOutput_spec hnames htotal houtput).1
  rw [show sizeBound twoFiles = 346 from rfl, show directorySize twoFiles = 95 from rfl] at hlen
  have hfit : 0 + output.length / 65504 ≤ 1000 := by omega
  exact ⟨hfit, by decide, by decide, loaded_mapOf fun f hf => (writeOutputDb_good hfit f hf).2⟩

/-- The file `ab` is looked for, and the content of `a` is returned. -/
theorem dbRead_mistaken : ∃ output db r,
    program firstDb ⟨0, 0⟩ (fun _ _ => none) twoFiles = some (0, output) ∧
      0 + output.length / 65504 ≤ 1000 ∧ (∀ f ∈ twoFiles, f.data.length ≤ pkMax) ∧
      (twoFiles.map InputFile.stored).Nodup ∧
      Loaded (memOf (writeOutputDb 0 output)) (mapOf (writeOutputDb 0 output))
        (writeOutputDb 0 output) ∧
      dbInit (memOf (writeOutputDb 0 output)) (mapOf (writeOutputDb 0 output)) = some db ∧
      dbRead db ⟨[0x61, 0x62], by simp⟩ (fun _ => 0) (fun _ => true) (dbFuel db) = some r ∧
      r.ret = 0 ∧ r.buf = [1] ∧ ¬ RightAnswer twoFiles ⟨[0x61, 0x62], by simp⟩ r := by
  obtain ⟨output, h⟩ := program_twoFiles
  obtain ⟨hfit, hsize, hdistinct, hload⟩ := twoFiles_loaded h
  obtain ⟨db, hinit, hread⟩ := dbRead_archive h hfit hsize hload (fun _ => rfl)
    ⟨[0x61, 0x62], by simp⟩ (fun _ => 0) (dbFuel (writeOutputDb 0 output))
  obtain rfl : db = writeOutputDb 0 output := by
    have heq := dbInit_eq hload (writeOutputDb_sorted hfit) (writeOutputDb_good hfit)
    exact some.inj (hinit.symm.trans heq)
  obtain ⟨r, hr, hfound⟩ := hread le_rfl
  obtain ⟨hret, hbuf⟩ := hfound.some ⟨⟨[0x61], by simp⟩, [1]⟩ rfl
  refine ⟨output, _, r, h, hfit, hsize, hdistinct, hload, hinit, hr, hret, hbuf, fun hright => ?_⟩
  have hsecond := (hright.1 ⟨⟨[0x61, 0x62], by simp⟩, [2]⟩ (.tail _ (.head _)) rfl).2
  rw [hbuf] at hsecond
  exact absurd hsecond (by decide)

/-- The file `a` is found. -/
theorem dbRead_exact_twoFiles : ∃ output db r,
    program firstDb ⟨0, 0⟩ (fun _ _ => none) twoFiles = some (0, output) ∧
      dbInit (memOf (writeOutputDb 0 output)) (mapOf (writeOutputDb 0 output)) = some db ∧
      dbRead db ⟨[0x61], by simp⟩ (fun _ => 0) (fun _ => true) (dbFuel db) = some r ∧
      RightAnswer twoFiles ⟨[0x61], by simp⟩ r ∧ r.reader.beyond = false ∧
      r.reader.outside = false := by
  obtain ⟨output, h⟩ := program_twoFiles
  obtain ⟨hfit, hsize, hdistinct, hload⟩ := twoFiles_loaded h
  have heq := dbInit_eq hload (writeOutputDb_sorted hfit) (writeOutputDb_good hfit)
  obtain ⟨db, hinit, hread⟩ := (dbRead_exact _ _ ⟨[0x61], by simp⟩ (fun _ => 0) (fun _ => true)
    (dbFuel (writeOutputDb 0 output))).2 firstDb ⟨0, 0⟩ (fun _ _ => none) twoFiles 0 output h hfit
    hsize hdistinct hload fun _ => rfl
  obtain rfl : db = writeOutputDb 0 output := some.inj (hinit.symm.trans heq)
  obtain ⟨r, hr, hiff⟩ := hread le_rfl
  obtain ⟨r', hr', hout, -⟩ := (dbRead_exact _ _ ⟨[0x61], by simp⟩ (fun _ => 0)
    (fun _ => true) (dbFuel (writeOutputDb 0 output))).1 _ hinit le_rfl
  obtain rfl : r' = r := some.inj (hr'.symm.trans hr)
  have hu : Unmistaken twoFiles ⟨[0x61], by simp⟩ := by
    refine ⟨fun f hf => ?_, fun f hf => ?_⟩
    · obtain rfl : (⟨⟨[0x61], by simp⟩, [1]⟩ : InputFile) = f := some.inj hf
      exact ⟨_, .head _, rfl, rfl⟩
    · cases hf
  obtain ⟨hright, hbeyond⟩ := hiff.mpr hu
  exact ⟨output, _, r', h, hinit, hr, hright, hbeyond, hout⟩

end Dancy.Boot
