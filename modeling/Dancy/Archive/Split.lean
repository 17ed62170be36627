import Dancy.Archive.RoundTrip

/-!
# Archives in database files (`tools/dy-zip/program.c`)

In split mode `dy-zip` pads an archive to blocks of 65504 bytes and writes
each block into a file of its own, after a header of 32 bytes. The central
directory comes after the last block and is not written. Reading and
writing of files is left out: the operands come with their contents.
-/

namespace Dancy.Zip

open List Dancy.Lib Option

/-- A string of C, without the null character at its end. -/
structure CString where
  chars : List UInt8
  ne_null : ∀ c ∈ chars, c ≠ 0

def isalnum (c : UInt8) : Bool :=
  (0x30 ≤ c && c ≤ 0x39) || (0x41 ≤ c && c ≤ 0x5A) || (0x61 ≤ c && c ≤ 0x7A)

def tolower (c : UInt8) : UInt8 := if 0x41 ≤ c ∧ c ≤ 0x5A then c + 0x20 else c

def strstr : List UInt8 → List UInt8 → Bool
  | [], word => word.isEmpty
  | c :: rest, word => word.isPrefixOf (c :: rest) || strstr rest word

def crc32Bit (crc : UInt32) : UInt32 :=
  if crc &&& 1 ≠ 0 then (crc >>> 1) ^^^ 0xEDB88320 else crc >>> 1

def crc32Loop : List UInt8 → UInt32 → UInt32
  | [], crc => crc
  | c :: obj, crc => crc32Loop obj (crc32Bit^[8] (crc ^^^ c.toUInt32))

def crc32 (obj : List UInt8) : UInt32 := ~~~ (crc32Loop obj 0xFFFFFFFF)

def wLE16 (d : Nat) : List UInt8 := [UInt8.ofNat d, UInt8.ofNat (d >>> 8)]

def wLE32 (d : Nat) : List UInt8 :=
  [UInt8.ofNat d, UInt8.ofNat (d >>> 8), UInt8.ofNat (d >>> 16), UInt8.ofNat (d >>> 24)]

/-- `LE32(&m[i])`. -/
def LE32 (m : List UInt8) (i : Nat) : Nat :=
  (m.getD i 0).toNat ||| ((m.getD (i + 1) 0).toNat <<< 8) |||
    ((m.getD (i + 2) 0).toNat <<< 16) ||| ((m.getD (i + 3) 0).toNat <<< 24)

/-! ## The archive -/

structure InputFile where
  name : CString
  data : List UInt8

def putName (name : List UInt8) : List UInt8 :=
  let name := match name with
    | 0x2E :: c :: rest => if c = 0x5C ∨ c = 0x2F then rest else name
    | _ => name
  name.map fun c => if c = 0x5C then 0x2F else c

def InputFile.stored (f : InputFile) : List UInt8 := putName f.name.chars

/-- `check_name`; `false` is an error. -/
def checkName (name : List UInt8) : Bool :=
  let buf := putName name
  decide (name.length ≤ 127) && decide (buf.length ≠ 0) &&
    (isalnum (buf.getD 0 0) && isalnum (buf.getD (buf.length - 1) 0)) &&
    !(strstr buf [0x2F, 0x2F] || strstr buf [0x2F, 0x2E])

/-- The modification time of `struct state`. -/
structure Times where
  (m_time m_date : Nat)

/-- The method of a file and its bytes in the archive. -/
def packFile (malloc : Nat → Option (Nat → UInt8)) (data : List UInt8) : Nat × List UInt8 :=
  match deflateCompress malloc data with
  | (ret, data) => (if ret = 0 then 8 else 0, data)

/-- An entry of the central directory, its offset not known yet. -/
def centralEntry (t : Times) (name : List UInt8) (method crc size_compressed size_uncompressed : Nat) :
    List UInt8 :=
  wLE32 0x02014B50 ++ wLE16 0x0014 ++ wLE16 0x0014 ++ [0, 0] ++ [UInt8.ofNat method, 0] ++
    wLE16 t.m_time ++ wLE16 t.m_date ++ wLE32 crc ++ wLE32 size_compressed ++
    wLE32 size_uncompressed ++ wLE16 name.length ++ replicate 16 0 ++ name

/-- A size that is rounded up for a database file. -/
def align16 (size : Nat) : Nat := (size + 0x0000000F) &&& 0xFFFFFFF0

/-- An entry of the central directory, and the bytes of its file. -/
structure Entry where
  (central fdata : List UInt8)

def makeEntry (t : Times) (malloc : Nat → Option (Nat → UInt8)) (f : InputFile) : Entry :=
  match packFile malloc f.data with
  | (method, fdata) =>
    ⟨centralEntry t f.stored method (crc32 f.data).toNat fdata.length f.data.length, fdata⟩

/-- The first loop of `create_output`: the entries, and the size of the local
headers and the data. `off` is the place in the central directory; `none`
is too many files. `malloc` tells how each call of it goes. -/
def centralLoop (t : Times) (malloc : Nat → Nat → Option (Nat → UInt8)) :
    List InputFile → Nat → Nat → Nat → Option (List Entry × Nat)
  | [], _, _, size => some ([], size)
  | f :: files, i, off, size =>
    if off > 0xF000 then none
    else
      let e := makeEntry t (malloc i) f
      let size := align16 (size + (30 + f.stored.length + e.fdata.length))
      match centralLoop t malloc files (i + 1) (off + (46 + f.stored.length)) size with
      | none => none
      | some (entries, size) => some (e :: entries, size)

/-- The header before the data of a file; `len` is `LE16(&out[off + 28])`. -/
def localHeader (central : List UInt8) : List UInt8 :=
  let len := (central.getD 28 0).toNat ||| ((central.getD 29 0).toNat <<< 8)
  wLE32 0x04034B50 ++ (central.drop 6).take 22 ++ wLE16 len ++ wLE16 0 ++
    (central.drop 46).take len

/-- The last loop of `create_output`: the local headers and the data, and the
central directory with their offsets. The buffer holds zeros before. -/
def localLoop : List Entry → List UInt8 → List UInt8 → List UInt8 × List UInt8
  | [], out, central => (out, central)
  | e :: entries, out, central =>
    let patched := e.central.take 42 ++ wLE32 out.length ++ e.central.drop 46
    let out := out ++ localHeader e.central ++ e.fdata
    let out := out ++ replicate (align16 out.length - out.length) 0
    localLoop entries out (central ++ patched)

def endRecord (fnum off size : Nat) : List UInt8 :=
  wLE32 0x06054B50 ++ [0, 0, 0, 0] ++ wLE16 fnum ++ wLE16 fnum ++ wLE32 off ++ wLE32 size ++ [0, 0]

/-- `create_output` in split mode: `zip->output`. -/
def createOutput (t : Times) (malloc : Nat → Nat → Option (Nat → UInt8)) (files : List InputFile) :
    Option (List UInt8) :=
  match centralLoop t malloc files 0 0 0 with
  | none => none
  | some (entries, size) =>
    let remainder := size % 65504
    let size := if remainder ≠ 0 then size + (65504 - remainder) else size
    match localLoop entries [] [] with
    | (out, central) =>
      some (out ++ replicate (size - out.length) 0 ++ central ++
        endRecord files.length central.length size)

/-! ## Database files -/

/-- A database file: a header of 32 bytes and a data area of 65504 bytes. -/
structure DbFile where
  bytes : List UInt8
  length_eq : bytes.length = 65536

def DbFile.number (f : DbFile) : Nat := LE32 f.bytes 28

def DbFile.area (f : DbFile) : List UInt8 := f.bytes.drop 32

def fileHeader : List UInt8 :=
  [0x8D, 0x41, 0x54, 0x0D, 0x0A, 0x73, 0x74, 0x64, 0x0C, 0x44, 0x0C, 0x42, 0x0C, 0x0A, 0x71, 0xF8]

/-- The bytes that are copied from a block of the output. -/
def outputBlock (output : List UInt8) (i : Nat) : List UInt8 :=
  (range 65504).map fun k => output.getD (i * 65504 + k) 0

/-- The database file of number `db_i`, which holds the `i`-th block. -/
def dbFile (output : List UInt8) (i db_i : Nat) : DbFile where
  bytes := fileHeader ++ wLE32 0x10000 ++ wLE32 0 ++ wLE32 0 ++ wLE32 db_i ++ outputBlock output i
  length_eq := by
    simp only [length_append, outputBlock, length_map, length_range, fileHeader,
      wLE32, length_cons, length_nil]

/-- The first loop of `write_output_db`, of the number of rounds left. -/
def writeLoop (split_base : Nat) (output : List UInt8) : Nat → Nat → List DbFile
  | 0, _ => []
  | left + 1, i =>
    if i + split_base > 999 then []
    else if i ≥ output.length / 65504 then []
    else dbFile output i (i + split_base) :: writeLoop split_base output left (i + 1)

/-- `write_output_db`: the files that are written. -/
def writeOutputDb (split_base : Nat) (output : List UInt8) : List DbFile :=
  writeLoop split_base output 1000 0

/-- The number of the first database file, if the output is `db_???.at`. -/
def splitBase (arg_o : List UInt8) : Option Nat :=
  match arg_o.drop (arg_o.length - 9) with
  | [c0, c1, c2, c3, c4, c5, c6, c7, c8] =>
    if (tolower c0 = 0x64 ∧ tolower c1 = 0x62 ∧ c2 = 0x5F) ∧
        ([c3, c4, c5].all fun c => 0x30 ≤ c && c ≤ 0x39) ∧
        (c6 = 0x2E ∧ tolower c7 = 0x61 ∧ tolower c8 = 0x74) then
      some (((c3.toNat - 0x30) * 10 + (c4.toNat - 0x30)) * 10 + (c5.toNat - 0x30))
    else none
  | _ => none

/-- `program` in split mode, up to the writing of the files: the number of the
first one, and `zip->output`. `none` is an error, or another mode. -/
def program (arg_o : CString) (t : Times) (malloc : Nat → Nat → Option (Nat → UInt8))
    (files : List InputFile) : Option (Nat × List UInt8) :=
  if files = [] then none
  else if files.any fun f => !checkName f.name.chars then none
  else
    match splitBase arg_o.chars with
    | none => none
    | some split_base =>
      if (files.map fun f => f.data.length).sum > 0x7F000000 then none
      else
        match createOutput t malloc files with
        | none => none
        | some output =>
          -- the test of `write_output_db`
          if arg_o.chars.length < 9 ∨ arg_o.chars.length ≥ 256 then none
          else some (split_base, output)

/-! ## Bytes of numbers -/

variable (d : Nat)

theorem bitsOfBytes_wLE16 : bitsOfBytes (wLE16 d) = bitsOf 16 d := by
  rw [bitsOf_add 8 8 d]
  simp only [wLE16, bitsOfBytes_cons, bitsOfBytes_nil, bitsOf_byte, append_nil]

theorem bitsOfBytes_wLE32 : bitsOfBytes (wLE32 d) = bitsOf 32 d := by
  rw [bitsOf_add 8 24 d, bitsOf_add 8 16 (d >>> 8), bitsOf_add 8 8 (d >>> 8 >>> 8),
    ← Nat.shiftRight_add, ← Nat.shiftRight_add]
  simp only [wLE32, bitsOfBytes_cons, bitsOfBytes_nil, bitsOf_byte, append_nil]

theorem wLE32_split : wLE32 d = wLE16 d ++ wLE16 (d >>> 16) := by
  rfl

theorem byte_toNat : (UInt8.ofNat d).toNat = d % 256 := rfl

theorem or_shift_eight {low : Nat} (hlow : low < 256) (high : Nat) :
    low ||| (high <<< 8) = low + 256 * high := by
  rw [Nat.or_comm, ← Nat.shiftLeft_add_eq_or_of_lt hlow, Nat.shiftLeft_eq]
  ring

theorem LE16_wLE16 {d : Nat} (hd : d < 65536) :
    (UInt8.ofNat d).toNat ||| ((UInt8.ofNat (d >>> 8)).toNat <<< 8) = d := by
  rw [byte_toNat, byte_toNat, Nat.shiftRight_eq_div_pow, or_shift_eight (by omega)]
  omega

/-- The bytes of a local header and the name after it. -/
def headerBytes (t : Times) (name : List UInt8)
    (method crc size_compressed size_uncompressed : Nat) : List UInt8 :=
  wLE32 0x04034B50 ++ ((wLE16 0x0014 ++ [0, 0]) ++ ([UInt8.ofNat method, 0] ++
    ((wLE16 t.m_time ++ wLE16 t.m_date) ++ (wLE32 crc ++ (wLE32 size_compressed ++
    (wLE32 size_uncompressed ++ (wLE16 name.length ++ (wLE16 0 ++ name))))))))

variable {name : List UInt8}

theorem localHeader_centralEntry (t : Times) (hname : name.length < 65536)
    (method crc size_compressed size_uncompressed : Nat) :
    localHeader (centralEntry t name method crc size_compressed size_uncompressed) =
      headerBytes t name method crc size_compressed size_uncompressed := by
  have h16 := LE16_wLE16 hname
  simp only [localHeader, centralEntry, headerBytes, wLE16, wLE32, cons_append,
    nil_append, replicate_succ, replicate_zero, getD_cons_succ,
    getD_cons_zero, drop_succ_cons, drop_zero, take_succ_cons, take_zero,
    h16, take_length]

theorem length_headerBytes (t : Times) (name : List UInt8)
    (method crc size_compressed size_uncompressed : Nat) :
    (headerBytes t name method crc size_compressed size_uncompressed).length =
      30 + name.length := by
  simp only [headerBytes, wLE16, wLE32, length_append, length_cons, length_nil]
  omega

theorem length_centralEntry (t : Times) (name : List UInt8)
    (method crc size_compressed size_uncompressed : Nat) :
    (centralEntry t name method crc size_compressed size_uncompressed).length =
      46 + name.length := by
  simp only [centralEntry, wLE16, wLE32, length_append, length_cons, length_nil, length_replicate]

theorem length_putName (name : List UInt8) : (putName name).length ≤ name.length := by
  unfold putName
  simp only [length_map]
  split
  · split
    · simp only [length_cons]
      omega
    · rfl
  · exact le_rfl

theorem putName_ne_null (h : ∀ c ∈ name, c ≠ 0) : ∀ c ∈ putName name, c ≠ 0 := by
  have hmap : ∀ {l : List UInt8}, (∀ c ∈ l, c ≠ 0) →
      ∀ c ∈ l.map fun c => if c = 0x5C then 0x2F else c, c ≠ 0 := by
    intro l hl c hc
    obtain ⟨x, hx, rfl⟩ := mem_map.mp hc
    split
    · decide
    · exact hl x hx
  refine hmap ?_
  split
  · split
    · exact fun x hx => h x (.tail _ (.tail _ hx))
    · exact h
  · exact h

structure CheckedName (name : List UInt8) : Prop where
  length : name.length ≤ 127
  ne_nil : putName name ≠ []

theorem checkName_spec (h : checkName name = true) : CheckedName name := by
  unfold checkName at h
  simp only [Bool.and_eq_true, decide_eq_true_eq] at h
  obtain ⟨⟨⟨hlen, hne⟩, -⟩, -⟩ := h
  exact ⟨hlen, fun hnil => hne (by rw [hnil]; rfl)⟩

/-! ## The sizes of an archive -/

theorem and_sixteen {x : Nat} (hx : x < 2 ^ 32) : x &&& 0xFFFFFFF0 = x / 16 * 16 :=
  Lib.and_high_bits (k := 4) (by decide) hx

theorem align16_eq {size : Nat} (hsize : size + 15 < 2 ^ 32) : align16 size = (size + 15) / 16 * 16 :=
  and_sixteen hsize

theorem packFile_length (malloc : Nat → Option (Nat → UInt8)) (data : List UInt8) :
    (packFile malloc data).2.length ≤ data.length := by
  have hstream : ∀ code_table dist_table buf,
      (deflateStream code_table dist_table data buf).2.length ≤ data.length := by
    intro code_table dist_table buf
    unfold deflateStream
    simp only
    split
    · rfl
    split
    · exact le_rfl
    · rename_i hfits
      simp only [length_take]
      omega
  have hcompress : (deflateCompress malloc data).2.length ≤ data.length := by
    unfold deflateCompress
    split
    · rfl
    · split
      · exact hstream _ _ _
      · rfl
  exact hcompress

variable {t : Times} {files : List InputFile}

theorem makeEntry_central (t : Times) (malloc : Nat → Option (Nat → UInt8)) (f : InputFile) :
    (makeEntry t malloc f).central = centralEntry t f.stored (packFile malloc f.data).1
      (crc32 f.data).toNat (makeEntry t malloc f).fdata.length f.data.length := rfl

theorem makeEntry_fdata (t : Times) (malloc : Nat → Option (Nat → UInt8)) (f : InputFile) :
    (makeEntry t malloc f).fdata = (packFile malloc f.data).2 := rfl

theorem length_makeEntry (t : Times) (malloc : Nat → Option (Nat → UInt8)) (f : InputFile) :
    (makeEntry t malloc f).central.length = 46 + f.stored.length ∧
      (makeEntry t malloc f).fdata.length ≤ f.data.length :=
  ⟨length_centralEntry t _ _ _ _ _, packFile_length malloc f.data⟩

/-- The names are the ones that `check_name` lets through. -/
def NamesChecked (files : List InputFile) : Prop := ∀ f ∈ files, CheckedName f.name.chars

theorem NamesChecked.stored_le (h : NamesChecked files) {f : InputFile} (hf : f ∈ files) :
    f.stored.length ≤ 127 := le_trans (length_putName _) (h f hf).length

/-- The sizes that the first loop counts up: the central directory, and a
bound of the rest. -/
def directorySize (files : List InputFile) : Nat := (files.map fun f => 46 + f.stored.length).sum

def sizeBound (files : List InputFile) : Nat := (files.map fun f => f.data.length + 172).sum

theorem directorySize_cons (f : InputFile) (files : List InputFile) :
    directorySize (f :: files) = 46 + f.stored.length + directorySize files := by
  rfl

theorem sizeBound_cons (f : InputFile) (files : List InputFile) :
    sizeBound (f :: files) = f.data.length + 172 + sizeBound files := by
  simp [sizeBound]

theorem sizeBound_eq (files : List InputFile) :
    sizeBound files = (files.map fun f => f.data.length).sum + 172 * files.length := by
  induction files with
  | nil => rfl
  | cons f files ih =>
    rw [sizeBound_cons, ih, map_cons, sum_cons, length_cons]
    omega

theorem length_le_directorySize (files : List InputFile) :
    46 * files.length ≤ directorySize files := by
  induction files with
  | nil => rfl
  | cons f files ih =>
    rw [directorySize_cons, length_cons]
    omega

def Entries (t : Times) (files : List InputFile) (entries : List Entry) : Prop :=
  List.Forall₂ (fun f e => ∃ malloc, e = makeEntry t malloc f) files entries

/-- What the first loop has counted, for the buffer of the last one. -/
theorem centralLoop_spec (malloc : Nat → Nat → Option (Nat → UInt8)) :
    ∀ {files : List InputFile} {i off size total : Nat} {entries : List Entry},
      NamesChecked files → off ≤ 0xF000 + 173 →
        centralLoop t malloc files i off size = some (entries, total) →
          Entries t files entries ∧ off + directorySize files ≤ 0xF000 + 173 ∧
            (size + sizeBound files < 2 ^ 32 → total ≤ size + sizeBound files ∧
              ∀ out central, out.length = size →
                (localLoop entries out central).1.length = total) := by
  intro files
  induction files with
  | nil =>
    intro i off size total entries _ hoff heq
    obtain ⟨rfl, rfl⟩ := Prod.mk.inj (some.inj heq)
    exact ⟨.nil, hoff, fun _ => ⟨le_refl _, fun _ _ hout => hout⟩⟩
  | cons f files ih =>
    intro i off size total entries hnames _ heq
    have hf := hnames.stored_le (mem_cons_self ..)
    rw [centralLoop] at heq
    split at heq
    · cases heq
    simp only at heq
    split at heq
    · cases heq
    rename_i entries' total' hrest
    obtain ⟨rfl, rfl⟩ := Prod.mk.inj (some.inj heq)
    obtain ⟨hcentral, hfdata⟩ := length_makeEntry t (malloc i) f
    rw [directorySize_cons, sizeBound_cons]
    obtain ⟨hentries, hdir, hlen⟩ := ih (fun x hx => hnames x (.tail _ hx))
      (by omega) hrest
    refine ⟨.cons ⟨malloc i, rfl⟩ hentries, by omega, fun hbound => ?_⟩
    have halign := align16_eq
      (show size + (30 + f.stored.length + (makeEntry t (malloc i) f).fdata.length) + 15 < 2 ^ 32
        by omega)
    obtain ⟨hle, hlen⟩ := hlen (by omega)
    refine ⟨by omega, fun out central hout => ?_⟩
    have hheader : (localHeader (makeEntry t (malloc i) f).central).length =
        30 + f.stored.length := by
      rw [makeEntry_central, localHeader_centralEntry t (by omega), length_headerBytes]
    rw [localLoop]
    refine hlen _ _ ?_
    simp only [length_append, length_replicate, hheader, hout]
    rw [add_assoc size, halign]
    omega

theorem localLoop_central : ∀ {entries : List Entry} {files : List InputFile}
    (out central : List UInt8), Entries t files entries →
      (localLoop entries out central).2.length = central.length + directorySize files := by
  intro entries
  induction entries with
  | nil =>
    intro files out central h
    cases h
    rfl
  | cons e entries ih =>
    intro files out central h
    cases h with
    | cons he hrest =>
      obtain ⟨malloc, rfl⟩ := he
      rename_i f files
      have hlen := (length_makeEntry t malloc f).1
      rw [localLoop, ih _ _ hrest, directorySize_cons]
      simp only [length_append, length_take, length_drop, wLE32, length_cons, length_nil]
      omega

/-- Local headers and data, each with a few zeros after it, and zeros. -/
def Layout : List Entry → List UInt8 → Prop
  | [], bytes => ∃ n, bytes = replicate n 0
  | e :: entries, bytes => ∃ k ≤ 15, ∃ rest,
      bytes = localHeader e.central ++ (e.fdata ++ (replicate k 0 ++ rest)) ∧
        Layout entries rest

theorem align16_pad (size : Nat) : align16 size - size ≤ 15 := by
  have hle : align16 size ≤ size + 15 := Nat.and_le_left
  omega

theorem localLoop_layout (entries : List Entry) : ∀ (out central : List UInt8),
    ∃ body, (localLoop entries out central).1 = out ++ body ∧
      ∀ n, Layout entries (body ++ replicate n 0) := by
  induction entries with
  | nil =>
    intro out central
    exact ⟨[], by rw [localLoop, append_nil], fun n => ⟨n, rfl⟩⟩
  | cons e entries ih =>
    intro out central
    rw [localLoop]
    generalize hk : align16 (out ++ localHeader e.central ++ e.fdata).length -
      (out ++ localHeader e.central ++ e.fdata).length = k
    obtain ⟨body, hbody, hlayout⟩ := ih (out ++ localHeader e.central ++ e.fdata ++
      replicate k 0) (central ++ (e.central.take 42 ++ wLE32 out.length ++ e.central.drop 46))
    refine ⟨localHeader e.central ++ (e.fdata ++ (replicate k 0 ++ body)), ?_, fun n => ?_⟩
    · rw [hbody]
      simp
    · refine ⟨k, hk ▸ align16_pad _, body ++ replicate n 0, ?_, hlayout n⟩
      simp only [append_assoc]

variable {malloc : Nat → Nat → Option (Nat → UInt8)} {output : List UInt8} {split_base : Nat}

/-- The output: blocks of local headers and data, and less than a block. -/
theorem createOutput_spec (hnames : NamesChecked files)
    (htotal : (files.map fun f => f.data.length).sum ≤ 0x7F000000)
    (heq : createOutput t malloc files = some output) :
    output.length ≤ sizeBound files + 65504 + directorySize files + 22 ∧
      ∃ entries, Entries t files entries ∧
        Layout entries (output.take (output.length / 65504 * 65504)) := by
  unfold createOutput at heq
  split at heq
  · cases heq
  rename_i entries total hcentral
  obtain ⟨hentries, hdir, hlen⟩ := centralLoop_spec malloc hnames (Nat.zero_le _) hcentral
  have hcount := length_le_directorySize files
  have hbound := sizeBound_eq files
  obtain ⟨hsmall, hlen⟩ := hlen (by omega)
  replace hlen := hlen [] [] rfl
  have hlen2 := localLoop_central [] [] hentries
  obtain ⟨body, hbody, hlayout⟩ := localLoop_layout entries [] []
  generalize localLoop entries [] [] = r at heq hlen hlen2 hbody
  obtain ⟨out, central⟩ := r
  simp only at heq hlen hlen2 hbody
  obtain ⟨size, hsize⟩ : ∃ size, size =
    if total % 65504 ≠ 0 then total + (65504 - total % 65504) else total := ⟨_, rfl⟩
  rw [← hsize] at heq
  obtain rfl := some.inj heq
  have hround : size % 65504 = 0 ∧ total ≤ size ∧ size ≤ total + 65504 := by
    rw [hsize]
    split
    · omega
    · omega
  have hend : (endRecord files.length central.length size).length = 22 := rfl
  have hall : (out ++ replicate (size - out.length) 0).length = size := by
    rw [length_append, length_replicate]
    omega
  have hlength : (out ++ replicate (size - out.length) 0 ++ central ++
      endRecord files.length central.length size).length = size + directorySize files + 22 := by
    rw [length_append, length_append, hall, hend, hlen2, length_nil, zero_add]
  have hblocks : (out ++ replicate (size - out.length) 0 ++ central ++
      endRecord files.length central.length size).length / 65504 * 65504 = size := by
    omega
  refine ⟨by omega, entries, hentries, ?_⟩
  rw [hblocks, append_assoc, take_left' hall, hbody, nil_append]
  exact hlayout _

theorem centralLoop_isSome (malloc : Nat → Nat → Option (Nat → UInt8)) :
    ∀ (files : List InputFile) (i off size : Nat), off + directorySize files ≤ 0xF000 →
      ∃ r, centralLoop t malloc files i off size = some r := by
  intro files
  induction files with
  | nil =>
    intro i off size _
    exact ⟨_, rfl⟩
  | cons f files ih =>
    intro i off size h
    rw [directorySize_cons] at h
    obtain ⟨r, hr⟩ := ih (i + 1) (off + (46 + f.stored.length))
      (align16 (size + (30 + f.stored.length + (makeEntry t (malloc i) f).fdata.length)))
      (by omega)
    refine ⟨(makeEntry t (malloc i) f :: r.1, r.2), ?_⟩
    rw [centralLoop, if_neg (by omega)]
    simp only [hr]

theorem createOutput_isSome (h : directorySize files ≤ 0xF000) :
    ∃ output, createOutput t malloc files = some output := by
  obtain ⟨r, hr⟩ := centralLoop_isSome (t := t) malloc files 0 0 0 (by omega)
  simp only [createOutput, hr]
  exact ⟨_, rfl⟩

theorem program_some {arg_o : CString}
    (heq : program arg_o t malloc files = some (split_base, output)) :
    NamesChecked files ∧ files ≠ [] ∧ (files.map fun f => f.data.length).sum ≤ 0x7F000000 ∧
      createOutput t malloc files = some output := by
  unfold program at heq
  split at heq
  · cases heq
  rename_i hne
  split at heq
  · cases heq
  rename_i hnames
  split at heq
  · cases heq
  split at heq
  · cases heq
  rename_i htotal
  split at heq
  · cases heq
  rename_i output' houtput
  split at heq
  · cases heq
  obtain ⟨-, rfl⟩ := Prod.mk.inj (some.inj heq)
  refine ⟨fun f hf => checkName_spec ?_, hne, not_lt.mp htotal, houtput⟩
  by_contra hbad
  exact hnames (any_eq_true.mpr ⟨f, hf, by simpa using hbad⟩)

theorem length_outputBlock (output : List UInt8) (i : Nat) :
    (outputBlock output i).length = 65504 := by
  simp [outputBlock]

theorem dbFile_area (output : List UInt8) (i db_i : Nat) :
    (dbFile output i db_i).area = outputBlock output i :=
  drop_left' rfl

theorem dbFile_number (output : List UInt8) (i : Nat) {db_i : Nat} (h : db_i < 1000) :
    (dbFile output i db_i).number = db_i := by
  have hbytes : (dbFile output i db_i).number =
      (UInt8.ofNat db_i).toNat ||| ((UInt8.ofNat (db_i >>> 8)).toNat <<< 8) |||
        ((UInt8.ofNat (db_i >>> 16)).toNat <<< 16) ||| ((UInt8.ofNat (db_i >>> 24)).toNat <<< 24) :=
    rfl
  have h16 : db_i >>> 16 = 0 := by
    omega
  have h24 : db_i >>> 24 = 0 := by
    omega
  rw [hbytes, h16, h24, LE16_wLE16 (by omega)]
  simp

theorem outputBlock_eq {i : Nat} (h : (i + 1) * 65504 ≤ output.length) :
    outputBlock output i = (output.drop (i * 65504)).take 65504 := by
  apply ext_getElem
  · rw [length_outputBlock, length_take, length_drop]
    omega
  intro k hk _
  rw [length_outputBlock] at hk
  simp only [outputBlock, getElem_map, getElem_range, getElem_take, getElem_drop]
  rw [getD_eq_getElem?_getD, getElem?_eq_getElem (by omega), Option.getD_some]

section

variable (hfit : split_base + output.length / 65504 ≤ 1000)
include hfit

theorem writeLoop_eq (left : Nat) :
    ∀ (i : Nat), i + left = 1000 →
      i ≤ output.length / 65504 → writeLoop split_base output left i =
        (range' i (output.length / 65504 - i)).map fun i => dbFile output i (i + split_base) := by
  induction left with
  | zero =>
    intro i hi hle
    rw [show output.length / 65504 - i = 0 by omega]
    rfl
  | succ left ih =>
    intro i hi hle
    rw [writeLoop]
    by_cases hend : i ≥ output.length / 65504
    · rw [if_pos hend, ite_self, show output.length / 65504 - i = 0 by omega]
      rfl
    · rw [if_neg (by omega), if_neg hend, ih (i + 1) (by omega) (by omega),
        show output.length / 65504 - i = output.length / 65504 - (i + 1) + 1 by omega]
      rfl

theorem writeOutputDb_eq :
    writeOutputDb split_base output =
      (range (output.length / 65504)).map fun i => dbFile output i (i + split_base) := by
  rw [writeOutputDb, writeLoop_eq hfit 1000 0 rfl (Nat.zero_le _), Nat.sub_zero, range_eq_range']

theorem writeOutputDb_areas :
    (writeOutputDb split_base output).flatMap DbFile.area =
      output.take (output.length / 65504 * 65504) := by
  have hblocks : ∀ n, n ≤ output.length / 65504 →
      ((range n).map fun i => dbFile output i (i + split_base)).flatMap DbFile.area =
        output.take (n * 65504) := by
    intro n
    induction n with
    | zero => simp
    | succ n ih =>
      intro hn
      rw [range_succ, map_append, flatMap_append, ih (by omega), map_singleton,
        flatMap_singleton, dbFile_area, outputBlock_eq (by omega), Nat.succ_mul,
        take_add]
  rw [writeOutputDb_eq hfit]
  exact hblocks _ le_rfl

end

end Dancy.Zip
