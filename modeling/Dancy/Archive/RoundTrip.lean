import Dancy.Archive.Huffman

/-!
# What is compressed is decompressed

Bits stand for what the decompressor makes of them (`Inflates`): the bits of
a literal add a byte, those of a length and a distance copy bytes. A match
of the compressor is a copy that gives the bytes it stands for.
-/

namespace Dancy.Zip

open Dancy.Lib List

variable {b b' : BitArray} {size : Nat} {out out' : List UInt8} {xs ys : List Bool}

/-! ## The meaning of bits -/

/-- The decompressor takes the bits and goes from one output to another,
whatever comes after them. -/
def Inflates (size : Nat) (xs : List Bool) (out out' : List UInt8) : Prop :=
  ∃ n ≤ xs.length, ∀ (b : BitArray) (r : List Bool), Reading b → b.input = xs ++ r →
    ∃ b', Reading b' ∧ b'.input = r ∧
      ∀ fuel, inflateLoop codeHuffman distHuffman size (fuel + n) b out =
        inflateLoop codeHuffman distHuffman size fuel b' out'

theorem Inflates.refl (size : Nat) (out : List UInt8) : Inflates size [] out out :=
  ⟨0, le_refl 0, fun b _ hb hin => ⟨b, hb, hin, fun _ => rfl⟩⟩

theorem Inflates.trans {out'' : List UInt8} (h : Inflates size xs out out')
    (h' : Inflates size ys out' out'') : Inflates size (xs ++ ys) out out'' := by
  obtain ⟨n, hn, h⟩ := h
  obtain ⟨m, hm, h'⟩ := h'
  refine ⟨m + n, by rw [length_append]; omega, fun b r hb hin => ?_⟩
  rw [append_assoc] at hin
  obtain ⟨b1, hb1, hin1, hloop⟩ := h b _ hb hin
  obtain ⟨b2, hb2, hin2, hloop'⟩ := h' b1 _ hb1 hin1
  exact ⟨b2, hb2, hin2, fun fuel => by rw [← add_assoc, hloop, hloop']⟩

theorem inflates_literal (hroom : out.length < size) (c : UInt8) :
    Inflates size (wordOf codeTable c.toNat) out (out ++ [c]) := by
  have hc : c.toNat < 256 := c.toNat_lt
  have hword := codeTable_words c.toNat (by omega)
  refine ⟨1, length_pos_iff.mpr hword.ne_nil, fun b r hb hin => ?_⟩
  obtain ⟨b1, hfetch, hb1, hin1⟩ := huffmanFetch_word hword hb hin
  refine ⟨b1, hb1, hin1, fun fuel => ?_⟩
  have h256 : ¬ ((c.toNat : Int) = 256) := by omega
  have hneg : ¬ ((c.toNat : Int) < 0) := by omega
  have hlit : (c.toNat : Int) < 256 := by omega
  have hfull : ¬ out.length ≥ size := by omega
  rw [inflateLoop, hfetch]
  simp only [h256, hneg, hlit, hfull, if_true, if_false, Int.toNat_natCast, UInt8.ofNat_toNat]

/-- The bits of a code: its word, and how far a value is from its first one. -/
def codeBits (table : Table) (sym : Nat) (code : Nat × Nat) (x : Nat) : List Bool :=
  wordOf table sym ++ bitsOf code.1 (x - code.2)

structure HasCode (codes : List (Nat × Nat)) (x i : Nat) : Prop where
  lt : i < codes.length
  le : (codes.getD i (0, 0)).2 ≤ x
  extra : x - (codes.getD i (0, 0)).2 < 2 ^ (codes.getD i (0, 0)).1

theorem inflates_copy {len dist i j : Nat} (hi : HasCode lengthCodes len i)
    (hj : HasCode distanceCodes dist j) (hj30 : j < 30) (hlen : len ≤ 258) (hdist : dist ≤ 32768)
    (hroom : out.length + len ≤ size) (hback : dist ≤ out.length) :
    Inflates size (codeBits codeTable (257 + i) (lengthCodes.getD i (0, 0)) len ++
      codeBits distTable j (distanceCodes.getD j (0, 0)) dist) out (copyBytes len dist out) := by
  have hi29 : i < 29 := hi.lt
  have hword := codeTable_words (257 + i) (by omega)
  have hdword := distTable_words j (by omega)
  obtain ⟨extra, hextra⟩ : ∃ c, c = lengthCodes.getD i (0, 0) := ⟨_, rfl⟩
  obtain ⟨dextra, hdextra⟩ : ∃ c, c = distanceCodes.getD j (0, 0) := ⟨_, rfl⟩
  have hle := hi.le
  have hlt := hi.extra
  have hdle := hj.le
  have hdlt := hj.extra
  rw [← hextra] at hle hlt ⊢
  rw [← hdextra] at hdle hdlt ⊢
  refine ⟨1, ?_, fun b r hb hin => ?_⟩
  · have hpos := length_pos_iff.mpr hword.ne_nil
    simp only [codeBits, length_append]
    omega
  unfold codeBits at hin
  simp only [append_assoc] at hin
  obtain ⟨b1, hfetch1, hb1, hin1⟩ := huffmanFetch_word hword hb hin
  obtain ⟨b2, hfetch2, hb2, hin2⟩ := bitarrayFetch_bitsOf hb1 hin1 hlt (by omega)
  obtain ⟨b3, hfetch3, hb3, hin3⟩ := huffmanFetch_word hdword hb2 hin2
  obtain ⟨b4, hfetch4, hb4, hin4⟩ := bitarrayFetch_bitsOf hb3 hin3 hdlt (by omega)
  have hsym : ((257 + i : Nat) : Int) - 257 = (i : Int) := by omega
  have hcopy : inflateCopy distHuffman size extra b1 out = .ok (b4, copyBytes len dist out) := by
    have hlen' : extra.2 + (len - extra.2) = len := by omega
    have hdist' : dextra.2 + (dist - dextra.2) = dist := by omega
    have hfit : ¬ out.length + len > size := by omega
    have hj' : ¬ ((j : Int) < 0 ∨ (j : Int) ≥ 30) := by omega
    have hback' : ¬ dist > out.length := by omega
    unfold inflateCopy
    rw [hfetch2]
    simp only [hlen', hfit]
    rw [hfetch3]
    simp only [hj', Int.toNat_natCast]
    rw [← hdextra, hfetch4]
    simp only [hdist', hback', if_false]
  refine ⟨b4, hb4, hin4, fun fuel => ?_⟩
  have h256 : ¬ (((257 + i : Nat) : Int) = 256) := by omega
  have hneg : ¬ (((257 + i : Nat) : Int) < 0) := by omega
  have hlit : ¬ (((257 + i : Nat) : Int) < 256) := by omega
  have hbad : ¬ (((257 + i : Nat) : Int) ≥ 286) := by omega
  rw [inflateLoop, hfetch1]
  simp only [h256, hneg, hlit, hbad, if_false, hsym, Int.toNat_natCast]
  rw [← hextra, hcopy]

theorem inflates_end (hout : out.length = size) (hb : Reading b) {r : List Bool}
    (hin : b.input = wordOf codeTable 256 ++ r) (fuel : Nat) :
    inflateLoop codeHuffman distHuffman size (fuel + 1) b out = some (0, out) := by
  obtain ⟨b1, hfetch, -, -⟩ := huffmanFetch_word (codeTable_words 256 (by decide)) hb hin
  rw [inflateLoop, hfetch]
  simp [hout]

/-- The first values of codes: each is followed by the next one after as
many values as its extra bits can tell, up to a limit. -/
def Steps (limit : Nat) : List (Nat × Nat) → Prop
  | [] => True
  | [_] => True
  | (extra, val) :: (extra', next) :: rest =>
    min next (limit + 1) ≤ val + 2 ^ extra ∧ Steps limit ((extra', next) :: rest)

instance decidableSteps (limit : Nat) : (codes : List (Nat × Nat)) → Decidable (Steps limit codes)
  | [] => .isTrue trivial
  | [_] => .isTrue trivial
  | (extra, val) :: (extra', next) :: rest =>
    have := decidableSteps limit ((extra', next) :: rest)
    inferInstanceAs (Decidable (min next (limit + 1) ≤ val + 2 ^ extra ∧ _))

/-- A value from the first one up to the last one has a code, the last code
only if it is the last value. -/
theorem findCode_spec {x limit : Nat} (hx : x ≤ limit) : ∀ (codes : List (Nat × Nat)) (k : Nat),
    codes ≠ [] → Steps limit codes → (codes.getD 0 (0, 0)).2 ≤ x →
      x ≤ (codes.getD (codes.length - 1) (0, 0)).2 →
        ∃ i, findCode x codes k = some (k + i) ∧ HasCode codes x i ∧
          (i + 1 = codes.length → x = (codes.getD i (0, 0)).2)
  | [], _, hne, _, _, _ => absurd rfl hne
  | [(extra, val)], k, _, _, hle, hlast => by
      have heq : x = val := le_antisymm hlast hle
      refine ⟨0, by simp [findCode, heq], ⟨Nat.one_pos, hle, ?_⟩, fun _ => heq⟩
      simp [heq]
  | (extra, val) :: (extra', next) :: rest, k, _, hsteps, hle, hlast => by
      obtain ⟨hstep, hrest⟩ := hsteps
      by_cases hhere : x = val ∨ x < next
      · refine ⟨0, by simp [findCode, hhere], ⟨Nat.succ_pos _, hle, ?_⟩, fun hone => ?_⟩
        · simp only [getD_cons_zero] at hle ⊢
          have hpos : 0 < 2 ^ extra := Nat.two_pow_pos extra
          omega
        · simp at hone
      have hge : next ≤ x := by omega
      obtain ⟨i, hfind, hcode, hend⟩ := findCode_spec hx ((extra', next) :: rest) (k + 1)
        (cons_ne_nil _ _) hrest hge hlast
      refine ⟨i + 1, ?_, ⟨Nat.succ_lt_succ hcode.lt, hcode.le, hcode.extra⟩, fun hone => ?_⟩
      · rw [findCode, if_neg hhere, hfind, add_assoc, add_comm 1 i]
      · exact hend (Nat.succ.inj hone)

theorem lengthCodes_steps : Steps 258 lengthCodes := by decide

theorem distanceCodes_steps : Steps 32768 distanceCodes := by decide

theorem findCode_length {len : Nat} (h3 : 3 ≤ len) (h258 : len ≤ 258) :
    ∃ i, findCode len lengthCodes 0 = some i ∧ HasCode lengthCodes len i := by
  obtain ⟨i, hfind, hcode, -⟩ := findCode_spec h258 lengthCodes 0 (by decide) lengthCodes_steps
    h3 h258
  exact ⟨i, by rw [hfind, zero_add], hcode⟩

theorem findCode_distance {dist : Nat} (h1 : 1 ≤ dist) (hle : dist ≤ 32768) :
    ∃ j, findCode dist distanceCodes 0 = some j ∧ HasCode distanceCodes dist j ∧ j < 30 := by
  obtain ⟨j, hfind, hcode, hend⟩ := findCode_spec hle distanceCodes 0 (by decide)
    distanceCodes_steps h1 (le_trans hle (by decide))
  refine ⟨j, by rw [hfind, zero_add], hcode, ?_⟩
  have hlt : j < 31 := hcode.lt
  by_contra h30
  have hj : j = 30 := by omega
  have hlast := hend (by rw [hj]; rfl)
  rw [hj] at hlast
  exact absurd (hlast ▸ hle) (by decide)

variable {data : List UInt8} {i dist len : Nat}

/-- The bytes at `i` are those at a distance before it. -/
structure IsMatch (data : List UInt8) (i dist len : Nat) : Prop where
  dist_ge : 1 ≤ dist
  dist_le : dist ≤ i
  dist_max : dist ≤ 32768
  len_ge : 3 ≤ len
  len_max : len ≤ 258
  inside : i + len ≤ data.length
  bytes : ∀ k < len, data.getD (i - dist + k) 0 = data.getD (i + k) 0

theorem take_snoc (h : i < data.length) :
    data.take i ++ [data.getD i 0] = data.take (i + 1) := by
  simp [h]

theorem copyBytes_take (hdist : 1 ≤ dist) (len : Nat) : ∀ {i : Nat}, dist ≤ i →
    i + len ≤ data.length →
    (∀ k < len, data.getD (i - dist + k) 0 = data.getD (i + k) 0) →
      copyBytes len dist (data.take i) = data.take (i + len) := by
  induction len with
  | zero => exact fun _ _ _ => rfl
  | succ len ih =>
    intro i hle hin hbytes
    have hlen : (data.take i).length = i := by
      rw [length_take]
      omega
    have hbyte : (data.take i).getD (i - dist) 0 = data.getD i 0 := by
      have h0 := hbytes 0 (Nat.succ_pos len)
      simp only [add_zero] at h0
      rw [← h0]
      simp only [getD_eq_getElem?_getD]
      rw [getElem?_take_of_lt (by omega)]
    rw [copyBytes, hlen, hbyte, take_snoc (by omega), add_comm len 1, ← add_assoc]
    refine ih (by omega) (by omega) fun k hk => ?_
    have hnext := hbytes (k + 1) (Nat.succ_lt_succ hk)
    rw [show i + 1 - dist + k = i - dist + (k + 1) by omega, hnext,
      show i + 1 + k = i + (k + 1) by omega]

theorem matchLength_spec (data : List UInt8) (i dist left : Nat) : ∀ j : Nat,
    j ≤ matchLength data i dist left j ∧ matchLength data i dist left j ≤ j + left ∧
      ∀ k, j ≤ k → k < matchLength data i dist left j →
        data.getD (i - dist + k) 0 = data.getD (i + k) 0 := by
  induction left with
  | zero => exact fun j => ⟨le_refl j, le_refl j, fun k h1 h2 => absurd h2 (by
      rw [matchLength]
      omega)⟩
  | succ left ih =>
    intro j
    rw [matchLength]
    by_cases hne : data.getD (i - dist + j) 0 ≠ data.getD (i + j) 0
    · rw [if_pos hne]
      exact ⟨le_refl j, by omega, fun k h1 h2 => by omega⟩
    rw [if_neg hne]
    obtain ⟨h1, h2, h3⟩ := ih (j + 1)
    refine ⟨by omega, by omega, fun k hk hlt => ?_⟩
    by_cases hjk : k = j
    · rw [hjk]
      exact not_not.mp hne
    · exact h3 k (by omega) hlt

theorem findMatch_spec {limit : Nat} {c2 : UInt8} (hmax : limit ≤ 258)
    (hin : i + limit ≤ data.length) (hc2 : limit > 2 → c2 = data.getD (i + 1) 0) (left : Nat) :
    ∀ {dist : Nat} {found : Nat × Nat}, 1 ≤ dist → dist + left ≤ min i 32768 + 1 → 2 ≤ found.1 →
      (found.2 ≠ 0 → IsMatch data i found.2 found.1) →
        (findMatch data i limit (data.getD i 0) c2 left dist found).2 ≠ 0 →
          IsMatch data i (findMatch data i limit (data.getD i 0) c2 left dist found).2
            (findMatch data i limit (data.getD i 0) c2 left dist found).1 := by
  induction left with
  | zero => exact fun _ _ _ hfound => hfound
  | succ left ih =>
    intro dist found hdist hleft h2 hfound
    rw [findMatch]
    by_cases hhead : data.getD (i - dist) 0 = data.getD i 0 ∧ data.getD (i - dist + 1) 0 = c2
    · rw [if_pos hhead]
      by_cases hlonger : found.1 < matchLength data i dist (limit - 2) 2
      · rw [if_pos hlonger]
        obtain ⟨hge, hle, hbytes⟩ := matchLength_spec data i dist (limit - 2) 2
        have hnew : IsMatch data i dist (matchLength data i dist (limit - 2) 2) := by
          refine ⟨hdist, by omega, by omega, by omega, by omega, by omega, fun k hk => ?_⟩
          by_cases hk0 : k = 0
          · rw [hk0]
            exact hhead.1
          by_cases hk1 : k = 1
          · rw [hk1, hhead.2]
            exact hc2 (by omega)
          · exact hbytes k (by omega) hk
        by_cases hlong : matchLength data i dist (limit - 2) 2 ≥ 64
        · rw [if_pos hlong]
          exact fun _ => hnew
        · rw [if_neg hlong]
          exact ih (by omega) (by omega) (by omega) fun _ => hnew
      · rw [if_neg hlonger]
        exact ih (by omega) (by omega) h2 hfound
    · rw [if_neg hhead]
      exact ih (by omega) (by omega) h2 hfound

theorem matchAt_spec (hi : i < data.length) (hfound : (matchAt data i).2 ≠ 0) :
    IsMatch data i (matchAt data i).2 (matchAt data i).1 := by
  refine findMatch_spec ?_ ?_ ?_ _ (le_refl 1) ?_ (le_refl 2) (fun h => absurd rfl h) hfound
  · split <;> omega
  · split <;> omega
  · intro hlimit
    rw [if_pos hlimit]
  · split <;> omega

/-! ## The stream -/

theorem shoved_of_eq (h : Writing b) {n v : Nat} (heq : bitarrayShove b n v = (true, b')) :
    Shoved b (bitsOf n v) b' := by
  rcases bitarrayShove_spec n h v with ⟨b1, hshove, h1⟩ | ⟨b1, hshove, -⟩
  · rw [hshove] at heq
    obtain ⟨-, rfl⟩ := Prod.mk.inj heq
    exact h1
  · rw [hshove] at heq
    cases heq

theorem putCode_shoved (h : Writing b) {table : Table} {sym x : Nat} {code : Nat × Nat}
    (heq : putCode b (table.getD sym (0, 0)) code x = (true, b')) :
    Shoved b (codeBits table sym code x) b' := by
  unfold putCode at heq
  split at heq
  · cases heq
  rename_i b1 hword
  have h1 := shoved_of_eq h hword
  by_cases hextra : code.1 ≠ 0
  · rw [if_pos hextra] at heq
    exact h1.trans (shoved_of_eq h1.writing heq)
  rw [if_neg hextra] at heq
  obtain ⟨-, rfl⟩ := Prod.mk.inj heq
  have hzero : bitsOf code.1 (x - code.2) = [] := by
    rw [not_not.mp hextra]
    rfl
  rwa [codeBits, hzero, append_nil]

theorem putLendist_spec (h : Writing b) (hsize : data.length = size) (hm : IsMatch data i dist len)
    (heq : putLendist codeTable distTable b len dist = (true, b')) :
    ∃ xs, Shoved b xs b' ∧ Inflates size xs (data.take i) (data.take (i + len)) := by
  obtain ⟨k, hfind, hcode⟩ := findCode_length hm.len_ge hm.len_max
  obtain ⟨j, hdfind, hdcode, hj⟩ := findCode_distance hm.dist_ge hm.dist_max
  have hok : ¬ (len < 3 ∨ len > 258 ∨ dist < 1 ∨ dist > 32768) := by
    have h3 := hm.len_ge
    have h258 := hm.len_max
    have h1 := hm.dist_ge
    have hmax := hm.dist_max
    omega
  have htake : (data.take i).length = i := by
    have hin := hm.inside
    rw [length_take]
    omega
  unfold putLendist at heq
  simp only [hok, if_false, hfind, hdfind] at heq
  split at heq
  · cases heq
  rename_i b1 hfirst
  have h1 := putCode_shoved h hfirst
  have h2 := putCode_shoved h1.writing heq
  have hroom : (data.take i).length + len ≤ size := by
    rw [htake, ← hsize]
    exact hm.inside
  have hback : dist ≤ (data.take i).length := by
    rw [htake]
    exact hm.dist_le
  have hcopy := inflates_copy hcode hdcode hj hm.len_max hm.dist_max hroom hback
  rw [copyBytes_take hm.dist_ge len hm.dist_le hm.inside hm.bytes] at hcopy
  exact ⟨_, h1.trans h2, hcopy⟩

theorem putLiteral_spec (h : Writing b) (hsize : data.length = size) (hi : i < data.length)
    (heq : putLiteral codeTable b (data.getD i 0) = (true, b')) :
    ∃ xs, Shoved b xs b' ∧ Inflates size xs (data.take i) (data.take (i + 1)) := by
  have hroom : (data.take i).length < size := by
    rw [length_take]
    omega
  exact ⟨_, shoved_of_eq h heq, take_snoc hi ▸ inflates_literal hroom (data.getD i 0)⟩

theorem lz77Loop_spec (hsize : data.length = size) (fuel : Nat) : ∀ {i : Nat} {b : BitArray},
    Writing b → i ≤ data.length → data.length ≤ i + fuel →
      lz77Loop codeTable distTable data fuel i b = (true, b') →
        ∃ xs, Shoved b xs b' ∧ Inflates size xs (data.take i) data := by
  have hdone : ∀ {b : BitArray}, Writing b → b = b' →
      ∃ xs, Shoved b xs b' ∧ Inflates size xs (data.take data.length) data := by
    rintro b h rfl
    rw [take_length]
    exact ⟨[], ⟨h, (append_nil _).symm, rfl⟩, .refl size data⟩
  induction fuel with
  | zero =>
    intro i b h hi hfuel heq
    obtain rfl : i = data.length := by omega
    exact hdone h (Prod.mk.inj heq).2
  | succ fuel ih =>
    intro i b h hi hfuel heq
    rw [lz77Loop] at heq
    by_cases hlt : i < data.length
    · rw [if_pos hlt] at heq
      by_cases hfound : (matchAt data i).2 ≠ 0
      · rw [if_pos hfound] at heq
        have hm := matchAt_spec hlt hfound
        split at heq
        · cases heq
        rename_i b1 hput
        obtain ⟨xs, h1, hxs⟩ := putLendist_spec h hsize hm hput
        have hlen := hm.len_ge
        obtain ⟨ys, h2, hys⟩ := ih h1.writing hm.inside (by omega) heq
        exact ⟨xs ++ ys, h1.trans h2, hxs.trans hys⟩
      · rw [if_neg hfound] at heq
        split at heq
        · cases heq
        · rename_i b1 hput
          obtain ⟨xs, h1, hxs⟩ := putLiteral_spec h hsize hlt hput
          obtain ⟨ys, h2, hys⟩ := ih h1.writing hlt (by omega) heq
          exact ⟨xs ++ ys, h1.trans h2, hxs.trans hys⟩
    · rw [if_neg hlt] at heq
      obtain rfl : i = data.length := by omega
      exact hdone h (Prod.mk.inj heq).2

theorem lz77Compress_spec (hsize : data.length = size) (hpos : 0 < data.length) (h : Writing b)
    (heq : lz77Compress codeTable distTable b data = (true, b')) :
    ∃ xs, Shoved b xs b' ∧ Inflates size xs [] data := by
  unfold lz77Compress at heq
  split at heq
  · cases heq
  · rename_i b1 hput
    obtain ⟨xs, h1, hxs⟩ := putLiteral_spec h hsize hpos hput
    obtain ⟨ys, h2, hys⟩ := lz77Loop_spec hsize data.length h1.writing hpos (by omega) heq
    exact ⟨xs ++ ys, h1.trans h2, hxs.trans hys⟩

/-- The bits of a stream: one last block with the static codes, what stands
for the data, the end, and what fills the last byte up. -/
theorem deflateStream_spec {buf packed : List UInt8} (hpos : 0 < data.length)
    (hbuf : buf.length = data.length)
    (heq : deflateStream codeTable distTable data buf = (0, packed)) :
    ∃ xs n, bitsOfBytes packed =
      bitsOf 1 1 ++ (bitsOf 2 1 ++ (xs ++ (wordOf codeTable 256 ++ replicate n false))) ∧
        Inflates data.length xs [] data := by
  obtain ⟨hinit, hnone⟩ := bitarrayInit_writing buf
  have hone : bitarrayShove (bitarrayInit buf) 1 1 =
      (true, (bitarrayShove (bitarrayInit buf) 1 1).2) := rfl
  have h1 := shoved_of_eq hinit hone
  have htwo : bitarrayShove (bitarrayShove (bitarrayInit buf) 1 1).2 2 1 =
      (true, (bitarrayShove (bitarrayShove (bitarrayInit buf) 1 1).2 2 1).2) := rfl
  have h2 := shoved_of_eq h1.writing htwo
  unfold deflateStream at heq
  simp only at heq
  split at heq
  · cases heq
  rename_i b3 hcompress
  obtain ⟨xs, h3, hxs⟩ := lz77Compress_spec rfl hpos h2.writing hcompress
  have hlen := h3.length.trans (h2.length.trans h1.length)
  have hmem : b3.mem.length = data.length := hlen.trans hbuf
  rcases bitarrayShove_spec (codeTable.getD 256 (0, 0)).1 h3.writing
    (codeTable.getD 256 (0, 0)).2 with ⟨b4, hend, h4⟩ | ⟨b4, hend, hfull⟩
  · rw [hend] at heq
    rcases bitarrayWritten_spec h4.writing with ⟨b5, n, hwritten, h5, hout⟩ | ⟨b5, hwritten, -⟩
    · rw [hwritten] at heq
      split at heq
      · cases heq
      obtain ⟨-, rfl⟩ := Prod.mk.inj heq
      refine ⟨xs, n, ?_, hxs⟩
      have hall := (((h1.trans h2).trans h3).trans h4).trans h5
      rw [← hout, hall.output, hnone]
      simp only [append_assoc]
      rfl
    · rw [hwritten] at heq
      simp at heq
  · -- the end does not fit: all bytes of the buffer are written
    have hfits : bitarrayWritten b4 = (true, b4.written, b4) := by
      unfold bitarrayWritten
      rw [hfull.state0]
      rfl
    have hmany : b4.written > data.length - 1 := by
      rw [hfull.written, hmem]
      omega
    rw [hend] at heq
    rw [hfits] at heq
    simp [hmany] at heq

theorem staticTable_code : staticTable codeSymbols (2 * 288) = .ok codeTable := by
  rw [staticTable, huffmanInit_code]
  exact huffmanTable_code

theorem staticTable_dist : staticTable distSymbols (2 * 32) = .ok distTable := by
  rw [staticTable, huffmanInit_dist]
  exact huffmanTable_dist

theorem deflateCompress_some {malloc : Nat → Option (Nat → UInt8)} {bytes : Nat → UInt8}
    (h4 : 4 ≤ data.length) (hbytes : malloc data.length = some bytes) :
    deflateCompress malloc data =
      deflateStream codeTable distTable data ((range data.length).map bytes) := by
  rw [deflateCompress, if_neg (not_lt.mpr h4), staticTable_code, staticTable_dist, hbytes]

theorem deflateCompress_none {malloc : Nat → Option (Nat → UInt8)}
    (hbytes : malloc data.length = none) : deflateCompress malloc data = (1, data) := by
  rw [deflateCompress, staticTable_code, staticTable_dist, hbytes]
  exact ite_self _

/-- What is compressed is decompressed again, into a buffer of the size of
the data. -/
theorem inflate_deflateCompress {malloc : Nat → Option (Nat → UInt8)} {packed : List UInt8}
    (h : deflateCompress malloc data = (0, packed)) {fuel : Nat}
    (hfuel : 8 * packed.length < fuel) :
    inflate fuel (bitarrayInit packed) data.length = some (0, data) := by
  have hfail : (1, data) ≠ ((0, packed) : Nat × List UInt8) :=
    fun heq => Nat.one_ne_zero (congrArg Prod.fst heq)
  by_cases hshort : data.length < 4
  · rw [deflateCompress, if_pos hshort] at h
    exact absurd h hfail
  cases hbytes : malloc data.length with
  | none => exact absurd ((deflateCompress_none hbytes).symm.trans h) hfail
  | some bytes =>
    rw [deflateCompress_some (not_lt.mp hshort) hbytes] at h
    have hbuf : ((range data.length).map bytes).length = data.length := by simp
    obtain ⟨xs, n, hbits, hxs⟩ := deflateStream_spec (by omega) hbuf h
    obtain ⟨m, hm, hxs⟩ := hxs
    obtain ⟨hb, hin⟩ := bitarrayInit_input packed
    rw [hbits] at hin
    obtain ⟨b1, hfetch1, hb1, hin1⟩ := bitarrayFetch_bitsOf hb hin (by decide) (by decide)
    obtain ⟨b2, hfetch2, hb2, hin2⟩ := bitarrayFetch_bitsOf hb1 hin1 (by decide) (by decide)
    obtain ⟨b3, hb3, hin3, hloop⟩ := hxs b2 _ hb2 hin2
    have hlen := congrArg length hbits
    simp only [length_bitsOfBytes, length_append, length_bitsOf] at hlen
    obtain ⟨rest, rfl⟩ : ∃ k, fuel = k + 1 + m := ⟨fuel - 1 - m, by omega⟩
    rw [inflate, huffmanInit_code, huffmanInit_dist, inflateWith]
    simp only [hfetch1, ne_eq, not_true_eq_false, if_false, hfetch2]
    rw [hloop]
    exact inflates_end rfl hb3 hin3 rest

theorem deflateCompress_zeros :
    deflateCompress (fun _ => some fun _ => 0) [0, 0, 0, 0, 0] = (0, [0x63, 0, 1, 0]) := by
  rw [deflateCompress_some (by decide) rfl]
  decide

theorem inflate_deflateCompress_zeros :
    inflate 33 (bitarrayInit [0x63, 0, 1, 0]) [0, 0, 0, 0, 0].length =
      some (0, [0, 0, 0, 0, 0]) :=
  inflate_deflateCompress deflateCompress_zeros (by decide)

end Dancy.Zip
