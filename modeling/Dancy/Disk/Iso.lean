import Dancy.Lib.Bits
import Dancy.Lib.Bytes

/-!
# `dy-iso`

`create_iso` puts a disk image behind 512 KiB of headers: the descriptors and
the directory of ECMA-119 and the boot catalog of El Torito.
-/

namespace Dancy.Iso

open Dancy.Lib List

/-- What `write_timestamp` writes in its two versions. -/
structure Timestamp where
  long : Fin 17 → UInt8
  short : Fin 7 → UInt8

abbrev Write := Nat × List UInt8

def byte (p : Nat) (c : UInt8) : Write := (p, [c])

def le16 (p v : Nat) : Write := (p, [UInt8.ofNat v, UInt8.ofNat (v / 256)])

def be16 (p v : Nat) : Write := (p, [UInt8.ofNat (v / 256), UInt8.ofNat v])

def le32 (p v : Nat) : Write :=
  (p, [UInt8.ofNat v, UInt8.ofNat (v / 256), UInt8.ofNat (v / 65536), UInt8.ofNat (v / 16777216)])

def be32 (p v : Nat) : Write :=
  (p, [UInt8.ofNat (v / 16777216), UInt8.ofNat (v / 65536), UInt8.ofNat (v / 256), UInt8.ofNat v])

def memset (p : Nat) (c : UInt8) (n : Nat) : Write := (p, replicate n c)

def stamp1 (p : Nat) (t : Timestamp) : Write := (p, ofFn t.long)

def stamp2 (p : Nat) (t : Timestamp) : Write := (p, ofFn t.short)

def cd001 : List UInt8 := [67, 68, 48, 48, 49]

/-- A directory record, with the length of its identifier. -/
def record (t : Timestamp) (p : Nat) (length : UInt8) (block size : Nat) (flags id : UInt8) :
    List Write :=
  [byte p length, le32 (p + 0x02) block, be32 (p + 0x06) block, le32 (p + 0x0A) size,
    be32 (p + 0x0E) size, stamp2 (p + 0x12) t, byte (p + 0x19) flags, le16 (p + 0x1C) 1,
    be16 (p + 0x1E) 1, byte (p + 0x20) id]

/-- `"Dancy Operating System\n"`. -/
def readmeTxt : List UInt8 :=
  [68, 97, 110, 99, 121, 32, 79, 112, 101, 114, 97, 116, 105, 110, 103, 32, 83, 121, 115, 116, 101,
    109, 10]

/-- The writes in front of the volume space size. -/
def identifierWrites : List Write :=
  [byte 0x8000 1, (0x8001, cd001), byte 0x8006 1,
    (0x8008, [68, 65, 78, 67, 89, 32, 32, 32]), memset 0x8010 0x20 24,
    (0x8028, [67, 68, 82, 79, 77, 32, 32, 32]), memset 0x8030 0x20 24]

/-- The writes behind it, for an image of `n` bytes. -/
def layoutWrites (t : Timestamp) (eltorito : Fin 2048 → UInt8) (uefi : Bool) (n size : Nat) :
    List Write :=
  [be32 0x8054 size, le16 0x8078 1, be16 0x807A 1, le16 0x807C 1, be16 0x807E 1,
    le16 0x8080 0x0800, be16 0x8082 0x0800, le32 0x8084 0x0A, be32 0x8088 0x0A, le32 0x808C 0x14,
    be32 0x8094 0x18] ++
  record t 0x809C 0x22 0x20 0x0800 2 1 ++
  [memset 0x80BE 0x20 623, stamp1 0x832D t, stamp1 0x833E t, memset 0x834F 0x30 16,
    stamp1 0x8360 t, byte 0x8371 1,
    byte 0x8800 0, (0x8801, cd001), byte 0x8806 1,
    (0x8807, [69, 76, 32, 84, 79, 82, 73, 84, 79, 32, 83, 80, 69, 67, 73, 70, 73, 67, 65, 84, 73, 79,
      78]),
    le32 0x8847 0x80, byte 0x9000 0xFF, (0x9001, cd001), byte 0x9006 1,
    byte 0xA000 1, le32 0xA002 0x20, le16 0xA006 1, byte 0xC000 1, be32 0xC002 0x20, be16 0xC006 1] ++
  record t 0x10000 0x22 0x20 0x0800 2 1 ++ [byte 0x10021 0] ++
  record t 0x10022 0x22 0x20 0x0800 2 1 ++ [byte 0x10043 1] ++
  record t 0x10044 0x2C 0x80 0x0800 1 0x0A ++
  [(0x10065, [66, 79, 79, 84, 46, 67, 65, 84, 59, 49])] ++
  record t 0x10070 0x2C 0x0100 n 0 0x0B ++
  [(0x10091, [68, 65, 78, 67, 89, 46, 73, 77, 71, 59, 49])] ++
  record t 0x1009C 0x30 0xA0 0x0800 1 0x0E ++
  [(0x100BD, [69, 76, 84, 79, 82, 73, 84, 79, 46, 66, 73, 78, 59, 49])] ++
  record t 0x100CC 0x2E 0xC0 readmeTxt.length 0 0x0C ++
  [(0x100ED, [82, 69, 65, 68, 77, 69, 46, 84, 88, 84, 59, 49]),
    byte 0x40000 1, byte 0x4001C 0xAA, byte 0x4001D 0x55, byte 0x4001E 0x55, byte 0x4001F 0xAA,
    byte 0x40020 0x88, byte 0x40026 4, le32 0x40028 0xA0] ++
  (if uefi then [byte 0x40040 0x91, byte 0x40041 0xEF, byte 0x40042 1, byte 0x40060 0x88,
    le16 0x40066 (n / 512), le32 0x40068 0x0100] else []) ++
  [(0x50000, ofFn eltorito), (0x60000, readmeTxt)]

/-- The writes of `create_iso`. -/
def isoWrites (t : Timestamp) (eltorito : Fin 2048 → UInt8) (uefi : Bool) (n size : Nat) :
    List Write :=
  identifierWrites ++ le32 0x8050 size :: layoutWrites t eltorito uefi n size

def put (b : Bytes) (w : Write) : Bytes :=
  fun k => if w.1 ≤ k ∧ k < w.1 + w.2.length then w.2.getD (k - w.1) 0 else b k

/-- An ISO image: its size, its bytes and the writes that were made. -/
structure IsoImage where
  size : Nat
  bytes : Bytes
  writes : List Write

/-- `create_iso`; `buffer` is what `realloc` returns, behind the image. -/
def createIso (t : Timestamp) (eltorito : Fin 2048 → UInt8) (image : List UInt8) (uefi : Bool)
    (buffer : Option Bytes) : Option IsoImage :=
  let n := image.length
  if n < 0x0800 then none
  else if n > 0xFFFF * 0x0800 then none
  else if n &&& 0x07FF ≠ 0 then none
  else if image.getD 0 0 ≠ 0xEB ∨ image.getD 12 0 ≠ 0x08 then none
  else
    let size := (n + 0x00280000) &&& 0xFFF00000
    match buffer with
    | none => none
    | some buffer =>
      let b : Bytes := fun k => if k < n then image.getD k 0 else buffer k
      let b := b.fill n 0 (size - n)
      let b := b.copy 0x80000 b 0 n
      let b := b.fill 0 0 0x80000
      let writes := isoWrites t eltorito uefi n size
      some ⟨size, writes.foldl put b, writes⟩

/-! ## ECMA-119 -/

def beWord (b : Bytes) (p : Nat) : Nat := 256 * (b p).toNat + (b (p + 1)).toNat

def beDword (b : Bytes) (p : Nat) : Nat := 65536 * beWord b p + beWord b (p + 2)

/-- The directory records from `p` on, each behind the one before. -/
def recordsFrom (b : Bytes) : Nat → Nat → List Nat
  | 0, _ => []
  | fuel + 1, p => if b p = 0 then [] else p :: recordsFrom b fuel (p + (b p).toNat)

def records (b : Bytes) : List Nat := recordsFrom b 60 (b.dword 0x809E * 2048)

/-- The extents, by their first block and their size: of the directory, and of
the entries of the boot catalog. -/
def extents (b : Bytes) (uefi : Bool) : List (Nat × Nat) :=
  (records b).map (fun p => (b.dword (p + 2), b.dword (p + 10))) ++
    [(b.dword 0x8847, 2048), (b.dword 0x40028, b.word 0x40026 * 512)] ++
      if uefi then [(b.dword 0x40068, b.word 0x40066 * 512)] else []

def extentBytes (b : Bytes) (e : Nat × Nat) : List UInt8 :=
  (range e.2).map fun k => b (e.1 * 2048 + k)

structure Right (iso : IsoImage) (eltorito : Fin 2048 → UInt8) (image : List UInt8) (uefi : Bool) :
    Prop where
  written : ∀ w ∈ iso.writes, w.1 + w.2.length ≤ iso.size
  copied : 0x80000 + image.length ≤ iso.size
  inside : ∀ e ∈ extents iso.bytes uefi, e.1 * 2048 + e.2 ≤ iso.size
  disjoint : ∀ e ∈ extents iso.bytes uefi, ∀ e' ∈ extents iso.bytes uefi, e = e' ∨
    e.1 * 2048 + e.2 ≤ e'.1 * 2048 ∨ e'.1 * 2048 + e'.2 ≤ e.1 * 2048
  held : ((records iso.bytes).drop 3).map (fun p =>
    extentBytes iso.bytes (iso.bytes.dword (p + 2), iso.bytes.dword (p + 10))) =
      [image, ofFn eltorito, readmeTxt]
  volume : iso.bytes.dword 0x8050 = iso.size / 2048
  orders : ∀ p ∈ [0x8050, 0x8084] ++ (0x809C :: records iso.bytes).flatMap fun p => [p + 2, p + 10],
    iso.bytes.dword p = beDword iso.bytes (p + 4)
  orders16 : ∀ p ∈ [0x8078, 0x807C, 0x8080] ++ (0x809C :: records iso.bytes).map (· + 0x1C),
    iso.bytes.word p = beWord iso.bytes (p + 2)
  sectors : uefi = true → iso.bytes.word 0x40066 * 512 = image.length

variable {t : Timestamp} {eltorito : Fin 2048 → UInt8} {image : List UInt8} {uefi : Bool}
  {buffer : Option Bytes} {iso : IsoImage} {b : Bytes} {n size v : Nat}

theorem foldl_put {ws : List Write} {k : Nat} (h : ∀ w ∈ ws, k < w.1) :
    ws.foldl put b k = b k := by
  induction ws generalizing b with
  | nil => rfl
  | cons w ws ih =>
    have hw := h w (by simp)
    rw [foldl_cons, ih fun w' hw' => h w' (by simp [hw']), put, if_neg (by omega)]

theorem mem_layoutWrites {w : Write} (h : w ∈ layoutWrites t eltorito uefi n size) :
    0x8054 ≤ w.1 := by
  have hall : ((layoutWrites t eltorito uefi n size).map Prod.fst).all (0x8054 ≤ ·) := by
    cases uefi <;>
      simp only [layoutWrites, record, le16, le32, be32, stamp1, stamp2,
        map_append, map_cons, if_pos, Bool.false_eq_true, if_false] <;>
      decide
  simpa using all_eq_true.1 hall w.1 (mem_map_of_mem h)

theorem dword_put_le32 {p : Nat} (hv : v < 4294967296) : (put b (le32 p v)).dword p = v := by
  have hbyte : ∀ k, k < 4 → put b (le32 p v) (p + k) = UInt8.ofNat (v / 256 ^ k) := by
    intro k hk
    rw [put, if_pos (by simp [le32]; omega)]
    match k, hk with
    | 0, _ | 1, _ | 2, _ | 3, _ => simp [le32]
  have h0 := hbyte 0 (by omega)
  have h1 := hbyte 1 (by omega)
  have h2 := hbyte 2 (by omega)
  have h3 := hbyte 3 (by omega)
  simp only [add_zero] at h0
  simp only [Bytes.dword, Bytes.word, h0, h1, h2, h3, UInt8.toNat_ofNat']
  omega

/-- The field holds the size in bytes. -/
theorem createIso_volume (h : createIso t eltorito image uefi buffer = some iso) :
    iso.bytes.dword 0x8050 = iso.size ∧ 0x200000 ≤ iso.size := by
  simp only [createIso] at h
  split_ifs at h with hmin hmax halign hformat
  cases buffer with
  | none => cases h
  | some buffer =>
    obtain rfl := Option.some.inj h
    have hmask := and_high_bits (n := 32) (k := 20) (x := image.length + 0x00280000) (by decide)
      (by omega)
    generalize hsize : (image.length + 0x00280000) &&& 0xFFF00000 = size at hmask ⊢
    refine ⟨?_, by simp only; omega⟩
    calc Bytes.dword _ 0x8050 = (put _ (le32 0x8050 size)).dword 0x8050 := by
          simp only [isoWrites, foldl_append, foldl_cons]
          refine Bytes.dword_congr fun k hk => foldl_put fun w hw => ?_
          have := mem_layoutWrites hw
          omega
      _ = size := dword_put_le32 (by omega)

/-- No accepted image gets the number of its blocks as the volume space size. -/
theorem not_right (h : createIso t eltorito image uefi buffer = some iso) :
    ¬Right iso eltorito image uefi := by
  intro hright
  have hvolume := hright.volume
  obtain ⟨hfield, hsize⟩ := createIso_volume h
  omega

/-- A smallest image: the first byte, the sectors per block and zeros. -/
def smallest : List UInt8 :=
  0xEB :: replicate 11 0 ++ 0x08 :: replicate 2035 0

theorem createIso_smallest : ∃ iso, createIso t eltorito smallest uefi (some b) = some iso := by
  have hlength : smallest.length = 2048 := by
    simp only [smallest, length_append, length_cons, length_replicate]
  refine Option.isSome_iff_exists.1 ?_
  simp only [createIso, hlength]
  rfl

theorem not_right_smallest : ∃ iso, createIso ⟨fun _ => 0x30, fun _ => 0⟩ (fun _ => 0) smallest true
    (some fun _ => 0) = some iso ∧ ¬Right iso (fun _ => 0) smallest true := by
  obtain ⟨iso, h⟩ := @createIso_smallest ⟨fun _ => 0x30, fun _ => 0⟩ (fun _ => 0) true fun _ => 0
  exact ⟨iso, h, not_right h⟩

/-- The smallest image gets 2 MiB as the number of its blocks. -/
theorem volume_in_bytes : ¬∀ t eltorito image uefi buffer iso,
    createIso t eltorito image uefi buffer = some iso → Right iso eltorito image uefi := by
  intro h
  obtain ⟨iso, hiso⟩ := @createIso_smallest ⟨fun _ => 0x30, fun _ => 0⟩ (fun _ => 0) false fun _ => 0
  have hvolume := (h _ _ _ _ _ _ hiso).volume
  have hfield := createIso_volume hiso
  omega

end Dancy.Iso
