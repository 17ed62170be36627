import Dancy.Lib.Run

/-!
# Hard disk partitions (`misc/hdd_part.c`)

A disk answers each read of a sector with a code, a size and what the buffer
holds then; nothing is assumed about the answers, so the tables of the disk
are any bytes at all. Offsets and sizes are 64-bit numbers, sums wrap.
-/

namespace Dancy.Disk

open List Function Option

abbrev Buffer := Nat → UInt8

def w64 (x : Nat) : Nat := x % 2 ^ 64

/-- `LE32(&b[i])` -/
def le32 (b : Buffer) (i : Nat) : Nat :=
  (b i).toNat + (b (i + 1)).toNat * 2 ^ 8 + (b (i + 2)).toNat * 2 ^ 16 +
    (b (i + 3)).toNat * 2 ^ 24

structure HddPartition where
  (offset size legacyType : Nat)
deriving DecidableEq

structure HddLegacyEntry where
  (status type lba sectors : Nat)

/-- The `DE_*` codes of these functions. -/
inductive Code where
  | ok
  | unsupported
  | blockRead
  | busy
  | node (r : Nat)
deriving DecidableEq

/-- An answer of `n_read`. `error` is what it returns when it fails. -/
structure ReadReply where
  error : Option Nat
  size : Nat
  buffer : Buffer

/-- The disk: its answer to the `k`-th read, which is at `offset`. -/
structure Device where
  (size blockSize : Nat)
  read : (k offset : Nat) → ReadReply

def hddPartitionCount : Nat := 32

/-- `hdd_args`: the offset and the size for the device, `none` when the
offset is at the end of the partition or behind it. -/
def hddArgs (hp : HddPartition) (offset size : Nat) : Option (Nat × Nat) :=
  if hp.size ≤ offset then none
  else
    some (w64 (hp.offset + offset), if hp.size - offset < size then hp.size - offset else size)

/-- The loop over the two CHS addresses: one of them, `none` without a
sector number. -/
def chsOf (b : Buffer) (p : Nat) : Option (List Nat) :=
  let b0 := (b p).toNat
  let b1 := (b (p + 1)).toNat
  let b2 := (b (p + 2)).toNat
  if b1 &&& 0x3F = 0 then none
  else some [b2 ||| ((b1 &&& 0xC0) <<< 2), b0, b1 &&& 0x3F]

/-- The last loop over an entry: the first address is not after the last. -/
def chsOrdered : List Nat → List Nat → Bool
  | a :: as, b :: bs => if a < b then true else if b < a then false
      else chsOrdered as bs
  | _, _ => true

def isExtended (type : Nat) : Bool := type = 0x05 || type = 0x0F

/-- One entry of `read_legacy_table`; `found` tells if there was an extended
partition before. -/
def readLegacyEntry (b : Buffer) (ebrMode : Bool) (i : Nat) (found : Bool) :
    Option HddLegacyEntry :=
  let p := 446 + i * 16
  let e : HddLegacyEntry := ⟨(b p).toNat, (b (p + 4)).toNat, le32 b (p + 8), le32 b (p + 12)⟩
  if 0x01 ≤ e.status ∧ e.status ≤ 0x7F then none
  else if e.type = 0 then
    if e.lba ≠ 0 ∨ e.sectors ≠ 0 then none else some e
  else if 2 ≤ i ∧ ebrMode = true then none
  else if isExtended e.type = true ∧ found = true then none
  else if e.lba = 0 ∨ e.sectors = 0 then none
  else
    match chsOf b (p + 1), chsOf b (p + 5) with
    | some c0, some c1 => if chsOrdered c0 c1 then some e else none
    | _, _ => none

def readLegacyEntries (b : Buffer) (ebrMode : Bool) (found : Bool) :
    List Nat → Option (List HddLegacyEntry)
  | [] => some []
  | i :: is =>
    match readLegacyEntry b ebrMode i found with
    | none => none
    | some e =>
      (readLegacyEntries b ebrMode (found || isExtended e.type) is).map
        (e :: ·)

/-- `read_legacy_table`; `none` stands for `DE_UNSUPPORTED`. -/
def readLegacyTable (b : Buffer) (ebrMode : Bool) :
    Option (List HddLegacyEntry) :=
  if b 510 ≠ 0x55 ∨ b 511 ≠ 0xAA then none
  else readLegacyEntries b ebrMode false [0, 1, 2, 3]

/-- `read_sector`: its code and the buffer. The size of the answer is looked
at only when the read failed. -/
def readSector (dev : Device) (k lba : Nat) : Code × Buffer :=
  let reply := dev.read k (w64 (lba * dev.blockSize))
  match reply.error with
  | none => (.ok, reply.buffer)
  | some _ =>
    if reply.size ≠ dev.blockSize then (.blockRead, reply.buffer)
    else (.ok, reply.buffer)

abbrev Partitions := Nat → HddPartition

/-- The loop over the primary partitions, and the extended one among them. -/
def primary (dev : Device) :
    List (Nat × HddLegacyEntry) → Partitions → Option HddLegacyEntry →
      Option (Partitions × Option HddLegacyEntry)
  | [], ps, ebr => some (ps, ebr)
  | (i, e) :: es, ps, ebr =>
    if e.type = 0 then primary dev es ps ebr
    else
      let offset := e.lba * 512
      let size := e.sectors * 512
      if dev.size < w64 (offset + size) then none
      else if isExtended e.type then primary dev es ps (some e)
      else primary dev es
        (update ps (i + 1) ⟨offset, size, e.type⟩) ebr

/-- The entry of an extended boot record at `lba`: the partitions with it,
`none` when it does not fit into the device. -/
def logical (dev : Device) (lba ebrCount : Nat) (e : HddLegacyEntry)
    (ps : Partitions) : Option Partitions :=
  let offset := w64 ((lba + e.lba) * 512)
  let size := e.sectors * 512
  if dev.size < w64 (offset + size) then none
  else if hddPartitionCount ≤ ebrCount + 1 + 4 then some ps
  else some (update ps (ebrCount + 1 + 4) ⟨offset, size, e.type⟩)

/-- The loop over the extended boot records, the next one at `lba`; `none`
when it does not end within `fuel` records (they can form a cycle). -/
def extended (dev : Device) (base : Nat) :
    (fuel lba ebrCount k : Nat) → Partitions → Option (Code × Partitions)
  | 0, _, _, _, _ => none
  | fuel + 1, lba, ebrCount, k, ps =>
    match readSector dev k lba with
    | (.ok, buffer) =>
      match readLegacyTable buffer true with
      | some (e :: ebr :: _) =>
        if e.type = 0 then
          extendedNext fuel ebr ebrCount (k + 1) ps
        else
          match logical dev lba ebrCount e ps with
          | none => some (.unsupported, ps)
          | some ps =>
            if hddPartitionCount ≤ ebrCount + 1 + 4 then some (.ok, ps)
            else extendedNext fuel ebr (ebrCount + 1) (k + 1) ps
      | _ => some (.unsupported, ps)
    | (r, _) => some (r, ps)
where
  /-- The end of the loop: on to the record `ebr`. -/
  extendedNext (fuel : Nat) (ebr : HddLegacyEntry) (ebrCount k : Nat)
      (ps : Partitions) : Option (Code × Partitions) :=
    if isExtended ebr.type = false then some (.ok, ps)
    else if 0xFFFFFFFF < base + ebr.lba then some (.unsupported, ps)
    else extended dev base fuel (base + ebr.lba) ebrCount k ps

/-- `handle_legacy`, with the sector 0 in the buffer. -/
def handleLegacy (dev : Device) (fuel : Nat) (buffer : Buffer)
    (ps : Partitions) : Option (Code × Partitions) :=
  match readLegacyTable buffer false with
  | none => some (.unsupported, ps)
  | some table =>
    match primary dev ((range 4).zip table) ps none with
    | none => some (.unsupported, ps)
    | some (ps, none) => some (.ok, ps)
    | some (ps, some ebr) => extended dev ebr.lba fuel ebr.lba 0 2 ps

/-! ## Mounting -/

def indices : List Nat := range' 1 (hddPartitionCount - 1)

/-- The test of two partitions in `handle_device`, of which the second is in
use. -/
def clash (ps : Partitions) (i j : Nat) : Bool :=
  let t0 := (ps j).offset
  let t1 := (ps i).offset
  (t0 = t1 && j ≠ i) || (t0 < t1 && t1 < w64 (t0 + (ps j).size))

def anyClash (ps : Partitions) : Bool :=
  indices.any fun i => (ps i).offset ≠ 0 && indices.any fun j => clash ps i j

/-- The last loop of `handle_device`. `mount` is what `mount_partition`
returns; the list is that of the partitions that have a node now. -/
def mountAll (mount : Nat → Code) (ps : Partitions) :
    List Nat → Code × List HddPartition
  | [] => (.ok, [])
  | i :: is =>
    if (ps i).offset = 0 then mountAll mount ps is
    else
      match mount i with
      | .ok =>
        let r := mountAll mount ps is
        (r.1, ps i :: r.2)
      | .busy => mountAll mount ps is
      | r => (r, [])

/-- `memcmp(dev_partition->pointer, "EFI PART", 8)` is zero. -/
def isGuid (b : Buffer) : Bool :=
  ['E', 'F', 'I', ' ', 'P', 'A', 'R', 'T'].zipIdx.all
    fun p => (b p.2).toNat = p.1.toNat

/-- `handle_device`: its code and the partitions that it mounted. A GUID
table is not supported. -/
def handleDevice (dev : Device) (mount : Nat → Code) (fuel : Nat) :
    Option (Code × List HddPartition) :=
  match readSector dev 0 1 with
  | (.ok, buffer) =>
    if isGuid buffer then some (.unsupported, [])
    else
      match readSector dev 1 0 with
      | (.ok, buffer) =>
        match handleLegacy dev fuel buffer fun _ => ⟨0, 0, 0⟩ with
        | none => none
        | some (.ok, ps) =>
          if anyClash ps then some (.unsupported, [])
          else some (mountAll mount ps indices)
        | some (r, _) => some (r, [])
      | (r, _) => some (r, [])
  | (r, _) => some (r, [])

/-- A table entry that can be a partition: whole sectors inside the device. -/
structure Fits (dev : Device) (p : HddPartition) : Prop where
  sectors : ∃ lba n, p.offset = lba * 512 ∧ p.size = n * 512 ∧ 0 < lba ∧ 0 < n
  bound : p.offset + p.size ≤ dev.size
  nowrap : p.offset + p.size < 2 ^ 64

def AllFit (dev : Device) (ps : Partitions) : Prop :=
  ∀ i, (ps i).offset ≠ 0 ∨ (ps i).size ≠ 0 → Fits dev (ps i)

variable {dev : Device} {ps ps' : Partitions}

theorem w64_eq {x : Nat} (h : x < 2 ^ 64) : w64 x = x := Nat.mod_eq_of_lt h

theorem le32_lt (b : Buffer) (i : Nat) : le32 b i < 2 ^ 32 := by
  have h0 := (b i).toNat_lt
  have h1 := (b (i + 1)).toNat_lt
  have h2 := (b (i + 2)).toNat_lt
  have h3 := (b (i + 3)).toNat_lt
  unfold le32
  omega

structure EntryOk (e : HddLegacyEntry) : Prop where
  lba_lt : e.lba < 2 ^ 32
  sectors_lt : e.sectors < 2 ^ 32
  used : e.type ≠ 0 → e.lba ≠ 0 ∧ e.sectors ≠ 0

variable {b : Buffer} {ebrMode : Bool} {e : HddLegacyEntry} {lba n fuel : Nat} {p : HddPartition}
  {r : Code}

theorem entryOk_of_read {found : Bool} {i : Nat} (h : readLegacyEntry b ebrMode i found = some e) :
    EntryOk e := by
  unfold readLegacyEntry at h
  dsimp only at h
  split at h
  · cases h
  split at h
  · next h0 =>
    split at h
    · cases h
    · cases h
      exact ⟨le32_lt _ _, le32_lt _ _, fun hne => absurd h0 hne⟩
  iterate 3
    split at h
    · cases h
  next hz =>
  split at h
  · split at h
    · cases h
      exact ⟨le32_lt _ _, le32_lt _ _, fun _ => not_or.1 hz⟩
    · cases h
  · cases h

theorem entryOk_of_entries {found : Bool} {is : List Nat} {es : List HddLegacyEntry}
    (h : readLegacyEntries b ebrMode found is = some es) :
    ∀ e ∈ es, EntryOk e := by
  induction is generalizing found es with
  | nil =>
    rw [readLegacyEntries, some.injEq] at h
    subst h
    simp
  | cons i is ih =>
    rw [readLegacyEntries] at h
    split at h
    · cases h
    next e he =>
    obtain ⟨es', hes', rfl⟩ := Option.map_eq_some_iff.1 h
    intro x hx
    rcases mem_cons.1 hx with rfl | hx
    · exact entryOk_of_read he
    · exact ih hes' x hx

theorem entryOk_of_table {es : List HddLegacyEntry} (h : readLegacyTable b ebrMode = some es) :
    ∀ e ∈ es, EntryOk e := by
  unfold readLegacyTable at h
  split at h
  · cases h
  · exact entryOk_of_entries h

/-! ## The array of partitions -/

/-- An entry that passes the test against the size of the device fits. The
sums are far below the point where they wrap. -/
theorem fits_of_check {t : Nat} (hlba : 0 < lba) (hn : 0 < n) (hlba' : lba < 2 ^ 33)
    (hn' : n < 2 ^ 32) (h : ¬ dev.size < w64 (lba * 512 + n * 512)) :
    Fits dev ⟨lba * 512, n * 512, t⟩ := by
  have hlt : lba * 512 + n * 512 < 2 ^ 64 := by omega
  rw [w64_eq hlt] at h
  exact ⟨⟨lba, n, rfl, rfl, hlba, hn⟩, not_lt.1 h, hlt⟩

theorem AllFit.update (h : AllFit dev ps) (hp : Fits dev p) (i : Nat) :
    AllFit dev (update ps i p) := by
  intro j hj
  by_cases hji : j = i
  · subst hji
    rwa [update_self]
  · rw [update_of_ne hji] at hj ⊢
    exact h j hj

/-- What `primary` makes of the entries of a table fits, and an extended
partition that it finds is one of them. -/
theorem primary_spec {es : List (Nat × HddLegacyEntry)} {ebr ebr' : Option HddLegacyEntry}
    (hes : ∀ x ∈ es, EntryOk x.2) (hp : primary dev es ps ebr = some (ps', ebr')) :
    (AllFit dev ps → AllFit dev ps') ∧
      ((∀ e ∈ ebr, EntryOk e) → ∀ e ∈ ebr', EntryOk e) := by
  induction es generalizing ps ebr with
  | nil =>
    simp only [primary, some.injEq, Prod.mk.injEq] at hp
    obtain ⟨rfl, rfl⟩ := hp
    exact ⟨id, id⟩
  | cons x es ih =>
    obtain ⟨i, e⟩ := x
    have hok : EntryOk e := hes (i, e) mem_cons_self
    have hes' : ∀ x ∈ es, EntryOk x.2 := fun x hx => hes x (.tail _ hx)
    rw [primary] at hp
    split at hp
    · exact ih hes' hp
    next htype =>
    obtain ⟨h1, h2⟩ := hok.used htype
    have hlba := hok.lba_lt
    simp only at hp
    split at hp
    · cases hp
    next hfit =>
    split at hp
    · exact (ih hes' hp).imp_right fun h _ => h fun _ h => by cases h; exact hok
    · have := fits_of_check (t := e.type) (Nat.pos_of_ne_zero h1)
        (Nat.pos_of_ne_zero h2) (by omega) hok.sectors_lt hfit
      exact (ih hes' hp).imp_left fun h' h => h' (h.update this (i + 1))

theorem allFit_logical {ebrCount : Nat} (h : AllFit dev ps) (hok : EntryOk e) (htype : e.type ≠ 0)
    (hlba : lba < 2 ^ 32) (hl : logical dev lba ebrCount e ps = some ps') :
    AllFit dev ps' := by
  obtain ⟨h1, h2⟩ := hok.used htype
  have hlba' := hok.lba_lt
  unfold logical at hl
  simp only [w64_eq (show (lba + e.lba) * 512 < 2 ^ 64 by omega)] at hl
  split at hl
  · cases hl
  next hfit =>
  split at hl
  · rwa [← some.inj hl]
  · rw [← some.inj hl]
    exact h.update (fits_of_check (by omega) (Nat.pos_of_ne_zero h2)
      (by omega) hok.sectors_lt hfit) _

theorem allFit_extended {base ebrCount k : Nat} (h : AllFit dev ps) (hlba : lba < 2 ^ 32)
    (he : extended dev base fuel lba ebrCount k ps = some (r, ps')) :
    AllFit dev ps' := by
  induction fuel generalizing lba ebrCount k ps with
  | zero => rw [extended] at he; cases he
  | succ fuel ih =>
    have hnext : ∀ ebr ebrCount ps, AllFit dev ps →
        extended.extendedNext dev base fuel ebr ebrCount (k + 1) ps =
          some (r, ps') → AllFit dev ps' := by
      intro ebr ebrCount ps h he
      unfold extended.extendedNext at he
      split at he
      · simp only [some.injEq, Prod.mk.injEq] at he
        rwa [← he.2]
      split at he
      · simp only [some.injEq, Prod.mk.injEq] at he
        rw [← he.2]
        exact h
      · next hbase => exact ih h (by omega) he
    rw [extended] at he
    split at he
    · next buffer _ =>
      split at he
      · next e ebr _ htable =>
        have hok : EntryOk e := entryOk_of_table htable e mem_cons_self
        split at he
        · exact hnext ebr ebrCount ps h he
        next htype =>
        split at he
        · simp only [some.injEq, Prod.mk.injEq] at he
          rwa [← he.2]
        next ps1 hl =>
        have h1 := allFit_logical h hok htype hlba hl
        split at he
        · simp only [some.injEq, Prod.mk.injEq] at he
          rw [← he.2]
          exact h1
        · exact hnext ebr (ebrCount + 1) ps1 h1 he
      · simp only [some.injEq, Prod.mk.injEq] at he
        rwa [← he.2]
    · simp only [some.injEq, Prod.mk.injEq] at he
      rw [← he.2]
      exact h

theorem allFit_handleLegacy {buffer : Buffer} (h : AllFit dev ps)
    (hl : handleLegacy dev fuel buffer ps = some (r, ps')) :
    AllFit dev ps' := by
  unfold handleLegacy at hl
  split at hl
  · simp only [some.injEq, Prod.mk.injEq] at hl
    rwa [← hl.2]
  next table htable =>
  have hes : ∀ x ∈ (range 4).zip table, EntryOk x.2 := fun x hx =>
    entryOk_of_table htable x.2 (of_mem_zip hx).2
  split at hl
  · simp only [some.injEq, Prod.mk.injEq] at hl
    rw [← hl.2]
    exact h
  · next ps1 hp =>
    simp only [some.injEq, Prod.mk.injEq] at hl
    rw [← hl.2]
    exact (primary_spec hes hp).1 h
  · next ps1 ebr hp =>
    obtain ⟨hfit, hebr⟩ := primary_spec hes hp
    have hok := hebr (fun _ h => by cases h) ebr rfl
    exact allFit_extended (hfit h) hok.lba_lt hl

def Apart (p q : HddPartition) : Prop :=
  p.offset + p.size ≤ q.offset ∨ q.offset + q.size ≤ p.offset

theorem mountAll_spec (mount : Nat → Code) (ps : Partitions) (is : List Nat) :
    ∃ js : List Nat, js.Sublist is ∧ (mountAll mount ps is).2 = js.map ps ∧
      ∀ j ∈ js, (ps j).offset ≠ 0 := by
  induction is with
  | nil => exact ⟨[], List.Sublist.refl _, rfl, by simp⟩
  | cons i is ih =>
    obtain ⟨js, hsub, heq, hne⟩ := ih
    rw [mountAll]
    split
    · exact ⟨js, hsub.cons i, heq, hne⟩
    next hi =>
    split
    · refine ⟨i :: js, hsub.cons_cons i, ?_, ?_⟩
      · show ps i :: (mountAll mount ps is).2 = _
        rw [heq, map_cons]
      intro j hj
      rcases mem_cons.1 hj with rfl | hj
      · exact hi
      · exact hne j hj
    · exact ⟨js, hsub.cons i, heq, hne⟩
    · simp

theorem apart_of_not_clash (h : AllFit dev ps) (hc : anyClash ps = false)
    {i j : Nat} (hi : i ∈ indices) (hj : j ∈ indices) (hij : i ≠ j)
    (hi0 : (ps i).offset ≠ 0) (hj0 : (ps j).offset ≠ 0) :
    Apart (ps i) (ps j) := by
  have hno : ∀ i ∈ indices, ∀ j ∈ indices, (ps i).offset ≠ 0 → clash ps i j = false := by
    intro i hi j hj h0
    unfold anyClash at hc
    rw [List.any_eq_false] at hc
    have := hc i hi
    simp only [ne_eq, h0, not_false_eq_true, decide_true, Bool.true_and,
      Bool.not_eq_true, List.any_eq_false] at this
    exact this j hj
  have hij' := hno i hi j hj hi0
  have hji' := hno j hj i hi hj0
  have hfi := (h i (.inl hi0)).nowrap
  have hfj := (h j (.inl hj0)).nowrap
  simp only [clash, Bool.or_eq_false_iff, Bool.and_eq_false_iff,
    decide_eq_false_iff_not, w64_eq hfi, w64_eq hfj] at hij' hji'
  unfold Apart
  omega

theorem handleDevice_spec {mount : Nat → Code} {mounted : List HddPartition}
    (h : handleDevice dev mount fuel = some (r, mounted)) :
    mounted.Pairwise Apart ∧ ∀ p ∈ mounted, Fits dev p := by
  have hnil : mounted = [] → mounted.Pairwise Apart ∧ ∀ p ∈ mounted, Fits dev p := by
    rintro rfl
    simp
  unfold handleDevice at h
  split at h
  · split at h
    · exact hnil (by simpa using (congrArg Prod.snd (some.inj h)).symm)
    split at h
    · split at h
      · cases h
      · next ps hlegacy =>
        have hfit : AllFit dev ps := allFit_handleLegacy (fun i hi => by simp at hi) hlegacy
        split at h
        · exact hnil
            (by simpa using (congrArg Prod.snd (some.inj h)).symm)
        next hclash =>
        obtain ⟨js, hsub, heq, hne⟩ := mountAll_spec mount ps indices
        have hm : mounted = js.map ps := by
          rw [← heq, some.inj h]
        have hnodup : js.Nodup := hsub.nodup nodup_range'
        rw [hm]
        constructor
        · rw [pairwise_map]
          refine hnodup.imp_of_mem ?_
          intro i j hi hj hij
          exact apart_of_not_clash hfit (by simpa using hclash)
            (hsub.subset hi) (hsub.subset hj) hij (hne i hi) (hne j hj)
        · intro p hp
          obtain ⟨j, hj, rfl⟩ := mem_map.1 hp
          exact hfit j (.inl (hne j hj))
      · exact hnil
          (by simpa using (congrArg Prod.snd (some.inj h)).symm)
    · exact hnil
        (by simpa using (congrArg Prod.snd (some.inj h)).symm)
  · exact hnil (by simpa using (congrArg Prod.snd (some.inj h)).symm)

/-! ## Accesses -/

/-- The 512-byte sector `q` has a byte of an access. -/
def Touches (offset size q : Nat) : Prop :=
  ∃ x, offset ≤ x ∧ x < offset + size ∧ x / 512 = q

/-- The sector `q` belongs to the partition. -/
def HasSector (p : HddPartition) (q : Nat) : Prop :=
  p.offset ≤ q * 512 ∧ q * 512 + 512 ≤ p.offset + p.size

theorem hddArgs_inside (hp : Fits dev p) {offset size o : Nat}
    (h : hddArgs p offset size = some (o, n)) :
    p.offset ≤ o ∧ o + n ≤ p.offset + p.size := by
  have hwrap := hp.nowrap
  unfold hddArgs at h
  split at h
  · cases h
  · obtain ⟨rfl, rfl⟩ := h
    rw [w64_eq (by omega)]
    split <;> omega

theorem hasSector_of_touches (hp : Fits dev p) {o q : Nat} (h1 : p.offset ≤ o)
    (h2 : o + n ≤ p.offset + p.size) (hq : Touches o n q) : HasSector p q := by
  obtain ⟨x, hx1, hx2, rfl⟩ := hq
  obtain ⟨lba, m, hoff, hsize, -, -⟩ := hp.sectors
  unfold HasSector
  omega

/-- The partitions mounted on one disk are pairwise disjoint and inside the
device, and every translated access stays inside the sectors of its
partition. -/
theorem partitions_isolated {mount : Nat → Code} {fuel : Nat} {r : Code}
    {mounted : List HddPartition}
    (h : handleDevice dev mount fuel = some (r, mounted)) :
    mounted.Pairwise Apart ∧
    (∀ p ∈ mounted, p.offset + p.size ≤ dev.size) ∧
    ∀ p ∈ mounted, ∀ offset size o n, hddArgs p offset size = some (o, n) →
      (p.offset ≤ o ∧ o + n ≤ p.offset + p.size) ∧ ∀ q, Touches o n q → HasSector p q := by
  obtain ⟨hapart, hfit⟩ := handleDevice_spec h
  refine ⟨hapart, fun p hp => (hfit p hp).bound, ?_⟩
  intro p hp offset size o n hargs
  have hin := hddArgs_inside (hfit p hp) hargs
  exact ⟨hin, fun q hq => hasSector_of_touches (hfit p hp) hin.1 hin.2 hq⟩

/-- A disk of 128 sectors with two primary partitions of eight sectors. -/
def twoPartitions : Device where
  size := 0x10000
  blockSize := 512
  read _ _ := ⟨none, 512, fun i =>
    if i = 448 ∨ i = 452 ∨ i = 464 ∨ i = 468 then 1
    else if i = 450 ∨ i = 466 then 0x83
    else if i = 454 then 1 else if i = 470 then 9
    else if i = 458 ∨ i = 474 then 8
    else if i = 510 then 0x55 else if i = 511 then 0xAA else 0⟩

theorem partitions_isolated_two :
    Apart ⟨512, 4096, 0x83⟩ ⟨4608, 4096, 0x83⟩ ∧ HasSector ⟨4608, 4096, 0x83⟩ 16 := by
  have hd : handleDevice twoPartitions (fun _ => .ok) 0 =
      some (.ok, [⟨512, 4096, 0x83⟩, ⟨4608, 4096, 0x83⟩]) := by decide
  obtain ⟨hapart, -, hargs⟩ := partitions_isolated hd
  refine ⟨(pairwise_cons.1 hapart).1 _ (by simp), ?_⟩
  exact (hargs ⟨4608, 4096, 0x83⟩ (by simp) 3600 5000 8208 496
    (by decide)).2 16 ⟨8208, by decide⟩

end Dancy.Disk
