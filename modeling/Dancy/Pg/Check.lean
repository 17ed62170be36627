import Dancy.Pg.Tables

/-!
# Checks of user pointers

`pg_check_user` steps over the pages of a range, `pg_check_user_string`
and `pg_check_user_vector` over bytes and pointers, checking a page where
it begins. A page of the stack window that is not there is mapped on
demand. Addresses are `addr_t`: sums are taken modulo `2 ^ 64`.
-/

namespace Dancy.Pg

open Dancy.Mm List Option

/-- The `DE_*` codes of these functions; the return value `0` is `none`. -/
inductive PgCode where
  | access
  | address
  | readOnly
  | overflow
  | alignment

def stackMin : Nat := 0x78000000
def stackMax : Nat := 0x7FFFFFFF

/-- The number of values of `addr_t`. -/
def addrTop : Nat := 0x10000000000000000

/-- The entry `pg_get_entry` points to. -/
def entryAt (mem : PageMem) (cr3 a : Nat) : Option Nat :=
  (pgGetEntry mem cr3 a).map fun p => mem p.1 p.2

/-- The demand mapping of `pg_check_user`: the entry it ends with. -/
def pgDemandPage (s : PgState) (cr3 a : Nat) : Except PgCode Nat × PgState :=
  if a < stackMin ∨ a > stackMax then (.error .address, s)
  else
    let r := mmAllocPage s.mm
    let s := s.take r
    if r.1 = 0 then (.error .address, s)
    else
      let s := s.zeroFrame (r.1 / 0x1000)
      let s := { s with userMemory := s.userMemory + 0x1000 }
      match pgMapVirtual s cr3 a r.1 pgNoexec with
      | (true, s) =>
        let s := s.freePage r.1
        (.error .address, { s with userMemory := s.userMemory - 0x1000 })
      | (false, s) =>
        match entryAt s.mem cr3 a with
        | none => (.error .address, s)
        | some e => if present e then (.ok e, s) else (.error .address, s)

/-- The entry of a page, after demand mapping. An entry that is not present
and not zero, as `unsigned int`, stands for a blocked page. -/
def pgFindPage (s : PgState) (cr3 a : Nat) : Except PgCode Nat × PgState :=
  match entryAt s.mem cr3 a with
  | none => pgDemandPage s cr3 a
  | some e =>
    if present e then (.ok e, s)
    else if e % 0x100000000 ≠ 0 then (.error .access, s)
    else pgDemandPage s cr3 a

/-- The body of the loop of `pg_check_user`. -/
def pgCheckPage (s : PgState) (cr3 a : Nat) (rw : Bool) : Option PgCode × PgState :=
  match pgFindPage s cr3 a with
  | (.error code, s) => (some code, s)
  | (.ok e, s) =>
    if !userBit e then (some .access, s)
    else if rw && !writable e then (some .readOnly, s)
    else (none, s)

/-- `do … while (a != e)`, for at most so many pages. -/
def pgCheckLoop (cr3 e : Nat) (rw : Bool) : Nat → PgState → Nat → Option PgCode × PgState
  | 0, s, _ => (some .address, s)
  | pages + 1, s, a =>
    match pgCheckPage s cr3 a rw with
    | (none, s) =>
      let a := (a + 0x1000) % addrTop
      if a ≠ e then pgCheckLoop cr3 e rw pages s a else (none, s)
    | (some code, s) => (some code, s)

/-- `pg_check_user`. There are `2 ^ 52` pages. -/
def pgCheckUser (s : PgState) (cr3 vaddr size : Nat) (rw : Bool) : Option PgCode × PgState :=
  let e := (vaddr + (if size > 0 then size - 1 else 0)) % addrTop
  if size = 0 ∨ vaddr < 0x10000000 ∨ vaddr > e then (some .access, s)
  else
    let a := vaddr / 0x1000 * 0x1000
    let e := (e / 0x1000 * 0x1000 + 0x1000) % addrTop
    pgCheckLoop cr3 e rw 0x10000000000000 s a

def pgCheckUserRead (s : PgState) (cr3 vaddr size : Nat) : Option PgCode × PgState :=
  pgCheckUser s cr3 vaddr size false

def pgCheckUserWrite (s : PgState) (cr3 vaddr size : Nat) : Option PgCode × PgState :=
  pgCheckUser s cr3 vaddr size true

/-- The pointer-sized word at an address; `none` is a page fault. -/
def readWord (mem : PageMem) (cr3 a : Nat) : Option Nat :=
  match entryAt mem cr3 a with
  | none => none
  | some e => if present e then some (mem (frameOf e) (a % 0x1000 / 8)) else none

def readByte (mem : PageMem) (cr3 a : Nat) : Option Nat :=
  (readWord mem cr3 a).map fun w => w / 256 ^ (a % 8) % 256

/-- The result of a scan: the return value, `*count`, and the values that
were read, in order. -/
structure ScanResult where
  code : Option PgCode
  count : Int
  reads : List Nat
  state : PgState

/-- The loop of the string and the vector check, `left` being how far
`*count` is from `INT_MAX`. Values are `width` bytes wide; `none` is a page
fault of the kernel. -/
def scanLoop (read : PageMem → Nat → Nat → Option Nat) (width cr3 : Nat) :
    Nat → PgState → Nat → Bool → Nat → List Nat → Option ScanResult
  | 0, s, _, _, count, reads => some ⟨some .overflow, count, reads, s⟩
  | left + 1, s, addr, checkPage, count, reads =>
    match if checkPage then pgCheckUserRead s cr3 addr 1 else (none, s) with
    | (none, s) =>
      match read s.mem cr3 addr with
      | none => none
      | some c =>
        if c = 0 then some ⟨none, count, reads ++ [c], s⟩
        else
          scanLoop read width cr3 left s ((addr + width) % addrTop)
            (addr % 0x1000 == 0x1000 - width) (count + 1) (reads ++ [c])
    | (some code, s) => some ⟨some code, count, reads, s⟩

def intMax : Nat := 0x7FFFFFFF

def pgCheckUserString (s : PgState) (cr3 vaddr : Nat) : Option ScanResult :=
  scanLoop readByte 1 cr3 intMax s vaddr true 0 []

def pgCheckUserVector (s : PgState) (cr3 vaddr : Nat) : Option ScanResult :=
  if vaddr % 8 ≠ 0 then some ⟨some .alignment, 0, [], s⟩
  else scanLoop readWord 8 cr3 intMax s vaddr true 0 []

/-! ## Pages of the user -/

/-- An entry that lets the user read, or write, through it. -/
structure UserEntry (rw : Bool) (e : Nat) : Prop where
  present : present e = true
  user : userBit e = true
  writable : rw = true → writable e = true

/-- The page of `b`: every level of the walk is present, and the entry of
the last one is the user's. -/
structure UserPage (mem : PageMem) (cr3 b : Nat) (rw : Bool) : Prop where
  base : userBase ≤ b
  limit : b < userLimit
  entry : ∃ t, tableAt mem (cr3 / 0x1000) b 3 = some t ∧ UserEntry rw (mem t (pgIndex b 3))

def UserPath (mem : PageMem) (cr3 b : Nat) (rw : Bool) : Prop :=
  ∀ k, k ≤ 3 → ∃ t, tableAt mem (cr3 / 0x1000) b k = some t ∧ UserEntry rw (mem t (pgIndex b k))

def Outside (b : Nat) : Prop := b < stackMin ∨ stackMax < b

def Kept (s s' : PgState) (cr3 : Nat) : Prop := s' = s ∨ Keeps s s' cr3

variable {s s' s'' : PgState} {cr3 a b : Nat} {rw : Bool}

theorem Kept.trans (h1 : Kept s s' cr3) (h2 : Kept s' s'' cr3) : Kept s s'' cr3 := by
  rcases h1 with rfl | h1
  · exact h2
  · rcases h2 with rfl | h2
    · exact .inr h1
    · exact .inr (h1.trans h2)

theorem Kept.tables (h : Kept s s' cr3) (ht : UserTables s cr3) : UserTables s' cr3 := by
  rcases h with rfl | h
  · exact ht
  · exact h.tables

theorem Kept.upper (h : Kept s s' cr3) (hu : UpperBits s.mem cr3) : UpperBits s'.mem cr3 := by
  rcases h with rfl | h
  · exact hu
  · exact h.upper hu

theorem Kept.page (h : Kept s s' cr3) (hp : UserPage s.mem cr3 b rw) :
    UserPage s'.mem cr3 b rw := by
  rcases h with rfl | h
  · exact hp
  · obtain ⟨t, ht, he⟩ := hp.entry
    refine ⟨hp.base, hp.limit, t, h.walks b 3 t hp.limit le_rfl ht, ?_⟩
    rwa [h.leaves b t hp.limit ht he.present]

theorem UserPage.present_at (hp : UserPage s.mem cr3 b rw) {k : Nat} (hk : k ≤ 3) :
    ∃ t, tableAt s.mem (cr3 / 0x1000) b k = some t ∧ present (s.mem t (pgIndex b k)) = true := by
  obtain ⟨t3, h3, he⟩ := hp.entry
  obtain ⟨t2, h2, hl2, -⟩ := tableAt_succ.mp h3
  obtain ⟨t1, h1, hl1, -⟩ := tableAt_succ.mp h2
  obtain ⟨t0, h0, hl0, -⟩ := tableAt_succ.mp h1
  rcases (by omega : k = 0 ∨ k = 1 ∨ k = 2 ∨ k = 3) with rfl | rfl | rfl | rfl
  · exact ⟨t0, h0, leads_present hl0⟩
  · exact ⟨t1, h1, leads_present hl1⟩
  · exact ⟨t2, h2, leads_present hl2⟩
  · exact ⟨t3, h3, he.present⟩

/-- With the upper levels as the kernel writes them, the user bits hold at
every level. -/
theorem UserPage.path (hp : UserPage s.mem cr3 b rw) (hu : UpperBits s.mem cr3) :
    UserPath s.mem cr3 b rw := by
  intro k hk
  rcases Nat.lt_or_eq_of_le hk with hlt | rfl
  · obtain ⟨t, ht, hpres⟩ := hp.present_at hk
    obtain ⟨huser, hwrite⟩ := hu b k t hp.base hp.limit hlt ht hpres
    exact ⟨t, ht, hpres, huser, fun _ => hwrite⟩
  · exact hp.entry

theorem pgIndex_page (h : a / 0x1000 = b / 0x1000) {k : Nat} (hk : k ≤ 3) :
    pgIndex a k = pgIndex b k := by
  simp only [pgIndex, Nat.shiftRight_eq_div_pow]
  have hsplit : ∀ x : Nat, x / 2 ^ (39 - 9 * k) = x / 0x1000 / 2 ^ (27 - 9 * k) := by
    intro x
    rw [Nat.div_div_eq_div_mul, show (0x1000 : Nat) = 2 ^ 12 from rfl, ← pow_add]
    congr 2
    omega
  rw [hsplit, hsplit, h]

variable {mem : PageMem} {e : Nat}

theorem tableAt_page {root : Nat} (h : a / 0x1000 = b / 0x1000) :
    ∀ k, k ≤ 3 → tableAt mem root a k = tableAt mem root b k := by
  intro k
  induction k with
  | zero => intro _; rfl
  | succ k ih =>
    intro hk
    rw [tableAt, tableAt, ih (by omega), pgIndex_page h (by omega)]

theorem UserPage.of_page (hp : UserPage mem cr3 a rw) (h : a / 0x1000 = b / 0x1000) :
    UserPage mem cr3 b rw := by
  obtain ⟨t, ht, he⟩ := hp.entry
  have hbase := hp.base
  have hlim := hp.limit
  refine ⟨?_, ?_, t, ?_, ?_⟩
  · unfold userBase at hbase ⊢
    omega
  · unfold userLimit at hlim ⊢
    omega
  · rwa [← tableAt_page h 3 le_rfl]
  · rw [← pgIndex_page h le_rfl]
    exact he

theorem limit_of_shift (h : a >>> 39 ≤ 0xFF) : a < userLimit := by
  unfold userLimit
  omega

theorem entryAt_eq_some :
    entryAt mem cr3 a = some e ↔ a < userLimit ∧
      ∃ t, tableAt mem (cr3 / 0x1000) a 3 = some t ∧ mem t (pgIndex a 3) = e := by
  rw [entryAt, Option.map_eq_some_iff]
  constructor
  · rintro ⟨⟨t, i⟩, hget, rfl⟩
    obtain ⟨hlim, ht, rfl⟩ := pgGetEntry_eq_some.mp hget
    exact ⟨limit_of_shift hlim, t, ht, rfl⟩
  · rintro ⟨hlim, t, ht, rfl⟩
    exact ⟨(t, pgIndex a 3), pgGetEntry_eq_some.mpr ⟨shift_of_lt hlim, ht, rfl⟩, rfl⟩

/-! ## One page -/

/-- A demand mapping ends with the entry of the page, and keeps the others. -/
theorem pgDemandPage_ok (ht : UserTables s cr3) (hempty : LeafEmpty s.mem cr3 a)
    (h : pgDemandPage s cr3 a = (.ok e, s')) : Keeps s s' cr3 := by
  unfold pgDemandPage at h
  split at h
  · cases h
  rename_i hwin
  simp only at h
  split at h
  · cases h
  rename_i h0
  have hlim : a < userLimit := by
    unfold stackMin stackMax at hwin
    unfold userLimit
    omega
  have halloc := (@UserTables.alloc s cr3 a ht hlim).2 h0
  have hgrow : Grows s { (s.take (mmAllocPage s.mm)).zeroFrame
      ((mmAllocPage s.mm).1 / 0x1000) with userMemory := s.userMemory + 0x1000 } cr3 a :=
    halloc.1.congr rfl rfl
  have hmap := pgMapVirtual_keeps hgrow.tables hlim (hgrow.empty hempty)
    (mmAllocPage s.mm).1 pgNoexec
  split at h
  · cases h
  rename_i heq
  have hsnd := congrArg Prod.snd heq
  simp only at hsnd
  split at h
  · cases h
  · split at h
    · cases h
      exact hgrow.toKeeps.trans (hsnd ▸ hmap)
    · cases h

theorem pgDemandPage_outside (h : Outside a) :
    pgDemandPage s cr3 a = (.error .address, s) := by
  unfold Outside at h
  rw [pgDemandPage, if_pos (by omega)]

theorem pgDemandPage_entry (h : pgDemandPage s cr3 a = (.ok e, s')) :
    entryAt s'.mem cr3 a = some e ∧ present e = true := by
  unfold pgDemandPage at h
  split at h
  · cases h
  simp only at h
  iterate 3
    split at h
    · cases h
  rename_i hentry
  split at h
  · rename_i hpres
    cases h
    exact ⟨hentry, hpres⟩
  · cases h

theorem pgFindPage_entry (h : pgFindPage s cr3 a = (.ok e, s')) :
    entryAt s'.mem cr3 a = some e ∧ present e = true := by
  unfold pgFindPage at h
  split at h
  · exact pgDemandPage_entry h
  rename_i hentry
  split at h
  · rename_i hpres
    cases h
    exact ⟨hentry, hpres⟩
  · split at h
    · cases h
    · exact pgDemandPage_entry h

theorem pgFindPage_kept (hsafe : UserTables s cr3 ∨ Outside a)
    (h : pgFindPage s cr3 a = (.ok e, s')) : Kept s s' cr3 := by
  -- where demand mapping starts, there is no page
  have hdemand : LeafEmpty s.mem cr3 a → pgDemandPage s cr3 a = (.ok e, s') → Kept s s' cr3 := by
    intro hempty hd
    rcases hsafe with ht | hout
    · exact .inr (pgDemandPage_ok ht hempty hd)
    · rw [pgDemandPage_outside hout] at hd
      cases hd
  have hlim : a < userLimit := (entryAt_eq_some.mp (pgFindPage_entry h).1).1
  unfold pgFindPage at h
  split at h
  · rename_i hnone
    refine hdemand (fun t ht => ?_) h
    have hsome := entryAt_eq_some.mpr ⟨hlim, t, ht, rfl⟩
    rw [hnone] at hsome
    cases hsome
  rename_i old hold
  split at h
  · cases h
    exact .inl rfl
  split at h
  · cases h
  rcases hsafe with ht | hout
  · refine hdemand (fun t htab => ht.zero a t hlim htab ?_) h
    have hsome := entryAt_eq_some.mpr ⟨hlim, t, htab, rfl⟩
    rw [hold] at hsome
    rw [← some.inj hsome]
    omega
  · rw [pgDemandPage_outside hout] at h
    cases h

theorem pgFindPage_outside (h : Outside a) : (pgFindPage s cr3 a).2 = s := by
  unfold pgFindPage
  rw [pgDemandPage_outside h]
  repeat' split
  all_goals rfl

theorem pgCheckPage_outside (h : Outside a) : (pgCheckPage s cr3 a rw).2 = s := by
  have hfind := @pgFindPage_outside s cr3 a h
  unfold pgCheckPage
  split
  · rename_i heq
    rw [heq] at hfind
    exact hfind
  · rename_i heq
    rw [heq] at hfind
    repeat' split
    all_goals exact hfind

theorem pgCheckPage_ok (h : pgCheckPage s cr3 a rw = (none, s')) :
    a < userLimit ∧ (userBase ≤ a → UserPage s'.mem cr3 a rw) ∧
      (UserTables s cr3 ∨ Outside a → Kept s s' cr3) := by
  unfold pgCheckPage at h
  split at h
  · cases h
  rename_i e t hfind
  split at h
  · cases h
  rename_i huser
  split at h
  · cases h
  rename_i hwrite
  cases h
  obtain ⟨hentry, hpres⟩ := pgFindPage_entry hfind
  obtain ⟨hlim, u, hu, rfl⟩ := entryAt_eq_some.mp hentry
  refine ⟨hlim, fun hbase => ⟨hbase, hlim, u, hu, hpres, ?_, fun hrw => ?_⟩, fun hsafe => pgFindPage_kept hsafe hfind⟩
  · simpa using huser
  · simpa [hrw] using hwrite

theorem Outside.of_page (h : Outside a) (hpage : a / 0x1000 = b / 0x1000) : Outside b := by
  unfold Outside stackMin stackMax at *
  omega

theorem pgCheckLoop_bounds {pages : Nat} (he : e < addrTop) :
    ∀ {s : PgState} {a : Nat}, pgCheckLoop cr3 e rw pages s a = (none, s') →
      a < e ∧ (a % 0x1000 = 0 → e ≤ userLimit) := by
  induction pages with
  | zero =>
    intro s a h
    cases h
  | succ pages ih =>
    intro s a h
    rw [pgCheckLoop] at h
    split at h
    · rename_i s1 hpage
      have hlim := (pgCheckPage_ok hpage).1
      unfold userLimit at hlim ⊢
      unfold addrTop at *
      simp only at h
      split at h
      · obtain ⟨hlt, hle⟩ := ih h
        constructor
        · omega
        · intro ha
          exact hle (by omega)
      · omega
    · cases h

theorem pgCheckLoop_ok {pages : Nat} (he : e < addrTop) (he0 : e % 0x1000 = 0) :
    ∀ {s : PgState} {a : Nat}, a % 0x1000 = 0 → userBase ≤ a →
      (UserTables s cr3 ∨ ∀ b, a ≤ b → b < e → Outside b) →
      pgCheckLoop cr3 e rw pages s a = (none, s') →
      Kept s s' cr3 ∧ ∀ b, a ≤ b → b < e → UserPage s'.mem cr3 b rw := by
  induction pages with
  | zero =>
    intro s a ha hbase hsafe h
    cases h
  | succ pages ih =>
    intro s a ha hbase hsafe h
    obtain ⟨hlt, hlim⟩ := pgCheckLoop_bounds he h
    rw [pgCheckLoop] at h
    split at h
    · rename_i s1 hpage
      obtain ⟨-, hp, hkept⟩ := pgCheckPage_ok hpage
      have hp := hp hbase
      have hkept := hkept (hsafe.imp id fun hout => hout a le_rfl hlt)
      have hstep : (a + 0x1000) % addrTop = a + 0x1000 := by
        unfold userLimit at hlim
        unfold addrTop
        omega
      have hfirst : ∀ b, a ≤ b → b < a + 0x1000 → UserPage s1.mem cr3 b rw :=
        fun b h1 h2 => hp.of_page (by omega)
      simp only [hstep] at h
      split at h
      · have hsafe' : UserTables s1 cr3 ∨ ∀ b, a + 0x1000 ≤ b → b < e → Outside b :=
          hsafe.imp hkept.tables fun hout b h1 h2 => hout b (by omega) h2
        obtain ⟨hkept', hrest⟩ := ih (by omega) (by omega) hsafe' h
        refine ⟨hkept.trans hkept', fun b h1 h2 => ?_⟩
        rcases lt_or_ge b (a + 0x1000) with hb | hb
        · exact hkept'.page (hfirst b h1 hb)
        · exact hrest b hb h2
      · cases h
        refine ⟨hkept, fun b h1 h2 => hfirst b h1 ?_⟩
        omega
    · cases h

variable {vaddr size : Nat}

/-- The whole range of the loop lies below the limit, without a wrap, and in
pages of the user. -/
theorem pgCheckUser_ok (hv : vaddr < addrTop) (hs : size < addrTop)
    (hsafe : UserTables s cr3 ∨ ∀ b, vaddr ≤ b → b < vaddr + size → Outside b)
    (h : pgCheckUser s cr3 vaddr size rw = (none, s')) :
    0 < size ∧ vaddr + size ≤ userLimit ∧ Kept s s' cr3 ∧
      ∀ b, vaddr ≤ b → b < vaddr + size → UserPage s'.mem cr3 b rw := by
  have hsize : 0 < size := by
    by_contra h0
    rw [pgCheckUser] at h
    rw [if_pos (Or.inl (by omega))] at h
    cases h
  unfold pgCheckUser at h
  rw [if_pos hsize] at h
  simp only at h
  split at h
  · cases h
  rename_i hpre
  have hbound : (vaddr + (size - 1)) % addrTop = vaddr + (size - 1) := by
    unfold addrTop at *
    omega
  rw [hbound] at h hpre
  have he : ((vaddr + (size - 1)) / 0x1000 * 0x1000 + 0x1000) % addrTop < addrTop :=
    Nat.mod_lt _ (by omega)
  obtain ⟨hlt, hlim⟩ := pgCheckLoop_bounds he h
  -- the end did not wrap around: it would be `0`
  have hend : ((vaddr + (size - 1)) / 0x1000 * 0x1000 + 0x1000) % addrTop =
      (vaddr + (size - 1)) / 0x1000 * 0x1000 + 0x1000 := by
    unfold addrTop at *
    omega
  rw [hend] at h hlim hlt he
  have hwin : UserTables s cr3 ∨ ∀ b, vaddr / 0x1000 * 0x1000 ≤ b →
      b < (vaddr + (size - 1)) / 0x1000 * 0x1000 + 0x1000 → Outside b := by
    refine hsafe.imp id fun hout b h1 h2 => ?_
    have hfirst := hout vaddr le_rfl (by omega)
    have hlast := hout (vaddr + (size - 1)) (by omega) (by omega)
    rcases lt_or_ge b vaddr with hb | hb
    · exact hfirst.of_page (by omega)
    · rcases lt_or_ge b (vaddr + size) with hb' | hb'
      · exact hout b hb hb'
      · exact hlast.of_page (by omega)
  have he0 : ((vaddr + (size - 1)) / 0x1000 * 0x1000 + 0x1000) % 0x1000 = 0 := by omega
  have hbase : userBase ≤ vaddr / 0x1000 * 0x1000 := by
    unfold userBase
    omega
  obtain ⟨hkept, hpages⟩ := pgCheckLoop_ok he he0 (Nat.mul_mod_left _ _) hbase hwin h
  refine ⟨hsize, by omega, hkept, fun b h1 h2 => hpages b ?_ (by omega)⟩
  exact le_trans (Nat.div_mul_le_self _ _) h1

/-! ## Scans -/

theorem readWord_of_page (h : UserPage mem cr3 a rw) :
    ∃ w, readWord mem cr3 a = some w := by
  obtain ⟨t, ht, he⟩ := h.entry
  have hentry := entryAt_eq_some.mpr ⟨h.limit, t, ht, rfl⟩
  rw [readWord, hentry]
  simp only [he.present]
  exact ⟨_, rfl⟩

theorem readByte_of_page (h : UserPage mem cr3 a rw) :
    ∃ c, readByte mem cr3 a = some c := by
  obtain ⟨w, hw⟩ := readWord_of_page h
  rw [readByte, hw]
  exact ⟨_, rfl⟩

theorem pgCheckUserRead_byte (ha : a < addrTop) (h : pgCheckUserRead s cr3 a 1 = (none, s')) :
    UserPage s'.mem cr3 a false ∧ (UserTables s cr3 ∨ Outside a → Kept s s' cr3) ∧
      (Outside a → s' = s) := by
  have hpage : a / 0x1000 * 0x1000 / 0x1000 = a / 0x1000 := by omega
  have hcheck : 0x10000000 ≤ a ∧ pgCheckPage s cr3 (a / 0x1000 * 0x1000) false = (none, s') := by
    unfold pgCheckUserRead pgCheckUser at h
    simp only [Nat.lt_one_iff, if_true, Nat.sub_self, Nat.add_zero, Nat.mod_eq_of_lt ha] at h
    split at h
    · cases h
    rw [pgCheckLoop] at h
    split at h
    · rename_i hpage
      rw [if_neg (by simp)] at h
      cases h
      exact ⟨by omega, hpage⟩
    · cases h
  obtain ⟨hlow, hcheck⟩ := hcheck
  obtain ⟨-, hp, hkept⟩ := pgCheckPage_ok hcheck
  have hbase : userBase ≤ a / 0x1000 * 0x1000 := by
    unfold userBase
    omega
  refine ⟨(hp hbase).of_page hpage, fun hsafe => hkept (hsafe.imp id fun ho => ho.of_page hpage.symm),
    fun ho => ?_⟩
  have hsame := @pgCheckPage_outside s cr3 _ false (ho.of_page hpage.symm)
  rw [hcheck] at hsame
  exact hsame

/-- What a scan that returned `0` read from `addr` on: `n` values that are
not zero and a zero, all of them in pages of the user. -/
structure Scanned (read : PageMem → Nat → Nat → Option Nat) (width cr3 : Nat) (s : PgState)
    (addr n : Nat) (vals : List Nat) (s' : PgState) : Prop where
  kept : Kept s s' cr3
  pages : ∀ b, addr ≤ b → b < addr + width * (n + 1) → UserPage s'.mem cr3 b false
  length : vals.length = n + 1
  nonzero : ∀ i v, i < n → vals[i]? = some v → v ≠ 0
  last : vals[n]? = some 0
  values : ∀ i, i ≤ n → ∃ t, Kept s t cr3 ∧ Kept t s' cr3 ∧
    vals[i]? = read t.mem cr3 (addr + width * i)
  same : (∀ i, i ≤ n → Outside (addr + width * i)) →
    s' = s ∧ ∀ i, i ≤ n → vals[i]? = read s.mem cr3 (addr + width * i)

section Scan

variable {read : PageMem → Nat → Nat → Option Nat} {width : Nat}

theorem scan_page {check : Bool} (ha : a < addrTop)
    (hpage : check = false → UserPage s.mem cr3 a false)
    (h : (if check then pgCheckUserRead s cr3 a 1 else (none, s)) = (none, s')) :
    UserPage s'.mem cr3 a false ∧ (UserTables s cr3 ∨ Outside a → Kept s s' cr3) ∧
      (Outside a → s' = s) := by
  cases check with
  | true => exact pgCheckUserRead_byte ha h
  | false =>
    cases h
    exact ⟨hpage rfl, fun _ => .inl rfl, fun _ => rfl⟩

section

variable (hw : width = 1 ∨ width = 8)
include hw

/-- A value lies in the page where it starts, and so does the next one
before the end of the page. -/
theorem value_page (ha : a % width = 0) (hb : a ≤ b) (hlt : b < a + width) :
    a / 0x1000 = b / 0x1000 := by
  rcases hw with rfl | rfl <;> omega

theorem next_page (ha : a % width = 0) (hend : (a % 0x1000 == 0x1000 - width) = false) :
    a / 0x1000 = (a + width) / 0x1000 := by
  rw [beq_eq_false_iff_ne] at hend
  rcases hw with rfl | rfl <;> omega

theorem next_addr (ha : a < userLimit) : (a + width) % addrTop = a + width := by
  unfold userLimit at ha
  unfold addrTop
  rcases hw with rfl | rfl <;> omega

theorem Scanned.single (ha : a % width = 0) (hp : UserPage s'.mem cr3 a false)
    (hread : read s'.mem cr3 a = some 0) (hkept : Kept s s' cr3) (hsame : Outside a → s' = s) :
    Scanned read width cr3 s a 0 [0] s' where
  kept := hkept
  pages := fun b h1 h2 => hp.of_page (value_page hw ha h1 (by omega))
  length := rfl
  nonzero := fun i v hi => absurd hi (Nat.not_lt_zero i)
  last := rfl
  values := fun i hi => by
    obtain rfl : i = 0 := by omega
    exact ⟨s', hkept, .inl rfl, hread.symm⟩
  same := fun hout => by
    obtain rfl := hsame (hout 0 le_rfl)
    refine ⟨rfl, fun i hi => ?_⟩
    obtain rfl : i = 0 := by omega
    exact hread.symm

theorem Scanned.cons (ha : a % width = 0) (hp : UserPage s'.mem cr3 a false) {v : Nat}
    (hread : read s'.mem cr3 a = some v) (hv : v ≠ 0) (hkept : Kept s s' cr3)
    (hsame : Outside a → s' = s) {n : Nat} {vals : List Nat}
    (h : Scanned read width cr3 s' (a + width) n vals s'') :
    Scanned read width cr3 s a (n + 1) (v :: vals) s'' where
  kept := hkept.trans h.kept
  pages := fun b h1 h2 => by
    rcases lt_or_ge b (a + width) with hb | hb
    · exact h.kept.page (hp.of_page (value_page hw ha h1 hb))
    · refine h.pages b hb ?_
      rw [Nat.mul_succ] at h2
      omega
  length := by rw [length_cons, h.length]
  nonzero := fun i w hi hget => by
    cases i with
    | zero =>
      rw [getElem?_cons_zero, some.injEq] at hget
      exact hget ▸ hv
    | succ i => exact h.nonzero i w (by omega) (by simpa using hget)
  last := by simpa using h.last
  values := fun i hi => by
    cases i with
    | zero => exact ⟨s', hkept, h.kept, hread.symm⟩
    | succ i =>
      obtain ⟨t, ht, ht', hval⟩ := h.values i (by omega)
      refine ⟨t, hkept.trans ht, ht', ?_⟩
      rw [getElem?_cons_succ, hval, Nat.mul_succ, add_assoc, add_comm width]
  same := fun hout => by
    obtain rfl := hsame (hout 0 (Nat.zero_le _))
    have hrest : ∀ i, i ≤ n → Outside (a + width + width * i) := by
      intro i hi
      have hnext := hout (i + 1) (by omega)
      rwa [Nat.mul_succ, add_comm (width * i), ← add_assoc] at hnext
    obtain ⟨rfl, hvals⟩ := h.same hrest
    refine ⟨rfl, fun i hi => ?_⟩
    cases i with
    | zero => exact hread.symm
    | succ i =>
      rw [getElem?_cons_succ, hvals i (by omega), Nat.mul_succ, add_comm (width * i),
        ← add_assoc]

/-- **A scan.** It never faults, and a return value of `0` means that it
found a zero before the count overflowed. -/
theorem scanLoop_spec (hread : ∀ mem a, UserPage mem cr3 a false → ∃ v, read mem cr3 a = some v)
    {left : Nat} :
    ∀ {s : PgState} {a : Nat} {check : Bool} {count : Nat} {reads : List Nat},
      a < addrTop → a % width = 0 → (check = false → UserPage s.mem cr3 a false) →
      ∃ r, scanLoop read width cr3 left s a check count reads = some r ∧
        (r.code = none → ∃ n vals, r.count = (count + n : Nat) ∧ n < left ∧
          r.reads = reads ++ vals ∧
          ((UserTables s cr3 ∨ ∀ i, i ≤ n → Outside (a + width * i)) →
            Scanned read width cr3 s a n vals r.state)) := by
  induction left with
  | zero =>
    intro s a check count reads _ _ _
    exact ⟨_, rfl, by simp⟩
  | succ left ih =>
    intro s a check count reads ha haw hcheck
    rw [scanLoop]
    split
    · rename_i s1 hpage
      obtain ⟨hp, hkept, hsame⟩ := scan_page ha hcheck hpage
      obtain ⟨v, hv⟩ := hread s1.mem a hp
      rw [hv]
      simp only
      split
      · rename_i hzero
        subst hzero
        refine ⟨_, rfl, fun _ => ⟨0, [0], rfl, by omega, rfl, fun hsafe => ?_⟩⟩
        have hsafe' : UserTables s cr3 ∨ Outside a :=
          hsafe.imp id fun hout => hout 0 le_rfl
        exact Scanned.single hw haw hp hv (hkept hsafe') hsame
      · rename_i hne
        rw [next_addr hw hp.limit]
        have hnext : (a % 0x1000 == 0x1000 - width) = false →
            UserPage s1.mem cr3 (a + width) false :=
          fun hend => hp.of_page (next_page hw haw hend)
        have hlt : a + width < addrTop := by
          have hlim := hp.limit
          unfold userLimit at hlim
          unfold addrTop
          omega
        obtain ⟨r, hr, hspec⟩ := @ih s1 (a + width) (a % 0x1000 == 0x1000 - width) (count + 1)
          (reads ++ [v]) hlt (by rw [Nat.add_mod_right]; exact haw) hnext
        refine ⟨r, hr, fun hcode => ?_⟩
        obtain ⟨n, vals, hcount, hn, hreads, hscan⟩ := hspec hcode
        refine ⟨n + 1, v :: vals, by omega, by omega, ?_, fun hsafe => ?_⟩
        · rw [hreads, append_assoc]
          rfl
        have hsafe' : UserTables s cr3 ∨ Outside a :=
          hsafe.imp id fun hout => hout 0 (Nat.zero_le _)
        have hkept := hkept hsafe'
        refine Scanned.cons hw haw hp hv hne hkept hsame (hscan ?_)
        refine hsafe.imp hkept.tables fun hout i hi => ?_
        have hstep := hout (i + 1) (by omega)
        rwa [Nat.mul_succ, add_comm (width * i), ← add_assoc] at hstep
    · exact ⟨_, rfl, by simp⟩

end

end Scan

/-! ## The checks -/

/-- What a check that returned `0` has shown of a range. -/
structure RangeChecked (s s' : PgState) (cr3 vaddr size : Nat) (rw : Bool) : Prop where
  nonempty : 0 < size
  base : userBase ≤ vaddr
  limit : vaddr + size ≤ userLimit
  levels : ∀ b k, vaddr ≤ b → b < vaddr + size → k ≤ 3 →
    ∃ t, tableAt s'.mem (cr3 / 0x1000) b k = some t ∧ present (s'.mem t (pgIndex b k)) = true
  pages : ∀ b, vaddr ≤ b → b < vaddr + size → UserPage s'.mem cr3 b rw
  paths : UpperBits s.mem cr3 → ∀ b, vaddr ≤ b → b < vaddr + size → UserPath s'.mem cr3 b rw

theorem RangeChecked.of_pages (hsize : 0 < size) (hkept : Kept s s' cr3)
    (hpages : ∀ b, vaddr ≤ b → b < vaddr + size → UserPage s'.mem cr3 b rw) :
    RangeChecked s s' cr3 vaddr size rw where
  nonempty := hsize
  base := (hpages vaddr le_rfl (by omega)).base
  limit := by
    have hlast := (hpages (vaddr + size - 1) (by omega) (by omega)).limit
    omega
  levels := fun b k h1 h2 hk => (hpages b h1 h2).present_at hk
  pages := hpages
  paths := fun hu b h1 h2 => (hpages b h1 h2).path (hkept.upper hu)

/-- The ranges whose check is sound: they do not meet the stack window, or
the tables are those of a user address space. -/
def SafeRange (s : PgState) (cr3 vaddr size : Nat) : Prop :=
  UserTables s cr3 ∨ ∀ b, vaddr ≤ b → b < vaddr + size → Outside b

theorem rangeChecked_of_check (hv : vaddr < addrTop) (hs : size < addrTop)
    (hsafe : SafeRange s cr3 vaddr size) (h : pgCheckUser s cr3 vaddr size rw = (none, s')) :
    RangeChecked s s' cr3 vaddr size rw := by
  obtain ⟨hsize, -, hkept, hpages⟩ := pgCheckUser_ok hv hs hsafe h
  exact RangeChecked.of_pages hsize hkept hpages

/-- What a scan of values of `width` bytes promises. -/
def ScanSound (read : PageMem → Nat → Nat → Option Nat) (width : Nat) (s : PgState)
    (cr3 vaddr : Nat) (o : Option ScanResult) : Prop :=
  ∃ r, o = some r ∧ (r.code = none → ∃ n : Nat, r.count = n ∧ n < intMax ∧
    (SafeRange s cr3 vaddr (width * (n + 1)) → Scanned read width cr3 s vaddr n r.reads r.state ∧
      RangeChecked s r.state cr3 vaddr (width * (n + 1)) false))

theorem scanSound_of_scan {read : PageMem → Nat → Nat → Option Nat} {width vaddr : Nat}
    (hw : width = 1 ∨ width = 8)
    (hread : ∀ mem a, UserPage mem cr3 a false → ∃ v, read mem cr3 a = some v)
    (hv : vaddr < addrTop) (hvw : vaddr % width = 0) :
    ScanSound read width s cr3 vaddr (scanLoop read width cr3 intMax s vaddr true 0 []) := by
  obtain ⟨r, hr, hspec⟩ := @scanLoop_spec cr3 read width hw hread intMax s vaddr true 0 []
    hv hvw (by simp)
  refine ⟨r, hr, fun hcode => ?_⟩
  obtain ⟨n, vals, hcount, hn, hreads, hscan⟩ := hspec hcode
  refine ⟨n, by omega, hn, fun hsafe => ?_⟩
  have hsafe' : UserTables s cr3 ∨ ∀ i, i ≤ n → Outside (vaddr + width * i) := by
    refine hsafe.imp id fun hout i hi => hout _ (Nat.le_add_right _ _) ?_
    rcases hw with rfl | rfl <;> omega
  rw [hreads, nil_append]
  refine ⟨hscan hsafe', RangeChecked.of_pages ?_ (hscan hsafe').kept (hscan hsafe').pages⟩
  rcases hw with rfl | rfl <;> omega

/-- **The checks of user pointers are sound.** -/
theorem checks_sound (s : PgState) (cr3 vaddr : Nat) (hv : vaddr < addrTop) :
    (∀ size s', size < addrTop → SafeRange s cr3 vaddr size →
      pgCheckUserRead s cr3 vaddr size = (none, s') →
      RangeChecked s s' cr3 vaddr size false) ∧
    (∀ size s', size < addrTop → SafeRange s cr3 vaddr size →
      pgCheckUserWrite s cr3 vaddr size = (none, s') →
      RangeChecked s s' cr3 vaddr size true) ∧
    ScanSound readByte 1 s cr3 vaddr (pgCheckUserString s cr3 vaddr) ∧
    ScanSound readWord 8 s cr3 vaddr (pgCheckUserVector s cr3 vaddr) := by
  refine ⟨fun size s' hs hsafe h => rangeChecked_of_check hv hs hsafe h,
    fun size s' hs hsafe h => rangeChecked_of_check hv hs hsafe h, ?_, ?_⟩
  · exact scanSound_of_scan (.inl rfl) (fun mem a => readByte_of_page) hv (Nat.mod_one _)
  unfold pgCheckUserVector
  split
  · exact ⟨_, rfl, by simp⟩
  · rename_i halign
    exact scanSound_of_scan (.inr rfl) (fun mem a => readWord_of_page) hv (by omega)

/-- A string "Hi" at `0x10000000`, whose upper entries have the given bits. -/
def sampleTables (bits : Nat) : PageMem := fun f i =>
  if f = 1 ∧ i = 0 then 0x2000 + bits
  else if f = 2 ∧ i = 0 then 0x3000 + bits
  else if f = 3 ∧ i = 0x80 then 0x4000 + bits
  else if f = 4 ∧ i = 0 then 0x5007
  else if f = 5 ∧ i = 0 then 0x6948
  else 0

def sampleState (bits : Nat) : PgState :=
  ⟨sampleTables bits, ⟨false, 0, 0, fun _ => 0⟩, 0, false, [], []⟩

theorem checks_sound_sample :
    RangeChecked (sampleState 0x27) (sampleState 0x27) 0x1000 0x10000000 16 true ∧
    Scanned readByte 1 0x1000 (sampleState 0x27) 0x10000000 2 [0x48, 0x69, 0]
      (sampleState 0x27) := by
  have h := checks_sound (sampleState 0x27) 0x1000 0x10000000 (by decide)
  have hout : ∀ size, size ≤ 0x1000 → SafeRange (sampleState 0x27) 0x1000 0x10000000 size := by
    intro size hs
    refine .inr fun b h1 h2 => .inl ?_
    unfold stackMin
    omega
  obtain ⟨-, hwrite, hstring, -⟩ := h
  refine ⟨hwrite 16 _ (by decide) (hout 16 (by omega)) rfl, ?_⟩
  obtain ⟨r, hr, hscan⟩ := hstring
  obtain rfl : r = ⟨none, 2, [0x48, 0x69, 0], sampleState 0x27⟩ := (some.inj hr).symm
  obtain ⟨n, hn, -, hscan⟩ := hscan rfl
  obtain rfl : n = 2 := (Int.ofNat.inj hn).symm
  exact (hscan (hout _ (by omega))).1

/-- The frame of a table of `0x77FFF000` is the only one the allocator has. -/
def usedFrame : PgState :=
  ⟨fun f i =>
    if f = 1 ∧ i = 0 then 0x2027
    else if f = 2 ∧ i = 1 then 0x3027
    else if f = 3 ∧ i = 0x1BF then 0x4027
    else if f = 3 ∧ i = 0x1C0 then 0x5027
    else if f = 4 ∧ i = 0x1FF then 0x6027
    else 0,
    ⟨true, 1, 0, fun _ => 0xEF#8⟩, 0, false, [], []⟩

/-- With arbitrary tables the checks show less: the bits of the upper levels
are not tested, and demand mapping may take a frame that is a table. -/
theorem checks_not_sound :
    (¬ ∀ s cr3 vaddr size s', pgCheckUserWrite s cr3 vaddr size = (none, s') →
      ∀ b, vaddr ≤ b → b < vaddr + size → UserPath s'.mem cr3 b true) ∧
    (¬ ∀ s cr3 vaddr size s', pgCheckUserRead s cr3 vaddr size = (none, s') →
      ∀ b, vaddr ≤ b → b < vaddr + size → UserPage s'.mem cr3 b false) := by
  refine ⟨fun hall => ?_, fun hall => ?_⟩
  · have hpath := hall (sampleState 1) 0x1000 0x10000000 1 (sampleState 1) rfl 0x10000000
      le_rfl (by omega)
    obtain ⟨t, ht, he⟩ := hpath 0 (by omega)
    obtain rfl : t = 1 := (some.inj ht).symm
    exact absurd he.user (by decide)
  have hpage := hall usedFrame 0x1000 0x77FFF000 0x2000
    (pgCheckUserRead usedFrame 0x1000 0x77FFF000 0x2000).2 rfl 0x77FFF000
    le_rfl (by omega)
  obtain ⟨t, ht, he⟩ := hpage.entry
  have hentry : entryAt (pgCheckUserRead usedFrame 0x1000 0x77FFF000 0x2000).2.mem 0x1000
      0x77FFF000 = some 0 := rfl
  have hsome := entryAt_eq_some.mpr ⟨hpage.limit, t, ht, rfl⟩
  rw [hentry, some.injEq] at hsome
  have hpres := he.present
  rw [← hsome] at hpres
  exact absurd hpres (by decide)

end Dancy.Pg
