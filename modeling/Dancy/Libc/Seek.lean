import Dancy.Lib.Run
import Dancy.Libc.Stream
import Mathlib.Algebra.Order.Ring.Int

/-!
# Positions of a stream (`fseeko.c`, `ftello.c`)

The descriptor is an open file of the kernel (`file_read`, `file_write`,
`file_lseek`): its offset moves with what is read and written, and writing
appends where the file was opened so.
-/

namespace Dancy.Libc

open List Option

/-! ## The file -/

/-- An open file. A reply limits one call to some bytes, or makes it fail;
without one a call does all it can. -/
structure FileFd where
  content : List UInt8
  offset : Nat
  append : Bool
  replies : List (Option Nat)

variable {fd fd' : FileFd}

/-- Bytes are written at an offset; a gap before it is filled with zeros. -/
def writeAt (content : List UInt8) (offset : Nat) (bs : List UInt8) : List UInt8 :=
  (content ++ replicate (offset - content.length) 0).take offset ++
    (bs ++ content.drop (offset + bs.length))

def landing (fd : FileFd) (bs : List UInt8) : List UInt8 :=
  if fd.append then fd.content ++ bs else writeAt fd.content fd.offset bs

def fdRead (fd : FileFd) (size : Nat) : Option (List UInt8) × FileFd :=
  match fd.replies with
  | none :: replies => (none, { fd with replies := replies })
  | replies =>
    let size := min ((replies.head?.getD none).getD size) size
    let bs := (fd.content.drop fd.offset).take size
    (some bs, { fd with offset := fd.offset + bs.length, replies := replies.tail })

def fdWrite (fd : FileFd) (bytes : List UInt8) : Option Nat × FileFd :=
  match fd.replies with
  | none :: replies =>
    (none, { fd with
      offset := if fd.append then fd.content.length else fd.offset
      replies := replies })
  | replies =>
    let w := min ((replies.head?.getD none).getD bytes.length) bytes.length
    if w = 0 then
      (some 0, { fd with
        offset := if fd.append then fd.content.length else fd.offset
        replies := replies.tail })
    else
      let content := landing fd (bytes.take w)
      (some w, { fd with
        content := content
        offset := if fd.append then content.length else fd.offset + w
        replies := replies.tail })

def shift (o : Nat) (offset : Int) : Option Nat :=
  if offset < 0 then if (o : Int) ≥ -offset then some (o + offset).toNat else none
  else if o + offset < 2 ^ 64 then some (o + offset).toNat
  else none

/-- `lseek`; the result is `LLONG_MAX` at most. -/
def fdLseek (fd : FileFd) (offset : Int) (whence : Whence) : Option Nat × FileFd :=
  let target := match whence with
    | .SEEK_SET => if offset ≥ 0 then some offset.toNat else none
    | .SEEK_CUR => shift fd.offset offset
    | .SEEK_END => shift fd.content.length offset
  match target with
  | none => (none, fd)
  | some o => (some (min o llongMax.toNat), { fd with offset := o })

def fileCalls : Calls FileFd := ⟨fdRead, fdWrite, fdLseek⟩

theorem writeAt_front (content : List UInt8) (offset : Nat) :
    ((content ++ replicate (offset - content.length) 0).take offset).length = offset := by
  rw [length_take, length_append, length_replicate]
  omega

theorem writeAt_append (content : List UInt8) (offset : Nat) (xs ys : List UInt8) :
    writeAt (writeAt content offset xs) (offset + xs.length) ys = writeAt content offset (xs ++ ys) := by
  obtain ⟨front, hfront⟩ : ∃ front, front =
    (content ++ replicate (offset - content.length) 0).take offset := ⟨_, rfl⟩
  have hlen : front.length = offset := hfront ▸ writeAt_front content offset
  have hpart : (front ++ xs).length = offset + xs.length := by rw [length_append, hlen]
  have hold : writeAt content offset xs = (front ++ xs) ++ content.drop (offset + xs.length) := by
    simp [writeAt, ← hfront]
  rw [hold, writeAt, writeAt, ← hfront]
  have hroom : offset + xs.length -
      ((front ++ xs) ++ content.drop (offset + xs.length)).length = 0 := by
    rw [length_append, hpart]
    omega
  have hdrop : ((front ++ xs) ++ content.drop (offset + xs.length)).drop
      (offset + xs.length + ys.length) = content.drop (offset + (xs ++ ys).length) := by
    rw [← hpart, drop_length_add_append, drop_drop, hpart, length_append, add_assoc]
  rw [hroom, replicate_zero, append_nil, take_left' hpart, hdrop]
  simp

structure Lands (fd : FileFd) (bs : List UInt8) (fd' : FileFd) : Prop where
  content : fd'.content = landing fd bs
  append : fd'.append = fd.append
  offset : fd'.offset = if fd.append then fd'.content.length else fd.offset + bs.length

/-- A call that fails, or writes nothing, may move the offset of a file that is
appended to. -/
structure Idle (fd fd' : FileFd) : Prop where
  content : fd'.content = fd.content
  append : fd'.append = fd.append
  offset : fd.append = false → fd'.offset = fd.offset

theorem Idle.landing (h : Idle fd fd') (bs : List UInt8) : landing fd' bs = landing fd bs := by
  rw [Libc.landing, Libc.landing, h.append, h.content]
  cases happ : fd.append with
  | false => rw [h.offset happ]
  | true => rfl

variable {bs : List UInt8} {off : Int}

theorem Idle.lands {fd'' : FileFd} (h : Idle fd fd') (hl : Lands fd' bs fd'') :
    Lands fd bs fd'' := by
  refine ⟨hl.content.trans (h.landing bs), hl.append.trans h.append, ?_⟩
  rw [hl.offset, h.append]
  cases happ : fd.append with
  | false => rw [h.offset happ]
  | true => rfl

theorem Lands.trans {fd'' : FileFd} {xs ys : List UInt8} (h : Lands fd xs fd')
    (h' : Lands fd' ys fd'') : Lands fd (xs ++ ys) fd'' := by
  have hc := h.content
  have ho := h.offset
  refine ⟨?_, h'.append.trans h.append, ?_⟩
  · rw [h'.content, landing, landing, h.append, hc, landing]
    cases happ : fd.append with
    | false =>
      rw [happ] at ho
      simp only [Bool.false_eq_true, if_false] at ho ⊢
      rw [ho, writeAt_append]
    | true => simp
  · rw [h'.offset, h.append, length_append]
    cases happ : fd.append with
    | false =>
      rw [happ] at ho
      simp only [Bool.false_eq_true, if_false] at ho ⊢
      omega
    | true => rfl

theorem fdWrite_spec (fd : FileFd) (bytes : List UInt8) :
    (∃ w fd', fdWrite fd bytes = (some (w + 1), fd') ∧ w + 1 ≤ bytes.length ∧
      Lands fd (bytes.take (w + 1)) fd') ∨
    (∃ fd', Idle fd fd' ∧ (fdWrite fd bytes = (none, fd') ∨ fdWrite fd bytes = (some 0, fd'))) := by
  have hidle : ∀ replies, Idle fd { fd with
      offset := if fd.append then fd.content.length else fd.offset
      replies := replies } := fun replies => ⟨rfl, rfl, fun h => by simp [h]⟩
  have hdone : ∀ (k : Nat) (replies : List (Option Nat)), (if min k bytes.length = 0 then
        ((some 0 : Option Nat), { fd with
          offset := if fd.append then fd.content.length else fd.offset
          replies := replies })
      else
        (some (min k bytes.length), { fd with
          content := landing fd (bytes.take (min k bytes.length))
          offset := if fd.append then (landing fd (bytes.take (min k bytes.length))).length
            else fd.offset + min k bytes.length
          replies := replies })) = fdWrite fd bytes →
      (∃ w fd', fdWrite fd bytes = (some (w + 1), fd') ∧ w + 1 ≤ bytes.length ∧
        Lands fd (bytes.take (w + 1)) fd') ∨
      (∃ fd', Idle fd fd' ∧ (fdWrite fd bytes = (none, fd') ∨ fdWrite fd bytes = (some 0, fd'))) := by
    intro k replies h
    obtain ⟨w, hw⟩ : ∃ w, w = min k bytes.length := ⟨_, rfl⟩
    rw [← hw] at h
    cases w with
    | zero =>
      exact .inr ⟨_, hidle replies, .inr h.symm⟩
    | succ w =>
      have hle : w + 1 ≤ bytes.length := hw ▸ min_le_right _ _
      refine .inl ⟨w, _, h.symm, hle, ⟨rfl, rfl, ?_⟩⟩
      rw [length_take, min_eq_left hle]
  rcases hr : fd.replies with _ | ⟨_ | k, replies⟩
  · exact hdone bytes.length [] (by rw [fdWrite, hr]; rfl)
  · refine .inr ⟨_, hidle replies, .inl ?_⟩
    rw [fdWrite, hr]
  · exact hdone k replies (by rw [fdWrite, hr]; rfl)

theorem writeSome_spec (retries : Nat) : ∀ {fd fd' : FileFd} {bytes : List UInt8} {w : Nat},
    writeSome fileCalls retries fd bytes = (some w, fd') →
      0 < w ∧ w ≤ bytes.length ∧ Lands fd (bytes.take w) fd' := by
  induction retries with
  | zero =>
    intro fd fd' bytes w h
    cases h
  | succ retries ih =>
    intro fd fd' bytes w h
    rw [writeSome] at h
    dsimp only [fileCalls] at h
    rcases fdWrite_spec fd bytes with ⟨v, fd1, hv, hle, hl⟩ | ⟨fd1, hidle, hv | hv⟩
    · rw [hv] at h
      cases h
      exact ⟨Nat.succ_pos v, hle, hl⟩
    all_goals
      rw [hv] at h
      obtain ⟨hpos, hle, hl⟩ := ih h
      exact ⟨hpos, hle, hidle.lands hl⟩

variable {s s' : Stream FileFd}

/-- All pending bytes are written, in pieces, and only the descriptor and the
start of the buffer change. -/
theorem flushLoop_spec (rounds : Nat) : ∀ {s s' : Stream FileFd},
    s.bufferEnd - s.bufferStart ≤ rounds → flushLoop fileCalls rounds s = (true, s') →
      s' = { s with fd := s'.fd, bufferStart := s'.bufferStart } ∧
        if s.bufferStart < s.bufferEnd then Lands s.fd (pending s) s'.fd else s'.fd = s.fd := by
  induction rounds with
  | zero =>
    intro s s' hle h
    cases h
    exact ⟨rfl, by rw [if_neg (by omega)]⟩
  | succ rounds ih =>
    intro s s' hle h
    rw [flushLoop] at h
    by_cases hlt : s.bufferStart < s.bufferEnd
    · rw [if_pos hlt] at h
      rw [if_pos hlt]
      rcases hw : writeSome fileCalls retryCount s.fd (pending s) with ⟨_ | w, fd1⟩
      · rw [hw] at h
        cases h
      rw [hw] at h
      obtain ⟨hpos, hmax, hl⟩ := writeSome_spec retryCount hw
      have hlen : (pending s).length = s.bufferEnd - s.bufferStart := bytesAt_length ..
      obtain ⟨hsame, hrest⟩ := ih (by show s.bufferEnd - (s.bufferStart + w) ≤ rounds; omega) h
      refine ⟨hsame, ?_⟩
      have hsplit : pending s = (pending s).take w ++
          pending { s with fd := fd1, bufferStart := s.bufferStart + w } := by
        have hadd : s.bufferEnd - s.bufferStart = w + (s.bufferEnd - (s.bufferStart + w)) := by
          omega
        simp only [pending]
        simp [hadd, bytesAt_add]
      by_cases hmore : s.bufferStart + w < s.bufferEnd
      · rw [if_pos hmore] at hrest
        rw [hsplit]
        exact hl.trans hrest
      rw [if_neg hmore] at hrest
      have hall : (pending s).take w = pending s := take_of_length_le (by omega)
      rwa [hrest, ← hall]
    · rw [if_neg hlt] at h
      cases h
      exact ⟨rfl, by rw [if_neg hlt]⟩

def unwritten (s : Stream FileFd) : List UInt8 := if s.written then pending s else []

theorem internalFflush_spec (h : internalFflush fileCalls s = (true, s')) :
    s' = { s with
        fd := s'.fd
        written := false
        bufferStart := if s.written then 0 else s.bufferStart
        bufferEnd := if s.written then 0 else s.bufferEnd } ∧
      if unwritten s = [] then s'.fd = s.fd else Lands s.fd (unwritten s) s'.fd := by
  rw [internalFflush] at h
  rcases hw : s.written with _ | _
  · rw [if_pos hw] at h
    cases h
    refine ⟨?_, by rw [unwritten, hw]; rfl⟩
    simp only [Bool.false_eq_true, if_false]
    rw [← hw]
  rw [if_neg (by rw [hw]; simp)] at h
  rcases hf : flushLoop fileCalls (s.bufferEnd - s.bufferStart) s with ⟨_ | _, s1⟩
  · rw [hf] at h
    cases h
  rw [hf] at h
  obtain ⟨hsame, hland⟩ := flushLoop_spec _ le_rfl hf
  cases h
  refine ⟨by rw [hsame]; simp, ?_⟩
  have hun : unwritten s = pending s := by rw [unwritten, if_pos hw]
  have hnil : pending s = [] ↔ ¬ s.bufferStart < s.bufferEnd := by
    rw [← length_eq_zero_iff, pending, bytesAt_length]
    omega
  rw [hun]
  by_cases hlt : s.bufferStart < s.bufferEnd
  · rw [if_pos hlt] at hland
    rwa [if_neg fun h => hnil.1 h hlt]
  · rw [if_neg hlt] at hland
    rw [if_pos (hnil.2 hlt)]
    exact hland

theorem unwritten_eq_nil : unwritten s = [] ↔ (s.written = true → s.bufferEnd ≤ s.bufferStart) := by
  have hlen : (pending s).length = s.bufferEnd - s.bufferStart := bytesAt_length ..
  rw [unwritten]
  cases s.written with
  | false => simp
  | true =>
    simp only [if_true, true_implies]
    rw [← length_eq_zero_iff, hlen]
    omega

/-! ## After a seek -/

/-- Nothing is buffered. -/
structure Settled (s : Stream FileFd) : Prop where
  ungetc : s.ungetc = none
  written : s.written = false
  bufferStart : s.bufferStart = 0
  bufferEnd : s.bufferEnd = 0

theorem fdRead_head {size : Nat} {b : UInt8} (h : fdRead fd size = (some (b :: bs), fd')) :
    fd.content[fd.offset]? = some b := by
  have hbytes : ∃ n, (fd.content.drop fd.offset).take n = b :: bs := by
    rw [fdRead] at h
    rcases hr : fd.replies with _ | ⟨_ | k, replies⟩ <;> rw [hr] at h
    · exact ⟨_, some.inj (Prod.mk.inj h).1⟩
    · cases h
    · exact ⟨_, some.inj (Prod.mk.inj h).1⟩
  obtain ⟨n, hn⟩ := hbytes
  have hget : ((fd.content.drop fd.offset).take n)[0]? = some b := by rw [hn]; rfl
  rw [getElem?_take] at hget
  split at hget
  · rwa [getElem?_drop, add_zero] at hget
  · cases hget

theorem Settled.fgetc (h : Settled s) {c : UInt8} (hg : fgetc fileCalls s = (some c, s')) :
    s.fd.content[s.fd.offset]? = some c := by
  rw [Libc.fgetc] at hg
  split at hg
  · cases hg
  rw [h.ungetc] at hg
  dsimp only at hg
  split at hg
  · rw [fgetcDirect] at hg
    dsimp only [fileCalls] at hg
    rcases hr : fdRead s.fd 1 with ⟨_ | _ | ⟨b, bs⟩, fd1⟩ <;> rw [hr] at hg
    · cases hg
    · cases hg
    · cases hg
      exact fdRead_head hr
  · rw [fgetcBuffered, if_pos (le_of_eq (h.bufferEnd.trans h.bufferStart.symm)), refill] at hg
    split at hg
    · cases hg
    rename_i hfull
    split at hfull
    · cases hfull
    dsimp only [fileCalls] at hfull
    rcases hr : fdRead s.fd s.buffer.length with ⟨_ | _ | ⟨b, bs⟩, fd1⟩ <;> rw [hr] at hfull
    · cases hfull
    · cases hfull
    · cases hfull
      cases hg
      exact fdRead_head hr

/-- Bytes are placed: they wait in the buffer, or they are in the file. -/
def Placed (fd : FileFd) (bs : List UInt8) (s : Stream FileFd) : Prop :=
  (unwritten s = bs ∧ s.fd = fd) ∨ (s.written = false ∧ s.fd.content = landing fd bs)

section

variable {bs : List UInt8} (hbs : bs ≠ []) (h : Placed fd bs s)
include hbs h

theorem Placed.flush (hf : internalFflush fileCalls s = (true, s')) :
    s'.written = false ∧ s'.fd.content = landing fd bs := by
  obtain ⟨hsame, hl⟩ := internalFflush_spec hf
  refine ⟨by rw [hsame], ?_⟩
  rcases h with ⟨hun, hfd⟩ | ⟨hw, hc⟩
  · rw [hun, if_neg hbs] at hl
    rw [hl.content, hfd]
  have hun : unwritten s = [] := by
    rw [unwritten, hw]
    rfl
  rw [if_pos hun] at hl
  rw [hl, hc]

theorem Placed.flushLine {c : UInt8} (hf : flushLine fileCalls s c = (true, s')) :
    Placed fd bs s' := by
  rw [Libc.flushLine] at hf
  split at hf
  · exact .inr (h.flush hbs hf)
  · cases hf
    exact h

theorem Placed.flushFull (hf : flushFull fileCalls s = (true, s')) : Placed fd bs s' := by
  rw [Libc.flushFull] at hf
  split at hf
  · exact .inr (h.flush hbs hf)
  · cases hf
    exact h

end

theorem Settled.store (h : Settled s) {c : UInt8} (hroom : 0 < s.buffer.length) :
    Placed s.fd [c] (store s c) := by
  refine .inl ⟨?_, rfl⟩
  show bytesAt (s.buffer.set s.bufferEnd c) s.bufferStart (s.bufferEnd + 1 - s.bufferStart) = [c]
  rw [h.bufferStart, h.bufferEnd, Nat.sub_zero, zero_add, bytesAt_succ, bytesAt_zero]
  simp [hroom]

theorem Settled.fputc_placed (h : Settled s) {c : UInt8}
    (hp : fputc fileCalls s c = (true, s')) : Placed s.fd [c] s' := by
  rw [Libc.fputc] at hp
  split at hp
  · cases hp
  split at hp
  · dsimp only [fileCalls] at hp
    rcases fdWrite_spec s.fd [c] with ⟨w, fd1, hw, hle, hl⟩ | ⟨fd1, -, hw | hw⟩ <;> rw [hw] at hp
    · cases hp
      rw [take_of_length_le (by rw [length_singleton]; omega)] at hl
      exact .inr ⟨h.written, hl.content⟩
    · cases hp
    · cases hp
  · rw [putBuffered] at hp
    split at hp
    · cases hp
    have hplaced := @Settled.store s h c (by omega)
    rcases hline : flushLine fileCalls (Libc.store s c) c with ⟨_ | _, s1⟩ <;> rw [hline] at hp
    · cases hp
    · exact (hplaced.flushLine (by simp) hline).flushFull (by simp) hp

theorem Settled.fputc (h : Settled s) {c : UInt8} {s1 s2 : Stream FileFd}
    (hp : fputc fileCalls s c = (true, s1)) (hf : internalFflush fileCalls s1 = (true, s2)) :
    s2.fd.content = landing s.fd [c] :=
  ((h.fputc_placed hp).flush (by simp) hf).2

/-! ## Seek and tell -/

theorem shift_zero (o : Nat) : shift o 0 = if o < 2 ^ 64 then some o else none := by
  rw [shift, if_neg (by decide)]
  by_cases h : o < 2 ^ 64
  · simp
  · simp

theorem shift_spec {o o' : Nat} {d : Int} (h : shift o d = some o') : (o' : Int) = o + d := by
  rw [shift] at h
  split_ifs at h <;> cases h <;> omega

/-- The bytes between the position and the offset. -/
def buffered (s : Stream FileFd) : Int := (s.bufferEnd - s.bufferStart : Nat)

theorem fileCalls_cur (fd : FileFd) (d : Int) :
    fileCalls.lseek fd d .SEEK_CUR = match shift fd.offset d with
      | none => (none, fd)
      | some o => (some (min o llongMax.toNat), { fd with offset := o }) := rfl

theorem ftello_eq (h : s.bufferStart ≤ s.bufferEnd) :
    (ftello fileCalls s).1 = if s.fd.offset < 2 ^ 64 then
        let o : Int := min s.fd.offset llongMax
        if s.written then if o > llongMax - buffered s then none else some (o + buffered s)
        else some (max 0 (o - (buffered s + extra s)))
      else none := by
  obtain ⟨m, hm⟩ : ∃ m, m = llongMax := ⟨_, rfl⟩
  have hmax : 0 ≤ m := by
    rw [hm]
    decide
  have hclamp : ((min s.fd.offset m.toNat : Nat) : Int) = min (s.fd.offset : Int) m := by omega
  rw [ftello, fileCalls_cur, shift_zero]
  by_cases ho : s.fd.offset < 2 ^ 64
  · rw [if_pos ho, if_pos ho]
    dsimp only
    rw [← hm, hclamp, tellAt, if_neg (not_lt.2 h), ← hm]
    obtain ⟨o, ho⟩ : ∃ o, o = min (s.fd.offset : Int) m := ⟨_, rfl⟩
    rw [← ho, buffered]
    cases s.written with
    | true => rfl
    | false =>
      by_cases hlow : o - (((s.bufferEnd - s.bufferStart : Nat) : Int) + extra s) < 0
      · rw [if_neg Bool.false_ne_true, if_neg Bool.false_ne_true, if_pos hlow,
          Int.max_eq_left (by omega)]
      · rw [if_neg Bool.false_ne_true, if_neg Bool.false_ne_true, if_neg hlow,
          Int.max_eq_right (by omega)]
  · rw [if_neg ho, if_neg ho]

/-- The seek by `off` from `s` to `s'` is what `ftello` tells, the next byte is
read or written there, and the bytes that were not written are in the file
once. -/
structure SeekTells (s s' : Stream FileFd) (off : Int) : Prop where
  told : ∃ q, (ftello fileCalls s).1 = some q ∧ (ftello fileCalls s').1 = some (q + off) ∧
    (s'.fd.offset : Int) = q + off
  read : ∀ c s2, fgetc fileCalls s' = (some c, s2) → s'.fd.content[s'.fd.offset]? = some c
  write : ∀ c s2 s3, fputc fileCalls s' c = (true, s2) →
    internalFflush fileCalls s2 = (true, s3) → s3.fd.content = landing s'.fd [c]
  bytes : s'.fd.content = if unwritten s = [] then s.fd.content else landing s.fd (unwritten s)

theorem SeekTells.tells {off q : Int} (h : SeekTells s s' off)
    (hq : (ftello fileCalls s).1 = some q) : (ftello fileCalls s').1 = some (q + off) := by
  obtain ⟨p, hp, hp', -⟩ := h.told
  cases hp.symm.trans hq
  exact hp'

theorem fseeko_cur (h : fseeko fileCalls s off .SEEK_CUR = (true, s')) :
    s.bufferStart ≤ s.bufferEnd ∧ ∃ s1, internalFflush fileCalls s = (true, s1) ∧
      (s'.fd.offset : Int) = s1.fd.offset + (off - (buffered s + extra s)) ∧
        s'.fd.content = s1.fd.content ∧ s'.fd.append = s1.fd.append ∧ Settled s' := by
  rw [fseeko] at h
  dsimp only at h
  split at h
  · cases h
  rename_i hle
  split at h
  · cases h
  rw [reposition] at h
  rcases hf : internalFflush fileCalls s with ⟨_ | _, s1⟩ <;> rw [hf] at h
  · cases h
  dsimp only [fileCalls, fdLseek] at h
  rcases hs : shift s1.fd.offset (off - (((s.bufferEnd - s.bufferStart : Nat) : Int) + extra s)) with
    _ | o <;> rw [hs] at h
  · cases h
  · cases h
    exact ⟨not_lt.1 hle, s1, rfl, shift_spec hs, rfl, rfl, ⟨rfl, rfl, rfl, rfl⟩⟩

def flushedOffset (s : Stream FileFd) : Int :=
  if unwritten s = [] then s.fd.offset
  else if s.fd.append then s.fd.content.length + buffered s
  else s.fd.offset + buffered s

theorem internalFflush_offset {s1 : Stream FileFd} (h : internalFflush fileCalls s = (true, s1)) :
    (s1.fd.offset : Int) = flushedOffset s ∧
      s1.fd.content = if unwritten s = [] then s.fd.content else landing s.fd (unwritten s) := by
  obtain ⟨-, hl⟩ := internalFflush_spec h
  rw [flushedOffset]
  by_cases hnil : unwritten s = []
  · rw [if_pos hnil] at hl
    rw [if_pos hnil, if_pos hnil, hl]
    simp
  rw [if_neg hnil] at hl
  rw [if_neg hnil, if_neg hnil]
  have hlen : ((unwritten s).length : Int) = buffered s := by
    rw [unwritten] at hnil ⊢
    split at hnil
    · rename_i hw
      rw [if_pos hw, pending, bytesAt_length]
      rfl
    · exact absurd rfl hnil
  rw [hl.offset, hl.content, landing, ← hlen]
  cases s.fd.append with
  | true | false => simp

/-! ## Runs -/

inductive Operation where
  | fgetc
  | fread (size nmemb : Nat)
  | ungetc (c : Int)
  | fputc (c : UInt8)
  | fwrite (bytes : List UInt8)
  | fflush
  | fseeko (offset : Int) (whence : Whence)

def operate (s : Stream FileFd) : Operation → Stream FileFd
  | .fgetc => (fgetc fileCalls s).2
  | .fread size nmemb => (fread fileCalls s size nmemb).2.2
  | .ungetc c => (ungetc s c).2
  | .fputc c => (fputc fileCalls s c).2
  | .fwrite bytes => (fwrite fileCalls s bytes).2
  | .fflush => (internalFflush fileCalls s).2
  | .fseeko offset whence => (fseeko fileCalls s offset whence).2

/-- A stream that was just opened; `_buffer_size` is an `int`. -/
structure Opened (s : Stream FileFd) : Prop extends Settled s where
  size : s.buffer.length < 2 ^ 31

/-- The positions of the buffer are inside of it, and the flag says that output
waits. -/
structure Kept (n : Nat) (s : Stream FileFd) : Prop where
  size : s.buffer.length = n
  start : s.bufferStart ≤ s.bufferEnd
  fits : s.bufferEnd ≤ n
  waits : s.written = true → s.bufferStart < s.bufferEnd

variable {n : Nat}

theorem Opened.kept (h : Opened s) : Kept s.buffer.length s :=
  ⟨rfl, by rw [h.bufferStart]; omega, by rw [h.bufferEnd]; exact Nat.zero_le _,
    fun hw => by rw [h.written] at hw; cases hw⟩

theorem Kept.mayRead (h : Kept n s) (hr : mayRead s = true) : s.written = false := by
  cases hw : s.written with
  | false => rfl
  | true =>
    have hlt := h.waits hw
    rw [Libc.mayRead, hw, Bool.and_true, Bool.and_eq_true, Bool.not_eq_true',
      Bool.or_eq_false_iff, decide_eq_false_iff_not, decide_eq_false_iff_not] at hr
    omega

theorem fdRead_length {size : Nat} (h : fdRead fd size = (some bs, fd')) : bs.length ≤ size := by
  have htake : ∀ k, ((fd.content.drop fd.offset).take (min k size)).length ≤ size := fun k => by
    rw [length_take]
    omega
  rw [fdRead] at h
  rcases hr : fd.replies with _ | ⟨_ | k, replies⟩ <;> rw [hr] at h
  · cases h
    exact htake _
  · cases h
  · cases h
    exact htake _

structure Reading (n : Nat) (s : Stream FileFd) : Prop extends Kept n s where
  written : s.written = false

section

variable (h : Reading n s)
include h

theorem Reading.refill :
    Reading n (refill fileCalls s).2 ∧ ((Libc.refill fileCalls s).1 = true →
        (Libc.refill fileCalls s).2.bufferStart < (Libc.refill fileCalls s).2.bufferEnd) := by
  rw [Libc.refill]
  by_cases hz : s.buffer.length = 0
  · rw [if_pos hz]
    exact ⟨⟨⟨h.size, h.start, h.fits, h.waits⟩, h.written⟩, by simp⟩
  rw [if_neg hz]
  dsimp only [fileCalls]
  rcases hr : fdRead s.fd s.buffer.length with ⟨_ | _ | ⟨b, bs⟩, fd1⟩
  · exact ⟨⟨⟨h.size, h.start, h.fits, h.waits⟩, h.written⟩, by simp⟩
  · exact ⟨⟨⟨h.size, h.start, h.fits, h.waits⟩, h.written⟩, by simp⟩
  · have hlen := fdRead_length hr
    refine ⟨⟨⟨?_, Nat.zero_le _, Nat.le_trans hlen (Nat.le_of_eq h.size), by simp⟩, rfl⟩, fun _ => Nat.succ_pos _⟩
    rw [length_append, length_drop, ← h.size]
    omega

theorem Reading.takeByte (hlt : s.bufferStart < s.bufferEnd) : Reading n (takeByte s).2 :=
  ⟨⟨h.size, hlt, h.fits, fun hw => absurd hw (by rw [Libc.takeByte, h.written]; simp)⟩, h.written⟩

theorem Reading.fgetc : Reading n (fgetc fileCalls s).2 := by
  rw [Libc.fgetc]
  split
  · exact ⟨⟨h.size, h.start, h.fits, h.waits⟩, h.written⟩
  split
  · exact ⟨⟨h.size, h.start, h.fits, h.waits⟩, h.written⟩
  split
  · rw [fgetcDirect]
    split <;> exact ⟨⟨h.size, h.start, h.fits, h.waits⟩, h.written⟩
  rw [fgetcBuffered]
  split
  · obtain ⟨hkeep, hlt⟩ := h.refill
    rcases hf : Libc.refill fileCalls s with ⟨_ | _, s1⟩ <;> rw [hf] at hkeep hlt
    · exact hkeep
    · exact hkeep.takeByte (hlt rfl)
  · exact h.takeByte (by omega)

theorem Reading.takeUngetc (left : Nat) : Reading n (takeUngetc s left).2 := by
  rw [Libc.takeUngetc]
  split
  · exact h
  · split
    · exact h
    · exact ⟨⟨h.size, h.start, h.fits, h.waits⟩, h.written⟩

theorem Reading.takeBytes (left : Nat) : Reading n (takeBytes s left).2 := by
  refine ⟨⟨h.size, ?_, h.fits, fun hw => absurd hw ?_⟩, h.written⟩
  · have := h.start
    show s.bufferStart + min left (s.bufferEnd - s.bufferStart) ≤ s.bufferEnd
    omega
  · rw [Libc.takeBytes, h.written]
    simp

end

theorem Reading.readBuffered (fuel : Nat) : ∀ {s : Stream FileFd} (left : Nat), Reading n s →
    Reading n (readBuffered fileCalls fuel left s).2 := by
  induction fuel with
  | zero => exact fun _ h => h
  | succ fuel ih =>
    intro s left h
    have hfull : Reading n (if s.bufferStart ≥ s.bufferEnd then Libc.refill fileCalls s
        else (true, s)).2 := by
      split
      · exact h.refill.1
      · exact h
    rw [Libc.readBuffered]
    obtain ⟨r, hr⟩ : ∃ r, r = if s.bufferStart ≥ s.bufferEnd then Libc.refill fileCalls s
        else (true, s) := ⟨_, rfl⟩
    rw [← hr] at hfull ⊢
    dsimp only at hfull ⊢
    split
    · exact hfull
    · split
      · exact (hfull.takeUngetc left).takeBytes _
      · exact ih _ ((hfull.takeUngetc left).takeBytes _)

theorem Reading.readEnd (h : Reading n s) (r : Option (List UInt8) × FileFd) :
    Reading n (readEnd s r).2 := by
  rw [Libc.readEnd.eq_def]
  split <;> exact ⟨⟨h.size, h.start, h.fits, h.waits⟩, h.written⟩

theorem Reading.readDirect (h : Reading n s) (size : Nat) :
    Reading n (readDirect fileCalls s size).2 := by
  rw [Libc.readDirect]
  split
  · split
    · exact h.readEnd _
    · exact h.readEnd _
  · exact h.readEnd _

theorem Kept.myRead (h : Kept n s) (size : Nat) : Kept n (myRead fileCalls s size).2 := by
  rw [Libc.myRead]
  split
  · exact ⟨h.size, h.start, h.fits, h.waits⟩
  rename_i hr
  have hreading : Reading n s := ⟨h, h.mayRead (by simpa using hr)⟩
  split
  · dsimp only
    split
    · exact (hreading.takeUngetc size).toKept
    · exact ((hreading.takeUngetc size).readDirect _).toKept
  · exact (hreading.readBuffered _ _).toKept

theorem Kept.fgetc (h : Kept n s) : Kept n (fgetc fileCalls s).2 := by
  by_cases hr : Libc.mayRead s = true
  · exact (Reading.fgetc ⟨h, h.mayRead hr⟩).toKept
  · rw [Libc.fgetc, if_pos (by simpa using hr)]
    exact ⟨h.size, h.start, h.fits, h.waits⟩

theorem Kept.fread (h : Kept n s) (size nmemb : Nat) :
    Kept n (fread fileCalls s size nmemb).2.2 := by
  rw [Libc.fread]
  split
  · exact h
  · exact h.myRead _

theorem Kept.flushLoop (rounds : Nat) : ∀ {s : Stream FileFd}, Kept n s →
    ((flushLoop fileCalls rounds s).1 = false → Kept n (flushLoop fileCalls rounds s).2) ∧
      (flushLoop fileCalls rounds s).2.buffer.length = n := by
  induction rounds with
  | zero => exact fun h => ⟨by simp [Libc.flushLoop], h.size⟩
  | succ rounds ih =>
    intro s h
    rw [Libc.flushLoop]
    by_cases hlt : s.bufferStart < s.bufferEnd
    · rw [if_pos hlt]
      rcases hw : writeSome fileCalls retryCount s.fd (pending s) with ⟨_ | w, fd1⟩
      · exact ⟨fun _ => ⟨h.size, h.start, h.fits, fun _ => hlt⟩, h.size⟩
      dsimp only
      by_cases hmore : s.bufferStart + w < s.bufferEnd
      · exact ih ⟨h.size, le_of_lt hmore, h.fits, fun _ => hmore⟩
      have hdone : Libc.flushLoop fileCalls rounds
          { s with fd := fd1, bufferStart := s.bufferStart + w } =
          (true, { s with fd := fd1, bufferStart := s.bufferStart + w }) := by
        cases rounds with
        | zero => rfl
        | succ rounds => rw [Libc.flushLoop, if_neg hmore]
      rw [hdone]
      exact ⟨by simp, h.size⟩
    · rw [if_neg hlt]
      exact ⟨by simp, h.size⟩

section

variable (h : Kept n s)
include h

theorem Kept.internalFflush : Kept n (internalFflush fileCalls s).2 := by
  rw [Libc.internalFflush]
  split
  · exact h
  obtain ⟨hkeep, hsize⟩ := h.flushLoop (s.bufferEnd - s.bufferStart)
  rcases hf : Libc.flushLoop fileCalls (s.bufferEnd - s.bufferStart) s with ⟨_ | _, s1⟩ <;>
    rw [hf] at hkeep hsize
  · exact hkeep rfl
  · exact ⟨hsize, Nat.le_refl 0, Nat.zero_le n, by simp⟩

theorem Kept.store (hroom : s.bufferEnd < s.buffer.length) (c : UInt8) : Kept n (store s c) :=
  ⟨by simp [Libc.store, h.size], Nat.le_succ_of_le h.start,
    by rw [← h.size]; exact hroom, fun _ => Nat.lt_succ_of_le h.start⟩

theorem Kept.flushLine (c : UInt8) : Kept n (flushLine fileCalls s c).2 := by
  rw [Libc.flushLine]
  split
  · exact h.internalFflush
  · exact h

theorem Kept.flushFull : Kept n (flushFull fileCalls s).2 := by
  rw [Libc.flushFull]
  split
  · exact h.internalFflush
  · exact h

theorem Kept.putBuffered (c : UInt8) : Kept n (putBuffered fileCalls s c).2.2 := by
  rw [Libc.putBuffered]
  split
  · exact ⟨h.size, h.start, h.fits, h.waits⟩
  · have hline := (h.store (by omega) c).flushLine c
    rcases hf : Libc.flushLine fileCalls (Libc.store s c) c with ⟨_ | _, s1⟩ <;> rw [hf] at hline
    · exact hline
    · exact hline.flushFull

theorem Kept.fputc (c : UInt8) : Kept n (fputc fileCalls s c).2 := by
  rw [Libc.fputc]
  split
  · exact ⟨h.size, h.start, h.fits, h.waits⟩
  split
  · split <;> exact ⟨h.size, h.start, h.fits, h.waits⟩
  · exact h.putBuffered c

end

theorem Kept.writeBuffered (bytes : List UInt8) : ∀ {s : Stream FileFd}, Kept n s →
    Kept n (writeBuffered fileCalls bytes s).2 := by
  induction bytes with
  | nil => exact fun h => h
  | cons c bytes ih =>
    intro s h
    have hput := h.putBuffered c
    rw [Libc.writeBuffered]
    rcases hp : Libc.putBuffered fileCalls s c with ⟨_ | _, _ | _, s1⟩ <;> rw [hp] at hput
    · exact hput
    · exact hput
    · exact ⟨hput.size, hput.start, hput.fits, hput.waits⟩
    · exact ih hput

section

variable (h : Kept n s)
include h

theorem Kept.fwrite (bytes : List UInt8) : Kept n (fwrite fileCalls s bytes).2 := by
  rw [Libc.fwrite]
  split
  · exact h
  split
  · exact ⟨h.size, h.start, h.fits, h.waits⟩
  split
  · split <;> exact ⟨h.size, h.start, h.fits, h.waits⟩
  · exact h.writeBuffered bytes

theorem Kept.reposition (offset : Int) (whence : Whence) :
    Kept n (reposition fileCalls s offset whence).2 := by
  have hflush := h.internalFflush
  rw [Libc.reposition]
  rcases hf : Libc.internalFflush fileCalls s with ⟨_ | _, s1⟩ <;> rw [hf] at hflush
  · exact hflush
  · dsimp only
    split
    · exact ⟨hflush.size, hflush.start, hflush.fits, hflush.waits⟩
    · exact ⟨hflush.size, Nat.le_refl 0, Nat.zero_le n, by simp⟩

theorem Kept.fseeko (offset : Int) (whence : Whence) :
    Kept n (fseeko fileCalls s offset whence).2 := by
  cases whence with
  | SEEK_SET =>
    rw [Libc.fseeko]
    split
    · exact h
    · exact h.reposition _ _
  | SEEK_CUR =>
    rw [Libc.fseeko]
    split
    · exact h
    dsimp only
    split
    · exact h
    · exact h.reposition _ _
  | SEEK_END => exact h.reposition _ _

theorem Kept.operate (op : Operation) : Kept n (operate s op) := by
  cases op with
  | fgetc => exact h.fgetc
  | fread size nmemb => exact h.fread size nmemb
  | ungetc c =>
    rw [Libc.operate, ungetc]
    split <;> exact ⟨h.size, h.start, h.fits, h.waits⟩
  | fputc c => exact h.fputc c
  | fwrite bytes => exact h.fwrite bytes
  | fflush => exact h.internalFflush
  | fseeko offset whence => exact h.fseeko offset whence

end

abbrev Operations : Stream FileFd → List Operation → Stream FileFd → Prop :=
  Lib.Run fun s op s' => s' = operate s op

theorem Opened.run {s0 : Stream FileFd} {ops : List Operation} (h : Opened s0)
    (hrun : Operations s0 ops s) : Kept s0.buffer.length s :=
  hrun.invariant (fun _ op _ hkept hstep => hstep ▸ hkept.operate op) h.kept

/-! ## The agreement -/

/-- The position of the stream: output that waits is after the offset, input
that waits is before it. -/
def position (s : Stream FileFd) : Int :=
  if s.written then s.fd.offset + buffered s else s.fd.offset - (buffered s + extra s)

/-- A seek by `off` may be made: no output waits (but for a file that is
appended to, which may happen to end where the output is counted to), no byte
is pushed back before the first one of the file, and the positions are in the
range of `off_t`. -/
structure Steady (s : Stream FileFd) (off : Int) : Prop where
  waits : s.written = true → s.fd.append = true ∧
    s.fd.content.length = s.fd.offset + (s.bufferEnd - s.bufferStart) + extra s
  first : 0 ≤ position s
  range : (s.fd.offset : Int) ≤ llongMax ∧ position s ≤ llongMax ∧ position s + off ≤ llongMax

theorem Settled.ftello (h : Settled s) :
    (ftello fileCalls s).1 =
      if s.fd.offset < 2 ^ 64 then some (min (s.fd.offset : Int) llongMax) else none := by
  have hcount : buffered s = 0 := by rw [buffered, h.bufferStart, h.bufferEnd]; rfl
  have hextra : extra s = 0 := by rw [extra, h.ungetc]; rfl
  rw [ftello_eq (le_of_eq (h.bufferStart.trans h.bufferEnd.symm)), hcount, hextra, h.written]
  congr 1
  rw [if_neg (by simp)]
  congr 1
  unfold llongMax
  omega

theorem ftello_some (hle : s.bufferStart ≤ s.bufferEnd) {q : Int} :
    (ftello fileCalls s).1 = some q ↔ s.fd.offset < 2 ^ 64 ∧ if s.written then
          min (s.fd.offset : Int) llongMax + buffered s ≤ llongMax ∧
            q = min (s.fd.offset : Int) llongMax + buffered s
        else q = max 0 (min (s.fd.offset : Int) llongMax - (buffered s + extra s)) := by
  rw [ftello_eq hle]
  by_cases ho : s.fd.offset < 2 ^ 64
  · rw [if_pos ho]
    cases s.written with
    | true =>
      simp only [if_true]
      by_cases hc : min (s.fd.offset : Int) llongMax > llongMax - buffered s
      · rw [if_pos hc]
        exact iff_of_false (by simp) (fun h => by omega)
      · rw [if_neg hc, some.injEq]
        omega
    | false =>
      simp only [Bool.false_eq_true, if_false, some.injEq]
      exact ⟨fun h => ⟨ho, h.symm⟩, fun h => h.2.symm⟩
  · rw [if_neg ho]
    exact iff_of_false (by simp) (fun h => ho h.1)

theorem Steady.ftello (h : Steady s off) (hle : s.bufferStart ≤ s.bufferEnd) :
    (ftello fileCalls s).1 = some (position s) := by
  obtain ⟨ho, hp, -⟩ := h.range
  have hfirst := h.first
  rw [ftello_some hle, Int.min_eq_left ho]
  refine ⟨by unfold llongMax at ho; omega, ?_⟩
  rw [position] at hfirst hp ⊢
  cases hw : s.written with
  | true =>
    rw [hw, if_pos rfl] at hp
    simp only [if_true]
    exact ⟨hp, trivial⟩
  | false =>
    rw [hw, if_neg Bool.false_ne_true] at hfirst
    simp only [Bool.false_eq_true, if_false]
    omega

theorem flushedOffset_read (hw : s.written = false) : flushedOffset s = s.fd.offset := by
  rw [flushedOffset, if_pos (unwritten_eq_nil.2 fun h => by rw [hw] at h; cases h)]

theorem flushedOffset_written (hw : s.written = true) (hlt : s.bufferStart < s.bufferEnd) :
    flushedOffset s =
      if s.fd.append then s.fd.content.length + buffered s else s.fd.offset + buffered s := by
  rw [flushedOffset, if_neg fun hnil => absurd (unwritten_eq_nil.1 hnil hw) (not_le.2 hlt)]

/-- The offset after the flush, less what `fseeko` counts, is the position. -/
theorem Steady.flushed (h : Steady s off) (hlt : s.written = true → s.bufferStart < s.bufferEnd) :
    flushedOffset s - (buffered s + extra s) = position s := by
  rw [position]
  cases hw : s.written with
  | true =>
    obtain ⟨happ, hlen⟩ := h.waits hw
    rw [flushedOffset_written hw (hlt hw), if_pos happ, if_pos rfl]
    unfold buffered
    omega
  | false => rw [flushedOffset_read hw, if_neg Bool.false_ne_true]

/-- **A seek agrees with `ftello`** just if the stream is steady, after any
operations. -/
theorem fseeko_tells_iff {s0 : Stream FileFd} {ops : List Operation} {off : Int}
    (h0 : Opened s0) (hrun : Operations s0 ops s)
    (h : fseeko fileCalls s off .SEEK_CUR = (true, s')) :
    SeekTells s s' off ↔ Steady s off := by
  have hkept := h0.run hrun
  have hsize := h0.size
  have hfits := hkept.fits
  obtain ⟨hle, s1, hf, hoffset, hcontent, happend, hsettled⟩ := fseeko_cur h
  obtain ⟨hflushed, hbytes⟩ := internalFflush_offset hf
  have hb : 0 ≤ buffered s ∧ buffered s < 2 ^ 31 := by
    unfold buffered
    omega
  have he : extra s ≤ 1 := by
    unfold extra
    split <;> omega
  have hoff : (s'.fd.offset : Int) = flushedOffset s - (buffered s + extra s) + off := by omega
  constructor
  · intro ht
    obtain ⟨q, hq, hq', hat⟩ := ht.told
    obtain ⟨ho, hq⟩ := (ftello_some hle).1 hq
    have hafter : q + off ≤ llongMax := by
      rw [hsettled.ftello, hat] at hq'
      split at hq'
      · have := some.inj hq'
        omega
      · cases hq'
    cases hw : s.written with
    | true =>
      -- the seek leaves the bytes before the position that it counts from
      have hlt := hkept.waits hw
      have hpos : 1 ≤ buffered s := by
        unfold buffered
        omega
      rw [flushedOffset_written hw hlt] at hoff
      rw [hw, if_pos rfl] at hq
      obtain ⟨hrange, rfl⟩ := hq
      have hposition : position s = s.fd.offset + buffered s := by rw [position, hw, if_pos rfl]
      cases happ : s.fd.append with
      | true =>
        rw [happ, if_pos rfl] at hoff
        refine ⟨fun _ => ⟨happ, ?_⟩, by omega, by omega, by omega, by omega⟩
        unfold buffered at hoff hat hrange hpos
        omega
      | false =>
        rw [happ, if_neg Bool.false_ne_true] at hoff
        omega
    | false =>
      rw [flushedOffset_read hw] at hoff
      rw [hw, if_neg Bool.false_ne_true] at hq
      have hposition : position s = s.fd.offset - (buffered s + extra s) := by
        rw [position, hw, if_neg Bool.false_ne_true]
      have ho : (s.fd.offset : Int) ≤ llongMax := by
        unfold llongMax at hq ⊢
        omega
      exact ⟨fun h => (by rw [hw] at h; cases h), by omega, ho, by omega, by omega⟩
  · intro ht
    have hposition := ht.flushed hkept.waits
    have hafter := ht.range.2.2
    have hat : (s'.fd.offset : Int) = position s + off := by omega
    refine ⟨⟨position s, ht.ftello hle, ?_, hat⟩, fun c s2 hg => hsettled.fgetc hg,
      fun c s2 s3 hp hfl => hsettled.fputc hp hfl, ?_⟩
    · rw [hsettled.ftello, if_pos, hat, Int.min_eq_left hafter]
      unfold llongMax at hafter
      omega
    · rw [hcontent, hbytes]

/-- A file of four bytes, read with a buffer of three. -/
def lettersStream : Stream FileFd :=
  ⟨⟨[97, 98, 99, 100], 0, false, []⟩, false, false, none, .O_RDWR, .IOFBF, false, 0, 0, [0, 0, 0]⟩

theorem lettersStream_opened : Opened lettersStream := ⟨⟨rfl, rfl, rfl, rfl⟩, by decide⟩

/-- Two bytes are read, one is pushed back, and one is skipped. -/
theorem fseeko_tells_letters :
    Opened lettersStream ∧ ∃ s s', Operations lettersStream [.fgetc, .fgetc, .ungetc 98] s ∧
        fseeko fileCalls s 1 .SEEK_CUR = (true, s') ∧ SeekTells s s' 1 :=
  ⟨lettersStream_opened, _, _, Lib.Run.foldl operate _ _, rfl,
    (fseeko_tells_iff lettersStream_opened (Lib.Run.foldl operate _ _) rfl).2
      ⟨by decide, by decide, by decide, by decide, by decide⟩⟩

/-- A byte that waits to be written, and one that is pushed back at the start:
the seek to the same place does not stay there. -/
theorem fseeko_leaves :
    (∃ s s', Operations lettersStream [.fputc 120] s ∧
        fseeko fileCalls s 0 .SEEK_CUR = (true, s') ∧
        (ftello fileCalls s).1 = some 1 ∧ (ftello fileCalls s').1 = some 0 ∧
        ¬ SeekTells s s' 0) ∧
      ∃ s s', Operations lettersStream [.ungetc 120] s ∧
        fseeko fileCalls s 1 .SEEK_CUR = (true, s') ∧
        (ftello fileCalls s).1 = some 0 ∧ (ftello fileCalls s').1 = some 0 ∧
        ¬ SeekTells s s' 1 :=
  ⟨⟨_, _, Lib.Run.foldl operate _ _, rfl, by decide, by decide,
      fun h => absurd (h.tells (q := 1) (by decide)) (by decide)⟩,
    ⟨_, _, Lib.Run.foldl operate _ _, rfl, by decide, by decide,
      fun h => absurd (h.tells (q := 0) (by decide)) (by decide)⟩⟩

end Dancy.Libc
