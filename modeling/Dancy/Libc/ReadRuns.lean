import Dancy.Libc.Stream

/-!
# Bytes and blocks (`fread.c`, `fgetc.c`)

`fread` takes bytes from the buffer in one go, or reads into the memory of
its caller; `fgetc` takes them one by one. Both are compared with the items
that lie ahead of a stream: bytes, and the answers of `read` that end a call.
-/

namespace Dancy.Libc

open List Option

/-! ## What `read` answers -/

/-- The answers of `read`: an error, the end of the file, or bytes that are
there. A call takes as many of these as it asks for, the next one the rest. An
empty tape is the end of the file for good. -/
abbrev Tape := List (Option (List UInt8))

def tapeRead : Tape → (size : Nat) → Option (List UInt8) × Tape
  | [], _ => (some [], [])
  | none :: t, _ => (none, t)
  | some bs :: t, size =>
    if bs.length ≤ size then (some bs, t) else (some (bs.take size), some (bs.drop size) :: t)

def tapeCalls : Calls Tape := ⟨tapeRead, fun t _ => (none, t), fun t _ _ => (none, t)⟩

inductive Stop where
  | eof
  | error
deriving DecidableEq

/-- An item ahead of a stream. A refusal is an error that stays. -/
inductive Item where
  | byte (b : UInt8)
  | stop (e : Stop)
  | refusal
deriving DecidableEq

def Item.bytes (bs : List UInt8) : List Item := bs.map .byte

def items : Tape → List Item
  | [] => []
  | none :: t => .stop .error :: items t
  | some [] :: t => .stop .eof :: items t
  | some (b :: bs) :: t => Item.bytes (b :: bs) ++ items t

def pull : List Item → Except Stop UInt8 × List Item
  | [] => (.error .eof, [])
  | .byte b :: l => (.ok b, l)
  | .stop e :: l => (.error e, l)
  | .refusal :: l => (.error .error, .refusal :: l)

/-- The bytes up to the first stop, `n` at most. -/
def pulls : Nat → List Item → List UInt8 × Option Stop × List Item
  | 0, l => ([], none, l)
  | n + 1, l =>
    match pull l with
    | (.ok b, l) => (b :: (pulls n l).1, (pulls n l).2)
    | (.error e, l) => ([], some e, l)

theorem pulls_bytes (bs : List UInt8) : ∀ (n : Nat) (l : List Item),
    pulls (bs.length + n) (Item.bytes bs ++ l) = (bs ++ (pulls n l).1, (pulls n l).2) := by
  induction bs with
  | nil =>
    intro n l
    rw [length_nil, zero_add]
    rfl
  | cons b bs ih =>
    intro n l
    rw [length_cons, add_right_comm]
    show (b :: (pulls (bs.length + n) (Item.bytes bs ++ l)).1,
      (pulls (bs.length + n) (Item.bytes bs ++ l)).2) = _
    rw [ih n l]
    rfl

variable {s s' : Stream Tape} {n : Nat}

def near (s : Stream Tape) : List UInt8 :=
  s.ungetc.toList ++ if s.buffering = .IONBF then [] else pending s

/-- What lies ahead of a stream: it refuses to read where it was written, and
with a buffer that has no room. -/
def ahead (s : Stream Tape) : List Item :=
  (if mayRead s = false then [.refusal] else []) ++ (Item.bytes (near s) ++
    ((if s.buffering ≠ .IONBF ∧ s.buffer.length = 0 then [.refusal] else []) ++ items s.fd))

/-- `r` is what pulling `n` items from `s` gives, with the flags. -/
structure Reads (s : Stream Tape) (n : Nat) (r : List UInt8 × Stream Tape) : Prop where
  bytes : r.1 = (pulls n (ahead s)).1
  rest : ahead r.2 = (pulls n (ahead s)).2.2
  eof : r.2.eof = (s.eof || (pulls n (ahead s)).2.1 = some .eof)
  error : r.2.error = (s.error || (pulls n (ahead s)).2.1 = some .error)

/-- Calls of `fgetc` up to the first `EOF`, `n` at most. -/
def fgetcs : Nat → Stream Tape → List UInt8 × Stream Tape
  | 0, s => ([], s)
  | n + 1, s =>
    match fgetc tapeCalls s with
    | (none, s) => ([], s)
    | (some b, s) => (b :: (fgetcs n s).1, (fgetcs n s).2)

section

variable {t t' : Tape} {size : Nat}

theorem tapeRead_error (h : tapeRead t size = (none, t')) :
    pull (items t) = (.error .error, items t') := by
  rcases t with _ | ⟨_ | bs, t⟩
  · cases h
  · cases h
    rfl
  · rw [tapeRead] at h
    split at h <;> cases h

theorem tapeRead_eof (hsize : 0 < size) (h : tapeRead t size = (some [], t')) :
    pull (items t) = (.error .eof, items t') := by
  rcases t with _ | ⟨_ | bs, t⟩
  · cases h
    rfl
  · cases h
  rw [tapeRead] at h
  split at h
  · cases h
    rfl
  rename_i hlong
  have hnil : bs.take size = [] := some.inj (Prod.mk.inj h).1
  rcases take_eq_nil_iff.1 hnil with h0 | rfl
  · omega
  · exact absurd (Nat.zero_le _) hlong

theorem tapeRead_bytes {b : UInt8} {bs : List UInt8}
    (h : tapeRead t size = (some (b :: bs), t')) :
    (b :: bs).length ≤ size ∧ items t = Item.bytes (b :: bs) ++ items t' := by
  rcases t with _ | ⟨_ | cs, t⟩
  · cases h
  · cases h
  rw [tapeRead] at h
  split at h
  · rename_i hle
    cases h
    exact ⟨hle, rfl⟩
  rename_i hlong
  obtain ⟨htake, rfl⟩ := Prod.mk.inj h
  have htake : cs.take size = b :: bs := some.inj htake
  have hcs : cs = (b :: bs) ++ cs.drop size := by
    rw [← htake, take_append_drop]
  refine ⟨by rw [← htake, length_take]; omega, ?_⟩
  obtain ⟨c, rest, hrest⟩ : ∃ c rest, cs.drop size = c :: rest := by
    cases hd : cs.drop size with
    | nil => exact absurd (drop_eq_nil_iff.1 hd) hlong
    | cons c rest => simp
  rw [hrest] at hcs ⊢
  rw [hcs]
  simp [items, Item.bytes]

end

theorem pulls_stop (n : Nat) : ∀ l : List Item,
    (pulls n l).2.1 = none ↔ (pulls n l).1.length = n := by
  induction n with
  | zero => exact fun _ => ⟨fun _ => rfl, fun _ => rfl⟩
  | succ n ih =>
    intro l
    rw [pulls]
    split
    · rw [length_cons, Nat.succ.injEq]
      exact ih _
    · simp

theorem pulls_add (a b : Nat) : ∀ l : List Item, pulls (a + b) l = if (pulls a l).2.1 = none then
      ((pulls a l).1 ++ (pulls b (pulls a l).2.2).1, (pulls b (pulls a l).2.2).2)
    else pulls a l := by
  induction a with
  | zero =>
    intro l
    rw [zero_add]
    rfl
  | succ a ih =>
    intro l
    rw [add_right_comm, pulls, pulls]
    split
    · rename_i b' l' _
      rw [ih l']
      split <;> rfl
    · simp

theorem Reads.zero (s : Stream Tape) : Reads s 0 ([], s) :=
  ⟨rfl, rfl, by simp [pulls], by simp [pulls]⟩

variable {a : Nat} {xs : List UInt8} {s1 : Stream Tape}

theorem Reads.append_iff {b : Nat} {ys : List UInt8} {s2 : Stream Tape} (h1 : Reads s a (xs, s1))
    (hlen : xs.length = a) :
    Reads s (a + b) (xs ++ ys, s2) ↔ Reads s1 b (ys, s2) := by
  have hstop : (pulls a (ahead s)).2.1 = none := (pulls_stop a _).2 (h1.bytes ▸ hlen)
  have hpull := pulls_add a b (ahead s)
  have hrest : ahead s1 = (pulls a (ahead s)).2.2 := h1.rest
  rw [if_pos hstop, ← h1.bytes, ← hrest] at hpull
  have heof : s1.eof = s.eof := by simpa [hstop] using h1.eof
  have herror : s1.error = s.error := by simpa [hstop] using h1.error
  constructor
  · intro h
    refine ⟨?_, ?_, ?_, ?_⟩
    · have := h.bytes
      rw [hpull] at this
      exact append_cancel_left this
    · rw [h.rest, hpull]
    · rw [h.eof, hpull, heof]
    · rw [h.error, hpull, herror]
  · intro h
    refine ⟨?_, ?_, ?_, ?_⟩
    · rw [hpull, ← h.bytes]
    · rw [hpull, h.rest]
    · rw [hpull, h.eof, heof]
    · rw [hpull, h.error, herror]

theorem Reads.append {b : Nat} {ys : List UInt8} {s2 : Stream Tape} (h1 : Reads s a (xs, s1))
    (hlen : xs.length = a) (h2 : Reads s1 b (ys, s2)) :
    Reads s (a + b) (xs ++ ys, s2) := (h1.append_iff hlen).2 h2

theorem Reads.stopped (h : Reads s a (xs, s1)) (hlen : xs.length < a) (b : Nat) :
    Reads s (a + b) (xs, s1) := by
  have hstop : ¬ (pulls a (ahead s)).2.1 = none := fun hnone => by
    have := (pulls_stop a _).1 hnone
    rw [← h.bytes] at this
    exact absurd this (ne_of_lt hlen)
  have hpull := pulls_add a b (ahead s)
  rw [if_neg hstop] at hpull
  exact ⟨by rw [hpull]; exact h.bytes, by rw [hpull]; exact h.rest, by rw [hpull]; exact h.eof,
    by rw [hpull]; exact h.error⟩

theorem Reads.congr {r : List UInt8 × Stream Tape} (h : Reads s' n r) (hahead : ahead s' = ahead s)
    (heof : s'.eof = s.eof) (herror : s'.error = s.error) : Reads s n r :=
  ⟨hahead ▸ h.bytes, hahead ▸ h.rest, by rw [h.eof, hahead, heof], by rw [h.error, hahead, herror]⟩

/-! ## The buffer -/

/-- The part of `ahead` behind the buffer. -/
def beyond (s : Stream Tape) : List Item :=
  (if s.buffering ≠ .IONBF ∧ s.buffer.length = 0 then [.refusal] else []) ++ items s.fd

theorem ahead_eq (h : mayRead s = true) : ahead s = Item.bytes (near s) ++ beyond s := by
  rw [ahead, h]
  rfl

theorem near_direct (h : s.buffering = .IONBF) : near s = s.ungetc.toList := by
  simp [near, if_pos h]

theorem near_buffered (h : s.buffering ≠ .IONBF) : near s = s.ungetc.toList ++ pending s := by
  rw [near, if_neg h]

theorem beyond_direct (h : s.buffering = .IONBF) : beyond s = items s.fd := by
  rw [beyond, if_neg fun hc => hc.1 h]
  rfl

theorem pending_nil (h : s.bufferStart ≥ s.bufferEnd) : pending s = [] := by
  rw [pending, Nat.sub_eq_zero_of_le h]
  rfl

theorem Reads.refused (h : mayRead s = false) (n : Nat) :
    Reads s n ([], { s with error := if n = 0 then s.error else true }) := by
  have hahead : ahead s = .refusal :: (Item.bytes (near s) ++ beyond s) := by
    rw [ahead, h]
    rfl
  cases n with
  | zero => exact Reads.zero s
  | succ n =>
    refine ⟨?_, ?_, ?_, ?_⟩
    · rw [hahead]
      rfl
    · rwa [hahead]
    all_goals
      rw [hahead]
      simp [pulls, pull]

theorem Reads.of_pull {e : Stop} (hp : pull (ahead s) = (.error e, ahead s1))
    (heof : s1.eof = (s.eof || e = .eof)) (herror : s1.error = (s.error || e = .error)) (n : Nat) :
    Reads s (n + 1) ([], s1) := by
  have hpulls : pulls (n + 1) (ahead s) = ([], some e, ahead s1) := by rw [pulls, hp]
  refine ⟨by rw [hpulls], by rw [hpulls], ?_, ?_⟩
  · rw [hpulls, heof]
    simp
  · rw [hpulls, herror]
    simp

theorem Reads.ungetc {c : UInt8} (hmay : mayRead s = true) (hc : s.ungetc = some c) :
    Reads s 1 ([c], { s with ungetc := none }) ∧ mayRead { s with ungetc := none } = true := by
  have hmay' : mayRead { s with ungetc := none } = true := hmay
  have hahead : ahead s = .byte c :: ahead { s with ungetc := none } := by
    rw [ahead_eq hmay, ahead_eq hmay', near, hc]
    rfl
  refine ⟨⟨?_, ?_, ?_, ?_⟩, hmay'⟩
  · rw [hahead]
    rfl
  · rw [hahead]
    rfl
  all_goals
    rw [hahead]
    simp [pulls, pull]

theorem Reads.takeBytes (hmay : mayRead s = true) (hbuf : s.buffering ≠ .IONBF)
    (hnone : s.ungetc = none) (left : Nat) :
    Reads s (min left (s.bufferEnd - s.bufferStart)) (takeBytes s left) ∧
      mayRead (takeBytes s left).2 = true ∧ (takeBytes s left).2.buffering ≠ .IONBF ∧
        (takeBytes s left).2.ungetc = none ∧
          (takeBytes s left).2.bufferEnd - (takeBytes s left).2.bufferStart =
            s.bufferEnd - s.bufferStart - min left (s.bufferEnd - s.bufferStart) := by
  obtain ⟨k, hk⟩ : ∃ k, k = min left (s.bufferEnd - s.bufferStart) := ⟨_, rfl⟩
  have htake : Libc.takeBytes s left =
      (bytesAt s.buffer s.bufferStart k, { s with bufferStart := s.bufferStart + k }) := by
    rw [Libc.takeBytes, ← hk]
  rw [htake, ← hk]
  have hmay' : mayRead { s with bufferStart := s.bufferStart + k } = true := by
    simp only [mayRead, Bool.and_eq_true, Bool.not_eq_true', Bool.and_eq_false_iff,
      Bool.or_eq_false_iff, decide_eq_false_iff_not] at hmay ⊢
    refine ⟨hmay.1, ?_⟩
    rcases hmay.2 with h0 | hw
    · omega
    · exact .inr hw
  have hsplit : pending s = bytesAt s.buffer s.bufferStart k ++
      pending { s with bufferStart := s.bufferStart + k } := by
    rw [pending, pending, ← bytesAt_add]
    congr 1
    show s.bufferEnd - s.bufferStart = k + (s.bufferEnd - (s.bufferStart + k))
    omega
  have hahead : ahead s = Item.bytes (bytesAt s.buffer s.bufferStart k) ++
      ahead { s with bufferStart := s.bufferStart + k } := by
    rw [ahead_eq hmay, ahead_eq hmay', near_buffered hbuf,
      near_buffered (s := { s with bufferStart := s.bufferStart + k }) hbuf, hsplit, hnone]
    simp [Item.bytes, beyond]
  refine ⟨?_, hmay', hbuf, hnone, ?_⟩
  · have hpull := pulls_bytes (bytesAt s.buffer s.bufferStart k) 0
      (ahead { s with bufferStart := s.bufferStart + k })
    rw [bytesAt_length, add_zero, ← hahead] at hpull
    exact ⟨by rw [hpull]; simp [pulls], by rw [hpull]; rfl, by rw [hpull]; simp [pulls],
      by rw [hpull]; simp [pulls]⟩
  · show s.bufferEnd - (s.bufferStart + k) = _
    omega

/-- The next answer of `read` has a byte. -/
def hasByte : Tape → Bool
  | some (_ :: _) :: _ => true
  | _ => false

theorem tapeRead_hasByte {t : Tape} {size : Nat} (hsize : 0 < size) :
    hasByte t = true ↔ ∃ b bs t', tapeRead t size = (some (b :: bs), t') := by
  rcases t with _ | ⟨_ | _ | ⟨b, bs⟩, t⟩
  · simp [hasByte, tapeRead]
  · simp [hasByte, tapeRead]
  · simp [hasByte, tapeRead]
  obtain ⟨n, rfl⟩ : ∃ n, size = n + 1 := ⟨size - 1, by omega⟩
  rw [tapeRead]
  by_cases hle : (b :: bs).length ≤ n + 1
  · rw [if_pos hle]
    simp [hasByte]
  · rw [if_neg hle]
    simp [hasByte]

def canRefill (s : Stream Tape) : Bool := s.buffer.length ≠ 0 && hasByte s.fd

section

variable (hmay : mayRead s = true) (hbuf : s.buffering ≠ .IONBF)
include hmay hbuf

theorem refill_true (hempty : s.bufferStart ≥ s.bufferEnd) (hcan : canRefill s = true) :
    ∃ s1, refill tapeCalls s = (true, s1) ∧ mayRead s1 = true ∧ s1.buffering ≠ .IONBF ∧
      s1.ungetc = s.ungetc ∧ s1.bufferStart < s1.bufferEnd ∧ ahead s1 = ahead s ∧
        s1.eof = s.eof ∧ s1.error = s.error := by
  simp only [canRefill, Bool.and_eq_true, decide_eq_true_eq] at hcan
  obtain ⟨b, bs, t', hread⟩ := (tapeRead_hasByte (Nat.pos_of_ne_zero hcan.1)).1 hcan.2
  obtain ⟨hle, hitems⟩ := tapeRead_bytes hread
  obtain ⟨s1, hs1⟩ : ∃ s1 : Stream Tape, s1 = { s with
    fd := t'
    written := false
    bufferStart := 0
    bufferEnd := (b :: bs).length
    buffer := b :: bs ++ s.buffer.drop (b :: bs).length } := ⟨_, rfl⟩
  have hrefill : refill tapeCalls s = (true, s1) := by
    rw [refill, if_neg hcan.1]
    simp only [tapeCalls, hread, hs1]
  have hmode : s.mode ≠ .O_WRONLY := by
    simp only [mayRead, Bool.and_eq_true, decide_eq_true_eq] at hmay
    exact hmay.1
  have hmay1 : mayRead s1 = true := by
    rw [hs1]
    simp [mayRead, hmode]
  have hpending : pending s1 = b :: bs := by
    rw [pending, hs1]
    exact bytesAt_append (b :: bs) _
  have hbeyond : Item.bytes (pending s1) ++ beyond s1 = beyond s := by
    have hroom : s1.buffer.length ≠ 0 := by rw [hs1]; simp
    have hfd : s1.fd = t' := by rw [hs1]
    rw [hpending, beyond, if_neg fun h => hroom h.2, beyond, if_neg fun h => hcan.1 h.2,
      nil_append, nil_append, hitems, hfd]
  refine ⟨s1, hrefill, hmay1, by rw [hs1]; exact hbuf, by rw [hs1], by rw [hs1]; simp, ?_,
    by rw [hs1], by rw [hs1]⟩
  have hbuf1 : s1.buffering ≠ .IONBF := by rw [hs1]; exact hbuf
  have hungetc : s1.ungetc = s.ungetc := by rw [hs1]
  rw [ahead_eq hmay, ahead_eq hmay1, near_buffered hbuf, near_buffered hbuf1, pending_nil hempty,
    append_nil, hungetc, Item.bytes, map_append, append_assoc]
  rw [Item.bytes] at hbeyond
  rw [hbeyond]
  rfl

/-- The buffer cannot be filled: a stop lies behind the byte that was pushed
back. -/
theorem refill_false (hempty : s.bufferStart ≥ s.bufferEnd) (hcan : canRefill s = false) :
    ∃ s1, refill tapeCalls s = (false, s1) ∧
      (s.ungetc = none → ∀ n, Reads s (n + 1) ([], s1)) := by
  have hahead : s.ungetc = none → ahead s = beyond s := fun hnone => by
    rw [ahead_eq hmay, near_buffered hbuf, pending_nil hempty, hnone]
    rfl
  by_cases h0 : s.buffer.length = 0
  · refine ⟨{ s with error := true }, by rw [refill, if_pos h0], fun hnone n => ?_⟩
    have hb : beyond s = .refusal :: items s.fd := by
      rw [beyond, if_pos ⟨hbuf, h0⟩]
      rfl
    have hsame : ahead { s with error := true } = ahead s := rfl
    exact Reads.of_pull (by rw [hsame, hahead hnone, hb]; rfl) (by simp) (by simp) n
  · have hb : beyond s = items s.fd := by
      rw [beyond, if_neg fun h => h0 h.2]
      rfl
    have hkeep : ∀ (t : Tape) (e f : Bool), s.ungetc = none →
        ahead { s with fd := t, eof := e, error := f } = items t := fun t e f hnone => by
      rw [ahead_eq (show mayRead { s with fd := t, eof := e, error := f } = true from hmay),
        near_buffered (s := { s with fd := t, eof := e, error := f }) hbuf,
        pending_nil (s := { s with fd := t, eof := e, error := f }) hempty, beyond,
        if_neg fun h => h0 h.2]
      simp [hnone, Item.bytes]
    rcases hread : tapeRead s.fd s.buffer.length with ⟨_ | _ | ⟨b, bs⟩, t'⟩
    · refine ⟨{ s with fd := t', error := true }, ?_, fun hnone n => ?_⟩
      · rw [refill, if_neg h0]
        simp only [tapeCalls, hread]
      · refine Reads.of_pull (e := .error) ?_ (by simp) (by simp) n
        rw [hahead hnone, hb, tapeRead_error hread]
        exact congrArg _ (hkeep t' s.eof true hnone).symm
    · refine ⟨{ s with fd := t', eof := true }, ?_, fun hnone n => ?_⟩
      · rw [refill, if_neg h0]
        simp only [tapeCalls, hread]
      · refine Reads.of_pull (e := .eof) ?_ (by simp) (by simp) n
        rw [hahead hnone, hb, tapeRead_eof (Nat.pos_of_ne_zero h0) hread]
        exact congrArg _ (hkeep t' true s.error hnone).symm
    · have hbyte := (tapeRead_hasByte (Nat.pos_of_ne_zero h0)).2 ⟨b, bs, t', hread⟩
      simp [canRefill, h0, hbyte] at hcan

theorem Reads.takeByte (hnone : s.ungetc = none) (hlt : s.bufferStart < s.bufferEnd) :
    Reads s 1 ([(takeByte s).1], (takeByte s).2) := by
  have hone : min 1 (s.bufferEnd - s.bufferStart) = 1 := by omega
  have h := (Reads.takeBytes hmay hbuf hnone 1).1
  rw [Libc.takeBytes, hone] at h
  exact h

end

section

variable (hmay : mayRead s = true) (hbuf : s.buffering = .IONBF) (hnone : s.ungetc = none)
include hmay hbuf hnone

theorem readDirect_ahead (t : Tape) (e f : Bool) :
    ahead { s with fd := t, eof := e, error := f } = items t := by
  rw [ahead_eq (show mayRead { s with fd := t, eof := e, error := f } = true from hmay),
    near_direct (s := { s with fd := t, eof := e, error := f }) hbuf,
    beyond_direct (s := { s with fd := t, eof := e, error := f }) hbuf]
  simp [hnone, Item.bytes]

theorem Reads.readEnd {size : Nat} (hsize : 0 < size) :
    ((tapeRead s.fd size).1.getD [] ≠ [] →
      Reads s ((tapeRead s.fd size).1.getD []).length (readEnd s (tapeRead s.fd size))) ∧
    ((tapeRead s.fd size).1.getD [] = [] → Reads s size (readEnd s (tapeRead s.fd size))) := by
  have hahead : ahead s = items s.fd := readDirect_ahead hmay hbuf hnone s.fd s.eof s.error
  obtain ⟨n, rfl⟩ : ∃ n, size = n + 1 := ⟨size - 1, by omega⟩
  rcases hread : tapeRead s.fd (n + 1) with ⟨_ | _ | ⟨b, bs⟩, t'⟩
  · refine ⟨fun h => absurd rfl h, fun _ => ?_⟩
    refine Reads.of_pull (e := .error) ?_ (by simp) (by simp) n
    rw [hahead, tapeRead_error hread]
    exact congrArg _ (readDirect_ahead hmay hbuf hnone t' s.eof true).symm
  · refine ⟨fun h => absurd rfl h, fun _ => ?_⟩
    refine Reads.of_pull (e := .eof) ?_ (by simp) (by simp) n
    rw [hahead, tapeRead_eof hsize hread]
    exact congrArg _ (readDirect_ahead hmay hbuf hnone t' true s.error).symm
  refine ⟨fun _ => ?_, fun h => by cases h⟩
  obtain ⟨-, hitems⟩ := tapeRead_bytes hread
  have hpull := pulls_bytes (b :: bs) 0 (items t')
  rw [add_zero, ← hitems, ← hahead] at hpull
  show Reads s (b :: bs).length (b :: bs, { s with fd := t' })
  exact ⟨by rw [hpull]; simp [pulls],
    by rw [hpull]; exact readDirect_ahead hmay hbuf hnone t' s.eof s.error,
    by rw [hpull]; simp [pulls], by rw [hpull]; simp [pulls]⟩

theorem fgetcDirect_reads :
    Reads s 1 ((fgetcDirect tapeCalls s).1.toList, (fgetcDirect tapeCalls s).2) := by
  have hend := @Reads.readEnd s hmay hbuf hnone 1 Nat.one_pos
  rw [fgetcDirect]
  dsimp only [tapeCalls]
  rcases hread : tapeRead s.fd 1 with ⟨_ | _ | ⟨b, bs⟩, t'⟩
  · rw [hread] at hend
    exact hend.2 rfl
  · rw [hread] at hend
    exact hend.2 rfl
  obtain ⟨hle, -⟩ := tapeRead_bytes hread
  have hnil : bs = [] := eq_nil_of_length_eq_zero (by
    rw [length_cons] at hle
    omega)
  rw [hread, hnil] at hend
  exact hend.1 (by simp)

end

theorem fgetcBuffered_reads (hmay : mayRead s = true) (hbuf : s.buffering ≠ .IONBF)
    (hnone : s.ungetc = none) :
    Reads s 1 ((fgetcBuffered tapeCalls s).1.toList, (fgetcBuffered tapeCalls s).2) := by
  rw [fgetcBuffered]
  by_cases hempty : s.bufferStart ≥ s.bufferEnd
  · rw [if_pos hempty]
    rcases hcan : canRefill s with _ | _
    · obtain ⟨s1, hrefill, hstop⟩ := refill_false hmay hbuf hempty hcan
      rw [hrefill]
      exact hstop hnone 0
    · obtain ⟨s1, hrefill, hmay1, hbuf1, hnone1, hlt, hahead, heof, herror⟩ :=
        refill_true hmay hbuf hempty hcan
      rw [hrefill]
      exact (Reads.takeByte hmay1 hbuf1 (hnone1.trans hnone) hlt).congr hahead heof herror
  · rw [if_neg hempty]
    exact Reads.takeByte hmay hbuf hnone (by omega)

theorem fgetc_reads (s : Stream Tape) :
    Reads s 1 ((fgetc tapeCalls s).1.toList, (fgetc tapeCalls s).2) := by
  rw [fgetc]
  rcases hmay : mayRead s with _ | _
  · exact Reads.refused hmay 1
  cases hc : s.ungetc with
  | some c => exact (Reads.ungetc hmay hc).1
  | none =>
    by_cases hbuf : s.buffering = .IONBF
    · rw [if_pos hbuf]
      exact fgetcDirect_reads hmay hbuf hc
    · rw [if_neg hbuf]
      exact fgetcBuffered_reads hmay hbuf hc

theorem fgetcs_reads (n : Nat) : ∀ s : Stream Tape, Reads s n (fgetcs n s) := by
  induction n with
  | zero => exact Reads.zero
  | succ n ih =>
    intro s
    have hone := fgetc_reads s
    rw [fgetcs]
    rcases hg : fgetc tapeCalls s with ⟨_ | b, s1⟩ <;> rw [hg] at hone
    · rw [add_comm]
      exact hone.stopped Nat.one_pos n
    · rw [add_comm]
      exact hone.append rfl (ih s1)

/-! ## `fread` -/

theorem Reads.takeUngetc (hmay : mayRead s = true) {left : Nat} (hleft : left ≠ 0) :
    Reads s (takeUngetc s left).1.length (takeUngetc s left) ∧
      mayRead (takeUngetc s left).2 = true ∧ (takeUngetc s left).2 = { s with ungetc := none } ∧
          (takeUngetc s left).1.length ≤ left := by
  cases hc : s.ungetc with
  | none =>
    have htake : Libc.takeUngetc s left = ([], s) := by rw [Libc.takeUngetc, hc]
    have hsame : s = { s with ungetc := none } := by rw [← hc]
    rw [htake]
    exact ⟨Reads.zero s, hmay, hsame, Nat.zero_le _⟩
  | some c =>
    have htake : Libc.takeUngetc s left = ([c], { s with ungetc := none }) := by
      rw [Libc.takeUngetc, hc]
      exact if_neg hleft
    obtain ⟨hreads, hmay1⟩ := Reads.ungetc hmay hc
    rw [htake]
    exact ⟨hreads, hmay1, rfl, by rw [length_singleton]; omega⟩

theorem Reads.round (hmay : mayRead s = true) (hbuf : s.buffering ≠ .IONBF)
    (hlt : s.bufferStart < s.bufferEnd) {left : Nat} (hleft : left ≠ 0)
    {front bytes : List UInt8 × Stream Tape} (hfront : front = Libc.takeUngetc s left)
    (hbytes : bytes = Libc.takeBytes front.2 (left - front.1.length)) :
    Reads s (front.1.length + bytes.1.length) (front.1 ++ bytes.1, bytes.2) ∧
      mayRead bytes.2 = true ∧ bytes.2.buffering ≠ .IONBF ∧ bytes.2.ungetc = none ∧
        0 < front.1.length + bytes.1.length ∧ front.1.length + bytes.1.length ≤ left := by
  obtain ⟨hreads, hmay1, hs1, hle⟩ := Reads.takeUngetc hmay hleft
  rw [← hfront] at hreads hmay1 hs1 hle
  have hbuf1 : front.2.buffering ≠ .IONBF := by rw [hs1]; exact hbuf
  have hnone1 : front.2.ungetc = none := by rw [hs1]
  have hcount : front.2.bufferEnd - front.2.bufferStart = s.bufferEnd - s.bufferStart := by rw [hs1]
  obtain ⟨hreads2, hmay2, hbuf2, hnone2, -⟩ :=
    Reads.takeBytes hmay1 hbuf1 hnone1 (left - front.1.length)
  rw [← hbytes] at hreads2 hmay2 hbuf2 hnone2
  have hlen : bytes.1.length = min (left - front.1.length) (s.bufferEnd - s.bufferStart) := by
    rw [hbytes, Libc.takeBytes, bytesAt_length, hcount]
  rw [hcount, ← hlen] at hreads2
  exact ⟨hreads.append rfl hreads2, hmay2, hbuf2, hnone2, by omega, by omega⟩

/-- The loop with a buffer, unless a byte that was pushed back waits for an
empty buffer that cannot be filled. -/
theorem readBuffered_reads (fuel : Nat) : ∀ {left : Nat} {s : Stream Tape}, left ≠ 0 →
    left ≤ fuel → mayRead s = true → s.buffering ≠ .IONBF →
      (s.ungetc = none ∨ s.bufferStart < s.bufferEnd ∨ canRefill s = true) →
        Reads s left (readBuffered tapeCalls fuel left s) := by
  induction fuel with
  | zero => omega
  | succ fuel ih =>
    intro left s hleft hle hmay hbuf hok
    -- The rest of a round, once the buffer is not empty.
    have hround : ∀ s1 : Stream Tape, mayRead s1 = true → s1.buffering ≠ .IONBF →
        s1.bufferStart < s1.bufferEnd →
        Reads s1 left (let front := takeUngetc s1 left
          let bytes := takeBytes front.2 (left - front.1.length)
          let left := left - front.1.length - bytes.1.length
          if left = 0 then (front.1 ++ bytes.1, bytes.2)
          else
            let rest := readBuffered tapeCalls fuel left bytes.2
            (front.1 ++ bytes.1 ++ rest.1, rest.2)) := by
      intro s1 hmay1 hbuf1 hlt
      obtain ⟨hreads, hmay2, hbuf2, hnone2, hpos, hmax⟩ :=
        Reads.round hmay1 hbuf1 hlt hleft rfl rfl
      dsimp only
      split
      · rwa [le_antisymm hmax (by omega)] at hreads
      rename_i hmore
      have hrest := ih hmore (by omega) hmay2 hbuf2 (.inl hnone2)
      have hall := hreads.append (by rw [length_append]) hrest
      rw [Nat.sub_sub, Nat.add_sub_of_le hmax] at hall
      rw [Nat.sub_sub]
      exact hall
    rw [readBuffered]
    by_cases hempty : s.bufferStart ≥ s.bufferEnd
    · rw [if_pos hempty]
      rcases hcan : canRefill s with _ | _
      · have hnone : s.ungetc = none := by
          rcases hok with h | h | h
          · exact h
          · omega
          · rw [hcan] at h
            cases h
        obtain ⟨s1, hrefill, hstop⟩ := refill_false hmay hbuf hempty hcan
        rw [hrefill]
        obtain ⟨n, rfl⟩ : ∃ n, left = n + 1 := ⟨left - 1, by omega⟩
        exact hstop hnone n
      · obtain ⟨s1, hrefill, hmay1, hbuf1, -, hlt, hahead, heof, herror⟩ :=
          refill_true hmay hbuf hempty hcan
        rw [hrefill]
        exact (hround s1 hmay1 hbuf1 hlt).congr hahead heof herror
    · rw [if_neg hempty]
      exact hround s hmay hbuf (by omega)

/-- A result that is short without a stop is what pulling more items gives only
at the end of the tape, where the end of the file was seen before. -/
theorem Reads.short_iff {n : Nat} {t : Tape} (h : Reads s a (xs, s1)) (hlen : xs.length = a)
    (hlt : a < n) (hahead : ahead s1 = items t) :
    Reads s n (xs, s1) ↔ t = [] ∧ s1.eof = true := by
  obtain ⟨k, rfl⟩ : ∃ k, n = a + (k + 1) := ⟨n - a - 1, by omega⟩
  have hstop : (pulls a (ahead s)).2.1 = none := (pulls_stop a _).2 (h.bytes ▸ hlen)
  have hpull := pulls_add a (k + 1) (ahead s)
  have hbytes : xs = (pulls a (ahead s)).1 := h.bytes
  have hrest : ahead s1 = (pulls a (ahead s)).2.2 := h.rest
  have herror : s1.error = s.error := by
    have := h.error
    rw [hstop] at this
    simpa using this
  rw [if_pos hstop, ← hbytes, ← hrest, hahead] at hpull
  rcases t with _ | ⟨_ | _ | ⟨b, bs⟩, t⟩
  · constructor
    · intro hr
      have he := hr.eof
      rw [hpull] at he
      exact ⟨rfl, by rw [he]; simp [pulls, items, pull]⟩
    rintro ⟨-, he⟩
    refine ⟨by rw [hpull]; simp [pulls, items, pull], ?_, ?_, ?_⟩
    · rwa [hpull]
    · rw [hpull, he]
      simp [pulls, items, pull]
    · rw [hpull, herror]
      simp [pulls, items, pull]
  · refine iff_of_false (fun hr => ?_) (by simp)
    have hr := hr.rest
    rw [hpull, hahead] at hr
    exact absurd (congrArg length hr) (by simp [pulls, items, pull])
  · refine iff_of_false (fun hr => ?_) (by simp)
    have hr := hr.rest
    rw [hpull, hahead] at hr
    exact absurd (congrArg length hr) (by simp [pulls, items, pull])
  · refine iff_of_false (fun hr => ?_) (by simp)
    have hr := hr.bytes
    rw [hpull] at hr
    exact absurd (congrArg length hr) (by simp [pulls, items, pull, Item.bytes])

/-- Two calls of `read` are enough. -/
def twoReads (eof : Bool) (size : Nat) : Tape → Bool
  | some (b :: bs) :: some (c :: cs) :: t =>
    size ≤ (b :: bs).length + (c :: cs).length || (eof && t = [])
  | _ => true

theorem readDirect_once {size : Nat} (h : (tapeRead s.fd size).1.getD [] = [] ∨
      size ≤ ((tapeRead s.fd size).1.getD []).length) :
    readDirect tapeCalls s size = readEnd s (tapeRead s.fd size) := by
  rw [readDirect]
  dsimp only [tapeCalls]
  rcases hread : tapeRead s.fd size with ⟨_ | _ | ⟨b, bs⟩, t'⟩
  · rfl
  · rfl
  · rw [hread] at h
    rcases h with h | h
    · cases h
    · exact if_neg (not_lt.2 h)

theorem readDirect_twice {size : Nat} {b : UInt8} {bs : List UInt8} {t' : Tape}
    (hread : tapeRead s.fd size = (some (b :: bs), t')) (hlt : (b :: bs).length < size) :
    readDirect tapeCalls s size =
      (b :: bs ++ (readEnd { s with fd := t' } (tapeRead t' (size - (b :: bs).length))).1,
        (readEnd { s with fd := t' } (tapeRead t' (size - (b :: bs).length))).2) := by
  rw [readDirect]
  dsimp only [tapeCalls]
  rw [hread]
  dsimp only
  rw [if_pos hlt]
  rcases tapeRead t' (size - (b :: bs).length) with ⟨_ | _ | ⟨c, cs⟩, t2⟩
  · rfl
  · rfl
  · rfl

theorem tapeRead_enough {bs : List UInt8} {t : Tape} {size : Nat} (hle : size ≤ bs.length)
    (hsize : 0 < size) : ((tapeRead (some bs :: t) size).1.getD []).length = size ∧
      (tapeRead (some bs :: t) size).1.getD [] ≠ [] := by
  have hlen : ((tapeRead (some bs :: t) size).1.getD []).length = size := by
    rw [tapeRead]
    split
    · exact le_antisymm (by assumption) hle
    · exact (length_take).trans (min_eq_left hle)
  refine ⟨hlen, fun h => ?_⟩
  rw [h] at hlen
  exact absurd hlen.symm (ne_of_gt hsize)

theorem readDirect_reads (hmay : mayRead s = true) (hbuf : s.buffering = .IONBF)
    (hnone : s.ungetc = none) {size : Nat} (hsize : 0 < size) :
    Reads s size (readDirect tapeCalls s size) ↔ twoReads s.eof size s.fd = true := by
  have hend := Reads.readEnd hmay hbuf hnone hsize
  -- No byte at all: the first `read` stops.
  have hstop : (tapeRead s.fd size).1.getD [] = [] →
      Reads s size (readDirect tapeCalls s size) := fun h => by
    rw [readDirect_once (.inl h)]
    exact hend.2 h
  rcases hfd : s.fd with _ | ⟨_ | _ | ⟨b, bs⟩, t⟩
  · exact iff_of_true (hstop (by rw [hfd]; rfl)) rfl
  · exact iff_of_true (hstop (by rw [hfd]; rfl)) rfl
  · exact iff_of_true (hstop (by rw [hfd]; rfl)) rfl
  by_cases hle : (b :: bs).length < size
  · have hread : tapeRead s.fd size = (some (b :: bs), t) := by
      rw [hfd]
      exact if_pos (le_of_lt hle)
    rw [hread] at hend
    have hfirst : Reads s (b :: bs).length (b :: bs, { s with fd := t }) := hend.1 (by simp)
    have hend2 := @Reads.readEnd { s with fd := t } hmay hbuf hnone (size - (b :: bs).length)
      (by omega)
    rw [readDirect_twice hread hle]
    have hsplit : size = (b :: bs).length + (size - (b :: bs).length) := by omega
    -- The second `read` stops, too.
    have hstop2 : (tapeRead t (size - (b :: bs).length)).1.getD [] = [] →
        Reads s size (b :: bs ++ (readEnd { s with fd := t }
          (tapeRead t (size - (b :: bs).length))).1,
          (readEnd { s with fd := t } (tapeRead t (size - (b :: bs).length))).2) := fun h => by
      have hall := hfirst.append rfl (hend2.2 h)
      rwa [← hsplit] at hall
    rcases t with _ | ⟨_ | _ | ⟨c, cs⟩, t⟩
    · exact iff_of_true (hstop2 rfl) rfl
    · exact iff_of_true (hstop2 rfl) rfl
    · exact iff_of_true (hstop2 rfl) rfl
    by_cases hle2 : size - (b :: bs).length ≤ (c :: cs).length
    · -- The second `read` gives the rest.
      obtain ⟨hlen, hne⟩ := @tapeRead_enough (c :: cs) t _ hle2 (by omega)
      have hall := hfirst.append rfl (hend2.1 hne)
      rw [hlen, ← hsplit] at hall
      refine iff_of_true hall ?_
      rw [twoReads, decide_eq_true (by omega), Bool.true_or]
    · have hread2 : tapeRead (some (c :: cs) :: t) (size - (b :: bs).length) =
          (some (c :: cs), t) := if_pos (by omega)
      rw [hread2] at hend2 ⊢
      have hall : Reads s ((b :: bs).length + (c :: cs).length)
          (b :: bs ++ c :: cs, { s with fd := t }) := hfirst.append rfl (hend2.1 (by simp))
      show Reads s size (b :: bs ++ c :: cs, { s with fd := t }) ↔ _
      rw [hall.short_iff (by rw [length_append]) (by omega)
        (readDirect_ahead hmay hbuf hnone t s.eof s.error), twoReads, decide_eq_false (by omega),
        Bool.false_or, Bool.and_eq_true, decide_eq_true_eq, and_comm]
  · obtain ⟨hlen, hne⟩ := @tapeRead_enough (b :: bs) t size (not_lt.1 hle) hsize
    rw [← hfd] at hlen hne
    refine iff_of_true ?_ ?_
    · rw [readDirect_once (.inr (le_of_eq hlen.symm))]
      have h := hend.1 hne
      rwa [hlen] at h
    rcases t with _ | ⟨_ | _ | ⟨c, cs⟩, t⟩
    · rfl
    · rfl
    · rfl
    · rw [twoReads, decide_eq_true (by omega), Bool.true_or]

/-! ## The comparison -/

/-- `fread` of `n` bytes and `n` calls of `fgetc` do the same: the bytes, what
is left, and the flags. -/
structure Agrees (s : Stream Tape) (n : Nat) : Prop where
  bytes : (fread tapeCalls s 1 n).2.1 = (fgetcs n s).1
  count : (fread tapeCalls s 1 n).1 = (fgetcs n s).1.length
  rest : ahead (fread tapeCalls s 1 n).2.2 = ahead (fgetcs n s).2
  eof : (fread tapeCalls s 1 n).2.2.eof = (fgetcs n s).2.eof
  error : (fread tapeCalls s 1 n).2.2.error = (fgetcs n s).2.error

/-- Where `fread` is direct: with a buffer, a byte that was pushed back does not
wait for an empty buffer that cannot be filled; without one, two calls of
`read` are enough for the bytes behind it. -/
def Direct (s : Stream Tape) (n : Nat) : Prop :=
  n = 0 ∨ mayRead s = false ∨
    if s.buffering = .IONBF then twoReads s.eof (n - extra s) s.fd = true
    else s.ungetc = none ∨ s.bufferStart < s.bufferEnd ∨ canRefill s = true

instance (s : Stream Tape) (n : Nat) : Decidable (Direct s n) := by
  unfold Direct
  infer_instance

theorem twoReads_zero (eof : Bool) (t : Tape) : twoReads eof 0 t = true := by
  rcases t with _ | ⟨_ | _ | ⟨b, bs⟩, _ | ⟨_ | _ | ⟨c, cs⟩, t⟩⟩ <;> rfl

theorem myRead_reads (hn : n ≠ 0) : Reads s n (myRead tapeCalls s n) ↔ Direct s n := by
  rcases hmay : mayRead s with _ | _
  · refine iff_of_true ?_ (.inr (.inl hmay))
    rw [myRead, if_pos hmay]
    have h := Reads.refused hmay n
    rwa [if_neg hn] at h
  have hmayne : ¬ mayRead s = false := by rw [hmay]; simp
  rw [myRead, if_neg hmayne, Direct, or_iff_right hn, or_iff_right hmayne]
  by_cases hbuf : s.buffering = .IONBF
  · rw [if_pos hbuf, if_pos hbuf]
    obtain ⟨hfront, hmay1, hs1, hle⟩ := Reads.takeUngetc hmay hn
    have hlen : (takeUngetc s n).1.length = extra s := by
      rw [takeUngetc, extra]
      cases s.ungetc with
      | none => rfl
      | some c => simp [hn]
    by_cases hdone : n - (takeUngetc s n).1.length = 0
    · rw [if_pos hdone, ← hlen, hdone]
      refine iff_of_true ?_ (twoReads_zero _ _)
      rwa [le_antisymm hle (by omega)] at hfront
    rw [if_neg hdone]
    obtain ⟨m, hm⟩ : ∃ m, m = n - (takeUngetc s n).1.length := ⟨_, rfl⟩
    rw [← hlen, ← hm]
    have hsum : n = (takeUngetc s n).1.length + m := by omega
    have hdirect := @readDirect_reads (takeUngetc s n).2 hmay1 (by rw [hs1]; exact hbuf)
      (by rw [hs1]) m (by omega)
    have hiff : Reads s ((takeUngetc s n).1.length + m)
        ((takeUngetc s n).1 ++ (readDirect tapeCalls (takeUngetc s n).2 m).1,
          (readDirect tapeCalls (takeUngetc s n).2 m).2) ↔
        Reads (takeUngetc s n).2 m (readDirect tapeCalls (takeUngetc s n).2 m) :=
      hfront.append_iff rfl
    rw [← hsum] at hiff
    rw [hiff]
    have hfd : (takeUngetc s n).2.fd = s.fd := by rw [hs1]
    have heof : (takeUngetc s n).2.eof = s.eof := by rw [hs1]
    rw [hfd, heof] at hdirect
    exact hdirect
  · rw [if_neg hbuf, if_neg hbuf]
    refine ⟨fun h => ?_, readBuffered_reads (n + 1) hn (by omega) hmay hbuf⟩
    by_contra hno
    rw [not_or, not_or] at hno
    obtain ⟨hc, hempty, hcan⟩ := hno
    obtain ⟨c, hc⟩ := Option.ne_none_iff_exists'.1 hc
    obtain ⟨s1, hrefill, -⟩ :=
      refill_false hmay hbuf (not_lt.1 hempty) (Bool.eq_false_iff.2 hcan)
    -- The byte lies ahead, and nothing is delivered.
    have hbytes := h.bytes
    rw [readBuffered, if_pos (not_lt.1 hempty), hrefill, ahead_eq hmay, near, hc] at hbytes
    obtain ⟨m, rfl⟩ : ∃ m, n = m + 1 := ⟨n - 1, by omega⟩
    simp [pulls, pull, Item.bytes] at hbytes

theorem Reads.agrees {r r' : List UInt8 × Stream Tape} (h' : Reads s n r') :
    Reads s n r ↔ r.1 = r'.1 ∧ ahead r.2 = ahead r'.2 ∧ r.2.eof = r'.2.eof ∧
      r.2.error = r'.2.error := by
  constructor
  · intro h
    exact ⟨h.bytes.trans h'.bytes.symm, h.rest.trans h'.rest.symm, h.eof.trans h'.eof.symm,
      h.error.trans h'.error.symm⟩
  · rintro ⟨hbytes, hrest, heof, herror⟩
    exact ⟨hbytes.trans h'.bytes, hrest.trans h'.rest, heof.trans h'.eof, herror.trans h'.error⟩

/-- **`fread` and `fgetc`** agree just where `fread` is direct. -/
theorem fread_agrees_iff (s : Stream Tape) {n : Nat} (hn : n < 2 ^ 64) :
    Agrees s n ↔ Direct s n := by
  by_cases h0 : n = 0
  · subst h0
    exact iff_of_true ⟨rfl, rfl, rfl, rfl, rfl⟩ (.inl rfl)
  have hread : fread tapeCalls s 1 n =
      ((myRead tapeCalls s n).1.length, (myRead tapeCalls s n).1, (myRead tapeCalls s n).2) := by
    have hone : n / n = 1 := Nat.div_self (Nat.pos_of_ne_zero h0)
    rw [fread, if_neg (by omega)]
    dsimp only
    rw [one_mul, Nat.mod_eq_of_lt hn, if_neg (not_not_intro hone), Nat.div_one]
  rw [← myRead_reads h0, (fgetcs_reads n s).agrees]
  constructor
  · intro h
    have h1 := h.bytes
    have h3 := h.rest
    have h4 := h.eof
    have h5 := h.error
    rw [hread] at h1 h3 h4 h5
    exact ⟨h1, h3, h4, h5⟩
  · rintro ⟨hbytes, hrest, heof, herror⟩
    exact ⟨by rw [hread]; exact hbytes, by rw [hread]; exact congrArg _ hbytes,
      by rw [hread]; exact hrest, by rw [hread]; exact heof, by rw [hread]; exact herror⟩

/-- A line of a file, with a buffer of four bytes. -/
def lineStream : Stream Tape :=
  ⟨[some [97, 98, 10]], false, false, none, .O_RDONLY, .IOLBF, false, 0, 0, [0, 0, 0, 0]⟩

theorem fread_agrees_line : 3 < 2 ^ 64 ∧ Agrees lineStream 3 :=
  ⟨by decide, (fread_agrees_iff lineStream (by decide)).2 (by decide)⟩

/-- A byte that is pushed back at the end of the file. -/
def endStream : Stream Tape :=
  ⟨[], false, false, some 97, .O_RDONLY, .IOLBF, false, 0, 0, [0, 0, 0, 0]⟩

/-- `fgetc` gives that byte, and `fread` gives nothing. -/
theorem fread_loses_ungetc :
    (fread tapeCalls endStream 1 1).2.1 = [] ∧ (fgetcs 1 endStream).1 = [97] ∧
      ¬ Agrees endStream 1 :=
  ⟨by decide, by decide, fun h => absurd h.bytes (by decide)⟩

end Dancy.Libc
