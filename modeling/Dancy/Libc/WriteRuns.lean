import Dancy.Lib.Bytes
import Dancy.Lib.Run
import Dancy.Libc.Stream

/-!
# What has been written (`fputc.c`, `fwrite.c`, `fflush.c`)

The bytes that the descriptor has taken and those that wait in the buffer are
the bytes that have been stored. A byte stays in the buffer when the flush
behind it fails; `fwrite` counts it, but `fputc` returns `EOF`.
-/

namespace Dancy.Libc.Write

open List

/-! ## The descriptor -/

/-- A descriptor that is written only. Each call has its own reply: it fails,
or takes some bytes at most. -/
structure Sink where
  accepted : List UInt8
  calls : Nat
  reply : Nat → Option Nat

def sinkWrite (fd : Sink) (bytes : List UInt8) : Option Nat × Sink :=
  match fd.reply fd.calls with
  | none => (none, { fd with calls := fd.calls + 1 })
  | some w =>
    (some (min w bytes.length),
      { fd with accepted := fd.accepted ++ bytes.take w, calls := fd.calls + 1 })

def sinkCalls : Calls Sink := ⟨fun fd _ => (none, fd), sinkWrite, fun fd _ _ => (none, fd)⟩

def totalSize (size nmemb : Nat) : Nat :=
  let total := size * nmemb % 2 ^ 64
  if total / nmemb ≠ size then 2 ^ 64 - 1 else total

def elements (size nmemb : Nat) (buffer : Lib.Bytes) : List UInt8 :=
  (range (totalSize size nmemb)).map buffer

/-- `fwrite` of elements: the number of those that are complete. -/
def fwriteElements {δ : Type} (K : Calls δ) (s : Stream δ) (size nmemb : Nat)
    (buffer : Lib.Bytes) : Nat × Stream δ :=
  if size = 0 ∨ nmemb = 0 then (0, s)
  else
    let r := fwrite K s (elements size nmemb buffer)
    (r.1 / size, r.2)

inductive Operation where
  | fputc (c : UInt8)
  | fwrite (size nmemb : Nat) (buffer : Lib.Bytes)
  | fflush

/-- A stream, and the bytes that the calls up to now have put. `flushed` tells
whether the last one was a flush that succeeded. -/
structure Written where
  stream : Stream Sink
  put : List UInt8
  flushed : Bool

/-- A call puts the bytes that it has been successful with. -/
def operate (w : Written) : Operation → Written
  | .fputc c =>
    let r := Libc.fputc sinkCalls w.stream c
    ⟨r.2, if r.1 then w.put ++ [c] else w.put, false⟩
  | .fwrite size nmemb buffer =>
    let r := fwriteElements sinkCalls w.stream size nmemb buffer
    ⟨r.2, w.put ++ (range (r.1 * size)).map buffer, false⟩
  | .fflush =>
    let r := internalFflush sinkCalls w.stream
    ⟨r.2, w.put, r.1⟩

/-- What the descriptor has taken is a prefix of what has been put, and all of
it after a flush. -/
structure Integrity (w : Written) : Prop where
  inOrder : w.stream.fd.accepted <+: w.put
  complete : w.flushed = true → w.stream.fd.accepted = w.put

structure Fresh (w : Written) : Prop where
  accepted : w.stream.fd.accepted = []
  bufferStart : w.stream.bufferStart = 0
  bufferEnd : w.stream.bufferEnd = 0
  put : w.put = []
  flushed : w.flushed = false

def TakesNone (r : Option Nat) : Prop := r = none ∨ r = some 0

/-- The calls from the `k`-th on take `n` bytes before there are eight of them
in a row that take nothing. -/
inductive Drains (reply : Nat → Option Nat) : (n k : Nat) → Prop
  | done (k : Nat) : Drains reply 0 k
  | take {n k t w : Nat} (tries : t < retryCount) (idle : ∀ i < t, TakesNone (reply (k + i)))
      (taken : reply (k + t) = some (w + 1))
      (rest : Drains reply (n - (w + 1)) (k + t + 1)) : Drains reply n k

def FlushFails (s : Stream Sink) (c : UInt8) : Prop :=
  (s.buffering = .IOLBF ∧ c = 10 ∨ s.bufferEnd + 1 ≥ s.buffer.length) ∧
    ¬Drains s.fd.reply (s.bufferEnd + 1 - s.bufferStart) s.fd.calls

/-- A call ends behind `k` of its bytes: these are all of them, or the first
flush that fails is behind the last one of these. -/
inductive EndsBehind : Stream Sink → List UInt8 → (k : Nat) → Prop
  | all {s : Stream Sink} : EndsBehind s [] 0
  | here {s : Stream Sink} {c : UInt8} {bytes : List UInt8} (fails : FlushFails s c) :
      EndsBehind s (c :: bytes) 1
  | later {s : Stream Sink} {c : UInt8} {bytes : List UInt8} {k : Nat} (well : ¬FlushFails s c)
      (rest : EndsBehind (putBuffered sinkCalls s c).2.2 bytes k) :
      EndsBehind s (c :: bytes) (k + 1)

def HasRoom (s : Stream Sink) : Prop :=
  mayWrite s = true ∧ s.buffering ≠ .IONBF ∧ s.bufferEnd < s.buffer.length

/-- No call fails behind a byte that it does not count: that of `fputc`, or one
of an element that is not complete. -/
def Counts (s : Stream Sink) : Operation → Prop
  | .fputc c => HasRoom s → ¬FlushFails s c
  | .fwrite size nmemb buffer =>
    (HasRoom s → ∀ k, EndsBehind s (elements size nmemb buffer) k → size ∣ k) ∧
      (mayWrite s = true → s.buffering = .IONBF →
        ∀ w, s.fd.reply s.fd.calls = some w → size ∣ min w (totalSize size nmemb))
  | .fflush => True

/-! ## The buffer and the descriptor -/

variable {s s' : Stream Sink} {c : UInt8}

/-- The part of a stream that a flush leaves as it is. -/
structure SameBuffer (s s' : Stream Sink) : Prop where
  reply : s'.fd.reply = s.fd.reply
  mode : s'.mode = s.mode
  buffering : s'.buffering = s.buffering
  room : s'.buffer.length = s.buffer.length

theorem bytesAt_set {buffer : List UInt8} {i n : Nat} (h : i + n < buffer.length) (c : UInt8) :
    bytesAt (buffer.set (i + n) c) i (n + 1) = bytesAt buffer i n ++ [c] := by
  rw [bytesAt_add]
  congr 1
  · refine map_congr_left fun k hk => ?_
    have hne : i + n ≠ k := by
      rw [mem_range'_1] at hk
      omega
    simp [getElem?_set_ne hne]
  · simp [bytesAt, h]

theorem pending_store (hle : s.bufferStart ≤ s.bufferEnd) (hroom : s.bufferEnd < s.buffer.length) :
    pending (store s c) = pending s ++ [c] := by
  have hsum : s.bufferStart + (s.bufferEnd - s.bufferStart) = s.bufferEnd := by omega
  have hadd : s.bufferEnd + 1 - s.bufferStart = s.bufferEnd - s.bufferStart + 1 := by omega
  have h := @bytesAt_set s.buffer s.bufferStart (s.bufferEnd - s.bufferStart) (by omega) c
  rw [hsum] at h
  simp only [pending, store]
  rw [hadd, h]

/-- Some calls take nothing, and the next one does; or all of them take nothing. -/
theorem writeSome_sink {bytes : List UInt8} (hbytes : bytes ≠ []) : ∀ (retries : Nat) (fd : Sink),
    (∃ fd', writeSome sinkCalls retries fd bytes = (none, fd') ∧ fd'.accepted = fd.accepted ∧
      fd'.reply = fd.reply ∧ ∀ i < retries, TakesNone (fd.reply (fd.calls + i))) ∨
    ∃ t w, t < retries ∧ (∀ i < t, TakesNone (fd.reply (fd.calls + i))) ∧
      fd.reply (fd.calls + t) = some (w + 1) ∧
      writeSome sinkCalls retries fd bytes = (some (min (w + 1) bytes.length),
        { fd with accepted := fd.accepted ++ bytes.take (w + 1), calls := fd.calls + t + 1 }) := by
  intro retries
  induction retries with
  | zero => exact fun fd => .inl ⟨fd, rfl, rfl, rfl, fun i hi => absurd hi (Nat.not_lt_zero i)⟩
  | succ retries ih =>
    intro fd
    rw [writeSome]
    -- a call that takes nothing is followed by the others
    have hnext : ∀ fd₁ : Sink, fd₁.accepted = fd.accepted → fd₁.calls = fd.calls + 1 →
        fd₁.reply = fd.reply → TakesNone (fd.reply fd.calls) →
        (∃ fd', writeSome sinkCalls retries fd₁ bytes = (none, fd') ∧
          fd'.accepted = fd.accepted ∧ fd'.reply = fd.reply ∧
          ∀ i < retries + 1, TakesNone (fd.reply (fd.calls + i))) ∨
        ∃ t w, t < retries + 1 ∧ (∀ i < t, TakesNone (fd.reply (fd.calls + i))) ∧
          fd.reply (fd.calls + t) = some (w + 1) ∧
          writeSome sinkCalls retries fd₁ bytes = (some (min (w + 1) bytes.length),
            { fd with accepted := fd.accepted ++ bytes.take (w + 1)
                      calls := fd.calls + t + 1 }) := by
      intro fd₁ hacc hcalls hreply hnone
      have hshift : ∀ n, (∀ i < n, TakesNone (fd₁.reply (fd₁.calls + i))) →
          ∀ i < n + 1, TakesNone (fd.reply (fd.calls + i)) := by
        intro n h i hi
        cases i with
        | zero => exact hnone
        | succ i =>
          have := h i (by omega)
          rwa [hreply, hcalls, add_assoc, add_comm 1] at this
      rcases ih fd₁ with ⟨fd', hw, ha, hr, hidle⟩ | ⟨t, w, ht, hidle, hreply', hw⟩
      · exact .inl ⟨fd', hw, ha.trans hacc, hr.trans hreply, hshift retries hidle⟩
      · refine .inr ⟨t + 1, w, by omega, hshift t hidle, ?_, ?_⟩
        · rwa [hreply, hcalls, add_assoc, add_comm 1] at hreply'
        · rw [hw, hacc, hcalls, hreply]
          simp only [add_assoc, add_comm 1]
    have hwrite : sinkCalls.write fd bytes = sinkWrite fd bytes := rfl
    rw [hwrite]
    rcases hr : fd.reply fd.calls with _ | w
    · have hcall : sinkWrite fd bytes = (none, { fd with calls := fd.calls + 1 }) := by
        rw [sinkWrite, hr]
      rw [hcall]
      exact hnext _ rfl rfl rfl (.inl hr)
    have hcall : sinkWrite fd bytes = (some (min w bytes.length),
        { fd with accepted := fd.accepted ++ bytes.take w, calls := fd.calls + 1 }) := by
      rw [sinkWrite, hr]
    rw [hcall]
    cases w with
    | zero =>
      exact hnext _ (by simp) rfl rfl (.inr hr)
    | succ w =>
      have hlen : 0 < bytes.length := length_pos_of_ne_nil hbytes
      obtain ⟨m, hm⟩ : ∃ m, min (w + 1) bytes.length = m + 1 := ⟨min w (bytes.length - 1), by omega⟩
      exact .inr ⟨0, w, Nat.succ_pos _, fun i hi => absurd hi (Nat.not_lt_zero i), hr,
        by rw [hm]⟩

theorem Drains.of_taken {reply : Nat → Option Nat} {n k t w : Nat} (hn : 0 < n)
    (hidle : ∀ i < t, TakesNone (reply (k + i))) (hw : reply (k + t) = some (w + 1))
    (h : Drains reply n k) : t < retryCount ∧ Drains reply (n - (w + 1)) (k + t + 1) := by
  cases h with
  | done => omega
  | @take _ _ t' w' tries idle taken rest =>
    have ht : t' = t := by
      rcases Nat.lt_trichotomy t' t with hlt | he | hlt
      · rcases hidle t' hlt with h | h <;> rw [taken] at h <;> cases h
      · exact he
      · rcases idle t hlt with h | h <;> rw [hw] at h <;> cases h
    subst ht
    rw [hw] at taken
    cases taken
    exact ⟨tries, rest⟩

theorem Drains.of_idle {reply : Nat → Option Nat} {n k : Nat} (hn : 0 < n)
    (hidle : ∀ i < retryCount, TakesNone (reply (k + i))) : ¬Drains reply n k := by
  intro h
  cases h with
  | done => omega
  | take tries _ taken _ =>
    rcases hidle _ tries with h | h <;> rw [taken] at h <;> cases h

/-- What a flush does: nothing is lost, also when it fails. -/
structure Flushed (s : Stream Sink) (n : Nat) (ok : Bool) (s' : Stream Sink) : Prop where
  same : SameBuffer s s'
  all : s'.fd.accepted ++ pending s' = s.fd.accepted ++ pending s
  le : s'.bufferStart ≤ s'.bufferEnd
  drains : ok = true ↔ Drains s.fd.reply n s.fd.calls

theorem pending_eq_nil : pending s = [] ↔ s.bufferEnd ≤ s.bufferStart := by
  rw [← length_eq_zero_iff, pending, bytesAt_length]
  omega

theorem flushLoop_sink (rounds : Nat) : ∀ {s : Stream Sink}, s.bufferStart ≤ s.bufferEnd →
    s.bufferEnd - s.bufferStart ≤ rounds →
    ∃ ok s', flushLoop sinkCalls rounds s = (ok, s') ∧
      Flushed s (s.bufferEnd - s.bufferStart) ok s' ∧ s'.written = s.written ∧
      s'.bufferEnd = s.bufferEnd ∧ (ok = true → s'.bufferStart = s'.bufferEnd) := by
  have hdone : ∀ s : Stream Sink, s.bufferStart = s.bufferEnd →
      Flushed s (s.bufferEnd - s.bufferStart) true s := by
    intro s he
    refine ⟨⟨rfl, rfl, rfl, rfl⟩, rfl, le_of_eq he, fun _ => ?_, fun _ => rfl⟩
    rw [he, Nat.sub_self]
    exact .done _
  induction rounds with
  | zero =>
    intro s hle hrounds
    have he : s.bufferStart = s.bufferEnd := by omega
    exact ⟨true, s, rfl, hdone s he, rfl, rfl, fun _ => he⟩
  | succ rounds ih =>
    intro s hle hrounds
    rw [flushLoop]
    by_cases hlt : s.bufferStart < s.bufferEnd
    · rw [if_pos hlt]
      have hpending : pending s ≠ [] := by
        rw [ne_eq, pending_eq_nil]
        omega
      rcases writeSome_sink hpending retryCount s.fd with
        ⟨fd', hw, hacc, hreply, hidle⟩ | ⟨t, w, ht, hidle, hreply, hw⟩
      · -- the counter has run out
        rw [hw]
        refine ⟨false, _, rfl, ⟨⟨hreply, rfl, rfl, rfl⟩, ?_, hle, fun h => (by cases h), fun h => ?_⟩,
          rfl, rfl, fun h => (by cases h)⟩
        · rw [hacc]
          rfl
        · exact absurd h (Drains.of_idle (by omega) hidle)
      · rw [hw]
        have hlen : (pending s).length = s.bufferEnd - s.bufferStart := bytesAt_length ..
        rw [hlen]
        obtain ⟨m, hm⟩ : ∃ m, m = min (w + 1) (s.bufferEnd - s.bufferStart) := ⟨_, rfl⟩
        rw [← hm]
        have htake : (pending s).take (w + 1) = (pending s).take m := by
          simp [hm, ← hlen]
        obtain ⟨s₁, hs₁⟩ : ∃ s₁ : Stream Sink, s₁ = { s with
            fd := ⟨s.fd.accepted ++ (pending s).take (w + 1), s.fd.calls + t + 1, s.fd.reply⟩
            bufferStart := s.bufferStart + m } := ⟨_, rfl⟩
        have hstart : s₁.bufferStart = s.bufferStart + m := by rw [hs₁]
        have hend : s₁.bufferEnd = s.bufferEnd := by rw [hs₁]
        obtain ⟨ok, s', hloop, hflushed, hwritten, hend', hok⟩ := ih (s := s₁)
          (by omega) (by omega)
        rw [hs₁] at hloop
        refine ⟨ok, s', hloop, ⟨⟨?_, ?_, ?_, ?_⟩, ?_, hflushed.le, ?_⟩, ?_, ?_, hok⟩
        · rw [hflushed.same.reply, hs₁]
        · rw [hflushed.same.mode, hs₁]
        · rw [hflushed.same.buffering, hs₁]
        · rw [hflushed.same.room, hs₁]
        · -- what was taken is no longer pending
          have hsplit : pending s = (pending s).take m ++ pending s₁ := by
            have hadd : s.bufferEnd - s.bufferStart
                = m + (s.bufferEnd - (s.bufferStart + m)) := by omega
            have hrest : pending s₁ = bytesAt s.buffer (s.bufferStart + m)
                (s.bufferEnd - (s.bufferStart + m)) := by
              rw [hs₁]
              rfl
            rw [hrest, pending, hadd, bytesAt_add, take_left' (bytesAt_length _ _ _)]
          have hacc : s₁.fd.accepted = s.fd.accepted ++ (pending s).take m := by
            rw [hs₁, ← htake]
          rw [hflushed.all, hacc, append_assoc, ← hsplit]
        · have hn : s₁.bufferEnd - s₁.bufferStart = s.bufferEnd - s.bufferStart - (w + 1) := by
            omega
          have hfd : s₁.fd.reply = s.fd.reply ∧ s₁.fd.calls = s.fd.calls + t + 1 := by
            rw [hs₁]
            simp
          rw [hflushed.drains, hn, hfd.1, hfd.2]
          refine ⟨fun h => .take ht hidle hreply h, fun h => ?_⟩
          exact (h.of_taken (by omega) hidle hreply).2
        · rw [hwritten, hs₁]
        · rw [hend', hend]
    · rw [if_neg hlt]
      have he : s.bufferStart = s.bufferEnd := by omega
      exact ⟨true, s, rfl, hdone s he, rfl, rfl, fun _ => he⟩

/-! ## Streams that are written -/

/-- The buffer has what waits for the descriptor, and is empty otherwise. -/
structure Kept (s : Stream Sink) : Prop where
  le : s.bufferStart ≤ s.bufferEnd
  clean : s.written = false → s.bufferStart = 0 ∧ s.bufferEnd = 0
  unbuffered : s.buffering = .IONBF → pending s = []

theorem internalFflush_sink (h : Kept s) (hw : s.written = true) :
    ∃ ok s', internalFflush sinkCalls s = (ok, s') ∧
      Flushed s (s.bufferEnd - s.bufferStart) ok s' ∧
      (ok = true → s'.bufferStart = 0 ∧ s'.bufferEnd = 0) ∧
      (ok = false → s'.written = true ∧ s'.bufferEnd = s.bufferEnd) := by
  rw [internalFflush, if_neg (by rw [hw]; simp)]
  obtain ⟨ok, s₁, hloop, hflushed, hwritten, hend, hok⟩ := flushLoop_sink _ h.le le_rfl
  rw [hloop]
  cases ok with
  | false =>
    exact ⟨false, s₁, rfl, hflushed, fun h => (by cases h), fun _ => ⟨hwritten.trans hw, hend⟩⟩
  | true =>
    refine ⟨true, _, rfl, ⟨⟨hflushed.same.reply, hflushed.same.mode, hflushed.same.buffering,
      hflushed.same.room⟩, ?_, le_rfl, hflushed.drains⟩, fun _ => ⟨rfl, rfl⟩,
      fun h => (by cases h)⟩
    have hnil : pending s₁ = [] := pending_eq_nil.mpr (le_of_eq (hok rfl).symm)
    rw [← hflushed.all, hnil]
    rfl

theorem Kept.mayWrite_iff (h : Kept s) : mayWrite s = true ↔ s.mode ≠ .O_RDONLY := by
  have hclean : ((s.bufferStart ≠ 0 || s.bufferEnd ≠ 0) && !s.written) = false := by
    rcases hw : s.written with _ | _
    · rw [(h.clean hw).1, (h.clean hw).2]
      rfl
    · simp
  rw [mayWrite, hclean]
  simp

/-- A byte is stored, and the flush behind it does well or not. -/
structure Puts (s : Stream Sink) (c : UInt8) (ok : Bool) (s' : Stream Sink) : Prop where
  kept : Kept s'
  same : SameBuffer s s'
  all : s'.fd.accepted ++ pending s' = s.fd.accepted ++ pending s ++ [c]
  well : ok = true ↔ ¬FlushFails s c
  room : ok = true → HasRoom s'

theorem Kept.store (h : Kept s) (hroom : HasRoom s) (c : UInt8) : Kept (store s c) := by
  refine ⟨Nat.le_succ_of_le h.le, fun hw => (by cases hw), fun hb => absurd hb hroom.2.1⟩

theorem SameBuffer.hasRoom (h : SameBuffer s s') (hk : Kept s) (hk' : Kept s') (hr : HasRoom s)
    (hlt : s'.bufferEnd < s.buffer.length) : HasRoom s' := by
  refine ⟨hk'.mayWrite_iff.mpr ?_, ?_, ?_⟩
  · rw [h.mode]
    exact hk.mayWrite_iff.mp hr.1
  · rw [h.buffering]
    exact hr.2.1
  · rwa [h.room]

theorem flush_store (h : Kept s) (hroom : HasRoom s) (hdue : s.buffering = .IOLBF ∧ c = 10 ∨
    s.bufferEnd + 1 ≥ s.buffer.length) :
    ∃ ok s', internalFflush sinkCalls (store s c) = (ok, s') ∧ Puts s c ok s' ∧
      (ok = true → s'.bufferEnd = 0) := by
  obtain ⟨ok, s', hflush, hflushed, htrue, hfalse⟩ := internalFflush_sink (h.store hroom c) rfl
  have hsame : SameBuffer s s' := ⟨hflushed.same.reply, hflushed.same.mode,
    hflushed.same.buffering, hflushed.same.room.trans (length_set ..)⟩
  have hbuf : s'.buffering ≠ .IONBF := by
    rw [hsame.buffering]
    exact hroom.2.1
  have hkept : Kept s' := by
    refine ⟨hflushed.le, fun hw => ?_, fun hb => absurd hb hbuf⟩
    cases ok with
    | false => rw [(hfalse rfl).1] at hw; cases hw
    | true => exact htrue rfl
  refine ⟨ok, s', hflush, ⟨hkept, hsame, ?_, ?_, fun hok => ?_⟩, fun hok => (htrue hok).2⟩
  · rw [hflushed.all, pending_store h.le hroom.2.2, ← append_assoc]
    rfl
  · rw [hflushed.drains]
    exact ⟨fun hd hf => hf.2 hd, fun hf => by_contra fun hd => hf ⟨hdue, hd⟩⟩
  · refine hsame.hasRoom h hkept hroom ?_
    rw [(htrue hok).2]
    exact Nat.zero_lt_of_lt hroom.2.2

theorem putBuffered_sink (h : Kept s) (hroom : HasRoom s) (c : UInt8) :
    ∃ ok s', putBuffered sinkCalls s c = (true, ok, s') ∧ Puts s c ok s' := by
  rw [putBuffered, if_neg (not_le.mpr hroom.2.2), flushLine]
  by_cases hline : s.buffering = .IOLBF ∧ c = 10
  · have hline' : (Libc.store s c).buffering = .IOLBF ∧ c = 10 := hline
    rw [if_pos hline']
    obtain ⟨ok, s', hflush, hputs, hend⟩ := flush_store h hroom (.inl hline)
    rw [hflush]
    cases ok with
    | false => exact ⟨false, s', rfl, hputs⟩
    | true =>
      -- the buffer is empty now, so it is not full
      have hlt := (hputs.room rfl).2.2
      refine ⟨true, s', ?_, hputs⟩
      dsimp only
      rw [flushFull, if_neg (not_le.mpr hlt)]
  · have hline' : ¬((Libc.store s c).buffering = .IOLBF ∧ c = 10) := hline
    rw [if_neg hline']
    dsimp only
    have hlen : (Libc.store s c).buffer.length = s.buffer.length := length_set ..
    rw [flushFull, hlen]
    by_cases hfull : s.bufferEnd + 1 ≥ s.buffer.length
    · have hfull' : (Libc.store s c).bufferEnd ≥ s.buffer.length := hfull
      rw [if_pos hfull']
      obtain ⟨ok, s', hflush, hputs, -⟩ := flush_store h hroom (.inr hfull)
      exact ⟨ok, s', by rw [hflush], hputs⟩
    have hfull' : ¬(Libc.store s c).bufferEnd ≥ s.buffer.length := hfull
    rw [if_neg hfull']
    have hsame : SameBuffer s (Libc.store s c) := ⟨rfl, rfl, rfl, hlen⟩
    refine ⟨true, _, rfl, h.store hroom c, hsame, ?_, ?_, fun _ => ?_⟩
    · rw [pending_store h.le hroom.2.2, ← append_assoc]
      rfl
    · exact ⟨fun _ hf => hf.1.elim hline hfull, fun _ => rfl⟩
    · exact hsame.hasRoom h (h.store hroom c) hroom (not_le.mp hfull)

/-- `fwrite` stores bytes up to the first flush that fails, and counts them. -/
theorem writeBuffered_sink (bytes : List UInt8) : ∀ {s : Stream Sink}, Kept s → HasRoom s →
    ∃ k s', writeBuffered sinkCalls bytes s = (k, s') ∧ EndsBehind s bytes k ∧ Kept s' ∧
      s'.fd.accepted ++ pending s' = s.fd.accepted ++ pending s ++ bytes.take k := by
  induction bytes with
  | nil =>
    intro s h _
    exact ⟨0, s, rfl, .all, h, by simp⟩
  | cons c bytes ih =>
    intro s h hroom
    obtain ⟨ok, s₁, hput, hputs⟩ := putBuffered_sink h hroom c
    rw [writeBuffered, hput]
    cases ok with
    | false =>
      have hfails : FlushFails s c := by
        by_contra hnot
        cases hputs.well.mpr hnot
      exact ⟨1, _, rfl, .here hfails, ⟨hputs.kept.le, hputs.kept.clean, hputs.kept.unbuffered⟩,
        hputs.all⟩
    | true =>
      obtain ⟨k, s', hrest, hends, hkept, hall⟩ := ih hputs.kept (hputs.room rfl)
      refine ⟨k + 1, s', ?_, .later (hputs.well.mp rfl) ?_, hkept, ?_⟩
      · dsimp only
        rw [hrest]
      · rwa [hput]
      · rw [hall, hputs.all, append_assoc, take_succ_cons]
        rfl

/-! ## Runs that count -/

/-- What has been put is with the descriptor or waits in the buffer. -/
structure Intact (w : Written) : Prop where
  kept : Kept w.stream
  all : w.stream.fd.accepted ++ pending w.stream = w.put
  flushed : w.flushed = true → pending w.stream = []

variable {w : Written}

theorem Fresh.intact (h : Fresh w) : Intact w := by
  have hnil : pending w.stream = [] :=
    pending_eq_nil.mpr (by rw [h.bufferStart, h.bufferEnd])
  refine ⟨⟨?_, fun _ => ⟨h.bufferStart, h.bufferEnd⟩, fun _ => hnil⟩, ?_, fun _ => hnil⟩
  · rw [h.bufferStart, h.bufferEnd]
  · rw [h.accepted, hnil, h.put]
    rfl

theorem Intact.integrity (h : Intact w) : Integrity w := by
  refine ⟨⟨pending w.stream, h.all⟩, fun hf => ?_⟩
  simp [← h.all, h.flushed hf]

theorem Kept.error (h : Kept s) : Kept { s with error := true } := ⟨h.le, h.clean, h.unbuffered⟩

theorem Intact.fputc (h : Intact w) (hc : Counts w.stream (.fputc c)) :
    Intact (operate w (.fputc c)) := by
  obtain ⟨s, put, flushed⟩ := w
  have hk : Kept s := h.kept
  have hall : s.fd.accepted ++ pending s = put := h.all
  rw [operate]
  rw [Libc.fputc]
  by_cases hmay : mayWrite s = false
  · rw [if_pos hmay]
    exact ⟨hk.error, hall, fun hf => by cases hf⟩
  rw [if_neg hmay]
  by_cases hbuf : s.buffering = .IONBF
  · rw [if_pos hbuf]
    have hnil := hk.unbuffered hbuf
    have hwrite : sinkCalls.write s.fd [c] = sinkWrite s.fd [c] := rfl
    rw [hwrite]
    rw [hnil, append_nil] at hall
    rcases hr : s.fd.reply s.fd.calls with _ | _ | n
    · have hcall : sinkWrite s.fd [c] = (none, { s.fd with calls := s.fd.calls + 1 }) := by
        rw [sinkWrite, hr]
      rw [hcall]
      refine ⟨⟨hk.le, hk.clean, hk.unbuffered⟩, ?_, fun hf => (by cases hf)⟩
      exact (congrArg (s.fd.accepted ++ ·) hnil).trans ((append_nil _).trans hall)
    · have hcall : sinkWrite s.fd [c] = (some 0, { s.fd with calls := s.fd.calls + 1 }) := by
        rw [sinkWrite, hr]
        simp
      rw [hcall]
      refine ⟨⟨hk.le, hk.clean, hk.unbuffered⟩, ?_, fun hf => (by cases hf)⟩
      exact (congrArg (s.fd.accepted ++ ·) hnil).trans ((append_nil _).trans hall)
    · have hcall : sinkWrite s.fd [c] = (some (0 + 1),
          { s.fd with accepted := s.fd.accepted ++ [c], calls := s.fd.calls + 1 }) := by
        rw [sinkWrite, hr]
        simp
      rw [hcall]
      refine ⟨⟨hk.le, hk.clean, hk.unbuffered⟩, ?_, fun hf => (by cases hf)⟩
      refine (congrArg (s.fd.accepted ++ [c] ++ ·) hnil).trans ?_
      rw [append_nil, hall]
      rfl
  · rw [if_neg hbuf]
    by_cases hfull : s.bufferEnd ≥ s.buffer.length
    · have hput : putBuffered sinkCalls s c = (false, false, { s with error := true }) := by
        rw [putBuffered, if_pos hfull]
      rw [hput]
      exact ⟨hk.error, hall, fun hf => by cases hf⟩
    have hroom : HasRoom s :=
      ⟨Bool.eq_true_of_not_eq_false hmay, hbuf, not_le.mp hfull⟩
    obtain ⟨ok, s', hput, hputs⟩ := putBuffered_sink hk hroom c
    rw [hput, hputs.well.mpr (hc hroom)]
    refine ⟨hputs.kept, ?_, fun hf => (by cases hf)⟩
    rw [if_pos rfl, ← hall]
    exact hputs.all

theorem EndsBehind.le {bytes : List UInt8} {k : Nat} (h : EndsBehind s bytes k) :
    k ≤ bytes.length := by
  induction h with
  | all => rfl
  | here => exact Nat.succ_le_succ (Nat.zero_le _)
  | later _ _ ih => exact Nat.succ_le_succ ih

theorem elements_take {size nmemb k : Nat} {buffer : Lib.Bytes}
    (hle : k ≤ totalSize size nmemb) (hdvd : size ∣ k) :
    (range (k / size * size)).map buffer = (elements size nmemb buffer).take k := by
  rw [Nat.div_mul_cancel hdvd, elements, ← map_take, take_range, min_eq_left hle]

theorem elements_length (size nmemb : Nat) (buffer : Lib.Bytes) :
    (elements size nmemb buffer).length = totalSize size nmemb := by simp [elements]

theorem Intact.fwrite {size nmemb : Nat} {buffer : Lib.Bytes} (h : Intact w)
    (hc : Counts w.stream (.fwrite size nmemb buffer)) :
    Intact (operate w (.fwrite size nmemb buffer)) := by
  obtain ⟨s, put, flushed⟩ := w
  have hk : Kept s := h.kept
  have hall : s.fd.accepted ++ pending s = put := h.all
  -- nothing is put
  have hnone : ∀ s' : Stream Sink, Kept s' → s'.fd.accepted ++ pending s' = put →
      Intact ⟨s', put ++ (range (0 * size)).map buffer, false⟩ := by
    intro s' hk' hall'
    refine ⟨hk', ?_, fun hf => (by cases hf)⟩
    rwa [zero_mul, range_zero, map_nil, append_nil]
  rw [operate]
  rw [fwriteElements]
  by_cases hzero : size = 0 ∨ nmemb = 0
  · rw [if_pos hzero]
    exact hnone s hk hall
  rw [if_neg hzero, Libc.fwrite]
  dsimp only
  by_cases hnil : elements size nmemb buffer = []
  · rw [if_pos hnil, Nat.zero_div]
    exact hnone s hk hall
  rw [if_neg hnil]
  by_cases hmay : mayWrite s = false
  · rw [if_pos hmay, Nat.zero_div]
    exact hnone _ hk.error hall
  rw [if_neg hmay]
  rw [Bool.not_eq_false] at hmay
  by_cases hbuf : s.buffering = .IONBF
  · rw [if_pos hbuf]
    have hpend := hk.unbuffered hbuf
    have hwrite : sinkCalls.write s.fd (elements size nmemb buffer)
      = sinkWrite s.fd (elements size nmemb buffer) := rfl
    rw [hwrite, sinkWrite, elements_length]
    have hdvd := hc.2 hmay hbuf
    rcases hr : s.fd.reply s.fd.calls with _ | n
    · rw [Nat.zero_div]
      exact hnone _ ⟨hk.le, hk.clean, hk.unbuffered⟩ hall
    refine ⟨⟨hk.le, hk.clean, hk.unbuffered⟩, ?_, fun hf => (by cases hf)⟩
    have htake : (elements size nmemb buffer).take n
        = (elements size nmemb buffer).take (min n (totalSize size nmemb)) := by
      rw [← elements_length size nmemb buffer, ← take_eq_take_min]
    refine (congrArg (s.fd.accepted ++ (elements size nmemb buffer).take n ++ ·)
      hpend).trans ?_
    rw [hpend, append_nil] at hall
    rw [append_nil, hall, htake,
      ← elements_take (min_le_right _ _) (hdvd n hr)]
  · rw [if_neg hbuf]
    by_cases hfull : s.bufferEnd ≥ s.buffer.length
    · obtain ⟨c, bytes, hcons⟩ := exists_cons_of_ne_nil hnil
      have hput : putBuffered sinkCalls s c = (false, false, { s with error := true }) := by
        rw [putBuffered, if_pos hfull]
      rw [hcons, writeBuffered, hput]
      rw [Nat.zero_div]
      exact hnone _ hk.error hall
    · have hroom : HasRoom s := ⟨hmay, hbuf, not_le.mp hfull⟩
      obtain ⟨k, s', hrun, hends, hkept, hall'⟩ :=
        writeBuffered_sink (elements size nmemb buffer) hk hroom
      rw [hrun]
      refine ⟨hkept, ?_, fun hf => (by cases hf)⟩
      have hle := hends.le
      rw [elements_length] at hle
      rwa [elements_take hle (hc.1 hroom k hends), ← hall]

theorem Intact.fflush (h : Intact w) : Intact (operate w .fflush) := by
  obtain ⟨s, put, flushed⟩ := w
  have hk : Kept s := h.kept
  have hall : s.fd.accepted ++ pending s = put := h.all
  rw [operate]
  rcases hw : s.written with _ | _
  · have hflush : internalFflush sinkCalls s = (true, s) := by
      rw [internalFflush, if_pos hw]
    rw [hflush]
    refine ⟨hk, hall, fun _ => pending_eq_nil.mpr ?_⟩
    rw [(hk.clean hw).1, (hk.clean hw).2]
  obtain ⟨ok, s', hflush, hflushed, htrue, hfalse⟩ := internalFflush_sink hk hw
  rw [hflush]
  refine ⟨⟨hflushed.le, fun hw' => ?_, fun hb => ?_⟩, hflushed.all.trans hall, fun hok => ?_⟩
  · cases ok with
    | false => rw [(hfalse rfl).1] at hw'; cases hw'
    | true => exact htrue rfl
  · have hnil := hk.unbuffered (hflushed.same.buffering ▸ hb)
    have hle := pending_eq_nil.mp hnil
    refine pending_eq_nil.mpr ?_
    cases ok with
    | false =>
      have hzero : s.bufferEnd - s.bufferStart = 0 := by omega
      cases hflushed.drains.mpr (hzero ▸ .done _)
    | true => rw [(htrue rfl).1, (htrue rfl).2]
  · exact pending_eq_nil.mpr (by rw [(htrue hok).1, (htrue hok).2])

/-- **Nothing is lost, doubled or out of order.** As long as no flush fails
behind a byte that its call does not count, the descriptor has a prefix of what
has been put, and all of it after a flush. -/
theorem run_integrity {w w' : Written} {ops : List Operation} (h : Fresh w)
    (hrun : Lib.Run (Lib.Guarded (fun w op => Counts w.stream op)
      fun w op w' => w' = operate w op) w ops w') : Integrity w' := by
  refine (hrun.invariant (I := Intact) ?_ h.intact).integrity
  rintro w op w' hw ⟨hc, rfl⟩
  cases op with
  | fputc c => exact hw.fputc hc
  | fwrite size nmemb buffer => exact hw.fwrite hc
  | fflush => exact hw.fflush

/-- A stream with room for two bytes, that is flushed behind each line. The
first calls of the descriptor take nothing. -/
def lineStream : Written where
  stream :=
    { fd := ⟨[], 0, fun k => if k < retryCount then none else some 1⟩
      error := false, eof := false, ungetc := none, mode := .O_WRONLY, buffering := .IOLBF
      written := false, bufferStart := 0, bufferEnd := 0, buffer := [0, 0] }
  put := []
  flushed := false

theorem lineStream_fresh : Fresh lineStream := ⟨rfl, rfl, rfl, rfl, rfl⟩

theorem run_integrity_letter :
    Integrity (operate (operate lineStream (.fputc 65)) .fflush) := by
  have hcounts : Counts lineStream.stream (.fputc 65) := fun _ hf => absurd hf.1 (by decide)
  have hflush : Counts (operate lineStream (.fputc 65)).stream .fflush := trivial
  exact run_integrity lineStream_fresh (.snoc (.single ⟨hcounts, rfl⟩) ⟨hflush, rfl⟩)

/-- The end of a line for which `fputc` has returned `EOF` is written later. -/
theorem failed_line_written :
    Fresh lineStream ∧ (fputc sinkCalls lineStream.stream 10).1 = false ∧
      ¬Integrity (operate (operate lineStream (.fputc 10)) .fflush) :=
  ⟨lineStream_fresh, by decide, fun h => absurd h.inOrder (by decide)⟩

end Dancy.Libc.Write
