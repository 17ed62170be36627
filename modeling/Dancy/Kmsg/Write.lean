import Dancy.Lib.Tape

/-!
# Kernel messages: writing (`base/kmsg.c`)

The messages stand one behind the other in a circle of `kmsgSize` bytes, each
with a prefix that has its number. A tab begins a message and a line feed
ends it; both stand nowhere else. The byte behind the last message is zero.
-/

namespace Dancy.Kmsg

open List Function

open Dancy.Lib (Tape)

/-! ## The code -/

/-- The pages of `kernel->kmsg.buffer`. -/
def kmsgSize : Nat := 64 * 0x1000

structure KernelKmsg where
  buffer : Nat → UInt8
  (state counter : Nat)

/-- The table at the start: the pages are zero. -/
def KernelKmsg.boot : KernelKmsg := ⟨fun _ => 0, 0, 0⟩

def kmsgWriteCharLocked (k : KernelKmsg) (c : UInt8) : KernelKmsg :=
  let i := k.state >>> 1
  { k with
    buffer := update k.buffer i c
    state := if i + 1 < kmsgSize then k.state + 2 else 1 }

/-- A message: the string, without its null character, and the number of
microseconds that `timer_read` gives for it. -/
structure Message where
  text : List UInt8
  time : Nat

def isDigit (c : UInt8) : Bool := 48 ≤ c && c ≤ 57

/-- The digits of `%u` and `%llu`. -/
def decimalAux : (fuel n : Nat) → List UInt8
  | 0, _ => []
  | fuel + 1, n =>
    if n < 10 then [UInt8.ofNat (48 + n)]
    else decimalAux fuel (n / 10) ++ [UInt8.ofNat (48 + n % 10)]

def decimal (n : Nat) : List UInt8 := decimalAux (n + 1) n

/-- The level in front of a text and what is behind it. -/
def levelOf (m : List UInt8) : Nat × List UInt8 :=
  match m with
  | [] => (6, m)
  | c :: _ =>
    if isDigit c then
      ((m.takeWhile isDigit).foldl (fun level d => (level * 10 + (d.toNat - 48)) % 2 ^ 32) 0,
        m.dropWhile isDigit)
    else (6, m)

def hexDigit (n : Nat) : UInt8 := if n < 10 then UInt8.ofNat (48 + n) else UInt8.ofNat (87 + n)

/-- The loop over the text, with `r` bytes before it. -/
def textLoop : (r : Nat) → List UInt8 → List UInt8
  | _, [] => []
  | r, c :: m =>
    if 256 ≤ r then []
    else if c = 10 ∧ m = [] then []
    else if (c < 0x20 ∨ 0x7E < c) ∨ (c = 32 ∧ (m = [] ∨ m.head? = some 10)) then
      [92, 120, hexDigit (c.toNat >>> 4), hexDigit (c.toNat &&& 15)] ++ textLoop (r + 4) m
    else c :: textLoop (r + 1) m

def prefixOf (level counter time : Nat) : List UInt8 :=
  9 :: (decimal level ++ 44 :: (decimal counter ++ 44 :: (decimal time ++ [44, 45, 59])))

/-- The bytes that `kmsg_write_locked` writes for a message, `none` when it
returns before it writes. -/
def messageBytes (counter : Nat) (m : Message) : Option (List UInt8) :=
  let text := (levelOf m.text).2
  if text = [] ∨ text.head? = some 10 ∨ text.head? = some 32 then none
  else
    let start := prefixOf (levelOf m.text).1 counter m.time
    if start.length < 9 ∨ 64 ≤ start.length then none
    else some (start ++ textLoop start.length text ++ [10])

/-- A store to the buffer: a byte of a message, or the zero behind it. -/
inductive Store where
  | char (c : UInt8)
  | nul

def KernelKmsg.store (k : KernelKmsg) : Store → KernelKmsg
  | .char c => kmsgWriteCharLocked k c
  | .nul => { k with buffer := update k.buffer (k.state >>> 1) 0 }

def messageStores (bytes : List UInt8) : List Store := bytes.map .char ++ [.nul]

def kmsgWriteLocked (k : KernelKmsg) (m : Message) : KernelKmsg :=
  match messageBytes k.counter m with
  | none => k
  | some bytes =>
    let k := (messageStores bytes).foldl KernelKmsg.store k
    { k with counter := k.counter + 1 }

/-! ## Records -/

/-- The bytes of the messages that are written, the first one with the number
`counter`. -/
def records : (counter : Nat) → List Message → List (List UInt8)
  | _, [] => []
  | counter, m :: ms =>
    match messageBytes counter m with
    | none => records counter ms
    | some bytes => bytes :: records (counter + 1) ms

/-- The shape of the message with the number `n`. -/
structure IsRecord (n : Nat) (bytes : List UInt8) : Prop where
  shape : ∃ level body : List UInt8, (∀ c ∈ level, isDigit c = true) ∧
    (∀ c ∈ body, 0x20 ≤ c ∧ c ≤ 0x7E) ∧
    bytes = 9 :: (level ++ 44 :: (decimal n ++ 44 :: (body ++ [10])))

theorem isDigit_iff (c : UInt8) : isDigit c = true ↔ 48 ≤ c.toNat ∧ c.toNat ≤ 57 := by
  simp only [isDigit, Bool.and_eq_true, decide_eq_true_eq]
  rfl

variable {n : Nat} (ss : List Store) (rs : List (List UInt8))

theorem isDigit_ofNat (h : n < 10) : isDigit (UInt8.ofNat (48 + n)) = true := by
  rw [isDigit_iff, UInt8.toNat_ofNat', Nat.mod_eq_of_lt (by omega)]
  omega

theorem decimalAux_digits (fuel : Nat) : ∀ n, ∀ c ∈ decimalAux fuel n, isDigit c = true := by
  induction fuel with
  | zero =>
    intro n c hc
    cases hc
  | succ fuel ih =>
    intro n c hc
    rw [decimalAux] at hc
    by_cases hn : n < 10
    · rw [if_pos hn] at hc
      rw [mem_singleton.mp hc]
      exact isDigit_ofNat hn
    rw [if_neg hn] at hc
    rcases mem_append.mp hc with hc | hc
    · exact ih _ c hc
    · rw [mem_singleton.mp hc]
      exact isDigit_ofNat (Nat.mod_lt _ (by decide))

theorem decimal_digits : ∀ c ∈ decimal n, isDigit c = true := decimalAux_digits _ n

theorem decimal_ne_nil (n : Nat) : decimal n ≠ [] := by
  rw [decimal, decimalAux]
  split
  · simp
  · simp

/-- The value of digits behind the number `v`. -/
def decimalValue (v : Nat) (ds : List UInt8) : Nat :=
  ds.foldl (fun v d => v * 10 + (d.toNat - 48)) v

theorem decimalValue_decimalAux (fuel : Nat) : ∀ n < fuel, decimalValue 0 (decimalAux fuel n) = n := by
  induction fuel with
  | zero =>
    intro n hn
    cases hn
  | succ fuel ih =>
    intro n hn
    have hdigit : ∀ d < 10, (UInt8.ofNat (48 + d)).toNat - 48 = d := by
      intro d hd
      rw [UInt8.toNat_ofNat', Nat.mod_eq_of_lt (by omega)]
      omega
    rw [decimalAux]
    by_cases hsmall : n < 10
    · rw [if_pos hsmall, decimalValue, foldl_cons, foldl_nil, hdigit n hsmall]
      omega
    rw [if_neg hsmall, decimalValue, foldl_append]
    have hhigh := ih (n / 10) (by omega)
    rw [decimalValue] at hhigh
    rw [hhigh, foldl_cons, foldl_nil, hdigit _ (Nat.mod_lt _ (by decide))]
    omega

theorem decimalValue_decimal (n : Nat) : decimalValue 0 (decimal n) = n :=
  decimalValue_decimalAux (n + 1) n (Nat.lt_succ_self n)

theorem hexDigit_printable (h : n < 16) : 0x20 ≤ hexDigit n ∧ hexDigit n ≤ 0x7E := by
  obtain ⟨d, rfl⟩ : ∃ d : Fin 16, n = d := ⟨⟨n, h⟩, rfl⟩
  revert d
  decide

theorem textLoop_printable (m : List UInt8) : ∀ r, ∀ c ∈ textLoop r m, 0x20 ≤ c ∧ c ≤ 0x7E := by
  induction m with
  | nil =>
    intro r c hc
    cases hc
  | cons x m ih =>
    intro r c hc
    rw [textLoop] at hc
    split at hc
    · cases hc
    split at hc
    · cases hc
    split at hc
    · rcases mem_append.mp hc with hc | hc
      · simp only [mem_cons, not_mem_nil, or_false] at hc
        rcases hc with rfl | rfl | rfl | rfl
        · decide
        · decide
        · refine hexDigit_printable ?_
          have := x.toNat_lt
          omega
        · exact hexDigit_printable (Nat.lt_succ_of_le Nat.and_le_right)
      · exact ih _ c hc
    · next hplain =>
        rcases mem_cons.mp hc with rfl | hc
        · have := not_or.mp (not_or.mp hplain).1
          exact ⟨UInt8.not_lt.mp this.1, UInt8.not_lt.mp this.2⟩
        · exact ih _ c hc

theorem isRecord_messageBytes {m : Message} {bytes : List UInt8} (h : messageBytes n m = some bytes) :
    IsRecord n bytes := by
  simp only [messageBytes] at h
  split at h
  · cases h
  split at h
  · cases h
  obtain rfl := Option.some.inj h
  refine ⟨⟨decimal (levelOf m.text).1, decimal m.time ++ [44, 45, 59] ++
    textLoop (prefixOf (levelOf m.text).1 n m.time).length (levelOf m.text).2,
    decimal_digits, ?_, by simp [prefixOf]⟩⟩
  intro c hc
  rcases mem_append.mp hc with hc | hc
  · rcases mem_append.mp hc with hc | hc
    · have hd := (isDigit_iff c).mp (decimal_digits c hc)
      exact ⟨Nat.le_trans (by decide) hd.1, Nat.le_trans hd.2 (by decide)⟩
    simp only [mem_cons, not_mem_nil, or_false] at hc
    rcases hc with rfl | rfl | rfl
    · decide
    · decide
    · decide
  · exact textLoop_printable _ _ c hc

theorem isRecord_records (ms : List Message) : ∀ (counter i : Nat) (h : i < (records counter ms).length),
    IsRecord (counter + i) (records counter ms)[i] := by
  induction ms with
  | nil =>
    intro counter i h
    cases h
  | cons m ms ih =>
    intro counter i h
    rcases hm : messageBytes counter m with _ | bytes
    · have heq : records counter (m :: ms) = records counter ms := by
        rw [records, hm]
      simp only [heq] at h ⊢
      exact ih counter i h
    have heq : records counter (m :: ms) = bytes :: records (counter + 1) ms := by
      rw [records, hm]
    simp only [heq] at h ⊢
    cases i with
    | zero => exact isRecord_messageBytes hm
    | succ i =>
      rw [show counter + (i + 1) = counter + 1 + i by omega]
      exact ih (counter + 1) i (Nat.lt_of_succ_lt_succ h)

/-! ## The buffer -/

def history (rs : List (List UInt8)) : List Store := rs.flatMap messageStores

/-- The bytes of the messages among some stores. -/
def charsOf : List Store → List UInt8
  | [] => []
  | .char c :: ss => c :: charsOf ss
  | .nul :: ss => charsOf ss

theorem charsOf_append (ss ts : List Store) : charsOf (ss ++ ts) = charsOf ss ++ charsOf ts := by
  induction ss with
  | nil => rfl
  | cons x ss ih => cases x <;> simp [charsOf, ih]

theorem charsOf_messageStores (bytes : List UInt8) : charsOf (messageStores bytes) = bytes := by
  induction bytes with
  | nil => rfl
  | cons c bytes ih => exact congrArg (c :: ·) ih

theorem charsOf_history : charsOf (history rs) = rs.flatten := by
  induction rs with
  | nil => rfl
  | cons r rs ih =>
    rw [history, flatMap_cons, charsOf_append, charsOf_messageStores, flatten_cons]
    exact congrArg (r ++ ·) ih

/-- The buffer holds the end of a tape, and the state is the next place. -/
structure Laid (tape : List UInt8) (k : KernelKmsg) : Prop where
  cells : Tape kmsgSize 0 tape k.buffer
  next : k.state >>> 1 = tape.length % kmsgSize

theorem Laid.boot : Laid [] .boot := ⟨Tape.empty _ _, rfl⟩

theorem Laid.store {tape : List UInt8} {k : KernelKmsg} (h : Laid tape k) (x : Store) :
    Laid (tape ++ charsOf [x]) (k.store x) := by
  cases x with
  | char c =>
    refine ⟨?_, ?_⟩
    · simp only [KernelKmsg.store, kmsgWriteCharLocked, h.next]
      exact h.cells.put (by decide) c
    have hstate := h.next
    have hlt : tape.length % kmsgSize < kmsgSize := Nat.mod_lt _ (by decide)
    simp only [KernelKmsg.store, kmsgWriteCharLocked, charsOf, length_append, length_singleton]
    rw [Nat.shiftRight_eq_div_pow, hstate]
    have hnext := Nat.add_mod tape.length 1 kmsgSize
    by_cases hroom : tape.length % kmsgSize + 1 < kmsgSize
    · rw [if_pos hroom, hnext, Nat.mod_eq_of_lt (show 1 < kmsgSize by decide),
        Nat.mod_eq_of_lt hroom]
      omega
    · simp [hnext, show tape.length % kmsgSize + 1 = kmsgSize by omega]
  | nul =>
    refine ⟨?_, ?_⟩
    · simp only [KernelKmsg.store, h.next, charsOf, append_nil]
      exact h.cells.close
    · simpa [KernelKmsg.store, charsOf] using h.next

theorem Laid.foldl : ∀ {tape : List UInt8} {k : KernelKmsg},
    Laid tape k → Laid (tape ++ charsOf ss) (ss.foldl KernelKmsg.store k) := by
  induction ss with
  | nil => simp [charsOf]
  | cons x ss ih =>
    intro tape k h
    have hx := ih (h.store x)
    rw [append_assoc, ← charsOf_append] at hx
    exact hx

theorem store_counter : ∀ k : KernelKmsg,
    (ss.foldl KernelKmsg.store k).counter = k.counter := by
  induction ss with
  | nil => exact fun _ => rfl
  | cons x ss ih =>
    intro k
    rw [foldl_cons, ih]
    cases x <;> rfl

theorem foldl_store_counter (n : Nat) : ∀ k : KernelKmsg,
    ss.foldl KernelKmsg.store { k with counter := n } =
      { ss.foldl KernelKmsg.store k with counter := n } := by
  induction ss with
  | nil => exact fun _ => rfl
  | cons x ss ih =>
    intro k
    rw [foldl_cons, foldl_cons, ← ih]
    cases x <;> rfl

/-- Writing messages makes the stores of their records and counts them. -/
theorem foldl_kmsgWriteLocked (ms : List Message) : ∀ k : KernelKmsg, ms.foldl kmsgWriteLocked k =
      { (history (records k.counter ms)).foldl KernelKmsg.store k with
        counter := k.counter + (records k.counter ms).length } := by
  induction ms with
  | nil => exact fun _ => rfl
  | cons m ms ih =>
    intro k
    rw [foldl_cons]
    rcases hm : messageBytes k.counter m with _ | bytes
    · have hk : kmsgWriteLocked k m = k := by rw [kmsgWriteLocked, hm]
      have hrec : records k.counter (m :: ms) = records k.counter ms := by rw [records, hm]
      rw [hk, hrec]
      exact ih k
    have hk : kmsgWriteLocked k m =
        { (messageStores bytes).foldl KernelKmsg.store k with counter := k.counter + 1 } := by
      rw [kmsgWriteLocked, hm]
      simp only [store_counter]
    have hrec : records k.counter (m :: ms) = bytes :: records (k.counter + 1) ms := by
      rw [records, hm]
    rw [hk, hrec, ih]
    simp only [history, flatMap_cons, foldl_append, length_cons, foldl_store_counter]
    congr 1
    omega

/-- The buffer after the first `w` stores. -/
def bufferAt (rs : List (List UInt8)) (w : Nat) : Nat → UInt8 :=
  (((history rs).take w).foldl KernelKmsg.store .boot).buffer

/-- The bytes of messages among the first `w` stores. -/
def tapeAt (rs : List (List UInt8)) (w : Nat) : List UInt8 := charsOf ((history rs).take w)

theorem laidAt (w : Nat) : Tape kmsgSize 0 (tapeAt rs w) (bufferAt rs w) :=
  ((Laid.boot).foldl ((history rs).take w)).cells

theorem tapeAt_grows {w w' : Nat} (h : w ≤ w') : tapeAt rs w <+: tapeAt rs w' := by
  obtain ⟨ss, hss⟩ := take_prefix_take_left h
  exact ⟨charsOf ss, by rw [tapeAt, tapeAt, ← hss, charsOf_append]⟩

/-- The stores of the first `k` messages. -/
def storesDone (rs : List (List UInt8)) (k : Nat) : Nat := (history (rs.take k)).length

theorem history_take (k : Nat) : (history rs).take (storesDone rs k) = history (rs.take k) := by
  have hsplit : history rs = history (rs.take k) ++ history (rs.drop k) := by
    rw [history, history, history, ← flatMap_append, take_append_drop]
  simp [hsplit, storesDone]

theorem tapeAt_storesDone (k : Nat) : tapeAt rs (storesDone rs k) = (rs.take k).flatten := by
  rw [tapeAt, history_take, charsOf_history]

theorem bufferAt_closed (k : Nat) :
    bufferAt rs (storesDone rs k) ((tapeAt rs (storesDone rs k)).length % kmsgSize) = 0 := by
  have hlaid := Laid.boot.foldl (history (rs.take k))
  rw [nil_append, charsOf_history] at hlaid
  rw [bufferAt, tapeAt_storesDone, history_take, ← hlaid.next]
  rcases eq_nil_or_concat (rs.take k) with hnil | ⟨front, last, hlast⟩
  · rw [hnil]
    rfl
  · rw [hlast, history, concat_eq_append, flatMap_append, flatMap_singleton,
      messageStores, ← append_assoc, foldl_append, foldl_cons, foldl_nil]
    simp [KernelKmsg.store]

/-- How many messages are complete when the lock is free next, after `w`
stores. -/
def doneBy : List (List UInt8) → (w : Nat) → Nat
  | [], _ => 0
  | r :: rs, w => if w = 0 then 0 else 1 + doneBy rs (w - (messageStores r).length)

theorem doneBy_le : ∀ w, doneBy rs w ≤ rs.length := by
  induction rs with
  | nil => exact fun _ => Nat.le_refl 0
  | cons r rs ih =>
    intro w
    rw [doneBy]
    split
    · omega
    · have := ih (w - (messageStores r).length)
      rw [length_cons]
      omega

theorem tapeAt_prefix_done : ∀ w,
    tapeAt rs w <+: tapeAt rs (storesDone rs (doneBy rs w)) := by
  have hle : ∀ (rs : List (List UInt8)) (w : Nat), w ≤ (history rs).length →
      w ≤ storesDone rs (doneBy rs w) := by
    intro rs
    induction rs with
    | nil =>
      intro w h
      exact h
    | cons r rs ih =>
      intro w h
      rw [doneBy]
      split
      · omega
      have hlen : (history (r :: rs)).length =
          (messageStores r).length + (history rs).length := by
        rw [history, flatMap_cons, length_append]
        rfl
      have := ih (w - (messageStores r).length) (by omega)
      rw [storesDone, Nat.add_comm 1, take_succ_cons, history, flatMap_cons, length_append]
      simp only [storesDone, history] at this
      omega
  intro w
  by_cases hw : w ≤ (history rs).length
  · exact tapeAt_grows rs (hle rs w hw)
  have hall : tapeAt rs w = tapeAt rs (history rs).length := by
    rw [tapeAt, tapeAt, take_of_length_le (by omega), take_length]
  have hdone : ∀ (rs : List (List UInt8)) (w : Nat), (history rs).length < w →
      doneBy rs w = rs.length := by
    intro rs
    induction rs with
    | nil => exact fun _ _ => rfl
    | cons r rs ih =>
      intro w h
      rw [history, flatMap_cons, length_append] at h
      rw [doneBy, if_neg (by omega), ih _ (by simp only [history]; omega), length_cons]
      omega
  rw [hall, hdone rs w (by omega)]
  exact tapeAt_grows rs (by rw [storesDone, take_length])

end Dancy.Kmsg
