import Dancy.Common.Utf8
import Dancy.Vfs.Pty

/-!
# Editing a line

What a user means by the keys of a line: characters, and VERASE, VKILL and
VWERASE. The line is a stack of characters, its newest one first. The terminal
has the bytes of this line, as long as no key meets a full line in a way that
takes too much away.
-/

namespace Dancy.Pty

open Dancy.Lib
open List hiding utf8Encode
open Dancy.Common (Scalar utf8Encode)

/-! ## The meaning of the keys -/

inductive Key where
  | char (u : Nat)
  | erase
  | kill
  | werase

def blank (u : Nat) : Bool := u == 9 || u == 32

/-- Blanks at the end go, and then the word before them. -/
def eraseWord (ls : List Nat) : List Nat := (ls.dropWhile blank).dropWhile fun u => !blank u

def editKey (ls : List Nat) : Key → List Nat
  | .char u => u :: ls
  | .erase => ls.tail
  | .kill => []
  | .werase => eraseWord ls

def bytesOf (ls : List Nat) : List UInt8 := ls.flatMap fun u => (utf8Encode u).reverse

def textOf (ls : List Nat) : List UInt8 := ls.reverse.flatMap utf8Encode

/-- A byte that is neither a control character of the terminal nor a line
feed. -/
structure Plain (t : Termios) (c : UInt8) : Prop where
  signal : isSignal t c = false
  lineFeed : c ≠ 10
  eof : isCc t veof c = false
  erase : isCc t verase c = false
  kill : isCc t vkill c = false
  werase : isCc t vwerase c = false
  eol : isCc t veol c = false

/-- The bytes of a key, after the conversions of `c_iflag`. -/
def keyBytes (t : Termios) : Key → List UInt8
  | .char u => utf8Encode u
  | .erase => [t.cCc verase]
  | .kill => [t.cCc vkill]
  | .werase => [t.cCc vwerase]

/-- A control character is set and is not another one that goes first. -/
structure Control (t : Termios) (c : UInt8) : Prop where
  set : c ≠ 0
  signal : isSignal t c = false
  lineFeed : c ≠ 10
  eof : isCc t veof c = false

/-- A key that the terminal knows: a character without control characters, or
an editing character. -/
def Typeable (t : Termios) : Key → Prop
  | .char u => Scalar u ∧ ∀ c ∈ utf8Encode u, Plain t c
  | .erase => Control t (t.cCc verase)
  | .kill => Control t (t.cCc vkill) ∧ isCc t verase (t.cCc vkill) = false
  | .werase => Control t (t.cCc vwerase) ∧ isCc t verase (t.cCc vwerase) = false ∧
      isCc t vkill (t.cCc vwerase) = false

/-- The line of the terminal after a byte that does not end it. -/
def keepLine (t : Termios) (st : List UInt8) (c : UInt8) : List UInt8 :=
  match lineByte t st c with
  | .keep st => st
  | _ => []

def lineAfter (t : Termios) (ks : List Key) : List UInt8 :=
  (ks.flatMap (keyBytes t)).foldl (keepLine t) []

/-- The key takes too much away from a full line: its own byte was not stored,
but one byte is taken back. -/
def Spoils (ls : List Nat) : Key → Prop
  | .erase => (bytesOf ls).length = ptyIcanonSize - 1 ∧ ∃ u rest, ls = u :: rest ∧ u < 0x80
  | .werase => (bytesOf ls).length = ptyIcanonSize - 1 ∧
      ∃ u v rest, ls = u :: v :: rest ∧ u < 0x80 ∧ blank u = false ∧ blank v = true
  | _ => False

/-- No key meets a full line so, from a line on. -/
def Unspoiled : List Nat → List Key → Prop
  | _, [] => True
  | ls, k :: ks => ¬ Spoils ls k ∧ Unspoiled (editKey ls k) ks

/-! ## Characters -/

theorem textOf_eq (ls : List Nat) : textOf ls = (bytesOf ls).reverse := by
  induction ls with
  | nil => rfl
  | cons u ls ih =>
    rw [textOf, reverse_cons, flatMap_append, flatMap_singleton, bytesOf,
      flatMap_cons, reverse_append, reverse_reverse]
    exact congrArg (· ++ utf8Encode u) ih

theorem isContinuation_iff (c : UInt8) :
    isContinuation c = true ↔ 0x80 ≤ c.toNat ∧ c.toNat < 0xC0 := by
  have hall : ∀ n < 256, isContinuation (UInt8.ofNat n) = true ↔ 0x80 ≤ n ∧ n < 0xC0 := by
    decide +kernel
  have h := hall c.toNat c.toNat_lt
  rwa [UInt8.ofNat_toNat] at h

theorem isBlank_toNat (c : UInt8) : isBlank c = blank c.toNat := by
  have hall : ∀ n < 256, isBlank (UInt8.ofNat n) = blank n := by decide +kernel
  have h := hall c.toNat c.toNat_lt
  rwa [UInt8.ofNat_toNat] at h

variable {u rounds : Nat} {lead : UInt8} {ls : List Nat} {st rest : List UInt8} {t : Termios}

theorem blank_lt (h : blank u = true) : u < 0x80 := by
  simp only [blank, Bool.or_eq_true, beq_iff_eq] at h
  omega

theorem utf8Encode_shape (hs : Scalar u) : ∃ lead conts, utf8Encode u = lead :: conts ∧
    isContinuation lead = false ∧ (∀ c ∈ conts, isContinuation c = true) ∧
    isBlank lead = blank u ∧ (conts = [] ↔ u < 0x80) := by
  have hcont : ∀ c : UInt8, ¬ (0x80 ≤ c.toNat ∧ c.toNat < 0xC0) → isContinuation c = false := by
    intro c hc
    rwa [← Bool.not_eq_true, isContinuation_iff]
  rcases Common.scalar_cases hs with hlow | ⟨len, hlen, hleast, htop⟩
  · have htoNat : (UInt8.ofNat u).toNat = u := Common.toNat_ofNat_small (by omega)
    refine ⟨UInt8.ofNat u, [], by rw [utf8Encode, if_pos (by omega)], hcont _ (by omega),
      nofun, ?_, by simp [hlow]⟩
    rw [isBlank_toNat, htoNat]
  have hnot : ¬ u < 0x80 := by
    obtain rfl | rfl | rfl : len = 1 ∨ len = 2 ∨ len = 3 := by omega
    all_goals
      simp only [Common.leastValue] at hleast
      omega
  have hblank : blank u = false := by
    by_contra h
    exact hnot (blank_lt (by simpa using h))
  -- The first byte of a sequence and the bytes behind it.
  have hseq : ∀ done val, val < Common.leadCount len * 64 ^ done →
      ∃ lead conts, Common.sequence len done val = lead :: conts ∧ 0xC0 ≤ lead.toNat ∧
        (∀ c ∈ conts, isContinuation c = true) ∧ conts.length = done := by
    intro done
    induction done with
    | zero =>
      intro val hval
      refine ⟨_, [], rfl, ?_, nofun, rfl⟩
      have hsum : 0xC0 ≤ Common.leadBase len + val ∧ Common.leadBase len + val < 256 := by
        obtain rfl | rfl | rfl : len = 1 ∨ len = 2 ∨ len = 3 := by omega
        all_goals
          simp only [Common.leadBase, Common.leadCount] at hval ⊢
          omega
      rw [Common.toNat_ofNat_small hsum.2]
      exact hsum.1
    | succ done ih =>
      intro val hval
      rw [pow_succ, ← mul_assoc] at hval
      obtain ⟨lead, conts, heq, hlead, hconts, hlength⟩ :=
        ih (val / 64) (Nat.div_lt_of_lt_mul (by rwa [mul_comm]))
      refine ⟨lead, conts ++ [UInt8.ofNat (0x80 + val % 64)], ?_, hlead, ?_, by simp [hlength]⟩
      · simp [Common.sequence, heq]
      intro c hc
      rcases mem_append.mp hc with hc | hc
      · exact hconts c hc
      · rw [mem_singleton.mp hc, isContinuation_iff, Common.toNat_ofNat_small (by omega)]
        omega
  obtain ⟨lead, conts, heq, hlead, hconts, hlength⟩ := hseq len u htop
  refine ⟨lead, conts, (Common.utf8Encode_sequence hlen hleast htop hs).trans heq,
    hcont _ (by omega), hconts, ?_, ?_⟩
  · rw [isBlank_toNat, hblank]
    by_contra h
    have := blank_lt (by simpa using h)
    omega
  · rw [← length_eq_zero_iff]
    omega

theorem popChar_conts (hlead : isContinuation lead = false) (rest : List UInt8) (cs : List UInt8)
    : (∀ c ∈ cs, isContinuation c = true) → popChar (cs ++ lead :: rest) = (lead, rest) := by
  induction cs with
  | nil =>
    intro _
    cases rest with
    | nil => rfl
    | cons d rest => rw [nil_append, popChar, if_neg (by simp [hlead])]
  | cons c cs ih =>
    intro hcs
    have hrest := ih fun x hx => hcs x (.tail c hx)
    have hc := hcs c mem_cons_self
    cases cs with
    | nil => rw [singleton_append, popChar, if_pos hc]; exact hrest
    | cons d cs => rw [cons_append, cons_append, popChar, if_pos hc]; exact hrest

theorem bytesOf_cons (u : Nat) (ls : List Nat) :
    bytesOf (u :: ls) = (utf8Encode u).reverse ++ bytesOf ls := rfl

theorem popChar_bytesOf (hs : Scalar u) (ls : List Nat) :
    bytesOf (u :: ls) ≠ [] ∧
      ∃ lead, isBlank lead = blank u ∧ popChar (bytesOf (u :: ls)) = (lead, bytesOf ls) := by
  obtain ⟨lead, conts, heq, hlead, hconts, hblank, -⟩ := utf8Encode_shape hs
  have hbytes : bytesOf (u :: ls) = conts.reverse ++ lead :: bytesOf ls := by
    rw [bytesOf_cons, heq, reverse_cons, append_assoc]
    rfl
  refine ⟨by simp [hbytes], lead, hblank, ?_⟩
  rw [hbytes]
  exact popChar_conts hlead _ _ fun c hc => hconts c (mem_reverse.mp hc)

/-- The newest byte of a line is a blank just when its newest character is. -/
theorem head_bytesOf (hls : ∀ u ∈ ls, Scalar u) :
    (bytesOf ls).head?.any isBlank = ls.head?.any blank := by
  cases ls with
  | nil => rfl
  | cons u ls =>
    obtain ⟨lead, conts, heq, -, hconts, hblank, hsmall⟩ := utf8Encode_shape
      (hls u mem_cons_self)
    rw [bytesOf_cons, heq, reverse_cons, append_assoc, head?_cons, Option.any_some]
    rcases eq_nil_or_concat conts with rfl | ⟨front, last, rfl⟩
    · simpa using hblank
    have hlast := (isContinuation_iff last).mp (hconts last (by simp))
    have hnot : isBlank last = false := by
      rw [isBlank_toNat]
      by_contra h
      have := blank_lt (by simpa using h)
      omega
    have hbig : blank u = false := by
      by_contra h
      have := hsmall.mpr (blank_lt (by simpa using h))
      simp at this
    simp [hnot, hbig]

theorem eraseStack_kill (rounds : Nat) : ∀ (st : List UInt8) (wordState : Bool),
    st.length ≤ rounds → eraseStack (-1) rounds st wordState = [] := by
  induction rounds with
  | zero =>
    intro st _ h
    exact eq_nil_of_length_eq_zero (Nat.le_zero.mp h)
  | succ rounds ih =>
    intro st wordState h
    rw [eraseStack]
    by_cases hnil : st = []
    · rw [if_pos hnil]
    · have hpop := length_popChar st hnil
      rw [if_neg hnil]
      exact ih _ _ (by omega)

section

variable (hne : st ≠ []) (hpop : popChar st = (lead, rest))
include hne hpop

theorem eraseStack_char (wordState : Bool) : eraseStack 0 (rounds + 1) st wordState = rest := by
  rw [eraseStack, if_neg hne]
  rw [if_pos rfl, hpop]

theorem eraseStack_word (wordState : Bool) :
    eraseStack 1 (rounds + 1) st wordState =
      if (wordState || !isBlank lead) = true ∧ rest.head?.any isBlank = true then rest
      else eraseStack 1 rounds rest (wordState || !isBlank lead) := by
  rw [eraseStack, if_neg hne]
  rw [if_neg (by decide), hpop]
  simp

theorem length_rest_le (h : st.length ≤ rounds + 1) : rest.length ≤ rounds := by
  have := length_popChar st hne
  rw [hpop] at this
  dsimp only at this
  omega

end

theorem eraseStack_inside (ls : List Nat) (hls : ∀ u ∈ ls, Scalar u) : ∀ {rounds : Nat},
    (bytesOf ls).length ≤ rounds → ls.head?.any blank = false →
      eraseStack 1 rounds (bytesOf ls) true = bytesOf (ls.dropWhile fun u => !blank u) := by
  induction ls with
  | nil =>
    intro rounds _ _
    cases rounds with
    | zero | succ => rfl
  | cons u ls ih =>
    intro rounds hlen hhead
    obtain ⟨hne, lead, hblank, hpop⟩ := popChar_bytesOf (hls u mem_cons_self) ls
    have hrest : ∀ v ∈ ls, Scalar v := fun v hv => hls v (.tail u hv)
    cases rounds with
    | zero => exact absurd (eq_nil_of_length_eq_zero (Nat.le_zero.mp hlen)) hne
    | succ rounds =>
      have hu : blank u = false := by simpa using hhead
      rw [eraseStack_word hne hpop, head_bytesOf hrest, Bool.true_or,
        dropWhile_cons_of_pos (by simp [hu])]
      by_cases hstop : ls.head?.any blank = true
      · rw [if_pos ⟨rfl, hstop⟩]
        cases ls with
        | nil => simp at hstop
        | cons v ls =>
          have hv : blank v = true := by simpa using hstop
          rw [dropWhile_cons_of_neg (by simp [hv])]
      · rw [if_neg (fun h => hstop h.2)]
        exact ih hrest (length_rest_le hne hpop hlen) (by simpa using hstop)

/-- A word is erased, when the next character to take is the newest one. -/
theorem eraseStack_eraseWord (ls : List Nat) : ∀ {u : Nat} {rounds : Nat} {st : List UInt8}
    {lead : UInt8}, (∀ v ∈ ls, Scalar v) → st ≠ [] → popChar st = (lead, bytesOf ls) →
      isBlank lead = blank u → st.length ≤ rounds →
        eraseStack 1 rounds st false = bytesOf (eraseWord (u :: ls)) := by
  induction ls with
  | nil =>
    intro u rounds st lead _ hne hpop hblank hlen
    cases rounds with
    | zero => exact absurd (eq_nil_of_length_eq_zero (Nat.le_zero.mp hlen)) hne
    | succ rounds =>
      rw [eraseStack_word hne hpop]
      have hnil : eraseStack 1 rounds (bytesOf []) (false || !isBlank lead) = [] := by
        cases rounds with
        | zero | succ rounds => rfl
      rw [if_neg (by simp [bytesOf]), hnil, eraseWord]
      rcases hu : blank u with _ | _
      · simp [hu, bytesOf]
      · simp [hu, bytesOf]
  | cons v ls ih =>
    intro u rounds st lead hls hne hpop hblank hlen
    have hls' : ∀ w ∈ ls, Scalar w := fun w hw => hls w (.tail v hw)
    cases rounds with
    | zero => exact absurd (eq_nil_of_length_eq_zero (Nat.le_zero.mp hlen)) hne
    | succ rounds =>
      have hrest := length_rest_le hne hpop hlen
      rw [eraseStack_word hne hpop, hblank, head_bytesOf hls]
      rcases hu : blank u with _ | _
      · -- The word ends here, or goes on with the next character.
        rw [eraseWord, dropWhile_cons_of_neg (by simp [hu]),
          dropWhile_cons_of_pos (by simp [hu])]
        by_cases hstop : (v :: ls).head?.any blank = true
        · rw [if_pos ⟨rfl, hstop⟩]
          have hv : blank v = true := by simpa using hstop
          rw [dropWhile_cons_of_neg (by simp [hv])]
        · rw [if_neg (fun h => hstop h.2)]
          exact eraseStack_inside _ hls hrest (by simpa using hstop)
      · obtain ⟨hne', lead', hblank', hpop'⟩ := popChar_bytesOf (hls v mem_cons_self) ls
        rw [if_neg (by simp), Bool.not_true, Bool.or_false]
        have := ih hls' hne' hpop' hblank' hrest
        rw [this, eraseWord, eraseWord, dropWhile_cons_of_pos hu]

/-! ## One key -/

theorem isCc_self {i : Nat} (h : t.cCc i ≠ 0) : isCc t i (t.cCc i) = true := by
  simp [isCc, h]

theorem keepLine_plain {c : UInt8} (h : Plain t c) (st : List UInt8) :
    keepLine t st c = stored st c := by
  simp [keepLine, lineByte, h.lineFeed, h.eof, h.erase, h.kill, h.werase, h.eol]

theorem foldl_keepLine_plain (cs : List UInt8) : (∀ c ∈ cs, Plain t c) →
    ∀ st : List UInt8, cs.length + st.length ≤ ptyIcanonSize - 1 →
      cs.foldl (keepLine t) st = cs.reverse ++ st := by
  induction cs with
  | nil => simp
  | cons c cs ih =>
    intro hcs st hlen
    rw [length_cons] at hlen
    rw [foldl_cons, keepLine_plain (hcs c mem_cons_self), stored, if_pos (by omega),
      ih (fun x hx => hcs x (.tail c hx)) _ (by rw [length_cons]; omega),
      reverse_cons, append_assoc]
    rfl

theorem keepLine_erase (h : Control t (t.cCc verase)) (st : List UInt8) :
    keepLine t st (t.cCc verase) = erased (stored st (t.cCc verase)) 0 := by
  simp [keepLine, lineByte, h.lineFeed, h.eof, isCc_self h.set]

theorem keepLine_kill (h : Control t (t.cCc vkill)) (herase : isCc t verase (t.cCc vkill) = false)
    (st : List UInt8) :
    keepLine t st (t.cCc vkill) = erased (stored st (t.cCc vkill)) (-1) := by
  simp [keepLine, lineByte, h.lineFeed, h.eof, herase, isCc_self h.set]

theorem keepLine_werase (h : Control t (t.cCc vwerase))
    (herase : isCc t verase (t.cCc vwerase) = false)
    (hkill : isCc t vkill (t.cCc vwerase) = false) (st : List UInt8) :
    keepLine t st (t.cCc vwerase) = erased (stored st (t.cCc vwerase)) 1 := by
  simp [keepLine, lineByte, h.lineFeed, h.eof, herase, hkill, isCc_self h.set]

theorem tail_stored (st : List UInt8) (c : UInt8) :
    (stored st c).tail = if st.length < ptyIcanonSize - 1 then st else st.tail := by
  rw [stored]
  split
  · rfl
  · rfl

/-- What an editing character does to a line with a newest character: where
the line is full, the byte that is taken back is the last of the line. -/
theorem erased_cases (hu : Scalar u) (hfit : (bytesOf (u :: ls)).length ≤ ptyIcanonSize - 1)
    (c : UInt8) :
    (∃ st lead, (stored (bytesOf (u :: ls)) c).tail = st ∧ st ≠ [] ∧
        popChar st = (lead, bytesOf ls) ∧ isBlank lead = blank u ∧
        ¬ ((bytesOf (u :: ls)).length = ptyIcanonSize - 1 ∧ u < 0x80)) ∨
      (stored (bytesOf (u :: ls)) c).tail = bytesOf ls ∧
        (bytesOf (u :: ls)).length = ptyIcanonSize - 1 ∧ u < 0x80 := by
  rw [tail_stored]
  by_cases hroom : (bytesOf (u :: ls)).length < ptyIcanonSize - 1
  · obtain ⟨hne, lead, hblank, hpop⟩ := popChar_bytesOf hu ls
    rw [if_pos hroom]
    exact .inl ⟨_, lead, rfl, hne, hpop, hblank, fun h => by omega⟩
  rw [if_neg hroom]
  obtain ⟨lead, conts, heq, hlead, hconts, hblank, hsmall⟩ := utf8Encode_shape hu
  rcases eq_nil_or_concat conts with rfl | ⟨front, last, rfl⟩
  · refine .inr ⟨?_, by omega, hsmall.mp rfl⟩
    rw [bytesOf_cons, heq]
    rfl
  have hbig : ¬ u < 0x80 := fun h => by simpa using hsmall.mpr h
  have htail : (bytesOf (u :: ls)).tail = front.reverse ++ lead :: bytesOf ls := by
    rw [bytesOf_cons, heq]
    simp
  refine .inl ⟨_, lead, htail, by simp, ?_, hblank, fun h => hbig h.2⟩
  exact popChar_conts hlead _ _ fun c hc => hconts c (by simp [mem_reverse.mp hc])

theorem bytesOf_suffix {ls' : List Nat} (h : ls' <:+ ls) :
    (bytesOf ls').length ≤ (bytesOf ls).length := by
  obtain ⟨front, rfl⟩ := h
  rw [bytesOf, bytesOf, flatMap_append, length_append]
  omega

theorem bytesOf_ne_of_lt {ls' : List Nat} (h : (bytesOf ls').length < (bytesOf ls).length) :
    bytesOf ls' ≠ bytesOf ls := fun heq => by
  rw [heq] at h
  omega

theorem length_bytesOf_cons (hu : Scalar u) (ls : List Nat) :
    (bytesOf ls).length < (bytesOf (u :: ls)).length := by
  obtain ⟨lead, conts, heq, -⟩ := utf8Encode_shape hu
  rw [bytesOf_cons, heq, length_append, length_reverse, length_cons]
  omega

theorem exists_second (hu : Scalar u) (hsmall : u < 0x80)
    (hfull : (bytesOf (u :: ls)).length = ptyIcanonSize - 1) : ∃ v rest, ls = v :: rest := by
  cases ls with
  | cons v ls => simp
  | nil =>
    have hone : (bytesOf [u]).length = 1 := by
      obtain ⟨lead, conts, heq, -, -, -, hconts⟩ := utf8Encode_shape hu
      rw [bytesOf_cons, heq, hconts.mpr hsmall]
      rfl
    rw [hone] at hfull
    exact absurd hfull (by decide)

/-- The line of the terminal is the line that is meant, unless the key takes
too much away. -/
theorem foldl_keyBytes_iff {k : Key} (hls : ∀ u ∈ ls, Scalar u)
    (hfit : (bytesOf ls).length ≤ ptyIcanonSize - 1)
    (hnext : (bytesOf (editKey ls k)).length ≤ ptyIcanonSize - 1) (hk : Typeable t k) :
    (keyBytes t k).foldl (keepLine t) (bytesOf ls) = bytesOf (editKey ls k) ↔ ¬ Spoils ls k := by
  have hempty : ∀ c, (stored (bytesOf []) c).tail = [] := fun c => by
    rw [tail_stored]
    split
    · rfl
    · rfl
  cases k with
  | char u =>
    obtain ⟨hu, hplain⟩ := hk
    rw [editKey, bytesOf_cons, length_append, length_reverse] at hnext
    rw [keyBytes, foldl_keepLine_plain _ hplain _ hnext, editKey, bytesOf_cons]
    exact ⟨fun _ h => h, fun _ => rfl⟩
  | kill =>
    rw [keyBytes, foldl_cons, foldl_nil, keepLine_kill hk.1 hk.2, erased,
      eraseStack_kill _ _ _ le_rfl]
    exact ⟨fun _ h => h, fun _ => rfl⟩
  | erase =>
    rw [keyBytes, foldl_cons, foldl_nil, keepLine_erase hk, erased]
    cases ls with
    | nil =>
      refine ⟨fun _ h => ?_, fun _ => rfl⟩
      obtain ⟨-, u, rest, h, -⟩ := h
      cases h
    | cons u ls =>
      have hu := hls u mem_cons_self
      rcases erased_cases hu hfit (t.cCc verase) with
        ⟨st, lead, hst, hne, hpop, -, hnot⟩ | ⟨hst, hfull, hsmall⟩
      · obtain ⟨n, hn⟩ : ∃ n, st.length = n + 1 :=
          Nat.exists_eq_succ_of_ne_zero (by simpa using hne)
        rw [hst, hn, eraseStack_char hne hpop]
        refine ⟨fun _ h => ?_, fun _ => rfl⟩
        obtain ⟨hfull, u', rest, heq, hsmall⟩ := h
        obtain ⟨rfl, rfl⟩ := cons.inj heq
        omega
      · rw [hst]
        refine ⟨fun h => ?_, fun h => absurd ⟨hfull, u, ls, rfl, hsmall⟩ h⟩
        exfalso
        obtain ⟨v, ls, rfl⟩ := exists_second hu hsmall hfull
        have hv := hls v (by simp)
        obtain ⟨hne, lead, -, hpop⟩ := popChar_bytesOf hv ls
        obtain ⟨n, hn⟩ : ∃ n, (bytesOf (v :: ls)).length = n + 1 :=
          Nat.exists_eq_succ_of_ne_zero (by simpa using hne)
        rw [hn, eraseStack_char hne hpop] at h
        exact bytesOf_ne_of_lt (length_bytesOf_cons hv ls) h
  | werase =>
    rw [keyBytes, foldl_cons, foldl_nil, keepLine_werase hk.1 hk.2.1 hk.2.2, erased]
    cases ls with
    | nil =>
      refine ⟨fun _ h => ?_, fun _ => rfl⟩
      obtain ⟨-, u, v, rest, h, -⟩ := h
      cases h
    | cons u ls =>
      have hu := hls u mem_cons_self
      have hrest : ∀ v ∈ ls, Scalar v := fun v hv => hls v (.tail u hv)
      rcases erased_cases hu hfit (t.cCc vwerase) with
        ⟨st, lead, hst, hne, hpop, hblank, hnot⟩ | ⟨hst, hfull, hsmall⟩
      · rw [hst, eraseStack_eraseWord ls hrest hne hpop hblank le_rfl]
        refine ⟨fun _ h => ?_, fun _ => rfl⟩
        obtain ⟨hfull, u', v, rest, heq, hsmall, -⟩ := h
        obtain ⟨rfl, rfl⟩ := cons.inj heq
        omega
      rw [hst]
      obtain ⟨v, ls, rfl⟩ := exists_second hu hsmall hfull
      have hv := hls v (by simp)
      obtain ⟨hne, lead, hblank, hpop⟩ := popChar_bytesOf hv ls
      rw [eraseStack_eraseWord ls (fun w hw => hrest w (.tail v hw)) hne hpop
        hblank le_rfl, editKey]
      rcases hbu : blank u with _ | _
      · rcases hbv : blank v with _ | _
        · have hsame : eraseWord (u :: v :: ls) = eraseWord (v :: ls) := by
            simp [eraseWord, hbu, hbv]
          rw [hsame]
          refine ⟨fun _ h => ?_, fun _ => rfl⟩
          obtain ⟨-, u', v', rest, heq, -, -, hblankv⟩ := h
          obtain ⟨rfl, rfl, rfl⟩ := heq
          rw [hbv] at hblankv
          cases hblankv
        · -- The word is one character, and the next word is taken too.
          have hmeant : eraseWord (u :: v :: ls) = v :: ls := by
            simp [eraseWord, hbu, hbv]
          have htaken : eraseWord (v :: ls) = eraseWord ls := by
            simp [eraseWord, hbv]
          have hle : (bytesOf (eraseWord ls)).length ≤ (bytesOf ls).length :=
            bytesOf_suffix ((dropWhile_suffix _).trans (dropWhile_suffix _))
          have hlt := length_bytesOf_cons hv ls
          rw [hmeant, htaken]
          exact ⟨fun h => absurd h (bytesOf_ne_of_lt (by omega)),
            fun h => absurd ⟨hfull, u, v, ls, rfl, hsmall, hbu, hbv⟩ h⟩
      · have hsame : eraseWord (u :: v :: ls) = eraseWord (v :: ls) := by
          simp [eraseWord, hbu]
        rw [hsame]
        refine ⟨fun _ h => ?_, fun _ => rfl⟩
        obtain ⟨-, u', v', rest, heq, -, hblanku, -⟩ := h
        obtain ⟨rfl, -⟩ := heq
        rw [hbu] at hblanku
        cases hblanku

end Dancy.Pty
