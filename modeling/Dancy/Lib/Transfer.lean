import Dancy.Lib.Bytes

/-!
# Transfers in units

A range of bytes goes between a memory and a device one unit after the other.
A unit that fails may leave anything on the part of the device that is still to
be written.
-/

namespace Dancy.Lib

namespace Bytes

variable {dst src mid : Bytes} {i j k n m : Nat}

theorem copy_copy : (dst.copy i src j n).copy (i + n) src (j + n) m = dst.copy i src j (n + m) := by
  funext k
  by_cases h : i + n ≤ k ∧ k < i + n + m
  · rw [copy_inside h.1 h.2, copy_inside (by omega) (by omega)]
    exact congrArg src (by omega)
  · by_cases h' : i ≤ k ∧ k < i + n
    · rw [copy_outside (by omega), copy_inside h'.1 h'.2, copy_inside h'.1 (by omega)]
    · rw [copy_outside (by omega), copy_outside (by omega), copy_outside (by omega)]

theorem copy_congr {src' : Bytes} {j' : Nat} (h : ∀ k, k < n → src (j + k) = src' (j' + k)) :
    dst.copy i src j n = dst.copy i src' j' n := by
  funext k
  by_cases hk : i ≤ k ∧ k < i + n
  · rw [copy_inside hk.1 hk.2, copy_inside hk.1 hk.2]
    exact h _ (by omega)
  · rw [copy_outside (by omega), copy_outside (by omega)]

end Bytes

/-- How a transfer of `requested` bytes between `address` of the memory and `offset` of
the device stands after `done` bytes. `quiet` says that no failed unit wrote anything. -/
structure Progress (write : Bool) (quiet : Prop) (offset address requested : Nat)
    (device memory : Bytes) (done : Nat) (device' memory' : Bytes) : Prop where
  le : done ≤ requested
  read : write = false → device' = device ∧ memory' = memory.copy address device offset done
  kept : write = true → memory' = memory
  written : write = true → ∀ k, k < done → device' (offset + k) = memory (address + k)
  outside : write = true → ∀ k, k < offset ∨ offset + requested ≤ k → device' k = device k
  exactly : quiet → write = true → device' = device.copy offset memory address done

namespace Progress

variable {write : Bool} {quiet : Prop} {offset address requested done n : Nat}
variable {device memory device' memory' device'' buffer : Bytes}

theorem start : Progress write quiet offset address requested device memory 0 device memory where
  le := Nat.zero_le _
  read _ := ⟨rfl, Bytes.copy_zero.symm⟩
  kept _ := rfl
  written _ k hk := absurd hk (Nat.not_lt_zero k)
  outside _ _ _ := rfl
  exactly _ _ := Bytes.copy_zero.symm

theorem readUnit (h : Progress false quiet offset address requested device memory done device' memory')
    (hn : done + n ≤ requested) (hb : ∀ k, k < n → buffer k = device' (offset + done + k)) :
    Progress false quiet offset address requested device memory (done + n) device'
      (memory'.copy (address + done) buffer 0 n) where
  le := hn
  read _ := by
    obtain ⟨hd, hm⟩ := h.read rfl
    refine ⟨hd, ?_⟩
    rw [hm, ← Bytes.copy_copy]
    refine Bytes.copy_congr fun k hk => ?_
    rw [zero_add, hb k hk, hd]
  kept hw := Bool.noConfusion hw
  written hw := Bool.noConfusion hw
  outside hw := Bool.noConfusion hw
  exactly _ hw := Bool.noConfusion hw

theorem writeUnit (h : Progress true quiet offset address requested device memory done device' memory')
    (hn : done + n ≤ requested) (hb : ∀ k, k < n → buffer k = memory' (address + done + k)) :
    Progress true quiet offset address requested device memory (done + n)
      (device'.copy (offset + done) buffer 0 n) memory' := by
  have hm := h.kept rfl
  subst hm
  refine ⟨hn, fun hw => Bool.noConfusion hw, fun _ => rfl, fun hw k hk => ?_, fun hw k hk => ?_,
    fun hq hw => ?_⟩
  · by_cases hd : k < done
    · rw [Bytes.copy_outside (by omega)]
      exact h.written hw k hd
    · rw [Bytes.copy_inside (by omega) (by omega), zero_add, hb _ (by omega)]
      exact congrArg memory' (by omega)
  · rw [Bytes.copy_outside (by omega)]
    exact h.outside hw k hk
  · rw [h.exactly hq hw, ← Bytes.copy_copy]
    exact Bytes.copy_congr fun k hk => by rw [zero_add, hb k hk]

theorem disturbed (h : Progress true quiet offset address requested device memory done device' memory')
    (ho : ∀ k, k < offset + done ∨ offset + requested ≤ k → device'' k = device' k)
    (hq : quiet → device'' = device') :
    Progress true quiet offset address requested device memory done device'' memory' where
  le := h.le
  read hw := Bool.noConfusion hw
  kept := h.kept
  written hw k hk := (ho _ (Or.inl (by omega))).trans (h.written hw k hk)
  outside hw k hk := (ho k (by omega)).trans (h.outside hw k hk)
  exactly q hw := (hq q).trans (h.exactly q hw)

end Progress

end Dancy.Lib
