import Mathlib.Data.List.Basic

/-!
# Ring buffers

An array of `N` cells with two positions: the elements lie from `start` up
to `stop`, around the end of the array. One cell is always left free, so
`start = stop` means empty. `contents` is the queue the positions stand for.
-/

namespace Dancy.Lib

universe u

structure Ring (α : Type u) where
  base : Nat → α
  (start stop : Nat)

namespace Ring

variable {α : Type u} {N k : Nat} {r r' : Ring α} {x : α}

/-- The position after `i`. -/
def next (N i : Nat) : Nat := (i + 1) % N

def count (N : Nat) (r : Ring α) : Nat := (r.stop + N - r.start) % N

def contents (N : Nat) (r : Ring α) : List α :=
  (List.range (r.count N)).map fun k => r.base ((r.start + k) % N)

def push (N : Nat) (r : Ring α) (x : α) : Ring α :=
  { r with base := Function.update r.base r.stop x, stop := next N r.stop }

/-- The oldest element goes; its cell is overwritten. -/
def pop (N : Nat) (r : Ring α) (x : α) : Ring α :=
  { r with base := Function.update r.base r.start x, start := next N r.start }

structure Wf (N : Nat) (r : Ring α) : Prop where
  start_lt : r.start < N
  stop_lt : r.stop < N

theorem next_lt (hN : 0 < N) (i : Nat) : next N i < N := Nat.mod_lt _ hN

theorem Wf.pos (h : Wf N r) : 0 < N := Nat.lt_of_le_of_lt (Nat.zero_le _) h.start_lt

theorem Wf.push (h : Wf N r) (x : α) : Wf N (r.push N x) := ⟨h.start_lt, next_lt h.pos _⟩

theorem Wf.pop (h : Wf N r) (x : α) : Wf N (r.pop N x) := ⟨next_lt h.pos _, h.stop_lt⟩

@[simp] theorem length_contents (N : Nat) (r : Ring α) : (r.contents N).length = r.count N := by
  simp [contents]

theorem count_eq (h : Wf N r) :
    r.count N = if r.start ≤ r.stop then r.stop - r.start else r.stop + N - r.start := by
  obtain ⟨h1, h2⟩ := h
  unfold count
  split
  · rw [show r.stop + N - r.start = r.stop - r.start + N by omega, Nat.add_mod_right]
    exact Nat.mod_eq_of_lt (by omega)
  · exact Nat.mod_eq_of_lt (by omega)

theorem next_eq {i : Nat} (h : i < N) : next N i = if i + 1 = N then 0 else i + 1 := by
  unfold next
  split
  · rename_i heq
    rw [heq, Nat.mod_self]
  · exact Nat.mod_eq_of_lt (by omega)

section

variable (h : Wf N r)
include h

theorem count_lt : r.count N < N := Nat.mod_lt _ h.pos

theorem count_eq_zero : r.count N = 0 ↔ r.start = r.stop := by
  obtain ⟨h1, h2⟩ := h
  rw [count_eq ⟨h1, h2⟩]
  split <;> omega

theorem full_iff : r.start = next N r.stop ↔ r.count N + 1 = N := by
  obtain ⟨h1, h2⟩ := h
  rw [count_eq ⟨h1, h2⟩, next_eq h2]
  split <;> split <;> omega

theorem count_push (hroom : r.start ≠ next N r.stop) (x : α) :
    (r.push N x).count N = r.count N + 1 := by
  obtain ⟨h1, h2⟩ := h
  rw [count_eq (Wf.push ⟨h1, h2⟩ x), count_eq ⟨h1, h2⟩]
  rw [next_eq h2] at hroom
  simp only [push, next_eq h2]
  split at hroom <;> split <;> split <;> split <;> omega

theorem count_pop (hne : r.start ≠ r.stop) (x : α) : r.count N = (r.pop N x).count N + 1 := by
  obtain ⟨h1, h2⟩ := h
  rw [count_eq (Wf.pop ⟨h1, h2⟩ x), count_eq ⟨h1, h2⟩]
  simp only [pop, next_eq h1]
  split <;> split <;> split <;> omega

end

theorem cell_ne {s i j : Nat} (hij : i < j) (hj : j < N) : (s + i) % N ≠ (s + j) % N := by
  intro heq
  have hzero := Nat.sub_mod_eq_zero_of_mod_eq heq.symm
  rw [Nat.add_sub_add_left, Nat.mod_eq_of_lt (by omega)] at hzero
  omega

theorem stop_eq (h : Wf N r) : r.stop = (r.start + r.count N) % N := by
  obtain ⟨h1, h2⟩ := h
  rw [count_eq ⟨h1, h2⟩]
  split
  · rw [show r.start + (r.stop - r.start) = r.stop by omega]
    exact (Nat.mod_eq_of_lt h2).symm
  · rw [show r.start + (r.stop + N - r.start) = r.stop + N by omega, Nat.add_mod_right]
    exact (Nat.mod_eq_of_lt h2).symm

theorem contents_push (h : Wf N r) (hroom : r.start ≠ next N r.stop) (x : α) :
    (r.push N x).contents N = r.contents N ++ [x] := by
  have hlt : r.count N + 1 < N := by
    have h1 := count_lt h
    have h2 := mt (full_iff h).mpr hroom
    omega
  have hold : ∀ k < r.count N, (r.push N x).base ((r.start + k) % N) =
      r.base ((r.start + k) % N) := by
    intro k hk
    refine Function.update_of_ne ?_ ..
    rw [stop_eq h]
    exact cell_ne hk (by omega)
  unfold contents
  rw [count_push h hroom, List.range_succ, List.map_append]
  congr 1
  · exact List.map_congr_left fun k hk => hold k (List.mem_range.mp hk)
  · show [(r.push N x).base ((r.start + r.count N) % N)] = [x]
    rw [← stop_eq h]
    exact congrArg (fun y => [y]) (Function.update_self ..)

theorem contents_pop (h : Wf N r) (hne : r.start ≠ r.stop) (x : α) :
    r.contents N = r.base r.start :: (r.pop N x).contents N := by
  have hcount := count_pop h hne x
  have hlt := count_lt h
  unfold contents
  rw [hcount, List.range_succ_eq_map, List.map_cons, List.map_map]
  congr 1
  · rw [Nat.add_zero, Nat.mod_eq_of_lt h.start_lt]
  refine List.map_congr_left fun k hk => ?_
  have hk := List.mem_range.mp hk
  have hcell : ((r.pop N x).start + k) % N = (r.start + (k + 1)) % N := by
    show ((r.start + 1) % N + k) % N = _
    simp [Nat.add_assoc, Nat.add_comm 1 k]
  show r.base ((r.start + (k + 1)) % N) = (r.pop N x).base (((r.pop N x).start + k) % N)
  rw [hcell]
  refine (Function.update_of_ne ?_ ..).symm
  have hfirst : (r.start + 0) % N ≠ (r.start + (k + 1)) % N := cell_ne (Nat.succ_pos k) (by omega)
  rw [Nat.add_zero, Nat.mod_eq_of_lt h.start_lt] at hfirst
  exact hfirst.symm

theorem contents_eq_nil (h : Wf N r) : r.contents N = [] ↔ r.start = r.stop := by
  simp [← count_eq_zero h, ← length_contents]

theorem contents_rollback {xs : List α} (hstart : r'.start = r.start)
    (hmore : r'.contents N = r.contents N ++ xs) :
    ({ r' with stop := r.stop } : Ring α).contents N = r.contents N := by
  have hlen : r.count N ≤ r'.count N := by
    rw [← length_contents, ← length_contents, hmore, List.length_append]
    omega
  have hcount : ({ r' with stop := r.stop } : Ring α).count N = r.count N := by
    simp only [count, hstart]
  have htake := congrArg (List.take (r.count N)) hmore
  rw [← length_contents, List.take_left, length_contents] at htake
  rw [← htake]
  unfold contents
  rw [hcount, ← List.map_take, List.take_range, Nat.min_eq_left hlen]

end Ring

end Dancy.Lib
