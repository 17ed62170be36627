import Dancy.Shell.Vars
import Mathlib.Data.Nat.Find

/-!
# Temporary variables and their undoing

The array is described by the list of its entries in use (`Holds`). The
assignments of a command keep the entries of the variables that exist and
add one entry for each new name (`Pending`); undoing is then followed entry
by entry. It takes out one new entry correctly, and skips the next one.
-/

namespace Dancy.Shell

open List Option

/-! ## The array as a list -/

/-- The entries in use are those of `L`; the rest of the array is empty. -/
structure Holds (s : DshVars) (L : List DshVar) : Prop where
  room : L.length + 1 ≤ s.dshVarEnd
  entry : ∀ i v, L[i]? = some v → s.array i = v
  rest : ∀ i, L.length ≤ i → i < s.dshVarEnd → s.array i = .empty
  used : ∀ v ∈ L, v.data0 ≠ .null

@[simp] theorem DshVars.set_dshVarEnd (s : DshVars) (i : Nat) (v : DshVar) :
    (s.set i v).dshVarEnd = s.dshVarEnd := rfl

@[simp] theorem DshVars.set_array_self (s : DshVars) (i : Nat) (v : DshVar) :
    (s.set i v).array i = v := by
  simp [DshVars.set]

theorem DshVars.set_array_ne (s : DshVars) {i j : Nat} (v : DshVar)
    (h : j ≠ i) : (s.set i v).array j = s.array j := by
  simp [DshVars.set, h]

variable {s : DshVars} {L P R : List DshVar} {i n size : Nat} {v : DshVar}

theorem Holds.at_length (h : Holds s L) : s.array L.length = .empty :=
  h.rest _ le_rfl h.room

theorem Holds.null_at_length (h : Holds s L) :
    (s.array L.length).data0 = .null := by
  rw [h.at_length]
  rfl

theorem Holds.cons_entry (h : Holds s (P ++ v :: R)) :
    s.array P.length = v :=
  h.entry _ _ (by simp)

theorem Holds.cons_used (h : Holds s (P ++ v :: R)) : v.data0 ≠ .null :=
  h.used v (by simp)

theorem Holds.set (h : Holds s L) (hi : i < L.length)
    (hv : v.data0 ≠ .null) : Holds (s.set i v) (L.set i v) where
  room := by simpa using h.room
  entry j w hw := by
    by_cases hij : j = i
    · subst hij
      rw [getElem?_set_self hi] at hw
      simpa using hw
    · rw [s.set_array_ne v hij]
      rw [getElem?_set_ne (Ne.symm hij)] at hw
      exact h.entry j w hw
  rest j h1 h2 := by
    rw [length_set] at h1
    rw [s.set_array_ne v (by omega)]
    exact h.rest j h1 h2
  used w hw := by
    rcases mem_or_eq_of_mem_set hw with hw | rfl
    · exact h.used w hw
    · exact hv

theorem Holds.push (h : Holds s L) (hroom : L.length + 2 ≤ s.dshVarEnd)
    (hv : v.data0 ≠ .null) : Holds (s.set L.length v) (L ++ [v]) where
  room := by
    rwa [length_append, length_singleton]
  entry j w hw := by
    by_cases hj : j = L.length
    · subst hj
      simpa using hw
    rw [s.set_array_ne v hj]
    have hlt : j < L.length := by
      have := (List.getElem?_eq_some_iff.1 hw).1
      simp only [length_append, length_singleton] at this
      omega
    rw [getElem?_append_left hlt] at hw
    exact h.entry j w hw
  rest j h1 h2 := by
    simp only [length_append, length_singleton] at h1
    rw [s.set_array_ne v (by omega)]
    exact h.rest j (by omega) h2
  used w hw := by
    rcases mem_append.1 hw with hw | hw
    · exact h.used w hw
    · rwa [mem_singleton.1 hw]

variable {w : DshVar} {j : Nat} {name : CStr} {base : List (CStr × Nat)} {p : CStr × Nat}
  {l : List Assign} {a : Assign} {s' : DshVars}

theorem Holds.replace (h : Holds s (P ++ v :: R)) (hw : w.data0 ≠ .null) :
    Holds (s.set P.length w) (P ++ w :: R) := by
  have := h.set (i := P.length) (by simp) hw
  simpa using this

theorem entriesFrom_of_holds (h : Holds s (P ++ R))
    (hn : R.length + 1 ≤ n) : entriesFrom s.array n P.length = R := by
  induction R generalizing P n with
  | nil =>
    obtain ⟨n, rfl⟩ : ∃ m, n = m + 1 := ⟨n - 1, by omega⟩
    rw [append_nil] at h
    simp [entriesFrom, h.null_at_length]
  | cons v R ih =>
    obtain ⟨n, rfl⟩ : ∃ m, n = m + 1 := ⟨n - 1, by omega⟩
    have hrest := @ih (P ++ [v]) n (by simpa using h) (by simpa using hn)
    simp only [length_append, length_singleton] at hrest
    rw [entriesFrom, h.cons_entry, if_neg h.cons_used, hrest]

theorem Holds.store_eq (h : Holds s L) : s.store = L :=
  entriesFrom_of_holds (P := []) h h.room

theorem lt_length_entriesFrom {a : Nat → DshVar}
    (h : ∀ k, j ≤ k → k ≤ j + i → (a k).data0 ≠ .null) (hn : i < n) :
    i < (entriesFrom a n j).length := by
  induction i generalizing n j with
  | zero =>
    obtain ⟨n, rfl⟩ : ∃ m, n = m + 1 := ⟨n - 1, by omega⟩
    simp [entriesFrom, h j (by omega) (by omega)]
  | succ i ih =>
    obtain ⟨n, rfl⟩ : ∃ m, n = m + 1 := ⟨n - 1, by omega⟩
    have := ih (n := n) (j := j + 1) (fun k h1 h2 => h k (by omega) (by omega))
    rw [entriesFrom, if_neg (h j (by omega) (by omega)), length_cons]
    omega

/-! ## Finding a variable -/

/-- The name of the entry at `i` is `name`. -/
def VarAt (L : List DshVar) (name : CStr) (i : Nat) : Prop :=
  ∃ v, L[i]? = some v ∧ IsVar name v.data0.get

/-- The first entry of that name is at `i`. -/
def FirstVar (L : List DshVar) (name : CStr) (i : Nat) : Prop :=
  VarAt L name i ∧ ∀ j < i, ¬ VarAt L name j

theorem VarAt.lt (h : VarAt L name i) : i < L.length := by
  obtain ⟨v, hv, -⟩ := h
  exact (List.getElem?_eq_some_iff.1 hv).1

theorem isVar_unique {m n e : CStr} (hm : '=' ∉ m) (hn : '=' ∉ n)
    (h1 : IsVar m e) (h2 : IsVar n e) : m = n := by
  obtain ⟨t, rfl⟩ := h1
  obtain ⟨u, hu⟩ := h2
  have key : ∀ (m n t u : CStr), '=' ∉ m → '=' ∉ n → n ++ '=' :: u = m ++ '=' :: t → m = n := by
    intro m
    induction m with
    | nil =>
      intro n t u _ hn h
      cases n with
      | nil => rfl
      | cons c n =>
        simp only [cons_append, nil_append, cons.injEq] at h
        exact absurd (h.1 ▸ mem_cons_self) hn
    | cons c m ih =>
      intro n t u hm hn h
      cases n with
      | nil =>
        simp only [cons_append, nil_append, cons.injEq] at h
        exact absurd (h.1 ▸ mem_cons_self) hm
      | cons d n =>
        simp only [cons_append, cons.injEq] at h
        rw [h.1, ih n t u (fun x => hm (.tail _ x))
          (fun x => hn (.tail _ x)) h.2]
  exact key m n t u hm hn (by simpa using hu)

theorem isVar_self (name value : CStr) : IsVar name (name ++ '=' :: value) :=
  ⟨value, by simp⟩

theorem FirstVar.unique (h1 : FirstVar L name i) (h2 : FirstVar L name j) : i = j := by
  rcases Nat.lt_trichotomy i j with h | h | h
  · exact absurd h1.1 (h2.2 i h)
  · exact h
  · exact absurd h2.1 (h1.2 j h)

theorem VarAt.name_eq {m n : CStr} (hm : '=' ∉ m) (hn : '=' ∉ n)
    (h1 : VarAt L m i) (h2 : VarAt L n i) : m = n := by
  obtain ⟨v, hv, h1⟩ := h1
  obtain ⟨w, hw, h2⟩ := h2
  obtain rfl : v = w := some.inj (hv.symm.trans hw)
  exact isVar_unique hm hn h1 h2

theorem FirstVar.congr {L' : List DshVar} (h : ∀ j, VarAt L name j ↔ VarAt L' name j) :
    FirstVar L name i ↔ FirstVar L' name i := by
  simp only [FirstVar, h]

/-- What the search of `dsh_var_write` finds: the first entry of the name,
or the first free one. -/
theorem findVar_spec (h : Holds s L) (hf : findVar s name = some i) :
    FirstVar L name i ∨ (i = L.length ∧ L.length + 2 ≤ s.dshVarEnd ∧ ∀ j, ¬ VarAt L name j) := by
  have key : ∀ n P R, Holds s (P ++ R) → P.length + n = s.dshVarEnd - 1 →
      (∀ j < P.length, ¬ VarAt (P ++ R) name j) →
      findFrom s.array name n P.length = some i →
      FirstVar (P ++ R) name i ∨ (i = (P ++ R).length ∧
        (P ++ R).length + 2 ≤ s.dshVarEnd ∧ ∀ j, ¬ VarAt (P ++ R) name j) := by
    intro n
    induction n with
    | zero => intro P R _ _ _ hf; simp [findFrom] at hf
    | succ n ih =>
      intro P R h hn hP hf
      rw [findFrom] at hf
      cases R with
      | nil =>
        rw [append_nil] at h hP ⊢
        rw [if_pos (.inl h.null_at_length)] at hf
        obtain rfl := some.inj hf
        refine .inr ⟨rfl, by omega, fun j hj => hP j hj.lt hj⟩
      | cons v R =>
        have hat : VarAt (P ++ v :: R) name P.length ↔ IsVar name v.data0.get := by
          simp [VarAt]
        rw [h.cons_entry] at hf
        by_cases hv : IsVar name v.data0.get
        · rw [if_pos (.inr hv)] at hf
          obtain rfl := some.inj hf
          exact .inl ⟨hat.2 hv, hP⟩
        rw [if_neg (not_or.2 ⟨h.cons_used, hv⟩)] at hf
        have := ih (P ++ [v]) R (by simpa using h)
          (by simp; omega) ?_ (by simpa using hf)
        · simpa using this
        intro j hj hj'
        simp only [length_append] at hj
        simp only [append_assoc] at hj'
        rcases Nat.lt_succ_iff_lt_or_eq.1 hj with hj | rfl
        · exact hP j hj hj'
        · exact hv (hat.1 hj')
  exact key _ [] L h (by simp) (by simp) hf

theorem VarAt.append_left (h : i < P.length) :
    VarAt (P ++ R) name i ↔ VarAt P name i := by
  simp [VarAt, getElem?_append_left h]

/-! ## Between two commands -/

/-- An entry with no temporary value: its string and its flags. -/
def entryOf (p : CStr × Nat) : DshVar := ⟨.str p.1, .null, p.2⟩

/-- The array has the variables of `base` and no temporary ones. -/
structure Base (s : DshVars) (base : List (CStr × Nat)) : Prop where
  holds : Holds s (base.map entryOf)
  flags : ∀ p ∈ base, p.2 = 0 ∨ p.2 = 1

def Settled (s : DshVars) : Prop := ∃ base, Base s base

theorem settled_dshVarInit (environ : List CStr) :
    Settled (dshVarInit environ) := by
  refine ⟨environ.map fun e => (e, 1), ⟨?_, ?_, ?_, ?_⟩, ?_⟩
  · simp [dshVarInit]
  · intro i v hv
    simp only [List.map_map, getElem?_map, map_eq_some_iff] at hv
    obtain ⟨e, he, rfl⟩ := hv
    simp [dshVarInit, he, entryOf]
  · intro i hi _
    simp only [length_map] at hi
    simp [dshVarInit, getElem?_eq_none hi]
  · intro v hv
    simp only [List.mem_map] at hv
    obtain ⟨e, -, rfl⟩ := hv
    simp [entryOf]
  · intro p hp
    obtain ⟨e, -, rfl⟩ := mem_map.1 hp
    exact .inr rfl

theorem getElem?_base (h : base[i]? = some p) : (base.map entryOf)[i]? = some (entryOf p) := by
  simp [h]

theorem varAt_base :
    VarAt (base.map entryOf) name i ↔ ∃ p, base[i]? = some p ∧ IsVar name p.1 := by
  simp [VarAt, entryOf, Ptr.get]

theorem readFrom_base (h : Holds s (P ++ base.map entryOf)) (hn : base.length + 1 ≤ n) :
    readFrom s.array name n P.length = (base.find? fun p => IsVar name p.1).map
        fun p => p.1.drop (name.length + 1) := by
  induction base generalizing P n with
  | nil =>
    obtain ⟨n, rfl⟩ : ∃ m, n = m + 1 := ⟨n - 1, by omega⟩
    rw [map_nil, append_nil] at h
    simp [readFrom, h.null_at_length]
  | cons p base ih =>
    obtain ⟨n, rfl⟩ : ∃ m, n = m + 1 := ⟨n - 1, by omega⟩
    have hrest := @ih (P ++ [entryOf p]) n (by simpa using h) (by simpa using hn)
    simp only [length_append, length_singleton] at hrest
    rw [readFrom, h.cons_entry, if_neg h.cons_used, hrest, find?_cons]
    by_cases hp : IsVar name p.1
    all_goals simp [entryOf, DshVar.current, Ptr.get, hp]

section

variable (h : Base s base) (hname : '=' ∉ name)
include h hname

theorem dshVarRead_base :
    dshVarRead s name = (base.find? fun p => IsVar name p.1).map
      fun p => p.1.drop (name.length + 1) := by
  rw [dshVarRead, if_neg hname]
  have hroom := h.holds.room
  rw [length_map] at hroom
  exact readFrom_base (P := []) h.holds hroom

theorem dshVarRead_none : dshVarRead s name = none ↔ ∀ i, ¬ VarAt (base.map entryOf) name i := by
  rw [dshVarRead_base h hname]
  simp only [map_eq_none_iff, find?_eq_none, varAt_base, decide_eq_true_eq, not_exists, not_and]
  constructor
  · intro h i p hp
    exact h p (mem_of_getElem? hp)
  · intro h p hp
    obtain ⟨i, hi⟩ := getElem?_of_mem hp
    exact h i p hi

theorem dshVarRead_first (hf : FirstVar (base.map entryOf) name i) (hp : base[i]? = some p) :
    dshVarRead s name = some (p.1.drop (name.length + 1)) := by
  rw [dshVarRead_base h hname]
  have hv : IsVar name p.1 := by
    obtain ⟨q, hq, hv⟩ := varAt_base.1 hf.1
    rw [hp] at hq
    rwa [some.inj hq]
  have hlt := (List.getElem?_eq_some_iff.1 hp).1
  have hfind : base.find? (fun p => decide (IsVar name p.1)) = some p := by
    rw [find?_eq_some_iff_getElem]
    refine ⟨by simpa using hv, i, hlt, (List.getElem?_eq_some_iff.1 hp).2, ?_⟩
    intro j hj
    have hno := hf.2 j hj
    rw [varAt_base] at hno
    have hlt' : j < base.length := by omega
    have hj' : ¬ IsVar name base[j].1 := fun h => hno ⟨base[j], getElem?_eq_getElem hlt', h⟩
    simpa using hj'
  rw [hfind, map_some]

end

/-! ## Assigning -/

def lastValue (l : List Assign) (name : CStr) : CStr :=
  ((l.filter fun a => a.name = name).getLast?.map Assign.value).getD []

@[simp] theorem lastValue_append_self (l : List Assign) (a : Assign) :
    lastValue (l ++ [a]) a.name = a.value := by
  simp [lastValue]

theorem lastValue_append_ne (h : a.name ≠ name) :
    lastValue (l ++ [a]) name = lastValue l name := by
  simp [lastValue, h]

/-- The entry of a variable that exists, with or without a temporary value. -/
def Old (p : CStr × Nat) (v : DshVar) : Prop :=
  v = entryOf p ∨ ∃ x, v = ⟨.str p.1, .str x, p.2 + 4⟩

def New (v : DshVar) : Prop := ∃ x, v = ⟨.str x, .null, 4⟩

/-- What the assignments `l` make of the variables `base`. -/
structure Pending (base : List (CStr × Nat)) (l : List Assign)
    (L : List DshVar) : Prop where
  len : base.length ≤ L.length
  old : ∀ (i : Nat) p, base[i]? = some p → ∃ v, L[i]? = some v ∧ Old p v
  new : ∀ (i : Nat) v, base.length ≤ i → L[i]? = some v → New v
  written : ∀ a ∈ l, ∃ (i : Nat) (v : DshVar), FirstVar L a.name i ∧ L[i]? = some v ∧
    v.current = .str (a.name ++ '=' :: lastValue l a.name) ∧
    v.flags &&& 4 ≠ 0
  named : ∀ (i : Nat) v, L[i]? = some v → v.flags &&& 4 ≠ 0 → ∃ a ∈ l, FirstVar L a.name i
  valid : ∀ a ∈ l, '=' ∉ a.name

theorem Old.data0 (h : Old p v) : v.data0 = .str p.1 := by
  rcases h with rfl | ⟨x, rfl⟩ <;> rfl

theorem not_mem_of_validName (h : validName name = true) :
    '=' ∉ name := by
  intro hmem
  cases name with
  | nil => simp at hmem
  | cons c cs =>
    simp only [validName, Bool.and_eq_true, List.all_eq_true] at h
    rcases mem_cons.1 hmem with rfl | hmem
    · exact absurd h.1 (by decide)
    · exact absurd (h.2 _ hmem) (by decide)

theorem dshVarWrite_spec {mem : Bool} {value : CStr}
    (hw : dshVarWrite mem s name (some value) 4 = (s', some i)) :
    '=' ∉ name ∧ findVar s name = some i ∧
      s' = s.set i (writeData (s.array i) (name ++ '=' :: value) 4) := by
  unfold dshVarWrite at hw
  split at hw
  · cases hw
  next hvalid =>
  split at hw
  · cases hw
  split at hw
  · cases hw
  · next j hj =>
    obtain ⟨rfl, rfl⟩ := hw
    exact ⟨not_mem_of_validName (by simpa using hvalid), hj, rfl⟩

theorem Pending.nil (base : List (CStr × Nat))
    (hf : ∀ p ∈ base, p.2 = 0 ∨ p.2 = 1) :
    Pending base [] (base.map entryOf) where
  len := by simp
  old i p hp := ⟨entryOf p, getElem?_base hp, .inl rfl⟩
  new i v hi hv := by
    have := (List.getElem?_eq_some_iff.1 hv).1
    rw [length_map] at this
    omega
  written a ha := absurd ha not_mem_nil
  named i v hv h4 := by
    rw [getElem?_map, map_eq_some_iff] at hv
    obtain ⟨p, hp, rfl⟩ := hv
    rcases hf p (mem_of_getElem? hp) with h | h <;>
      simp [entryOf, h] at h4
  valid a ha := absurd ha not_mem_nil

theorem Pending.varAt_base_iff (h : Pending base l L) (hi : i < base.length) :
    VarAt (base.map entryOf) name i ↔ VarAt L name i := by
  have hp := getElem?_eq_getElem hi
  obtain ⟨v, hv, hold⟩ := h.old i _ hp
  rw [varAt_base]
  simp [VarAt, hp, hv, hold.data0, Ptr.get]

/-- Writing an entry that keeps the names of all entries keeps the places
of the names. -/
theorem varAt_set (hv : L[i]? = some v) (h : IsVar name w.data0.get ↔ IsVar name v.data0.get) :
    VarAt (L.set i w) name j ↔ VarAt L name j := by
  have hi := (List.getElem?_eq_some_iff.1 hv).1
  by_cases hj : j = i
  · subst hj
    simp [VarAt, hv, getElem?_set_self hi, h]
  · simp [VarAt, getElem?_set_ne (Ne.symm hj)]

theorem writeData_old {data : CStr} (hp : p.2 = 0 ∨ p.2 = 1) (h : Old p v) :
    writeData v data 4 = ⟨.str p.1, .str data, p.2 + 4⟩ := by
  rcases h with rfl | ⟨x, rfl⟩ <;> rcases hp with hp | hp <;>
    simp [writeData, entryOf, hp]

theorem writeData_new {data : CStr} (h : New v) :
    writeData v data 4 = ⟨.str data, .null, 4⟩ := by
  obtain ⟨x, rfl⟩ := h
  simp [writeData]

theorem writeData_empty (data : CStr) :
    writeData .empty data 4 = ⟨.str data, .null, 4⟩ := by
  rfl

/-- What an assignment makes of the entry at `i`: it is temporary and holds
the assigned string, and its name when it is one of the base. -/
structure Assigned (base : List (CStr × Nat)) (a : Assign) (i : Nat) (w : DshVar) : Prop where
  current : w.current = .str (a.name ++ '=' :: a.value)
  temporary : w.flags &&& 4 ≠ 0
  data0 : w.data0 ≠ .null
  old : ∀ p, base[i]? = some p → Old p w
  new : base.length ≤ i → New w

theorem Pending.rewritten (h : Pending base l L) (hbase : ∀ p ∈ base, p.2 = 0 ∨ p.2 = 1)
    (ha : '=' ∉ a.name) (hv : L[i]? = some v) (hvar : IsVar a.name v.data0.get)
    (hw : w = writeData v (a.name ++ '=' :: a.value) 4) :
    Assigned base a i w ∧ ∀ n, '=' ∉ n → (IsVar n w.data0.get ↔ IsVar n v.data0.get) := by
  by_cases hib : i < base.length
  · have hp := getElem?_eq_getElem hib
    obtain ⟨u, hu, hold⟩ := h.old i _ hp
    obtain rfl : v = u := some.inj (hv.symm.trans hu)
    have hpf := hbase _ (mem_of_getElem? hp)
    rw [writeData_old hpf hold] at hw
    subst hw
    refine ⟨⟨rfl, ?_, by simp, fun p hp' => ?_, by omega⟩, fun n _ => by rw [hold.data0]⟩
    · rcases hpf with hpf | hpf <;> simp [hpf]
    · obtain rfl := some.inj (hp.symm.trans hp')
      exact .inr ⟨_, rfl⟩
  · rw [writeData_new (h.new i v (by omega) hv)] at hw
    subst hw
    refine ⟨⟨rfl, by simp, by simp, fun p hp => ?_, fun _ => ⟨_, rfl⟩⟩, fun n hn => ⟨?_, ?_⟩⟩
    · exact absurd (List.getElem?_eq_some_iff.1 hp).1 hib
    · intro hx
      rwa [isVar_unique hn ha hx (isVar_self _ _)]
    · intro hx
      rw [isVar_unique hn ha hx hvar]
      exact isVar_self _ _

/-- The entry at `i` was written for the assignment `a`, and the others are
as before. -/
theorem Pending.append {L' : List DshVar} (h : Pending base l L) (ha : '=' ∉ a.name)
    (hw : Assigned base a i w) (hfirst : FirstVar L' a.name i) (hself : L'[i]? = some w)
    (hlen : L.length ≤ L'.length) (hsame : ∀ j, j ≠ i → L'[j]? = L[j]?)
    (hkeep : ∀ b ∈ l, ∀ j, FirstVar L b.name j → FirstVar L' b.name j) :
    Pending base (l ++ [a]) L' where
  len := le_trans h.len hlen
  old j p hp := by
    by_cases hj : j = i
    · subst hj
      exact ⟨w, hself, hw.old p hp⟩
    · rw [hsame j hj]
      exact h.old j p hp
  new j u hj hu := by
    by_cases hji : j = i
    · subst hji
      rw [hself] at hu
      rw [← some.inj hu]
      exact hw.new hj
    · rw [hsame j hji] at hu
      exact h.new j u hj hu
  written b hb := by
    by_cases hba : b.name = a.name
    · exact ⟨i, w, hba ▸ hfirst, hself, by simp [hba, hw.current], hw.temporary⟩
    obtain hb | rfl : b ∈ l ∨ b = a := by simpa using hb
    · obtain ⟨j, v, hf, hv, hc, h4⟩ := h.written b hb
      have hf' := hkeep b hb j hf
      have hji : j ≠ i := by
        rintro rfl
        exact hba (VarAt.name_eq (h.valid b hb) ha hf'.1 hfirst.1)
      refine ⟨j, v, hf', (hsame j hji).trans hv, ?_, h4⟩
      rw [hc, lastValue_append_ne (Ne.symm hba)]
    · exact absurd rfl hba
  named j v hv h4 := by
    by_cases hji : j = i
    · exact ⟨a, by simp, hji ▸ hfirst⟩
    · obtain ⟨b, hb, hf⟩ := h.named j v ((hsame j hji).symm.trans hv) h4
      exact ⟨b, by simp [hb], hkeep b hb j hf⟩
  valid b hb := by
    obtain hb | rfl : b ∈ l ∨ b = a := by simpa using hb
    · exact h.valid b hb
    · exact ha

theorem Pending.write (hs : Holds s L) (h : Pending base l L)
    (hbase : ∀ p ∈ base, p.2 = 0 ∨ p.2 = 1)
    (hw : dshVarWrite a.mem s a.name (some a.value) 4 = (s', some i)) :
    ∃ L', Holds s' L' ∧ Pending base (l ++ [a]) L' := by
  obtain ⟨hname, hfind, rfl⟩ := dshVarWrite_spec hw
  rcases findVar_spec hs hfind with hf | ⟨rfl, hroom, hno⟩
  · obtain ⟨v, hv, hvar⟩ := hf.1
    have hi := (List.getElem?_eq_some_iff.1 hv).1
    rw [hs.entry i v hv]
    generalize hwd : writeData v (a.name ++ '=' :: a.value) 4 = w
    obtain ⟨hassigned, hnames⟩ := h.rewritten hbase hname hv hvar hwd.symm
    have hplace : ∀ n, '=' ∉ n → ∀ j, FirstVar L n j ↔ FirstVar (L.set i w) n j := fun n hn j =>
      FirstVar.congr fun k => (varAt_set hv (hnames n hn)).symm
    exact ⟨L.set i w, hs.set hi hassigned.data0, h.append hname hassigned
      ((hplace _ hname i).1 hf) (getElem?_set_self hi) (by simp)
      (fun j hj => getElem?_set_ne (Ne.symm hj))
      fun b hb j => (hplace _ (h.valid b hb) j).1⟩
  · rw [hs.at_length, writeData_empty]
    generalize hwd : DshVar.mk (.str (a.name ++ '=' :: a.value)) .null 4 = w
    have hassigned : Assigned base a L.length w := by
      subst hwd
      refine ⟨rfl, by simp, by simp, fun p hp => ?_, fun _ => ⟨_, rfl⟩⟩
      have hlt := (List.getElem?_eq_some_iff.1 hp).1
      exact absurd h.len (by omega)
    have hself : (L ++ [w])[L.length]? = some w := by simp
    have hfirst : FirstVar (L ++ [w]) a.name L.length := by
      refine ⟨⟨w, hself, ?_⟩, fun j hj hvar => hno j ((VarAt.append_left hj).1 hvar)⟩
      rw [← hwd]
      exact isVar_self _ _
    refine ⟨L ++ [w], hs.push hroom hassigned.data0, h.append hname hassigned hfirst hself
      (by simp) (fun j hj => ?_) fun b hb j hj => ?_⟩
    · rcases lt_or_gt_of_ne hj with hlt | hgt
      · exact getElem?_append_left hlt
      · rw [getElem?_eq_none (by simp; omega), getElem?_eq_none (by omega)]
    · exact ⟨(VarAt.append_left hj.1.lt).2 hj.1, fun k hk hvar =>
        hj.2 k hk ((VarAt.append_left (lt_trans hk hj.1.lt)).1 hvar)⟩

theorem Pending.assignAll {l' : List Assign} (hbase : ∀ p ∈ base, p.2 = 0 ∨ p.2 = 1)
    (hs : Holds s L) (h : Pending base l L) (hall : assignAll s l' = some s') :
    ∃ L', Holds s' L' ∧ Pending base (l ++ l') L' := by
  induction l' generalizing s L l with
  | nil =>
    simp only [Shell.assignAll, some.injEq] at hall
    subst hall
    exact ⟨L, hs, by simpa using h⟩
  | cons a l' ih =>
    rw [Shell.assignAll] at hall
    split at hall
    · cases hall
    · next s1 i hw =>
      obtain ⟨L1, hs1, h1⟩ := h.write hs hbase hw
      obtain ⟨L', hs', h'⟩ := ih hs1 h1 hall
      exact ⟨L', hs', by simpa using h'⟩

variable {i n z : Nat}

/-- The entry after `dsh_environ`. -/
def marked (v : DshVar) : DshVar := (environEntry v).1

theorem marked_data0 (v : DshVar) : (marked v).data0 = v.data0 := by
  simp only [marked, environEntry]
  split
  · rfl
  · split <;> rfl

theorem environFrom_spec (h : Holds s (P ++ R)) (hn : R.length ≤ n) :
    Holds (environFrom s n P.length).1 (P ++ R.map marked) ∧
      (environFrom s n P.length).2 = R.filterMap fun v => (environEntry v).2 := by
  induction R generalizing s P n with
  | nil =>
    rw [append_nil] at h
    cases n with
    | zero => simpa [environFrom] using h
    | succ n => simpa [environFrom, h.null_at_length] using h
  | cons v R ih =>
    obtain ⟨n, rfl⟩ : ∃ m, n = m + 1 := ⟨n - 1, by simp at hn; omega⟩
    have hv := h.cons_used
    have hset : Holds (s.set P.length (marked v)) (P ++ marked v :: R) :=
      h.replace (by rwa [marked_data0])
    obtain ⟨hholds, hstrings⟩ := @ih (s.set P.length (marked v)) (P ++ [marked v]) n
      (by simpa using hset) (by simpa using hn)
    simp only [length_append, length_singleton, append_assoc] at hholds hstrings
    rw [environFrom, h.cons_entry, if_neg hv]
    refine ⟨hholds, ?_⟩
    rw [filterMap_cons]
    dsimp only
    rw [show (environEntry v).1 = marked v from rfl, hstrings]
    cases (environEntry v).2 <;> rfl

theorem dshEnviron_spec (h : Holds s L) : Holds (dshEnviron s).1 (L.map marked) ∧
    (dshEnviron s).2 = L.filterMap fun v => (environEntry v).2 := by
  have hroom := h.room
  exact environFrom_spec (P := []) h (by omega)

/-! ## One entry of the loop -/

/-- A new name that the environment was built with. -/
def Removed (v : DshVar) : Prop :=
  v.flags &&& 4 ≠ 0 ∧ v.flags &&& 8 ≠ 0 ∧ v.data1 = .null

def undone (v : DshVar) : DshVar :=
  if v.flags &&& 4 = 0 ∨ v.flags &&& 8 = 0 then
    if v.data1 = .null then { v with flags := clearTemporary v.flags }
    else ⟨v.data1, .null, clearTemporary v.flags⟩
  else ⟨v.data0, .null, clearTemporary v.flags⟩

theorem undone_data0 (h : v.data0 ≠ .null) : (undone v).data0 ≠ .null := by
  unfold undone
  split
  · split
    · exact h
    · assumption
  · exact h

theorem undoEntry_kept (h : ¬ Removed (s.array i)) :
    undoEntry s z i = (s.set i (undone (s.array i)), z) := by
  unfold undoEntry undone
  by_cases hf : (s.array i).flags &&& 4 = 0 ∨ (s.array i).flags &&& 8 = 0
  · by_cases hd : (s.array i).data1 = .null
    · simp only [if_pos hf, if_pos hd]
    · simp only [if_pos hf, if_neg hd]
  · have hd : (s.array i).data1 ≠ .null := fun hd =>
      h ⟨fun h4 => hf (.inl h4), fun h8 => hf (.inr h8), hd⟩
    simp only [if_neg hf, if_pos hd]

theorem undoEntry_removed (h : Removed (s.array i)) :
    undoEntry s z i = (let s' := s.set i ⟨.null, .null, clearTemporary (s.array i).flags⟩
       let z := z + sizeofVar * usedFrom s'.array s'.dshVarEnd (i + 1)
       ({ s' with array := moveDown s'.array i z }, z)) := by
  unfold undoEntry
  obtain ⟨h4, h8, hd⟩ := h
  simp only [if_neg (not_or.2 ⟨h4, h8⟩), hd, ne_eq, not_true_eq_false, if_false]

theorem undoEntry_frame {j : Nat} (h : j < i) :
    (undoEntry s z i).1.array j = s.array j := by
  by_cases hr : Removed (s.array i)
  · rw [undoEntry_removed hr]
    simp only [moveDown, if_pos h]
    exact s.set_array_ne _ (by omega)
  · rw [undoEntry_kept hr]
    exact s.set_array_ne _ (by omega)

theorem undoEntry_dshVarEnd :
    (undoEntry s z i).1.dshVarEnd = s.dshVarEnd := by
  by_cases hr : Removed (s.array i)
  · rw [undoEntry_removed hr]
    rfl
  · rw [undoEntry_kept hr]
    rfl

theorem undoFrom_frame {j : Nat} (h : j < i) :
    (undoFrom s z n i).array j = s.array j := by
  induction n generalizing s z i with
  | zero => rfl
  | succ n ih =>
    rw [undoFrom]
    split
    · rfl
    · exact (ih (by omega)).trans (undoEntry_frame h)

theorem undoFrom_dshVarEnd :
    (undoFrom s z n i).dshVarEnd = s.dshVarEnd := by
  induction n generalizing s z i with
  | zero => rfl
  | succ n ih =>
    rw [undoFrom]
    split
    · rfl
    · exact ih.trans undoEntry_dshVarEnd

/-- The loop over entries that are not removed, up to whatever follows. -/
theorem undoFrom_kept {T : List DshVar} (h : Holds s (P ++ (R ++ T)))
    (hR : ∀ v ∈ R, ¬ Removed v) (hn : R.length ≤ n) :
    ∃ s', Holds s' (P ++ (R.map undone ++ T)) ∧ s'.dshVarEnd = s.dshVarEnd ∧
      undoFrom s z n P.length = undoFrom s' z (n - R.length) (P.length + R.length) := by
  induction R generalizing s P n with
  | nil => exact ⟨s, h, rfl, rfl⟩
  | cons v R ih =>
    obtain ⟨n, rfl⟩ : ∃ m, n = m + 1 := ⟨n - 1, by simp at hn; omega⟩
    have hv := h.cons_used
    have hkept : undoEntry s z P.length = (s.set P.length (undone v), z) := by
      have := @undoEntry_kept s P.length z
        (by rw [h.cons_entry]; exact hR v (by simp))
      rwa [h.cons_entry] at this
    have hset := h.replace (undone_data0 hv)
    obtain ⟨s', h', hend, heq⟩ := @ih (s.set P.length (undone v))
      (P ++ [undone v]) n (by simpa using hset)
      (fun w hw => hR w (.tail _ hw)) (by simpa using hn)
    refine ⟨s', by simpa using h', hend, ?_⟩
    rw [undoFrom, h.cons_entry, if_neg hv, hkept]
    simp only [length_append, length_singleton] at heq
    rw [heq, length_cons, Nat.add_sub_add_right, Nat.add_assoc, Nat.add_comm 1]

theorem undoFrom_end (h : Holds s P) :
    undoFrom s z n P.length = s := by
  cases n with
  | zero => rfl
  | succ n => rw [undoFrom, if_pos h.null_at_length]

/-- The last entry in use is removed: the four bytes that are moved are
those of the null that ends the array. -/
theorem undoEntry_last {t : DshVar} (h : Holds s (P ++ [t]))
    (ht : Removed t) (hf : clearTemporary t.flags = 0) :
    Holds (undoEntry s 4 P.length).1 P := by
  have hat : s.array P.length = t := h.cons_entry
  have hnext : s.array (P.length + 1) = .empty := by
    have := h.at_length
    simpa using this
  rw [undoEntry_removed (by rwa [hat]), hat, hf]
  obtain ⟨s', hs'⟩ : ∃ s', s' = s.set P.length ⟨.null, .null, 0⟩ := ⟨_, rfl⟩
  have hnext' : s'.array (P.length + 1) = .empty := by
    rw [hs', s.set_array_ne _ (by omega), hnext]
  have hused : usedFrom s'.array s'.dshVarEnd (P.length + 1) = 0 := by
    cases s'.dshVarEnd with
    | zero => rfl
    | succ n => rw [usedFrom, hnext']; rfl
  have hself : s'.array P.length = .empty := by
    rw [hs']
    simp [DshVar.empty]
  -- nothing but the null at `P.length` is written, by itself
  have hmove : moveDown s'.array P.length 4 = s'.array := by
    funext j
    unfold moveDown
    split
    · rfl
    split
    · next h1 h2 => simp [sizeofVar] at h2; omega
    split
    · next h3 =>
      obtain rfl : j = P.length := by simpa [sizeofVar] using h3.1
      simp [hself, hnext', DshVar.empty, tear]
    · rfl
  rw [← hs']
  simp only [hused, Nat.mul_zero, hmove]
  refine ⟨?_, ?_, ?_, fun v hv => h.used v (by simp [hv])⟩
  · have := h.room
    rw [hs']
    simp only [length_append] at this
    exact Nat.le_of_succ_le this
  · intro j v hv
    have hj := (List.getElem?_eq_some_iff.1 hv).1
    rw [hs', s.set_array_ne _ (by omega)]
    exact h.entry j v (by rw [getElem?_append_left hj]; exact hv)
  · intro j h1 h2
    by_cases hj : j = P.length
    · rw [hj, hself]
    · rw [hs', s.set_array_ne _ hj]
      exact h.rest j (by simp; omega) (by rw [hs'] at h2; exact h2)

theorem undoEntry_next {t u : DshVar} (h : Holds s (P ++ t :: u :: R))
    (ht : Removed t) :
    (undoEntry s z P.length).1.array P.length = u := by
  have hat : s.array P.length = t := h.cons_entry
  have hnext : s.array (P.length + 1) = u := by
    have := @Holds.cons_entry s (P ++ [t]) R u (by simpa using h)
    simpa using this
  have hu : u.data0 ≠ .null := h.used u (by simp)
  rw [undoEntry_removed (by rwa [hat])]
  obtain ⟨s', hs'⟩ : ∃ s', s' = s.set P.length
    ⟨.null, .null, clearTemporary (s.array P.length).flags⟩ := ⟨_, rfl⟩
  have hnext' : s'.array (P.length + 1) = u := by
    rw [hs', s.set_array_ne _ (by omega), hnext]
  have hused : 1 ≤ usedFrom s'.array s'.dshVarEnd (P.length + 1) := by
    have hroom := h.room
    obtain ⟨m, hm⟩ : ∃ m, s'.dshVarEnd = m + 1 :=
      ⟨s.dshVarEnd - 1, by rw [hs', DshVars.set_dshVarEnd]; omega⟩
    rw [hm, usedFrom, hnext', if_neg hu]
    omega
  obtain ⟨k, hk⟩ : ∃ k, k = usedFrom s'.array s'.dshVarEnd (P.length + 1) := ⟨_, rfl⟩
  rw [← hk] at hused
  have hlt : P.length < P.length + (z + sizeofVar * k) / sizeofVar := by
    have : 1 ≤ (z + sizeofVar * k) / sizeofVar := by
      rw [Nat.add_mul_div_left _ _ (by decide)]
      exact Nat.le_trans hused (Nat.le_add_left _ _)
    omega
  rw [← hs']
  simp only [← hk, moveDown, if_neg (lt_irrefl _), if_pos hlt, hnext']

theorem dshVarUndo_kept (h : Holds s R) (hR : ∀ v ∈ R, ¬ Removed v) :
    Holds (dshVarUndo s) (R.map undone) := by
  have hroom := h.room
  obtain ⟨s', h', -, heq⟩ := undoFrom_kept (P := []) (T := [])
    (n := s.dshVarEnd - 1) (by simpa using h) hR (by omega)
  simp only [append_nil] at h'
  rw [dshVarUndo, show (0 : Nat) = ([] : List DshVar).length from rfl, heq]
  have := @undoFrom_end s' (R.map undone) (s.dshVarEnd - 1 - R.length) 4 h'
  simp only [length_map] at this
  simpa [this] using h'

theorem dshVarUndo_last {t : DshVar} (h : Holds s (R ++ [t]))
    (hR : ∀ v ∈ R, ¬ Removed v) (ht : Removed t)
    (hf : clearTemporary t.flags = 0) :
    Holds (dshVarUndo s) (R.map undone) := by
  have hroom := h.room
  simp only [length_append, length_singleton] at hroom
  obtain ⟨s', h', -, heq⟩ := undoFrom_kept (P := []) (z := 4)
    (n := s.dshVarEnd - 1) (by simpa using h) hR (by omega)
  obtain ⟨m, hm⟩ : ∃ m, s.dshVarEnd - 1 - R.length = m + 1 :=
    ⟨s.dshVarEnd - 2 - R.length, by omega⟩
  have hlast := undoEntry_last h' ht hf
  have hat : s'.array (R.map undone).length = t := h'.cons_entry
  have htnull : t.data0 ≠ .null := h'.cons_used
  rw [length_map] at hlast hat
  rw [dshVarUndo, show (0 : Nat) = ([] : List DshVar).length from rfl, heq, hm]
  simp only [length_nil, Nat.zero_add]
  rw [undoFrom, hat, if_neg htnull]
  -- the entry after the one removed is the end of the array
  cases m with
  | zero => exact hlast
  | succ m =>
    have hnull : ((undoEntry s' 4 R.length).1.array (R.length + 1)).data0 = .null := by
      have := hlast.rest (R.length + 1) (by simp)
        (by
          have hend : (undoEntry s' 4 R.length).1.dshVarEnd = s'.dshVarEnd := undoEntry_dshVarEnd
          have hroom' := h'.room
          simp only [length_append, length_map, length_singleton] at hroom'
          omega)
      rw [this]
      rfl
    rwa [undoFrom, if_pos hnull]

theorem length_lt_dshVarUndo {t u : DshVar} {T : List DshVar}
    (h : Holds s (R ++ t :: u :: T)) (hR : ∀ v ∈ R, ¬ Removed v)
    (ht : Removed t) : R.length < (dshVarUndo s).store.length := by
  have hroom := h.room
  simp only [length_append, length_cons] at hroom
  obtain ⟨s', h', hend, heq⟩ := undoFrom_kept (P := [])
    (z := 4) (n := s.dshVarEnd - 1) (by simpa using h) hR (by omega)
  obtain ⟨m, hm⟩ : ∃ m, s.dshVarEnd - 1 - R.length = m + 1 :=
    ⟨s.dshVarEnd - 2 - R.length, by omega⟩
  have hnext := undoEntry_next (z := 4) h' ht
  have hat : s'.array (R.map undone).length = t := h'.cons_entry
  have htnull : t.data0 ≠ .null := h'.cons_used
  have hunull : u.data0 ≠ .null := h'.used u (by simp)
  rw [length_map] at hnext hat
  obtain ⟨s'', hs''⟩ : ∃ s'', s'' = dshVarUndo s := ⟨_, rfl⟩
  have hrun : s'' = undoFrom (undoEntry s' 4 R.length).1
      (undoEntry s' 4 R.length).2 m (R.length + 1) := by
    rw [hs'', dshVarUndo, show (0 : Nat) = ([] : List DshVar).length from rfl, heq, hm]
    simp only [length_nil, Nat.zero_add]
    rw [undoFrom, hat, if_neg htnull]
  have hend'' : s''.dshVarEnd = s.dshVarEnd := by
    rw [hrun, undoFrom_dshVarEnd, undoEntry_dshVarEnd, hend]
  rw [← hs'', DshVars.store, hend'']
  apply lt_length_entriesFrom
  · intro k _ hk
    rw [hrun, undoFrom_frame (by omega)]
    rw [Nat.zero_add] at hk
    rcases Nat.lt_or_eq_of_le hk with hk | rfl
    · rw [undoEntry_frame hk]
      have hk' : k < (R.map undone ++ t :: u :: T).length := by
        simp only [length_append, length_map]
        omega
      rw [h'.entry k _ (getElem?_eq_getElem hk')]
      exact h'.used _ (getElem_mem hk')
    · rwa [hnext]
  · omega

/-! ## Entries of a command -/

theorem marked_old {p : CStr × Nat} (hp : p.2 = 0 ∨ p.2 = 1)
    (h : Old p v) : ¬ Removed (marked v) ∧ undone (marked v) = entryOf p := by
  rcases h with rfl | ⟨x, rfl⟩ <;> rcases hp with hp | hp <;>
    simp [marked, environEntry, Removed, undone, entryOf, clearTemporary, hp]

theorem marked_new (h : New v) :
    Removed (marked v) ∧ clearTemporary (marked v).flags = 0 := by
  obtain ⟨x, rfl⟩ := h
  simp [marked, environEntry, Removed, clearTemporary]

theorem old_not_removed {p : CStr × Nat} (hp : p.2 = 0 ∨ p.2 = 1)
    (h : Old p v) : ¬ Removed v := by
  rcases h with rfl | ⟨x, rfl⟩ <;> rcases hp with hp | hp <;>
    simp [Removed, entryOf, hp]

theorem new_not_removed (h : New v) : ¬ Removed v := by
  obtain ⟨x, rfl⟩ := h
  simp [Removed]

theorem undone_entryOf {p : CStr × Nat} (hp : p.2 = 0 ∨ p.2 = 1) :
    undone (entryOf p) = entryOf p := by
  rcases hp with hp | hp <;> simp [undone, entryOf, clearTemporary, hp]

theorem undone_pending {p : CStr × Nat} {x : CStr}
    (hp : p.2 = 0 ∨ p.2 = 1) :
    undone ⟨.str p.1, .str x, p.2 + 4⟩ = entryOf (x, p.2) := by
  rcases hp with hp | hp <;> simp [undone, entryOf, clearTemporary, hp]

theorem Pending.split (h : Pending base l L) :
    ∃ M N, L = M ++ N ∧ M.length = base.length ∧
      (∀ v ∈ M, ∃ p ∈ base, Old p v) ∧ (∀ v ∈ N, New v) := by
  refine ⟨L.take base.length, L.drop base.length, (take_append_drop _ _).symm, ?_, ?_, ?_⟩
  · rw [length_take, min_eq_left h.len]
  · intro v hv
    obtain ⟨i, hi⟩ := getElem?_of_mem hv
    rw [getElem?_take] at hi
    split at hi
    · next hlt =>
      have hp := getElem?_eq_getElem hlt
      obtain ⟨u, hu, hold⟩ := h.old i _ hp
      rw [hu] at hi
      rw [← some.inj hi]
      exact ⟨_, mem_of_getElem? hp, hold⟩
    · cases hi
  · intro v hv
    obtain ⟨i, hi⟩ := getElem?_of_mem hv
    rw [getElem?_drop] at hi
    exact h.new _ v (by omega) hi

theorem map_eq_base {f : DshVar → DshVar} (hlen : L.length = base.length) :
    L.map f = base.map entryOf ↔ ∀ (i : Nat) v p, L[i]? = some v →
      base[i]? = some p → f v = entryOf p := by
  constructor
  · intro h i v p hv hp
    have hi : (L.map f)[i]? = (base.map entryOf)[i]? := by rw [h]
    simpa [hv, hp] using hi
  intro h
  apply ext_getElem?
  intro i
  by_cases hi : i < base.length
  · have hv := getElem?_eq_getElem (hlen ▸ hi)
    have hp := getElem?_eq_getElem hi
    simp [hv, hp, h i _ _ hv hp]
  · rw [getElem?_eq_none (by simp; omega), getElem?_eq_none (by simp; omega)]

theorem Pending.marked_base (hp : ∀ p ∈ base, p.2 = 0 ∨ p.2 = 1)
    (h : Pending base l L) {M N : List DshVar} (hL : L = M ++ N)
    (hM : M.length = base.length) :
    (M.map marked).map undone = base.map entryOf := by
  rw [List.map_map, map_eq_base hM]
  intro i v p hv hbase
  obtain ⟨u, hu, hold⟩ := h.old i p hbase
  rw [hL, getElem?_append_left (List.getElem?_eq_some_iff.1 hv).1, hv] at hu
  rw [some.inj hu]
  exact (marked_old (hp p (mem_of_getElem? hbase)) hold).2

/-! ## When the store is restored -/

/-- The assignments that undoing takes back: for a program, at most one name
is new; otherwise, every name has the value that it gets. -/
def Restorable (s : DshVars) (l : List Assign) (program : Bool) : Prop :=
  if program then
    ∀ a ∈ l, ∀ b ∈ l, dshVarRead s a.name = none → dshVarRead s b.name = none → a.name = b.name
  else ∀ a ∈ l, dshVarRead s a.name = some (lastValue l a.name)

section

variable (h : Pending base l L) (hs : Base s base)
include h hs

theorem Pending.le_of_new {name : CStr} (hname : '=' ∉ name) (hf : FirstVar L name i)
    (hnew : dshVarRead s name = none) : base.length ≤ i := by
  by_contra hlt
  exact (dshVarRead_none hs hname).1 hnew i
    ((h.varAt_base_iff (by omega)).2 hf.1)

theorem Pending.new_of_le {name : CStr} (hname : '=' ∉ name) (hf : FirstVar L name i)
    (hi : base.length ≤ i) : dshVarRead s name = none := by
  rw [dshVarRead_none hs hname]
  intro j hj
  have hlt : j < base.length := by simpa using hj.lt
  exact hf.2 j (by omega) ((h.varAt_base_iff hlt).1 hj)

theorem Pending.restorable_program : Restorable s l true ↔ L.length ≤ base.length + 1 := by
  constructor
  · intro hr
    by_contra hlt
    have hat : ∀ k, base.length + k < L.length → ∃ a ∈ l,
        FirstVar L a.name (base.length + k) ∧ dshVarRead s a.name = none := by
      intro k hk
      have hv := getElem?_eq_getElem hk
      obtain ⟨x, hx⟩ := h.new _ _ (Nat.le_add_right _ _) hv
      obtain ⟨a, ha, hf⟩ := h.named _ _ hv (by simp [hx])
      exact ⟨a, ha, hf, h.new_of_le hs (h.valid a ha) hf
        (Nat.le_add_right _ _)⟩
    obtain ⟨a, ha, hfa, hna⟩ := hat 0 (by omega)
    obtain ⟨b, hb, hfb, hnb⟩ := hat 1 (by omega)
    have := hr a ha b hb hna hnb
    rw [this] at hfa
    have := hfa.unique hfb
    omega
  · intro hlen a ha b hb hna hnb
    have hat : ∀ c ∈ l, dshVarRead s c.name = none → VarAt L c.name base.length := by
      intro c hc hn
      obtain ⟨i, v, hf, hv, -⟩ := h.written c hc
      have h1 := h.le_of_new hs (h.valid c hc) hf hn
      have h2 := hf.1.lt
      obtain rfl : i = base.length := by omega
      exact hf.1
    exact (hat a ha hna).name_eq (h.valid a ha) (h.valid b hb) (hat b hb hnb)

theorem Pending.temporary {a : Assign} {p : CStr × Nat} (ha : a ∈ l) (hp : base[i]? = some p)
    (hf : FirstVar L a.name i) :
    L[i]? = some ⟨.str p.1, .str (a.name ++ '=' :: lastValue l a.name),
      p.2 + 4⟩ ∧ dshVarRead s a.name = some (p.1.drop (a.name.length + 1)) ∧
      IsVar a.name p.1 := by
  have hlt := (List.getElem?_eq_some_iff.1 hp).1
  obtain ⟨j, v, hfj, hv, hcur, h4⟩ := h.written a ha
  obtain rfl := hf.unique hfj
  obtain ⟨u, hu, hold⟩ := h.old i p hp
  obtain rfl : v = u := some.inj (hv.symm.trans hu)
  have hbase : FirstVar (base.map entryOf) a.name i :=
    ⟨(h.varAt_base_iff hlt).2 hf.1, fun k hk hvar =>
      hf.2 k hk ((h.varAt_base_iff (lt_trans hk hlt)).1 hvar)⟩
  refine ⟨?_, dshVarRead_first hs (h.valid a ha) hbase hp, ?_⟩
  · rcases hold with rfl | ⟨x, rfl⟩
    · rcases hs.flags p (mem_of_getElem? hp) with hf | hf <;>
        simp [entryOf, hf] at h4
    · simp only [DshVar.current, ne_eq, reduceCtorEq, not_false_eq_true, if_true] at hcur
      rw [hv, hcur]
  · obtain ⟨q, hq, hvar⟩ := varAt_base.1 hbase.1
    rw [hp] at hq
    rwa [some.inj hq]

end

theorem isVar_eq {name e value : CStr} (h : IsVar name e)
    (hv : e.drop (name.length + 1) = value) : e = name ++ '=' :: value := by
  obtain ⟨t, rfl⟩ := h
  rw [← hv]
  simp

theorem Pending.restorable_builtin (h : Pending base l L) (hs : Base s base) :
    Restorable s l false ↔ L.map undone = base.map entryOf := by
  constructor
  · intro hr
    have hlen : L.length = base.length := by
      by_contra hne
      have hlt : base.length < L.length := by
        have := h.len
        omega
      have hv := getElem?_eq_getElem hlt
      obtain ⟨x, hx⟩ := h.new _ _ le_rfl hv
      obtain ⟨a, ha, hf⟩ := h.named _ _ hv (by simp [hx])
      have := h.new_of_le hs (h.valid a ha) hf le_rfl
      rw [hr a ha] at this
      cases this
    rw [map_eq_base hlen]
    intro i v p hv hp
    obtain ⟨u, hu, hold⟩ := h.old i p hp
    obtain rfl : v = u := some.inj (hv.symm.trans hu)
    have hpf := hs.flags p (mem_of_getElem? hp)
    rcases hold with rfl | ⟨x, rfl⟩
    · exact undone_entryOf hpf
    obtain ⟨a, ha, hf⟩ := h.named i _ hv
      (by rcases hpf with hpf | hpf <;> simp [hpf])
    obtain ⟨hat, hread, hvar⟩ := h.temporary hs ha hp hf
    rw [hv] at hat
    have hx := congrArg DshVar.data1 (some.inj hat)
    rw [hr a ha] at hread
    have he := isVar_eq hvar (some.inj hread).symm
    simp only [Ptr.str.injEq] at hx
    rw [undone_pending hpf, hx, ← he]
  · intro heq a ha
    have hlen : L.length = base.length := by
      simpa using congrArg length heq
    obtain ⟨i, v, hf, hv, -⟩ := h.written a ha
    have hlt : i < base.length := hlen ▸ hf.1.lt
    have hp := getElem?_eq_getElem hlt
    obtain ⟨hat, hread, hvar⟩ := h.temporary hs ha hp hf
    have := (map_eq_base hlen).1 heq i _ _ hat hp
    rw [undone_pending (hs.flags _ (mem_of_getElem? hp))] at this
    have he := congrArg DshVar.data0 this
    simp only [entryOf, Ptr.str.injEq] at he
    rw [hread, ← he]
    simp

section

variable (hp : ∀ p ∈ base, p.2 = 0 ∨ p.2 = 1)
include hp

theorem marked_kept {M : List DshVar} (hM : ∀ v ∈ M, ∃ p ∈ base, Old p v) :
    ∀ v ∈ M.map marked, ¬ Removed v := by
  intro w hw
  obtain ⟨v, hv, rfl⟩ := mem_map.1 hw
  obtain ⟨p, hpb, hold⟩ := hM v hv
  exact (marked_old (hp p hpb) hold).1

variable (h : Pending base l L)
include h

theorem not_removed_of_pending : ∀ v ∈ L, ¬ Removed v := by
  obtain ⟨M, N, rfl, -, hM, hN⟩ := h.split
  intro v hv
  rcases mem_append.1 hv with hv | hv
  · obtain ⟨p, hpb, hold⟩ := hM v hv
    exact old_not_removed (hp p hpb) hold
  · exact new_not_removed (hN v hv)

theorem Pending.undo_program (hs : Holds s L) (hlen : L.length ≤ base.length + 1) :
    Base (dshVarUndo (dshEnviron s).1) base := by
  have henv := (dshEnviron_spec hs).1
  obtain ⟨M, N, hL, hlenM, hM, hN⟩ := h.split
  have hkept := marked_kept hp hM
  refine ⟨?_, hp⟩
  rw [← h.marked_base hp hL hlenM]
  cases N with
  | nil =>
    rw [hL, append_nil] at henv
    exact dshVarUndo_kept henv hkept
  | cons t N =>
    obtain rfl : N = [] := by
      rw [hL] at hlen
      simp only [length_append, length_cons] at hlen
      exact length_eq_zero_iff.1 (by omega)
    obtain ⟨hr, hf⟩ := marked_new (hN t (by simp))
    rw [hL, map_append, map_singleton] at henv
    exact dshVarUndo_last henv hkept hr hf

theorem Pending.undo_program_longer (hs : Holds s L) (hlen : base.length + 2 ≤ L.length) :
    base.length < (dshVarUndo (dshEnviron s).1).store.length := by
  have henv := (dshEnviron_spec hs).1
  obtain ⟨M, N, hL, hlenM, hM, hN⟩ := h.split
  have hkept := marked_kept hp hM
  have hlenL := congrArg length hL
  rw [length_append] at hlenL
  match N, hN, hL, hlenL with
  | [], _, _, hlenL => simp only [length_nil] at hlenL; omega
  | [t], _, _, hlenL => simp only [length_singleton] at hlenL; omega
  | t :: u :: N, hN, hL, _ =>
    rw [hL, map_append, map_cons, map_cons] at henv
    have := length_lt_dshVarUndo henv hkept (marked_new (hN t (by simp))).1
    rwa [length_map, hlenM] at this

end

theorem Base.same_answers {t : DshVars} (hs : Base s base) (ht : Base t base) :
    (∀ name, dshVarRead t name = dshVarRead s name) ∧ (dshEnviron t).2 = (dshEnviron s).2 := by
  constructor
  · intro name
    by_cases hname : '=' ∈ name
    · simp [dshVarRead, hname]
    · rw [dshVarRead_base hs hname, dshVarRead_base ht hname]
  · rw [(dshEnviron_spec hs.holds).2, (dshEnviron_spec ht.holds).2]

/-- The variables and the array after a command whose assignments were
accepted. -/
theorem undo_restores_iff {s s' : DshVars} {l : List Assign}
    (hs : Settled s) (hl : assignAll s l = some s') (program : Bool) :
    ((dshVarUndo (runCommand s' program)).store = s.store ↔ Restorable s l program) ∧
    (Restorable s l program → (∀ name, dshVarRead (dshVarUndo (runCommand s' program)) name =
        dshVarRead s name) ∧
      (dshEnviron (dshVarUndo (runCommand s' program))).2 = (dshEnviron s).2) := by
  obtain ⟨base, hb⟩ := hs
  obtain ⟨L, hL, hpend⟩ := Pending.assignAll hb.flags hb.holds (Pending.nil base hb.flags) hl
  rw [nil_append] at hpend
  have hstore := hb.holds.store_eq
  cases program with
  | true =>
    have hbase : Restorable s l true → Base (dshVarUndo (runCommand s' true)) base := fun hr =>
      hpend.undo_program hb.flags hL ((hpend.restorable_program hb).1 hr)
    refine ⟨⟨?_, ?_⟩, fun hr => hb.same_answers (hbase hr)⟩
    · intro heq
      rw [hpend.restorable_program hb]
      by_contra hlong
      have := hpend.undo_program_longer hb.flags hL (by omega)
      rw [show (dshEnviron s').1 = runCommand s' true from rfl, heq, hstore, length_map] at this
      omega
    · intro hr
      rw [(hbase hr).holds.store_eq, hstore]
  | false =>
    have hundo : Holds (dshVarUndo (runCommand s' false)) (L.map undone) :=
      dshVarUndo_kept hL (not_removed_of_pending hb.flags hpend)
    have hiff := hpend.restorable_builtin hb
    refine ⟨?_, fun hr => hb.same_answers ⟨?_, hb.flags⟩⟩
    · rw [hundo.store_eq, hstore, hiff]
    · rw [← hiff.1 hr]
      exact hundo

/-- `A=1 B=2 program` in a shell with no variables leaves `B`. -/
def twoNew : List Assign := [⟨['A'], ['1'], true⟩, ⟨['B'], ['2'], true⟩]

theorem twoNew_accepted :
    ∃ s', assignAll (dshVarInit []) twoNew = some s' :=
  isSome_iff_exists.1 (by decide)

theorem undo_keeps_second : ¬ ∀ (s s' : DshVars) (l : List Assign),
    Settled s → assignAll s l = some s' → (dshVarUndo (runCommand s' true)).store = s.store := by
  intro h
  obtain ⟨s', hs'⟩ := twoNew_accepted
  have h2 := h _ _ _ (settled_dshVarInit []) hs'
  have hrun : (assignAll (dshVarInit []) twoNew).map
      (fun s' => (dshVarUndo (runCommand s' true)).store) =
      some [⟨.str ['B', '=', '2'], .null, 12⟩] := by decide
  rw [hs', map_some, h2] at hrun
  exact absurd hrun (by decide)

theorem undo_restores_one_new :
    ∃ s', assignAll (dshVarInit [['A', '=', '0']])
        [⟨['A'], ['1'], true⟩, ⟨['B'], ['2'], true⟩] = some s' ∧
      (dshVarUndo (runCommand s' true)).store = (dshVarInit [['A', '=', '0']]).store := by
  obtain ⟨s', hs'⟩ : ∃ s', assignAll (dshVarInit [['A', '=', '0']])
      [⟨['A'], ['1'], true⟩, ⟨['B'], ['2'], true⟩] = some s' :=
    isSome_iff_exists.1 (by decide)
  refine ⟨s', hs', ((undo_restores_iff (settled_dshVarInit _) hs' true).1).2 ?_⟩
  rw [Restorable, if_pos rfl]
  decide

end Dancy.Shell
