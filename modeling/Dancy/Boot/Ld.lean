import Dancy.Lib.Run

/-!
# Boot linking

`ld_link` resolves the external symbols of an object by the table of
global symbols and adds the symbols that the object defines. A name of the
string table goes through `sname[32]` when it is looked up and through
`name[36]` when it is recorded.
-/

namespace Dancy.Boot.Ld

open Dancy.Lib List Option

/-- A symbol record; a name of up to eight bytes is in the record itself. -/
structure Symbol where
  name : List UInt8
  inline : Bool
  (value sectionNumber storageClass : Nat)
  fits : inline = true → name.length ≤ 8

/-- `struct global_symbol`, with the whole name of the symbol it was made for. -/
structure Global where
  value : Nat
  (name whole : List UInt8)

structure Reloc where
  (address symbol type : Nat)

/-- An object by its four section sizes, three lists of relocations and symbols. -/
structure Object where
  size : Nat → Nat
  relocs : Nat → List Reloc
  symbols : List Symbol

/-- What `ld_link` reads of a name into `sname`. -/
def Symbol.sname (s : Symbol) : List UInt8 := s.name.take (if s.inline then 8 else 32 - 1)

/-- What it reads into `sym.name`. -/
def Symbol.recorded (s : Symbol) : List UInt8 := s.name.take (if s.inline then 8 else 36 - 1)

def ldFind (table : List Global) (name : List UInt8) : Option Global :=
  table.find? fun g => g.name = name

/-- `ld_add` with room for so many symbols. -/
def ldAdd (room : Nat) (table : List Global) (g : Global) : Option (List Global) :=
  if table.length ≥ room then none else some (table ++ [g])

def pageUp (size : Nat) : Nat := (size + 0x0FFF) / 0x1000 * 0x1000

/-- Where section `n` begins in the image. -/
def Object.sectionAt (o : Object) (image : Nat) : Nat → Nat
  | 0 => image
  | n + 1 => o.sectionAt image n + pageUp (o.size n)

def Object.based (o : Object) (image : Nat) (s : Symbol) : Nat :=
  if 1 ≤ s.sectionNumber ∧ s.sectionNumber ≤ 4 then
    (s.value + o.sectionAt image (s.sectionNumber - 1)) % 2 ^ 32
  else s.value

/-- The value that a symbol record has when all externals are resolved. -/
def resolve (o : Object) (image : Nat) (table : List Global) (s : Symbol) : Option Nat :=
  if s.sectionNumber = 0 then (ldFind table s.sname).map fun g => g.value % 2 ^ 32
  else some (o.based image s)

def resolveAll (o : Object) (image : Nat) (table : List Global) : List Symbol → Option (List Nat)
  | [] => some []
  | s :: rest => (resolve o image table s).bind fun value =>
      (resolveAll o image table rest).map fun values => value :: values

/-- The loop that adds the new symbols, and whether it came to its end. -/
def addSymbols (room : Nat) : List (Symbol × Nat) → List Global → Bool × List Global
  | [], table => (true, table)
  | (s, value) :: rest, table =>
      if value = 0 then (false, table)
      else if s.sectionNumber ≠ 0 ∧ s.storageClass = 2 then
        match ldAdd room table ⟨value, s.recorded, s.name⟩ with
        | none => (false, table)
        | some table' => addSymbols room rest table'
      else addSymbols room rest table

section
variable {Memory : Type} (coffRelocate : Memory → Nat → Reloc → Nat → Memory)

/-- The relocations of `.text`, `.rdata` and `.data`. -/
def relocate (o : Object) (image : Nat) (values : List Nat) (m : Memory) : Memory :=
  [0, 1, 2].foldl (fun m n => (o.relocs n).foldl (fun m r =>
    coffRelocate m (o.sectionAt image n) r (values.getD r.symbol 0)) m) m

/-- A successful `ld_link`: the table before and after it, the values of the
symbol records, and the image as it was copied and as it is. -/
structure Link (Memory : Type) where
  object : Object
  image : Nat
  (before after : List Global)
  values : List Nat
  (copied linked : Memory)

structure LdState (Memory : Type) where
  room : Nat
  table : List Global := []
  links : List (Link Memory) := []

inductive LdCall (Memory : Type)
  | add (g : Global)
  | link (o : Object) (image : Nat) (copied : Memory)

/-- `ld_add` and `ld_link`; an image at 0 is one that could not be allocated. -/
def LdState.exec (s : LdState Memory) : LdCall Memory → LdState Memory
  | .add g => { s with table := (ldAdd s.room s.table g).getD s.table }
  | .link o image copied =>
      if pageUp (o.size 0) + pageUp (o.size 1) + pageUp (o.size 2) + pageUp (o.size 3) = 0 ∨
          image = 0 then s
      else match resolveAll o image s.table o.symbols with
        | none => s
        | some values =>
            let (ok, table) := addSymbols s.room (o.symbols.zip values) s.table
            { s with
              table
              links := if ok then s.links ++ [⟨o, image, s.table, table, values, copied,
                relocate coffRelocate o image values copied⟩] else s.links }

/-! ## Linking by whole names -/

/-- The symbols that an object adds, under their whole names. -/
def Object.defined (o : Object) (image : Nat) : List Global :=
  (o.symbols.filter fun s => s.sectionNumber ≠ 0 ∧ s.storageClass = 2).map fun s =>
    ⟨o.based image s, s.name, s.name⟩

structure Link.Right (l : Link Memory) : Prop where
  resolved : ∀ (i : Nat) (s : Symbol), l.object.symbols[i]? = some s → s.sectionNumber = 0 →
    ∃ g : Global, l.before.find? (fun g => g.whole = s.name) = some g ∧
      l.values[i]? = some (g.value % 2 ^ 32)
  values : ∀ (i : Nat) (s : Symbol), l.object.symbols[i]? = some s → s.sectionNumber ≠ 0 →
    l.values[i]? = some (l.object.based l.image s)
  added : l.after = l.before ++ l.object.defined l.image
  relocated : l.linked = relocate coffRelocate l.object l.image l.values l.copied

/-- The table names its symbols in full, and every link so far is right. -/
structure LdState.Right (s : LdState Memory) : Prop where
  whole : ∀ g ∈ s.table, g.whole = g.name
  links : ∀ l ∈ s.links, l.Right coffRelocate

/-- The names fit: 31 bytes where a symbol is external, 35 where it is defined. -/
def LdCall.Fits : LdCall Memory → Prop
  | .add g => g.whole = g.name
  | .link o _ _ => ∀ s ∈ o.symbols, (s.sectionNumber = 0 → s.name.length ≤ 31) ∧
      (s.sectionNumber ≠ 0 → s.storageClass = 2 → s.name.length ≤ 35)

end

theorem take_inline {s : Symbol} {n : Nat} (h : s.name.length ≤ n) :
    s.name.take (if s.inline then 8 else n) = s.name := by
  refine take_of_length_le ?_
  split
  · rename_i hinline
    exact s.fits hinline
  · exact h

theorem ldFind_whole {table : List Global} (h : ∀ g ∈ table, g.whole = g.name) (name : List UInt8) :
    ldFind table name = table.find? fun g => g.whole = name := by
  induction table with
  | nil => rfl
  | cons g table ih =>
    rw [forall_mem_cons] at h
    rw [ldFind, find?_cons, find?_cons, h.1, ← ldFind, ih h.2]

theorem addSymbols_spec {room : Nat} {o : Object} {image : Nat} {l : List (Symbol × Nat)} :
    ∀ {table : List Global}, (∀ p ∈ l, p.1.sectionNumber ≠ 0 → p.1.storageClass = 2 →
      p.2 = o.based image p.1 ∧ p.1.name.length ≤ 35) →
    ((∀ g ∈ table, g.whole = g.name) → ∀ g ∈ (addSymbols room l table).2, g.whole = g.name) ∧
    ((addSymbols room l table).1 = true → (addSymbols room l table).2 = table ++
      ((l.map Prod.fst).filter fun s => s.sectionNumber ≠ 0 ∧ s.storageClass = 2).map fun s =>
        ⟨o.based image s, s.name, s.name⟩) := by
  induction l with
  | nil => exact fun _ => ⟨id, fun _ => (append_nil _).symm⟩
  | cons p l ih =>
    intro table hl
    obtain ⟨s, value⟩ := p
    rw [forall_mem_cons] at hl
    rw [addSymbols]
    split
    · simp
    split
    · rename_i hdef
      obtain ⟨hvalue, hlen⟩ := hl.1 hdef.1 hdef.2
      have hname : s.recorded = s.name := take_inline hlen
      simp only [ldAdd]
      split
      · exact ⟨id, nofun⟩
      rename_i table' hadd
      split at hadd
      · cases hadd
      cases hadd
      obtain ⟨hwhole, hafter⟩ := @ih (table ++ [⟨value, s.recorded, s.name⟩]) hl.2
      refine ⟨fun h => hwhole fun g hg => ?_, fun hok => ?_⟩
      · rcases mem_append.mp hg with hg | hg
        · exact h g hg
        · rw [mem_singleton.mp hg]
          exact hname.symm
      · have hvalue : value = o.based image s := hvalue
        rw [hafter hok, hname, hvalue]
        simp [hdef]
    · rename_i hdef
      refine (ih hl.2).imp_right fun h hok => ?_
      rw [h hok]
      simp [hdef]

theorem resolveAll_spec {o : Object} {image : Nat} {table : List Global} {l : List Symbol} :
    ∀ {values : List Nat}, resolveAll o image table l = some values →
    l.length = values.length ∧ ∀ (i : Nat) (s : Symbol), l[i]? = some s → values[i]? = resolve o image table s := by
  induction l with
  | nil =>
    intro values h
    cases h
    simp
  | cons s l ih =>
    intro values h
    obtain ⟨value, hvalue, h⟩ := bind_eq_some_iff.mp h
    obtain ⟨rest, hrest, rfl⟩ := map_eq_some_iff.mp h
    obtain ⟨hlen, hih⟩ := ih hrest
    refine ⟨congrArg (· + 1) hlen, fun i t ht => ?_⟩
    cases i with
    | zero =>
      cases ht
      exact hvalue.symm
    | succ i => exact hih i t ht

variable {Memory : Type} {coffRelocate : Memory → Nat → Reloc → Nat → Memory}

theorem LdState.Right.exec {s : LdState Memory} (h : s.Right coffRelocate)
    {c : LdCall Memory} (hfits : c.Fits) :
    (s.exec coffRelocate c).Right coffRelocate := by
  cases c with
  | add g =>
    refine ⟨fun g' hg' => ?_, h.links⟩
    simp only [LdState.exec, ldAdd] at hg'
    split at hg'
    · exact h.whole g' hg'
    · rcases mem_append.mp hg' with hg' | hg'
      · exact h.whole g' hg'
      · exact mem_singleton.mp hg' ▸ hfits
  | link o image copied =>
    unfold LdState.exec
    dsimp only
    split
    · exact h
    cases hvalues : resolveAll o image s.table o.symbols with
    | none => exact h
    | some values =>
      obtain ⟨hlen, hget⟩ := resolveAll_spec hvalues
      have hzip : ∀ p ∈ o.symbols.zip values, p.1.sectionNumber ≠ 0 → p.1.storageClass = 2 →
          p.2 = o.based image p.1 ∧ p.1.name.length ≤ 35 := by
        intro p hp hsection hclass
        obtain ⟨i, hi⟩ := mem_iff_getElem?.mp hp
        obtain ⟨hs, hv⟩ := getElem?_zip_eq_some.mp hi
        have hvalue := hget i p.1 hs
        rw [hv, resolve, if_neg hsection] at hvalue
        exact ⟨some.inj hvalue, (hfits p.1 (mem_of_getElem? hs)).2 hsection hclass⟩
      obtain ⟨hwhole, hafter⟩ := @addSymbols_spec s.room o image _ s.table hzip
      refine ⟨hwhole h.whole, fun l hl => ?_⟩
      dsimp only at hl
      split at hl
      · rename_i hok
        rcases mem_append.mp hl with hl | hl
        · exact h.links l hl
        rw [mem_singleton.mp hl]
        refine ⟨fun i t ht hsection => ?_, fun i t ht hsection => ?_, ?_, rfl⟩
        · have hlen31 := (hfits t (mem_of_getElem? ht)).1 hsection
          have hi : i < values.length := hlen ▸ (List.getElem?_eq_some_iff.mp ht).1
          have hvalue := hget i t ht
          rw [resolve, if_pos hsection, Symbol.sname, take_inline hlen31,
            ldFind_whole h.whole] at hvalue
          cases hfind : s.table.find? fun g => g.whole = t.name with
          | none =>
            rw [hfind, getElem?_eq_getElem hi] at hvalue
            cases hvalue
          | some g => exact ⟨g, rfl, by rw [hvalue, hfind, map_some]⟩
        · rw [hget i t ht, resolve, if_neg hsection]
        · rw [hafter hok, map_fst_zip (le_of_eq hlen)]
          rfl
      · exact h.links l hl

/-- In a run whose names fit, every link finds each symbol under its full name in the table,
and adds those that the object defines. -/
theorem links_of_run {room : Nat} {calls : List (LdCall Memory)} {s : LdState Memory}
    (h : Run (Guarded (fun _ c => c.Fits) fun s c s' => s' = LdState.exec coffRelocate s c)
      { room } calls s) : ∀ l ∈ s.links, l.Right coffRelocate := by
  refine (Run.invariant (I := LdState.Right coffRelocate) ?_ h
    ⟨fun _ h => (nomatch h), fun _ h => (nomatch h)⟩).links
  rintro s c s' hs ⟨hfits, rfl⟩
  exact hs.exec hfits

/-- A memory of words, and the relocation that adds a value to one. -/
def addAt (m : Nat → Nat) (base : Nat) (r : Reloc) (value : Nat) : Nat → Nat :=
  Function.update m (base + r.address) (m (base + r.address) + value)

theorem links_of_run_short :
    List.Forall (fun l => l.Right addAt) (LdState.exec addAt (LdState.exec addAt { room := 16 }
      (.add ⟨0x1000, [112, 114], [112, 114]⟩))
      (.link ⟨fun n => if n = 0 then 16 else 0, fun n => if n = 0 then [⟨4, 0, 6⟩] else [],
        [⟨[112, 114], true, 0, 0, 2, fun _ => by decide⟩]⟩ 0x8000 fun _ => 0)).links := by
  refine forall_iff_forall_mem.mpr
    (links_of_run (Run.snoc (Run.snoc (Run.nil _) ⟨?_, rfl⟩) ⟨?_, rfl⟩))
  · exact rfl
  · intro s hs
    cases mem_singleton.mp hs
    decide

theorem link_confused :
    ∃ l ∈ ([LdCall.add ⟨0x1000, replicate 31 97, replicate 31 97⟩,
      .link ⟨fun n => if n = 0 then 16 else 0, fun _ => [],
        [⟨replicate 32 97, false, 0, 0, 2, nofun⟩]⟩ 0x8000 ()].foldl
      (LdState.exec fun m _ _ _ => m) { room := 16 }).links,
      ¬ l.Right fun m _ _ _ => m := by
  refine ⟨_, mem_singleton.mpr rfl, fun h => ?_⟩
  obtain ⟨g, hg, -⟩ := h.resolved 0 _ rfl rfl
  cases hg

end Dancy.Boot.Ld
