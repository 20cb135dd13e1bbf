import Nachos.Userprog.Descriptors
import Mathlib.Order.Bounds.Basic

/-! # Descriptor tables as finite maps (`FD_List` of `userprog/addrspace.cc`)

`FdMap` is what the table is for: descriptors bound to pointers, the least free one taken next. `FdList` keeps it
in a bitmap and an array, and every call does to the map what it should. What `fd_remove` returns for a descriptor
that is not bound is the value of a variable that has not been set, and `Close` deletes what it returns. -/
set_option autoImplicit false

namespace Nachos
open Execution

/-! ## Finite maps -/

/-- The pointers bound to descriptors; a bound pointer may be null. -/
abbrev FdMap := Int → Option (Option ℕ)

inductive FdCall where
  | put (newFd : Option ℕ)
  | get (i : Int)
  | remove (i : Int)

inductive FdResult where
  | fd (i : Int)
  | pointer (p : Option ℕ)
  deriving DecidableEq

namespace FdMap

/-- The pointer bound to a descriptor, or the null pointer. -/
def lookup (m : FdMap) (i : Int) : Option ℕ := (m i).join

/-- The descriptors below `n` that are not bound. -/
def free (n : Int) (m : FdMap) : Set Int := {i | 0 ≤ i ∧ i < n ∧ m i = none}

inductive Step (n : Int) (m : FdMap) : FdCall → FdResult → FdMap → Prop
  | put {newFd : Option ℕ} {i : Int} (h : IsLeast (free n m) i) :
      Step n m (.put newFd) (.fd i) (Function.update m i (some newFd))
  | full {newFd : Option ℕ} (h : free n m = ∅) : Step n m (.put newFd) (.fd (-1)) m
  | get {i : Int} : Step n m (.get i) (.pointer (m.lookup i)) m
  | remove {i : Int} : Step n m (.remove i) (.pointer (m.lookup i)) (Function.update m i none)

/-- A sequence of calls with their results. -/
inductive Run (n : Int) : FdMap → List FdCall → List FdResult → FdMap → Prop
  | nil (m : FdMap) : Run n m [] [] m
  | cons {m m' m'' : FdMap} {c : FdCall} {r : FdResult} {cs : List FdCall} {rs : List FdResult}
      (h : Step n m c r m') (hs : Run n m' cs rs m'') : Run n m (c :: cs) (r :: rs) m''

/-- The map after a call does not depend on what is returned. -/
theorem Step.unique {n : Int} {m m₁ m₂ : FdMap} {c : FdCall} {r₁ r₂ : FdResult} (h₁ : Step n m c r₁ m₁)
    (h₂ : Step n m c r₂ m₂) : m₁ = m₂ := by
  cases h₁ with
  | put hleast =>
    cases h₂ with
    | put hleast' => rw [hleast.unique hleast']
    | full hempty => exact absurd hleast.1 (hempty ▸ Set.notMem_empty _)
  | full hempty =>
    cases h₂ with
    | put hleast => exact absurd hleast.1 (hempty ▸ Set.notMem_empty _)
    | full _ => rfl
  | get =>
    cases h₂
    rfl
  | remove =>
    cases h₂
    rfl

theorem Step.of_remove {n : Int} {m m' : FdMap} {i : Int} {p : Option ℕ}
    (h : Step n m (.remove i) (.pointer p) m') : p = m.lookup i := by
  cases h
  rfl

end FdMap

/-! ## The table as a map -/

namespace FdList

def bindings (l : FdList) : FdMap := fun i => if l.IsOpen i then some (l.list i.toNat) else none

/-- One call; `oldFd` is what the variable of `fd_remove` holds before it is set. -/
def call (oldFd : Option ℕ) (l : FdList) : FdCall → Call (FdResult × FdList)
  | .put newFd => do
    let (i, l) ← l.fdPut newFd
    return (.fd i, l)
  | .get i => do
    let p ← l.fdGet i
    return (.pointer p, l)
  | .remove i => do
    let (p, l) ← l.fdRemove oldFd i
    return (.pointer p, l)

def calls : FdList → List (Option ℕ × FdCall) → Call (List FdResult × FdList)
  | l, [] => .ok ([], l)
  | l, (oldFd, c) :: cs => do
    let (r, l) ← l.call oldFd c
    let (rs, l) ← l.calls cs
    return (r :: rs, l)

/-- The calls return, with the results that they have on a map. -/
def ActsAsMap (l : FdList) (cs : List (Option ℕ × FdCall)) : Prop :=
  ∃ rs l', l.calls cs = .ok (rs, l') ∧ FdMap.Run l.size l.bindings (cs.map Prod.snd) rs l'.bindings

/-- A call of `fd_remove` is for a descriptor that is open, or finds its variable null. -/
def CallOk (l : FdList) (oldFd : Option ℕ) (c : FdCall) : Prop := ∀ i, c = .remove i → l.IsOpen i ∨ oldFd = none

/-- The same of all calls, each on the table as it is by then. -/
def CallsOk : FdList → List (Option ℕ × FdCall) → Prop
  | _, [] => True
  | l, (oldFd, c) :: cs => l.CallOk oldFd c ∧ ∀ r l', l.call oldFd c = .ok (r, l') → l'.CallsOk cs

variable {l l' : FdList} {i : Int}

theorem bindings_of_open (h : l.IsOpen i) : l.bindings i = some (l.list i.toNat) := if_pos h

theorem bindings_of_closed (h : ¬ l.IsOpen i) : l.bindings i = none := if_neg h

theorem mem_free : i ∈ FdMap.free l.size l.bindings ↔ 0 ≤ i ∧ i < l.size ∧ ¬ l.IsOpen i := by
  unfold FdMap.free
  rw [Set.mem_ofPred_eq]
  refine and_congr_right fun _ => and_congr_right fun _ => ?_
  by_cases h : l.IsOpen i
  · simp [bindings_of_open h, h]
  · simp [bindings_of_closed h, h]

theorem lookup_bindings (l : FdList) (i : Int) : l.bindings.lookup i = l.entry i := by
  unfold FdMap.lookup entry
  by_cases h : l.IsOpen i
  · rw [bindings_of_open h, if_pos h, Option.join_some]
  · rw [bindings_of_closed h, if_neg h, Option.join_none]

theorem bindings_put {w : ℕ} {newFd : Option ℕ} (hlist : l'.list = Function.update l.list w newFd)
    (hopen : ∀ i : Int, l'.IsOpen i ↔ i = w ∨ l.IsOpen i) :
    l'.bindings = Function.update l.bindings w (some newFd) := by
  funext i
  by_cases hi : i = w
  · subst hi
    rw [Function.update_self, bindings_of_open ((hopen _).mpr (Or.inl rfl)), hlist, Int.toNat_natCast,
      Function.update_self]
  · rw [Function.update_of_ne hi]
    by_cases h : l.IsOpen i
    · have hne : i.toNat ≠ w := by
        have hnonneg := h.1
        omega
      rw [bindings_of_open h, bindings_of_open ((hopen i).mpr (Or.inr h)), hlist, Function.update_of_ne hne]
    · rw [bindings_of_closed h, bindings_of_closed fun h' => ((hopen i).mp h').elim hi h]

theorem bindings_remove (hopen : ∀ j, l'.IsOpen j ↔ l.IsOpen j ∧ j ≠ i)
    (hlist : ∀ j : ℕ, (j : Int) ≠ i → l'.list j = l.list j) : l'.bindings = Function.update l.bindings i none := by
  funext j
  by_cases hj : j = i
  · subst hj
    rw [Function.update_self, bindings_of_closed fun h => ((hopen j).mp h).2 rfl]
  · rw [Function.update_of_ne hj]
    by_cases h : l.IsOpen j
    · have hcast : (j.toNat : Int) ≠ i := by
        rw [Int.toNat_of_nonneg h.1]
        exact hj
      rw [bindings_of_open h, bindings_of_open ((hopen j).mpr ⟨h, hj⟩), hlist _ hcast]
    · rw [bindings_of_closed h, bindings_of_closed fun h' => h ((hopen j).mp h').1]

/-! ## The calls -/

variable {oldFd newFd p : Option ℕ}

theorem call_put (h : l.fdPut newFd = .ok (i, l')) : l.call oldFd (.put newFd) = .ok (.fd i, l') := by
  simp only [call, h, ok_bind, pure_eq_ok]

theorem call_get (l : FdList) (i : Int) : l.call oldFd (.get i) = .ok (.pointer (l.entry i), l) := by
  simp only [call, l.fdGet_eq, ok_bind, pure_eq_ok]

theorem call_remove (h : l.fdRemove oldFd i = .ok (p, l')) : l.call oldFd (.remove i) = .ok (.pointer p, l') := by
  simp only [call, h, ok_bind, pure_eq_ok]

/-- Each call returns and does to the map what it should, and its result is right under `CallOk` only. -/
theorem call_spec (hsize : 0 ≤ l.size) (oldFd : Option ℕ) (c : FdCall) :
    ∃ r l', l.call oldFd c = .ok (r, l') ∧ l'.size = l.size ∧
      (∃ r', FdMap.Step l.size l.bindings c r' l'.bindings) ∧
      (FdMap.Step l.size l.bindings c r l'.bindings ↔ l.CallOk oldFd c) := by
  cases c with
  | put newFd =>
    have hok : l.CallOk oldFd (.put newFd) := nofun
    rcases l.fdPut_spec newFd hsize with ⟨hput, hall⟩ | ⟨w, l', hput, hfree, hleast, hsize', hlist, hopen⟩
    · have hempty : FdMap.free l.size l.bindings = ∅ := by
        ext i
        rw [mem_free, Set.mem_empty_iff_false, iff_false]
        rintro ⟨h0, hlt, hclosed⟩
        exact hclosed (hall i h0 hlt)
      have hstep : FdMap.Step l.size l.bindings (.put newFd) (.fd (-1)) l.bindings := .full hempty
      exact ⟨.fd (-1), l, call_put hput, rfl, ⟨_, hstep⟩, iff_of_true hstep hok⟩
    · have hw : IsLeast (FdMap.free l.size l.bindings) w := by
        have hlt := ((hopen w).mpr (Or.inl rfl)).2.1
        refine ⟨mem_free.mpr ⟨by omega, by omega, hfree⟩, fun i hi => ?_⟩
        obtain ⟨h0, -, hclosed⟩ := mem_free.mp hi
        by_contra hlt'
        exact hclosed (hleast i h0 (by omega))
      have hstep : FdMap.Step l.size l.bindings (.put newFd) (.fd w) l'.bindings := by
        rw [bindings_put hlist hopen]
        exact .put hw
      exact ⟨.fd w, l', call_put hput, hsize', ⟨_, hstep⟩, iff_of_true hstep hok⟩
  | get i =>
    have hstep : FdMap.Step l.size l.bindings (.get i) (.pointer (l.entry i)) l.bindings := by
      rw [← lookup_bindings]
      exact .get
    exact ⟨.pointer (l.entry i), l, l.call_get i, rfl, ⟨_, hstep⟩, iff_of_true hstep nofun⟩
  | remove i =>
    obtain ⟨l', hremove, hsize', hopen, hlist⟩ := l.fdRemove_spec oldFd i
    have hstep : FdMap.Step l.size l.bindings (.remove i) (.pointer (l.entry i)) l'.bindings := by
      rw [bindings_remove hopen hlist, ← lookup_bindings]
      exact .remove
    refine ⟨_, l', call_remove hremove, hsize', ⟨_, hstep⟩, ?_⟩
    have hresult : FdMap.Step l.size l.bindings (.remove i)
        (.pointer (if l.IsOpen i then l.list i.toNat else oldFd)) l'.bindings ↔
        (if l.IsOpen i then l.list i.toNat else oldFd) = l.entry i := by
      constructor
      · intro h
        rw [h.of_remove, lookup_bindings]
      · intro h
        rw [h]
        exact hstep
    rw [hresult]
    unfold entry CallOk
    by_cases hi : l.IsOpen i
    · rw [if_pos hi, if_pos hi]
      exact iff_of_true rfl fun j hj => by
        cases hj
        exact Or.inl hi
    · rw [if_neg hi, if_neg hi]
      refine ⟨fun h _ _ => Or.inr h, fun h => (h i rfl).resolve_left hi⟩

theorem actsAsMap_iff (hsize : 0 ≤ l.size) (cs : List (Option ℕ × FdCall)) : l.ActsAsMap cs ↔ l.CallsOk cs := by
  induction cs generalizing l with
  | nil => exact iff_of_true ⟨[], l, rfl, .nil _⟩ trivial
  | cons entry cs ih =>
    obtain ⟨oldFd, c⟩ := entry
    obtain ⟨r, l', hcall, hsize', ⟨r', hstep⟩, hright⟩ := l.call_spec hsize oldFd c
    have hrest := ih (l := l') (by omega)
    constructor
    · rintro ⟨rs, l₂, hrun, hmap⟩
      obtain ⟨⟨r₁, l₁⟩, hcall₁, hrun⟩ := bind_eq_ok.mp hrun
      rw [hcall] at hcall₁
      cases hcall₁
      obtain ⟨⟨rs, l₂⟩, hcalls, hrun⟩ := bind_eq_ok.mp hrun
      cases hrun
      cases hmap with
      | cons hs hrun =>
        have hm := hs.unique hstep
        rw [hm] at hs hrun
        refine ⟨hright.mp hs, fun r₂ l₂ h₂ => ?_⟩
        rw [hcall] at h₂
        cases h₂
        exact hrest.mp ⟨rs, _, hcalls, by rw [hsize']; exact hrun⟩
    · rintro ⟨hok, hoks⟩
      obtain ⟨rs, l₂, hcalls, hrun⟩ := hrest.mpr (hoks r l' hcall)
      rw [hsize'] at hrun
      refine ⟨r :: rs, l₂, ?_, .cons (hright.mpr hok) hrun⟩
      unfold calls
      rw [hcall, ok_bind]
      dsimp only
      rw [hcalls, ok_bind]
      rfl

/-- A new table has no descriptor bound. -/
theorem new_bindings (words : ℕ → BitVec 32) (junk : ℕ → Option ℕ) (n : ℕ) :
    ∃ l, FdList.new words junk n = .ok l ∧ l.size = n ∧ l.bindings = fun _ => none := by
  obtain ⟨map, hmap, hbits, hclear⟩ := @BitMap.new_spec words n
  refine ⟨⟨map, junk⟩, ?_, hbits, funext fun i => bindings_of_closed ?_⟩
  · unfold FdList.new
    rw [hmap, ok_bind, if_neg (by omega)]
    rfl
  · rintro ⟨h0, hlt, hbit⟩
    have hlt' : i < map.numBits := hlt
    rw [hclear i.toNat (by omega)] at hbit
    cases hbit

end FdList

/-! ## Close -/

namespace Os

/-- A call of `Close` deletes nothing but the file of an open descriptor, and comes back from any other. -/
structure ClosesOpen (env : Outside) (k : Os) (l : FdList) (fd : Int) : Prop where
  deletes : ∀ k', k.closeSyscallFunc env fd = .ok k' → ∀ f, k'.files f ≠ k.files f →
    l.IsOpen fd ∧ l.list fd.toNat = some f
  returns : ¬ l.IsOpen fd → Returns (k.closeSyscallFunc env fd)

variable {env : Outside} {k : Os} {p : Process} {fd : Int}

/-- `Close` of a descriptor that is not negative, on what `fd_remove` gives back. -/
theorem closeSyscallFunc_eq (env : Outside) (hp : k.process k.current = some p) (hfd : 0 ≤ fd) :
    ∃ l', k.closeSyscallFunc env fd =
      match (if p.openFiles.IsOpen fd then p.openFiles.list fd.toNat else env.oldFds 0) with
      | none => .ok (k.setProcess k.current { p with openFiles := l' })
      | some f => do
        let _ ← (k.setProcess k.current { p with openFiles := l' }).getFile f
        return (k.setProcess k.current { p with openFiles := l' }).setFile f none := by
  obtain ⟨l', hremove, -⟩ := p.openFiles.fdRemove_spec (env.oldFds 0) fd
  refine ⟨l', ?_⟩
  unfold closeSyscallFunc
  rw [if_neg (by omega), getProcess_eq hp, ok_bind, hremove, ok_bind]
  rfl

theorem closesOpen_iff (hp : k.process k.current = some p) :
    ClosesOpen env k p.openFiles fd ↔ fd < 0 ∨ p.openFiles.IsOpen fd ∨ env.oldFds 0 = none := by
  by_cases hneg : fd < 0
  · have hclose : k.closeSyscallFunc env fd = .ok k := if_pos hneg
    refine iff_of_true ⟨fun k' hk' f hf => ?_, fun _ => ⟨k, hclose⟩⟩ (Or.inl hneg)
    rw [hclose] at hk'
    cases hk'
    exact absurd rfl hf
  · rw [or_iff_right hneg]
    obtain ⟨l', hclose⟩ := closeSyscallFunc_eq env hp (Int.not_lt.mp hneg)
    by_cases hopen : p.openFiles.IsOpen fd
    · rw [if_pos hopen] at hclose
      refine iff_of_true ⟨fun k' hk' f hf => ⟨hopen, ?_⟩, fun h => absurd hopen h⟩ (Or.inl hopen)
      rw [hclose] at hk'
      cases hfile : p.openFiles.list fd.toNat with
      | none =>
        rw [hfile] at hk'
        cases hk'
        exact absurd rfl hf
      | some g =>
        rw [hfile] at hk'
        obtain ⟨file, -, hk'⟩ := bind_eq_ok.mp hk'
        cases hk'
        have hg : f = g := by
          by_contra hne
          exact hf (Function.update_of_ne hne _ _)
        rw [hg]
    · rw [or_iff_right hopen]
      rw [if_neg hopen] at hclose
      cases hold : env.oldFds 0 with
      | none =>
        rw [hold] at hclose
        refine iff_of_true ⟨fun k' hk' f hf => ?_, fun _ => ⟨_, hclose⟩⟩ rfl
        rw [hclose] at hk'
        cases hk'
        exact absurd rfl hf
      | some f =>
        rw [hold] at hclose
        refine iff_of_false (fun h => ?_) nofun
        obtain ⟨k', hk'⟩ := h.returns hopen
        have hrun := hk'
        rw [hclose] at hrun
        obtain ⟨file, hfile, hrun⟩ := bind_eq_ok.mp hrun
        cases hrun
        refine hopen (h.deletes _ hk' f ?_).1
        have hlive : k.files f = some file := getFile_eq_ok hfile
        rw [hlive]
        simp [setFile]

end Os

/-- A table acts as a finite map through all its calls exactly if every descriptor that is removed is open by then, or the
variable of `fd_remove` happens to be null; and so `Close` deletes only files of open descriptors. -/
theorem fdList_finiteMap_iff (words : ℕ → BitVec 32) (junk : ℕ → Option ℕ) (n : ℕ) :
    (∃ l, FdList.new words junk n = .ok l ∧ l.size = n ∧ (l.bindings = fun _ => none) ∧
      ∀ cs, l.ActsAsMap cs ↔ l.CallsOk cs) ∧
    ∀ (env : Outside) (k : Os) (p : Process) (fd : Int), k.process k.current = some p →
      (Os.ClosesOpen env k p.openFiles fd ↔ fd < 0 ∨ p.openFiles.IsOpen fd ∨ env.oldFds 0 = none) := by
  obtain ⟨l, hnew, hsize, hbindings⟩ := FdList.new_bindings words junk n
  exact ⟨⟨l, hnew, hsize, hbindings, FdList.actsAsMap_iff (by omega)⟩, fun env k p fd hp => Os.closesOpen_iff hp⟩

/-! ## A descriptor that was never opened -/

theorem readerFiles_closed : ¬ readerFiles.IsOpen 3 := by decide +kernel

/-- The variable of `fd_remove` happens to hold the address of the file that is open. -/
def leftover : Outside := { readerOutside with oldFds := fun _ => some 0 }

/-- The removal of a descriptor of a new table gives back a pointer, and `Close` of descriptor 3 deletes the file that is
open as descriptor 2. -/
theorem remove_of_closed_returns :
    (∃ l, FdList.new (fun _ => 0#32) (fun _ => none) 512 = .ok l ∧ ¬ l.ActsAsMap [(some 7, .remove 3)]) ∧
    ∃ (k k' : Os) (p : Process), k.process k.current = some p ∧ ¬ p.openFiles.IsOpen 3 ∧
      p.openFiles.entry 2 = some 0 ∧ k.closeSyscallFunc leftover 3 = .ok k' ∧ k.files 0 ≠ none ∧ k'.files 0 = none := by
  constructor
  · obtain ⟨l, hnew, hsize, hbindings⟩ := FdList.new_bindings (fun _ => 0#32) (fun _ => none) 512
    refine ⟨l, hnew, fun hacts => ?_⟩
    have hok := ((FdList.actsAsMap_iff (by omega) _).mp hacts).1 3 rfl
    rcases hok with hopen | hnull
    · have hbound := FdList.bindings_of_open hopen
      rw [hbindings] at hbound
      cases hbound
    · cases hnull
  · obtain ⟨d⟩ := exists_readerDisk
    obtain ⟨a, -⟩ := blank_construct []
    have hp : (reader d a readerFiles 0).process (reader d a readerFiles 0).current = some ⟨a, readerFiles, 4080, 0, 0⟩ :=
      rfl
    obtain ⟨l', hclose⟩ := Os.closeSyscallFunc_eq leftover hp (by decide : (0 : Int) ≤ 3)
    dsimp only at hclose
    rw [if_neg readerFiles_closed] at hclose
    refine ⟨_, _, _, hp, ?_, ?_, hclose, nofun, rfl⟩
    · dsimp only
      exact readerFiles_closed
    · dsimp only
      exact readerFiles_entry

end Nachos
