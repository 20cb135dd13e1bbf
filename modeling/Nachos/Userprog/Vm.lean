import Nachos.Userprog.LoadPage

/-! # The virtual memory system

All address spaces with the memory they share, and the calls made on them: the constructor,
`load_page`, the kernel's `read` and `write`, and the machine's `ReadMem` and `WriteMem`. The file
system answers each call as it pleases. `Keeps` reduces an invariant of all calls to the loading of one
page, a store of bytes and the setting of a translation bit. -/
set_option autoImplicit false

namespace Nachos
open Buffer Execution

variable {addr bytes size value : Int} {a a' : AddrSpace} {i : ℕ} {m m' : Memory} {junk str : Image} {name : FileName}
  {words : ℕ → BitVec 32}

structure Vm where
  spaces : ℕ → Option AddrSpace
  memory : Memory

inductive VmOp where
  | construct (i : ℕ) (junk : Image) (words : ℕ → BitVec 32) (name : FileName)
  | load (i : ℕ) (virtPage : Int)
  | read (i : ℕ) (addr bytes : Int)
  | write (i : ℕ) (addr : Int) (str : Image) (bytes : Int)
  | readMem (i : ℕ) (addr size : Int)
  | writeMem (i : ℕ) (addr size value : Int)

inductive VmResult where
  | done
  | frame (n : Int)
  | bytes (buf : List UInt8)
  | value (n : Int)
  | raised (exception : ExceptionType)

variable {s s' : Vm} {result : VmResult} {op : VmOp}

theorem locate_eq_ok {load : Loader} {phys : ℕ} (h : locate load m a addr = .ok (phys, a', m')) :
    0 ≤ addr.tdiv pageSize ∧ addr.tdiv pageSize < a.numPages ∧
      ensureLoaded load m a (addr.tdiv pageSize).toNat = .ok (a', m') ∧
      (phys : Int) = (a'.pageTable (addr.tdiv pageSize).toNat).physicalPage * pageSize + addr.tmod pageSize := by
  unfold locate at h
  dsimp only at h
  split at h
  · next hpage =>
    obtain ⟨⟨a1, m1⟩, hens, h⟩ := bind_eq_ok.mp h
    dsimp only at h
    split at h
    · next hphys =>
      cases h
      exact ⟨hpage.1, hpage.2, hens, Int.toNat_of_nonneg hphys.1⟩
    · cases h
  · cases h

namespace Vm

def set (s : Vm) (i : ℕ) (a : AddrSpace) (m : Memory) : Vm where
  spaces := Function.update s.spaces i (some a)
  memory := m

/-- A call on the space of process `i`. -/
def onSpace (s : Vm) (i : ℕ) (call : AddrSpace → Call (VmResult × AddrSpace × Memory)) :
    Call (VmResult × Vm) :=
  match s.spaces i with
  | none => .error (.outOfBounds .pageTable)
  | some a => do
    let (result, a, m) ← call a
    return (result, s.set i a m)

def step (fs : Programs) (load : Loader) (s : Vm) : VmOp → Call (VmResult × Vm)
  | .construct i junk words name => do
    let a ← AddrSpace.construct fs junk words name
    return (.done, s.set i a s.memory)
  | .load i virtPage => s.onSpace i fun a => do
    let (frame, a, m) ← load s.memory a virtPage
    return (.frame frame, a, m)
  | .read i addr bytes => s.onSpace i fun a => do
    let (buf, a, m) ← a.read load s.memory addr bytes
    return (.bytes buf, a, m)
  | .write i addr str bytes => s.onSpace i fun a => do
    let (a, m) ← a.write load s.memory addr str bytes
    return (.done, a, m)
  | .readMem i addr size => s.onSpace i fun a => do
    match ← Nachos.readMem a.pageTable a.numPages s.memory.mainMemory addr size with
    | .error exception => return (.raised exception, a, s.memory)
    | .ok (value, table) => return (.value value, { a with pageTable := table }, s.memory)
  | .writeMem i addr size value => s.onSpace i fun a => do
    match ← Nachos.writeMem a.pageTable a.numPages s.memory.mainMemory addr size value with
    | .error exception => return (.raised exception, a, s.memory)
    | .ok (mem, table) => return (.done, { a with pageTable := table }, { s.memory with mainMemory := mem })

/-- Power-on: no process yet, no frame in use. -/
structure Booted (s : Vm) : Prop where
  spaces : ∀ i, s.spaces i = none
  free : ∀ i, s.memory.availablePages i = 0
  sectors : ∃ words, BitMap.new words numSectors = .ok s.memory.availableSectors

/-- A call, with the file system's answers while it runs. -/
structure Request where
  fs : Programs
  op : VmOp

def Step (s : Vm) (q : Request) (s' : Vm) : Prop :=
  ∃ fuel result, s.step q.fs (loadPage q.fs fuel) q.op = .ok (result, s')

/-- The states of all runs. -/
def Reached : Vm → Prop := Reachable Booted Step fun _ _ => True

/-! ## Invariants of all calls -/

theorem set_set (s : Vm) (i : ℕ) (a a' : AddrSpace) (m m' : Memory) : (s.set i a m).set i a' m' = s.set i a' m' := by
  simp [set]

theorem set_self (h : s.spaces i = some a) : s.set i a s.memory = s := by
  have hspaces : Function.update s.spaces i (some a) = s.spaces := by
    rw [← h]
    exact Function.update_eq_self i s.spaces
  unfold set
  rw [hspaces]

theorem set_spaces (s : Vm) (i : ℕ) (a : AddrSpace) (m : Memory) : (s.set i a m).spaces i = some a := by
  simp [set]

theorem set_spaces_of_ne (s : Vm) {j : ℕ} (hj : j ≠ i) (a : AddrSpace) (m : Memory) :
    (s.set i a m).spaces j = s.spaces j :=
  Function.update_of_ne hj _ _

/-- A thread without an address space gets none from a call on another one's. -/
theorem set_spaces_of_none {j : ℕ} (ha : s.spaces i = some a) (hj : s.spaces j = none) (b : AddrSpace)
    (m : Memory) : (s.set i b m).spaces j = none := by
  have hne : j ≠ i := by
    rintro rfl
    rw [ha] at hj
    cases hj
  rw [set_spaces_of_ne s hne]
  exact hj

theorem spaces_set_eq_some {j : ℕ} {b : AddrSpace}
    (h : (s.set i a m).spaces j = some b) : (j = i ∧ b = a) ∨ (j ≠ i ∧ s.spaces j = some b) := by
  by_cases hj : j = i
  · subst hj
    rw [set_spaces] at h
    exact Or.inl ⟨rfl, (Option.some.inj h).symm⟩
  · rw [set_spaces_of_ne s hj] at h
    exact Or.inr ⟨hj, h⟩

theorem onSpace_eq_ok {call : AddrSpace → Call (VmResult × AddrSpace × Memory)}
    (h : s.onSpace i call = .ok (result, s')) :
    ∃ a a' m', s.spaces i = some a ∧ call a = .ok (result, a', m') ∧ s' = s.set i a' m' := by
  unfold onSpace at h
  cases ha : s.spaces i with
  | none => simp [ha] at h
  | some a =>
    simp only [ha] at h
    obtain ⟨⟨result', a', m'⟩, hcall, h⟩ := bind_eq_ok.mp h
    cases h
    exact ⟨a, a', m', rfl, hcall, rfl⟩

/-! ## What a call does -/

section Call

variable {fs : Programs} {load : Loader}

theorem step_build_eq_ok (h : s.step fs load (.construct i junk words name) = .ok (result, s')) :
    ∃ a, AddrSpace.construct fs junk words name = .ok a ∧ result = .done ∧ s' = s.set i a s.memory := by
  obtain ⟨a, hbuild, h⟩ := bind_eq_ok.mp h
  cases h
  exact ⟨a, hbuild, rfl, rfl⟩

theorem step_load_eq_ok {v : Int} (h : s.step fs load (.load i v) = .ok (result, s')) :
    ∃ a r a' m', s.spaces i = some a ∧ load s.memory a v = .ok (r, a', m') ∧ result = .frame r ∧
      s' = s.set i a' m' := by
  obtain ⟨a, a', m', ha, hcall, rfl⟩ := onSpace_eq_ok h
  obtain ⟨⟨r, a1, m1⟩, hload, hcall⟩ := bind_eq_ok.mp hcall
  cases hcall
  exact ⟨a, r, a', m', ha, hload, rfl, rfl⟩

theorem step_read_eq_ok (h : s.step fs load (.read i addr bytes) = .ok (result, s')) :
    ∃ a buf a' m', s.spaces i = some a ∧ a.read load s.memory addr bytes = .ok (buf, a', m') ∧
      result = .bytes buf ∧ s' = s.set i a' m' := by
  obtain ⟨a, a', m', ha, hcall, rfl⟩ := onSpace_eq_ok h
  obtain ⟨⟨buf, a1, m1⟩, hread, hcall⟩ := bind_eq_ok.mp hcall
  cases hcall
  exact ⟨a, buf, a', m', ha, hread, rfl, rfl⟩

theorem step_write_eq_ok (h : s.step fs load (.write i addr str bytes) = .ok (result, s')) :
    ∃ a a' m', s.spaces i = some a ∧ a.write load s.memory addr str bytes = .ok (a', m') ∧ result = .done ∧
      s' = s.set i a' m' := by
  obtain ⟨a, a', m', ha, hcall, rfl⟩ := onSpace_eq_ok h
  obtain ⟨⟨a1, m1⟩, hwrite, hcall⟩ := bind_eq_ok.mp hcall
  cases hcall
  exact ⟨a, a', m', ha, hwrite, rfl, rfl⟩

theorem step_readMem_eq_ok (h : s.step fs load (.readMem i addr size) = .ok (result, s')) :
    (∃ exception, result = .raised exception ∧ s' = s) ∨
      ∃ a value table, s.spaces i = some a ∧
        Nachos.readMem a.pageTable a.numPages s.memory.mainMemory addr size = .ok (.ok (value, table)) ∧
        result = .value value ∧ s' = s.set i { a with pageTable := table } s.memory := by
  obtain ⟨a, a', m', ha, hcall, rfl⟩ := onSpace_eq_ok h
  obtain ⟨r, hread, hcall⟩ := bind_eq_ok.mp hcall
  cases r with
  | error exception =>
    cases hcall
    exact Or.inl ⟨exception, rfl, set_self ha⟩
  | ok r =>
    cases hcall
    exact Or.inr ⟨a, _, _, ha, hread, rfl, rfl⟩

theorem step_writeMem_eq_ok (h : s.step fs load (.writeMem i addr size value) = .ok (result, s')) :
    (∃ exception, result = .raised exception ∧ s' = s) ∨
      ∃ a mem table, s.spaces i = some a ∧
        Nachos.writeMem a.pageTable a.numPages s.memory.mainMemory addr size value = .ok (.ok (mem, table)) ∧
        result = .done ∧ s' = s.set i { a with pageTable := table } { s.memory with mainMemory := mem } := by
  obtain ⟨a, a', m', ha, hcall, rfl⟩ := onSpace_eq_ok h
  obtain ⟨r, hwrite, hcall⟩ := bind_eq_ok.mp hcall
  cases r with
  | error exception =>
    cases hcall
    exact Or.inl ⟨exception, rfl, set_self ha⟩
  | ok r =>
    cases hcall
    exact Or.inr ⟨a, _, _, ha, hwrite, rfl, rfl⟩

end Call

section Invariant

variable {fs : Programs} {load : Loader} {I : Vm → Prop}

/-- What the calls do to the state, one piece at a time. -/
structure Keeps (fs : Programs) (load : Loader) (I : Vm → Prop) : Prop where
  build : ∀ s i a junk words name, I s → AddrSpace.construct fs junk words name = .ok a →
    I (s.set i a s.memory)
  load : ∀ s i a v r a' m', I s → s.spaces i = some a → load s.memory a v = .ok (r, a', m') →
    I (s.set i a' m')
  bytes : ∀ s mem, I s → I { s with memory := { s.memory with mainMemory := mem } }
  touch : ∀ s i a v w, I s → s.spaces i = some a → v < a.numPages →
    I (s.set i { a with pageTable := Function.update a.pageTable v ((a.pageTable v).touched w) } s.memory)

/-- The pieces of the calls on a space that is there. -/
structure KeepsUsed (load : Loader) (I : Vm → Prop) : Prop where
  load : ∀ s i a v r a' m', I s → s.spaces i = some a → load s.memory a v = .ok (r, a', m') →
    I (s.set i a' m')
  bytes : ∀ s mem, I s → I { s with memory := { s.memory with mainMemory := mem } }
  touch : ∀ s i a v w, I s → s.spaces i = some a → v < a.numPages →
    I (s.set i { a with pageTable := Function.update a.pageTable v ((a.pageTable v).touched w) } s.memory)

/-- The property is kept by loading a page. -/
def KeepsLoads (load : Loader) (I : Vm → Prop) : Prop :=
  ∀ s i a v r a' m', I s → s.spaces i = some a → load s.memory a v = .ok (r, a', m') → I (s.set i a' m')

theorem KeepsLoads.locate (h : KeepsLoads load I) {phys : ℕ} (hI : I (s.set i a m))
    (hloc : locate load m a addr = .ok (phys, a', m')) : I (s.set i a' m') := by
  obtain ⟨-, -, hens, -⟩ := locate_eq_ok hloc
  unfold ensureLoaded at hens
  split at hens
  · obtain ⟨⟨r, a1, m1⟩, hload, hens⟩ := bind_eq_ok.mp hens
    cases hens
    have hnext := h (s.set i a m) i a _ r _ _ hI (set_spaces s i a m) hload
    rwa [set_set] at hnext
  · cases hens
    exact hI

theorem KeepsLoads.readFrom (h : KeepsLoads load I) (n k : ℕ) {buf : List UInt8} (hI : I (s.set i a m))
    (hread : readFrom load addr bytes n k m a = .ok (buf, a', m')) : I (s.set i a' m') := by
  induction n generalizing k m a buf with
  | zero =>
    cases hread
    exact hI
  | succ n ih =>
    unfold Nachos.readFrom at hread
    split at hread
    · obtain ⟨⟨phys, a1, m1⟩, hloc, hread⟩ := bind_eq_ok.mp hread
      have h1 := h.locate hI hloc
      dsimp only at hread
      split at hread
      · cases hread
        exact h1
      · obtain ⟨⟨rest, a2, m2⟩, hrest, hread⟩ := bind_eq_ok.mp hread
        cases hread
        exact ih (k + 1) h1 hrest
    · cases hread
      exact hI

theorem KeepsUsed.writeFrom (h : KeepsUsed load I) (n k : ℕ) (hI : I (s.set i a m))
    (hwrite : writeFrom load addr str bytes n k m a = .ok (a', m')) : I (s.set i a' m') := by
  induction n generalizing k m a with
  | zero =>
    cases hwrite
    exact hI
  | succ n ih =>
    unfold Nachos.writeFrom at hwrite
    split at hwrite
    · obtain ⟨⟨phys, a1, m1⟩, hloc, hwrite⟩ := bind_eq_ok.mp hwrite
      have h1 : I (s.set i a1 (m1.setByte phys (str k))) := h.bytes _ _ (KeepsLoads.locate h.load hI hloc)
      dsimp only at hwrite
      split at hwrite
      · cases hwrite
        exact h1
      · exact ih (k + 1) h1 hwrite
    · cases hwrite
      exact hI

theorem KeepsUsed.step (h : KeepsUsed load I) (hI : I s) (hop : ∀ i junk words name, op ≠ .construct i junk words name)
    (hstep : s.step fs load op = .ok (result, s')) : I s' := by
  cases op with
  | construct i junk words name => exact absurd rfl (hop i junk words name)
  | load i virtPage =>
    obtain ⟨a, r, a', m', ha, hload, -, rfl⟩ := step_load_eq_ok hstep
    exact h.load s i a virtPage r a' m' hI ha hload
  | read i addr bytes =>
    obtain ⟨a, buf, a', m', ha, hread, -, rfl⟩ := step_read_eq_ok hstep
    rw [← set_self ha] at hI
    exact KeepsLoads.readFrom h.load _ _ hI hread
  | write i addr str bytes =>
    obtain ⟨a, a', m', ha, hwrite, -, rfl⟩ := step_write_eq_ok hstep
    rw [← set_self ha] at hI
    exact h.writeFrom _ _ hI hwrite
  | readMem i addr size =>
    rcases step_readMem_eq_ok hstep with ⟨_, -, rfl⟩ | ⟨a, value, table, ha, hread, -, rfl⟩
    · exact hI
    · obtain ⟨r, htrans, hread⟩ := bind_eq_ok.mp hread
      cases r with
      | error exception => cases hread
      | ok r =>
        obtain ⟨value, _, hread⟩ := bind_eq_ok.mp hread
        cases hread
        obtain ⟨hv, -, -, -, -, htable⟩ := translate_eq_ok htrans
        have htouch := h.touch s i a _ false hI ha hv
        rw [← htable] at htouch
        exact htouch
  | writeMem i addr size value =>
    rcases step_writeMem_eq_ok hstep with ⟨_, -, rfl⟩ | ⟨a, mem, table, ha, hwrite, -, rfl⟩
    · exact hI
    · obtain ⟨r, htrans, hwrite⟩ := bind_eq_ok.mp hwrite
      cases r with
      | error exception => cases hwrite
      | ok r =>
        obtain ⟨mem, _, hwrite⟩ := bind_eq_ok.mp hwrite
        cases hwrite
        obtain ⟨hv, -, -, -, -, htable⟩ := translate_eq_ok htrans
        have htouch := h.touch s i a _ true hI ha hv
        rw [← htable] at htouch
        exact h.bytes _ mem htouch

/-- A property kept by every piece of a call is kept by every call. -/
theorem Keeps.step (h : Keeps fs load I) (hI : I s) (hstep : s.step fs load op = .ok (result, s')) : I s' := by
  have hused : KeepsUsed load I := ⟨h.load, h.bytes, h.touch⟩
  cases op with
  | construct i junk words name =>
    obtain ⟨a, hbuild, -, rfl⟩ := step_build_eq_ok hstep
    exact h.build s i a junk words name hI hbuild
  | load i virtPage => exact hused.step hI (by simp) hstep
  | read i addr bytes => exact hused.step hI (by simp) hstep
  | write i addr str bytes => exact hused.step hI (by simp) hstep
  | readMem i addr size => exact hused.step hI (by simp) hstep
  | writeMem i addr size value => exact hused.step hI (by simp) hstep

end Invariant

/-! ## Watched loads -/

/-- The loader that fails where a load does not meet a condition. -/
def guarded (cond : Memory → AddrSpace → Int → Prop) [∀ m a v, Decidable (cond m a v)] (load : Loader) :
    Loader :=
  fun m a v => if cond m a v then load m a v else .error .assertFailed

/-- Whatever `load` returns, `load'` returns. -/
def LoadsAs (load load' : Loader) : Prop :=
  ∀ m a v x, load m a v = .ok x → load' m a v = .ok x

section Watched

variable {load load' : Loader}

theorem guarded_eq_ok {cond : Memory → AddrSpace → Int → Prop} [∀ m a v, Decidable (cond m a v)] {v : Int}
    {x : Int × AddrSpace × Memory} : guarded cond load m a v = .ok x ↔ cond m a v ∧ load m a v = .ok x := by
  unfold guarded
  by_cases h : cond m a v
  · rw [if_pos h]
    exact ⟨fun hx => ⟨h, hx⟩, And.right⟩
  · rw [if_neg h]
    exact ⟨fun hx => (nomatch hx), fun hx => absurd hx.1 h⟩

theorem LoadsAs.locate (h : LoadsAs load load') (m : Memory) (a : AddrSpace) (addr : Int) :
    ReturnsAs (locate load m a addr) (locate load' m a addr) := by
  have hensure : ∀ v, ReturnsAs (ensureLoaded load m a v) (ensureLoaded load' m a v) := by
    intro v
    unfold ensureLoaded
    exact .ite (.bind (h m a v) fun _ => .refl _) (.refl _)
  unfold Nachos.locate
  exact .ite (.bind (hensure _) fun _ => .refl _) (.refl _)

theorem LoadsAs.readFrom (h : LoadsAs load load') (addr bytes : Int) (n k : ℕ) (m : Memory) (a : AddrSpace) :
    ReturnsAs (readFrom load addr bytes n k m a) (readFrom load' addr bytes n k m a) := by
  induction n generalizing k m a with
  | zero => exact .refl _
  | succ n ih =>
    unfold Nachos.readFrom
    refine .ite (.bind (h.locate m a _) fun p => ?_) (.refl _)
    exact .ite (.refl _) (.bind (ih (k + 1) _ _) fun _ => .refl _)

theorem LoadsAs.writeFrom (h : LoadsAs load load') (addr : Int) (str : Image) (bytes : Int) (n k : ℕ) (m : Memory)
    (a : AddrSpace) : ReturnsAs (writeFrom load addr str bytes n k m a) (writeFrom load' addr str bytes n k m a) := by
  induction n generalizing k m a with
  | zero => exact .refl _
  | succ n ih =>
    unfold Nachos.writeFrom
    refine .ite (.bind (h.locate m a _) fun p => ?_) (.refl _)
    exact .ite (.refl _) (ih (k + 1) _ _)

theorem returnsAs_onSpace (s : Vm) (i : ℕ) {call call' : AddrSpace → Call (VmResult × AddrSpace × Memory)}
    (h : ∀ a, ReturnsAs (call a) (call' a)) : ReturnsAs (s.onSpace i call) (s.onSpace i call') := by
  unfold Vm.onSpace
  cases s.spaces i with
  | none => exact .refl _
  | some a => exact .bind (h a) fun _ => .refl _

theorem LoadsAs.step (h : LoadsAs load load') {fs : Programs} {x : VmResult × Vm}
    (hx : s.step fs load op = .ok x) : s.step fs load' op = .ok x := by
  cases op with
  | construct i junk words name => exact hx
  | load i virtPage => exact returnsAs_onSpace s i (fun a => .bind (h _ a _) fun _ => .refl _) x hx
  | read i addr bytes => exact returnsAs_onSpace s i (fun a => .bind (h.readFrom _ _ _ _ _ a) fun _ => .refl _) x hx
  | write i addr str bytes =>
    exact returnsAs_onSpace s i (fun a => .bind (h.writeFrom _ _ _ _ _ _ a) fun _ => .refl _) x hx
  | readMem i addr size => exact hx
  | writeMem i addr size value => exact hx

end Watched

/-! ## Well-formed spaces -/

def Ok (s : Vm) : Prop := ∀ i a, s.spaces i = some a → a.Ok

theorem Ok.set (h : s.Ok) (ha : a.Ok) (m : Memory) : (s.set i a m).Ok := by
  intro j b hb
  rcases spaces_set_eq_some hb with ⟨rfl, rfl⟩ | ⟨-, hb⟩
  · exact ha
  · exact h j b hb

theorem keeps_ok (fs : Programs) (fuel : ℕ) : Keeps fs (loadPage fs fuel) Ok where
  build _ _ _ _ _ _ h hbuild := h.set (construct_eq_ok hbuild).1 _
  load _ i a _ _ _ m' h ha hload := h.set (loadPage_ok (h i a ha) hload).1 m'
  bytes _ _ h := h
  touch s i a v w h ha hv := by
    have he := (h i a ha).entry v hv
    have htouched : ((a.pageTable v).touched w).Ok v := ⟨he.index, he.frame, he.writable⟩
    exact h.set ((h i a ha).setEntry htouched) s.memory

theorem Reached.ok (h : Reached s) : s.Ok := by
  apply Reachable.invariant Ok _ _ h
  · intro s hs i a ha
    rw [hs.spaces i] at ha
    cases ha
  · rintro s q s' hs _ ⟨fuel, result, hstep⟩
    exact (keeps_ok q.fs fuel).step hs hstep

/-! ## Extending a run -/

theorem onSpace_of_some {call : AddrSpace → Call (VmResult × AddrSpace × Memory)} (ha : s.spaces i = some a)
    (hcall : call a = .ok (result, a', m')) : s.onSpace i call = .ok (result, s.set i a' m') := by
  unfold onSpace
  rw [ha]
  dsimp only
  rw [hcall, ok_bind]
  rfl

section Extend

variable {fs : Programs} {fuel : ℕ}

theorem step_build (i : ℕ) (load : Loader) (hbuild : AddrSpace.construct fs junk words name = .ok a) :
    s.step fs load (.construct i junk words name) = .ok (.done, s.set i a s.memory) := by
  dsimp only [step]
  rw [hbuild, ok_bind]
  rfl

theorem step_load (fs : Programs) {load : Loader} (ha : s.spaces i = some a) {v r : Int}
    (hload : load s.memory a v = .ok (r, a', m')) : s.step fs load (.load i v) = .ok (.frame r, s.set i a' m') := by
  apply onSpace_of_some ha
  rw [hload]
  rfl

theorem step_write (fs : Programs) {load : Loader} (ha : s.spaces i = some a)
    (hwrite : a.write load s.memory addr str bytes = .ok (a', m')) :
    s.step fs load (.write i addr str bytes) = .ok (.done, s.set i a' m') := by
  apply onSpace_of_some ha
  rw [hwrite]
  rfl

theorem step_read (fs : Programs) {load : Loader} (ha : s.spaces i = some a) {buf : List UInt8}
    (hread : a.read load s.memory addr bytes = .ok (buf, a', m')) :
    s.step fs load (.read i addr bytes) = .ok (.bytes buf, s.set i a' m') := by
  apply onSpace_of_some ha
  rw [hread]
  rfl

theorem step_readMem (fs : Programs) (load : Loader) (ha : s.spaces i = some a) {table : PageTable}
    (hread : Nachos.readMem a.pageTable a.numPages s.memory.mainMemory addr size = .ok (.ok (value, table))) :
    s.step fs load (.readMem i addr size) =
      .ok (.value value, s.set i { a with pageTable := table } s.memory) := by
  apply onSpace_of_some ha
  rw [hread]
  rfl

theorem step_readMem_raised (fs : Programs) (load : Loader) (ha : s.spaces i = some a) {exception : ExceptionType}
    (hread : Nachos.readMem a.pageTable a.numPages s.memory.mainMemory addr size = .ok (.error exception)) :
    s.step fs load (.readMem i addr size) = .ok (.raised exception, s) := by
  have hstep : s.step fs load (.readMem i addr size) = .ok (.raised exception, s.set i a s.memory) := by
    apply onSpace_of_some ha
    rw [hread]
    rfl
  rwa [set_self ha] at hstep

theorem step_writeMem (fs : Programs) (load : Loader) (ha : s.spaces i = some a) {mem : Image} {table : PageTable}
    (hwrite : Nachos.writeMem a.pageTable a.numPages s.memory.mainMemory addr size value = .ok (.ok (mem, table))) :
    s.step fs load (.writeMem i addr size value) =
      .ok (.done, s.set i { a with pageTable := table } { s.memory with mainMemory := mem }) := by
  apply onSpace_of_some ha
  rw [hwrite]
  rfl

theorem Reached.next (h : Reached s) (hstep : s.step fs (loadPage fs fuel) op = .ok (result, s')) : Reached s' :=
  Reachable.next (l := ⟨fs, op⟩) h trivial ⟨fuel, result, hstep⟩

theorem Reached.build (h : Reached s) (i : ℕ)
    (hbuild : AddrSpace.construct fs junk words name = .ok a) : Reached (s.set i a s.memory) :=
  h.next (step_build i (loadPage fs 0) hbuild)

theorem Reached.load (h : Reached s) (ha : s.spaces i = some a) {v r : Int}
    (hload : loadPage fs fuel s.memory a v = .ok (r, a', m')) : Reached (s.set i a' m') :=
  h.next (step_load fs ha hload)

theorem Reached.write (h : Reached s) (ha : s.spaces i = some a)
    (hwrite : a.write (loadPage fs fuel) s.memory addr str bytes = .ok (a', m')) : Reached (s.set i a' m') :=
  h.next (step_write fs ha hwrite)

end Extend

/-! ## A program without segments -/

theorem Booted.firstFree (h : s.Booted) : Nachos.firstFree s.memory = some 0 := by
  apply firstFree_eq_some.mpr
  refine ⟨by decide, h.free 0, ?_⟩
  intro j hj
  omega

theorem exists_booted : ∃ s, Booted s ∧ s.memory.mainMemory = fun _ => 0 := by
  obtain ⟨sectors, hnew, -⟩ := @BitMap.new_spec (fun _ => 0#32) numSectors
  exact ⟨⟨fun _ => none, ⟨fun _ => 0, sectors, fun _ => 0, fun _ _ => 0⟩⟩,
    ⟨fun _ => rfl, fun _ => rfl, _, hnew⟩, rfl⟩

end Vm

theorem construct_of_header {fs : Programs} {f : Executable} {noffH : NoffHeader} (words : ℕ → BitVec 32)
    (hopen : fs name = some f) (hfetch : NoffHeader.fetch f junk = .ok noffH) (hmagic : noffH.noffMagic = noffMagic)
    {n : ℕ} (hpages : divRoundUp noffH.spaceSize pageSize = n) (hn : n ≤ numPhysPages) :
    ∃ a, AddrSpace.construct fs junk words name = .ok a ∧ a.noffH = noffH ∧ a.numPages = n ∧
      a.victumOffset = 0 := by
  obtain ⟨onDisk, hnew, -⟩ := @BitMap.new_spec words n
  unfold AddrSpace.construct
  rw [hopen]
  dsimp only
  rw [hfetch, ok_bind, if_neg (not_not.mpr hmagic), hpages, if_pos ⟨by omega, by omega⟩, hnew, ok_bind]
  exact ⟨_, rfl, rfl, Int.toNat_natCast n, rfl⟩

section Access

variable {load : Loader} {v j f : ℕ} {r : Int}

theorem locate_of_loaded (hv : v < a.numPages) (hj : j < 128) (hf : f < numPhysPages)
    (hens : ensureLoaded load m a v = .ok (a', m')) (hframe : (a'.pageTable v).physicalPage = f) :
    locate load m a ((v * 128 + j : ℕ) : Int) = .ok (f * 128 + j, a', m') := by
  have hdiv : (((v * 128 + j : ℕ) : Int)).tdiv pageSize = v := by
    rw [Int.tdiv_eq_ediv_of_nonneg (by omega)]
    simp only [pageSize, sectorSize]
    omega
  have hmod : (((v * 128 + j : ℕ) : Int)).tmod pageSize = j := by
    rw [Int.tmod_eq_emod_of_nonneg (by omega)]
    simp only [pageSize, sectorSize]
    omega
  simp only [numPhysPages] at hf
  unfold locate
  dsimp only
  rw [hdiv, hmod, if_pos ⟨by omega, by omega⟩, Int.toNat_natCast, hens, ok_bind]
  dsimp only
  rw [hframe, if_pos ?_]
  · have hphys : ((f : Int) * ((pageSize : ℕ) : Int) + (j : Int)).toNat = f * 128 + j := by
      simp only [pageSize, sectorSize]
      omega
    rw [hphys]
    rfl
  · simp only [memorySize, numPhysPages, pageSize, sectorSize]
    omega

theorem ensureLoaded_of_absent (h : (a.pageTable v).valid = false) (hload : load m a v = .ok (r, a', m')) :
    ensureLoaded load m a v = .ok (a', m') := by
  unfold ensureLoaded
  rw [if_pos (Or.inl h), hload]
  rfl

theorem write_one (load : Loader) (m : Memory) (a : AddrSpace) (addr : Int) (str : Image) :
    a.write load m addr str 1 = do
      let (phys, a, m) ← locate load m a (int32 (addr + (0 : ℕ)))
      return (a, m.setByte phys (str 0)) := by
  unfold AddrSpace.write
  rw [show bufferSize = 999 + 1 from rfl, writeFrom, if_pos (by decide)]
  rfl

theorem read_one (load : Loader) (m : Memory) (a : AddrSpace) (addr : Int) :
    a.read load m addr 1 = do
      let (phys, a, m) ← locate load m a (int32 (addr + (0 : ℕ)))
      return ([m.mainMemory phys], a, m) := by
  unfold AddrSpace.read
  rw [show bufferSize = 999 + 1 from rfl, readFrom, if_pos (by decide)]
  rfl

theorem AddrSpace.Ok.int32_addr (h : a.Ok) (hv : v < a.numPages) (hj : j < 128) :
    int32 (((v * 128 + j : ℕ) : Int) + (0 : ℕ)) = ((v * 128 + j : ℕ) : Int) := by
  obtain ⟨hlo, hhi, k, hk⟩ := int32_spec (((v * 128 + j : ℕ) : Int) + (0 : ℕ))
  have hfits := h.fits
  simp only [numPhysPages] at hfits
  omega

/-- A byte written to a page that is loaded for it. -/
theorem write_resident (h : a.Ok) (hv : v < a.numPages) (hj : j < 128) (hf : f < numPhysPages)
    (hinvalid : (a.pageTable v).valid = false) (hload : load m a v = .ok (r, a.resident v f, m')) (str : Image) :
    a.write load m ((v * 128 + j : ℕ) : Int) str 1 =
      .ok (a.resident v f, m'.setByte (f * 128 + j) (str 0)) := by
  have hframe : ((a.resident v f).pageTable v).physicalPage = f := by simp [AddrSpace.resident]
  rw [write_one, h.int32_addr hv hj, locate_of_loaded hv hj hf (ensureLoaded_of_absent hinvalid hload) hframe,
    ok_bind]
  rfl

end Access

/-- A file system in which every name stands for one file. -/
def onlyFile (f : Executable) : Programs := fun _ => some f

/-- Neither code nor initialised data, and three kilobytes that start as zeros: 32 pages. -/
def blankFile : Executable where
  bytes := [0xad, 0xdf, 0xba, 0] ++ List.replicate 32 0 ++ [0, 12, 0, 0]
  fits := by decide

def blankHeader : NoffHeader where
  noffMagic := 0xbadfad
  code := ⟨0, 0, 0⟩
  initData := ⟨0, 0, 0⟩
  uninitData := ⟨0, 0, 3072⟩

theorem blankFile_header : NoffHeader.fetch blankFile (fun _ => 0) = .ok blankHeader := rfl

theorem blank_not_onPage (h : a.noffH = blankHeader) (v : Int) :
    ¬ a.noffH.code.OnPage v ∧ ¬ a.noffH.initData.OnPage v := by
  rw [h]
  exact ⟨fun hon => absurd hon.1 (by decide), fun hon => absurd hon.1 (by decide)⟩

theorem blank_construct (name : FileName) :
    ∃ a, AddrSpace.construct (onlyFile blankFile) (fun _ => 0) (fun _ => 0#32) name = .ok a ∧
      a.noffH = blankHeader ∧ a.numPages = 32 ∧ a.victumOffset = 0 :=
  construct_of_header (fun _ => 0#32) rfl blankFile_header rfl (show divRoundUp _ _ = _ by decide) (by decide)

/-- Eight bytes of code at address `0`: a string with its NUL, and three bytes after it. -/
def noteFile : Executable where
  bytes := [0xad, 0xdf, 0xba, 0, 0, 0, 0, 0, 40, 0, 0, 0, 8, 0, 0, 0] ++ List.replicate 24 0 ++
    [110, 111, 116, 101, 0, 1, 2, 3]
  fits := by decide

def noteHeader : NoffHeader where
  noffMagic := 0xbadfad
  code := ⟨0, 40, 8⟩
  initData := ⟨0, 0, 0⟩
  uninitData := ⟨0, 0, 0⟩

theorem note_construct (name : FileName) :
    ∃ a, AddrSpace.construct (onlyFile noteFile) (fun _ => 0) (fun _ => 0#32) name = .ok a ∧
      a.noffH = noteHeader ∧ a.numPages = 9 ∧ a.victumOffset = 0 := by
  have hfetch : NoffHeader.fetch noteFile (fun _ => 0) = .ok noteHeader := rfl
  exact construct_of_header (fun _ => 0#32) rfl hfetch rfl (show divRoundUp _ _ = _ by decide) (by decide)

/-- After power-on the first page of a blank program goes into frame `0`. -/
theorem Vm.Booted.load_blank (hboot : s.Booted) (ha : AddrSpace.construct (onlyFile blankFile) junk words name = .ok a)
    (hblank : a.noffH = blankHeader) (hpages : a.numPages = 32) :
    loadPage (onlyFile blankFile) 0 s.memory a (0 : ℕ) =
      .ok ((0 : ℕ), a.resident 0 0, (s.memory.taken 0).zeroed 0) := by
  obtain ⟨hok, -, htable, -⟩ := construct_eq_ok ha
  have hinvalid : (a.pageTable 0).valid = false := by
    rw [htable]
    rfl
  obtain ⟨hcode, hdata⟩ := blank_not_onPage hblank 0
  exact loadPage_blank hok (by omega) hinvalid hboot.firstFree hcode hdata 0

theorem write_blank (h : a.Ok) (hblank : a.noffH = blankHeader) {v j f : ℕ} (hv : v < a.numPages) (hj : j < 128)
    (hinvalid : (a.pageTable v).valid = false) (hfree : firstFree m = some f) (fs : Programs) (fuel : ℕ)
    (str : Image) :
    a.write (loadPage fs fuel) m ((v * 128 + j : ℕ) : Int) str 1 =
      .ok (a.resident v f, ((m.taken f).zeroed f).setByte (f * 128 + j) (str 0)) := by
  exact write_resident h hv hj (firstFree_eq_some.mp hfree).1 hinvalid
    (loadPage_blank h hv hinvalid hfree (blank_not_onPage hblank v).1 (blank_not_onPage hblank v).2 fuel) str

end Nachos
