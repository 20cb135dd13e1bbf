import Nachos.Machine.MipsSim

/-! # Interrupts and restarts between two instructions

An interrupt applies the pending delayed load before the next instruction, and so does an exception
before the instruction that raised it is executed again. Two machines that differ in this way execute an
instruction alike unless it uses the register of the pending load itself. -/
set_option autoImplicit false

namespace Nachos
open Buffer Execution Raising

variable {s t : Cpu} {r r' : ℕ → BitVec 32} {target : ℕ} {instr : Instruction}

/-! ## Two machines that differ in some registers -/

/-- The machines hold `r` and `r'` in the registers of `D`, and the same in all others. -/
structure Twin (D : ℕ → Prop) (r r' : ℕ → BitVec 32) (s t : Cpu) : Prop where
  same : ∀ k, ¬ D k → t.registers k = s.registers k
  left : ∀ k, D k → s.registers k = r k
  right : ∀ k, D k → t.registers k = r' k
  table : SameMappings s.pageTable t.pageTable
  size : t.pageTableSize = s.pageTableSize
  memory : t.mainMemory = s.mainMemory

structure RaisedTwin (D : ℕ → Prop) (r r' : ℕ → BitVec 32) (x y : Raised) : Prop where
  cpu : Twin D r r' x.cpu y.cpu
  which : y.which = x.which
  badVAddr : y.badVAddr = x.badVAddr

structure ExecutedTwin (D : ℕ → Prop) (r r' : ℕ → BitVec 32) (x y : Executed) : Prop where
  cpu : Twin D r r' x.cpu y.cpu
  pcAfter : y.pcAfter = x.pcAfter
  nextLoadReg : y.nextLoadReg = x.nextLoadReg
  nextLoadValue : x.nextLoadReg ≠ 0#32 → y.nextLoadValue = x.nextLoadValue

section Twin

variable {D : ℕ → Prop}

theorem Twin.set (h : Twin D r r' s t) {k : ℕ} (hk : ¬ D k) (v : BitVec 32) :
    Twin D r r' (s.set k v) (t.set k v) where
  same j hj := by
    by_cases hjk : j = k
    · subst hjk
      simp [Cpu.set]
    · simp only [Cpu.set, Function.update_of_ne hjk]
      exact h.same j hj
  left j hj := by
    have hjk : j ≠ k := by
      rintro rfl
      exact hk hj
    simp only [Cpu.set, Function.update_of_ne hjk]
    exact h.left j hj
  right j hj := by
    have hjk : j ≠ k := by
      rintro rfl
      exact hk hj
    simp only [Cpu.set, Function.update_of_ne hjk]
    exact h.right j hj
  table := h.table
  size := h.size
  memory := h.memory

theorem Twin.with_table (h : Twin D r r' s t) {table table' : PageTable} (htable : SameMappings table table')
    (n : ℕ) (mem : Image) : Twin D r r' ⟨s.registers, table, n, mem⟩ ⟨t.registers, table', n, mem⟩ :=
  ⟨h.same, h.left, h.right, htable, rfl, rfl⟩

theorem Twin.next (h : Twin D r r' s t) (hnext : ¬ D nextPCReg) : ExecutedTwin D r r' s.next t.next :=
  ⟨h, congrArg (· + 4#32) (h.same _ hnext), rfl, fun _ => rfl⟩

theorem Twin.jump (h : Twin D r r' s t) (pcAfter : BitVec 32) :
    ExecutedTwin D r r' (s.jump pcAfter) (t.jump pcAfter) :=
  ⟨h, rfl, rfl, fun _ => rfl⟩

theorem Twin.branch (h : Twin D r r' s t) (hnext : ¬ D nextPCReg) (taken : Bool) (extra : BitVec 32) :
    ExecutedTwin D r r' (s.branch taken extra) (t.branch taken extra) := by
  refine ⟨h, ?_, rfl, fun _ => rfl⟩
  simp only [Cpu.branch, Cpu.jump, h.same _ hnext]

theorem Twin.put (h : Twin D r r' s t) (hnext : ¬ D nextPCReg) {k : ℕ} (hk : ¬ D k) (v : BitVec 32) :
    ExecutedTwin D r r' (s.put k v) (t.put k v) :=
  (h.set hk v).next hnext

theorem Twin.putHiLo (h : Twin D r r' s t) (hnext : ¬ D nextPCReg) (hhi : ¬ D hiReg) (hlo : ¬ D loReg)
    (hi lo : BitVec 32) : ExecutedTwin D r r' (s.putHiLo hi lo) (t.putHiLo hi lo) :=
  ((h.set hlo lo).set hhi hi).next hnext

theorem Twin.raise (h : Twin D r r' s t) (which : ExceptionType) (addr : BitVec 32) :
    RaisedTwin D r r' ⟨s, which, addr⟩ ⟨t, which, addr⟩ := ⟨h, rfl, rfl⟩

theorem Twin.putUnless (h : Twin D r r' s t) (hnext : ¬ D nextPCReg) (overflow : Bool) {k : ℕ} (hk : ¬ D k)
    (v : BitVec 32) :
    Alike (RaisedTwin D r r') (ExecutedTwin D r r') (s.putUnless overflow k v) (t.putUnless overflow k v) := by
  cases overflow with
  | true => exact .raise (h.raise _ _)
  | false => exact .value (h.put hnext hk v)

theorem Twin.readMem (h : Twin D r r' s t) (addr : BitVec 32) (size : Int) :
    Alike (RaisedTwin D r r') (fun x y => y.1 = x.1 ∧ Twin D r r' x.2 y.2) (s.readMem addr size)
      (t.readMem addr size) := by
  have htrans := translate_sameMappings h.table s.pageTableSize addr.toInt size false
  unfold Cpu.readMem Nachos.readMem
  rw [h.size, h.memory]
  generalize translate s.pageTable s.pageTableSize addr.toInt size false = x at htrans ⊢
  generalize translate t.pageTable s.pageTableSize addr.toInt size false = y at htrans ⊢
  cases htrans with
  | fail trap => exact .fail trap
  | raise which => exact .raise (h.raise which addr)
  | value phys htable =>
    simp only [ok_bind]
    cases valueAt s.mainMemory phys size with
    | error trap => exact .fail trap
    | ok value => exact .value ⟨rfl, h.with_table htable _ _⟩

theorem Twin.writeMem (h : Twin D r r' s t) (addr : BitVec 32) (size : Int) (value : BitVec 32) :
    Alike (RaisedTwin D r r') (Twin D r r') (s.writeMem addr size value) (t.writeMem addr size value) := by
  have htrans := translate_sameMappings h.table s.pageTableSize addr.toInt size true
  unfold Cpu.writeMem Nachos.writeMem
  rw [h.size, h.memory]
  generalize translate s.pageTable s.pageTableSize addr.toInt size true = x at htrans ⊢
  generalize translate t.pageTable s.pageTableSize addr.toInt size true = y at htrans ⊢
  cases htrans with
  | fail trap => exact .fail trap
  | raise which => exact .raise (h.raise which addr)
  | value phys htable =>
    simp only [ok_bind]
    cases putValue s.mainMemory phys size value.toInt with
    | error trap => exact .fail trap
    | ok mem => exact .value (h.with_table htable _ mem)

theorem Twin.loadWith (h : Twin D r r' s t) (hnext : ¬ D nextPCReg) (tmp : BitVec 32) (size : Int) (rt : ℕ)
    (extend : BitVec 32 → BitVec 32) :
    Alike (RaisedTwin D r r') (ExecutedTwin D r r') (s.loadWith tmp size rt extend)
      (t.loadWith tmp size rt extend) := by
  apply (h.readMem tmp size).bind
  rintro ⟨value, s'⟩ ⟨value', t'⟩ ⟨hvalue, h'⟩
  dsimp only at hvalue h' ⊢
  subst hvalue
  exact .value ⟨h', congrArg (· + 4#32) (h'.same _ hnext), rfl, fun _ => rfl⟩

theorem Twin.store (h : Twin D r r' s t) (hnext : ¬ D nextPCReg) (tmp : BitVec 32) (size : Int) (value : BitVec 32) :
    Alike (RaisedTwin D r r') (ExecutedTwin D r r') (s.store tmp size value) (t.store tmp size value) := by
  apply (h.writeMem tmp size value).bind
  intro s' t' h'
  exact .value (h'.next hnext)

theorem Twin.storeMerge (h : Twin D r r' s t) (hnext : ¬ D nextPCReg) (tmp : BitVec 32)
    (merge : BitVec 32 → BitVec 32) :
    Alike (RaisedTwin D r r') (ExecutedTwin D r r') (s.storeMerge tmp merge) (t.storeMerge tmp merge) := by
  unfold Cpu.storeMerge
  split
  · exact .fail _
  · apply (h.readMem _ 4).bind
    rintro ⟨value, s'⟩ ⟨value', t'⟩ ⟨hvalue, h'⟩
    dsimp only at hvalue h' ⊢
    subst hvalue
    exact h'.store hnext _ _ _

theorem Twin.divide (h : Twin D r r' s t) (hnext : ¬ D nextPCReg) (hhi : ¬ D hiReg) (hlo : ¬ D loReg)
    (a b : BitVec 32) : Alike (RaisedTwin D r r') (ExecutedTwin D r r') (s.divide a b) (t.divide a b) := by
  unfold Cpu.divide
  split
  · exact .value (h.putHiLo hnext hhi hlo _ _)
  · split
    · exact .fail _
    · exact .value (h.putHiLo hnext hhi hlo _ _)

end Twin

/-! ## The pending load -/

/-- The registers in which an early delayed load into register `target` makes a difference. -/
def Pending (target k : ℕ) : Prop := k = loadReg ∨ k = loadValueReg ∨ k = badVAddrReg ∨ (target ≠ 0 ∧ k = target)

/-- The registers before and after the delayed load. -/
structure Loaded (target : ℕ) (r r' : ℕ → BitVec 32) : Prop where
  pending : r loadReg = BitVec.ofNat 32 target
  range : target < numTotalRegs
  done : r' loadReg = 0#32
  value : target ≠ 0 → target < loadReg → r' target = r loadValueReg

theorem ofNat_inj {a b : ℕ} (ha : a < numTotalRegs) (hb : b < numTotalRegs)
    (h : BitVec.ofNat 32 a = BitVec.ofNat 32 b) : a = b := by
  have htoNat := congrArg BitVec.toNat h
  simp only [BitVec.toNat_ofNat, numTotalRegs] at htoNat ha hb
  omega

/-- A partial load finds the register with the pending load in it. -/
theorem Twin.pendingValue (h : Twin (Pending target) r r' s t) (hl : Loaded target r r') {rt : ℕ} (hrt : rt < 32)
    (hne : rt ≠ 0) : t.pendingValue rt = s.pendingValue rt := by
  have hrange : rt < numTotalRegs := by
    simp only [numTotalRegs]
    omega
  have ht : t.registers loadReg ≠ BitVec.ofNat 32 rt := by
    rw [h.right _ (Or.inl rfl), hl.done]
    intro heq
    exact hne (ofNat_inj (by decide) hrange heq).symm
  unfold Cpu.pendingValue
  rw [if_neg ht, h.left _ (Or.inl rfl), hl.pending]
  by_cases heq : rt = target
  · subst heq
    rw [if_pos rfl, h.right rt (Or.inr (Or.inr (Or.inr ⟨hne, rfl⟩))),
      hl.value hne (by simp only [loadReg]; omega), h.left _ (Or.inr (Or.inl rfl))]
  · rw [if_neg fun hpend => heq (ofNat_inj hl.range hrange hpend).symm]
    apply h.same
    simp only [Pending, loadReg, loadValueReg, badVAddrReg]
    omega

theorem Twin.loadMerge (h : Twin (Pending target) r r' s t) (hl : Loaded target r r')
    (hnext : ¬ Pending target nextPCReg) (tmp : BitVec 32) {rt : ℕ} (hrt : rt < 32)
    (merge : BitVec 32 → BitVec 32 → BitVec 32) :
    Alike (RaisedTwin (Pending target) r r') (ExecutedTwin (Pending target) r r') (s.loadMerge tmp rt merge)
      (t.loadMerge tmp rt merge) := by
  unfold Cpu.loadMerge
  split
  · exact .fail _
  · apply (h.readMem tmp 4).bind
    rintro ⟨value, s'⟩ ⟨value', t'⟩ ⟨hvalue, h'⟩
    dsimp only at hvalue h' ⊢
    subst hvalue
    refine .value ⟨h', congrArg (· + 4#32) (h'.same _ hnext), rfl, fun hload => ?_⟩
    have hne : rt ≠ 0 := by
      rintro rfl
      exact hload rfl
    exact congrArg (merge value') (h'.pendingValue hl hrt hne)

/-! ## Instructions -/

/-- The registers that an instruction reads or writes, apart from those that every instruction uses. The
register of a load is written later, by the load that it leaves pending. -/
def Instruction.touches (instr : Instruction) : List ℕ :=
  match instr.opCode with
  | .add | .addu | .and | .nor | .slt | .sltu | .sllv | .srav | .srlv | .sub | .subu | .xor =>
    [instr.rs, instr.rt, instr.rd]
  | .addi | .addiu | .andi | .ori | .xori | .slti | .sltiu | .beq | .bne | .sb | .sh | .sw | .swl | .swr =>
    [instr.rs, instr.rt]
  | .or | .jalr => [instr.rs, instr.rd]
  | .sll | .sra | .srl => [instr.rt, instr.rd]
  | .lui => [instr.rt]
  | .bgez | .bgtz | .blez | .bltz | .jr | .lb | .lbu | .lh | .lhu | .lw | .lwl | .lwr => [instr.rs]
  | .bgezal | .bltzal => [instr.rs, retAddrReg]
  | .jal => [retAddrReg]
  | .div | .divu | .mult | .multu => [instr.rs, instr.rt, hiReg, loReg]
  | .mfhi => [instr.rd, hiReg]
  | .mflo => [instr.rd, loReg]
  | .mthi => [instr.rs, hiReg]
  | .mtlo => [instr.rs, loReg]
  | .j | .syscall | .unimp | .res | .rfe => []

section Members

variable {p : ℕ → Prop} {a b c d : ℕ}

theorem forall_pair (h : ∀ k ∈ [a, b], p k) : p a ∧ p b := by simpa using h

theorem forall_triple (h : ∀ k ∈ [a, b, c], p k) : p a ∧ p b ∧ p c := by simpa using h

theorem forall_quadruple (h : ∀ k ∈ [a, b, c, d], p k) : p a ∧ p b ∧ p c ∧ p d := by simpa using h

end Members

theorem Twin.execute (h : Twin (Pending target) r r' s t) (hl : Loaded target r r')
    (hnext : ¬ Pending target nextPCReg) (hrt : instr.rt < 32) (htouches : ∀ k ∈ instr.touches, ¬ Pending target k) :
    Alike (RaisedTwin (Pending target) r r') (ExecutedTwin (Pending target) r r') (s.execute instr)
      (t.execute instr) := by
  have hpc := h.same _ hnext
  obtain ⟨op, rs, rt, rd, extra⟩ := instr
  cases op with
  | add | sub =>
    obtain ⟨hs, ht, hd⟩ := forall_triple htouches
    simp only [Cpu.execute, h.same _ hs, h.same _ ht]
    exact h.putUnless hnext _ hd _
  | addu | and | nor | slt | sltu | sllv | srav | srlv | subu | xor =>
    obtain ⟨hs, ht, hd⟩ := forall_triple htouches
    simp only [Cpu.execute, h.same _ hs, h.same _ ht]
    exact .value (h.put hnext hd _)
  | addi =>
    obtain ⟨hs, ht⟩ := forall_pair htouches
    simp only [Cpu.execute, h.same _ hs]
    exact h.putUnless hnext _ ht _
  | addiu | andi | ori | xori | slti | sltiu =>
    obtain ⟨hs, ht⟩ := forall_pair htouches
    simp only [Cpu.execute, h.same _ hs]
    exact .value (h.put hnext ht _)
  | beq | bne =>
    obtain ⟨hs, ht⟩ := forall_pair htouches
    simp only [Cpu.execute, h.same _ hs, h.same _ ht]
    exact .value (h.branch hnext _ _)
  | sb | sh | sw =>
    obtain ⟨hs, ht⟩ := forall_pair htouches
    simp only [Cpu.execute, h.same _ hs, h.same _ ht]
    exact h.store hnext _ _ _
  | swl | swr =>
    obtain ⟨hs, ht⟩ := forall_pair htouches
    simp only [Cpu.execute, h.same _ hs, h.same _ ht]
    exact h.storeMerge hnext _ _
  | or =>
    obtain ⟨hs, hd⟩ := forall_pair htouches
    simp only [Cpu.execute, h.same _ hs]
    exact .value (h.put hnext hd _)
  | jalr =>
    obtain ⟨hs, hd⟩ := forall_pair htouches
    have hset := h.set hd (s.registers nextPCReg + 4#32)
    simp only [Cpu.execute, hpc, hset.same _ hs]
    exact .value (hset.jump _)
  | sll | sra | srl =>
    obtain ⟨ht, hd⟩ := forall_pair htouches
    simp only [Cpu.execute, h.same _ ht]
    exact .value (h.put hnext hd _)
  | lui =>
    exact .value (h.put hnext (htouches rt (List.mem_singleton_self rt)) _)
  | bgez | bgtz | blez | bltz =>
    simp only [Cpu.execute, h.same _ (htouches rs (List.mem_singleton_self rs))]
    exact .value (h.branch hnext _ _)
  | jr =>
    simp only [Cpu.execute, h.same _ (htouches rs (List.mem_singleton_self rs))]
    exact .value (h.jump _)
  | lb | lbu =>
    simp only [Cpu.execute, h.same _ (htouches rs (List.mem_singleton_self rs))]
    exact h.loadWith hnext _ _ _ _
  | lh | lhu | lw =>
    simp only [Cpu.execute, h.same _ (htouches rs (List.mem_singleton_self rs))]
    split
    · exact .raise (h.raise _ _)
    · exact h.loadWith hnext _ _ _ _
  | lwl | lwr =>
    simp only [Cpu.execute, h.same _ (htouches rs (List.mem_singleton_self rs))]
    exact h.loadMerge hl hnext _ hrt _
  | bgezal | bltzal =>
    obtain ⟨hs, hra⟩ := forall_pair htouches
    have hset := h.set hra (s.registers nextPCReg + 4#32)
    simp only [Cpu.execute, hpc, hset.same _ hs]
    exact .value (hset.branch hnext _ _)
  | jal =>
    simp only [Cpu.execute, hpc]
    exact .value ((h.set (htouches retAddrReg (List.mem_singleton_self _)) _).jump _)
  | j =>
    simp only [Cpu.execute, hpc]
    exact .value (h.jump _)
  | div =>
    obtain ⟨hs, ht, hhi, hlo⟩ := forall_quadruple htouches
    simp only [Cpu.execute, h.same _ hs, h.same _ ht]
    exact h.divide hnext hhi hlo _ _
  | divu =>
    obtain ⟨hs, ht, hhi, hlo⟩ := forall_quadruple htouches
    simp only [Cpu.execute, h.same _ hs, h.same _ ht]
    split
    · exact .value (h.putHiLo hnext hhi hlo _ _)
    · exact .value (h.putHiLo hnext hhi hlo _ _)
  | mult | multu =>
    obtain ⟨hs, ht, hhi, hlo⟩ := forall_quadruple htouches
    simp only [Cpu.execute, h.same _ hs, h.same _ ht]
    exact .value (h.putHiLo hnext hhi hlo _ _)
  | mfhi | mflo =>
    obtain ⟨hd, hfrom⟩ := forall_pair htouches
    simp only [Cpu.execute, h.same _ hfrom]
    exact .value (h.put hnext hd _)
  | mthi | mtlo =>
    obtain ⟨hs, hto⟩ := forall_pair htouches
    simp only [Cpu.execute, h.same _ hs]
    exact .value (h.put hnext hto _)
  | syscall | unimp | res => exact .raise (h.raise _ _)
  | rfe => exact .fail _

theorem touches_lt (h : instr.rs < 32 ∧ instr.rt < 32 ∧ instr.rd < 32) : ∀ k ∈ instr.touches, k < pcReg := by
  intro k hk
  simp only [pcReg]
  unfold Instruction.touches at hk
  split at hk <;> simp only [List.mem_cons, List.not_mem_nil, or_false, retAddrReg, hiReg, loReg] at hk <;> omega

theorem Twin.fetch {D : ℕ → Prop} (h : Twin D r r' s t) (hpc : ¬ D pcReg) :
    Alike (RaisedTwin D r r') (fun x y => y.1 = x.1 ∧ (x.1.rs < 32 ∧ x.1.rt < 32 ∧ x.1.rd < 32) ∧ Twin D r r' x.2 y.2)
      s.fetch t.fetch := by
  unfold Cpu.fetch
  rw [h.same _ hpc]
  apply (h.readMem _ 4).bind
  rintro ⟨raw, s'⟩ ⟨raw', t'⟩ ⟨hraw, h'⟩
  dsimp only at hraw h' ⊢
  subst hraw
  exact .value ⟨rfl, Cpu.decode_fields _, h'⟩

/-! ## After the instruction -/

/-- The same registers but for `BadVAddrReg` and the value of a load into register `0`, the same memory
and the same mapping of pages. -/
structure SameAfter (s t : Cpu) : Prop where
  registers : ∀ k, k ≠ badVAddrReg → (k = loadValueReg → s.registers loadReg ≠ 0#32) →
    t.registers k = s.registers k
  memory : s.SameMemory t

theorem SameAfter.set (h : SameAfter s t) {k : ℕ} (hk : k ≠ loadReg) {v v' : BitVec 32} (hv : v' = v) :
    SameAfter (s.set k v) (t.set k v') := by
  subst hv
  refine ⟨?_, h.memory.memory, h.memory.size, h.memory.table⟩
  intro j hj hvalue
  by_cases hjk : j = k
  · subst hjk
    simp [Cpu.set]
  · simp only [Cpu.set, Function.update_of_ne hjk, Function.update_of_ne hk.symm] at hvalue ⊢
    exact h.registers j hj hvalue

/-- The early delayed load and the late one leave the same registers. -/
theorem loaded_same (h : Twin (Pending target) r r' s t) (hl : Loaded target r r')
    {nextReg nextValue nextValue' : BitVec 32} (hnext : nextReg ≠ 0#32 → nextValue' = nextValue) (k : ℕ)
    (hk : k ≠ badVAddrReg) (hvalue : k = loadValueReg → nextReg ≠ 0#32) :
    loaded t.registers 0 nextReg nextValue' k = loaded s.registers target nextReg nextValue k := by
  unfold loaded
  by_cases h0 : k = 0
  · simp only [if_pos h0]
  · simp only [if_neg h0]
    by_cases h1 : k = loadValueReg
    · simp only [if_pos h1]
      exact hnext (hvalue h1)
    · simp only [if_neg h1]
      by_cases h2 : k = loadReg
      · simp only [if_pos h2]
      · simp only [if_neg h2]
        by_cases h3 : k = target
        · subst h3
          have hlt : k < loadReg := by
            have hrange := hl.range
            simp only [loadReg, loadValueReg, badVAddrReg, numTotalRegs] at h1 h2 hk hrange ⊢
            omega
          rw [if_pos rfl, h.right k (Or.inr (Or.inr (Or.inr ⟨h0, rfl⟩))), hl.value h0 hlt,
            h.left _ (Or.inr (Or.inl rfl))]
        · rw [if_neg h3]
          apply h.same
          simp only [Pending]
          omega

theorem Twin.delayedLoad (h : Twin (Pending target) r r' s t) (hl : Loaded target r r')
    {nextReg nextValue nextValue' : BitVec 32} (hnext : nextReg ≠ 0#32 → nextValue' = nextValue) :
    ∃ s' t', s.delayedLoad nextReg nextValue = .ok s' ∧ t.delayedLoad nextReg nextValue' = .ok t' ∧
      SameAfter s' t' := by
  have htarget : (s.registers loadReg).toNat = target := by
    have hrange := hl.range
    rw [h.left _ (Or.inl rfl), hl.pending, BitVec.toNat_ofNat]
    simp only [numTotalRegs] at hrange
    omega
  have hzero : (t.registers loadReg).toNat = 0 := by
    rw [h.right _ (Or.inl rfl), hl.done]
    rfl
  have hs := delayedLoad_eq (r := s.registers) (by rw [htarget]; exact hl.range) nextReg nextValue
  have ht := delayedLoad_eq (r := t.registers) (by rw [hzero]; decide) nextReg nextValue'
  rw [htarget] at hs
  rw [hzero] at ht
  refine ⟨_, _, cpu_delayedLoad_eq hs, cpu_delayedLoad_eq ht, ?_, h.memory, h.size, h.table⟩
  intro k hk hvalue
  exact loaded_same h hl hnext k hk hvalue

theorem ExecutedTwin.finish {e e' : Executed} (h : ExecutedTwin (Pending target) r r' e e') (hl : Loaded target r r') :
    ∃ s' t', Cpu.finish e = .ok s' ∧ Cpu.finish e' = .ok t' ∧ SameAfter s' t' := by
  obtain ⟨s', t', hs, ht, hsame⟩ := h.cpu.delayedLoad hl h.nextLoadValue
  unfold Cpu.finish
  rw [h.nextLoadReg, hs, ht, h.pcAfter]
  refine ⟨_, _, rfl, rfl, ?_⟩
  have h1 := hsame.set (k := prevPCReg) (by decide) (hsame.registers pcReg (by decide) nofun)
  have h2 := h1.set (k := pcReg) (by decide) (h1.registers nextPCReg (by decide) nofun)
  exact h2.set (by decide) rfl

theorem RaisedTwin.raiseException {x y : Raised} (h : RaisedTwin (Pending target) r r' x y) (hl : Loaded target r r') :
    ∃ s' t', Cpu.raiseException x = .ok s' ∧ Cpu.raiseException y = .ok t' ∧ SameAfter s' t' := by
  have hbad : Twin (Pending target) (Function.update r badVAddrReg x.badVAddr)
      (Function.update r' badVAddrReg x.badVAddr) (x.cpu.set badVAddrReg x.badVAddr)
      (y.cpu.set badVAddrReg x.badVAddr) := by
    refine ⟨?_, ?_, ?_, h.cpu.table, h.cpu.size, h.cpu.memory⟩
    · intro k hk
      by_cases hk39 : k = badVAddrReg
      · subst hk39
        simp [Cpu.set]
      · simp only [Cpu.set, Function.update_of_ne hk39]
        exact h.cpu.same k hk
    · intro k hk
      by_cases hk39 : k = badVAddrReg
      · subst hk39
        simp [Cpu.set]
      · simp only [Cpu.set, Function.update_of_ne hk39]
        exact h.cpu.left k hk
    · intro k hk
      by_cases hk39 : k = badVAddrReg
      · subst hk39
        simp [Cpu.set]
      · simp only [Cpu.set, Function.update_of_ne hk39]
        exact h.cpu.right k hk
  have hload : Loaded target (Function.update r badVAddrReg x.badVAddr) (Function.update r' badVAddrReg x.badVAddr) := by
    refine ⟨hl.pending, hl.range, hl.done, ?_⟩
    intro h0 hlt
    have hne : target ≠ badVAddrReg := by
      simp only [loadReg, badVAddrReg] at hlt ⊢
      omega
    rw [Function.update_of_ne hne, hl.value h0 hlt]
    rfl
  unfold Cpu.raiseException
  rw [h.badVAddr]
  exact hbad.delayedLoad hload fun _ => rfl

/-! ## Transparency -/

/-- The next instruction does not use the register of the pending load. -/
structure Cpu.HazardFree (s : Cpu) : Prop where
  pc : (s.registers loadReg).toNat ≠ pcReg
  nextPC : (s.registers loadReg).toNat ≠ nextPCReg
  instr : ∀ instr s', s.fetch = pure (instr, s') → (s.registers loadReg).toNat ≠ 0 →
    (s.registers loadReg).toNat ∉ instr.touches

theorem Cpu.HazardFree.not_pending (h : s.HazardFree) {instr : Instruction} {s' : Cpu}
    (hfetch : s.fetch = pure (instr, s')) (hfields : instr.rs < 32 ∧ instr.rt < 32 ∧ instr.rd < 32) :
    ∀ k ∈ instr.touches, ¬ Pending (s.registers loadReg).toNat k := by
  intro k hk hpending
  have hlt := touches_lt hfields k hk
  simp only [Pending, pcReg, loadReg, loadValueReg, badVAddrReg] at hlt hpending
  rcases hpending with h37 | h38 | h39 | ⟨hne, heq⟩
  · omega
  · omega
  · omega
  · subst heq
    exact h.instr instr s' hfetch hne hk

/-- Machine `t` is `s` after the pending delayed load, whatever `BadVAddrReg` and the use and dirty bits
are by then. -/
structure Restarted (s t : Cpu) : Prop where
  registers : ∃ badVAddr,
    delayedLoad (Function.update s.registers badVAddrReg badVAddr) 0#32 0#32 = .ok t.registers
  memory : s.SameMemory t

theorem ofNat_toNat_self (x : BitVec 32) : BitVec.ofNat 32 x.toNat = x := by
  rw [BitVec.ofNat_toNat, BitVec.setWidth_eq]

theorem Restarted.twin (h : Restarted s t) (hr0 : s.registers 0 = 0#32) :
    Twin (Pending (s.registers loadReg).toNat) s.registers t.registers s t ∧
      Loaded (s.registers loadReg).toNat s.registers t.registers := by
  obtain ⟨badVAddr, hload⟩ := h.registers
  have hrange := delayedLoad_range hload
  have hreg := delayedLoad_eq_ok hload
  rw [Function.update_of_ne (by decide)] at hrange hreg
  have hother : ∀ k, k ≠ badVAddrReg → Function.update s.registers badVAddrReg badVAddr k = s.registers k :=
    fun k hk => Function.update_of_ne hk _ _
  refine ⟨⟨?_, fun _ _ => rfl, fun _ _ => rfl, h.memory.table, h.memory.size, h.memory.memory⟩,
    ⟨(ofNat_toNat_self _).symm, hrange, by rw [hreg]; rfl, ?_⟩⟩
  · intro k hk
    simp only [Pending, not_or, not_and] at hk
    obtain ⟨h37, h38, h39, htarget⟩ := hk
    rw [hreg]
    unfold loaded
    by_cases h0 : k = 0
    · rw [if_pos h0, h0, hr0]
    · have hne : k ≠ (s.registers loadReg).toNat := by
        intro heq
        exact htarget (heq ▸ h0) heq
      rw [if_neg h0, if_neg h38, if_neg h37, if_neg hne, hother k h39]
  · intro h0 hlt
    rw [hreg]
    unfold loaded
    have h38 : (s.registers loadReg).toNat ≠ loadValueReg := by
      simp only [loadReg, loadValueReg] at hlt ⊢
      omega
    rw [if_neg h0, if_neg h38, if_neg (Nat.ne_of_lt hlt), if_pos rfl, hother _ (by decide)]

theorem Restarted.oneInstruction (h : Restarted s t) (hr0 : s.registers 0 = 0#32) (hfree : s.HazardFree) :
    Alike (RaisedTwin (Pending (s.registers loadReg).toNat) s.registers t.registers) SameAfter s.oneInstruction
      t.oneInstruction := by
  obtain ⟨htwin, hl⟩ := h.twin hr0
  have hpc : ¬ Pending (s.registers loadReg).toNat pcReg := by
    rintro (h37 | h38 | h39 | ⟨-, heq⟩)
    · cases h37
    · cases h38
    · cases h39
    · exact hfree.pc heq.symm
  have hnext : ¬ Pending (s.registers loadReg).toNat nextPCReg := by
    rintro (h37 | h38 | h39 | ⟨-, heq⟩)
    · cases h37
    · cases h38
    · cases h39
    · exact hfree.nextPC heq.symm
  have hfetch := htwin.fetch hpc
  have hnot := @Cpu.HazardFree.not_pending s hfree
  unfold Cpu.oneInstruction
  generalize s.fetch = x at hfetch hnot ⊢
  generalize t.fetch = y at hfetch ⊢
  cases hfetch with
  | fail e => exact .fail e
  | raise hr => exact .raise hr
  | @value a b hab =>
    obtain ⟨instr, s'⟩ := a
    obtain ⟨instr', t'⟩ := b
    obtain ⟨hinstr, hfields, htwin'⟩ := hab
    dsimp only at hinstr hfields htwin'
    subst hinstr
    apply (htwin'.execute hl hnext hfields.2.1 (hnot rfl hfields)).bind
    intro e e' he
    obtain ⟨s'', t'', hs, ht, hsame⟩ := he.finish hl
    rw [hs, ht]
    exact .value hsame

/-- Both trap the host alike, or enter the kernel alike or not at all and leave machines that agree. -/
def StepsAlike (x y : Call (Cpu × Option ExceptionType)) : Prop :=
  (∃ trap, x = .error trap ∧ y = .error trap) ∨
    ∃ s t which, x = .ok (s, which) ∧ y = .ok (t, which) ∧ SameAfter s t

theorem Restarted.step (h : Restarted s t) (hr0 : s.registers 0 = 0#32) (hfree : s.HazardFree) :
    StepsAlike s.step t.step := by
  have hone := h.oneInstruction hr0 hfree
  have hl := (h.twin hr0).2
  unfold Cpu.step
  generalize s.oneInstruction = x at hone ⊢
  generalize t.oneInstruction = y at hone ⊢
  cases hone with
  | fail e => exact Or.inl ⟨e, rfl, rfl⟩
  | value hsame => exact Or.inr ⟨_, _, _, rfl, rfl, hsame⟩
  | @raise r r' hr =>
    obtain ⟨s', t', hs, ht, hsame⟩ := hr.raiseException hl
    refine Or.inr ⟨s', t', some r.which, ?_, ?_, hsame⟩
    · change (Cpu.raiseException r >>= fun s => pure (s, some r.which)) = _
      rw [hs]
      rfl
    · change (Cpu.raiseException r' >>= fun s => pure (s, some r'.which)) = _
      rw [ht, hr.which]
      rfl

/-- An interrupt makes the pending delayed load before the instruction. -/
theorem restarted_of_interrupt {u : Cpu} (h : s.delayedLoad 0#32 0#32 = .ok u) : Restarted s u := by
  obtain ⟨r, hr, rfl⟩ := cpu_delayedLoad_eq_ok h
  refine ⟨⟨s.registers badVAddrReg, ?_⟩, rfl, rfl, .refl _⟩
  rw [Function.update_eq_self]
  exact hr

/-- An exception makes it too, and the kernel may map pages and fill memory before the instruction is
executed again. -/
theorem restarted_of_raise {u : Cpu} {r : Raised} (h : r.cpu.registers = s.registers)
    (hraise : Cpu.raiseException r = .ok u) (table : PageTable) (size : ℕ) (memory : Image) :
    Restarted ⟨s.registers, table, size, memory⟩ ⟨u.registers, table, size, memory⟩ := by
  obtain ⟨r', hr', rfl⟩ := cpu_delayedLoad_eq_ok hraise
  unfold Cpu.set at hr'
  rw [h] at hr'
  exact ⟨⟨r.badVAddr, hr'⟩, rfl, rfl, .refl _⟩

/-- Before an instruction that does not use the register of the pending load, the delayed load of an
interrupt makes no difference, nor does that of an exception after which the instruction is executed
again; and the exception is raised before any register or byte of memory has changed. -/
theorem delayedLoad_transparent (hr0 : s.registers 0 = 0#32) :
    (∀ u, s.delayedLoad 0#32 0#32 = .ok u → s.HazardFree → StepsAlike s.step u.step) ∧
      ∀ r, s.oneInstruction = raise r →
        r.cpu.registers = s.registers ∧ r.cpu.mainMemory = s.mainMemory ∧
          ∀ u, Cpu.raiseException r = .ok u → ∀ table size memory,
            Cpu.HazardFree ⟨s.registers, table, size, memory⟩ →
              StepsAlike (Cpu.step ⟨s.registers, table, size, memory⟩)
                (Cpu.step ⟨u.registers, table, size, memory⟩) := by
  refine ⟨fun u hu hfree => (restarted_of_interrupt hu).step hr0 hfree, ?_⟩
  intro r hr
  have hends := s.oneInstruction_ends
  rw [hr] at hends
  have hclean := hends.of_raise
  refine ⟨hclean.registers, hclean.memory.memory, ?_⟩
  intro u hu table size memory hfree
  exact (restarted_of_raise hclean.registers hu table size memory).step hr0 hfree

/-- One page in frame `0`, the program counter at its start and a load pending. -/
def pendingCpu (target value : BitVec 32) (valid : Bool) (memory : Image) : Cpu where
  registers k :=
    if k = nextPCReg then 4#32 else if k = loadReg then target else if k = loadValueReg then value else 0#32
  pageTable _ := ⟨0, 0, valid, false, false, false⟩
  pageTableSize := 1
  mainMemory := memory

theorem pendingCpu_fetch (target value : BitVec 32) (memory : Image) :
    ∃ s, (pendingCpu target value true memory).fetch =
      pure (decode (BitVec.ofInt 32 (wordAt memory 0).toInt), s) := by
  have haddr : ((pendingCpu target value true memory).registers pcReg).toInt = 0 := rfl
  obtain ⟨table, htable⟩ : ∃ table, translate (fun _ => ⟨0, 0, true, false, false, false⟩) 1 0 4 false =
      .ok (.ok (0, table)) := ⟨_, rfl⟩
  refine ⟨{ pendingCpu target value true memory with pageTable := table }, ?_⟩
  unfold Cpu.fetch Cpu.readMem Nachos.readMem
  simp only [haddr]
  simp only [pendingCpu, htable]
  rfl

theorem pendingCpu_hazardFree {target value : BitVec 32} {memory : Image} (hpc : target.toNat ≠ pcReg)
    (hnextPC : target.toNat ≠ nextPCReg)
    (hinstr : target.toNat ≠ 0 → target.toNat ∉ (decode (BitVec.ofInt 32 (wordAt memory 0).toInt)).touches) :
    (pendingCpu target value true memory).HazardFree := by
  refine ⟨hpc, hnextPC, ?_⟩
  intro instr s hfetch hne
  obtain ⟨s', hfetch'⟩ := pendingCpu_fetch target value memory
  rw [hfetch'] at hfetch
  cases hfetch
  exact hinstr hne

/-- A load into register `5` is pending before an instruction that does nothing; the page of the
instruction comes in only after a fault. -/
theorem delayedLoad_transparent_pending :
    ∃ u r v, (pendingCpu 5#32 7#32 true fun _ => 0).delayedLoad 0#32 0#32 = .ok u ∧
      StepsAlike (pendingCpu 5#32 7#32 true fun _ => 0).step u.step ∧
      (pendingCpu 5#32 7#32 false fun _ => 1).oneInstruction = raise r ∧ Cpu.raiseException r = .ok v ∧
      StepsAlike (pendingCpu 5#32 7#32 true fun _ => 0).step
        (Cpu.step ⟨v.registers, fun _ => ⟨0, 0, true, false, false, false⟩, 1, fun _ => 0⟩) := by
  have hfree : (pendingCpu 5#32 7#32 true fun _ => 0).HazardFree :=
    pendingCpu_hazardFree (by decide) (by decide) (by decide)
  refine ⟨_, _, _, rfl, ?_, rfl, rfl, ?_⟩
  · exact (delayedLoad_transparent (s := pendingCpu 5#32 7#32 true fun _ => 0) rfl).1 _ rfl hfree
  · exact ((delayedLoad_transparent (s := pendingCpu 5#32 7#32 false fun _ => 1) rfl).2 _ rfl).2.2 _ rfl _ 1 _ hfree

/-- After a load into register `0`, the next partial load into it merges with the value of the first
one unless an interrupt comes between them. -/
theorem delayedLoad_changes_loadValue :
    ∃ s u : Cpu, s.registers 0 = 0#32 ∧ s.registers loadReg = 0#32 ∧ s.HazardFree ∧ s.delayedLoad 0#32 0#32 = .ok u ∧
      (s.step.map fun x => x.1.registers loadValueReg) = .ok 0x12345698#32 ∧
      (u.step.map fun x => x.1.registers loadValueReg) = .ok 0x98#32 :=
  ⟨pendingCpu 0#32 0x12345600#32 true fun o => if o = 3 then 0x98 else 0, _, rfl, rfl,
    pendingCpu_hazardFree (by decide) (by decide) (by decide), rfl, rfl, rfl⟩

end Nachos
