import Nachos.Userprog.ExecArguments
import Nachos.Userprog.JoinRun

/-! # An `Exec` that fails (`Exec_Syscall_Func`, `Thread::Thread` and `Thread::~Thread`)

The constructor of the new thread puts a record into the ring of the caller before the program is looked for. When the
program cannot be loaded, `Exec` deletes the thread, but the destructor leaves the record where it is. -/
set_option autoImplicit false

namespace Nachos
namespace Os
open Buffer Execution

/-- What a failed `Exec` is to leave behind; `forked` are the threads that have been started by then. -/
structure ExecUndone (forked : ℕ → Prop) (k k' : Os) : Prop where
  ring : ∀ l, k.threads.Linked k.current l → k'.threads.Linked k.current l
  records : ∀ r t, k'.threads.InRing k.current r → k'.threads.parentRecord t = some r → forked t
  joins : ∀ cid k₂, k'.joinSyscallFunc cid = .ok (none, k₂) →
    ∃ r t, (k'.threads.records r).id = cid ∧ k'.threads.parentRecord t = some r ∧ forked t

variable {env : Outside} {k k₁ k' : Os} {name args sysRet : Int} {fileName : Image} {e : Int}

/-- All that a failed `Exec` does to the threads is the constructor of the new one. -/
theorem execSyscallFunc_thrown (hread : k.read env k.current name 0 = .ok (fileName, k₁))
    (hthrow : newAddrSpace env fileName = .error (.thrown e))
    (hexec : k.execSyscallFunc env name args = .ok (sysRet, k')) :
    sysRet = -1 ∧ k'.current = k.current ∧ k'.readyList = k.readyList ∧
      k.threads.newThread env.newThread k.current = .ok k'.threads := by
  obtain ⟨p, space, m, -, -, rfl⟩ := read_eq_ok hread
  unfold execSyscallFunc at hexec
  rw [hread, ok_bind] at hexec
  obtain ⟨threads, hthread, hexec⟩ := bind_eq_ok.mp hexec
  have hlaunch : ∀ k₂ : Os, k₂.launch env env.newThread fileName args = .error (.thrown e) := by
    intro k₂
    unfold launch
    rw [hthrow]
    rfl
  dsimp only at hexec
  rw [hlaunch] at hexec
  cases hexec
  exact ⟨rfl, rfl, rfl, hthread⟩

/-- A `Join` on the record that the constructor of thread `c` has made has to wait. -/
theorem join_of_newThread {o o' : Processes ℕ} {ring : ℕ → List ℕ} {live : ℕ → Prop} {t c : ℕ}
    (hrun : o.newThread c t = .ok o') (hlive : live t)
    (hforest : o'.Forest (Function.update ring t (ring t ++ [o.allocated])) live) :
    ∃ e, o'.join t o.allocated = .ok e ∧ e.sleeps = true := by
  have hmem : o.allocated ∈ Function.update ring t (ring t ++ [o.allocated]) t := by simp
  rcases (hforest.linked t hlive).join (hforest.nodup t) (hforest.length_le t)
    (fun r hr => hforest.ids r (hforest.alloc t r hr)) o.allocated with ⟨r, -, hr, hjoin⟩ | ⟨hnone, -⟩
  · have hr' : r = o.allocated := by omega
    rw [hr', Processes.joinRecord_of_zero _ _ _ _ (by rw [(Processes.newThread_grown hrun).joinSem, if_pos rfl])] at hjoin
    exact ⟨_, hjoin, rfl⟩
  · exact absurd rfl (hnone _ hmem)

/-- A failed `Exec` is never undone: the record of the thread that was not started stays in the ring, and a `Join` on
its number waits. -/
theorem failedExec_not_undone {ring : ℕ → List ℕ} {live : ℕ → Prop}
    (hforest : k.threads.Forest ring live) (hlive : live k.current) (hcurrent : k.threads.created k.current = true)
    (hnew : k.threads.created env.newThread = false)
    (hread : k.read env k.current name 0 = .ok (fileName, k₁))
    (hthrow : newAddrSpace env fileName = .error (.thrown e))
    (hexec : k.execSyscallFunc env name args = .ok (sysRet, k')) :
    sysRet = -1 ∧ k'.readyList = k.readyList ∧
    k.threads.Linked k.current (ring k.current) ∧
    k'.threads.Linked k.current (ring k.current ++ [k.threads.allocated]) ∧
    k'.threads.parentRecord env.newThread = some k.threads.allocated ∧
    (∃ k₂, k'.joinSyscallFunc k.threads.allocated = .ok (none, k₂)) ∧
    ∀ forked, ¬ ExecUndone forked k k' := by
  obtain ⟨hret, hcur, hready, hrun⟩ := execSyscallFunc_thrown hread hthrow hexec
  have hforest' := hforest.newThread hlive hcurrent hnew hrun
  have hring := hforest'.linked k.current hlive
  rw [Function.update_self] at hring
  have hrecord : k'.threads.parentRecord env.newThread = some k.threads.allocated := by
    rw [(Processes.newThread_grown hrun).parentRecord, Function.update_self]
  obtain ⟨e, hjoin, hsleeps⟩ := join_of_newThread hrun hlive hforest'
  refine ⟨hret, hready, hforest.linked k.current hlive, hring, hrecord, ?_, fun forked hundone => ?_⟩
  · refine ⟨{ k' with threads := e.obj }, ?_⟩
    unfold joinSyscallFunc
    rw [hcur, hjoin, ok_bind, hsleeps]
    rfl
  · have hsame := hundone.ring _ (hforest.linked k.current hlive)
    have hmem := (hsame.inRing _).mp ((hring.inRing k.threads.allocated).mpr (by simp))
    exact Nat.lt_irrefl _ (hforest.alloc _ _ hmem)

/-! ## A program that is not there -/

def missing : Outside := { callerOutside with fs := fun _ => none }

theorem caller_forest : caller.threads.Forest (fun _ => []) fun _ => True := by
  refine ⟨fun _ _ hr => absurd hr (List.not_mem_nil), fun _ => List.nodup_nil, fun _ _ _ hr => absurd hr (List.not_mem_nil),
    fun _ _ => rfl, fun r hr => absurd hr (Nat.not_lt_zero r), rfl, nofun, nofun, fun r hr => absurd hr (Nat.not_lt_zero r),
    fun _ _ => ⟨rfl, rfl⟩⟩

/-- The name can be read, and there is no program with it. -/
theorem missing_read : ∃ fileName k₁, caller.read missing caller.current 0 0 = .ok (fileName, k₁) ∧
    newAddrSpace missing fileName = .error (.thrown 1) := by
  have hok : (caller.read missing caller.current 0 0).isOk = true := by decide +kernel
  have hlen : (strlen (valueOr (ofBytes [], caller) (caller.read missing caller.current 0 0)).1 bufferSize).isOk =
      true := by decide +kernel
  have hread := eq_ok_valueOr (ofBytes [], caller) hok
  generalize valueOr (ofBytes [], caller) (caller.read missing caller.current 0 0) = result at hread hlen
  obtain ⟨fileName, k₁⟩ := result
  refine ⟨fileName, k₁, hread, ?_⟩
  unfold newAddrSpace
  rw [eq_ok_valueOr 0 hlen, ok_bind]
  rfl

theorem missing_exec : ∃ k', caller.execSyscallFunc missing 0 0 = .ok (-1, k') ∧ k'.threads.child 0 = some 0 := by
  have hok : (caller.execSyscallFunc missing 0 0).isOk = true := by decide +kernel
  have hret : (valueOr (0, caller) (caller.execSyscallFunc missing 0 0)).1 = -1 := by decide +kernel
  have hchild : (valueOr (0, caller) (caller.execSyscallFunc missing 0 0)).2.threads.child 0 = some 0 := by
    decide +kernel
  have hcall := eq_ok_valueOr (0, caller) hok
  generalize valueOr (0, caller) (caller.execSyscallFunc missing 0 0) = result at hcall hret hchild
  obtain ⟨ret, k'⟩ := result
  subst hret
  exact ⟨k', hcall, hchild⟩

theorem failedExec_not_undone_missing : ∃ k', caller.execSyscallFunc missing 0 0 = .ok (-1, k') ∧
    k'.threads.Linked caller.current [0] ∧ ∀ forked, ¬ ExecUndone forked caller k' := by
  obtain ⟨fileName, k₁, hread, hthrow⟩ := missing_read
  obtain ⟨k', hexec, -⟩ := missing_exec
  obtain ⟨-, -, -, hring, -, -, hundone⟩ := failedExec_not_undone caller_forest trivial rfl rfl hread hthrow hexec
  exact ⟨k', hexec, hring, hundone⟩

/-- A process without children has one after an `Exec` of a file that does not exist. -/
theorem failedExec_leaves_record : ∃ k', caller.execSyscallFunc missing 0 0 = .ok (-1, k') ∧
    caller.threads.Linked caller.current [] ∧ k'.threads.child caller.current = some 0 ∧
    ∀ forked, ¬ ExecUndone forked caller k' := by
  obtain ⟨k', hexec, hchild⟩ := missing_exec
  refine ⟨k', hexec, rfl, hchild, fun forked hundone => ?_⟩
  have hsame : k'.threads.child 0 = none := hundone.ring [] rfl
  rw [hchild] at hsame
  cases hsame

end Os
end Nachos
