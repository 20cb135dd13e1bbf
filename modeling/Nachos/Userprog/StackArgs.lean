import Nachos.Library.CString
import Nachos.Userprog.UserBuffers

/-! # The arguments of a new program (`createStackArgs` of `addrspace.cc`)

`createStackArgs` packs the name of the program and the arguments below the end of the new process's stack, and below
them the pointers to them. Its two arrays have room for 18 arguments; the pointers of a longer vector are read until
`argc` is 20, and `curr_argv[argc]` is past the end. An argument is copied without the zero byte at its end: it is a
string in the new space if that byte was zero before. -/
set_option autoImplicit false

namespace Nachos
open Buffer Execution

variable {args : List (List UInt8)}

/-! ## Strings that are read and written -/

theorem holdsString_cons {mem : Image} {x : ℕ} {c : UInt8} {s : List UInt8} (h : HoldsString mem x (c :: s)) :
    mem x = c ∧ HoldsString mem (x + 1) s := by
  refine ⟨h 0 (Nat.zero_le _), fun o ho => ?_⟩
  have hbyte := h (o + 1) (by rw [List.length_cons]; omega)
  rwa [List.getD_cons_succ, show x + (o + 1) = x + 1 + o by omega] at hbyte

theorem holdsString_ofBytes (s : List UInt8) : HoldsString (ofBytes s) 0 s := by
  intro o _
  rw [Nat.zero_add]
  rfl

theorem ofBytes_terminated (s : List UInt8) : ofBytes (s ++ [0]) = ofBytes s := by
  funext o
  unfold ofBytes
  by_cases ho : o < s.length
  · exact List.getD_append s [0] 0 o ho
  · rw [List.getD_append_right s [0] 0 o (by omega), List.getD_eq_default s 0 (by omega)]
    cases o - s.length <;> rfl

section Bytes
variable {mem str : Image} {x : ℕ} {s : List UInt8}

theorem readBytes_string (n k : ℕ) (h : HoldsString mem (x + k) s) (hchars : 0 ∉ s) (hshort : s.length < n) :
    readBytes mem x 0 n k = s ++ [0] := by
  induction s generalizing n k with
  | nil =>
    obtain ⟨n, rfl⟩ := Nat.exists_eq_succ_of_ne_zero (show n ≠ 0 by rw [List.length_nil] at hshort; omega)
    have hend : mem (x + k) = 0 := h 0 (Nat.zero_le _)
    unfold readBytes
    rw [if_pos (Or.inl rfl), if_pos ⟨rfl, hend⟩, hend]
    rfl
  | cons c rest ih =>
    rw [List.length_cons] at hshort
    obtain ⟨n, rfl⟩ := Nat.exists_eq_succ_of_ne_zero (show n ≠ 0 by omega)
    obtain ⟨hfirst, hrest⟩ := holdsString_cons h
    rw [List.mem_cons, not_or] at hchars
    unfold readBytes
    rw [if_pos (Or.inl rfl), if_neg (fun hend => hchars.1 (hend.2.symm.trans hfirst)), hfirst]
    exact congrArg (List.cons c) (ih n (k + 1) hrest hchars.2 (by omega))

theorem writeBytes_string (n k : ℕ) (mem : Image) (h : HoldsString str k s) (hchars : 0 ∉ s) (hshort : s.length < n) :
    writeBytes x str 0 n k mem = copy mem (x + k) (ofBytes s) (s.length + 1) := by
  induction s generalizing n k mem with
  | nil =>
    obtain ⟨n, rfl⟩ := Nat.exists_eq_succ_of_ne_zero (show n ≠ 0 by rw [List.length_nil] at hshort; omega)
    have hend : str k = 0 := h 0 (Nat.zero_le _)
    unfold writeBytes
    rw [if_pos (Or.inl rfl), if_pos ⟨rfl, hend⟩, hend, List.length_nil, copy_cons, copy_zero]
    rfl
  | cons c rest ih =>
    rw [List.length_cons] at hshort
    obtain ⟨n, rfl⟩ := Nat.exists_eq_succ_of_ne_zero (show n ≠ 0 by omega)
    obtain ⟨hfirst, hrest⟩ := holdsString_cons h
    rw [List.mem_cons, not_or] at hchars
    unfold writeBytes
    rw [if_pos (Or.inl rfl), if_neg (fun hend => hchars.1 (hend.2.symm.trans hfirst)), hfirst,
      ih n (k + 1) _ hrest hchars.2 (by omega), List.length_cons, copy_cons mem]
    rfl

theorem strlen_string {size : ℕ} (h : HoldsString str 0 s) (hchars : 0 ∉ s) (hshort : s.length < size) :
    strlen str size = .ok s.length := by
  have hfind : (List.range size).find? (fun i => str i == 0) = some s.length := by
    rw [List.find?_range_eq_some]
    refine ⟨?_, List.mem_range.mpr hshort, fun j hj => ?_⟩
    · have hend := h s.length le_rfl
      rw [Nat.zero_add, List.getD_eq_default s 0 le_rfl] at hend
      simp [hend]
    · have hbyte := h j (by omega)
      rw [Nat.zero_add, List.getD_eq_getElem s 0 hj] at hbyte
      rw [hbyte, Bool.not_eq_true', beq_eq_false_iff_ne]
      exact fun hzero => hchars (hzero ▸ List.getElem_mem hj)
  unfold strlen
  rw [hfind]

/-- `write` with the length of the string: a length of zero means up to the zero byte. -/
theorem writeBytes_counted (mem : Image) (hchars : 0 ∉ s) (hshort : s.length < bufferSize) :
    writeBytes x (ofBytes s) s.length bufferSize 0 mem = copy mem x (ofBytes s) (max 1 s.length) ∧
      (readBytes (ofBytes s) 0 s.length bufferSize 0).length = max 1 s.length := by
  cases s with
  | nil =>
    have hstring := holdsString_ofBytes []
    exact ⟨writeBytes_string bufferSize 0 mem hstring hchars hshort,
      congrArg List.length (readBytes_string bufferSize 0 hstring hchars hshort)⟩
  | cons c rest =>
    have hpos : 0 < (c :: rest).length := by simp
    refine ⟨?_, ?_⟩
    · funext y
      rw [writeBytes_sized x _ hpos]
      unfold copy
      exact if_congr (by omega) rfl rfl
    · rw [readBytes_sized _ _ hpos, List.length_map, List.length_range]
      omega

theorem copy_word (mem : Image) (x : ℕ) (w : BitVec 32) :
    writeBytes x (ofWords fun _ => w) 4 bufferSize 0 mem = copy mem x (wordByte w) 4 := by
  funext y
  rw [show (4 : Int) = ((4 : ℕ) : Int) from rfl, writeBytes_sized x _ (by decide)]
  by_cases hin : x ≤ y ∧ y < x + 4
  · rw [if_pos (by simp only [bufferSize]; omega), copy_inside mem _ hin.1 hin.2]
    unfold ofWords
    rw [Nat.mod_eq_of_lt (by omega)]
  · rw [if_neg (by simp only [bufferSize]; omega), copy_outside mem _ (by omega)]

end Bytes

/-! ## The arguments below the name -/

/-- The arguments are copied, each below the one before it and the first below `top`. -/
def pushedStrings : ℕ → List (List UInt8) → Image → Image
  | _, [], mem => mem
  | top, s :: rest, mem =>
    pushedStrings (top - (s.length + 1)) rest (copy mem (top - (s.length + 1)) (ofBytes s) (max 1 s.length))

/-- The byte that comes after an argument is zero, unless the argument is empty. -/
def Terminated (mem : Image) : ℕ → List (List UInt8) → Prop
  | _, [] => True
  | top, s :: rest => (s ≠ [] → mem (top - 1) = 0) ∧ Terminated mem (top - (s.length + 1)) rest

section Pushed
variable {mem mem' : Image} {top : ℕ} {strs : List (List UInt8)}

theorem pushedStrings_outside (hfits : packedSize strs ≤ top) {y : ℕ} (hy : y < top - packedSize strs ∨ top ≤ y) :
    pushedStrings top strs mem y = mem y := by
  induction strs generalizing top mem with
  | nil => rfl
  | cons s rest ih =>
    rw [packedSize_cons] at hfits hy
    unfold pushedStrings
    rw [ih (by omega) (by omega)]
    exact copy_outside mem _ (by omega)

theorem terminated_congr (hfits : packedSize strs ≤ top) (h : ∀ y < top, mem' y = mem y) :
    Terminated mem' top strs ↔ Terminated mem top strs := by
  induction strs generalizing top with
  | nil => exact Iff.rfl
  | cons s rest ih =>
    rw [packedSize_cons] at hfits
    unfold Terminated
    rw [h (top - 1) (by omega), ih (by omega) fun y hy => h y (by omega)]

/-- An argument that has been copied is a string if the byte after it is zero. -/
theorem holdsString_copy (mem : Image) (x : ℕ) (s : List UInt8) :
    HoldsString (copy mem x (ofBytes s) (max 1 s.length)) x s ↔ (s ≠ [] → mem (x + s.length) = 0) := by
  have hinside : ∀ o < max 1 s.length, copy mem x (ofBytes s) (max 1 s.length) (x + o) = s.getD o 0 := by
    intro o ho
    rw [copy_inside mem _ (by omega) (by omega), Nat.add_sub_cancel_left]
    rfl
  have hend : s.getD s.length 0 = 0 := List.getD_eq_default s 0 le_rfl
  by_cases hempty : s = []
  · subst hempty
    refine iff_of_true (fun o ho => hinside o ?_) (fun hne => absurd rfl hne)
    rw [List.length_nil] at ho ⊢
    omega
  · have hpos := List.length_pos_iff.mpr hempty
    have hafter : copy mem x (ofBytes s) (max 1 s.length) (x + s.length) = mem (x + s.length) :=
      copy_outside mem _ (by omega)
    constructor
    · intro h _
      rw [← hafter, h s.length le_rfl, hend]
    · intro h o ho
      rcases Nat.lt_or_eq_of_le ho with hlt | rfl
      · exact hinside o (by omega)
      · rw [hafter, h hempty, hend]

theorem terminated_of_zeros (h : ∀ y, mem y = 0) : Terminated mem top strs := by
  induction strs generalizing top with
  | nil => trivial
  | cons s rest ih => exact ⟨fun _ => h _, ih⟩

theorem packed_pushedStrings_iff (hfits : packedSize strs ≤ top) :
    Packed (pushedStrings top strs mem) top strs ↔ Terminated mem top strs := by
  induction strs generalizing top mem with
  | nil => exact Iff.rfl
  | cons s rest ih =>
    rw [packedSize_cons] at hfits
    unfold Packed Terminated pushedStrings
    refine and_congr ?_ ?_
    · rw [holdsString_congr fun y hy _ => pushedStrings_outside (by omega) (Or.inr hy), holdsString_copy,
        show top - (s.length + 1) + s.length = top - 1 by omega]
    · rw [ih (by omega)]
      exact terminated_congr (by omega) fun y hy => copy_outside mem _ (by omega)

/-- The name of the program is copied with its zero byte. -/
theorem packed_named_iff {program : List UInt8} (hfits : program.length + 1 + packedSize strs ≤ top) :
    Packed (pushedStrings (top - (program.length + 1)) strs
        (copy mem (top - (program.length + 1)) (ofBytes program) (program.length + 1))) top (program :: strs) ↔
      Terminated mem (top - (program.length + 1)) strs := by
  have hname : HoldsString (copy mem (top - (program.length + 1)) (ofBytes program) (program.length + 1))
      (top - (program.length + 1)) program := by
    intro o ho
    rw [copy_inside mem _ (by omega) (by omega), Nat.add_sub_cancel_left]
    rfl
  unfold Packed
  rw [holdsString_congr fun y hy _ => pushedStrings_outside (by omega) (Or.inr hy), and_iff_right hname,
    packed_pushedStrings_iff (by omega)]
  exact terminated_congr (by omega) fun y hy => copy_outside mem _ (Or.inl hy)

end Pushed

/-! ## Arguments in mapped memory -/

/-- A string of fewer than 1000 bytes, on pages of the process that are mapped. -/
structure StringAt (pages : Finset (ℕ × ℕ)) (c : ℕ) (mem : Image) (x : ℕ) (s : List UInt8) : Prop where
  holds : HoldsString mem x s
  chars : 0 ∉ s
  short : s.length < bufferSize
  mapped : ∀ j ≤ s.length, (c, (x + j) / 128) ∈ pages

/-- A vector of pointers to such strings, and a null pointer. -/
def VectorAt (pages : Finset (ℕ × ℕ)) (c : ℕ) (mem : Image) : ℕ → List (List UInt8) → Prop
  | x, [] => (∀ j < 4, (c, (x + j) / 128) ∈ pages) ∧ wordAt mem x = 0#32
  | x, s :: rest => (∀ j < 4, (c, (x + j) / 128) ∈ pages) ∧ wordAt mem x ≠ 0#32 ∧
    StringAt pages c mem (wordAt mem x).toNat s ∧ VectorAt pages c mem (x + 4) rest

def pointersAt (mem : Image) : ℕ → List (List UInt8) → List (BitVec 32)
  | _, [] => []
  | x, _ :: rest => wordAt mem x :: pointersAt mem (x + 4) rest

theorem pointersAt_length (mem : Image) (x : ℕ) (args : List (List UInt8)) :
    (pointersAt mem x args).length = args.length := by
  induction args generalizing x with
  | nil => rfl
  | cons s rest ih => exact congrArg Nat.succ (ih _)

theorem VectorAt.strings {pages : Finset (ℕ × ℕ)} {c : ℕ} {mem : Image} {x : ℕ} (h : VectorAt pages c mem x args) :
    List.Forall₂ (fun ptr s => StringAt pages c mem ptr.toNat s) (pointersAt mem x args) args := by
  induction args generalizing x with
  | nil => exact List.Forall₂.nil
  | cons s rest ih =>
    obtain ⟨-, -, hstring, hrest⟩ := h
    exact List.Forall₂.cons hstring (ih hrest)

namespace Os

section Access
variable {env : Outside} {k : Os} {c t x : ℕ} {pages : Finset (ℕ × ℕ)} {flat : Flat}

theorem address_lt (h : k.vm.Stands env.fs pages flat) (hx : (c, x / 128) ∈ pages) : x < 4096 := by
  obtain ⟨a, hpage⟩ := h.mapped.page _ hx
  have hfits := (h.sound.ok c a hpage.space).fits
  have hlt := hpage.lt
  simp only [numPhysPages] at hfits
  omega

theorem read_string (h : k.vm.Stands env.fs pages flat) {s : List UInt8} (hs : StringAt pages c (flat c) x s) :
    ∃ p space m, k.process c = some p ∧
      k.read env c x 0 = .ok (ofBytes s, { k with memory := m }.setProcess c { p with space := space }) ∧
      ({ k with memory := m }.setProcess c { p with space := space }).vm.Stands env.fs pages flat ∧
      m.disk = k.memory.disk := by
  have hbytes : readBytes (flat c) x 0 bufferSize 0 = s ++ [0] := readBytes_string bufferSize 0 hs.holds hs.chars hs.short
  obtain ⟨p, hp⟩ := exists_process h.mapped (hs.mapped 0 (Nat.zero_le _))
  obtain ⟨space, m, hread, hstands, hdisk⟩ := read_mapped h hp x 0 fun j hj => by
    rw [hbytes, List.length_append, List.length_singleton] at hj
    exact hs.mapped j (by omega)
  rw [hbytes, ofBytes_terminated] at hread
  exact ⟨p, space, m, hp, hread, hstands, hdisk⟩

theorem read_word (h : k.vm.Stands env.fs pages flat) (hpages : ∀ j < 4, (c, (x + j) / 128) ∈ pages) :
    ∃ buf k', k.read env c x 4 = .ok (buf, k') ∧ wordAt buf 0 = wordAt (flat c) x ∧ k'.current = k.current ∧
      k'.vm.Stands env.fs pages flat := by
  have hcount : (readBytes (flat c) x (4 : ℕ) bufferSize 0).length = 4 := by
    rw [readBytes_sized _ _ (by decide), List.length_map, List.length_range]
    rfl
  obtain ⟨p, hp⟩ := exists_process h.mapped (hpages 0 (by decide))
  obtain ⟨space, m, hread, hstands, -⟩ := read_mapped h hp x (4 : ℕ) fun j hj => hpages j (hcount ▸ hj)
  refine ⟨_, _, hread, ?_, rfl, hstands⟩
  unfold wordAt
  simp only [Nat.zero_add]
  rw [ofBytes_sized _ x (by decide) (by decide), ofBytes_sized _ x (by decide) (by decide),
    ofBytes_sized _ x (by decide) (by decide), ofBytes_sized _ x (by decide) (by decide)]
  rfl

/-- A `write` that copies `n` bytes of `src`. -/
theorem write_copy (h : k.vm.Stands env.fs pages flat) {str src : Image} {bytes : Int} {n : ℕ}
    (hcopy : writeBytes x str bytes bufferSize 0 (flat t) = copy (flat t) x src n)
    (hcount : (readBytes str 0 bytes bufferSize 0).length = n) (hpos : 0 < n)
    (hpages : ∀ y, x ≤ y → y < x + n → (t, y / 128) ∈ pages) :
    ∃ k', k.write env t x str bytes = .ok k' ∧ k'.current = k.current ∧
      k'.vm.Stands env.fs pages (Function.update flat t (copy (flat t) x src n)) := by
  obtain ⟨p, hp⟩ := exists_process h.mapped (hpages x le_rfl (by omega))
  obtain ⟨space, m, hwrite, hstands, -⟩ := write_mapped h hp x str bytes fun j hj =>
    hpages (x + j) (by omega) (by omega)
  rw [hcopy] at hstands
  exact ⟨_, hwrite, rfl, hstands⟩

theorem write_word (h : k.vm.Stands env.fs pages flat) (w : BitVec 32)
    (hpages : ∀ y, x ≤ y → y < x + 4 → (t, y / 128) ∈ pages) :
    ∃ k', k.write env t x (ofWords fun _ => w) 4 = .ok k' ∧ k'.current = k.current ∧
      k'.vm.Stands env.fs pages (Function.update flat t (copy (flat t) x (wordByte w) 4)) := by
  have hcount : (readBytes (ofWords fun _ => w) 0 (4 : ℕ) bufferSize 0).length = 4 := by
    rw [readBytes_sized _ _ (by decide), List.length_map, List.length_range]
    rfl
  exact write_copy h (copy_word (flat t) x w) hcount (by decide) hpages

theorem vm_setProcess {p : Process} (hp : k.process t = some p) (q : Process) (hspace : q.space = p.space) :
    (k.setProcess t q).vm = k.vm := by
  have hset : (k.setProcess t q).vm = k.vm.set t q.space k.memory := vm_setSpace k k.memory t q
  rw [hset, hspace]
  exact Vm.set_self (vm_space hp)

end Access

/-! ## The three loops -/

section Loops
variable {env : Outside} {k : Os} {c t x : ℕ} {pages : Finset (ℕ × ℕ)} {flat : Flat} {mem : Image}

theorem readArgv_mapped (rounds argNum : ℕ) (h : k.vm.Stands env.fs pages flat)
    (hvector : VectorAt pages k.current (flat k.current) (x + 4 * argNum) args) :
    ∃ k', readArgv env x rounds argNum k =
        .ok ((pointersAt (flat k.current) (x + 4 * argNum) args).take rounds, k') ∧
      k'.current = k.current ∧ k'.vm.Stands env.fs pages flat := by
  induction rounds generalizing argNum args k with
  | zero => exact ⟨k, rfl, rfl, h⟩
  | succ rounds ih =>
    have hpages : ∀ j < 4, (k.current, (x + 4 * argNum + j) / 128) ∈ pages := by
      cases args with
      | nil => exact hvector.1
      | cons s rest => exact hvector.1
    obtain ⟨buf, k₁, hread, hword, hcurrent, h₁⟩ := read_word h hpages
    have haddr : int32 ((x : Int) + argNum * 4) = ((x + 4 * argNum : ℕ) : Int) := by
      rw [show (x : Int) + argNum * 4 = ((x + 4 * argNum : ℕ) : Int) + ((0 : ℕ) : Int) by omega]
      exact h.int32_eq (hpages 0 (by decide))
    unfold readArgv
    rw [haddr, hread, ok_bind]
    dsimp only
    rw [hword]
    cases args with
    | nil =>
      rw [if_pos hvector.2]
      exact ⟨k₁, rfl, hcurrent, h₁⟩
    | cons s rest =>
      obtain ⟨-, hsome, -, hrest⟩ := hvector
      rw [if_neg hsome]
      have hnext : VectorAt pages k₁.current (flat k₁.current) (x + 4 * (argNum + 1)) rest := by
        rw [hcurrent]
        exact hrest
      obtain ⟨k₂, hloop, hcurrent₂, h₂⟩ := ih (argNum + 1) h₁ hnext
      rw [hloop, hcurrent]
      exact ⟨k₂, rfl, hcurrent₂.trans hcurrent, h₂⟩

theorem pushStrings_mapped {ptrs : List (BitVec 32)} {top : ℕ} {stackArgv : List Int}
    (hstrings : List.Forall₂ (fun ptr s => StringAt pages c mem ptr.toNat s) ptrs args) (hc : k.current = c)
    (hmem : flat c = mem) (ht : t ≠ c) (h : k.vm.Stands env.fs pages flat) (hfits : packedSize args ≤ top)
    (harea : ∀ y, top - packedSize args ≤ y → y < top → (t, y / 128) ∈ pages)
    (hroom : stackArgv.length + args.length ≤ maxArgs) :
    ∃ k', pushStrings env t ptrs stackArgv top k =
        .ok (stackArgv ++ (packedAt top args).map Nat.cast, ((top - packedSize args : ℕ) : Int), k') ∧
      k'.current = c ∧ k'.vm.Stands env.fs pages (Function.update flat t (pushedStrings top args (flat t))) := by
  induction hstrings generalizing k flat top stackArgv with
  | nil =>
    refine ⟨k, ?_, hc, ?_⟩
    · rw [packedAt, List.map_nil, List.append_nil]
      rfl
    · unfold pushedStrings
      rwa [Function.update_eq_self]
  | @cons ptr s ptrs args hstring _ ih =>
    rw [packedSize_cons] at hfits harea
    rw [List.length_cons] at hroom
    have hptr : ptr.toInt = ((ptr.toNat : ℕ) : Int) := by
      have hlt := address_lt h (hstring.mapped 0 (Nat.zero_le _))
      exact BitVec.toInt_eq_toNat_of_lt (by omega)
    subst hc
    obtain ⟨p, space, m, -, hread, h₁, -⟩ := read_string h (hmem ▸ hstring)
    obtain ⟨hcopy, hcount⟩ := writeBytes_counted (x := top - (s.length + 1)) (flat t) hstring.chars hstring.short
    obtain ⟨k₂, hwrite, hcurrent₂, h₂⟩ := write_copy h₁ hcopy hcount (by omega) fun y hy hy' =>
      harea y (by omega) (by omega)
    have hbase : (top : Int) - ((s.length : Int) + 1) = ((top - (s.length + 1) : ℕ) : Int) := by omega
    unfold pushStrings
    rw [hptr, hread, ok_bind]
    dsimp only
    rw [strlen_string (holdsString_ofBytes s) hstring.chars hstring.short, ok_bind, hbase, if_pos (by omega), hwrite,
      ok_bind]
    have hroom' : (stackArgv ++ [((top - (s.length + 1) : ℕ) : Int)]).length + args.length ≤ maxArgs := by
      rw [List.length_append, List.length_singleton]
      omega
    obtain ⟨k₃, hloop, hcurrent₃, h₃⟩ := ih hcurrent₂
      ((Function.update_of_ne ht.symm _ _).trans hmem) h₂ (show packedSize args ≤ top - (s.length + 1) by omega)
      (fun y hy hy' => harea y (by omega) (by omega)) hroom'
    refine ⟨k₃, ?_, hcurrent₃, ?_⟩
    · rw [hloop, List.append_assoc, packedSize_cons, Nat.sub_sub]
      rfl
    · rw [Function.update_idem, Function.update_self] at h₃
      exact h₃

theorem pushPointers_mapped {base : ℕ} {ptrs : List ℕ} (argNum : ℕ) (h : k.vm.Stands env.fs pages flat)
    (harea : ∀ y, base + 4 * argNum ≤ y → y < base + 4 * argNum + 4 * ptrs.length → (t, y / 128) ∈ pages) :
    ∃ k', pushPointers env t base (ptrs.map Nat.cast) argNum k = .ok k' ∧ k'.current = k.current ∧
      k'.vm.Stands env.fs pages
        (Function.update flat t (storeWords (base + 4 * argNum) (ptrs.map (BitVec.ofNat 32)) (flat t))) := by
  induction ptrs generalizing argNum k flat with
  | nil =>
    refine ⟨k, rfl, rfl, ?_⟩
    rw [List.map_nil, storeWords]
    rwa [Function.update_eq_self]
  | cons ptr rest ih =>
    rw [List.length_cons] at harea
    obtain ⟨k₁, hwrite, hcurrent, h₁⟩ := write_word h (BitVec.ofNat 32 ptr) fun y hy hy' =>
      harea y hy (by omega)
    obtain ⟨k₂, hloop, hcurrent₂, h₂⟩ := ih (argNum + 1) h₁ fun y hy hy' => harea y (by omega) (by omega)
    refine ⟨k₂, ?_, hcurrent₂.trans hcurrent, ?_⟩
    · rw [List.map_cons, pushPointers, show (base : Int) + argNum * 4 = ((base + 4 * argNum : ℕ) : Int) by omega,
        BitVec.ofInt_natCast, hwrite, ok_bind]
      exact hloop
    · rw [Function.update_idem, Function.update_self] at h₂
      exact h₂

end Loops

/-! ## The block -/

/-- Where the pointers are put. -/
def blockArgv (stackBase : ℕ) (strs : List (List UInt8)) : ℕ :=
  let low := stackBase - packedSize strs - (4 * strs.length + 4)
  low - low % 4

/-- The caller has a vector of arguments, and the new process has room for them below its stack base. -/
structure Arguments (env : Outside) (k : Os) (t x stackBase : ℕ) (name : Image) (program : List UInt8)
    (args : List (List UInt8)) (pages : Finset (ℕ × ℕ)) : Prop where
  sound : k.vm.Sound
  mapped : k.vm.Mapped env.fs pages
  other : t ≠ k.current
  process : ∃ p, k.process t = some p ∧ p.stackBase = stackBase
  vector : VectorAt pages k.current (k.userByte env k.current) x args
  holds : HoldsString name 0 program
  chars : 0 ∉ program
  short : program.length < bufferSize
  fits : packedSize (program :: args) + 4 * (args.length + 1) + 4 ≤ stackBase
  area : ∀ y, blockArgv stackBase (program :: args) ≤ y → y < stackBase → (t, y / 128) ∈ pages

/-- The call returns, and at `argv` the new process has its `argc` pointers to the strings and a null pointer, all of them
below what was its stack base. -/
def BuildsBlock (env : Outside) (k : Os) (t x stackBase : ℕ) (name : Image) (program : List UInt8)
    (args : List (List UInt8)) : Prop :=
  ∃ (k' : Os) (q : Process) (argv : ℕ), k.createStackArgs env t x name = .ok k' ∧ k'.process t = some q ∧
    q.argc = args.length + 1 ∧ q.argv = argv ∧ argv % 4 = 0 ∧
    ArgumentBlock (k'.userByte env t) argv stackBase (program :: args)

section Block
variable {env : Outside} {k : Os} {t x stackBase : ℕ} {name : Image} {program : List UInt8} {pages : Finset (ℕ × ℕ)}

/-- The name is pushed and the pointers are read. -/
theorem Arguments.start (h : Arguments env k t x stackBase name program args pages) :
    ∃ p k₁ k₂, k.process t = some p ∧ p.stackBase = stackBase ∧ strlen name bufferSize = .ok program.length ∧
      k.write env t ((stackBase - (program.length + 1) : ℕ) : Int) name 0 = .ok k₁ ∧
      readArgv env x maxArgs 0 k₁ = .ok ((pointersAt (k.userByte env k.current) x args).take maxArgs, k₂) ∧
      k₂.current = k.current ∧ k₂.vm.Stands env.fs pages (Function.update (k.vm.user env.fs) t
        (copy (k.userByte env t) (stackBase - (program.length + 1)) (ofBytes program) (program.length + 1))) := by
  obtain ⟨p, hp, hbase⟩ := h.process
  have hstands : k.vm.Stands env.fs pages (k.vm.user env.fs) := ⟨h.sound, h.mapped, rfl⟩
  have hlow : blockArgv stackBase (program :: args) ≤ stackBase - (program.length + 1) := by
    unfold blockArgv
    rw [packedSize_cons]
    dsimp only
    omega
  have hfits := h.fits
  rw [packedSize_cons] at hfits
  have hcount : (readBytes name 0 0 bufferSize 0).length = program.length + 1 := by
    rw [readBytes_string bufferSize 0 h.holds h.chars h.short, List.length_append, List.length_singleton]
  obtain ⟨k₁, hwrite, hcurrent₁, h₁⟩ := write_copy hstands
    (writeBytes_string bufferSize 0 (k.vm.user env.fs t) h.holds h.chars h.short) hcount (by omega)
    fun y hy hy' => h.area y (hlow.trans hy) (by omega)
  have hvector : VectorAt pages k₁.current (Function.update (k.vm.user env.fs) t (copy (k.userByte env t)
      (stackBase - (program.length + 1)) (ofBytes program) (program.length + 1)) k₁.current) (x + 4 * 0) args := by
    rw [hcurrent₁, Function.update_of_ne h.other.symm]
    exact h.vector
  obtain ⟨k₂, hread, hcurrent₂, h₂⟩ := readArgv_mapped maxArgs 0 h₁ hvector
  rw [hcurrent₁, Function.update_of_ne h.other.symm] at hread
  exact ⟨p, k₁, k₂, hp, hbase, strlen_string h.holds h.chars h.short, hwrite, hread, hcurrent₂.trans hcurrent₁, h₂⟩

theorem Arguments.overrun (h : Arguments env k t x stackBase name program args pages) (hmany : 18 < args.length) :
    k.createStackArgs env t x name = .error (.outOfBounds .buffer) := by
  obtain ⟨p, k₁, k₂, hp, hbase, hlen, hwrite, hread, -, -⟩ := h.start
  have hfits := h.fits
  rw [packedSize_cons] at hfits
  unfold createStackArgs
  rw [getProcess_eq hp, ok_bind, hlen, ok_bind, hbase,
    show (stackBase : Int) - ((program.length : Int) + 1) = ((stackBase - (program.length + 1) : ℕ) : Int) by omega]
  dsimp only
  rw [hwrite, ok_bind, hread, ok_bind]
  dsimp only
  rw [if_neg]
  rw [List.length_take, pointersAt_length]
  simp only [maxArgs]
  omega

/-- What the new process has after the call. -/
theorem Arguments.block (h : Arguments env k t x stackBase name program args pages) (hfew : args.length ≤ 18) :
    ∃ k' q, k.createStackArgs env t x name = .ok k' ∧ k'.process t = some q ∧ q.argc = args.length + 1 ∧
      q.argv = (blockArgv stackBase (program :: args) : ℕ) ∧
      k'.userByte env t = storeWords (blockArgv stackBase (program :: args))
        ((packedAt stackBase (program :: args)).map (BitVec.ofNat 32) ++ [0#32])
        (pushedStrings (stackBase - (program.length + 1)) args
          (copy (k.userByte env t) (stackBase - (program.length + 1)) (ofBytes program) (program.length + 1))) := by
  obtain ⟨p, k₁, k₂, hp, hbase, hlen, hwrite, hread, hcurrent, h₂⟩ := h.start
  have hfits := h.fits
  rw [packedSize_cons] at hfits
  have hptrs : (pointersAt (k.userByte env k.current) x args).take maxArgs = pointersAt (k.userByte env k.current) x args :=
    List.take_of_length_le (by rw [pointersAt_length]; simp only [maxArgs]; omega)
  rw [hptrs] at hread
  obtain ⟨k₃, hstrings, hcurrent₃, h₃⟩ := pushStrings_mapped h.vector.strings hcurrent
    (Function.update_of_ne h.other.symm _ _) h.other h₂ (show packedSize args ≤ stackBase - (program.length + 1) by omega)
    (fun y hy hy' => h.area y (by unfold blockArgv; rw [packedSize_cons]; dsimp only; omega) (by omega))
    (show [((stackBase - (program.length + 1) : ℕ) : Int)].length + args.length ≤ maxArgs by
      simp only [List.length_singleton, maxArgs]; omega)
  unfold createStackArgs
  rw [getProcess_eq hp, ok_bind, hlen, ok_bind, hbase,
    show (stackBase : Int) - ((program.length : Int) + 1) = ((stackBase - (program.length + 1) : ℕ) : Int) by omega]
  dsimp only
  rw [hwrite, ok_bind, hread, ok_bind]
  dsimp only
  rw [if_pos (by rw [pointersAt_length]; simp only [maxArgs]; omega), hstrings, ok_bind, pointersAt_length]
  have hlow : ((stackBase - (program.length + 1) - packedSize args : ℕ) : Int) - (((args.length + 1 : ℕ) : Int) * 4 + 4) =
      ((stackBase - packedSize (program :: args) - (4 * (program :: args).length + 4) : ℕ) : Int) := by
    rw [packedSize_cons, List.length_cons]
    omega
  have halign : ∀ low : ℕ, (low : Int) - (low : Int) % 4 = ((low - low % 4 : ℕ) : Int) := by
    intro low
    omega
  dsimp only
  rw [hlow, halign]
  obtain ⟨argv, hargv⟩ : ∃ argv, blockArgv stackBase (program :: args) = argv := ⟨_, rfl⟩
  have hargv' : (stackBase - packedSize (program :: args) - (4 * (program :: args).length + 4) -
      (stackBase - packedSize (program :: args) - (4 * (program :: args).length + 4)) % 4) = argv := hargv
  have harea := h.area
  rw [hargv] at harea ⊢
  rw [hargv']
  have hcount : (packedAt stackBase (program :: args)).length = args.length + 1 := packedAt_length _ _
  have hbelow : argv + 4 * (args.length + 1) + 4 ≤ stackBase := by
    rw [packedSize_cons, List.length_cons] at hargv'
    omega
  have hslots : ∀ y, argv + 4 * 0 ≤ y → y < argv + 4 * 0 + 4 * (packedAt stackBase (program :: args)).length →
      (t, y / 128) ∈ pages := fun y hy hy' => harea y (by omega) (by omega)
  obtain ⟨k₄, hpointers, -, h₄⟩ := pushPointers_mapped 0 h₃ hslots
  obtain ⟨k₅, hnull, -, h₅⟩ := write_word h₄ 0#32 fun y (hy : argv + 4 * (args.length + 1) ≤ y) hy' =>
    harea y (by omega) (by omega)
  obtain ⟨q, hq⟩ := exists_process h₅.mapped (harea argv le_rfl (by omega))
  have hlist : [((stackBase - (program.length + 1) : ℕ) : Int)] ++
      (packedAt (stackBase - (program.length + 1)) args).map Nat.cast =
        (packedAt stackBase (program :: args)).map Nat.cast := rfl
  have hslot : (argv : Int) + ((args.length + 1 : ℕ) : Int) * 4 = ((argv + 4 * (args.length + 1) : ℕ) : Int) := by omega
  rw [hlist, hpointers, ok_bind, hslot, hnull, ok_bind, getProcess_eq hq, ok_bind]
  refine ⟨_, _, rfl, Function.update_self _ _ _, rfl, rfl, ?_⟩
  have huser := congrFun h₅.user t
  simp only [Function.update_self] at huser
  have hvm := vm_setProcess hq ⟨q.space, q.openFiles, argv - 8, (args.length + 1 : ℕ), argv⟩ rfl
  rw [storeWords_append, List.length_map, hcount]
  exact (congrFun (congrArg (Vm.user env.fs) hvm) t).trans huser

theorem Arguments.builds_iff (h : Arguments env k t x stackBase name program args pages) (hfew : args.length ≤ 18) :
    BuildsBlock env k t x stackBase name program args ↔
      Terminated (k.userByte env t) (stackBase - (program.length + 1)) args := by
  obtain ⟨k', q, hrun, hq, hargc, hargv, hmem⟩ := h.block hfew
  have hfits := h.fits
  have hnamed := hfits
  rw [packedSize_cons] at hnamed
  have hbelow : blockArgv stackBase (program :: args) + 4 * (program :: args).length + 4 +
      packedSize (program :: args) ≤ stackBase := by
    unfold blockArgv
    rw [List.length_cons]
    dsimp only
    omega
  have htop : stackBase < 4294967296 := by
    have hlt := address_lt ⟨h.sound, h.mapped, rfl⟩ (h.area (stackBase - 1) (by omega) (by omega))
    omega
  have hiff : ArgumentBlock (k'.userByte env t) (blockArgv stackBase (program :: args)) stackBase (program :: args) ↔
      Terminated (k.userByte env t) (stackBase - (program.length + 1)) args := by
    rw [hmem, argumentBlock_iff (holdsWords_storeWords _ _ _) hbelow htop,
      packed_congr (by omega) fun y hy _ => storeWords_outside _ _ _ (Or.inr ?_)]
    · exact packed_named_iff (by omega)
    · rw [List.length_append, List.length_map, packedAt_length, List.length_singleton]
      omega
  constructor
  · rintro ⟨k₁, q₁, argv, hrun₁, hq₁, -, hargv₁, -, hblock⟩
    rw [hrun] at hrun₁
    cases hrun₁
    rw [hq] at hq₁
    cases hq₁
    have hsame : argv = blockArgv stackBase (program :: args) := by
      rw [hargv] at hargv₁
      exact (Int.ofNat.inj hargv₁).symm
    rw [hsame] at hblock
    exact hiff.mp hblock
  · intro hterminated
    refine ⟨k', q, _, hrun, hq, hargc, hargv, ?_, hiff.mpr hterminated⟩
    unfold blockArgv
    dsimp only
    omega

end Block

end Os

/-! ## A caller with a vector on its first page -/

/-- `n` pointers to address 96, where there is a string of one byte. -/
def vectorMemory (n : ℕ) : Image := fun y => if y < 4 * n ∧ y % 4 = 0 then 96 else if y = 96 then 120 else 0

/-- Process 0 has its first page in frame 0; process 1 is new. -/
def launcher (d : ReaderDisk) (a : AddrSpace) (n : ℕ) : Os :=
  { reader d a readerFiles 0 with
    memory := ⟨fun f => if f = 0 then 1 else 0, ⟨numSectors, fun _ => 0#32⟩, vectorMemory n, d.disk⟩
    process := fun t => if t = 0 then some ⟨a.resident 0 0, readerFiles, 0, 0, 0⟩
      else if t = 1 then some ⟨a, readerFiles, 4080, 0, 0⟩ else none }

def launcherPages : Finset (ℕ × ℕ) := {(0, 0), (1, 30), (1, 31)}

section Launcher
variable {d : ReaderDisk} {a : AddrSpace} (hok : a.Ok) (hblank : a.noffH = blankHeader) (hpages : a.numPages = 32)
  (htable : a.pageTable = TranslationEntry.absent) (n : ℕ)

theorem launcher_spaces {t : ℕ} {b : AddrSpace} (h : (launcher d a n).vm.spaces t = some b) :
    (t = 0 ∧ b = a.resident 0 0) ∨ (t = 1 ∧ b = a) := by
  simp only [Os.vm, launcher] at h
  split at h
  · next ht =>
    cases h
    exact Or.inl ⟨ht, rfl⟩
  · split at h
    · next ht =>
      cases h
      exact Or.inr ⟨ht, rfl⟩
    · cases h

include htable in
theorem launcher_frame {k : ℕ × ℕ} {f : ℕ} (h : (launcher d a n).vm.frame k = some f) : k = (0, 0) ∧ f = 0 := by
  obtain ⟨t, v⟩ := k
  obtain ⟨b, hb, hf⟩ := Option.bind_eq_some_iff.mp h
  have hnone : a.frame v = none := frame_eq_none (by rw [htable]; rfl)
  rcases launcher_spaces n hb with ⟨ht, rfl⟩ | ⟨ht, rfl⟩
  · dsimp only at ht hf
    subst ht
    by_cases hv : v = 0
    · subst hv
      unfold AddrSpace.frame AddrSpace.resident at hf
      rw [setEntry_pageTable, Function.update_self] at hf
      split at hf
      · cases hf
        exact ⟨rfl, rfl⟩
      · cases hf
    · have hsame : (a.resident 0 0).frame v = a.frame v := by
        unfold AddrSpace.frame AddrSpace.resident
        rw [setEntry_pageTable, Function.update_of_ne hv]
        rfl
      rw [hsame, hnone] at hf
      cases hf
  · rw [hnone] at hf
    cases hf

include hok hpages htable in
theorem launcher_sound : (launcher d a n).vm.Sound where
  ok t b hb := by
    rcases launcher_spaces n hb with ⟨-, rfl⟩ | ⟨-, rfl⟩
    · exact hok.resident (by omega) (by decide)
    · exact hok
  exclusive := by
    constructor
    · intro k f hf
      obtain ⟨-, rfl⟩ := launcher_frame htable n hf
      exact ⟨by decide, show (if (0 : ℕ) = 0 then (1 : Int) else 0) ≠ 0 by decide⟩
    · intro k k' f hf hf'
      rw [(launcher_frame htable n hf).1, (launcher_frame htable n hf').1]

include hblank hpages htable in
theorem launcher_mapped : (launcher d a n).vm.Mapped readerOutside.fs launcherPages where
  page := by
    intro k hk
    simp only [launcherPages, Finset.mem_insert, Finset.mem_singleton] at hk
    rcases hk with rfl | rfl | rfl
    · refine ⟨a.resident 0 0, rfl, show 0 < a.numPages by omega, fun _ => by simp [AddrSpace.resident], fun hinvalid => ?_⟩
      simp [AddrSpace.resident] at hinvalid
    · exact ⟨a, blank_mappedPage rfl hblank hpages htable (by decide)⟩
    · exact ⟨a, blank_mappedPage rfl hblank hpages htable (by decide)⟩
  room := by
    refine (Finset.card_le_card (Finset.filter_subset _ _)).trans ?_
    have hfree : freeFrames (launcher d a n).vm.memory = (Finset.range numPhysPages).filter fun f => f ≠ 0 := by
      ext f
      simp [freeFrames, Os.vm, launcher]
    rw [hfree]
    decide

include hpages in
theorem launcher_caller {y : ℕ} (hy : y < 128) : (launcher d a n).userByte readerOutside 0 y = vectorMemory n y := by
  have hheld : (a.resident 0 0).held 0 = some 0 := by
    unfold AddrSpace.held
    rw [if_pos (by simp [AddrSpace.resident])]
    exact (frame_eq_some (show 0 < (a.resident 0 0).numPages from show 0 < a.numPages by omega) 0).mpr
      (by simp [AddrSpace.resident])
  have hplace : (launcher d a n).vm.place (0, y) = some y := by
    refine place_eq_some.mpr ⟨0, ?_, by dsimp only; omega⟩
    have hzero : y / 128 = 0 := by omega
    dsimp only
    rw [hzero]
    exact hheld
  exact user_of_place hplace

include hblank htable in
theorem launcher_new (y : ℕ) : (launcher d a n).userByte readerOutside 1 y = 0 := by
  have hnone : (launcher d a n).vm.place (1, y) = none := by
    rw [place_eq_none]
    cases hheld : (launcher d a n).vm.held (1, y / 128) with
    | none => rfl
    | some f =>
      have hone : (1 : ℕ) = 0 := congrArg Prod.fst (launcher_frame htable n (held_frame hheld)).1
      exact absurd hone (by decide)
  exact blank_user rfl hblank hnone

include hpages in
theorem launcher_vector (hn : n ≤ 19) {m j : ℕ} (hj : j + m = n) :
    VectorAt launcherPages 0 ((launcher d a n).userByte readerOutside 0) (4 * j) (List.replicate m [120]) := by
  have hbytes := fun y hy => launcher_caller (d := d) hpages n (y := y) hy
  have hfirst : ∀ y < 128, (0, y / 128) ∈ launcherPages := by
    intro y hy
    rw [Nat.div_eq_of_lt hy]
    decide
  induction m generalizing j with
  | zero =>
    refine ⟨fun i hi => hfirst _ (by omega), wordAt_of_bytes _ _ 0#32 fun i hi => ?_⟩
    rw [hbytes _ (by omega), vectorMemory, if_neg (by omega), if_neg (by omega)]
    simp [wordByte]
  | succ m ih =>
    have hword : wordAt ((launcher d a n).userByte readerOutside 0) (4 * j) = 96#32 := by
      refine wordAt_of_bytes _ _ 96#32 fun i hi => ?_
      rw [hbytes _ (by omega), vectorMemory]
      by_cases hi0 : i = 0
      · subst hi0
        rw [if_pos (by omega)]
        rfl
      · rw [if_neg (by omega), if_neg (by omega)]
        have hcases : i = 1 ∨ i = 2 ∨ i = 3 := by omega
        rcases hcases with rfl | rfl | rfl <;> rfl
    have hstring : StringAt launcherPages 0 ((launcher d a n).userByte readerOutside 0) 96 [120] := by
      refine ⟨fun o ho => ?_, by decide, by decide, fun i hi => hfirst _ ?_⟩
      · rw [List.length_singleton] at ho
        rw [hbytes _ (by omega), vectorMemory, if_neg (by omega)]
        have hcases : o = 0 ∨ o = 1 := by omega
        rcases hcases with rfl | rfl <;> rfl
      · rw [List.length_singleton] at hi
        omega
    refine ⟨fun i hi => hfirst _ (by omega), ?_, ?_, ?_⟩
    · rw [hword]
      decide
    · rw [hword]
      exact hstring
    · exact ih (j := j + 1) (by omega)

theorem packedSize_replicate (m : ℕ) (s : List UInt8) : packedSize (List.replicate m s) = m * (s.length + 1) := by
  simp [packedSize]

include hok hblank hpages htable in
/-- Up to 19 arguments, each of one byte. -/
theorem launcher_arguments (hn : n ≤ 19) :
    Os.Arguments readerOutside (launcher d a n) 1 0 4080 (ofBytes [97]) [97] (List.replicate n [120]) launcherPages where
  sound := launcher_sound hok hpages htable n
  mapped := launcher_mapped hblank hpages htable n
  other := show (1 : ℕ) ≠ 0 by decide
  process := ⟨_, rfl, rfl⟩
  vector := launcher_vector hpages n hn (Nat.zero_add n)
  holds := holdsString_ofBytes [97]
  chars := by decide
  short := by decide
  fits := by
    rw [packedSize_cons, packedSize_replicate, List.length_replicate, List.length_singleton, List.length_singleton]
    omega
  area y hy hy' := by
    unfold Os.blockArgv at hy
    simp only [packedSize_cons, packedSize_replicate, List.length_cons, List.length_replicate, List.length_nil] at hy
    have hcases : y / 128 = 30 ∨ y / 128 = 31 := by omega
    rcases hcases with hpage | hpage <;>
    · rw [hpage]
      decide

end Launcher

/-! ## When the block is well formed -/

namespace Os

theorem createStackArgs_block_iff {env : Outside} {k : Os} {t x stackBase : ℕ} {name : Image} {program : List UInt8}
    {pages : Finset (ℕ × ℕ)} (h : Arguments env k t x stackBase name program args pages) :
    BuildsBlock env k t x stackBase name program args ↔
      args.length ≤ 18 ∧ Terminated (k.userByte env t) (stackBase - (program.length + 1)) args := by
  by_cases hfew : args.length ≤ 18
  · rw [and_iff_right hfew]
    exact h.builds_iff hfew
  · refine iff_of_false ?_ (fun hcond => hfew hcond.1)
    rintro ⟨k', q, argv, hrun, -⟩
    rw [h.overrun (by omega)] at hrun
    cases hrun

/-- Two arguments for a program that has never run. -/
theorem createStackArgs_block_two : ∃ (k : Os) (pages : Finset (ℕ × ℕ)),
    Arguments readerOutside k 1 0 4080 (ofBytes [97]) [97] [[120], [120]] pages ∧
      BuildsBlock readerOutside k 1 0 4080 (ofBytes [97]) [97] [[120], [120]] := by
  obtain ⟨a, ha, hblank, hpages, -⟩ := blank_construct []
  obtain ⟨hok, -, htable, -⟩ := construct_eq_ok ha
  obtain ⟨d⟩ := exists_readerDisk
  have harguments := launcher_arguments (d := d) hok hblank hpages htable 2 (by decide)
  refine ⟨_, _, harguments, (createStackArgs_block_iff harguments).mpr ⟨by decide, ?_⟩⟩
  exact terminated_of_zeros (launcher_new hblank htable 2)

/-- With 19 arguments `argc` is 20, and the call goes past the end of `curr_argv`. -/
theorem createStackArgs_leaves_arrays : ∃ (k : Os) (pages : Finset (ℕ × ℕ)),
    Arguments readerOutside k 1 0 4080 (ofBytes [97]) [97] (List.replicate 19 [120]) pages ∧
      k.createStackArgs readerOutside 1 (0 : ℕ) (ofBytes [97]) = .error (.outOfBounds .buffer) ∧
      ¬ BuildsBlock readerOutside k 1 0 4080 (ofBytes [97]) [97] (List.replicate 19 [120]) := by
  obtain ⟨a, ha, hblank, hpages, -⟩ := blank_construct []
  obtain ⟨hok, -, htable, -⟩ := construct_eq_ok ha
  obtain ⟨d⟩ := exists_readerDisk
  have harguments := launcher_arguments (d := d) hok hblank hpages htable 19 (by decide)
  have hrun := harguments.overrun (by decide)
  refine ⟨_, _, harguments, hrun, ?_⟩
  rintro ⟨k', q, argv, hrun', -⟩
  rw [hrun] at hrun'
  cases hrun'

end Os

end Nachos
