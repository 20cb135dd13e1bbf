import Nachos.Machine.Basic
import Nachos.Library.Chain
import Nachos.Library.SortedList
import Mathlib.Data.Finset.Card
import Mathlib.Data.Finset.Lattice.Fold
import Mathlib.Order.Lattice.Nat

/-! # Lists (`threads/list.cc`)

A list is two pointers into a heap of elements, each with a link to the next one. Every sequence of calls
acts as it does on a sequence of items with keys, whose last element is where `last` points. The
allocator may give an address out again once its element has been deleted. -/
set_option autoImplicit false

namespace Nachos
open Execution SortedList

variable {α : Type}

/-- `operator new`: an address that is not in use. -/
structure Allocator where
  place : Finset ℕ → ℕ
  fresh : ∀ live, place live ∉ live

/-- An item is a pointer, and may be `NULL`. -/
structure ListElement (α : Type) where
  item : Option α
  key : ℕ
  next : Option ℕ

/-- `heap` are the elements by address, of which those in `live` exist. -/
structure LinkedList (α : Type) where
  first : Option ℕ
  last : Option ℕ
  heap : ℕ → ListElement α
  live : Finset ℕ

inductive ListOp (α : Type) where
  | append (item : Option α)
  | prepend (item : Option α)
  | remove
  | sortedInsert (item : Option α) (sortKey : ℕ)
  | sortedRemove

/-- What a call returns, and what it stores through `keyPtr`. -/
inductive ListResult (α : Type) where
  | done
  | removed (thing : Option α) (key : Option ℕ)

/-- The calls that keep a list sorted. -/
def ListOp.isSorted : ListOp α → Bool
  | .sortedInsert _ _ | .sortedRemove => true
  | .append _ | .prepend _ | .remove => false

def ListOp.inserted : ListOp α → Option (Element (Option α))
  | .sortedInsert item sortKey => some ⟨item, sortKey⟩
  | _ => none

def ListResult.taken : ListResult α → Option (Element (Option α))
  | .removed thing (some key) => some ⟨thing, key⟩
  | _ => none

namespace LinkedList

/-- `List::List`. -/
def empty (heap : ℕ → ListElement α) : LinkedList α := ⟨none, none, heap, ∅⟩

/-- The element that a pointer leads to. -/
def deref (s : LinkedList α) : Option ℕ → Call (ListElement α)
  | none => .error .badPointer
  | some a => if a ∈ s.live then .ok (s.heap a) else .error .badPointer

def withNext (s : LinkedList α) (a : ℕ) (next : Option ℕ) : LinkedList α :=
  { s with heap := Function.update s.heap a { s.heap a with next := next } }

/-- An assignment to the link of an element. -/
def setNext (s : LinkedList α) : Option ℕ → Option ℕ → Call (LinkedList α)
  | none, _ => .error .badPointer
  | some a, next => if a ∈ s.live then .ok (s.withNext a next) else .error .badPointer

/-- `new ListElement(item, sortKey)` at address `a`. -/
def add (s : LinkedList α) (a : ℕ) (item : Option α) (sortKey : ℕ) : LinkedList α :=
  { s with heap := Function.update s.heap a ⟨item, sortKey, none⟩, live := insert a s.live }

def isEmpty (s : LinkedList α) : Bool := s.first.isNone

/-- `last->next = element; last = element`. -/
def linkLast (s : LinkedList α) (element : ℕ) : Call (LinkedList α) := do
  let s ← s.setNext s.last (some element)
  return { s with last := some element }

def append (A : Allocator) (s : LinkedList α) (item : Option α) : Call (LinkedList α) := do
  let element := A.place s.live
  let s := s.add element item 0
  if s.isEmpty then return { s with first := some element, last := some element }
  else s.linkLast element

def prepend (A : Allocator) (s : LinkedList α) (item : Option α) : Call (LinkedList α) := do
  let element := A.place s.live
  let s := s.add element item 0
  if s.isEmpty then return { s with first := some element, last := some element }
  else
    let s ← s.setNext (some element) s.first
    return { s with first := some element }

/-- The loop of `SortedInsert` from `ptr` on, and what comes after it. -/
def insertFrom (element sortKey : ℕ) : ℕ → Option ℕ → LinkedList α → Call (LinkedList α)
  | 0, _, _ => .error .outOfFuel
  | fuel + 1, ptr, s => do
    match (← s.deref ptr).next with
    | none => s.linkLast element
    | some next =>
      if sortKey < (← s.deref (some next)).key then
        let s ← s.setNext (some element) (some next)
        s.setNext ptr (some element)
      else insertFrom element sortKey fuel (some next) s

/-- `SortedInsert`, after the element has been allocated. -/
def insertElement (element sortKey : ℕ) (s : LinkedList α) : Call (LinkedList α) := do
  if s.isEmpty then return { s with first := some element, last := some element }
  else
    let first ← s.deref s.first
    if sortKey < first.key then
      let s ← s.setNext (some element) s.first
      return { s with first := some element }
    else insertFrom element sortKey s.live.card s.first s

def sortedInsert (A : Allocator) (s : LinkedList α) (item : Option α) (sortKey : ℕ) : Call (LinkedList α) :=
  let element := A.place s.live
  insertElement element sortKey (s.add element item sortKey)

/-- `List::SortedRemove`; `keyPtr` says whether there is a place for the key. -/
def sortedRemove (keyPtr : Bool) (s : LinkedList α) : Call (ListResult α × LinkedList α) :=
  match s.first with
  | none => .ok (.removed none none, s)
  | some element => do
    let e ← s.deref (some element)
    let s := if s.first = s.last then { s with first := none, last := none } else { s with first := e.next }
    return (.removed e.item (if keyPtr then some e.key else none), { s with live := s.live.erase element })

def remove (s : LinkedList α) : Call (ListResult α × LinkedList α) := s.sortedRemove false

def call (A : Allocator) (s : LinkedList α) : ListOp α → Call (ListResult α × LinkedList α)
  | .append item => do return (.done, ← s.append A item)
  | .prepend item => do return (.done, ← s.prepend A item)
  | .remove => s.remove
  | .sortedInsert item sortKey => do return (.done, ← s.sortedInsert A item sortKey)
  | .sortedRemove => s.sortedRemove true

/-! ## Sequences -/

/-- The calls on a sequence of items with keys. -/
def seqCall (l : List (Element (Option α))) : ListOp α → ListResult α × List (Element (Option α))
  | .append item => (.done, l ++ [⟨item, 0⟩])
  | .prepend item => (.done, ⟨item, 0⟩ :: l)
  | .remove =>
    match l with
    | [] => (.removed none none, [])
    | x :: rest => (.removed x.item none, rest)
  | .sortedInsert item sortKey => (.done, SortedList.insert item sortKey l)
  | .sortedRemove =>
    match l with
    | [] => (.removed none none, [])
    | x :: rest => (.removed x.item (some x.key), rest)

def SeqStep (l : List (Element (Option α))) (op : ListOp α) (r : ListResult α) (l' : List (Element (Option α))) : Prop :=
  seqCall l op = (r, l')

/-! ## The representation -/

def next (s : LinkedList α) (a : ℕ) : Option ℕ := (s.heap a).next

def element (s : LinkedList α) (a : ℕ) : Element (Option α) := ⟨(s.heap a).item, (s.heap a).key⟩

/-- The links lead from `first` through the given elements to `last`. -/
structure Holds (s : LinkedList α) (as : List ℕ) : Prop where
  chain : LinkChain.Chain s.next s.first as
  last : s.last = as.getLast?
  nodup : as.Nodup

/-- The list consists of these elements, and no others exist. -/
structure Represents (s : LinkedList α) (as : List ℕ) (l : List (Element (Option α))) : Prop extends Holds s as where
  live : s.live = as.toFinset
  elements : as.map s.element = l

/-- There is one element more, which the links do not reach. -/
structure Awaits (s : LinkedList α) (x : ℕ) (e : Element (Option α)) (as : List ℕ) (l : List (Element (Option α))) :
    Prop extends Holds s as where
  notMem : x ∉ as
  live : s.live = insert x as.toFinset
  nextNone : s.next x = none
  new : s.element x = e
  elements : as.map s.element = l

@[simp] theorem withNext_next (s : LinkedList α) (a : ℕ) (n : Option ℕ) (b : ℕ) :
    (s.withNext a n).next b = if b = a then n else s.next b := by
  unfold next withNext
  dsimp only
  rw [Function.update_apply]
  split <;> rfl

@[simp] theorem withNext_element (s : LinkedList α) (a : ℕ) (n : Option ℕ) : (s.withNext a n).element = s.element := by
  funext b
  unfold element withNext
  dsimp only
  rw [Function.update_apply]
  split
  · next h => rw [h]
  · rfl

@[simp] theorem withNext_first (s : LinkedList α) (a : ℕ) (n : Option ℕ) : (s.withNext a n).first = s.first := rfl

@[simp] theorem withNext_last (s : LinkedList α) (a : ℕ) (n : Option ℕ) : (s.withNext a n).last = s.last := rfl

@[simp] theorem withNext_live (s : LinkedList α) (a : ℕ) (n : Option ℕ) : (s.withNext a n).live = s.live := rfl

theorem setNext_eq {s : LinkedList α} {a : ℕ} (ha : a ∈ s.live) (n : Option ℕ) :
    s.setNext (some a) n = .ok (s.withNext a n) := if_pos ha

theorem deref_eq {s : LinkedList α} {a : ℕ} (ha : a ∈ s.live) : s.deref (some a) = .ok (s.heap a) := if_pos ha

section Spec

variable {s : LinkedList α} {x : ℕ} {e : Element (Option α)} {as : List ℕ} {l : List (Element (Option α))}

theorem represents_empty (heap : ℕ → ListElement α) : (empty heap).Represents [] [] :=
  ⟨⟨rfl, rfl, List.nodup_nil⟩, rfl, rfl⟩

theorem Represents.mem_live (h : s.Represents as l) {a : ℕ} (ha : a ∈ as) : a ∈ s.live := by
  rw [h.live]
  exact List.mem_toFinset.mpr ha

theorem Awaits.mem_live (h : s.Awaits x e as l) {a : ℕ} (ha : a ∈ as) : a ∈ s.live := by
  rw [h.live]
  exact Finset.mem_insert_of_mem (List.mem_toFinset.mpr ha)

theorem Awaits.new_live (h : s.Awaits x e as l) : x ∈ s.live := by
  rw [h.live]
  exact Finset.mem_insert_self _ _

/-- `new ListElement`. -/
theorem Represents.add (h : s.Represents as l) (hx : x ∉ s.live) (item : Option α) (sortKey : ℕ) :
    (s.add x item sortKey).Awaits x ⟨item, sortKey⟩ as l := by
  have hmem : x ∉ as := by
    intro hmem
    exact hx (h.mem_live hmem)
  have hsame : ∀ a ∈ as, (s.add x item sortKey).heap a = s.heap a := by
    intro a ha
    apply Function.update_of_ne
    rintro rfl
    exact hmem ha
  have hself : (s.add x item sortKey).heap x = ⟨item, sortKey, none⟩ := Function.update_self _ _ _
  refine ⟨⟨h.chain.congr ?_, h.last, h.nodup⟩, hmem, ?_, ?_, ?_, ?_⟩
  · intro a ha
    unfold next
    rw [hsame a ha]
  · rw [← h.live]
    rfl
  · unfold next
    rw [hself]
  · unfold element
    rw [hself]
  · rw [← h.elements]
    apply List.map_congr_left
    intro a ha
    unfold element
    rw [hsame a ha]

/-- The links now reach the new element as well. -/
theorem Awaits.represents (h : s.Awaits x e as l) (s' : LinkedList α) (as' : List ℕ) (hperm : as'.Perm (x :: as))
    (hchain : LinkChain.Chain s'.next s'.first as') (hlast : s'.last = as'.getLast?) (hlive : s'.live = s.live)
    (helement : s'.element = s.element) : s'.Represents as' (as'.map s.element) where
  chain := hchain
  last := hlast
  nodup := hperm.nodup_iff.mpr (List.nodup_cons.mpr ⟨h.notMem, h.nodup⟩)
  live := by
    rw [hlive, h.live, List.toFinset_eq_of_perm _ _ hperm, List.toFinset_cons]
  elements := by rw [helement]

theorem Awaits.only (h : s.Awaits x e [] l) : { s with first := some x, last := some x }.Represents [x] [e] := by
  have hrep := h.represents { s with first := some x, last := some x } [x] (.refl _)
    ⟨rfl, h.nextNone⟩ rfl rfl rfl
  rw [List.map_singleton, h.new] at hrep
  exact hrep

theorem Awaits.front (h : s.Awaits x e as l) (has : as ≠ []) :
    { s.withNext x s.first with first := some x }.Represents (x :: as) (e :: l) := by
  have hsame : ∀ a ∈ as, (s.withNext x s.first).next a = s.next a := by
    intro a ha
    rw [withNext_next, if_neg]
    rintro rfl
    exact h.notMem ha
  have hself : (s.withNext x s.first).next x = s.first := by
    rw [withNext_next, if_pos rfl]
  have hlast : s.last = (x :: as).getLast? := by
    rw [h.last, List.getLast?_cons_of_ne_nil has]
  have hrep := h.represents { s.withNext x s.first with first := some x } (x :: as) (.refl _)
    (h.chain.cons hself hsame) hlast rfl (withNext_element _ _ _)
  rw [List.map_cons, h.new, h.elements] at hrep
  exact hrep

/-- The new element is linked behind the element at `z`. -/
theorem Awaits.behind {z : ℕ} {l₁ l₂ : List ℕ} (h : s.Awaits x e (l₁ ++ z :: l₂) l) (s' : LinkedList α)
    (hz : s'.next z = some x) (hx : s'.next x = s.next z) (hother : ∀ a, a ≠ z → a ≠ x → s'.next a = s.next a)
    (hfirst : s'.first = s.first) (hlast : s'.last = (x :: l₂).getLast?) (hlive : s'.live = s.live)
    (helement : s'.element = s.element) :
    s'.Represents (l₁ ++ z :: x :: l₂) ((l₁ ++ [z]).map s.element ++ e :: l₂.map s.element) := by
  have hnd := List.nodup_append.mp h.nodup
  have hsame : ∀ a ∈ l₁ ++ l₂, s'.next a = s.next a := by
    intro a ha
    have hne : a ≠ z := by
      rintro rfl
      rcases List.mem_append.mp ha with ha | ha
      · exact hnd.2.2 a ha a List.mem_cons_self rfl
      · exact (List.nodup_cons.mp hnd.2.1).1 ha
    have hmem : a ∈ l₁ ++ z :: l₂ := by
      rcases List.mem_append.mp ha with ha | ha
      · exact List.mem_append_left _ ha
      · exact List.mem_append_right _ (List.mem_cons_of_mem _ ha)
    apply hother a hne
    rintro rfl
    exact h.notMem hmem
  have hperm : (l₁ ++ z :: x :: l₂).Perm (x :: (l₁ ++ z :: l₂)) := by
    have hmiddle := @List.perm_middle _ x (l₁ ++ [z]) l₂
    simpa only [List.append_assoc, List.singleton_append] using hmiddle
  have hend : s'.last = (l₁ ++ z :: x :: l₂).getLast? := by
    rw [hlast, List.getLast?_append_cons, List.getLast?_cons_cons]
  have hchain : LinkChain.Chain s'.next s'.first (l₁ ++ z :: x :: l₂) := by
    rw [hfirst]
    exact h.chain.link hz hx hsame
  have hrep := h.represents s' _ hperm hchain hend hlive helement
  have hmap : (l₁ ++ z :: x :: l₂).map s.element = (l₁ ++ [z]).map s.element ++ e :: l₂.map s.element := by
    simp only [List.map_append, List.map_cons, List.map_nil, h.new, List.append_assoc, List.singleton_append]
  rw [hmap] at hrep
  exact hrep

/-- The end of `Append` and of `SortedInsert`. -/
theorem Awaits.back {z : ℕ} {l₁ : List ℕ} (h : s.Awaits x e (l₁ ++ [z]) l) :
    ∃ s', s.linkLast x = .ok s' ∧ s'.Represents (l₁ ++ [z, x]) (l ++ [e]) := by
  have hz : z ∈ s.live := h.mem_live (by simp)
  have hlast : s.last = some z := by
    rw [h.last, List.getLast?_append_cons]
    rfl
  have hxz : x ≠ z := by
    rintro rfl
    exact h.notMem (by simp)
  refine ⟨{ s.withNext z (some x) with last := some x }, ?_, ?_⟩
  · unfold linkLast
    rw [hlast, setNext_eq hz]
    rfl
  · have hnone : s.next z = none := h.chain.next_eq
    have hrep := h.behind { s.withNext z (some x) with last := some x } ?_ ?_ ?_ rfl rfl rfl (withNext_element _ _ _)
    · rw [h.elements] at hrep
      exact hrep
    · exact (withNext_next s z (some x) z).trans (if_pos rfl)
    · rw [hnone]
      exact ((withNext_next s z (some x) x).trans (if_neg hxz)).trans h.nextNone
    · intro a ha _
      exact (withNext_next s z (some x) a).trans (if_neg ha)

/-- One round of the loop of `SortedInsert`. -/
theorem Awaits.insertFrom_succ {z : ℕ} {l₁ l₂ : List ℕ} (h : s.Awaits x e (l₁ ++ z :: l₂) l) (fuel : ℕ) :
    LinkedList.insertFrom x e.key (fuel + 1) (some z) s = match l₂ with
      | [] => s.linkLast x
      | y :: _ =>
        if e.key < (s.element y).key then .ok ((s.withNext x (some y)).withNext z (some x))
        else LinkedList.insertFrom x e.key fuel (some y) s := by
  have hz : z ∈ s.live := h.mem_live (List.mem_append_right _ List.mem_cons_self)
  have hnext : (s.heap z).next = l₂.head? := h.chain.next_eq
  conv_lhs => unfold LinkedList.insertFrom
  rw [deref_eq hz, ok_bind, hnext]
  cases l₂ with
  | nil => rfl
  | cons y l₃ =>
    have hy : y ∈ s.live := h.mem_live (by simp)
    have hz' : z ∈ (s.withNext x (some y)).live := hz
    simp only [List.head?_cons]
    rw [deref_eq hy, ok_bind, setNext_eq h.new_live, ok_bind, setNext_eq hz']
    rfl

/-- The new element goes before the first one behind `z` with a greater key. -/
theorem Awaits.insertFrom {z : ℕ} {l₁ l₂ : List ℕ} (h : s.Awaits x e (l₁ ++ z :: l₂) l) {fuel : ℕ}
    (hfuel : l₂.length < fuel) :
    ∃ s' as', LinkedList.insertFrom x e.key fuel (some z) s = .ok s' ∧
      s'.Represents as' ((l₁ ++ [z]).map s.element ++ SortedList.insert e.item e.key (l₂.map s.element)) := by
  induction l₂ generalizing z l₁ fuel with
  | nil =>
    obtain ⟨fuel, rfl⟩ := Nat.exists_eq_succ_of_ne_zero (Nat.ne_zero_of_lt hfuel)
    obtain ⟨s', hrun, hrep⟩ := h.back
    rw [← h.elements] at hrep
    exact ⟨s', _, (h.insertFrom_succ fuel).trans hrun, hrep⟩
  | cons y l₃ ih =>
    obtain ⟨fuel, rfl⟩ := Nat.exists_eq_succ_of_ne_zero (Nat.ne_zero_of_lt hfuel)
    rw [h.insertFrom_succ]
    dsimp only
    rw [List.map_cons, SortedList.insert]
    have hxz : x ≠ z := by
      rintro rfl
      exact h.notMem (by simp)
    split
    · refine ⟨_, _, rfl, h.behind ((s.withNext x (some y)).withNext z (some x)) ?_ ?_ ?_ rfl ?_ rfl ?_⟩
      · rw [withNext_next, if_pos rfl]
      · rw [withNext_next, if_neg hxz, withNext_next, if_pos rfl]
        exact h.chain.next_eq.symm
      · intro a haz hax
        rw [withNext_next, if_neg haz, withNext_next, if_neg hax]
      · rw [withNext_last, withNext_last, h.last, List.getLast?_append_cons, List.getLast?_cons_cons,
          List.getLast?_cons_cons]
      · rw [withNext_element, withNext_element]
    · have hsplit : l₁ ++ z :: y :: l₃ = (l₁ ++ [z]) ++ y :: l₃ := by simp
      rw [hsplit] at h
      obtain ⟨s', as', hrun, hrep⟩ := ih h (Nat.lt_of_succ_lt_succ hfuel)
      refine ⟨s', as', hrun, ?_⟩
      rw [List.map_append, List.append_assoc] at hrep
      exact hrep

/-! ## The calls -/

theorem Holds.isEmpty_iff (h : s.Holds as) : s.isEmpty = true ↔ as = [] := by
  unfold isEmpty
  rw [h.chain.head, Option.isNone_iff_eq_none, List.head?_eq_none_iff]

theorem Represents.append (h : s.Represents as l) (A : Allocator) (item : Option α) :
    ∃ s' as', s.append A item = .ok s' ∧ s'.Represents as' (l ++ [⟨item, 0⟩]) := by
  have hnew := h.add (A.fresh s.live) item 0
  unfold LinkedList.append
  dsimp only
  rcases List.eq_nil_or_concat as with rfl | ⟨l₁, z, rfl⟩
  · have hl : l = [] := h.elements.symm
    rw [if_pos (hnew.isEmpty_iff.mpr rfl), hl]
    exact ⟨_, _, rfl, hnew.only⟩
  · rw [List.concat_eq_append] at hnew
    obtain ⟨s', hrun, hrep⟩ := hnew.back
    rw [if_neg fun hempty => List.append_ne_nil_of_right_ne_nil _ (List.cons_ne_nil _ _) (hnew.isEmpty_iff.mp hempty)]
    exact ⟨s', _, hrun, hrep⟩

theorem Represents.prepend (h : s.Represents as l) (A : Allocator) (item : Option α) :
    ∃ s' as', s.prepend A item = .ok s' ∧ s'.Represents as' (⟨item, 0⟩ :: l) := by
  have hnew := h.add (A.fresh s.live) item 0
  unfold LinkedList.prepend
  dsimp only
  by_cases has : as = []
  · subst has
    have hl : l = [] := h.elements.symm
    rw [if_pos (hnew.isEmpty_iff.mpr rfl), hl]
    exact ⟨_, _, rfl, hnew.only⟩
  · rw [if_neg fun hempty => has (hnew.isEmpty_iff.mp hempty), setNext_eq hnew.new_live, ok_bind]
    exact ⟨_, _, rfl, hnew.front has⟩

theorem Awaits.length_lt (h : s.Awaits x e as l) : as.length < s.live.card := by
  rw [h.live, Finset.card_insert_of_notMem, List.toFinset_card_of_nodup h.nodup]
  · exact Nat.lt_succ_self _
  · rw [List.mem_toFinset]
    exact h.notMem

theorem Awaits.insertElement (h : s.Awaits x e as l) :
    ∃ s' as', insertElement x e.key s = .ok s' ∧ s'.Represents as' (SortedList.insert e.item e.key l) := by
  unfold LinkedList.insertElement
  cases as with
  | nil =>
    have hl : l = [] := h.elements.symm
    rw [if_pos (h.isEmpty_iff.mpr rfl), hl]
    exact ⟨_, _, rfl, h.only⟩
  | cons a rest =>
    have ha : a ∈ s.live := h.mem_live List.mem_cons_self
    have hfirst : s.first = some a := h.chain.head
    have hderef : s.deref s.first = .ok (s.heap a) := by
      rw [hfirst]
      exact deref_eq ha
    rw [if_neg fun hempty => List.cons_ne_nil _ _ (h.isEmpty_iff.mp hempty), hderef, ok_bind]
    by_cases hlt : e.key < (s.heap a).key
    · have hinsert : SortedList.insert e.item e.key ((a :: rest).map s.element) = e :: (a :: rest).map s.element :=
        if_pos hlt
      rw [if_pos hlt, setNext_eq h.new_live, ok_bind, ← h.elements, hinsert, h.elements]
      exact ⟨_, _, rfl, h.front (List.cons_ne_nil a rest)⟩
    · have hinsert : SortedList.insert e.item e.key ((a :: rest).map s.element) =
          ([] ++ [a]).map s.element ++ SortedList.insert e.item e.key (rest.map s.element) := if_neg hlt
      rw [if_neg hlt, hfirst, ← h.elements, hinsert]
      exact Awaits.insertFrom h (Nat.lt_of_succ_lt h.length_lt)

theorem Represents.sortedInsert (h : s.Represents as l) (A : Allocator) (item : Option α) (sortKey : ℕ) :
    ∃ s' as', s.sortedInsert A item sortKey = .ok s' ∧ s'.Represents as' (SortedList.insert item sortKey l) :=
  (h.add (A.fresh s.live) item sortKey).insertElement

theorem Represents.sortedRemove_nil (h : s.Represents [] l) (keyPtr : Bool) :
    s.sortedRemove keyPtr = .ok (.removed none none, s) := by
  unfold LinkedList.sortedRemove
  rw [h.chain.head]
  rfl

theorem Represents.sortedRemove_cons {a : ℕ} {rest : List ℕ} (h : s.Represents (a :: rest) l) (keyPtr : Bool) :
    ∃ s', s.sortedRemove keyPtr =
        .ok (.removed (s.element a).item (if keyPtr then some (s.element a).key else none), s') ∧
      s'.Represents rest (rest.map s.element) := by
  have hfirst : s.first = some a := h.chain.head
  have ha : a ∈ s.live := h.mem_live List.mem_cons_self
  have hnd := List.nodup_cons.mp h.nodup
  have hlive : s.live.erase a = rest.toFinset := by
    rw [h.live, List.toFinset_cons, Finset.erase_insert]
    simpa using hnd.1
  unfold LinkedList.sortedRemove
  rw [hfirst]
  dsimp only
  rw [deref_eq ha, ok_bind]
  cases rest with
  | nil =>
    have hsame : some a = s.last := h.last.symm
    rw [if_pos hsame]
    exact ⟨_, rfl, ⟨rfl, rfl, List.nodup_nil⟩, hlive, rfl⟩
  | cons b rest =>
    have hlast : s.last = (b :: rest).getLast? := by
      rw [h.last, List.getLast?_cons_cons]
    have hne : ¬ some a = s.last := by
      intro heq
      rw [hlast] at heq
      exact hnd.1 (List.mem_of_getLast? heq.symm)
    rw [if_neg hne]
    exact ⟨_, rfl, ⟨h.chain.2, hlast, hnd.2⟩, hlive, rfl⟩

theorem Represents.removes (h : s.Represents as l) (keyPtr : Bool) :
    ∃ r s' l', s.sortedRemove keyPtr = .ok (r, s') ∧ SeqStep l (if keyPtr then .sortedRemove else .remove) r l' ∧
      ∃ as', s'.Represents as' l' := by
  have hl := h.elements
  cases as with
  | nil =>
    subst hl
    refine ⟨_, s, [], h.sortedRemove_nil keyPtr, ?_, [], h⟩
    cases keyPtr <;> rfl
  | cons a rest =>
    obtain ⟨s', hrun, hrep⟩ := h.sortedRemove_cons keyPtr
    subst hl
    refine ⟨_, s', _, hrun, ?_, rest, hrep⟩
    cases keyPtr <;> rfl

/-- A call on the list is the call on the sequence. -/
theorem represents_call (A : Allocator) (s : LinkedList α) (l : List (Element (Option α))) (op : ListOp α)
    (h : ∃ as, s.Represents as l) :
    ∃ r s' l', s.call A op = .ok (r, s') ∧ SeqStep l op r l' ∧ ∃ as', s'.Represents as' l' := by
  obtain ⟨as, h⟩ := h
  cases op with
  | append item =>
    obtain ⟨s', as', hrun, hrep⟩ := h.append A item
    exact ⟨.done, s', _, by simp only [LinkedList.call, hrun, ok_bind, pure_eq_ok], rfl, as', hrep⟩
  | prepend item =>
    obtain ⟨s', as', hrun, hrep⟩ := h.prepend A item
    exact ⟨.done, s', _, by simp only [LinkedList.call, hrun, ok_bind, pure_eq_ok], rfl, as', hrep⟩
  | sortedInsert item sortKey =>
    obtain ⟨s', as', hrun, hrep⟩ := h.sortedInsert A item sortKey
    exact ⟨.done, s', _, by simp only [LinkedList.call, hrun, ok_bind, pure_eq_ok], rfl, as', hrep⟩
  | remove => exact h.removes false
  | sortedRemove => exact h.removes true

end Spec

/-! ## Sorted lists -/

/-- Items come out in the order of their keys, and those of one key in the order in which they went in; all
of them come out or are still there. -/
theorem sorted_answers {l l' : List (Element (Option α))} {ops : List (ListOp α)} {rs : List (ListResult α)}
    (h : Answers SeqStep l ops rs l') (hops : ∀ op ∈ ops, op.isSorted = true) (hl : Sorted l) :
    Sorted l' ∧ (rs.filterMap ListResult.taken ++ l').Perm (l ++ ops.filterMap ListOp.inserted) ∧
      ∀ k, (rs.filterMap ListResult.taken ++ l').filter (fun x => x.key = k) =
        (l ++ ops.filterMap ListOp.inserted).filter fun x => x.key = k := by
  induction h with
  | nil l => exact ⟨hl, by simp, by simp⟩
  | @cons l l₁ l' op r ops rs hstep hs ih =>
    obtain ⟨hop, hrest⟩ := List.forall_mem_cons.mp hops
    cases op with
    | append _ | prepend _ | remove => cases hop
    | sortedInsert item sortKey =>
      obtain ⟨rfl, rfl⟩ := Prod.mk.inj hstep
      obtain ⟨hsorted, hperm, hfilter⟩ := ih hrest (hl.insert item sortKey)
      rw [List.filterMap_cons_none rfl, List.filterMap_cons_some (by rfl : (ListOp.sortedInsert item sortKey).inserted = _)]
      refine ⟨hsorted, hperm.trans ?_, ?_⟩
      · exact ((insert_perm item sortKey l).append_right _).trans List.perm_middle.symm
      · intro k
        rw [hfilter, List.filter_append, hl.filter_insert, ← List.filter_append, List.append_assoc,
          List.singleton_append]
    | sortedRemove =>
      rw [List.filterMap_cons_none (by rfl : (ListOp.sortedRemove : ListOp α).inserted = none)]
      cases l with
      | nil =>
        obtain ⟨rfl, rfl⟩ := Prod.mk.inj hstep
        rw [List.filterMap_cons_none rfl]
        exact ih hrest hl
      | cons x rest =>
        obtain ⟨rfl, rfl⟩ := Prod.mk.inj hstep
        obtain ⟨hsorted, hperm, hfilter⟩ := ih hrest hl.tail
        rw [List.filterMap_cons_some (by rfl : (ListResult.removed x.item (some x.key)).taken = some x)]
        refine ⟨hsorted, hperm.cons x, ?_⟩
        intro k
        rw [List.cons_append, List.cons_append, List.filter_cons, List.filter_cons, hfilter]

/-- Every sequence of calls on an empty list returns what it returns on an empty sequence. The links lead
from `first` through the elements of the sequence to `last`, and there are no others. If only the sorted
calls are used, the list is sorted, items of one key come out in the order in which they went in, and none
is lost or comes twice. -/
theorem refines_sequence (A : Allocator) (heap : ℕ → ListElement α) (ops : List (ListOp α)) :
    ∃ rs s l, callAll (LinkedList.call A) (empty heap) ops = .ok (rs, s) ∧ Answers SeqStep [] ops rs l ∧
      (∃ as, LinkChain.Chain s.next s.first as ∧ s.last = as.getLast? ∧ as.Nodup ∧ s.live = as.toFinset ∧
        as.map s.element = l) ∧
      (s.first = none ↔ l = []) ∧
      ((∀ op ∈ ops, op.isSorted = true) → Sorted l ∧
        (rs.filterMap ListResult.taken ++ l).Perm (ops.filterMap ListOp.inserted) ∧
        ∀ k, (rs.filterMap ListResult.taken ++ l).filter (fun x => x.key = k) =
          (ops.filterMap ListOp.inserted).filter fun x => x.key = k) := by
  obtain ⟨rs, s, l, hrun, hanswers, as, hrep⟩ := callAll_refines (fun s l => ∃ as, Represents s as l)
    (represents_call A) ⟨[], represents_empty heap⟩ ops
  refine ⟨rs, s, l, hrun, hanswers, ⟨as, hrep.chain, hrep.last, hrep.nodup, hrep.live, hrep.elements⟩, ?_, ?_⟩
  · rw [hrep.chain.head, List.head?_eq_none_iff, ← hrep.elements, List.map_eq_nil_iff]
  · intro hops
    exact sorted_answers hanswers hops List.Pairwise.nil

/-- The address above those in use; that of an element deleted there comes again. -/
def above : Allocator where
  place live := live.sup id + 1
  fresh _ hmem := Nat.not_succ_le_self _ (Finset.le_sup (f := id) hmem)

/-- Two items are put in out of order, and one is taken out. -/
theorem refines_sequence_above :
    ∃ rs s l, callAll (LinkedList.call above) (empty fun _ => ⟨none, 0, none⟩)
        [.sortedInsert (some true) 2, .sortedInsert (some false) 1, .sortedRemove] = .ok (rs, s) ∧
      Sorted l ∧ (rs.filterMap ListResult.taken ++ l).Perm [⟨some true, 2⟩, ⟨some false, 1⟩] := by
  obtain ⟨rs, s, l, hrun, -, -, -, hsorted⟩ := refines_sequence above (fun _ => ⟨none, 0, none⟩)
    [.sortedInsert (some true) 2, .sortedInsert (some false) 1, .sortedRemove]
  obtain ⟨hl, hperm, -⟩ := hsorted (by simp [ListOp.isSorted])
  exact ⟨rs, s, l, hrun, hl, hperm⟩

end LinkedList

end Nachos
