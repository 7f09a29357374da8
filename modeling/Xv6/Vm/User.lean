import Xv6.Vm.Isolation

namespace Xv6

open Lib

-- The memory during a system call, with the bytes that the call has stored in the memory of
-- its process, each one with its virtual address.
structure User where
  mem : Mem
  stored : List (Nat × UInt8)

abbrev UserM (α : Type) := Fallible User Panic α

-- Bytes at consecutive virtual addresses.
def placed : Nat → List UInt8 → List (Nat × UInt8)
  | _, [] => []
  | va, b :: bs => (va, b) :: placed (u64 (va + 1)) bs

-- The page table lets user code write at va.
def Writable (m : Mem) (root va : Nat) : Prop :=
  va < MAXVA ∧ flat m root (va / PGSIZE) &&& PTE_V ≠ 0 ∧ flat m root (va / PGSIZE) &&& PTE_U ≠ 0 ∧
    flat m root (va / PGSIZE) &&& PTE_W ≠ 0

instance (m : Mem) (root va : Nat) : Decidable (Writable m root va) :=
  inferInstanceAs (Decidable (_ ∧ _ ∧ _ ∧ _))

namespace User

def lift {α : Type} (x : MemM α) : UserM α := Fallible.zoom User.mem (fun m u => { u with mem := m }) x

-- The bytes of bs at va, inside one page.
def store (u : User) (root va : Nat) (bs : List UInt8) : User where
  mem := u.mem.setPage (PTE2PA (flat u.mem root (va / PGSIZE)))
    ((u.mem.page (PTE2PA (flat u.mem root (va / PGSIZE)))).putBytes (va % PGSIZE) bs)
  stored := u.stored ++ placed va bs

-- copyoutLoop(), which notes what it stores.
def copyoutLoop (pagetable : Nat) : Nat → Nat → List UInt8 → UserM Int
  | 0, _, _ => return 0
  | fuel + 1, dstva, src =>
    if src = [] then
      return 0
    else if MAXVA ≤ PGROUNDDOWN dstva then
      return -1
    else do
      match ← lift (walk pagetable (PGROUNDDOWN dstva) false) with
      | none => return -1
      | some pte => do
          let e ← lift (loadPte pte)
          if e &&& PTE_V = 0 ∨ e &&& PTE_U = 0 ∨ e &&& PTE_W = 0 then
            return -1
          else do
            let u ← get
            let off := dstva - PGROUNDDOWN dstva
            let n := min (PGSIZE - off) src.length
            set (⟨u.mem.setPage (PTE2PA e) ((u.mem.page (PTE2PA e)).putBytes off (src.take n)),
              u.stored ++ placed dstva (src.take n)⟩ : User)
            copyoutLoop pagetable fuel (u64 (PGROUNDDOWN dstva + PGSIZE)) (src.drop n)

def copyout (pagetable dstva : Nat) (src : List UInt8) : UserM Int :=
  copyoutLoop pagetable src.length dstva src

end User

variable {m : Mem} {u : User} {root va : Nat} {src : List UInt8}

theorem PGROUNDDOWN_div (va : Nat) : PGROUNDDOWN va / 4096 = va / PGSIZE :=
  Nat.mul_div_cancel _ (by decide)

theorem PGROUNDDOWN_lt_iff : PGROUNDDOWN va < MAXVA ↔ va < MAXVA := by
  unfold PGROUNDDOWN PGSIZE MAXVA
  omega

theorem sub_PGROUNDDOWN (va : Nat) : va - PGROUNDDOWN va = va % PGSIZE := by
  unfold PGROUNDDOWN PGSIZE
  omega

theorem walk_eq (hva : va < MAXVA) : walk root va false m =
    .ok ((ptes.leaf m.load 2 root (pageIndex (va / 4096))).map
      fun p => (p, pageIndex (va / 4096) 0), m) := by
  have hwp : Wp (walk root va false) m (fun _ => False) fun r m' =>
      r = (ptes.leaf m.load 2 root (pageIndex (va / 4096))).map
        (fun p => (p, pageIndex (va / 4096) 0)) ∧ m' = m := by
    refine Wp.ite (fun hge => absurd hva (Nat.not_lt.mpr hge)) fun _ => walkLevels_find ⟨rfl, rfl⟩
  obtain ⟨r, m', hrun, rfl, rfl⟩ := hwp.exists_ok
  exact hrun

namespace User

theorem lift_ok {α : Type} {x : MemM α} {a : α} {m' : Mem} (h : x u.mem = .ok (a, m')) :
    lift x u = .ok (a, { u with mem := m' }) := by
  rw [lift, Fallible.zoom, h]

-- One page.
theorem copyoutLoop_succ (fuel : Nat) (hsrc : src ≠ []) : copyoutLoop root (fuel + 1) va src u =
    if Writable u.mem root va then
      copyoutLoop root fuel (u64 (PGROUNDDOWN va + PGSIZE))
        (src.drop (min (PGSIZE - va % PGSIZE) src.length))
        (u.store root va (src.take (min (PGSIZE - va % PGSIZE) src.length)))
    else .ok (-1, u) := by
  rw [copyoutLoop, if_neg hsrc]
  by_cases hva : va < MAXVA
  · have hround := PGROUNDDOWN_lt_iff.mpr hva
    rw [if_neg (Nat.not_le.mpr hround), Fallible.bind_ok (lift_ok (walk_eq hround)), PGROUNDDOWN_div]
    have hflat : flat u.mem root (va / PGSIZE) = ptes.lookup u.mem.load 2 root
        (pageIndex (va / PGSIZE)) := rfl
    cases hleaf : ptes.leaf u.mem.load 2 root (pageIndex (va / PGSIZE)) with
    | none =>
      have hnot : ¬ Writable u.mem root va := fun h => h.2.1 (by
        rw [hflat, Radix.lookup_of_no_leaf hleaf]
        rfl)
      rw [if_neg hnot]
      rfl
    | some p =>
      have hload : lift (loadPte (p, pageIndex (va / PGSIZE) 0)) u =
          .ok (flat u.mem root (va / PGSIZE), u) := by
        rw [hflat, Radix.lookup_of_leaf hleaf]
        rfl
      rw [Option.map_some]
      refine (Fallible.bind_ok hload).trans ?_
      by_cases hw : Writable u.mem root va
      · have hflags : ¬ (flat u.mem root (va / PGSIZE) &&& PTE_V = 0 ∨
            flat u.mem root (va / PGSIZE) &&& PTE_U = 0 ∨
            flat u.mem root (va / PGSIZE) &&& PTE_W = 0) := by
          have := hw.2
          tauto
        rw [if_neg hflags, if_pos hw, sub_PGROUNDDOWN]
        rfl
      · have hflags : flat u.mem root (va / PGSIZE) &&& PTE_V = 0 ∨
            flat u.mem root (va / PGSIZE) &&& PTE_U = 0 ∨
            flat u.mem root (va / PGSIZE) &&& PTE_W = 0 := by
          by_contra hno
          push Not at hno
          exact hw ⟨hva, hno⟩
        rw [if_pos hflags, if_neg hw]
        rfl
  · rw [if_pos (Nat.not_lt.mp (mt PGROUNDDOWN_lt_iff.mp hva)), if_neg fun h => hva h.1]
    rfl

-- u with its notes erased
def Erases {α : Type} (x : UserM α) (y : MemM α) : Prop :=
  ∀ u, y u.mem = (x u).map fun r => (r.1, r.2.mem)

namespace Erases

variable {α β : Type}

theorem pure (a : α) : Erases (Pure.pure a) (Pure.pure a) := fun _ => rfl

theorem lift (x : MemM α) : Erases (User.lift x) x := by
  intro u
  rw [User.lift, Fallible.zoom]
  cases hx : x u.mem with
  | error e => rfl
  | ok r => rfl

theorem bind {x : UserM α} {y : MemM α} {f : α → UserM β} {g : α → MemM β} (h : Erases x y)
    (hf : ∀ a, Erases (f a) (g a)) : Erases (x >>= f) (y >>= g) := by
  intro u
  have hstep := h u
  cases hx : x u with
  | error e =>
    rw [hx] at hstep
    rw [Fallible.bind_error hx, Fallible.bind_error hstep]
    rfl
  | ok r =>
    rw [hx] at hstep
    rw [Fallible.bind_ok hx, Fallible.bind_ok hstep]
    exact hf r.1 r.2

theorem ite {c : Prop} [Decidable c] {x x' : UserM α} {y y' : MemM α} (h : Erases x y)
    (h' : Erases x' y') : Erases (if c then x else x') (if c then y else y') := by
  by_cases hc : c
  · rw [if_pos hc, if_pos hc]
    exact h
  · rw [if_neg hc, if_neg hc]
    exact h'

end Erases

theorem copyoutLoop_erases (fuel : Nat) : Erases (copyoutLoop root fuel va src)
    (Xv6.copyoutLoop root fuel va src) := by
  induction fuel generalizing va src with
  | zero => exact .pure 0
  | succ fuel ih =>
    refine .ite (.pure _) (.ite (.pure _) (.bind (.lift _) fun pte => ?_))
    cases pte with
    | none => exact .pure _
    | some pte =>
      refine .bind (.lift _) fun e => .ite (.pure _) fun u => ?_
      have hrest : Erases
          (copyoutLoop root fuel (u64 (PGROUNDDOWN va + PGSIZE))
            (src.drop (min (PGSIZE - (va - PGROUNDDOWN va)) src.length)))
          (Xv6.copyoutLoop root fuel (u64 (PGROUNDDOWN va + PGSIZE))
            (src.drop (min (PGSIZE - (va - PGROUNDDOWN va)) src.length))) := ih
      exact hrest ⟨_, _⟩

theorem copyout_erases : Erases (copyout root va src) (Xv6.copyout root va src) :=
  copyoutLoop_erases _

theorem copyout_one (b : UInt8) : copyout root va [b] u =
    .ok (if Writable u.mem root va then (0, u.store root va [b]) else (-1, u)) := by
  have hround : min (PGSIZE - va % PGSIZE) [b].length = 1 := by
    have hlt : va % PGSIZE < PGSIZE := Nat.mod_lt _ (by decide)
    rw [List.length_singleton]
    omega
  refine (copyoutLoop_succ 0 (List.cons_ne_nil b [])).trans ?_
  rw [hround]
  by_cases hw : Writable u.mem root va
  · rw [if_pos hw, if_pos hw]
    rfl
  · rw [if_neg hw, if_neg hw]

end User

-- One page of user memory, at 0x80026000.
def onePage : Mem where
  image := sampleImage
  pool := ⟨fun pa =>
    if pa = 0x80023000 then (Page.fill 0).putWord 0 (PA2PTE 0x80024000 ||| PTE_V)
    else if pa = 0x80024000 then (Page.fill 0).putWord 0 (PA2PTE 0x80025000 ||| PTE_V)
    else if pa = 0x80025000 then
      (Page.fill 0).putWord 0 (PA2PTE 0x80026000 ||| (PTE_V ||| PTE_R ||| PTE_W ||| PTE_U))
    else .fill 0, []⟩
  deny := []

example : Writable onePage 0x80023000 4095 ∧ ¬ Writable onePage 0x80023000 4096 := by
  decide +kernel

end Xv6
