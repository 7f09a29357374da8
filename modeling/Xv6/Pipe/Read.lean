import Xv6.Pipe.Fifo
import Xv6.Vm.User
import Mathlib.Data.List.Basic

namespace Xv6.Lib

variable {σ : Type}

-- A loop that sleeps until the state is ready, seen from the process that sleeps. Each round
-- that finds the state not ready either learns that the process is killed (none) or goes on in
-- the state that the others leave. The answer is none as long as the process sleeps.
def await (ready : σ → Bool) : List (Option σ) → σ → Option (Bool × σ × List (Option σ))
  | [], s => if ready s then some (true, s, []) else none
  | none :: rest, s => if ready s then some (true, s, none :: rest) else some (false, s, rest)
  | some t :: rest, s => if ready s then some (true, s, some t :: rest) else await ready rest t

end Xv6.Lib

namespace Xv6.Pipe.Reader

open Lib Lib.Monitor

local instance neZero_PIPESIZE : NeZero PIPESIZE := ⟨by decide⟩

-- The loop that copies, with pi->lock held. It has n - i rounds to go.
def pipereadLoop (pagetable addr : Nat) : Nat → Nat → Fallible (Pipe × User) Panic Nat
  | 0, i => return i
  | rounds + 1, i => do
      let s ← get
      if s.1.nread = s.1.nwrite then
        return i
      else do
        let ch := s.1.front
        set (({ s.1 with toRing := s.1.drop }, s.2) : Pipe × User)
        let r ← Fallible.zoom Prod.snd (fun u s => (s.1, u))
          (User.copyout pagetable (u64 (addr + i)) [ch])
        if r = -1 then
          return i
        else
          pipereadLoop pagetable addr rounds (i + 1)

-- pi->nread == pi->nwrite && pi->writeopen is false
def ready (s : Pipe × Mem) : Bool :=
  !(decide (s.1.nread = s.1.nwrite) && s.1.writeopen)

-- piperead(pi, addr, n) of a process with the given page table, and what the others do while
-- it sleeps.
def piperead (pagetable addr : Nat) (n : Int) (others : List (Option (Pipe × Mem)))
    (pi : Pipe) (u : User) : Except Panic (Option (Int × Pipe × User)) :=
  match await ready others (pi, u.mem) with
  | none => .ok none
  | some (false, s, _) => .ok (some (-1, s.1, { u with mem := s.2 }))
  | some (true, s, _) =>
    (pipereadLoop pagetable addr n.toNat 0 (s.1, { u with mem := s.2 })).map fun r =>
      some ((r.1 : Int), r.2.1, r.2.2)

-- The bytes can be stored from va on, one after the other.
def Deliverable (root : Nat) : User → Nat → List UInt8 → Prop
  | _, _, [] => True
  | u, va, b :: bs => Writable u.mem root va ∧ Deliverable root (u.store root va [b]) (u64 (va + 1)) bs

-- r bytes have left the pipe, and these have been stored from addr on.
structure Delivered (addr r : Nat) (pi : Pipe) (u : User) (pi' : Pipe) (u' : User) : Prop where
  nread : pi'.nread = pi.nread + BitVec.ofNat 32 r
  left : pi'.contents = pi.contents.drop r
  stored : u'.stored = u.stored ++ placed addr (pi.contents.take r)

variable {root addr rounds i : Nat} {pi : Pipe} {u : User}

theorem pipereadLoop_succ (h : pi.nread ≠ pi.nwrite) :
    pipereadLoop root addr (rounds + 1) i (pi, u) =
      if Writable u.mem root (u64 (addr + i)) then
        pipereadLoop root addr rounds (i + 1)
          ({ pi with toRing := pi.drop }, u.store root (u64 (addr + i)) [pi.front])
      else .ok (i, { pi with toRing := pi.drop }, u) := by
  rw [pipereadLoop]
  refine (Fallible.bind_ok rfl).trans ?_
  rw [if_neg h]
  refine (Fallible.bind_ok rfl).trans ?_
  by_cases hw : Writable u.mem root (u64 (addr + i))
  · rw [if_pos hw]
    refine (Fallible.bind_ok (a := 0)
      (t := ({ pi with toRing := pi.drop }, u.store root (u64 (addr + i)) [pi.front])) ?_).trans rfl
    simp only [Fallible.zoom, User.copyout_one, if_pos hw]
  · rw [if_neg hw]
    refine (Fallible.bind_ok (a := -1) (t := ({ pi with toRing := pi.drop }, u)) ?_).trans rfl
    simp only [Fallible.zoom, User.copyout_one, if_neg hw]

theorem count_pos (h : pi.nread ≠ pi.nwrite) : 0 < pi.count :=
  Nat.pos_of_ne_zero (mt pi.count_eq_zero_iff.mp h)

theorem contents_eq_nil (h : pi.nread = pi.nwrite) : pi.contents = [] :=
  List.length_eq_zero_iff.mp (pi.length_contents.trans (pi.count_eq_zero_iff.mpr h))

theorem next_addr : u64 (u64 (addr + i) + 1) = u64 (addr + (i + 1)) := by
  unfold u64
  omega

theorem drop_succ_nread (k : Nat) :
    pi.drop.nread + BitVec.ofNat 32 k = pi.nread + BitVec.ofNat 32 (k + 1) := by
  rw [BitVec.ofNat_add, BitVec.add_comm (BitVec.ofNat 32 k), ← BitVec.add_assoc]
  rfl

-- With a destination that takes all the bytes.
theorem pipereadLoop_delivers (rounds : Nat)
    (h : Deliverable root u (u64 (addr + i)) (pi.contents.take rounds)) :
    ∃ pi' u', pipereadLoop root addr rounds i (pi, u) =
        .ok (i + (pi.contents.take rounds).length, pi', u') ∧
      Delivered (u64 (addr + i)) (pi.contents.take rounds).length pi u pi' u' := by
  induction rounds generalizing i pi u with
  | zero => exact ⟨pi, u, rfl, by simp, rfl, by simp [placed]⟩
  | succ rounds ih =>
    by_cases hempty : pi.nread = pi.nwrite
    · have hnil := contents_eq_nil hempty
      refine ⟨pi, u, ?_, by simp [hnil], by simp [hnil], by simp [hnil, placed]⟩
      rw [hnil, List.take_nil, pipereadLoop]
      refine (Fallible.bind_ok rfl).trans ?_
      rw [if_pos hempty]
      rfl
    · have hcons := pi.contents_drop (count_pos hempty)
      rw [hcons, List.take_succ_cons] at h ⊢
      obtain ⟨hw, hrest⟩ := h
      rw [next_addr] at hrest
      obtain ⟨pi', u', hrun, hdel⟩ := @ih (i + 1) { pi with toRing := pi.drop } _ hrest
      refine ⟨pi', u', ?_, ?_, ?_, ?_⟩
      · rw [pipereadLoop_succ hempty, if_pos hw, hrun, List.length_cons]
        exact congrArg (fun k => Except.ok (k, pi', u')) (Nat.add_right_comm i 1 _)
      · rw [hdel.nread, List.length_cons]
        exact drop_succ_nread _
      · rw [hdel.left, hcons, List.length_cons, List.drop_succ_cons]
      · rw [hdel.stored, hcons, List.length_cons, List.take_succ_cons, placed, next_addr]
        simp [User.store, placed]

-- With a destination that does not, one byte more than the answer says is gone.
theorem pipereadLoop_loses (rounds : Nat)
    (h : ¬ Deliverable root u (u64 (addr + i)) (pi.contents.take rounds)) :
    ∃ k pi' u', pipereadLoop root addr rounds i (pi, u) = .ok (i + k, pi', u') ∧
      pi'.nread = pi.nread + BitVec.ofNat 32 (k + 1) := by
  induction rounds generalizing i pi u with
  | zero => exact absurd trivial h
  | succ rounds ih =>
    by_cases hempty : pi.nread = pi.nwrite
    · rw [contents_eq_nil hempty] at h
      exact absurd trivial h
    · have hcons := pi.contents_drop (count_pos hempty)
      rw [hcons, List.take_succ_cons] at h
      rw [pipereadLoop_succ hempty]
      by_cases hw : Writable u.mem root (u64 (addr + i))
      · have hrest : ¬ Deliverable root (u.store root (u64 (addr + i)) [pi.front])
            (u64 (addr + (i + 1))) (pi.drop.contents.take rounds) := by
          rw [← next_addr]
          exact fun hrest => h ⟨hw, hrest⟩
        obtain ⟨k, pi', u', hrun, hnread⟩ := @ih (i + 1) { pi with toRing := pi.drop } _ hrest
        refine ⟨k + 1, pi', u', ?_, hnread.trans (drop_succ_nread _)⟩
        rw [if_pos hw, hrun]
        exact congrArg (fun k => Except.ok (k, pi', u')) (Nat.add_right_comm i 1 k)
      · exact ⟨0, { pi with toRing := pi.drop }, u, if_neg hw, rfl⟩

theorem piperead_cases {n r : Int} {others : List (Option (Pipe × Mem))} {pi' : Pipe} {u' : User}
    (h : piperead root addr n others pi u = .ok (some (r, pi', u'))) :
    (r = -1 ∧ u'.stored = u.stored) ∨
    ∃ found rest k, await ready others (pi, u.mem) = some (true, found, rest) ∧ r = (k : Nat) ∧
      pipereadLoop root addr n.toNat 0 (found.1, { u with mem := found.2 }) = .ok (k, pi', u') := by
  rw [piperead] at h
  split at h
  · cases h
  · cases h
    exact .inl ⟨rfl, rfl⟩
  · rename_i found rest hwait
    cases hloop : pipereadLoop root addr n.toNat 0 (found.1, { u with mem := found.2 }) with
    | error e =>
      rw [hloop] at h
      cases h
    | ok v =>
      rw [hloop] at h
      cases h
      exact .inr ⟨found, rest, v.1, hwait, rfl, hloop⟩

-- A call that does not return -1 takes from the pipe the bytes that it delivers and no others
-- exactly if the destination takes all the bytes that there are, up to n.
theorem piperead_delivers_iff {n r : Int} {others : List (Option (Pipe × Mem))} {pi' : Pipe}
    {u' : User} (haddr : addr < 0x10000000000000000)
    (h : piperead root addr n others pi u = .ok (some (r, pi', u'))) (hr : 0 ≤ r) :
    ∃ found rest, await ready others (pi, u.mem) = some (true, found, rest) ∧
      (Delivered addr r.toNat found.1 { u with mem := found.2 } pi' u' ↔
        Deliverable root { u with mem := found.2 } addr (found.1.contents.take n.toNat)) := by
  obtain ⟨rfl, -⟩ | ⟨found, rest, k, hwait, rfl, hloop⟩ := piperead_cases h
  · exact absurd hr (by decide)
  refine ⟨found, rest, hwait, fun hdel => ?_, fun hd => ?_⟩
  · by_contra hno
    rw [← u64_of_lt haddr, ← Nat.add_zero addr] at hno
    obtain ⟨k', pi₁, u₁, hrun, hnread⟩ := pipereadLoop_loses n.toNat hno
    rw [hloop] at hrun
    cases hrun
    -- nread has moved by k' + 1 and by k'
    have hsame := hnread.symm.trans hdel.nread
    rw [Int.toNat_natCast, BitVec.add_right_inj, ← BitVec.toNat_inj, BitVec.toNat_ofNat,
      BitVec.toNat_ofNat] at hsame
    omega
  · rw [← u64_of_lt haddr, ← Nat.add_zero addr] at hd
    obtain ⟨pi₁, u₁, hrun, hdel⟩ := pipereadLoop_delivers n.toNat hd
    rw [hloop] at hrun
    cases hrun
    rw [Nat.add_zero, u64_of_lt haddr] at hdel
    rw [Int.toNat_natCast, Nat.zero_add]
    exact hdel

-- The bytes 7 and 8.
def twoBytes : Pipe :=
  ⟨⟨fun i => if i.val = 0 then 7 else 8, 0, 2⟩, true, true⟩

def outcome (x : Except Panic (Option (Int × Pipe × User))) :
    Option (Int × BitVec 32 × List UInt8 × List (Nat × UInt8)) :=
  match x with
  | .ok (some (r, pi, u)) => some (r, pi.nread, pi.contents, u.stored)
  | _ => none

theorem eq_of_outcome {x : Except Panic (Option (Int × Pipe × User))} {r : Int} {nread : BitVec 32}
    {left : List UInt8} {stored : List (Nat × UInt8)}
    (h : outcome x = some (r, nread, left, stored)) :
    ∃ pi u, x = .ok (some (r, pi, u)) ∧ pi.nread = nread ∧ pi.contents = left ∧ u.stored = stored := by
  unfold outcome at h
  split at h
  · cases h
    exact ⟨_, _, rfl, rfl, rfl, rfl⟩
  · cases h

theorem piperead_delivers_iff_one : ∃ pi' u',
    piperead 0x80023000 4095 1 [] twoBytes ⟨onePage, []⟩ = .ok (some (1, pi', u')) ∧
      Delivered 4095 1 twoBytes ⟨onePage, []⟩ pi' u' := by
  have hout : outcome (piperead 0x80023000 4095 1 [] twoBytes ⟨onePage, []⟩) =
      some (1, 1, [8], [(4095, 7)]) := by decide +kernel
  obtain ⟨pi', u', hrun, -, -, -⟩ := eq_of_outcome hout
  obtain ⟨found, rest, hwait, hiff⟩ := piperead_delivers_iff (by decide) hrun (by decide)
  cases hwait
  refine ⟨pi', u', hrun, hiff.mpr ?_⟩
  have hcontents : twoBytes.contents.take (1 : Int).toNat = [7] := by decide +kernel
  have hw : Writable onePage 0x80023000 4095 := by decide +kernel
  rw [hcontents]
  exact ⟨hw, trivial⟩

-- The second byte would be at 4096, in a page that is not there: it is not stored, and it is
-- not in the pipe any more either.
theorem piperead_loses_byte : ∃ pi' u',
    piperead 0x80023000 4095 2 [] twoBytes ⟨onePage, []⟩ = .ok (some (1, pi', u')) ∧
      pi'.nread = 2 ∧ pi'.contents = [] ∧ u'.stored = [(4095, 7)] ∧
      ¬ Delivered 4095 1 twoBytes ⟨onePage, []⟩ pi' u' := by
  have hout : outcome (piperead 0x80023000 4095 2 [] twoBytes ⟨onePage, []⟩) =
      some (1, 2, [], [(4095, 7)]) := by decide +kernel
  obtain ⟨pi', u', hrun, hnread, hleft, hstored⟩ := eq_of_outcome hout
  refine ⟨pi', u', hrun, hnread, hleft, hstored, fun hdel => ?_⟩
  have hone := hdel.nread
  rw [hnread] at hone
  exact absurd hone (by decide)

end Xv6.Pipe.Reader
