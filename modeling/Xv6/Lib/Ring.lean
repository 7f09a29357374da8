import Mathlib.Data.List.Range
import Mathlib.Algebra.Order.Ring.Int

namespace Xv6.Lib

-- A ring of size cells addressed by two counters of w bits that only go up and
-- wrap. A counter stands for the cell at its value modulo size.
structure Ring (α : Type) (size w : Nat) where
  data : Fin size → α
  nread : BitVec w
  nwrite : BitVec w

namespace Ring

variable {α : Type} {size w : Nat}

def count (r : Ring α size w) : Nat := (r.nwrite - r.nread).toNat

theorem count_eq_zero_iff (r : Ring α size w) : r.count = 0 ↔ r.nread = r.nwrite := by
  rw [count, ← BitVec.toNat_zero (w := w), BitVec.toNat_inj]
  constructor
  · intro h
    have h := congrArg (· + r.nread) h
    simpa [BitVec.sub_add_cancel] using h.symm
  · intro h
    rw [h, BitVec.sub_self]

theorem nwrite_eq (r : Ring α size w) : r.nwrite = r.nread + BitVec.ofNat w r.count := by
  rw [count, BitVec.ofNat_toNat, BitVec.setWidth_eq, BitVec.add_comm, BitVec.sub_add_cancel]

theorem count_eq {r : Ring α size w} {k : Nat} (hk : k < 2 ^ w)
    (h : r.nwrite = r.nread + BitVec.ofNat w k) : r.count = k := by
  rw [count, h, BitVec.add_comm, BitVec.add_sub_cancel, BitVec.toNat_ofNat, Nat.mod_eq_of_lt hk]

theorem full_iff (hlt : size < 2 ^ w) (r : Ring α size w) :
    r.nwrite = r.nread + BitVec.ofNat w size ↔ r.count = size := by
  constructor
  · exact count_eq hlt
  · intro h
    rw [nwrite_eq, h]

def drop (r : Ring α size w) : Ring α size w := { r with nread := r.nread + 1 }

theorem count_drop {r : Ring α size w} (hpos : 0 < r.count) : r.drop.count + 1 = r.count := by
  have hbound : r.count < 2 ^ w := (r.nwrite - r.nread).isLt
  have h : r.drop.count = r.count - 1 := by
    refine count_eq (by omega) ?_
    simp only [drop]
    rw [BitVec.add_assoc, show (1 : BitVec w) = BitVec.ofNat w 1 from rfl, ← BitVec.ofNat_add,
      Nat.add_sub_cancel' hpos]
    exact nwrite_eq r
  omega

def publish (r : Ring α size w) : Ring α size w := { r with nwrite := r.nwrite + 1 }

theorem count_publish (hlt : size < 2 ^ w) {r : Ring α size w} (hroom : r.count < size) :
    r.publish.count = r.count + 1 := by
  refine count_eq (by omega) ?_
  simp only [publish]
  rw [nwrite_eq, BitVec.add_assoc, BitVec.ofNat_add]
  rfl

variable [NeZero size]

def slot (counter : BitVec w) : Fin size := Fin.ofNat size counter.toNat

-- What has been put and not yet taken, oldest first.
def contents (r : Ring α size w) : List α :=
  (List.range r.count).map fun i => r.data (slot (r.nread + BitVec.ofNat w i))

def put (r : Ring α size w) (x : α) : Ring α size w :=
  { r with data := Function.update r.data (slot r.nwrite) x, nwrite := r.nwrite + 1 }

-- A put in two steps is this one and then publish.
def store (r : Ring α size w) (x : α) : Ring α size w :=
  { r with data := Function.update r.data (slot r.nwrite) x }

def front (r : Ring α size w) : α := r.data (slot r.nread)

theorem length_contents (r : Ring α size w) : r.contents.length = r.count := by
  simp [contents]

theorem slot_add (hdvd : size ∣ 2 ^ w) (counter : BitVec w) (i : Nat) :
    (slot (counter + BitVec.ofNat w i) : Fin size) = Fin.ofNat size (counter.toNat + i) := by
  apply Fin.ext
  simp only [slot, Fin.ofNat, BitVec.toNat_add, BitVec.toNat_ofNat, Nat.add_mod_mod]
  exact Nat.mod_mod_of_dvd _ hdvd

theorem slot_add_ne (hdvd : size ∣ 2 ^ w) (counter : BitVec w) {i j : Nat} (hij : i < j)
    (hj : j < size) :
    (slot (counter + BitVec.ofNat w i) : Fin size) ≠ slot (counter + BitVec.ofNat w j) := by
  rw [slot_add hdvd, slot_add hdvd]
  intro h
  have hmod : (counter.toNat + i) % size = (counter.toNat + j) % size := by
    simpa [Fin.ofNat] using congrArg Fin.val h
  have hsub := Nat.sub_mod_eq_zero_of_mod_eq hmod.symm
  rw [Nat.add_sub_add_left, Nat.mod_eq_of_lt (by omega)] at hsub
  omega

theorem count_put (hlt : size < 2 ^ w) {r : Ring α size w} (hroom : r.count < size) (x : α) :
    (r.put x).count = r.count + 1 :=
  count_publish (r := r.store x) hlt hroom

theorem contents_update (hdvd : size ∣ 2 ^ w) {r : Ring α size w} {k : Nat} (hk : r.count ≤ k)
    (hlt : k < size) (x : α) :
    ({ r with data := Function.update r.data (slot (r.nread + BitVec.ofNat w k)) x } :
      Ring α size w).contents = r.contents := by
  refine List.map_congr_left fun i hi => ?_
  have hne : (slot (r.nread + BitVec.ofNat w i) : Fin size) ≠
      slot (r.nread + BitVec.ofNat w k) :=
    slot_add_ne hdvd r.nread (Nat.lt_of_lt_of_le (List.mem_range.mp hi) hk) hlt
  simp only [Function.update_of_ne hne]

theorem contents_store (hdvd : size ∣ 2 ^ w) {r : Ring α size w} (hroom : r.count < size) (x : α) :
    (r.store x).contents = r.contents := by
  have h := contents_update hdvd (Nat.le_refl r.count) hroom x
  rw [← nwrite_eq] at h
  exact h

theorem contents_publish (hlt : size < 2 ^ w) {r : Ring α size w} (hroom : r.count < size) :
    r.publish.contents = r.contents ++ [r.data (slot r.nwrite)] := by
  rw [contents, count_publish hlt hroom, List.range_succ, List.map_append, List.map_singleton]
  congr 1
  simp only [publish, ← nwrite_eq]

theorem contents_put (hdvd : size ∣ 2 ^ w) (hlt : size < 2 ^ w) {r : Ring α size w}
    (hroom : r.count < size) (x : α) : (r.put x).contents = r.contents ++ [x] := by
  have hpublish : (r.put x).contents = (r.store x).contents ++ [(r.store x).data (slot r.nwrite)] :=
    contents_publish (r := r.store x) hlt hroom
  rw [hpublish, contents_store hdvd hroom]
  simp only [store, Function.update_self]

theorem contents_drop {r : Ring α size w} (hpos : 0 < r.count) :
    r.contents = r.front :: r.drop.contents := by
  rw [contents, contents, ← count_drop hpos, List.range_succ_eq_map, List.map_cons, List.map_map]
  congr 1
  · simp [front]
  · refine List.map_congr_left fun i _ => ?_
    simp only [Function.comp, drop, BitVec.add_assoc]
    rw [show (1 : BitVec w) = BitVec.ofNat w 1 from rfl, ← BitVec.ofNat_add, Nat.add_comm 1]

end Ring

end Xv6.Lib
