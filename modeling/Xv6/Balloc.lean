import Xv6.Fs.Bmap

namespace Xv6.Balloc

open Fs Lib

-- The blocks as bread() gives them.
abbrev Disk := Nat → Block

-- Block of free map containing bit for block b
def BBLOCK (b : Nat) (sb : Superblock) : Nat := b / BPB + sb.bmapstart

-- m = 1 << (bi % 8)
def mask (bi : Nat) : UInt8 := ⟨BitVec.twoPow 8 (bi % 8)⟩

-- (bp->data[bi/8] & m) != 0
def inUse (data : Block) (bi : Nat) : Bool := data.byte (bi / 8) &&& mask bi != 0

-- bp->data[bi/8] |= m
def mark (data : Block) (bi : Nat) : Block :=
  fun i => if i.val = bi / 8 then data i ||| mask bi else data i

-- bp->data[bi/8] &= ~m
def unmark (data : Block) (bi : Nat) : Block :=
  fun i => if i.val = bi / 8 then data i &&& ~~~mask bi else data i

def bzero (bno : Nat) (d : Disk) : Disk := Function.update d bno Block.zero

-- The inner loop, of which n rounds are left.
def findFree (data : Block) (b size : Nat) : Nat → Nat → Option Nat
  | 0, _ => none
  | n + 1, bi =>
    if b + bi < size then
      if inUse data bi then findFree data b size n (bi + 1) else some bi
    else none

-- The outer loop, of which n rounds are left.
def ballocLoop (sb : Superblock) (d : Disk) : Nat → Nat → Nat × Disk
  | 0, _ => (0, d)
  | n + 1, b =>
    if b < sb.size then
      let data := d (BBLOCK b sb)
      match findFree data b sb.size BPB 0 with
      | some bi => (b + bi, bzero (b + bi) (Function.update d (BBLOCK b sb) (mark data bi)))
      | none => ballocLoop sb d n (b + BPB)
    else (0, d)

def balloc (sb : Superblock) (d : Disk) : Nat × Disk := ballocLoop sb d (sb.size / BPB + 1) 0

def bfree (sb : Superblock) (b : Nat) (d : Disk) : Except String Disk :=
  let data := d (BBLOCK b sb)
  if inUse data (b % BPB) then
    .ok (Function.update d (BBLOCK b sb) (unmark data (b % BPB)))
  else .error "freeing free block"

theorem inUse_eq (data : Block) (bi : Nat) :
    inUse data bi = (data.byte (bi / 8)).toBitVec.getLsbD (bi % 8) := by
  have hlt : bi % 8 < 8 := Nat.mod_lt _ (by decide)
  have hzero : data.byte (bi / 8) &&& mask bi = 0 ↔
      (data.byte (bi / 8)).toBitVec.getLsbD (bi % 8) = false := by
    rw [← UInt8.toBitVec_inj, UInt8.toBitVec_and, mask, BitVec.and_twoPow]
    cases h : (data.byte (bi / 8)).toBitVec.getLsbD (bi % 8) with
    | false => simp
    | true =>
      simp only [if_true, Bool.true_eq_false, iff_false]
      intro heq
      have hbit := congrArg (BitVec.getLsbD · (bi % 8)) heq
      simp [hlt] at hbit
  unfold inUse
  cases h : (data.byte (bi / 8)).toBitVec.getLsbD (bi % 8) with
  | false => simp [hzero.mpr h]
  | true =>
    rw [h] at hzero
    simpa using hzero

theorem inUse_mark {data : Block} {bi bj : Nat} (hj : bj < BPB) :
    inUse (mark data bi) bj = (decide (bj = bi) || inUse data bj) := by
  have hlt : bj / 8 < BSIZE := by
    simp only [BPB, BSIZE] at *
    omega
  simp only [inUse_eq, Block.byte, hlt, dif_pos, mark]
  by_cases hbyte : bj / 8 = bi / 8
  · have heq : bj = bi ↔ bj % 8 = bi % 8 := by omega
    simp [hbyte, mask, heq, Bool.or_comm, Nat.mod_lt]
  · have hne : bj ≠ bi := fun h => hbyte (by rw [h])
    simp [hbyte, hne]

theorem unmark_mark {data : Block} {bi : Nat} (h : inUse data bi = false) :
    unmark (mark data bi) bi = data := by
  funext i
  unfold unmark mark
  by_cases hi : i.val = bi / 8
  · simp only [if_pos hi]
    rw [inUse_eq, Block.byte, ← hi, dif_pos i.isLt] at h
    rw [← UInt8.toBitVec_inj]
    ext j hj
    by_cases hbit : j = bi % 8
    · subst hbit
      simp [mask, ← BitVec.getLsbD_eq_getElem, h]
    · simp [mask, hbit]
  · simp only [if_neg hi]

-- The bit of block b.
def used (sb : Superblock) (d : Disk) (b : Nat) : Bool := inUse (d (BBLOCK b sb)) (b % BPB)

theorem findFree_some {data : Block} {b size n bi r : Nat}
    (h : findFree data b size n bi = some r) :
    (bi ≤ r ∧ r < bi + n ∧ b + r < size ∧ inUse data r = false) ∧
      ∀ k, bi ≤ k → k < r → inUse data k = true := by
  induction n generalizing bi with
  | zero => cases h
  | succ n ih =>
    simp only [findFree] at h
    split at h
    · split at h
      · rename_i huse
        obtain ⟨⟨hle, hlt, hsize, hfree⟩, hbefore⟩ := ih h
        refine ⟨⟨by omega, by omega, hsize, hfree⟩, fun k hk hkr => ?_⟩
        by_cases heq : k = bi
        · rw [heq]
          exact huse
        · exact hbefore k (by omega) hkr
      · rename_i hlt hfree
        cases h
        exact ⟨⟨Nat.le_refl _, by omega, hlt, by simpa using hfree⟩, fun k hk hkr => by omega⟩
    · cases h

theorem findFree_none {data : Block} {b size n bi : Nat} (h : findFree data b size n bi = none) :
    ∀ k, bi ≤ k → k < bi + n → b + k < size → inUse data k = true := by
  induction n generalizing bi with
  | zero =>
    intro k hk hlt
    omega
  | succ n ih =>
    intro k hk hlt hsize
    simp only [findFree] at h
    split at h
    · split at h
      · rename_i huse
        by_cases heq : k = bi
        · rw [heq]
          exact huse
        · exact ih h k (by omega) (by omega) hsize
      · cases h
    · omega

-- The disk after balloc() took block c.
def taken (sb : Superblock) (d : Disk) (c : Nat) : Disk :=
  bzero c (Function.update d (BBLOCK c sb) (mark (d (BBLOCK c sb)) (c % BPB)))

theorem split_block {j r : Nat} (hr : r < BPB) :
    (BPB * j + r) / BPB = j ∧ (BPB * j + r) % BPB = r := by
  rw [Nat.mul_add_div (by decide), Nat.mul_add_mod, Nat.div_eq_of_lt hr, Nat.mod_eq_of_lt hr]
  exact ⟨rfl, rfl⟩

theorem used_split {sb : Superblock} {d : Disk} {j r : Nat} (hr : r < BPB) :
    used sb d (BPB * j + r) = inUse (d (BBLOCK (BPB * j) sb)) r := by
  have hstart : BPB * j / BPB = j := Nat.mul_div_cancel_left j (by decide)
  obtain ⟨hdiv, hmod⟩ := split_block (j := j) hr
  rw [used, BBLOCK, BBLOCK, hdiv, hmod, hstart]

-- From the j-th bitmap block on: the first free block is taken, or there is none.
theorem ballocLoop_cases {sb : Superblock} (d : Disk) {n j : Nat} (hn : sb.size ≤ BPB * (j + n)) :
    (∃ c, BPB * j ≤ c ∧ c < sb.size ∧ used sb d c = false ∧
      (∀ k, BPB * j ≤ k → k < c → used sb d k = true) ∧
      ballocLoop sb d n (BPB * j) = (c, taken sb d c)) ∨
    (∀ k, BPB * j ≤ k → k < sb.size → used sb d k = true) ∧
      ballocLoop sb d n (BPB * j) = (0, d) := by
  induction n generalizing j with
  | zero => exact .inr ⟨fun k hk hlt => by rw [Nat.add_zero] at hn; omega, rfl⟩
  | succ n ih =>
    rw [ballocLoop]
    by_cases hlt : BPB * j < sb.size
    · rw [if_pos hlt]
      dsimp only
      have hin : ∀ k, BPB * j ≤ k → k < BPB * j + BPB →
          used sb d k = inUse (d (BBLOCK (BPB * j) sb)) (k - BPB * j) := by
        intro k hk hlt
        have hsplit : used sb d (BPB * j + (k - BPB * j)) =
            inUse (d (BBLOCK (BPB * j) sb)) (k - BPB * j) := used_split (by omega)
        rwa [Nat.add_sub_cancel' hk] at hsplit
      cases hfind : findFree (d (BBLOCK (BPB * j) sb)) (BPB * j) sb.size BPB 0 with
      | some r =>
        obtain ⟨⟨-, hr, hsize, hfree⟩, hbefore⟩ := findFree_some hfind
        rw [Nat.zero_add] at hr
        obtain ⟨hdiv, hmod⟩ := split_block (j := j) hr
        have hblock : BBLOCK (BPB * j + r) sb = BBLOCK (BPB * j) sb := by
          rw [BBLOCK, BBLOCK, hdiv, Nat.mul_div_cancel_left j (by decide)]
        refine .inl ⟨BPB * j + r, by omega, hsize, ?_, fun k hk hkr => ?_, ?_⟩
        · rw [used_split hr]
          exact hfree
        · rw [hin k hk (by omega)]
          exact hbefore _ (by omega) (by omega)
        · rw [taken, hblock, hmod]
      | none =>
        have hall := findFree_none hfind
        have hset : ∀ k, BPB * j ≤ k → k < BPB * j + BPB → k < sb.size → used sb d k = true := by
          intro k hk hkb hks
          rw [hin k hk hkb]
          exact hall _ (by omega) (by omega) (by omega)
        have hnext : BPB * (j + 1) = BPB * j + BPB := Nat.mul_succ ..
        have hrest := ih (j := j + 1) (by rwa [Nat.add_assoc, Nat.add_comm 1])
        rw [hnext] at hrest
        rcases hrest with ⟨c, hle, hc, hfree, hbefore, heq⟩ | ⟨hfull, heq⟩
        · refine .inl ⟨c, by omega, hc, hfree, fun k hk hkc => ?_, heq⟩
          by_cases hkb : k < BPB * j + BPB
          · exact hset k hk hkb (by omega)
          · exact hbefore k (by omega) hkc
        · refine .inr ⟨fun k hk hks => ?_, heq⟩
          by_cases hkb : k < BPB * j + BPB
          · exact hset k hk hkb hks
          · exact hfull k (by omega) hks
    · rw [if_neg hlt]
      exact .inr ⟨fun k hk hks => by omega, rfl⟩

-- The bits of block 0 and of the blocks with the bitmap are set, as mkfs sets them.
def Reserved (sb : Superblock) (d : Disk) : Prop :=
  ∀ b, b = 0 ∨ (∃ c < sb.size, b = BBLOCK c sb) → used sb d b = true

-- What balloc() does when it takes block b.
structure Takes (sb : Superblock) (d : Disk) (b : Nat) (d' : Disk) : Prop where
  lt : b < sb.size
  free : used sb d b = false
  least : ∀ c < b, used sb d c = true
  bits : ∀ c < sb.size, used sb d' c = (decide (c = b) || used sb d c)
  zeroed : d' b = Block.zero
  kept : ∀ x, x ≠ b → x ≠ BBLOCK b sb → d' x = d x
  freed : ∃ e, bfree sb b d' = .ok e ∧ ∀ x, x ≠ b → e x = d x

theorem takes_taken {sb : Superblock} {d : Disk} {b : Nat} (hres : Reserved sb d)
    (hlt : b < sb.size) (hfree : used sb d b = false) (hleast : ∀ c < b, used sb d c = true) :
    Takes sb d b (taken sb d b) := by
  have hdata : ∀ c < sb.size, BBLOCK c sb ≠ b := by
    intro c hc heq
    have hset := hres b (.inr ⟨c, hc, heq.symm⟩)
    rw [hfree] at hset
    cases hset
  have hmod : ∀ c, c % BPB < BPB := fun c => Nat.mod_lt c (by decide)
  have hother : ∀ x, x ≠ b → x ≠ BBLOCK b sb → taken sb d b x = d x := by
    intro x hx hblock
    rw [taken, bzero, Function.update_of_ne hx, Function.update_of_ne hblock]
  have hself : taken sb d b (BBLOCK b sb) = mark (d (BBLOCK b sb)) (b % BPB) := by
    rw [taken, bzero, Function.update_of_ne (hdata b hlt), Function.update_self]
  refine ⟨hlt, hfree, hleast, fun c hc => ?_, Function.update_self .., hother, ?_⟩
  · by_cases hblock : BBLOCK c sb = BBLOCK b sb
    · have heq : c = b ↔ c % BPB = b % BPB := by
        simp only [BBLOCK, BPB, BSIZE] at *
        omega
      rw [used, used, hblock, hself, inUse_mark (hmod c)]
      simp only [heq]
    · have hne : c ≠ b := fun heq => hblock (by rw [heq])
      rw [used, used, hother _ (hdata c hc) hblock]
      simp [hne]
  · have huse : inUse (taken sb d b (BBLOCK b sb)) (b % BPB) = true := by
      rw [hself, inUse_mark (hmod b)]
      simp
    refine ⟨_, if_pos huse, fun x hx => ?_⟩
    by_cases hblock : x = BBLOCK b sb
    · rw [hblock, Function.update_self, hself]
      exact unmark_mark hfree
    · rw [Function.update_of_ne hblock]
      exact hother x hx hblock

theorem balloc_cases {sb : Superblock} {d : Disk} (hres : Reserved sb d) :
    (∃ b d', balloc sb d = (b, d') ∧ b ≠ 0 ∧ Takes sb d b d') ∨
      (∀ b < sb.size, used sb d b = true) ∧ balloc sb d = (0, d) := by
  have hrounds : sb.size ≤ BPB * (0 + (sb.size / BPB + 1)) := by
    simp only [BPB, BSIZE]
    omega
  have hcases := ballocLoop_cases d hrounds
  rw [Nat.mul_zero] at hcases
  rcases hcases with ⟨c, -, hlt, hfree, hbefore, heq⟩ | ⟨hfull, heq⟩
  · have hpos : c ≠ 0 := by
      intro hz
      have hset := hres c (.inl hz)
      rw [hfree] at hset
      cases hset
    exact .inl ⟨c, _, heq, hpos,
      takes_taken hres hlt hfree fun k hk => hbefore k (Nat.zero_le k) hk⟩
  · exact .inr ⟨fun b hb => hfull b (Nat.zero_le b) hb, heq⟩

theorem balloc_first_free (sb : Superblock) (d : Disk) (hres : Reserved sb d) :
    ((balloc sb d).1 ≠ 0 → Takes sb d (balloc sb d).1 (balloc sb d).2) ∧
      ((balloc sb d).1 = 0 ↔ ∀ b < sb.size, used sb d b = true) ∧
      ((balloc sb d).1 = 0 → (balloc sb d).2 = d) := by
  rcases balloc_cases hres with ⟨b, d', heq, hpos, htakes⟩ | ⟨hfull, heq⟩
  · rw [heq]
    refine ⟨fun _ => htakes, ⟨fun hz => absurd hz hpos, fun hall => ?_⟩, fun hz => absurd hz hpos⟩
    have hfree := htakes.free
    rw [hall b htakes.lt] at hfree
    cases hfree
  · rw [heq]
    exact ⟨fun hne => absurd rfl hne, ⟨fun _ => hfull, fun _ => rfl⟩, fun _ => rfl⟩

section Refinement

variable {sb : Superblock} {s : Sys} {cs : List Nat} {b c : Nat}

theorem run_ballocLoop_none (h : ∀ c ∈ cs, s.freeBit sb c = none) :
    (Fs.ballocLoop sb cs).run s = .done s 0 := by
  induction cs with
  | nil => rfl
  | cons c cs ih =>
    obtain ⟨hc, hcs⟩ := List.forall_mem_cons.mp h
    simp [Fs.ballocLoop, Prog.run_bind, Prog.atomic, Prog.run, hc, ih hcs]

theorem run_ballocLoop_some (h : ∀ c ∈ cs, s.freeBit sb c = none) (hb : s.freeBit sb c = some b)
    (rest : List Nat) : (Fs.ballocLoop sb (cs ++ c :: rest)).run s =
      .done ((s.setBitmap b true).setBlock b Block.zero) b := by
  induction cs with
  | nil => simp [Fs.ballocLoop, Fs.bzero, Prog.run_bind, Prog.atomic, Prog.modify, Prog.run, hb]
  | cons c' cs ih =>
    obtain ⟨hc, hcs⟩ := List.forall_mem_cons.mp h
    simp [Fs.ballocLoop, Prog.run_bind, Prog.atomic, Prog.run, hc, ih hcs]

-- balloc() of the file system, which has the bitmap as a set, takes the block that balloc()
-- finds in the blocks of the bitmap.
theorem balloc_refines {d : Disk} (hres : Reserved sb d)
    (hbits : ∀ b < sb.size, s.bitmap b = used sb d b) :
    ∃ t, (Fs.balloc sb).run s = .done t (balloc sb d).1 ∧
      ∀ b < sb.size, t.bitmap b = used sb (balloc sb d).2 b := by
  have hnone : ∀ c, (∀ b < sb.size, c ≤ b → b < c + BPB → s.bitmap b = true) →
      s.freeBit sb c = none := by
    intro c hall
    refine List.find?_eq_none.mpr fun b hb => ?_
    rw [List.mem_range'_1] at hb
    simp [hall b (by omega) hb.1 (by omega)]
  rcases balloc_cases hres with ⟨b, d', heq, -, htakes⟩ | ⟨hfull, heq⟩
  · rw [heq]
    have hlt := htakes.lt
    have hleast : ∀ k < b, s.bitmap k = true := fun k hk => by
      rw [hbits k (by omega), htakes.least k hk]
    have hk : b / BPB < (sb.size + BPB - 1) / BPB := by
      simp only [BPB, BSIZE]
      omega
    have hchunk : b / BPB * BPB ≤ b ∧ b < b / BPB * BPB + BPB := by
      simp only [BPB, BSIZE]
      omega
    have hfind : s.freeBit sb (b / BPB * BPB) = some b := by
      refine List.find?_range'_eq_some.mpr ⟨?_, ?_, fun k _ hk => ?_⟩
      · rw [hbits b hlt, htakes.free]
        rfl
      · rw [List.mem_range'_1]
        omega
      · simp [hleast k hk]
    -- the blocks of the bitmap before that of b are full
    obtain ⟨pre, post, hsplit⟩ := List.append_of_mem (List.mem_range.mpr hk)
    have hsorted := List.pairwise_lt_range (n := (sb.size + BPB - 1) / BPB)
    rw [hsplit, List.pairwise_append] at hsorted
    refine ⟨(s.setBitmap b true).setBlock b Block.zero, ?_, fun c hc => ?_⟩
    · rw [Fs.balloc, hsplit, List.map_append, List.map_cons]
      refine run_ballocLoop_some (fun c hc => ?_) hfind _
      obtain ⟨j, hj, rfl⟩ := List.mem_map.mp hc
      have hjk := hsorted.2.2 j hj _ List.mem_cons_self
      refine hnone _ fun k _ _ hk => hleast k ?_
      have hmul := Nat.mul_le_mul_right BPB hjk
      rw [Nat.succ_mul] at hmul
      omega
    · show Function.update s.bitmap b true c = _
      rw [htakes.bits c hc, Function.update_apply, ← hbits c hc]
      by_cases hcb : c = b <;> simp [hcb]
  · rw [heq]
    refine ⟨s, run_ballocLoop_none fun c _ => hnone c fun b hb _ _ => ?_, hbits⟩
    rw [hbits b hb, hfull b hb]

end Refinement

-- A disk of ten blocks with the bitmap in block 2, of which blocks 0 to 2 are in use.
def tenBlocks : Superblock := ⟨10, 0, 2, by decide⟩

def fresh : Disk := fun _ i => if i.val = 0 then 7 else 0

theorem reserved_fresh : Reserved tenBlocks fresh := by
  rintro b (rfl | ⟨c, hc, rfl⟩)
  · decide
  · have hc : c < 10 := hc
    have hblock : BBLOCK c tenBlocks = 2 := by
      simp only [BBLOCK, tenBlocks, BPB, BSIZE]
      omega
    rw [hblock]
    decide

theorem balloc_first_free_fresh :
    (balloc tenBlocks fresh).1 = 3 ∧ Takes tenBlocks fresh 3 (balloc tenBlocks fresh).2 := by
  have hthree : (balloc tenBlocks fresh).1 = 3 := by decide
  have htakes := (balloc_first_free tenBlocks fresh reserved_fresh).1 (by rw [hthree]; decide)
  rw [hthree] at htakes
  exact ⟨hthree, htakes⟩

theorem balloc_takes_zero :
    (balloc tenBlocks fun _ => Block.zero).1 = 0 ∧
      used tenBlocks (fun _ => Block.zero) 0 = false ∧
      used tenBlocks (balloc tenBlocks fun _ => Block.zero).2 0 = true := by
  decide

end Xv6.Balloc
