import Xv6.Fs
import Xv6.Lib.Alloc

namespace Xv6.Fs

open Lib

-- Where an inode keeps the number of a block: among its addresses, or in its
-- indirect block.
inductive Pos where
  | addr (k : Fin (NDIRECT + 1))
  | entry (j : Fin NINDIRECT)
  deriving DecidableEq

def ptr (data : Nat → Block) (d : Dinode) : Pos → Nat
  | .addr k => d.addrs k
  | .entry j => if d.addrs indirect = 0 then 0 else (data (d.addrs indirect)).getUint j

-- Where the number of block bn of the file is.
def pos (bn : Nat) : Option Pos :=
  if h : bn < NDIRECT then some (.addr ⟨bn, Nat.lt_succ_of_lt h⟩)
  else if h : bn - NDIRECT < NINDIRECT then some (.entry ⟨bn - NDIRECT, h⟩)
  else none

def blockAt (data : Nat → Block) (d : Dinode) (bn : Nat) : Nat :=
  match pos bn with
  | some x => ptr data d x
  | none => 0

-- Block bn of the file. A block that is not there reads as zeroes.
def content (data : Nat → Block) (d : Dinode) (bn : Nat) : Block :=
  if blockAt data d bn = 0 then Block.zero else data (blockAt data d bn)

-- What an inode is, whichever blocks it has its contents in.
structure Node where
  type : InodeType
  major : Int
  minor : Int
  nlink : Int
  size : Nat
  content : Nat → Block

def Node.free : Node := ⟨.free, 0, 0, 0, 0, fun _ => Block.zero⟩

def node (data : Nat → Block) (d : Dinode) : Node :=
  if d.type = .free then .free else ⟨d.type, d.major, d.minor, d.nlink, d.size, content data d⟩

def nodes (v : Nat → Dinode) (data : Nat → Block) (n : Nat) : Node := node data (v n)

-- Inode o.1 has the number of block b at o.2.
def Owns (data : Nat → Block) (v : Nat → Dinode) (o : Nat × Pos) (b : Nat) : Prop :=
  (v o.1).type ≠ .free ∧ ptr data (v o.1) o.2 = b ∧ b ≠ 0

variable {data : Nat → Block} {v : Nat → Dinode} {n b bn : Nat} {d : Dinode}

theorem pos_inj {bn bn' : Nat} {x : Pos} (h : pos bn = some x) (h' : pos bn' = some x) :
    bn = bn' := by
  unfold pos at h h'
  split at h
  · cases h
    split at h'
    · cases h'
      rfl
    · split at h' <;> cases h'
  · split at h
    · cases h
      split at h'
      · cases h'
      · split at h'
        · simp only [Option.some.injEq, Pos.entry.injEq, Fin.mk.injEq] at h'
          omega
        · cases h'
    · cases h

theorem pos_ne_indirect (bn : Nat) : pos bn ≠ some (.addr indirect) := by
  unfold pos
  split
  · rename_i h
    intro heq
    simp only [Option.some.injEq, Pos.addr.injEq] at heq
    have hval : bn = NDIRECT := congrArg Fin.val heq
    omega
  · split <;> simp

theorem blockAt_of_pos {x : Pos} (h : pos bn = some x) : blockAt data d bn = ptr data d x := by
  simp [blockAt, h]

theorem blockAt_of_none (h : pos bn = none) : blockAt data d bn = 0 := by
  simp [blockAt, h]

theorem content_of_block (h : blockAt data d bn ≠ 0) :
    content data d bn = data (blockAt data d bn) := by
  simp [content, h]

theorem node_of_alloc (h : d.type ≠ .free) :
    node data d = ⟨d.type, d.major, d.minor, d.nlink, d.size, content data d⟩ := by
  simp [node, h]

@[simp] theorem node_type : (node data d).type = d.type := by
  unfold node
  split
  · rename_i h
    exact h.symm
  · rfl

theorem owns_blockAt {x : Pos} (hn : (v n).type ≠ .free) (hx : pos bn = some x)
    (hb : blockAt data (v n) bn = b) (hb0 : b ≠ 0) : Owns data v (n, x) b :=
  ⟨hn, (blockAt_of_pos hx).symm.trans hb, hb0⟩

theorem content_congr {data' : Nat → Block} {d' : Dinode}
    (h : ∀ bn, blockAt data' d' bn = blockAt data d bn)
    (hdata : ∀ bn, blockAt data d bn ≠ 0 → data' (blockAt data d bn) = data (blockAt data d bn)) :
    content data' d' = content data d := by
  funext bn
  unfold content
  rw [h bn]
  split
  · rfl
  · rename_i hb
    exact hdata bn hb

theorem ptr_update (blk : Block) (x : Pos) (h : d.addrs indirect ≠ b) :
    ptr (Function.update data b blk) d x = ptr data d x := by
  cases x with
  | addr k => rfl
  | entry j => rw [ptr, ptr, Function.update_of_ne h]

theorem blockAt_update (blk : Block) (bn : Nat) (h : d.addrs indirect ≠ b) :
    blockAt (Function.update data b blk) d bn = blockAt data d bn := by
  unfold blockAt
  split
  · exact ptr_update blk _ h
  · rfl

theorem owns_update (blk : Block) (hb : ∀ n, ¬ Owns data v (n, .addr indirect) b) (hb0 : b ≠ 0)
    (o : Nat × Pos) (c : Nat) : Owns (Function.update data b blk) v o c ↔ Owns data v o c := by
  unfold Owns
  by_cases hn : (v o.1).type = .free
  · simp [hn]
  · have hne : (v o.1).addrs indirect ≠ b := fun h => hb o.1 ⟨hn, h, hb0⟩
    rw [ptr_update blk o.2 hne]

theorem content_update (blk : Block) (hn : (v n).type ≠ .free) (hb0 : b ≠ 0)
    (hb : ∀ x, ¬ Owns data v (n, x) b) :
    content (Function.update data b blk) (v n) = content data (v n) := by
  have hne : (v n).addrs indirect ≠ b := fun h => hb (.addr indirect) ⟨hn, h, hb0⟩
  refine content_congr (fun bn => blockAt_update blk bn hne) fun bn hbn => ?_
  refine Function.update_of_ne (fun heq => ?_) _ _
  cases hx : pos bn with
  | none => exact hbn (blockAt_of_none hx)
  | some x => exact hb x (owns_blockAt hn hx heq hb0)

def Dinode.setAddr (d : Dinode) (k : Fin (NDIRECT + 1)) (b : Nat) : Dinode :=
  { d with addrs := Function.update d.addrs k b }

theorem ptr_setAddr_self (k : Fin (NDIRECT + 1)) : ptr data (d.setAddr k b) (.addr k) = b := by
  simp [ptr, Dinode.setAddr]

theorem ptr_setAddr (k : Fin (NDIRECT + 1)) (hk : d.addrs k = 0)
    (hzero : k = indirect → data b = Block.zero) {x : Pos} (hx : x ≠ .addr k) :
    ptr data (d.setAddr k b) x = ptr data d x := by
  cases x with
  | addr l =>
    have hlk : l ≠ k := fun h => hx (h ▸ rfl)
    simp [ptr, Dinode.setAddr, hlk]
  | entry j =>
    by_cases hki : k = indirect
    · subst hki
      simp [ptr, Dinode.setAddr, hk, hzero rfl]
    · simp [ptr, Dinode.setAddr, Ne.symm hki]

theorem owns_setAddr (k : Fin (NDIRECT + 1)) (hn : (v n).type ≠ .free) (hk : (v n).addrs k = 0)
    (hb0 : b ≠ 0) (hzero : data b = Block.zero) (o : Nat × Pos) (c : Nat) :
    Owns data (Function.update v n ((v n).setAddr k b)) o c ↔
      Owns data v o c ∨ (o = (n, .addr k) ∧ c = b) := by
  obtain ⟨m, x⟩ := o
  unfold Owns
  by_cases hm : m = n
  · subst hm
    rw [Function.update_self]
    by_cases hx : x = .addr k
    · subst hx
      rw [ptr_setAddr_self]
      have hold : ptr data (v m) (.addr k) = 0 := hk
      constructor
      · rintro ⟨-, rfl, -⟩
        exact .inr ⟨rfl, rfl⟩
      · rintro (⟨-, h, hc⟩ | ⟨-, rfl⟩)
        · exact absurd (h.symm.trans hold) hc
        · exact ⟨hn, rfl, hb0⟩
    · rw [ptr_setAddr k hk (fun _ => hzero) hx]
      simp [hx, Dinode.setAddr]
  · simp [hm]

theorem blockAt_setAddr (k : Fin (NDIRECT + 1)) (hk : d.addrs k = 0) (hzero : data b = Block.zero)
    (hbn : pos bn ≠ some (.addr k)) : blockAt data (d.setAddr k b) bn = blockAt data d bn := by
  cases hx : pos bn with
  | none => rw [blockAt_of_none hx, blockAt_of_none hx]
  | some x =>
    rw [blockAt_of_pos hx, blockAt_of_pos hx]
    exact ptr_setAddr k hk (fun _ => hzero) (fun h => hbn (h ▸ hx))

theorem content_setAddr (k : Fin (NDIRECT + 1)) (hk : d.addrs k = 0) (hzero : data b = Block.zero) :
    content data (d.setAddr k b) = content data d := by
  funext bn
  by_cases hbn : pos bn = some (.addr k)
  · have hold : blockAt data d bn = 0 := by
      rw [blockAt_of_pos hbn]
      exact hk
    have hnew : blockAt data (d.setAddr k b) bn = b := by
      rw [blockAt_of_pos hbn, ptr_setAddr_self]
    unfold content
    rw [hold, hnew]
    split
    · rfl
    · simpa using hzero
  · unfold content
    rw [blockAt_setAddr k hk hzero hbn]

theorem nodes_setAddr (k : Fin (NDIRECT + 1)) (hk : (v n).addrs k = 0)
    (hzero : data b = Block.zero) :
    nodes (Function.update v n ((v n).setAddr k b)) data = nodes v data := by
  funext m
  unfold nodes
  by_cases hm : m = n
  · subst hm
    rw [Function.update_self]
    unfold node
    rw [content_setAddr k hk hzero]
    rfl
  · rw [Function.update_of_ne hm]

-- What is lost with address k: its block, and with the indirect block also what
-- it has the numbers of.
def Pos.under (k : Fin (NDIRECT + 1)) : Pos → Prop
  | .addr l => l = k
  | .entry _ => k = indirect

theorem ptr_setAddr_zero (k : Fin (NDIRECT + 1)) {x : Pos} (hx : x.under k) :
    ptr data (d.setAddr k 0) x = 0 := by
  cases x with
  | addr l =>
    have hl : l = k := hx
    simp [ptr, Dinode.setAddr, hl]
  | entry j =>
    have hk : k = indirect := hx
    simp [ptr, Dinode.setAddr, hk]

theorem ptr_setAddr_other (k : Fin (NDIRECT + 1)) {x : Pos} (hx : ¬ x.under k) :
    ptr data (d.setAddr k b) x = ptr data d x := by
  cases x with
  | addr l =>
    have hl : l ≠ k := hx
    simp [ptr, Dinode.setAddr, hl]
  | entry j =>
    have hk : k ≠ indirect := hx
    simp [ptr, Dinode.setAddr, Ne.symm hk]

theorem owns_setAddr_zero (k : Fin (NDIRECT + 1)) (o : Nat × Pos) (c : Nat) :
    Owns data (Function.update v n ((v n).setAddr k 0)) o c ↔
      Owns data v o c ∧ ¬ (o.1 = n ∧ o.2.under k) := by
  obtain ⟨m, x⟩ := o
  unfold Owns
  by_cases hm : m = n
  · subst hm
    rw [Function.update_self]
    by_cases hx : x.under k
    · simp only [ptr_setAddr_zero k hx, hx, and_self, not_true_eq_false, and_false, iff_false]
      rintro ⟨-, rfl, h0⟩
      exact h0 rfl
    · simp only [ptr_setAddr_other k hx, hx, and_false, not_false_eq_true, and_true]
      rfl
  · simp [hm]

theorem mem_entries {blk : Block} : b ∈ entries blk ↔ b ≠ 0 ∧ ∃ j : Fin NINDIRECT, blk.getUint j = b := by
  unfold entries
  rw [List.mem_filter, List.mem_map]
  constructor
  · rintro ⟨⟨j, hj, rfl⟩, h0⟩
    exact ⟨by simpa using h0, ⟨j, List.mem_range.mp hj⟩, rfl⟩
  · rintro ⟨h0, j, rfl⟩
    exact ⟨⟨j, List.mem_range.mpr j.isLt, rfl⟩, by simpa using h0⟩

theorem nodup_entries {blk : Block} (h : ∀ j j' : Fin NINDIRECT, blk.getUint j ≠ 0 →
    blk.getUint j = blk.getUint j' → j = j') : (entries blk).Nodup := by
  unfold entries
  refine List.pairwise_filter.mpr (List.pairwise_map.mpr ?_)
  refine List.nodup_range.imp_of_mem fun {j j'} hj hj' hne hj0 _ heq => ?_
  have hj0 : blk.getUint j ≠ 0 := by simpa using hj0
  have hfin := h ⟨j, List.mem_range.mp hj⟩ ⟨j', List.mem_range.mp hj'⟩ hj0 heq
  exact hne (congrArg Fin.val hfin)

section Entry

variable {j : Fin NINDIRECT} (hn : (v n).type ≠ .free) (ha : (v n).addrs indirect ≠ 0)
  (hj : (data ((v n).addrs indirect)).getUint j = 0) (hb : b < 2 ^ 32)
  (howner : ∀ o, Owns data v o ((v n).addrs indirect) → o = (n, .addr indirect))

include ha hb in
theorem ptr_setEntry_self :
    ptr (Function.update data ((v n).addrs indirect)
      ((data ((v n).addrs indirect)).putUint j b)) (v n) (.entry j) = b := by
  have hlt : b % 2 ^ 32 = b := Nat.mod_eq_of_lt hb
  rw [ptr, if_neg ha, Function.update_self, Block.getUint_putUint_same _ _ _ j.isLt, hlt]

theorem ptr_setEntry_other {x : Pos} (hx : x ≠ .entry j) :
    ptr (Function.update data ((v n).addrs indirect)
      ((data ((v n).addrs indirect)).putUint j b)) (v n) x = ptr data (v n) x := by
  cases x with
  | addr k => rfl
  | entry l =>
    have hlj : l.val ≠ j.val := fun h => hx (congrArg _ (Fin.ext h))
    simp [ptr, Block.getUint_putUint_other _ _ _ _ hlj]

include ha howner in
theorem addrs_ne_of_owner {m : Nat} (hm : (v m).type ≠ .free) (hmn : m ≠ n) :
    (v m).addrs indirect ≠ (v n).addrs indirect := by
  intro h
  have hown := howner (m, .addr indirect) ⟨hm, h, ha⟩
  exact hmn (congrArg Prod.fst hown)

include hn ha hj hb howner in
theorem owns_setEntry (hb0 : b ≠ 0) (o : Nat × Pos) (c : Nat) :
    Owns (Function.update data ((v n).addrs indirect)
      ((data ((v n).addrs indirect)).putUint j b)) v o c ↔
      Owns data v o c ∨ (o = (n, .entry j) ∧ c = b) := by
  obtain ⟨m, x⟩ := o
  unfold Owns
  dsimp only
  by_cases hm : m = n
  · subst hm
    by_cases hx : x = .entry j
    · subst hx
      have hold : ptr data (v m) (.entry j) = 0 := by simp [ptr, hj]
      rw [ptr_setEntry_self ha hb, hold]
      constructor
      · rintro ⟨-, rfl, -⟩
        exact .inr ⟨rfl, rfl⟩
      · rintro (⟨-, rfl, hc⟩ | ⟨-, rfl⟩)
        · exact absurd rfl hc
        · exact ⟨hn, rfl, hb0⟩
    · rw [ptr_setEntry_other hx]
      simp [hx]
  · by_cases hfree : (v m).type = .free
    · simp [hfree, hm]
    · rw [ptr_update _ x (addrs_ne_of_owner ha howner hfree hm)]
      simp [hm]

include hn ha hj hb howner in
theorem nodes_setEntry (hzero : data b = Block.zero) (hba : b ≠ (v n).addrs indirect) :
    nodes v (Function.update data ((v n).addrs indirect)
      ((data ((v n).addrs indirect)).putUint j b)) = nodes v data := by
  funext m
  unfold nodes node
  split
  · rfl
  · rename_i hm
    have hkeep : ∀ bn, blockAt data (v m) bn ≠ 0 →
        blockAt data (v m) bn ≠ (v n).addrs indirect := by
      intro bn hbn heq
      cases hx : pos bn with
      | none => exact hbn (blockAt_of_none hx)
      | some x =>
        have hown := howner (m, x) (owns_blockAt hm hx heq ha)
        exact pos_ne_indirect bn (hx.trans (congrArg some (congrArg Prod.snd hown)))
    have hcontent : content (Function.update data ((v n).addrs indirect)
        ((data ((v n).addrs indirect)).putUint j b)) (v m) = content data (v m) := by
      by_cases hmn : m = n
      · subst hmn
        funext bn
        by_cases hbn : pos bn = some (.entry j)
        · have hold : blockAt data (v m) bn = 0 := by
            rw [blockAt_of_pos hbn]
            simp [ptr, hj]
          have hnew : blockAt (Function.update data ((v m).addrs indirect)
              ((data ((v m).addrs indirect)).putUint j b)) (v m) bn = b :=
            (blockAt_of_pos hbn).trans (ptr_setEntry_self ha hb)
          unfold content
          rw [hold, hnew, Function.update_of_ne hba, hzero]
          simp
        · have hsame : blockAt (Function.update data ((v m).addrs indirect)
              ((data ((v m).addrs indirect)).putUint j b)) (v m) bn = blockAt data (v m) bn := by
            cases hx : pos bn with
            | none => rw [blockAt_of_none hx, blockAt_of_none hx]
            | some x =>
              rw [blockAt_of_pos hx, blockAt_of_pos hx]
              exact ptr_setEntry_other fun h => hbn (h ▸ hx)
          unfold content
          rw [hsame]
          split
          · rfl
          · rename_i h0
            rw [Function.update_of_ne (hkeep bn h0)]
      · refine content_congr
          (fun bn => blockAt_update _ bn (addrs_ne_of_owner ha howner hm hmn)) fun bn hbn => ?_
        exact Function.update_of_ne (hkeep bn hbn) _ _
    rw [hcontent]

end Entry

theorem ptr_congr {d' : Dinode} (h : d'.addrs = d.addrs) (x : Pos) : ptr data d' x = ptr data d x := by
  cases x with
  | addr k => rw [ptr, ptr, h]
  | entry j => rw [ptr, ptr, h]

theorem ptr_of_zero (h : d.addrs = fun _ => 0) (x : Pos) : ptr data d x = 0 := by
  cases x with
  | addr k => rw [ptr, h]
  | entry j => rw [ptr, h, if_pos rfl]

theorem blockAt_congr {d' : Dinode} (h : d'.addrs = d.addrs) (bn : Nat) :
    blockAt data d' bn = blockAt data d bn := by
  unfold blockAt
  split
  · exact ptr_congr h _
  · rfl

theorem content_addrs {d' : Dinode} (h : d'.addrs = d.addrs) :
    content data d' = content data d :=
  content_congr (blockAt_congr h) fun _ _ => rfl

theorem owns_set {d' : Dinode} (h : d'.addrs = (v n).addrs)
    (ht : d'.type = .free ↔ (v n).type = .free) (o : Nat × Pos) (c : Nat) :
    Owns data (Function.update v n d') o c ↔ Owns data v o c := by
  unfold Owns
  by_cases ho : o.1 = n
  · subst ho
    rw [Function.update_self, ptr_congr h]
    simp [ht]
  · rw [Function.update_of_ne ho]

-- A write to block bn of the file.
theorem nodes_write {x : Pos} (blk : Block) (hn : (v n).type ≠ .free) (hx : pos bn = some x)
    (hb : blockAt data (v n) bn = b) (hb0 : b ≠ 0)
    (howner : ∀ o, Owns data v o b → o = (n, x)) :
    nodes v (Function.update data b blk) = Function.update (nodes v data) n
      { nodes v data n with content := Function.update (content data (v n)) bn blk } := by
  have hind : ∀ m, (v m).type ≠ .free → (v m).addrs indirect ≠ b := by
    intro m hm heq
    have hown := howner (m, .addr indirect) ⟨hm, heq, hb0⟩
    exact pos_ne_indirect bn (hx.trans (congrArg some (congrArg Prod.snd hown).symm))
  funext m
  by_cases hmn : m = n
  · subst hmn
    rw [Function.update_self]
    unfold nodes
    rw [node_of_alloc hn, node_of_alloc hn]
    have hcontent : content (Function.update data b blk) (v m) =
        Function.update (content data (v m)) bn blk := by
      funext bn'
      by_cases hbn : bn' = bn
      · subst hbn
        have hsame : blockAt (Function.update data b blk) (v m) bn' = blockAt data (v m) bn' :=
          blockAt_update blk bn' (hind m hn)
        rw [Function.update_self, content_of_block (by rw [hsame, hb]; exact hb0), hsame, hb,
          Function.update_self]
      · rw [Function.update_of_ne hbn]
        unfold content
        rw [blockAt_update blk bn' (hind m hn)]
        split
        · rfl
        · rename_i h0
          refine Function.update_of_ne (fun heq => ?_) _ _
          cases hx' : pos bn' with
          | none => exact h0 (blockAt_of_none hx')
          | some x' =>
            have hown := howner (m, x') (owns_blockAt hn hx' heq hb0)
            have hxx : x' = x := congrArg Prod.snd hown
            exact hbn (pos_inj hx' (hxx ▸ hx))
    rw [hcontent]
  · rw [Function.update_of_ne hmn]
    unfold nodes node
    split
    · rfl
    · rename_i hm
      have hcontent : content (Function.update data b blk) (v m) = content data (v m) := by
        refine content_congr (fun bn' => blockAt_update blk bn' (hind m hm)) fun bn' h0 => ?_
        refine Function.update_of_ne (fun heq => ?_) _ _
        cases hx' : pos bn' with
        | none => exact h0 (blockAt_of_none hx')
        | some x' =>
          have hown := howner (m, x') (owns_blockAt hm hx' heq hb0)
          exact hmn (congrArg Prod.fst hown)
      rw [hcontent]

end Xv6.Fs
