import Mathlib.Data.List.Nodup
import Mathlib.Data.List.Pairwise
import Mathlib.Data.List.Perm.Basic
import Mathlib.Data.List.Flatten

namespace Xv6.Lib

-- Trees of tables. A table named in π holds an entry of ε for each index of ι, and an
-- entry of a table above the bottom level may link to a table of the level below.
structure Radix (π ι ε : Type) where
  idx : List ι
  link : ε → Option π
  empty : ε
  nodup : idx.Nodup
  link_empty : link empty = none

namespace Radix

variable {π ι ε : Type} (R : Radix π ι ε)

-- The tables of the tree with d levels of links under t.
def tables (get : π → ι → ε) : Nat → π → List π
  | 0, t => [t]
  | d + 1, t => t :: R.idx.flatMap fun i => (R.link (get t i)).elim [] (tables get d)

-- The entry at the end of a path, which gives an index for each level.
def lookup (get : π → ι → ε) : Nat → π → (Nat → ι) → ε
  | 0, t, ix => get t (ix 0)
  | d + 1, t, ix =>
    (R.link (get t (ix (d + 1)))).elim R.empty fun c => lookup get d c ix

-- The bottom table that a path leads to.
def leaf (get : π → ι → ε) : Nat → π → (Nat → ι) → Option π
  | 0, t, _ => some t
  | d + 1, t, ix => (R.link (get t (ix (d + 1)))).bind fun c => leaf get d c ix

-- Every entry that links to a table is a good one.
def Linked (good : ε → Prop) (get : π → ι → ε) : Nat → π → Prop
  | 0, _ => True
  | d + 1, t => ∀ i ∈ R.idx, ∀ c, R.link (get t i) = some c →
      good (get t i) ∧ Linked good get d c

def Path (ix : Nat → ι) : Prop :=
  ∀ l, ix l ∈ R.idx

variable {R} {good : ε → Prop} {get get' get'' : π → ι → ε} {d : Nat} {t c p : π} {i : ι}
  {ix ix' : Nat → ι} {new new' : List π} {e : ε}

theorem self_mem_tables : t ∈ R.tables get d t := by
  cases d <;> exact List.mem_cons_self

theorem mem_tables_succ :
    p ∈ R.tables get (d + 1) t ↔
      p = t ∨ ∃ i ∈ R.idx, ∃ c, R.link (get t i) = some c ∧ p ∈ R.tables get d c := by
  simp only [tables, List.mem_cons, List.mem_flatMap]
  refine or_congr_right (exists_congr fun i => and_congr_right fun _ => ?_)
  cases R.link (get t i) <;> simp

theorem mem_tables_child (hi : i ∈ R.idx) (hc : R.link (get t i) = some c)
    (hp : p ∈ R.tables get d c) : p ∈ R.tables get (d + 1) t :=
  mem_tables_succ.mpr (.inr ⟨i, hi, c, hc, hp⟩)

theorem lookup_none (h : R.link (get t (ix (d + 1))) = none) :
    R.lookup get (d + 1) t ix = R.empty := by
  rw [lookup, h]
  rfl

theorem lookup_some (h : R.link (get t (ix (d + 1))) = some c) :
    R.lookup get (d + 1) t ix = R.lookup get d c ix := by
  rw [lookup, h]
  rfl

theorem leaf_none (h : R.link (get t (ix (d + 1))) = none) : R.leaf get (d + 1) t ix = none := by
  rw [leaf, h]
  rfl

theorem leaf_some (h : R.link (get t (ix (d + 1))) = some c) :
    R.leaf get (d + 1) t ix = R.leaf get d c ix := by
  rw [leaf, h]
  rfl

theorem lookup_of_leaf (h : R.leaf get d t ix = some p) : R.lookup get d t ix = get p (ix 0) := by
  induction d generalizing t with
  | zero =>
    cases h
    rfl
  | succ d ih =>
    cases hc : R.link (get t (ix (d + 1))) with
    | none =>
      rw [leaf_none hc] at h
      cases h
    | some c =>
      rw [leaf_some hc] at h
      rw [lookup_some hc]
      exact ih h

theorem lookup_of_no_leaf (h : R.leaf get d t ix = none) : R.lookup get d t ix = R.empty := by
  induction d generalizing t with
  | zero => cases h
  | succ d ih =>
    cases hc : R.link (get t (ix (d + 1))) with
    | none => exact lookup_none hc
    | some c =>
      rw [leaf_some hc] at h
      rw [lookup_some hc]
      exact ih h

theorem leaf_mem_tables (hix : R.Path ix) (h : R.leaf get d t ix = some p) :
    p ∈ R.tables get d t := by
  induction d generalizing t with
  | zero =>
    cases h
    exact self_mem_tables
  | succ d ih =>
    cases hc : R.link (get t (ix (d + 1))) with
    | none =>
      rw [leaf_none hc] at h
      cases h
    | some c =>
      rw [leaf_some hc] at h
      exact mem_tables_child (hix _) hc (ih h)

theorem lookup_path (h : ∀ l ≤ d, ix l = ix' l) : R.lookup get d t ix = R.lookup get d t ix' := by
  induction d generalizing t with
  | zero => simp only [lookup, h 0 (Nat.le_refl 0)]
  | succ d ih =>
    simp only [lookup, h (d + 1) (Nat.le_refl _)]
    congr 1
    funext c
    exact ih fun l hl => h l (Nat.le_succ_of_le hl)

theorem tables_congr (h : ∀ p ∈ R.tables get d t, ∀ i ∈ R.idx, get' p i = get p i) :
    R.tables get' d t = R.tables get d t := by
  induction d generalizing t with
  | zero => rfl
  | succ d ih =>
    simp only [tables]
    congr 1
    refine List.flatMap_congr fun i hi => ?_
    rw [h t self_mem_tables i hi]
    cases hc : R.link (get t i) with
    | none => rfl
    | some c => exact ih fun p hp => h p (mem_tables_child hi hc hp)

theorem lookup_congr (hix : R.Path ix)
    (h : ∀ p ∈ R.tables get d t, ∀ i ∈ R.idx, get' p i = get p i) :
    R.lookup get' d t ix = R.lookup get d t ix := by
  induction d generalizing t with
  | zero => exact h t self_mem_tables _ (hix 0)
  | succ d ih =>
    have hi := hix (d + 1)
    have hentry := h t self_mem_tables _ hi
    cases hc : R.link (get t (ix (d + 1))) with
    | none => rw [lookup_none hc, lookup_none (by rw [hentry, hc])]
    | some c =>
      rw [lookup_some hc, lookup_some (by rw [hentry, hc])]
      exact ih fun p hp => h p (mem_tables_child hi hc hp)

theorem Linked.congr (hl : R.Linked good get d t)
    (h : ∀ p ∈ R.tables get d t, ∀ i ∈ R.idx, get' p i = get p i) : R.Linked good get' d t := by
  induction d generalizing t with
  | zero => trivial
  | succ d ih =>
    intro i hi c hc
    rw [h t self_mem_tables i hi] at hc ⊢
    have hchild := hl i hi c hc
    exact ⟨hchild.1, ih hchild.2 fun p hp => h p (mem_tables_child hi hc hp)⟩

theorem nodup_child (h : (R.tables get (d + 1) t).Nodup) (hi : i ∈ R.idx)
    (hc : R.link (get t i) = some c) : (R.tables get d c).Nodup := by
  have hsub := (List.nodup_flatMap.mp (List.nodup_cons.mp h).2).1 i hi
  rwa [hc] at hsub

theorem notMem_child (h : (R.tables get (d + 1) t).Nodup) (hi : i ∈ R.idx)
    (hc : R.link (get t i) = some c) : t ∉ R.tables get d c := by
  intro ht
  apply (List.nodup_cons.mp h).1
  rw [List.mem_flatMap]
  refine ⟨i, hi, ?_⟩
  rw [hc]
  exact ht

theorem disjoint_children (h : (R.tables get (d + 1) t).Nodup) {j : ι} {b : π} (hi : i ∈ R.idx)
    (hj : j ∈ R.idx) (hij : i ≠ j) (hc : R.link (get t i) = some c)
    (hb : R.link (get t j) = some b) (hp : p ∈ R.tables get d c) : p ∉ R.tables get d b := by
  have hpair := (List.nodup_flatMap.mp (List.nodup_cons.mp h).2).2
  have hsymm : Std.Symm (Function.onFun List.Disjoint fun i =>
      (R.link (get t i)).elim [] (R.tables get d)) := ⟨fun _ _ h _ hx hy => h hy hx⟩
  have hdisj := hpair.forall hi hj hij
  simp only [Function.onFun, hc, hb] at hdisj
  exact fun hp' => hdisj hp hp'

-- Writing the entry a path ends at changes what that path finds and nothing else.
structure Written (R : Radix π ι ε) (get get' : π → ι → ε) (p : π) (i : ι) (e : ε) : Prop where
  here : get' p i = e
  table : ∀ j ∈ R.idx, j ≠ i → get' p j = get p j
  other : ∀ q, q ≠ p → ∀ j ∈ R.idx, get' q j = get q j

namespace Written

theorem outside (hw : R.Written get get' p i e) (hp : p ∉ R.tables get d t) :
    ∀ q ∈ R.tables get d t, ∀ j ∈ R.idx, get' q j = get q j :=
  fun q hq => hw.other q fun heq => hp (heq ▸ hq)

theorem parent (hw : R.Written get get' p i e) (hnd : (R.tables get (d + 1) t).Nodup)
    {j : ι} (hj : j ∈ R.idx) (hc : R.link (get t j) = some c) (hp : p ∈ R.tables get d c) :
    ∀ k ∈ R.idx, get' t k = get t k :=
  hw.other t fun heq => notMem_child hnd hj hc (heq ▸ hp)

theorem leaf_child (h : R.leaf get (d + 1) t ix = some p) :
    ∃ c, R.link (get t (ix (d + 1))) = some c ∧ R.leaf get d c ix = some p := by
  cases hc : R.link (get t (ix (d + 1))) with
  | none =>
    rw [leaf_none hc] at h
    cases h
  | some c => exact ⟨c, rfl, by rwa [leaf_some hc] at h⟩

theorem tables (hw : R.Written get get' p (ix 0) e) (hix : R.Path ix)
    (hnd : (R.tables get d t).Nodup) (hl : R.leaf get d t ix = some p) :
    R.tables get' d t = R.tables get d t := by
  induction d generalizing t with
  | zero => rfl
  | succ d ih =>
    obtain ⟨c, hc, hlc⟩ := leaf_child hl
    have hpc := leaf_mem_tables hix hlc
    have ht := hw.parent hnd (hix _) hc hpc
    simp only [Radix.tables]
    congr 1
    refine List.flatMap_congr fun j hj => ?_
    rw [ht j hj]
    cases hb : R.link (get t j) with
    | none => rfl
    | some b =>
      by_cases hji : ix (d + 1) = j
      · subst hji
        rw [hc] at hb
        cases hb
        exact ih (nodup_child hnd hj hc) hlc
      · exact tables_congr (hw.outside (disjoint_children hnd (hix _) hj hji hc hb hpc))

theorem leaf (hw : R.Written get get' p (ix 0) e) (hix : R.Path ix)
    (hnd : (R.tables get d t).Nodup) (hl : R.leaf get d t ix = some p) :
    R.leaf get' d t ix = some p := by
  induction d generalizing t with
  | zero => exact hl
  | succ d ih =>
    obtain ⟨c, hc, hlc⟩ := leaf_child hl
    have ht := hw.parent hnd (hix _) hc (leaf_mem_tables hix hlc) _ (hix (d + 1))
    rw [leaf_some (by rw [ht, hc])]
    exact ih (nodup_child hnd (hix _) hc) hlc

theorem lookup_self (hw : R.Written get get' p (ix 0) e) (hix : R.Path ix)
    (hnd : (R.tables get d t).Nodup) (hl : R.leaf get d t ix = some p) :
    R.lookup get' d t ix = e := by
  rw [lookup_of_leaf (hw.leaf hix hnd hl), hw.here]

theorem lookup_other (hw : R.Written get get' p (ix 0) e) (hix : R.Path ix) (hix' : R.Path ix')
    (hnd : (R.tables get d t).Nodup) (hl : R.leaf get d t ix = some p)
    (hne : ∃ l ≤ d, ix' l ≠ ix l) : R.lookup get' d t ix' = R.lookup get d t ix' := by
  induction d generalizing t with
  | zero =>
    cases hl
    obtain ⟨l, hl, hne⟩ := hne
    rw [Nat.le_zero.mp hl] at hne
    exact hw.table _ (hix' 0) hne
  | succ d ih =>
    obtain ⟨c, hc, hlc⟩ := leaf_child hl
    have hpc := leaf_mem_tables hix hlc
    have ht := hw.parent hnd (hix _) hc hpc _ (hix' (d + 1))
    cases hb : R.link (get t (ix' (d + 1))) with
    | none => rw [lookup_none hb, lookup_none (by rw [ht, hb])]
    | some b =>
      rw [lookup_some hb, lookup_some (by rw [ht, hb])]
      by_cases htop : ix (d + 1) = ix' (d + 1)
      · rw [← htop, hc] at hb
        cases hb
        obtain ⟨l, hl, hne⟩ := hne
        have hld : l ≤ d := by
          refine Nat.lt_succ_iff.mp (Nat.lt_of_le_of_ne hl fun heq => ?_)
          rw [heq] at hne
          exact hne htop.symm
        exact ih (nodup_child hnd (hix _) hc) hlc ⟨l, hld, hne⟩
      · exact lookup_congr hix'
          (hw.outside (disjoint_children hnd (hix _) (hix' _) htop hc hb hpc))

theorem linked (hw : R.Written get get' p (ix 0) e) (hix : R.Path ix)
    (hnd : (R.tables get d t).Nodup) (hl : R.leaf get d t ix = some p)
    (hlinked : R.Linked good get d t) : R.Linked good get' d t := by
  induction d generalizing t with
  | zero => trivial
  | succ d ih =>
    obtain ⟨c, hc, hlc⟩ := leaf_child hl
    have hpc := leaf_mem_tables hix hlc
    have ht := hw.parent hnd (hix _) hc hpc
    intro j hj b hb
    rw [ht j hj] at hb ⊢
    refine ⟨(hlinked j hj b hb).1, ?_⟩
    by_cases hji : ix (d + 1) = j
    · subst hji
      rw [hc] at hb
      cases hb
      exact ih (nodup_child hnd hj hc) hlc (hlinked _ hj c hc).2
    · exact (hlinked j hj b hb).2.congr
        (hw.outside (disjoint_children hnd (hix _) hj hji hc hb hpc))

end Written

-- The tree gains the tables new and no path finds anything else.
structure Grows (R : Radix π ι ε) (good : ε → Prop) (get get' : π → ι → ε) (d : Nat) (t : π)
    (new : List π) : Prop where
  tables : (R.tables get' d t).Perm (R.tables get d t ++ new)
  lookup : ∀ ix, R.Path ix → R.lookup get' d t ix = R.lookup get d t ix
  linked : R.Linked good get d t → R.Linked good get' d t

namespace Grows

theorem refl : R.Grows good get get d t [] :=
  ⟨by rw [List.append_nil], fun _ _ => rfl, fun h => h⟩

theorem trans (h : R.Grows good get get' d t new) (h' : R.Grows good get' get'' d t new') :
    R.Grows good get get'' d t (new ++ new') := by
  refine ⟨?_, fun ix hix => (h'.lookup ix hix).trans (h.lookup ix hix),
    fun hl => h'.linked (h.linked hl)⟩
  rw [← List.append_assoc]
  exact h'.tables.trans (h.tables.append_right new')

theorem flatMap_perm {κ : Type} {l : List ι} {f f' : ι → List κ} {new : List κ} (hl : l.Nodup)
    (hi : i ∈ l) (hother : ∀ j ∈ l, j ≠ i → f' j = f j) (hsame : (f' i).Perm (f i ++ new)) :
    (l.flatMap f').Perm (l.flatMap f ++ new) := by
  induction l with
  | nil => cases hi
  | cons k l ih =>
    obtain ⟨hk, hl⟩ := List.nodup_cons.mp hl
    rw [List.flatMap_cons, List.flatMap_cons]
    by_cases hki : k = i
    · subst hki
      have hrest : l.flatMap f' = l.flatMap f :=
        List.flatMap_congr fun j hj =>
          hother j (List.mem_cons_of_mem _ hj) fun heq => hk (heq ▸ hj)
      rw [hrest]
      refine (hsame.append_right _).trans ?_
      rw [List.append_assoc, List.append_assoc]
      exact List.perm_append_comm.append_left _
    · rw [hother k List.mem_cons_self hki, List.append_assoc]
      have hil : i ∈ l := (List.mem_cons.mp hi).resolve_left (Ne.symm hki)
      exact (ih hl hil fun j hj => hother j (List.mem_cons_of_mem _ hj)).append_left _

-- A child that grows makes its parent grow, when the rest of the tree is kept.
theorem child (hnd : (R.tables get (d + 1) t).Nodup) (hi : i ∈ R.idx)
    (hc : R.link (get t i) = some c) (hg : R.Grows good get get' d c new)
    (hframe : ∀ p ∈ R.tables get (d + 1) t, p ∉ R.tables get d c →
      ∀ j ∈ R.idx, get' p j = get p j) : R.Grows good get get' (d + 1) t new := by
  have ht : ∀ j ∈ R.idx, get' t j = get t j :=
    hframe t self_mem_tables (notMem_child hnd hi hc)
  -- the other children share no table with the one that grows
  have hothers : ∀ j ∈ R.idx, j ≠ i → ∀ b, R.link (get t j) = some b →
      ∀ p ∈ R.tables get d b, ∀ k ∈ R.idx, get' p k = get p k := by
    intro j hj hji b hb p hp
    exact hframe p (mem_tables_child hj hb hp) (disjoint_children hnd hj hi hji hb hc hp)
  refine ⟨?_, fun ix hix => ?_, fun hlinked j hj b hb => ?_⟩
  · simp only [Radix.tables, List.cons_append]
    refine List.Perm.cons _ (flatMap_perm R.nodup hi (fun j hj hji => ?_) ?_)
    · rw [ht j hj]
      cases hb : R.link (get t j) with
      | none => rfl
      | some b => exact tables_congr (hothers j hj hji b hb)
    · rw [ht i hi, hc]
      exact hg.tables
  · have htop := ht _ (hix (d + 1))
    cases hb : R.link (get t (ix (d + 1))) with
    | none => rw [lookup_none hb, lookup_none (by rw [htop, hb])]
    | some b =>
      rw [lookup_some hb, lookup_some (by rw [htop, hb])]
      by_cases hji : ix (d + 1) = i
      · rw [hji, hc] at hb
        cases hb
        exact hg.lookup ix hix
      · exact lookup_congr hix (hothers _ (hix _) hji b hb)
  · rw [ht j hj] at hb ⊢
    refine ⟨(hlinked j hj b hb).1, ?_⟩
    by_cases hji : j = i
    · subst hji
      rw [hc] at hb
      cases hb
      exact hg.linked (hlinked j hj c hc).2
    · exact (hlinked j hj b hb).2.congr (hothers j hj hji b hb)

theorem tables_empty (h : ∀ j ∈ R.idx, get c j = R.empty) : R.tables get d c = [c] := by
  cases d with
  | zero => rfl
  | succ d =>
    simp only [Radix.tables]
    congr 1
    refine List.flatMap_eq_nil_iff.mpr fun j hj => ?_
    rw [h j hj, R.link_empty]
    rfl

theorem lookup_empty (hix : R.Path ix) (h : ∀ j ∈ R.idx, get c j = R.empty) :
    R.lookup get d c ix = R.empty := by
  cases d with
  | zero => exact h _ (hix 0)
  | succ d => exact lookup_none (by rw [h _ (hix _), R.link_empty])

theorem linked_empty (h : ∀ j ∈ R.idx, get c j = R.empty) : R.Linked good get d c := by
  cases d with
  | zero => trivial
  | succ d =>
    intro j hj b hb
    rw [h j hj, R.link_empty] at hb
    cases hb

-- Linking a new empty table where there was none.
theorem alloc (hi : i ∈ R.idx) (hnone : R.link (get t i) = none) (hlink : R.link e = some c)
    (hgood : good e) (hhere : get' t i = e)
    (htable : ∀ j ∈ R.idx, j ≠ i → get' t j = get t j)
    (hempty : ∀ j ∈ R.idx, get' c j = R.empty)
    (hother : ∀ p ∈ R.tables get (d + 1) t, p ≠ t → ∀ j ∈ R.idx, get' p j = get p j)
    (hnd : (R.tables get (d + 1) t).Nodup) : R.Grows good get get' (d + 1) t [c] := by
  have hothers : ∀ j ∈ R.idx, ∀ b, R.link (get t j) = some b →
      ∀ p ∈ R.tables get d b, ∀ k ∈ R.idx, get' p k = get p k := by
    intro j hj b hb p hp
    exact hother p (mem_tables_child hj hb hp) fun heq => notMem_child hnd hj hb (heq ▸ hp)
  refine ⟨?_, fun ix hix => ?_, fun hlinked j hj b hb => ?_⟩
  · simp only [Radix.tables, List.cons_append]
    refine List.Perm.cons _ (flatMap_perm R.nodup hi (fun j hj hji => ?_) ?_)
    · rw [htable j hj hji]
      cases hb : R.link (get t j) with
      | none => rfl
      | some b => exact tables_congr (hothers j hj b hb)
    · rw [hhere, hlink, hnone]
      exact List.Perm.of_eq (tables_empty hempty)
  · by_cases hji : ix (d + 1) = i
    · rw [lookup_some (c := c) (by rw [hji, hhere, hlink]), lookup_none (by rw [hji, hnone])]
      exact lookup_empty hix hempty
    · have htop := htable _ (hix (d + 1)) hji
      cases hb : R.link (get t (ix (d + 1))) with
      | none => rw [lookup_none hb, lookup_none (by rw [htop, hb])]
      | some b =>
        rw [lookup_some hb, lookup_some (by rw [htop, hb])]
        exact lookup_congr hix (hothers _ (hix _) b hb)
  · by_cases hji : j = i
    · subst hji
      rw [hhere] at hb ⊢
      rw [hlink] at hb
      cases hb
      exact ⟨hgood, linked_empty hempty⟩
    · rw [htable j hj hji] at hb ⊢
      exact ⟨(hlinked j hj b hb).1, (hlinked j hj b hb).2.congr (hothers j hj b hb)⟩

end Grows

end Radix

end Xv6.Lib
