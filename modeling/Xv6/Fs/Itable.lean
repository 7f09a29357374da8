import Xv6.Sysfile
import Xv6.Lib.Rely
import Mathlib.Data.List.Count
import Mathlib.Data.List.Perm.Basic

namespace Xv6.Fs

open Lib

variable {p : Nat} {s t : Sys} {i : Slot}

-- An action that leaves alone what itable.lock protects: which inode an entry
-- holds and the references to it.
structure SameEntries (lbl : Label) (s t : Sys) : Prop where
  ref : ∀ i, (t.inode i).ref = (s.inode i).ref
  dev : ∀ i, (t.inode i).dev = (s.inode i).dev
  inum : ∀ i, (t.inode i).inum = (s.inode i).inum
  refs : t.refs = s.refs

theorem SameEntries.of_inode {lbl : Label} (h : t.inode = s.inode) (hr : t.refs = s.refs) :
    SameEntries lbl s t :=
  ⟨fun i => by rw [h], fun i => by rw [h], fun i => by rw [h], hr⟩

theorem SameEntries.setInode {lbl : Label} (s : Sys) (i : Slot) (f : Inode → Inode)
    (href : (f (s.inode i)).ref = (s.inode i).ref) (hdev : (f (s.inode i)).dev = (s.inode i).dev)
    (hinum : (f (s.inode i)).inum = (s.inode i).inum) : SameEntries lbl s (s.setInode i f) := by
  have hcases : ∀ j, (s.setInode i f).inode j = s.inode j ∨
      j = i ∧ (s.setInode i f).inode j = f (s.inode i) := by
    intro j
    by_cases hj : j = i
    · subst hj
      exact .inr ⟨rfl, Sys.setInode_self s j f⟩
    · exact .inl (Sys.setInode_other s f hj)
  refine ⟨fun j => ?_, fun j => ?_, fun j => ?_, rfl⟩
  · rcases hcases j with h | ⟨rfl, h⟩
    · rw [h]
    · rw [h, href]
  · rcases hcases j with h | ⟨rfl, h⟩
    · rw [h]
    · rw [h, hdev]
  · rcases hcases j with h | ⟨rfl, h⟩
    · rw [h]
    · rw [h, hinum]

-- ref counts the references to an entry, and an inode is in at most one entry.
structure Entries (s : Sys) : Prop where
  count : ∀ i, (s.inode i).ref = s.refs.countP fun r => decide (r.2 = i)
  unique : ∀ i j, 0 < (s.inode i).ref → 0 < (s.inode j).ref → (s.inode i).dev = (s.inode j).dev →
    (s.inode i).inum = (s.inode j).inum → i = j

namespace Entries

theorem ref_nonneg (h : Entries s) (i : Slot) : 0 ≤ (s.inode i).ref := by
  rw [h.count i]
  omega

theorem ref_pos (h : Entries s) {o : Owner} (ho : 0 < s.own o i) : 0 < (s.inode i).ref := by
  have hmem : (o, i) ∈ s.refs := List.count_pos_iff.mp ho
  have hpos : 0 < s.refs.countP fun r => decide (r.2 = i) :=
    List.countP_pos_iff.mpr ⟨_, hmem, by simp⟩
  rw [h.count i]
  omega

theorem congr {lbl : Label} (h : Entries s) (hst : SameEntries lbl s t) : Entries t := by
  refine ⟨fun i => ?_, fun i j hi hj hdev hinum => ?_⟩
  · rw [hst.ref, hst.refs]
    exact h.count i
  · rw [hst.ref] at hi hj
    rw [hst.dev, hst.dev] at hdev
    rw [hst.inum, hst.inum] at hinum
    exact h.unique i j hi hj hdev hinum

theorem unique_of_kept (h : Entries s)
    (hkept : ∀ j, 0 < (t.inode j).ref → 0 < (s.inode j).ref ∧
      (t.inode j).dev = (s.inode j).dev ∧ (t.inode j).inum = (s.inode j).inum)
    (j k : Slot) (hj : 0 < (t.inode j).ref) (hk : 0 < (t.inode k).ref)
    (hdev : (t.inode j).dev = (t.inode k).dev) (hinum : (t.inode j).inum = (t.inode k).inum) :
    j = k := by
  obtain ⟨hj', hdj, hnj⟩ := hkept j hj
  obtain ⟨hk', hdk, hnk⟩ := hkept k hk
  rw [hdj, hdk] at hdev
  rw [hnj, hnk] at hinum
  exact h.unique j k hj' hk' hdev hinum

theorem hold (h : Entries s) (q : Nat) (hi : 0 < (s.inode i).ref) : Entries (s.hold q i) := by
  have hinode : ∀ j, (s.hold q i).inode j =
      if j = i then { s.inode i with ref := (s.inode i).ref + 1 } else s.inode j :=
    fun j => Sys.setInode_inode s i j fun ip => { ip with ref := ip.ref + 1 }
  refine ⟨fun j => ?_, h.unique_of_kept fun j hj => ?_⟩
  · have hrefs : (s.hold q i).refs = (.proc q, i) :: s.refs := rfl
    rw [hinode, hrefs, List.countP_cons]
    by_cases hji : j = i
    · subst hji
      simp [h.count j]
    · simp [hji, Ne.symm hji, h.count j]
  · rw [hinode] at hj ⊢
    split
    · rename_i hji
      subst hji
      exact ⟨hi, rfl, rfl⟩
    · rename_i hji
      rw [if_neg hji] at hj
      exact ⟨hj, rfl, rfl⟩

-- An empty entry is taken for an inode that is in no entry.
theorem recycle {dev inum : Nat} (h : Entries s) (hi : (s.inode i).ref = 0)
    (hnone : ∀ j, 0 < (s.inode j).ref → (s.inode j).dev = dev → (s.inode j).inum ≠ inum) :
    Entries (s.recycle p dev inum i) := by
  have hinode : ∀ j, (s.recycle p dev inum i).inode j =
      if j = i then { s.inode i with dev := dev, inum := inum, ref := 1, valid := false }
      else s.inode j := fun j => Sys.setInode_inode s i j fun ip =>
        { ip with dev := dev, inum := inum, ref := 1, valid := false }
  refine ⟨fun j => ?_, fun j k hj hk hdev hinum => ?_⟩
  · have hrefs : (s.recycle p dev inum i).refs = (.proc p, i) :: s.refs := rfl
    rw [hinode, hrefs, List.countP_cons]
    by_cases hji : j = i
    · subst hji
      have hzero := h.count j
      rw [hi] at hzero
      simp [← hzero]
    · simp [hji, Ne.symm hji, h.count j]
  · rw [hinode] at hj hdev hinum
    rw [hinode] at hk hdev hinum
    by_cases hji : j = i
    · by_cases hki : k = i
      · rw [hji, hki]
      · rw [if_pos hji, if_neg hki] at hdev hinum
        rw [if_neg hki] at hk
        exact absurd hinum.symm (hnone k hk hdev.symm)
    · rw [if_neg hji] at hj hdev hinum
      by_cases hki : k = i
      · rw [if_pos hki] at hdev hinum
        exact absurd hinum (hnone j hj hdev)
      · rw [if_neg hki] at hk hdev hinum
        exact h.unique j k hj hk hdev hinum

theorem drop (h : Entries s) (hi : 0 < s.own (.proc p) i) : Entries (s.drop p i) := by
  have hinode : ∀ j, (s.drop p i).inode j =
      if j = i then { s.inode i with ref := (s.inode i).ref - 1 } else s.inode j :=
    fun j => Sys.setInode_inode s i j fun ip => { ip with ref := ip.ref - 1 }
  have hmem : (Owner.proc p, i) ∈ s.refs := List.count_pos_iff.mp hi
  refine ⟨fun j => ?_, h.unique_of_kept fun j hj => ?_⟩
  · have hcount : s.refs.countP (fun r => decide (r.2 = j)) =
        (s.drop p i).refs.countP (fun r => decide (r.2 = j)) + if j = i then 1 else 0 := by
      rw [(List.perm_cons_erase hmem).countP_eq, List.countP_cons]
      simp [Sys.drop, eq_comm]
    have hj := h.count j
    rw [hcount] at hj
    rw [hinode]
    split
    · rename_i hji
      subst hji
      rw [if_pos rfl] at hj
      dsimp only
      omega
    · rename_i hji
      rw [if_neg hji] at hj
      exact hj
  · rw [hinode] at hj ⊢
    split
    · rename_i hji
      subst hji
      exact ⟨h.ref_pos hi, rfl, rfl⟩
    · rename_i hji
      rw [if_neg hji] at hj
      exact ⟨hj, rfl, rfl⟩

end Entries

theorem cached_eq_some {dev inum : Nat} (h : s.cached dev inum = some i) :
    0 < (s.inode i).ref ∧ (s.inode i).dev = dev ∧ (s.inode i).inum = inum := by
  simpa using List.find?_some h

theorem cached_eq_none {dev inum : Nat} (h : s.cached dev inum = none) (j : Slot)
    (hj : 0 < (s.inode j).ref) (hdev : (s.inode j).dev = dev) : (s.inode j).inum ≠ inum := by
  intro hinum
  have hfind := List.find?_eq_none.mp h j (List.mem_finRange j)
  simp [hj, hdev, hinum] at hfind

theorem empty_eq_some (h : s.empty = some i) : (s.inode i).ref = 0 := by
  simpa using List.find?_some h

theorem Entries.cached (h : Entries s) (hi : 0 < (s.inode i).ref) :
    s.cached (s.inode i).dev (s.inode i).inum = some i := by
  cases hc : s.cached (s.inode i).dev (s.inode i).inum with
  | none => exact absurd rfl (cached_eq_none hc i hi rfl)
  | some j =>
    obtain ⟨hj, hdev, hinum⟩ := cached_eq_some hc
    rw [h.unique j i hj hi hdev hinum]

-- What an action of process p leaves to the others: their references, and the
-- inode of an entry that is in use.
structure KeepsEntries (p : Nat) (s t : Sys) : Prop where
  own : ∀ q i, q ≠ p → t.own (.proc q) i = s.own (.proc q) i
  dev : ∀ i, 0 < (s.inode i).ref → (t.inode i).dev = (s.inode i).dev
  inum : ∀ i, 0 < (s.inode i).ref → (t.inode i).inum = (s.inode i).inum

theorem SameEntries.keeps {lbl : Label} (h : SameEntries lbl s t) : KeepsEntries p s t :=
  ⟨fun q i _ => by rw [Sys.own, Sys.own, h.refs], fun i _ => h.dev i, fun i _ => h.inum i⟩

theorem KeepsEntries.of_setInode (i : Slot) (f : Inode → Inode)
    (ht : t.inode = (s.setInode i f).inode) (hf : 0 < (s.inode i).ref →
      (f (s.inode i)).dev = (s.inode i).dev ∧ (f (s.inode i)).inum = (s.inode i).inum)
    (hown : ∀ q j, q ≠ p → t.own (.proc q) j = s.own (.proc q) j) : KeepsEntries p s t := by
  refine ⟨hown, fun j hj => ?_, fun j hj => ?_⟩
  · rw [ht, Sys.setInode_inode]
    split
    · rename_i hji
      subst hji
      exact (hf hj).1
    · rfl
  · rw [ht, Sys.setInode_inode]
    split
    · rename_i hji
      subst hji
      exact (hf hj).2
    · rfl

theorem own_cons_other {q r : Nat} (i j : Slot) (h : q ≠ r) (refs : List (Owner × Slot)) :
    ((Owner.proc r, i) :: refs).count (.proc q, j) = refs.count (.proc q, j) :=
  List.count_cons_of_ne (by simp [Ne.symm h])

theorem KeepsEntries.hold (s : Sys) (p : Nat) (i : Slot) : KeepsEntries p s (s.hold p i) :=
  .of_setInode i (fun ip => { ip with ref := ip.ref + 1 }) rfl (fun _ => ⟨rfl, rfl⟩)
    fun _ j hq => own_cons_other i j hq s.refs

theorem KeepsEntries.recycle (p dev inum : Nat) (hi : (s.inode i).ref = 0) :
    KeepsEntries p s (s.recycle p dev inum i) :=
  .of_setInode i (fun ip => { ip with dev := dev, inum := inum, ref := 1, valid := false }) rfl
    (fun h => by omega) fun _ j hq => own_cons_other i j hq s.refs

theorem KeepsEntries.drop (s : Sys) (p : Nat) (i : Slot) : KeepsEntries p s (s.drop p i) :=
  .of_setInode i (fun ip => { ip with ref := ip.ref - 1 }) rfl (fun _ => ⟨rfl, rfl⟩)
    fun _ j hq => List.count_erase_of_ne (by simp [hq])

def itable : Rely Sys Label := ⟨Entries, fun p _ => KeepsEntries p, fun _ _ => True⟩

theorem stable_own : itable.Stable p fun s => 0 < s.own (.proc p) i := by
  rintro s t - - ⟨q, lbl, hq, hg⟩ h
  rwa [hg.own p i hq.symm]

theorem stable_true : itable.Stable p fun _ => True := fun _ _ _ _ _ h => h

theorem triple_same {α : Type} {m : Prog Sys Label α} (hm : m.Always SameEntries) {P : Sys → Prop}
    (hst : itable.Stable p P) (hP : ∀ lbl s t, SameEntries lbl s t → P s → P t) :
    itable.Triple p P m fun _ => P :=
  .always hm hst fun lbl s t hs hpre _ hst' => ⟨hs.congr hst', hst'.keeps, hP lbl s t hst' hpre⟩

theorem SameEntries.own {lbl : Label} (h : SameEntries lbl s t) (hs : 0 < s.own (.proc p) i) :
    0 < t.own (.proc p) i := by
  rwa [Sys.own, h.refs]

theorem triple_iget (dev inum : Nat) :
    itable.Triple p (fun _ => True) (iget p dev inum) fun _ _ => True := by
  refine .atomic stable_true (fun _ => stable_true) fun s hs _ _ => ?_
  cases hc : s.cached dev inum with
  | some i => exact ⟨hs.hold p (cached_eq_some hc).1, .hold s p i, fun _ _ => trivial⟩
  | none =>
    dsimp only
    cases he : s.empty with
    | some i =>
      have hi := empty_eq_some he
      exact ⟨hs.recycle hi (cached_eq_none hc), .recycle p dev inum hi, fun _ _ => trivial⟩
    | none =>
      have hsame : SameEntries (.iget inum) s s := .of_inode rfl rfl
      exact ⟨hs, hsame.keeps, fun _ _ => trivial⟩

theorem triple_idup (i : Slot) :
    itable.Triple p (fun s => 0 < s.own (.proc p) i) (idup p i) fun _ _ => True := by
  refine Rely.Triple.bind (M := fun _ _ => True) ?_ fun i =>
    .ret (a := i) (Q := fun _ _ => True) stable_true
  refine .modify stable_own stable_true fun s hs hpre _ => ?_
  exact ⟨hs.hold p (hs.ref_pos hpre), .hold s p i, trivial⟩

abbrev Aside {α : Type} (m : Prog Sys Label α) : Prop := m.Always SameEntries

theorem aside_iupdate (i : Slot) : Aside (iupdate i) := .modify fun _ => .of_inode rfl rfl

theorem aside_look {α : Type} (f : Sys → α) : Aside (Prog.look .look f) :=
  .look fun _ => .of_inode rfl rfl

theorem aside_bfree (b : Nat) : Aside (bfree b) := by
  refine .atomic fun s => ?_
  split <;> exact .of_inode rfl rfl

theorem aside_setAddr (i : Slot) (k : Fin (NDIRECT + 1)) :
    Aside (Prog.modify (.itrunc i) (setAddr i k 0)) :=
  .modify fun s => .setInode s i _ rfl rfl rfl

theorem aside_itruncDirect (i : Slot) (ks : List (Fin (NDIRECT + 1))) :
    Aside (itruncDirect i ks) := by
  induction ks with
  | nil => trivial
  | cons k rest ih =>
    refine .bind (.bind (aside_look _) fun addr => ?_) fun _ => ih
    split
    · trivial
    · exact .bind (aside_bfree addr) fun _ => aside_setAddr i k

theorem aside_bfreeAll (bs : List Nat) : Aside (bfreeAll bs) := by
  induction bs with
  | nil => trivial
  | cons b rest ih => exact .bind (aside_bfree b) fun _ => ih

theorem aside_itruncIndirect (i : Slot) : Aside (itruncIndirect i) := by
  refine .bind (aside_look _) fun addr => ?_
  split
  · trivial
  · refine .bind (aside_look _) fun a => .bind (aside_bfreeAll a) fun _ => ?_
    exact .bind (aside_bfree addr) fun _ => aside_setAddr i indirect

theorem aside_itrunc (i : Slot) : Aside (itrunc i) := by
  refine .bind (aside_itruncDirect i _) fun _ => .bind (aside_itruncIndirect i) fun _ => ?_
  refine .bind (.modify fun s => .setInode s i _ rfl rfl rfl) fun _ => ?_
  exact .modify fun s => .of_inode rfl rfl

theorem triple_ifree (i : Slot) :
    itable.Triple p (fun s => 0 < s.own (.proc p) i) (ifree p i) fun _ _ => True := by
  have hsame : ∀ {α : Type} {m : Prog Sys Label α}, Aside m →
      itable.Triple p (fun s => 0 < s.own (.proc p) i) m fun _ s => 0 < s.own (.proc p) i :=
    fun hm => triple_same hm stable_own fun _ _ _ h => h.own
  refine .bind (hsame (aside_itrunc i)) fun _ => ?_
  refine .bind (hsame (.modify fun s => .setInode s i _ rfl rfl rfl)) fun _ => ?_
  refine .bind (hsame (aside_iupdate i)) fun _ => ?_
  refine .bind (hsame (.modify fun s => .setInode s i _ rfl rfl rfl)) fun _ => ?_
  exact .modify stable_own stable_true fun s hs hpre _ => ⟨hs.drop hpre, .drop s p i, trivial⟩

theorem triple_iput (i : Slot) :
    itable.Triple p (fun s => 0 < s.own (.proc p) i) (iput p i) fun _ _ => True := by
  refine .act stable_own fun s t hs hpre _ ht => ?_
  by_cases hu : s.unused i = true
  · rw [if_pos hu] at ht ⊢
    split at ht
    · cases ht
      have hsame : SameEntries (.iput i) s (s.acquire p i) := .setInode s i _ rfl rfl rfl
      exact ⟨hs.congr hsame, hsame.keeps, fun hi => triple_ifree i _ hi (hsame.own hpre)⟩
    · cases ht
  · rw [if_neg hu] at ht ⊢
    cases ht
    exact ⟨hs.drop hpre, .drop s p i, fun _ _ _ => trivial⟩

-- What processes run: iget(), idup() and iput(), the last two on a reference
-- that they hold, and other code, which leaves the entries alone.
def TableCalls (p : Nat) (s : Sys) (m : Prog Sys Label Unit) : Prop :=
  (∃ dev inum, m = iget p dev inum >>= fun _ => pure ()) ∨
    (∃ i, 0 < s.own (.proc p) i ∧ (m = idup p i >>= (fun _ => pure ()) ∨ m = iput p i)) ∨
    Aside m

theorem entries_boot (img : Image) : Entries (boot img) := by
  have href : ∀ i, ((boot img).inode i).ref = if i = rootSlot then 1 else 0 := fun _ => rfl
  refine ⟨fun i => ?_, fun i j hi hj _ _ => ?_⟩
  · have hrefs : (boot img).refs = [(.proc 0, rootSlot)] := rfl
    rw [href, hrefs]
    by_cases hi : i = rootSlot
    · simp [hi]
    · simp [hi, Ne.symm hi]
  · rw [href] at hi hj
    by_cases hir : i = rootSlot
    · by_cases hjr : j = rootSlot
      · rw [hir, hjr]
      · simp [hjr] at hj
    · simp [hir] at hi

theorem safe_tableCalls {m : Prog Sys Label Unit} (hs : Entries s) (hm : TableCalls p s m) :
    itable.Safe p (fun _ _ => True) m s := by
  rcases hm with ⟨dev, inum, rfl⟩ | ⟨i, hown, rfl | rfl⟩ | hm
  · exact (triple_iget dev inum).bind (fun _ => .ret (Q := fun _ _ => True) stable_true) s hs trivial
  · exact (triple_idup i).bind (fun _ => .ret (Q := fun _ _ => True) stable_true) s hs hown
  · exact triple_iput i s hs hown
  · exact triple_same hm stable_true (fun _ _ _ _ h => h) s hs trivial

section Run

variable {img : Image} {hist : List (Label × Sys)} {c : Conf Sys Label}

theorem entries_reach (h : Conf.Reach TableCalls ⟨boot img, fun _ => .ret ()⟩ hist c) :
    Entries c.st :=
  (Rely.reach (fun _ _ => True) h (fun _ _ _ hs _ hm => safe_tableCalls hs hm) (entries_boot img)
    (fun _ _ _ => trivial) fun _ _ => trivial).1

theorem keepsEntries_reach {lbl : Label} {upd : Sys → Option Sys} {next : Sys → Prog Sys Label Unit}
    (h : Conf.Reach TableCalls ⟨boot img, fun _ => .ret ()⟩ hist c)
    (hp : c.prog p = .act lbl upd next) (ht : upd c.st = some t) : KeepsEntries p c.st t :=
  Rely.reach_guar (R := itable) (fun _ _ => True) h (fun _ _ _ hs _ hm => safe_tableCalls hs hm)
    (entries_boot img) (fun _ _ _ => trivial) (fun _ _ => trivial) hp trivial ht

-- Whatever the interleaving, an inode is in at most one entry, iget() finds it
-- there, and the entry is not recycled while it is in use.
theorem one_entry_per_inode
    (h : Conf.Reach TableCalls ⟨boot img, fun _ => .ret ()⟩ hist c) :
    (∀ i j, 0 < (c.st.inode i).ref → 0 < (c.st.inode j).ref →
      (c.st.inode i).dev = (c.st.inode j).dev → (c.st.inode i).inum = (c.st.inode j).inum → i = j) ∧
    (∀ p i, 0 < (c.st.inode i).ref →
      (iget p (c.st.inode i).dev (c.st.inode i).inum).run c.st = .done (c.st.hold p i) i) ∧
    (∀ p lbl upd next t, c.prog p = .act lbl upd next → upd c.st = some t →
      ∀ i, 0 < (c.st.inode i).ref →
        (t.inode i).dev = (c.st.inode i).dev ∧ (t.inode i).inum = (c.st.inode i).inum) ∧
    ∀ i, 0 ≤ (c.st.inode i).ref := by
  have hs := entries_reach h
  refine ⟨hs.unique, fun p i hi => ?_, fun p lbl upd next t hp ht i hi => ?_, hs.ref_nonneg⟩
  · simp only [iget, Prog.atomic, hs.cached hi, Prog.run]
  · have hkept := keepsEntries_reach h hp ht
    exact ⟨hkept.dev i hi, hkept.inum i hi⟩

-- Two processes ask for the root directory, which is in entry 0.
theorem one_entry_per_inode_root :
    ∃ hist c, Conf.Reach TableCalls ⟨boot ⟨fun _ => Dinode.zero, fun _ => false,
        fun _ => Block.zero⟩, fun _ => .ret ()⟩ hist c ∧ (c.st.inode rootSlot).ref = 3 ∧
      ∀ i, 0 < (c.st.inode i).ref → (c.st.inode i).dev = ROOTDEV →
        (c.st.inode i).inum = ROOTINO → i = rootSlot := by
  have hinit : Conf.Reach TableCalls ⟨boot ⟨fun _ => Dinode.zero, fun _ => false,
      fun _ => Block.zero⟩, fun _ => .ret ()⟩ [] ⟨boot ⟨fun _ => Dinode.zero, fun _ => false,
      fun _ => Block.zero⟩, fun _ => .ret ()⟩ := .init
  have h := (hinit.after (r := (_, _)) 1 1 rfl (.inl ⟨ROOTDEV, ROOTINO, rfl⟩)).after 2 1 (by rfl)
    (.inl ⟨ROOTDEV, ROOTINO, rfl⟩)
  refine ⟨_, _, h, by decide +kernel, fun i hi hdev hinum => ?_⟩
  exact (one_entry_per_inode h).1 i rootSlot hi (by decide +kernel) hdev hinum

end Run

end Xv6.Fs
