import Xv6.Fs.Bmap

namespace Xv6.Fs

open Lib

-- The actions on the blocks of the inode in slot i.
def Label.edits (i : Slot) : Label → Bool
  | .readi .. | .balloc _ => true
  | lbl => lbl.block i

-- Such an action changes the disk, and of the tables the size and blocks of the
-- inode in slot i. Only some functions set the size.
structure Edits (sized : Prop) (i : Slot) (lbl : Label) (s t : Sys) : Prop where
  label : lbl.edits i = true
  sized : lbl = .size i → sized
  same : SameBut i s t
  disk : t.dinode = s.dinode ∨
    t.dinode = Function.update s.dinode (s.inode i).inum (s.inode i).toDinode

-- The panics of the file system that are not about open files.
abbrev Apart (msg : String) : Prop := msg ≠ "filedup" ∧ msg ≠ "fileclose"

-- The panics of functions that use no other inode.
abbrev Inner (msg : String) : Prop := Apart msg ∧ msg ≠ "iget: no inodes"

variable {sb : Superblock} {sized : Prop} {i : Slot} {lbl : Label} {s t : Sys}

theorem Edits.of_blocks (hl : lbl.edits i = true) (hs : lbl ≠ .size i)
    (ht : t = { s with bitmap := t.bitmap, data := t.data, home := t.home }) :
    Edits sized i lbl s t := by
  refine ⟨hl, fun heq => absurd heq hs, .of_inode ?_ ?_ ?_ ?_ ?_ ?_, .inl ?_⟩ <;> rw [ht]

abbrev Editing {α : Type} (sized : Prop) (i : Slot) (m : Prog Sys Label α) : Prop :=
  m.Steady (Edits sized i) Inner

theorem editing_look {α : Type} (f : Sys → α) : Editing sized i (.look .look f) :=
  .look fun _ => .of_blocks rfl (by simp) rfl

theorem editing_ballocLoop (cs : List Nat) : Editing sized i (ballocLoop sb cs) := by
  induction cs with
  | nil => trivial
  | cons c rest ih =>
    refine .bind (.atomic (fun s => ?_) fun s msg hmsg => ?_) fun bit => ?_
    · split <;> exact .of_blocks rfl (by simp) rfl
    · split at hmsg <;> cases hmsg
    · cases bit with
      | none => exact ih
      | some b => exact .bind (.modify fun _ => .of_blocks rfl (by simp) rfl) fun _ => trivial

theorem editing_balloc : Editing sized i (balloc sb) := editing_ballocLoop _

theorem editing_bfree (b : Nat) : Editing sized i (bfree b) := by
  refine .atomic (fun s => ?_) fun s msg hmsg => ?_
  · split <;> exact .of_blocks rfl (by simp) rfl
  · split at hmsg
    · cases hmsg
    · cases hmsg
      decide

theorem editing_setAddr (hl : lbl.edits i = true) (hs : lbl ≠ .size i) (k : Fin (NDIRECT + 1))
    (b : Nat) : Editing sized i (.modify lbl (setAddr i k b)) :=
  .modify fun s => ⟨hl, fun heq => absurd heq hs, .setAddr i k b s, .inl rfl⟩

theorem editing_setSize (f : Nat → Nat) : Editing True i
    (.modify (.size i) fun s => s.setInode i fun ip => { ip with size := f ip.size }) :=
  .modify fun s => ⟨decide_eq_true rfl, fun _ => trivial, .setSize i f s, .inl rfl⟩

theorem editing_iupdate (i : Slot) : Editing sized i (iupdate i) :=
  .modify fun s => ⟨rfl, (fun heq => by cases heq), .iupdate i s, .inr rfl⟩

theorem editing_bmapAddr (i : Slot) (k : Fin (NDIRECT + 1)) : Editing sized i (bmapAddr sb i k) := by
  refine .bind (editing_look _) fun addr => ?_
  split
  · refine .bind editing_balloc fun addr => ?_
    split
    · trivial
    · exact .bind (editing_setAddr rfl (by simp) k addr) fun _ => trivial
  · trivial

theorem editing_bmapEntry (i : Slot) (b k : Nat) : Editing sized i (bmapEntry sb i b k) := by
  refine .bind (editing_look _) fun addr => ?_
  split
  · refine .bind editing_balloc fun addr => ?_
    split
    · trivial
    · exact .bind (.modify fun _ => .of_blocks rfl (by simp) rfl) fun _ => trivial
  · trivial

theorem editing_bmap (i : Slot) (bn : Nat) : Editing sized i (bmap sb i bn) := by
  unfold bmap
  split
  · exact editing_bmapAddr i _
  · split
    · refine .bind (editing_bmapAddr i indirect) fun b => ?_
      split
      · trivial
      · exact editing_bmapEntry i b _
    · show Inner _
      decide

theorem editing_bfreeAll (bs : List Nat) : Editing sized i (bfreeAll bs) := by
  induction bs with
  | nil => trivial
  | cons b rest ih => exact .bind (editing_bfree b) fun _ => ih

theorem editing_itruncAddr (i : Slot) (k : Fin (NDIRECT + 1)) : Editing sized i (itruncAddr i k) := by
  refine .bind (editing_look _) fun addr => ?_
  split
  · trivial
  · exact .bind (editing_bfree addr) fun _ => editing_setAddr rfl (by simp) k 0

theorem editing_itruncDirect (i : Slot) (ks : List (Fin (NDIRECT + 1))) :
    Editing sized i (itruncDirect i ks) := by
  induction ks with
  | nil => trivial
  | cons k rest ih => exact .bind (editing_itruncAddr i k) fun _ => ih

theorem editing_itruncIndirect (i : Slot) : Editing sized i (itruncIndirect i) := by
  refine .bind (editing_look _) fun addr => ?_
  split
  · trivial
  · refine .bind (editing_look _) fun a => .bind (editing_bfreeAll a) fun _ => ?_
    exact .bind (editing_bfree addr) fun _ => editing_setAddr rfl (by simp) indirect 0

theorem editing_itrunc (i : Slot) : Editing True i (itrunc i) := by
  refine .bind (editing_itruncDirect i _) fun _ => .bind (editing_itruncIndirect i) fun _ => ?_
  exact .bind (editing_setSize fun _ => 0) fun _ => editing_iupdate i

theorem editing_readiLoop (i : Slot) (dst : Dst) (got : List UInt8) (rounds : List (Nat × Nat)) :
    Editing sized i (readiLoop sb i dst got rounds) := by
  induction rounds generalizing got with
  | nil => trivial
  | cons r rest ih =>
    refine .bind (editing_bmap i _) fun addr => ?_
    split
    · trivial
    · refine .bind (editing_look _) fun bs => ?_
      split
      · exact ih _
      · trivial

theorem editing_readi (i : Slot) (dst : Dst) (off n : Nat) : Editing sized i (readi sb i dst off n) := by
  refine .bind (.look fun _ => .of_blocks rfl (by simp) rfl) fun size => ?_
  split
  · trivial
  · exact editing_readiLoop i dst _ _

theorem editing_writeiLoop (i : Slot) (src : Src) (tot : Nat) (rounds : List (Nat × Nat)) :
    Editing sized i (writeiLoop sb i src tot rounds) := by
  induction rounds generalizing tot with
  | nil => trivial
  | cons r rest ih =>
    refine .bind (editing_bmap i _) fun addr => ?_
    split
    · trivial
    · dsimp only
      split
      · have hl : ∀ off bs, (src.label i off bs).edits i = true ∧
            src.label i off bs ≠ .size i := by
          cases src <;> exact fun _ _ => ⟨rfl, by simp [Src.label]⟩
        exact .bind (.modify fun _ => .of_blocks (hl _ _).1 (hl _ _).2 rfl) fun _ => ih _
      · exact .bind (.modify fun _ => .of_blocks rfl (by simp) rfl) fun _ => trivial

theorem editing_writei (i : Slot) (src : Src) (off n : Nat) :
    Editing True i (writei sb i src off n) := by
  refine .bind (editing_look _) fun size => ?_
  split
  · trivial
  · split
    · trivial
    · refine .bind (editing_writeiLoop i src 0 _) fun tot => ?_
      exact .bind (editing_setSize fun size => max size (off + tot)) fun _ =>
        .bind (editing_iupdate i) fun _ => trivial

end Xv6.Fs
