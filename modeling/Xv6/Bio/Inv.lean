import Xv6.Bio
import Xv6.Lib.Rely
import Xv6.Lib.Counted

namespace Xv6.Bio

open Lib

-- The reference counts: one for each process on its way to or from the lock,
-- one for the holder and one for the log.
structure Refs (s : Sys) : Prop where
  listed : ∀ i, i ∈ s.lru
  count : ∀ i, ∃ n, Counted s.pending (.ref i) n ∧ (s.buf i).refcnt = n +
    (if (s.buf i).holder = none then 0 else 1) +
    (if (s.buf i).dev = ROOTDEV ∧ s.pinned (s.buf i).blockno = true then 1 else 0)
  held : ∀ i, (s.buf i).holder ≠ none → (s.buf i).dev = ROOTDEV
  waits : ∀ p i, s.pending p = .ref i → (s.buf i).dev = ROOTDEV
  loaded : ∀ p i, (s.buf i).holder = some p → (s.buf i).valid = true ∨ s.pending p = .load i

-- What the buffers and the disk hold, compared with what their users see.
structure Coherent (dev : Log.Dev) (s : Sys) : Prop where
  unique : ∀ i j, (s.buf i).dev = ROOTDEV → (s.buf j).dev = ROOTDEV →
    (s.buf i).blockno = (s.buf j).blockno → i = j
  cached : ∀ b, s.pinned b = true →
    ∃ i, (s.buf i).dev = ROOTDEV ∧ (s.buf i).blockno = b ∧ (s.buf i).valid = true
  home : ∀ i, (s.buf i).dev = ROOTDEV → (s.buf i).valid = true → ¬ dev.area (s.buf i).blockno →
    s.dirty i = false → (s.buf i).data = s.flat (s.buf i).blockno
  log : ∀ i, (s.buf i).dev = ROOTDEV → (s.buf i).valid = true → dev.area (s.buf i).blockno →
    s.dirty i = false → (s.buf i).data = s.disk (s.buf i).blockno
  disk : ∀ b, ¬ dev.area b → s.pinned b = false → s.disk b = s.flat b
  dirty : ∀ i, s.dirty i = true → (s.buf i).holder ≠ none

structure LogOk (dev : Log.Dev) (s : Sys) : Prop where
  pinned : s.log.committing = false → ∀ b, b ∈ s.log.lh → s.pinned b = true
  listed : ∀ b, s.pinned b = true → b ∈ s.log.lh
  nodup : s.log.lh.Nodup
  home : ∀ b, b ∈ s.log.lh → ¬ dev.area b
  short : s.log.lh ≠ [] → s.log.lh.length < dev.size
  quiet : s.log.committing = true → s.log.outstanding = 0
  committer : s.log.committing = true ↔ s.committer ≠ none

structure Inv (dev : Log.Dev) (s : Sys) : Prop where
  refs : Refs s
  coherent : Coherent dev s
  logOk : LogOk dev s

-- Equal up to the reference count.
def Buf.Same (b c : Buf) : Prop :=
  b.valid = c.valid ∧ b.dev = c.dev ∧ b.blockno = c.blockno ∧ b.data = c.data ∧
    b.holder = c.holder

-- What process p keeps of the state: the buffers of keep that it holds, the
-- block of the buffer it waits for and, in commit(), the log, the disk and what
-- users see.
structure Frame (p : Nat) (keep : Idx → Prop) (s t : Sys) : Prop where
  held : ∀ i, keep i → (s.buf i).holder = some p → (t.buf i).Same (s.buf i) ∧ t.dirty i = s.dirty i
  commit : s.committer = some p → t.committer = s.committer ∧ t.log = s.log ∧ t.disk = s.disk ∧
    t.flat = s.flat ∧ t.pinned = s.pinned

structure Guar (dev : Log.Dev) (p : Nat) (lbl : Label) (s t : Sys) : Prop where
  frame : ∀ q, q ≠ p → Frame q (fun _ => True) s t
  pending : ∀ q, q ≠ p → t.pending q = s.pending q
  waits : ∀ q i, q ≠ p → s.pending q = .ref i →
    (t.buf i).dev = (s.buf i).dev ∧ (t.buf i).blockno = (s.buf i).blockno
  bread : ∀ b i, lbl = .bread b i → (s.buf i).blockno = b ∧ (s.buf i).dev = ROOTDEV ∧
    (s.buf i).holder = some p ∧ (¬ dev.area b → (s.buf i).data = s.flat b)
  flat : t.flat = flatAfter dev s.flat (lbl, s)
  pinned : t.pinned = pinnedAfter dev s.pinned (lbl, s)

-- Labels of actions that users of the blocks do not see.
def Label.hidden : Label → Bool
  | .bread _ _ | .logWrite _ | .bunpin _ => false
  | _ => true

def rely (dev : Log.Dev) : Rely Sys Label where
  inv := Inv dev
  guar := Guar dev
  ok := fun _ _ => True

theorem Buf.Same.refl (b : Buf) : b.Same b := ⟨rfl, rfl, rfl, rfl, rfl⟩

theorem Sys.setBuf_buf (s : Sys) (i j : Idx) (f : Buf → Buf) :
    (s.setBuf i f).buf j = if j = i then f (s.buf i) else s.buf j := by
  simp [Sys.setBuf, Function.update_apply]

@[simp] theorem Sys.setBuf_self (s : Sys) (i : Idx) (f : Buf → Buf) :
    (s.setBuf i f).buf i = f (s.buf i) := by
  simp [Sys.setBuf]

theorem Sys.setBuf_other (s : Sys) {i j : Idx} (f : Buf → Buf) (h : j ≠ i) :
    (s.setBuf i f).buf j = s.buf j := by
  simp [Sys.setBuf, h]

@[simp] theorem Sys.setPending_buf (s : Sys) (p : Nat) (x : Access) :
    (s.setPending p x).buf = s.buf := rfl

@[simp] theorem Sys.setDirty_buf (s : Sys) (i : Idx) (x : Bool) : (s.setDirty i x).buf = s.buf := rfl

@[simp] theorem Sys.setPinned_buf (s : Sys) (b : Nat) (x : Bool) :
    (s.setPinned b x).buf = s.buf := rfl

-- P speaks only of what p keeps.
def Local (p : Nat) (keep : Idx → Prop) (P : Sys → Prop) : Prop :=
  ∀ s t, Frame p keep s t → P s → P t

variable {dev : Log.Dev} {p : Nat} {keep : Idx → Prop} {P : Sys → Prop}

theorem Frame.mono {keep' : Idx → Prop} {s t : Sys} (h : Frame p keep s t)
    (hk : ∀ i, keep' i → keep i) : Frame p keep' s t :=
  ⟨fun i hi => h.held i (hk i hi), h.commit⟩

theorem Local.stable (h : Local p keep P) : (rely dev).Stable p P := by
  rintro s t - - ⟨q, lbl, hq, hg⟩ hP
  exact h s t ((hg.frame p (Ne.symm hq)).mono fun _ _ => trivial) hP

theorem stable_pending (x : Access) : (rely dev).Stable p fun s => s.pending p = x := by
  rintro s t - - ⟨q, lbl, hq, hg⟩ h
  rw [hg.pending p (Ne.symm hq)]
  exact h

theorem stable_waits (i : Idx) (b : Nat) : (rely dev).Stable p fun s =>
    s.pending p = .ref i ∧ (s.buf i).dev = ROOTDEV ∧ (s.buf i).blockno = b := by
  rintro s t - - ⟨q, lbl, hq, hg⟩ ⟨hw, hd, hb⟩
  obtain ⟨hd', hb'⟩ := hg.waits p i (Ne.symm hq) hw
  exact ⟨(hg.pending p (Ne.symm hq)).trans hw, hd'.trans hd, hb'.trans hb⟩

end Xv6.Bio
