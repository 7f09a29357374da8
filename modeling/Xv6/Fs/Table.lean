import Xv6.Fs.Edits
import Xv6.Fs.Rw
import Xv6.Lib.Tally

namespace Xv6.Fs

open Lib

-- The slot of the inode table that an open file refers to.
def fileIp (file : FileIdx → File) (f : FileIdx) : Option Slot :=
  if (file f).type = .inode ∨ (file f).type = .device then some (file f).ip else none

-- What is known inside a call: the references that it holds, the inodes it has
-- locked, those of them that are directories and those that it has made, the
-- references that it keeps for now, with the inodes that they are to, the slots
-- whose link count it has lowered, the inodes it has allocated and not linked yet,
-- the link counts, whether what it has done so far can be undone, the tables of
-- processes, files and pipes, and the directory that counts as the current one of
-- each process.
structure Ctx where
  held : List Slot
  locked : List Slot
  isdir : List Slot
  made : List (Slot × Nat)
  pinned : List (Slot × Nat)
  dying : List Slot
  fresh : List Nat
  nlinks : Nat → Int
  watching : Prop
  proc : Nat → Proc
  file : FileIdx → File
  pipe : Nat → Option PipeEnds
  dirs : Nat → Option Slot

namespace Ctx

-- The references of open files and current directories, and all references.
noncomputable def opens (c : Ctx) (i : Slot) : Nat := tally (fileIp c.file) i + tally c.dirs i

def pins (c : Ctx) : List Slot := c.pinned.map Prod.fst

noncomputable def refs (c : Ctx) (i : Slot) : Nat :=
  c.opens i + c.pins.count i + c.held.count i

def hold (c : Ctx) (i : Slot) : Ctx := { c with held := i :: c.held }

def drop (c : Ctx) (i : Slot) : Ctx := { c with held := c.held.erase i }

def lock (c : Ctx) (i : Slot) : Ctx := { c with locked := i :: c.locked }

def unlock (c : Ctx) (i : Slot) : Ctx :=
  { c with locked := c.locked.erase i, isdir := [], made := [] }

-- Nothing is known of the locked inodes.
structure Bare (c : Ctx) : Prop where
  isdir : c.isdir = []
  made : c.made = []

def asdir (c : Ctx) (i : Slot) : Ctx := { c with isdir := i :: c.isdir }

def die (c : Ctx) (i : Slot) : Ctx := { c with dying := i :: c.dying }

def pin (c : Ctx) (i : Slot) (n : Nat) : Ctx := { c with pinned := (i, n) :: c.pinned }

def make (c : Ctx) (i : Slot) (n : Nat) : Ctx := { c with made := (i, n) :: c.made }

-- Inode n has nlink links now.
def relinked (c : Ctx) (n : Nat) (nlink : Int) : Ctx :=
  { c with nlinks := Function.update c.nlinks n nlink }

-- What the call has done is there to stay.
def blind (c : Ctx) : Ctx := { c with watching := False, nlinks := fun _ => 0 }

-- The inodes that are open, and whether there is room in the table for k more than
-- those in use.
noncomputable def used (c : Ctx) : Nat := (Finset.univ.filter fun i => 0 < c.opens i).card

def Room (c : Ctx) (k : Nat) : Prop :=
  c.used + c.pinned.length + c.held.length + k ≤ NINODE

-- Between two calls.
def idle (s : Sys) : Ctx :=
  ⟨[], [], [], [], [], [], [], fun _ => 0, False, s.proc, s.file, s.pipe, fun q => (s.proc q).cwd⟩

variable (c : Ctx) (i j : Slot)

theorem refs_hold : (c.hold i).refs j = c.refs j + if i = j then 1 else 0 := by
  show c.opens j + c.pins.count j + (i :: c.held).count j =
    c.opens j + c.pins.count j + c.held.count j + _
  rw [List.count_cons, ← Nat.add_assoc]
  simp

theorem refs_drop (h : i ∈ c.held) : (c.drop i).refs j + (if i = j then 1 else 0) = c.refs j := by
  show c.opens j + c.pins.count j + (c.held.erase i).count j + _ =
    c.opens j + c.pins.count j + c.held.count j
  rw [(List.perm_cons_erase h).count_eq, List.count_cons, Nat.add_assoc]
  simp

@[simp] theorem drop_hold : (c.hold i).drop i = c := by
  simp [drop, hold]

@[simp] theorem drop_hold_hold : ((c.hold i).hold j).drop i = c.hold j := by
  by_cases hij : j = i
  · simp [drop, hold, hij]
  · simp [drop, hold, hij]

theorem Bare.eq {c : Ctx} (h : c.Bare) : { c with isdir := [], made := [] } = c := by
  obtain ⟨hisdir, hmade⟩ := h
  cases c
  simp_all

theorem unlock_lock (h : c.Bare) : (c.lock i).unlock i = c := by
  refine Eq.trans ?_ h.eq
  simp [unlock, lock]

theorem unlock_lock_lock (h : c.Bare) : ((c.lock i).lock j).unlock i = c.lock j := by
  refine Eq.trans ?_ (congrArg (lock · j) h.eq)
  by_cases hij : j = i
  · simp [unlock, lock, hij]
  · simp [unlock, lock, hij]

theorem unlock_drop (h : c.Bare) : (((c.hold i).lock i).unlock i).drop i = c := by
  rw [unlock_lock (c.hold i) i ⟨h.isdir, h.made⟩, drop_hold]

theorem refs_pos_of_held {c : Ctx} {i : Slot} (h : i ∈ c.held) : 0 < c.refs i := by
  have hpos : 0 < c.held.count i := List.count_pos_iff.mpr h
  exact Nat.add_pos_right _ hpos

theorem refs_pos_of_pins {c : Ctx} {i : Slot} (h : i ∈ c.pins) : 0 < c.refs i := by
  have hpos : 0 < c.pins.count i := List.count_pos_iff.mpr h
  exact Nat.add_pos_left (Nat.add_pos_right _ hpos) _

theorem refs_pos_of_open {c : Ctx} {i : Slot} (h : 0 < c.opens i) : 0 < c.refs i :=
  Nat.add_pos_left (Nat.add_pos_left h _) _

theorem sole_of_held {c : Ctx} {i : Slot} (h : i ∈ c.held) (hone : c.refs i = 1) :
    c.opens i = 0 ∧ i ∉ c.pins := by
  have hpos : 0 < c.held.count i := List.count_pos_iff.mpr h
  have hrefs : c.refs i = c.opens i + c.pins.count i + c.held.count i := rfl
  exact ⟨by omega, List.count_eq_zero.mp (by omega)⟩

theorem Room.mono {c : Ctx} {k m : Nat} (h : c.Room k) (hm : m ≤ k) : c.Room m :=
  (Nat.add_le_add_left hm _).trans h

theorem Room.hold {c : Ctx} {k : Nat} (h : c.Room (k + 1)) (i : Slot) : (c.hold i).Room k := by
  have h : c.used + c.pinned.length + c.held.length + (k + 1) ≤ NINODE := h
  show c.used + c.pinned.length + (i :: c.held).length + k ≤ NINODE
  rw [List.length_cons]
  omega

theorem Room.pin {c : Ctx} {k : Nat} (h : c.Room (k + 1)) (i : Slot) (n : Nat) :
    (c.pin i n).Room k := by
  have h : c.used + c.pinned.length + c.held.length + (k + 1) ≤ NINODE := h
  show c.used + ((i, n) :: c.pinned).length + c.held.length + k ≤ NINODE
  rw [List.length_cons]
  omega

end Ctx

-- A run of calls: the process that calls, what is assumed of the disk and of the
-- links, whether no inode may be left without a link, whether the call may write
-- to a file, whether it finds room in the table of inodes, the inodes that it
-- leaves as they were, and those that it leaves so if it fails.
structure Mode where
  sb : Superblock
  p : Nat
  exact : Prop
  holeFree : Prop
  linked : Prop
  durable : Prop
  writes : Prop
  roomy : Prop
  keep : Nat → Prop
  watch : Nat → Prop
  snap : Sys
  linked_of_durable : durable → linked

-- An in-memory inode and its dinode.
structure Agree (whole : Prop) (d d' : Dinode) : Prop where
  type : d.type = d'.type
  nlink : d.nlink = d'.nlink
  whole : whole → d = d'

-- One entry of the inode table.
structure Entry (M : Mode) (c : Ctx) (s : Sys) (i : Slot) : Prop where
  ref : (s.inode i).ref = c.refs i
  dev : 0 < c.refs i → (s.inode i).dev = ROOTDEV
  lock : (s.inode i).lock = if i ∈ c.locked then some M.p else none
  locked : i ∈ c.locked → (s.inode i).valid = true ∧ 0 < c.refs i
  isdir : i ∈ c.isdir → i ∈ c.locked ∧ (s.inode i).type = .dir
  agree : 0 < c.refs i → (s.inode i).valid = true → (s.inode i).type ≠ .free ∧
    Agree M.holeFree (s.inode i).toDinode (s.dinode (s.inode i).inum)

structure Table (M : Mode) (c : Ctx) (s : Sys) : Prop where
  entry : ∀ i, Entry M c s i
  unique : ∀ i j, 0 < c.refs i → 0 < c.refs j → (s.inode i).inum = (s.inode j).inum → i = j
  nodup : c.locked.Nodup

-- An inode that is allocated and has no link.
def Orphan (s : Sys) (n : Nat) : Prop := (s.dinode n).type ≠ .free ∧ (s.dinode n).nlink = 0

-- A slot that has inode n, and one that only the call refers to.
structure InUse (c : Ctx) (s : Sys) (i : Slot) (n : Nat) : Prop where
  refs : 0 < c.refs i
  valid : (s.inode i).valid = true
  inum : (s.inode i).inum = n

structure Dying (c : Ctx) (i : Slot) : Prop where
  dying : i ∈ c.dying
  held : i ∈ c.held ∨ i ∈ c.pins
  closed : c.opens i = 0

-- The link counts are of type short.
structure Links (M : Mode) (c : Ctx) (s : Sys) : Prop where
  ranged : ∀ n, short (s.dinode n).nlink = (s.dinode n).nlink
  free : ∀ n, (s.dinode n).type = .free → (s.dinode n).nlink = 0
  orphan : ∀ n, Orphan s n → n ∈ c.fresh ∨ ∃ i, InUse c s i n ∧ (M.durable → Dying c i)
  opened : ∀ i, 0 < c.opens i → (s.dinode (s.inode i).inum).type ≠ .free

-- Inode n has the blocks and the bytes that it had.
structure Kept (s₀ s : Sys) (n : Nat) : Prop where
  alloc : (s.dinode n).type ≠ .free
  type : (s.dinode n).type = (s₀.dinode n).type
  size : (s.dinode n).size = (s₀.dinode n).size
  addrs : (s.dinode n).addrs = (s₀.dinode n).addrs
  bytes : content s.data (s.dinode n) = content s₀.data (s₀.dinode n)

structure Disk (M : Mode) (s : Sys) : Prop where
  blocks : Blocks M.sb M.exact s.dinode [] s
  kept : ∀ n, M.keep n → Kept M.snap s n

-- A file holds the slot that inode n had.
def HasFile (M : Mode) (c : Ctx) (n : Nat) : Prop :=
  ∃ i, 0 < c.opens i ∧ (M.snap.inode i).inum = n

-- But for the link counts the inodes that the call watches are as they were, and
-- none of them can be freed.
structure Watched (M : Mode) (c : Ctx) (s : Sys) : Prop where
  linked : M.linked
  nlink : ∀ n, (s.dinode n).nlink = c.nlinks n
  same : ∀ n, M.watch n → (s.dinode n).type ≠ .free ∧ node s.data (s.dinode n) =
    { node M.snap.data (M.snap.dinode n) with nlink := c.nlinks n }
  live : ∀ n, M.watch n → c.nlinks n = 0 → HasFile M c n ∨ ∃ i, (i, n) ∈ c.pinned
  pinned : ∀ x ∈ c.pinned, (s.inode x.1).inum = x.2
  made : ∀ x ∈ c.made, x.1 ∈ c.locked ∧ (s.inode x.1).inum = x.2 ∧ ¬ M.watch x.2
  opened : ∀ i, 0 < c.opens i → (s.inode i).inum = (M.snap.inode i).inum

structure Inv (M : Mode) (c : Ctx) (s : Sys) : Prop where
  proc : s.proc = c.proc
  file : s.file = c.file
  pipe : s.pipe = c.pipe
  sparse : Sparse c.dirs
  table : Table M c s
  links : M.linked → Links M c s
  disk : M.holeFree → Disk M s
  watched : M.holeFree → c.watching → Watched M c s

variable {M : Mode} {c c' : Ctx} {s t : Sys} {i : Slot} {n : Nat}

theorem Table.step (h : Table M c s) (i : Slot) (hother : ∀ j, j ≠ i → t.inode j = s.inode j)
    (hdisk : ∀ j, j ≠ i → 0 < c.refs j →
      t.dinode (s.inode j).inum = s.dinode (s.inode j).inum)
    (hctx : ∀ j, j ≠ i → c'.refs j = c.refs j ∧ (j ∈ c'.locked ↔ j ∈ c.locked) ∧
      (j ∈ c'.isdir → j ∈ c.isdir)) (hnodup : c'.locked.Nodup) (hi : Entry M c' t i)
    (hnew : 0 < c'.refs i → ∀ j, j ≠ i → 0 < c.refs j → (s.inode j).inum ≠ (t.inode i).inum) :
    Table M c' t := by
  refine ⟨fun j => ?_, fun j k hj hk heq => ?_, hnodup⟩
  · by_cases hji : j = i
    · rw [hji]
      exact hi
    · obtain ⟨hrefs, hlocked, hisdir⟩ := hctx j hji
      have he := h.entry j
      have hsame := hother j hji
      refine ⟨?_, ?_, ?_, ?_, ?_, ?_⟩ <;> rw [hsame]
      · rw [hrefs]
        exact he.ref
      · rw [hrefs]
        exact he.dev
      · simp only [hlocked]
        exact he.lock
      · rw [hrefs, hlocked]
        exact he.locked
      · intro hj
        rw [hlocked]
        exact he.isdir (hisdir hj)
      · rw [hrefs]
        intro hpos hvalid
        rw [hdisk j hji hpos]
        exact he.agree hpos hvalid
  grind [unique]

theorem Table.ctx (h : Table M c s) (hrefs : ∀ j, c'.refs j = c.refs j)
    (hlocked : c'.locked = c.locked) (hisdir : c'.isdir = c.isdir) : Table M c' s := by
  refine ⟨fun j => ?_, fun j k hj hk => ?_, by rw [hlocked]; exact h.nodup⟩
  · have he := h.entry j
    refine ⟨?_, ?_, ?_, ?_, ?_, ?_⟩
    · rw [hrefs]
      exact he.ref
    · rw [hrefs]
      exact he.dev
    · rw [hlocked]
      exact he.lock
    · rw [hlocked, hrefs]
      exact he.locked
    · rw [hlocked, hisdir]
      exact he.isdir
    · rw [hrefs]
      exact he.agree
  · rw [hrefs] at hj hk
    exact h.unique j k hj hk

theorem Table.congr (h : Table M c s) (hinode : t.inode = s.inode)
    (hdisk : ∀ j, 0 < c.refs j → (s.inode j).valid = true →
      t.dinode (s.inode j).inum = s.dinode (s.inode j).inum) : Table M c t := by
  refine ⟨fun j => ?_, fun j k hj hk => ?_, h.nodup⟩
  · have he := h.entry j
    refine ⟨?_, ?_, ?_, ?_, ?_, fun hj hv => ?_⟩ <;> rw [hinode]
    · exact he.ref
    · exact he.dev
    · exact he.lock
    · exact he.locked
    · exact he.isdir
    · rw [hinode] at hv
      rw [hdisk j hj hv]
      exact he.agree hj hv
  · rw [hinode]
    exact h.unique j k hj hk

theorem Table.inum_ne (h : Table M c s) (hi : 0 < c.refs i) {j : Slot} (hji : j ≠ i)
    (hj : 0 < c.refs j) : (s.inode j).inum ≠ (s.inode i).inum :=
  fun heq => hji (h.unique j i hj hi heq)

theorem Links.step (h : Links M c s) (P : Nat → Prop)
    (hsame : ∀ n, P n →
      (t.dinode n).type = (s.dinode n).type ∧ (t.dinode n).nlink = (s.dinode n).nlink)
    (hranged : ∀ n, ¬ P n → short (t.dinode n).nlink = (t.dinode n).nlink)
    (hfree : ∀ n, ¬ P n → (t.dinode n).type = .free → (t.dinode n).nlink = 0)
    (horphan : ∀ n, ¬ P n → Orphan t n →
      n ∈ c'.fresh ∨ ∃ i, InUse c' t i n ∧ (M.durable → Dying c' i))
    (hfresh : ∀ n, P n → n ∈ c.fresh → n ∈ c'.fresh)
    (hslot : ∀ n i, P n → Orphan s n → InUse c s i n →
      InUse c' t i n ∧ (M.durable → Dying c i → Dying c' i))
    (hopen : ∀ i, 0 < c'.opens i → (t.dinode (t.inode i).inum).type ≠ .free) : Links M c' t := by
  refine ⟨fun n => ?_, fun n hn => ?_, fun n hn => ?_, hopen⟩
  · by_cases hP : P n
    · rw [(hsame n hP).2]
      exact h.ranged n
    · exact hranged n hP
  · by_cases hP : P n
    · obtain ⟨htype, hnlink⟩ := hsame n hP
      rw [hnlink]
      exact h.free n (htype.symm.trans hn)
    · exact hfree n hP hn
  · by_cases hP : P n
    · obtain ⟨htype, hnlink⟩ := hsame n hP
      have hs : Orphan s n := ⟨htype ▸ hn.1, hnlink.symm.trans hn.2⟩
      grind [orphan]
    · exact horphan n hP hn

theorem Links.same (h : Links M c s) (hdinode : t.dinode = s.dinode)
    (hfresh : ∀ n, n ∈ c.fresh → n ∈ c'.fresh)
    (hslot : ∀ n i, Orphan s n → InUse c s i n →
      InUse c' t i n ∧ (M.durable → Dying c i → Dying c' i))
    (hopen : ∀ i, 0 < c'.opens i → (s.dinode (t.inode i).inum).type ≠ .free) : Links M c' t := by
  refine h.step (fun _ => True) (fun n _ => ?_) (fun n hn => absurd trivial hn)
    (fun n hn => absurd trivial hn) (fun n hn => absurd trivial hn) (fun n _ => hfresh n)
    (fun n i _ => hslot n i) fun i hi => ?_
  · rw [hdinode]
    exact ⟨rfl, rfl⟩
  · rw [hdinode]
    exact hopen i hi

theorem Kept.congr {s₀ : Sys} (h : Kept s₀ s n) (hdinode : t.dinode n = s.dinode n)
    (hcontent : content t.data (s.dinode n) = content s.data (s.dinode n)) : Kept s₀ t n := by
  refine ⟨?_, ?_, ?_, ?_, ?_⟩ <;> rw [hdinode]
  · exact h.alloc
  · exact h.type
  · exact h.size
  · exact h.addrs
  · exact hcontent.trans h.bytes

theorem Disk.congr (h : Disk M s) (hdinode : t.dinode = s.dinode) (hbitmap : t.bitmap = s.bitmap)
    (hdata : t.data = s.data) (hhome : t.home = s.home) : Disk M t := by
  refine ⟨?_, fun n hn => ?_⟩
  · rw [hdinode]
    exact h.blocks.congr hbitmap hdata hhome
  · exact (h.kept n hn).congr (by rw [hdinode]) (by rw [hdata])

theorem Watched.congr (h : Watched M c s) (ht : Table M c s) (hdinode : t.dinode = s.dinode)
    (hdata : t.data = s.data) (hnlinks : c'.nlinks = c.nlinks)
    (hpinned : c'.pinned = c.pinned) (hopens : c'.opens = c.opens)
    (hmade : ∀ x ∈ c'.made, x ∈ c.made ∧ (x.1 ∈ c.locked → x.1 ∈ c'.locked))
    (hinum : ∀ i, 0 < c.refs i → (t.inode i).inum = (s.inode i).inum) : Watched M c' t := by
  refine ⟨h.linked, fun n => ?_, fun n hn => ?_, fun n hn hz => ?_, fun x hx => ?_,
    fun x hx => ?_, fun i hi => ?_⟩
  · rw [hdinode, hnlinks]
    exact h.nlink n
  · rw [hdinode, hdata, hnlinks]
    exact h.same n hn
  · rw [hnlinks] at hz
    rw [HasFile, hopens, hpinned]
    exact h.live n hn hz
  · rw [hpinned] at hx
    rw [hinum x.1 (Ctx.refs_pos_of_pins (List.mem_map_of_mem hx))]
    exact h.pinned x hx
  · obtain ⟨hold, hlock⟩ := hmade x hx
    obtain ⟨hlocked, hne⟩ := h.made x hold
    rw [hinum x.1 ((ht.entry x.1).locked hlocked).2]
    exact ⟨hlock hlocked, hne⟩
  · rw [hopens] at hi
    exact (hinum i (Ctx.refs_pos_of_open hi)).trans (h.opened i hi)

theorem Watched.renode (h : Watched M c s)
    (hnlink : ∀ n, (t.dinode n).nlink = (s.dinode n).nlink)
    (hnode : ∀ n, M.watch n → (s.dinode n).type ≠ .free →
      (t.dinode n).type ≠ .free ∧ node t.data (t.dinode n) = node s.data (s.dinode n))
    (hinum : ∀ i, (t.inode i).inum = (s.inode i).inum) : Watched M c t := by
  refine ⟨h.linked, fun n => (hnlink n).trans (h.nlink n), fun n hn => ?_, h.live,
    fun x hx => ?_, fun x hx => ?_, fun i hi => ?_⟩
  · obtain ⟨halloc, hold⟩ := h.same n hn
    obtain ⟨halloc', hnew⟩ := hnode n hn halloc
    exact ⟨halloc', hnew.trans hold⟩
  · exact (hinum x.1).trans (h.pinned x hx)
  · rw [hinum]
    exact h.made x hx
  · exact (hinum i).trans (h.opened i hi)

namespace Inv

-- A step on one slot that leaves the disk and the other tables alone.
theorem slot (h : Inv M c s) (i : Slot)
    (hc : c' = { c with
      held := c'.held, locked := c'.locked, isdir := c'.isdir, made := c'.made })
    (hsys : t = { s with inode := t.inode, refs := t.refs })
    (hother : ∀ j, j ≠ i → t.inode j = s.inode j)
    (hctx : ∀ j, j ≠ i → c'.held.count j = c.held.count j ∧ (j ∈ c'.locked ↔ j ∈ c.locked) ∧
      (j ∈ c'.isdir → j ∈ c.isdir))
    (hmade : ∀ x ∈ c'.made, x ∈ c.made ∧ (x.1 ∈ c.locked → x.1 ∈ c'.locked))
    (hnodup : c'.locked.Nodup) (hi : Entry M c' t i)
    (hnew : 0 < c'.refs i → ∀ j, j ≠ i → 0 < c.refs j → (s.inode j).inum ≠ (t.inode i).inum)
    (hinum : 0 < c.refs i → (t.inode i).inum = (s.inode i).inum)
    (huse : ∀ n, Orphan s n → InUse c s i n →
      InUse c' t i n ∧ (M.durable → Dying c i → Dying c' i)) : Inv M c' t := by
  have hopens : c'.opens = c.opens := by rw [hc]; rfl
  have hpinned : c'.pinned = c.pinned := by rw [hc]
  have hdying : c'.dying = c.dying := by rw [hc]
  have hpins : c'.pins = c.pins := by rw [hc]; rfl
  have hrefs : ∀ j, j ≠ i → c'.refs j = c.refs j := fun j hj => by
    rw [Ctx.refs, Ctx.refs, hopens, hpins, (hctx j hj).1]
  have hdinode : t.dinode = s.dinode := by rw [hsys]
  refine ⟨?_, ?_, ?_, ?_, ?_, fun hl => ?_, fun hw => ?_, fun hw hwatch => ?_⟩
  · rw [hsys, hc]
    exact h.proc
  · rw [hsys, hc]
    exact h.file
  · rw [hsys, hc]
    exact h.pipe
  · rw [hc]
    exact h.sparse
  · exact h.table.step i hother (fun j _ _ => by rw [hdinode])
      (fun j hj => ⟨hrefs j hj, (hctx j hj).2⟩) hnodup hi hnew
  · refine (h.links hl).same hdinode (fun n hn => ?_) (fun n j hn hj => ?_) fun j hj => ?_
    · rw [hc]
      exact hn
    · by_cases hji : j = i
      · subst hji
        exact huse n hn hj
      · refine ⟨⟨?_, ?_, ?_⟩, fun _ hd => ⟨?_, ?_, ?_⟩⟩
        · rw [hrefs j hji]
          exact hj.refs
        · rw [hother j hji]
          exact hj.valid
        · rw [hother j hji]
          exact hj.inum
        · rw [hdying]
          exact hd.dying
        · rw [hpins]
          refine hd.held.imp_left fun hheld => ?_
          have hcount := List.count_pos_iff.mpr hheld
          rw [← (hctx j hji).1] at hcount
          exact List.count_pos_iff.mp hcount
        · rw [hopens]
          exact hd.closed
    · rw [hopens] at hj
      have hopen := (h.links hl).opened j hj
      by_cases hji : j = i
      · subst hji
        rw [hinum (Ctx.refs_pos_of_open hj)]
        exact hopen
      · rw [hother j hji]
        exact hopen
  · exact (h.disk hw).congr hdinode (by rw [hsys]) (by rw [hsys]) (by rw [hsys])
  · rw [hc] at hwatch
    refine (h.watched hw hwatch).congr h.table hdinode (by rw [hsys]) (by rw [hc])
      hpinned hopens hmade fun j hj => ?_
    by_cases hji : j = i
    · rw [hji] at hj ⊢
      exact hinum hj
    · rw [hother j hji]

theorem ref (h : Inv M c s) (i : Slot) : (s.inode i).ref = c.refs i := (h.table.entry i).ref

theorem hold (h : Inv M c s) (q : Nat) (hi : 0 < c.refs i) : Inv M (c.hold i) (s.hold q i) := by
  have he := h.table.entry i
  have hrefs := c.refs_hold i i
  rw [if_pos rfl] at hrefs
  have hinode : (s.hold q i).inode i = { s.inode i with ref := (s.inode i).ref + 1 } :=
    Sys.setInode_self s i fun ip => { ip with ref := ip.ref + 1 }
  refine h.slot i rfl rfl (fun j hj => Function.update_of_ne hj _ _) (fun j hj => ⟨?_, .rfl, id⟩)
    (fun j hj => ⟨hj, id⟩) h.table.nodup ?_ (fun _ j hji hj => ?_) (fun _ => ?_)
    fun n hn huse => ⟨?_, fun _ hd => ?_⟩
  · exact List.count_cons_of_ne hj.symm
  · refine ⟨?_, fun _ => ?_, ?_, fun hl => ?_, fun hd => ?_, fun _ => ?_⟩ <;> rw [hinode]
    · dsimp only
      rw [he.ref, hrefs]
      rfl
    · exact he.dev hi
    · exact he.lock
    · exact ⟨(he.locked hl).1, by omega⟩
    · exact he.isdir hd
    · exact he.agree hi
  · rw [hinode]
    exact h.table.inum_ne hi hji hj
  · rw [hinode]
  · refine ⟨by omega, ?_, ?_⟩ <;> rw [hinode]
    · exact huse.valid
    · exact huse.inum
  · exact ⟨hd.dying, hd.held.imp_left (List.mem_cons_of_mem _), hd.closed⟩

theorem recycle (h : Inv M c s) (q : Nat) (hi : c.refs i = 0)
    (hnone : ∀ j, 0 < c.refs j → (s.inode j).inum ≠ n) :
    Inv M (c.hold i) (s.recycle q ROOTDEV n i) := by
  have he := h.table.entry i
  have hlocked : i ∉ c.locked := fun hl => by
    have := (he.locked hl).2
    omega
  have hrefs := c.refs_hold i i
  rw [if_pos rfl] at hrefs
  have hinode : (s.recycle q ROOTDEV n i).inode i =
      { s.inode i with dev := ROOTDEV, inum := n, ref := 1, valid := false } :=
    Sys.setInode_self s i fun ip => { ip with dev := ROOTDEV, inum := n, ref := 1, valid := false }
  refine h.slot i rfl rfl (fun j hj => Function.update_of_ne hj _ _) (fun j hj => ⟨?_, .rfl, id⟩)
    (fun j hj => ⟨hj, id⟩) h.table.nodup ?_ (fun _ j hji hj => ?_) (fun hpos => by omega) fun m _ huse => ?_
  · exact List.count_cons_of_ne hj.symm
  · refine ⟨?_, fun _ => ?_, ?_, fun hl => absurd hl hlocked, fun hd => ?_, fun _ hv => ?_⟩
    · rw [hinode, hrefs, hi]
      rfl
    · rw [hinode]
    · rw [hinode]
      exact he.lock
    · exact absurd (he.isdir hd).1 hlocked
    · rw [hinode] at hv
      cases hv
  · rw [hinode]
    exact hnone j hj
  · have := huse.refs
    omega

-- The lock is taken, and the inode is read if it is not valid.
theorem lock (h : Inv M c s) (hfree : i ∉ c.locked) (hi : 0 < c.refs i)
    (hsys : t = { s with inode := t.inode, refs := t.refs })
    (hother : ∀ j, j ≠ i → t.inode j = s.inode j)
    (hself : t.inode i =
      { s.inode i with toDinode := (t.inode i).toDinode, lock := some M.p, valid := true })
    (hagree : (t.inode i).type ≠ .free ∧
      Agree M.holeFree (t.inode i).toDinode (s.dinode (s.inode i).inum)) :
    Inv M (c.lock i) t := by
  have he := h.table.entry i
  have href : (t.inode i).ref = (s.inode i).ref := by rw [hself]
  have hdev : (t.inode i).dev = (s.inode i).dev := by rw [hself]
  have hinum : (t.inode i).inum = (s.inode i).inum := by rw [hself]
  have hlock : (t.inode i).lock = some M.p := by rw [hself]
  have hvalid : (t.inode i).valid = true := by rw [hself]
  have hdinode : t.dinode = s.dinode := by rw [hsys]
  refine h.slot i rfl hsys hother (fun j hj => ⟨rfl, ?_, id⟩)
    (fun j hj => ⟨hj, List.mem_cons_of_mem _⟩) (List.nodup_cons.mpr ⟨hfree, h.table.nodup⟩) ?_
    (fun _ j hji hj => ?_) (fun _ => hinum) fun n hn huse => ⟨?_, fun _ hd => ?_⟩
  · simp [Ctx.lock, hj]
  · refine ⟨href.trans he.ref, fun _ => hdev.trans (he.dev hi), ?_, fun _ => ⟨hvalid, hi⟩,
      fun hd => absurd (he.isdir hd).1 hfree, fun _ _ => ?_⟩
    · rw [hlock]
      simp [Ctx.lock]
    · rw [hdinode, hinum]
      exact hagree
  · rw [hinum]
    exact h.table.inum_ne hi hji hj
  · exact ⟨huse.refs, hvalid, hinum.trans huse.inum⟩
  · exact ⟨hd.dying, hd.held, hd.closed⟩

theorem unlock (h : Inv M c s) (i : Slot) : Inv M (c.unlock i) (s.release i) := by
  have he := h.table.entry i
  have hinode : (s.release i).inode i = { s.inode i with lock := none } := Sys.setInode_self ..
  have hnot : i ∉ (c.unlock i).locked := h.table.nodup.not_mem_erase
  refine h.slot i rfl rfl (fun j hj => Function.update_of_ne hj _ _)
    (fun j hj => ⟨rfl, List.mem_erase_of_ne hj, (fun hd => by cases hd)⟩)
    (fun j hj => by cases hj) (h.table.nodup.erase i) ?_ (fun hpos j hji hj => ?_)
    (fun _ => ?_) fun n hn huse => ⟨?_, fun _ hd => ?_⟩
  · refine ⟨?_, ?_, ?_, fun hl => absurd hl hnot, (fun hd => by cases hd), ?_⟩ <;> rw [hinode]
    · exact he.ref
    · exact he.dev
    · rw [if_neg hnot]
    · exact he.agree
  · rw [hinode]
    exact h.table.inum_ne hpos hji hj
  · rw [hinode]
  · refine ⟨huse.refs, ?_, ?_⟩ <;> rw [hinode]
    · exact huse.valid
    · exact huse.inum
  · exact ⟨hd.dying, hd.held, hd.closed⟩

-- ip->ref-- where the inode is not freed.
theorem drop (h : Inv M c s) (q : Nat) (hi : i ∈ c.held) (hl : i ∈ c.locked → 1 < c.refs i)
    (hunused : s.unused i = false) : Inv M (c.drop i) (s.drop q i) := by
  have he := h.table.entry i
  have hrefs := c.refs_drop i i hi
  rw [if_pos rfl] at hrefs
  have hinode : (s.drop q i).inode i = { s.inode i with ref := (s.inode i).ref - 1 } :=
    Sys.setInode_self s i fun ip => { ip with ref := ip.ref - 1 }
  have hpos := Ctx.refs_pos_of_held hi
  refine h.slot i rfl rfl (fun j hj => Function.update_of_ne hj _ _)
    (fun j hj => ⟨List.count_erase_of_ne hj, .rfl, id⟩) (fun j hj => ⟨hj, id⟩) h.table.nodup ?_
    (fun _ j hji hj => ?_) (fun _ => ?_) fun n hn huse => ?_
  · refine ⟨?_, fun _ => ?_, ?_, fun hlk => ?_, fun hd => ?_, fun _ => ?_⟩ <;> rw [hinode]
    · dsimp only
      rw [he.ref]
      omega
    · exact he.dev hpos
    · exact he.lock
    · exact ⟨(he.locked hlk).1, by have := hl hlk; omega⟩
    · exact he.isdir hd
    · exact he.agree hpos
  · rw [hinode]
    exact h.table.inum_ne hpos hji hj
  · rw [hinode]
  · -- An orphan in slot i would be freed with its last reference.
    have hagree := (he.agree hpos huse.valid).2.nlink
    rw [huse.inum, hn.2] at hagree
    have hmore : c.refs i ≠ 1 := by
      grind [Entry.ref, InUse.valid, Sys.unused]
    refine ⟨⟨by omega, ?_, ?_⟩, fun _ hd => ⟨hd.dying, ?_, hd.closed⟩⟩
    · rw [hinode]
      exact huse.valid
    · rw [hinode]
      exact huse.inum
    · have hopen : (c.drop i).opens i = 0 := hd.closed
      have hcount : (c.drop i).refs i =
        (c.drop i).opens i + (c.drop i).pins.count i + (c.drop i).held.count i := rfl
      grind

-- The size and blocks of a locked inode change, in memory and on the disk.
theorem sameBut (h : Inv M c s) (hi : i ∈ c.locked) (hsame : SameBut i s t)
    (hagree : Agree M.holeFree (t.inode i).toDinode (t.dinode (s.inode i).inum))
    (hdisk : M.holeFree → Disk M t)
    (hnode : M.holeFree → c.watching → ∀ n, M.watch n → (s.dinode n).type ≠ .free →
      node t.data (t.dinode n) = node s.data (s.dinode n)) : Inv M c t := by
  have he := h.table.entry i
  obtain ⟨hvalid, hpos⟩ := he.locked hi
  have hold := (he.agree hpos hvalid).2
  have htype : (t.inode i).type = (s.inode i).type := by rw [hsame.self]
  have hnlink : (t.inode i).nlink = (s.inode i).nlink := by rw [hsame.self]
  have hkeep : ∀ n, (t.dinode n).type = (s.dinode n).type ∧
      (t.dinode n).nlink = (s.dinode n).nlink := by
    grind [Agree.type, Agree.nlink, SameBut.dinode]
  have hinum : ∀ j, (t.inode j).inum = (s.inode j).inum := by
    intro j
    by_cases hji : j = i
    · rw [hji]
      exact hsame.inum
    · rw [hsame.other j hji]
  refine ⟨hsame.proc.trans h.proc, hsame.file.trans h.file, hsame.pipe.trans h.pipe, h.sparse, ?_,
    fun hl => ?_, hdisk, fun hw hwatch => ?_⟩
  · refine h.table.step i hsame.other (fun j hji hj => ?_) (fun j _ => ⟨rfl, .rfl, id⟩)
      h.table.nodup ?_ fun _ j hji hj => ?_
    · exact hsame.dinode _ (h.table.inum_ne hpos hji hj)
    · refine ⟨?_, ?_, ?_, ?_, ?_, fun _ _ => ⟨?_, ?_⟩⟩
      · rw [hsame.self]
        exact he.ref
      · rw [hsame.self]
        exact he.dev
      · rw [hsame.self]
        exact he.lock
      · rw [hsame.self]
        exact he.locked
      · rw [htype]
        exact he.isdir
      · rw [htype]
        exact (he.agree hpos hvalid).1
      · rw [hsame.inum]
        exact hagree
    · rw [hsame.inum]
      exact h.table.inum_ne hpos hji hj
  · have hval : ∀ j, (t.inode j).valid = (s.inode j).valid := by
      intro j
      by_cases hji : j = i
      · rw [hji, hsame.self]
      · rw [hsame.other j hji]
    refine (h.links hl).step (fun _ => True) (fun n _ => hkeep n) (fun n hn => absurd trivial hn)
      (fun n hn => absurd trivial hn) (fun n hn => absurd trivial hn) (fun _ _ => id)
      (fun n j _ hn huse => ⟨?_, fun _ => id⟩) fun j hj => ?_
    · exact ⟨huse.refs, (hval j).trans huse.valid, (hinum j).trans huse.inum⟩
    · rw [hinum, (hkeep _).1]
      exact (h.links hl).opened j hj
  · refine (h.watched hw hwatch).renode (fun n => (hkeep n).2) (fun n hn halloc => ⟨?_, ?_⟩) hinum
    · rw [(hkeep n).1]
      exact halloc
    · exact hnode hw hwatch n hn halloc

theorem edits {lbl : Label} {sized : Prop} (h : Inv M c s) (hw : ¬ M.holeFree)
    (hi : i ∈ c.locked) (he : Edits sized i lbl s t) : Inv M c t := by
  have hentry := h.table.entry i
  obtain ⟨hvalid, hpos⟩ := hentry.locked hi
  have hold := (hentry.agree hpos hvalid).2
  refine h.sameBut hi he.same ⟨?_, ?_, fun hwhole => absurd hwhole hw⟩
    (fun hwhole => absurd hwhole hw) fun hwhole => absurd hwhole hw
  · rcases he.disk with hd | hd
    · rw [hd, he.same.self]
      exact hold.type
    · rw [hd, Function.update_self, he.same.self]
  · rcases he.disk with hd | hd
    · rw [hd, he.same.self]
      exact hold.nlink
    · rw [hd, Function.update_self, he.same.self]

theorem rewritten (h : Inv M c s) (hw : M.holeFree) (hi : i ∈ c.locked) (hsame : SameBut i s t)
    (hdinode : t.dinode = Function.update s.dinode (s.inode i).inum (t.inode i).toDinode)
    (hblocks : Blocks M.sb M.exact t.dinode [] t)
    (hother : ∀ m, m ≠ (s.inode i).inum → (s.dinode m).type ≠ .free →
      content t.data (s.dinode m) = content s.data (s.dinode m))
    (hkeep : ¬ M.keep (s.inode i).inum)
    (hnode : c.watching → M.watch (s.inode i).inum →
      node t.data (t.inode i).toDinode = node s.data (s.inode i).toDinode) : Inv M c t := by
  have hn : t.dinode (s.inode i).inum = (t.inode i).toDinode := by
    rw [hdinode, Function.update_self]
  have he := h.table.entry i
  obtain ⟨hvalid, hpos⟩ := he.locked hi
  have hwhole := (he.agree hpos hvalid).2.whole hw
  refine h.sameBut hi hsame (by rw [hn]; exact ⟨rfl, rfl, fun _ => rfl⟩) (fun _ =>
    ⟨hblocks, fun m hm => ?_⟩) fun _ hwatch m hm halloc => ?_
  · have hne : m ≠ (s.inode i).inum := by
      rintro rfl
      exact hkeep hm
    have hkept := (h.disk hw).kept m hm
    exact hkept.congr (hsame.dinode m hne) (hother m hne hkept.alloc)
  grind [SameBut.dinode, node_of_alloc]

end Inv

theorem Disk.set {d : Dinode} (h : Disk M s) (halloc : (s.dinode n).type ≠ .free)
    (htype : d.type = (s.dinode n).type) (hsize : d.size = (s.dinode n).size)
    (haddrs : d.addrs = (s.dinode n).addrs) (hdinode : t.dinode = Function.update s.dinode n d)
    (hbitmap : t.bitmap = s.bitmap) (hdata : t.data = s.data) (hhome : t.home = s.home) :
    Disk M t := by
  have hblocks : Blocks M.sb M.exact (Function.update s.dinode n d) [] s := by
    refine h.blocks.set haddrs (by rw [htype]) (fun _ bn hbn => ?_) fun _ => ?_
    · rw [hsize] at hbn
      rw [blockAt_congr haddrs]
      exact h.blocks.mapped n halloc bn hbn
    · rw [hsize]
      exact h.blocks.small n halloc
  refine ⟨?_, fun m hk => ?_⟩
  · rw [hdinode]
    exact hblocks.congr hbitmap hdata hhome
  · by_cases hmn : m = n
    · subst hmn
      obtain ⟨hk1, hk2, hk3, hk4, hk5⟩ := h.kept m hk
      have hself : t.dinode m = d := by rw [hdinode, Function.update_self]
      refine ⟨?_, ?_, ?_, ?_, ?_⟩ <;> rw [hself]
      · rw [htype]
        exact hk1
      · exact htype.trans hk2
      · exact hsize.trans hk3
      · exact haddrs.trans hk4
      · rw [hdata, content_addrs haddrs]
        exact hk5
    · exact (h.kept m hk).congr (by simp_all) (by rw [hdata])

-- The link count and the device numbers of the inode in slot i change, in memory
-- and on the disk.
structure Relinked (i : Slot) (s t : Sys) : Prop where
  sys : t = { s with inode := t.inode, dinode := t.dinode }
  other : ∀ j, j ≠ i → t.inode j = s.inode j
  self : t.inode i = { s.inode i with
    major := (t.inode i).major, minor := (t.inode i).minor, nlink := (t.inode i).nlink }
  dinode : t.dinode = Function.update s.dinode (s.inode i).inum (t.inode i).toDinode

namespace Relinked

theorem inum (h : Relinked i s t) (j : Slot) : (t.inode j).inum = (s.inode j).inum := by
  by_cases hji : j = i
  · rw [hji, h.self]
  · rw [h.other j hji]

theorem valid (h : Relinked i s t) (j : Slot) : (t.inode j).valid = (s.inode j).valid := by
  by_cases hji : j = i
  · rw [hji, h.self]
  · rw [h.other j hji]

theorem dinode_self (h : Relinked i s t) :
    t.dinode (s.inode i).inum = (t.inode i).toDinode := by
  rw [h.dinode, Function.update_self]

theorem dinode_other (h : Relinked i s t) (hn : n ≠ (s.inode i).inum) :
    t.dinode n = s.dinode n := by
  rw [h.dinode, Function.update_of_ne hn]

theorem type (h : Relinked i s t) : (t.inode i).type = (s.inode i).type := by
  rw [h.self]

theorem table (h : Relinked i s t) (ht : Table M c s) (hi : i ∈ c.locked) : Table M c t := by
  have he := ht.entry i
  obtain ⟨hvalid, hpos⟩ := he.locked hi
  refine ht.step i h.other (fun j hji hj => h.dinode_other (ht.inum_ne hpos hji hj))
    (fun j _ => ⟨rfl, .rfl, id⟩) ht.nodup ⟨?_, ?_, ?_, ?_, ?_, fun _ _ => ⟨?_, ?_⟩⟩
    fun _ j hji hj => ?_
  · rw [h.self]
    exact he.ref
  · rw [h.self]
    exact he.dev
  · rw [h.self]
    exact he.lock
  · rw [h.self]
    exact he.locked
  · rw [h.self]
    exact he.isdir
  · rw [h.type]
    exact (he.agree hpos hvalid).1
  · rw [h.inum, h.dinode_self]
    exact ⟨rfl, rfl, fun _ => rfl⟩
  · rw [h.inum]
    exact ht.inum_ne hpos hji hj

theorem disk (h : Relinked i s t) (hd : Disk M s) (halloc : (s.inode i).type ≠ .free)
    (hwhole : (s.inode i).toDinode = s.dinode (s.inode i).inum) : Disk M t := by
  have hself : (t.inode i).toDinode = { s.dinode (s.inode i).inum with
      major := (t.inode i).major, minor := (t.inode i).minor, nlink := (t.inode i).nlink } := by
    rw [← hwhole]
    exact congrArg Inode.toDinode h.self
  have htype : (s.dinode (s.inode i).inum).type ≠ .free := by
    rw [← hwhole]
    exact halloc
  refine hd.set htype ?_ ?_ ?_ h.dinode (by rw [h.sys]) (by rw [h.sys]) (by rw [h.sys])
  · rw [hself]
  · rw [hself]
  · rw [hself]

theorem watched (h : Relinked i s t) (hw : Watched M c s) (halloc : (s.inode i).type ≠ .free)
    (hwhole : (s.inode i).toDinode = s.dinode (s.inode i).inum)
    (hpinned : c'.pinned = c.pinned) (hopens : c'.opens = c.opens)
    (hmade : c'.made = c.made) (hlocked : c'.locked = c.locked)
    (hnlinks : c'.nlinks = Function.update c.nlinks (s.inode i).inum (t.inode i).nlink)
    (hself : M.watch (s.inode i).inum → (t.inode i).major = (s.inode i).major ∧
      (t.inode i).minor = (s.inode i).minor ∧
      ((t.inode i).nlink = 0 → (i, (s.inode i).inum) ∈ c.pinned)) : Watched M c' t := by
  have hdata : t.data = s.data := by rw [h.sys]
  refine ⟨hw.linked, fun n => ?_, fun n hn => ?_, fun n hn hz => ?_, fun x hx => ?_,
    fun x hx => ?_, fun j hj => ?_⟩
  · rw [hnlinks]
    by_cases hne : n = (s.inode i).inum
    · rw [hne, h.dinode_self, Function.update_self]
    · rw [h.dinode_other hne, Function.update_of_ne hne]
      exact hw.nlink n
  · rw [hnlinks]
    by_cases hne : n = (s.inode i).inum
    · rw [hne] at hn ⊢
      have hold := (hw.same _ hn).2
      have hnew : (t.inode i).toDinode =
          { (s.inode i).toDinode with nlink := (t.inode i).nlink } := by
        have heq := congrArg Inode.toDinode h.self
        grind
      rw [h.dinode_self, Function.update_self, hdata]
      refine ⟨by rw [h.type]; exact halloc, ?_⟩
      rw [← hwhole, node_of_alloc halloc] at hold
      rw [node_of_alloc (by rw [h.type]; exact halloc), hnew, content_addrs rfl]
      exact congrArg (fun x : Node => { x with nlink := (t.inode i).nlink }) hold
    · rw [h.dinode_other hne, Function.update_of_ne hne, hdata]
      exact hw.same n hn
  · rw [hnlinks] at hz
    rw [HasFile, hopens, hpinned]
    by_cases hne : n = (s.inode i).inum
    · grind
    · rw [Function.update_of_ne hne] at hz
      exact hw.live n hn hz
  · rw [hpinned] at hx
    exact (h.inum x.1).trans (hw.pinned x hx)
  · rw [hmade] at hx
    rw [hlocked, h.inum]
    exact hw.made x hx
  · rw [hopens] at hj
    exact (h.inum j).trans (hw.opened j hj)

end Relinked

namespace Inv

theorem relink (h : Inv M c s) (hi : i ∈ c.locked) (ht : Relinked i s t)
    (hc : c' = { c with
      fresh := c'.fresh, dying := c'.dying
      nlinks := Function.update c.nlinks (s.inode i).inum (t.inode i).nlink })
    (hranged : short (t.inode i).nlink = (t.inode i).nlink)
    (hfresh : ∀ m, m ≠ (s.inode i).inum → m ∈ c.fresh → m ∈ c'.fresh)
    (hdying : ∀ j, j ∈ c.dying → j ∈ c'.dying)
    (hzero : (t.inode i).nlink = 0 → M.durable → Dying c' i)
    (hself : M.holeFree → c.watching → M.watch (s.inode i).inum →
      (t.inode i).major = (s.inode i).major ∧ (t.inode i).minor = (s.inode i).minor ∧
      ((t.inode i).nlink = 0 → (i, (s.inode i).inum) ∈ c.pinned)) : Inv M c' t := by
  have he := h.table.entry i
  obtain ⟨hvalid, hpos⟩ := he.locked hi
  obtain ⟨htype, hagree⟩ := he.agree hpos hvalid
  have hrefs : ∀ j, c'.refs j = c.refs j := fun j => by rw [hc]; rfl
  have hopens : ∀ j, c'.opens j = c.opens j := fun j => by rw [hc]; rfl
  have hheld : c'.held = c.held := by rw [hc]
  have hpinned : c'.pinned = c.pinned := by rw [hc]
  have hpins : c'.pins = c.pins := by rw [hc]; rfl
  refine ⟨?_, ?_, ?_, ?_, ?_, fun hl => ?_, fun hw => ?_, fun hw hwatch => ?_⟩
  · rw [ht.sys, hc]
    exact h.proc
  · rw [ht.sys, hc]
    exact h.file
  · rw [ht.sys, hc]
    exact h.pipe
  · rw [hc]
    exact h.sparse
  · exact (ht.table h.table hi).ctx hrefs (by rw [hc]) (by rw [hc])
  · refine (h.links hl).step (· ≠ (s.inode i).inum) (fun m hne => ?_) (fun m hne => ?_)
      (fun m hne hfree => ?_) (fun m hne horphan => ?_) hfresh
      (fun m j hne horphan huse => ⟨?_, fun _ hd => ?_⟩) fun j hj => ?_
    · rw [ht.dinode_other hne]
      exact ⟨rfl, rfl⟩
    · rw [not_not.mp hne, ht.dinode_self]
      exact hranged
    · rw [not_not.mp hne, ht.dinode_self, ht.type] at hfree
      exact absurd hfree htype
    · rw [not_not.mp hne] at horphan ⊢
      have hnlink := horphan.2
      rw [ht.dinode_self] at hnlink
      exact .inr ⟨i, ⟨by rw [hrefs]; exact hpos, (ht.valid i).trans hvalid, ht.inum i⟩,
        hzero hnlink⟩
    · exact ⟨by rw [hrefs]; exact huse.refs, (ht.valid j).trans huse.valid,
        (ht.inum j).trans huse.inum⟩
    · exact ⟨hdying j hd.dying, by rw [hheld, hpins]; exact hd.held,
        by rw [hopens]; exact hd.closed⟩
    · rw [ht.inum]
      rw [hopens] at hj
      by_cases hne : (s.inode j).inum = (s.inode i).inum
      · rw [hne, ht.dinode_self, ht.type]
        exact htype
      · rw [ht.dinode_other hne]
        exact (h.links hl).opened j hj
  · exact ht.disk (h.disk hw) htype (hagree.whole hw)
  · rw [hc] at hwatch
    exact ht.watched (h.watched hw hwatch) htype (hagree.whole hw) hpinned (funext hopens)
      (by rw [hc]) (by rw [hc]) (by rw [hc]) (hself hw hwatch)

-- A free inode is allocated. No slot has it, unless it is not valid.
theorem allocated (h : Inv M c s) {type : InodeType} (htype : type ≠ .free)
    (hfree : (s.dinode n).type = .free) :
    Inv M { c with fresh := n :: c.fresh } (s.setDinode n { Dinode.zero with type := type }) := by
  have hn : (s.setDinode n { Dinode.zero with type := type }).dinode n =
      { Dinode.zero with type := type } := Function.update_self ..
  have hm : ∀ m, m ≠ n →
      (s.setDinode n { Dinode.zero with type := type }).dinode m = s.dinode m :=
    fun m hne => Function.update_of_ne hne _ _
  refine ⟨h.proc, h.file, h.pipe, h.sparse, ?_, fun hl => ?_, fun hw => ?_, fun hw hwatch => ?_⟩
  · have hne : ∀ j, 0 < c.refs j → (s.inode j).valid = true → (s.inode j).inum ≠ n := by
      intro j hj hv heq
      have hagree := (h.table.entry j).agree hj hv
      grind [Agree.type]
    have htable : Table M c (s.setDinode n { Dinode.zero with type := type }) :=
      h.table.congr rfl fun j hj hv => hm _ (hne j hj hv)
    exact htable.ctx (fun _ => rfl) rfl rfl
  · refine (h.links hl).step (· ≠ n) (fun m hne => by rw [hm m hne]; exact ⟨rfl, rfl⟩)
      (fun m hne => ?_) (fun m hne hf => ?_) (fun m hne _ => ?_)
      (fun m _ => List.mem_cons_of_mem _)
      (fun m j _ _ huse => ⟨⟨huse.refs, huse.valid, huse.inum⟩, fun _ hd => ?_⟩) fun j hj => ?_
    · rw [not_not.mp hne, hn]
      rfl
    · grind
    · grind
    · exact ⟨hd.dying, hd.held, hd.closed⟩
    · by_cases hne : (s.inode j).inum = n
      · show (Sys.dinode _ (s.inode j).inum).type ≠ .free
        rw [hne, hn]
        exact htype
      · show (Sys.dinode _ (s.inode j).inum).type ≠ .free
        rw [hm _ hne]
        exact (h.links hl).opened j hj
  · have hdisk := h.disk hw
    refine ⟨?_, fun m hk => ?_⟩
    · exact (hdisk.blocks.assign (d := { Dinode.zero with type := type }) (.inl hfree) rfl rfl).congr
        rfl rfl rfl
    · have hkept := hdisk.kept m hk
      have hne : m ≠ n := by
        rintro rfl
        exact hkept.alloc hfree
      exact hkept.congr (hm m hne) rfl
  · have hold := h.watched hw hwatch
    refine ⟨hold.linked, fun m => ?_, fun m hk => ?_, hold.live, hold.pinned,
      hold.made, hold.opened⟩
    · by_cases hne : m = n
      · rw [hne, hn]
        exact ((h.links hold.linked).free n hfree).symm.trans (hold.nlink n)
      · rw [hm m hne]
        exact hold.nlink m
    · have hne : m ≠ n := by
        rintro rfl
        exact (hold.same m hk).1 hfree
      rw [hm m hne]
      exact hold.same m hk

-- An inode that only the call refers to is free, in memory and on the disk.
theorem freed (h : Inv M c s) (hone : c.refs i = 1) (hi : i ∈ c.held) (hfree : i ∉ c.locked)
    (hproc : t.proc = s.proc) (hfile : t.file = s.file) (hpipe : t.pipe = s.pipe)
    (hother : ∀ j, j ≠ i → t.inode j = s.inode j)
    (hself : (t.inode i).inum = (s.inode i).inum ∧ (t.inode i).dev = (s.inode i).dev ∧
      (t.inode i).ref = (s.inode i).ref ∧ (t.inode i).lock = none ∧ (t.inode i).valid = false)
    (hm : ∀ m, m ≠ (s.inode i).inum → t.dinode m = s.dinode m)
    (hn : (t.dinode (s.inode i).inum).type = .free ∧ (t.dinode (s.inode i).inum).nlink = 0)
    (hdisk : M.holeFree → Disk M t) (hold : (s.dinode (s.inode i).inum).nlink = 0)
    (hdata : M.holeFree → t.data = s.data) : Inv M c t := by
  have he := h.table.entry i
  have hpos : 0 < c.refs i := by omega
  obtain ⟨hclosed, hunpinned⟩ := Ctx.sole_of_held hi hone
  obtain ⟨hinum, hdev, href, hlock, hvalid⟩ := hself
  refine ⟨hproc.trans h.proc, hfile.trans h.file, hpipe.trans h.pipe, h.sparse, ?_, fun hl => ?_,
    hdisk, fun hw hwatch => ?_⟩
  · refine h.table.step i hother (fun j hji hj => hm _ (h.table.inum_ne hpos hji hj))
      (fun j _ => ⟨rfl, .rfl, id⟩) h.table.nodup ⟨href.trans he.ref, fun hp => ?_, ?_,
      fun hl => absurd hl hfree, fun hd => absurd (he.isdir hd).1 hfree, fun _ hv => ?_⟩
      fun _ j hji hj => ?_
    · rw [hdev]
      exact he.dev hp
    · rw [hlock, if_neg hfree]
    · rw [hvalid] at hv
      cases hv
    · rw [hinum]
      exact h.table.inum_ne hpos hji hj
  · refine (h.links hl).step (· ≠ (s.inode i).inum)
      (fun m hne => by rw [hm m hne]; exact ⟨rfl, rfl⟩) (fun m hne => ?_) (fun m hne _ => ?_)
      (fun m hne ho => ?_) (fun m _ => id) (fun m j hne _ huse => ⟨⟨huse.refs, ?_, ?_⟩, fun _ => id⟩)
      fun j hj => ?_
    · rw [not_not.mp hne, hn.2]
      rfl
    · rw [not_not.mp hne]
      exact hn.2
    · rw [not_not.mp hne] at ho
      exact absurd hn.1 ho.1
    · grind [InUse.inum, InUse.valid]
    · grind [InUse.inum]
    · have hji : j ≠ i := by
        rintro rfl
        omega
      rw [hother j hji, hm _ (h.table.inum_ne hpos hji (Ctx.refs_pos_of_open hj))]
      exact (h.links hl).opened j hj
  · -- The call watches no inode without a link that it could free.
    have hwatched := h.watched hw hwatch
    have hne : ∀ m, M.watch m → m ≠ (s.inode i).inum := by
      rintro m hk rfl
      rcases hwatched.live _ hk ((hwatched.nlink _).symm.trans hold) with ⟨j, hj, hinum⟩ | ⟨j, hj⟩
      · have hji := h.table.unique j i (Ctx.refs_pos_of_open hj) hpos
          ((hwatched.opened j hj).trans hinum)
        grind
      · have hmem : j ∈ c.pins := List.mem_map_of_mem hj
        have hji := h.table.unique j i (Ctx.refs_pos_of_pins hmem) hpos (hwatched.pinned _ hj)
        exact hunpinned (hji ▸ hmem)
    refine hwatched.renode (fun m => ?_) (fun m hk halloc => ?_) fun j => ?_
    all_goals grind

theorem recount (h : Inv M c s)
    (hc : c' = { c with
      pinned := c'.pinned, held := c'.held, made := c'.made, dying := c'.dying
      watching := c'.watching, nlinks := c'.nlinks })
    (hrefs : ∀ j, c'.pins.count j + c'.held.count j = c.pins.count j + c.held.count j)
    (hdying : ∀ j, Dying c j → Dying c' j)
    (hwatched : M.holeFree → c'.watching → Watched M c' s) : Inv M c' s := by
  have hopens : c'.opens = c.opens := by rw [hc]; rfl
  have hrefs : ∀ j, c'.refs j = c.refs j := fun j => by
    rw [Ctx.refs, Ctx.refs, hopens, Nat.add_assoc, hrefs, Nat.add_assoc]
  refine ⟨?_, ?_, ?_, ?_, h.table.ctx hrefs (by rw [hc]) (by rw [hc]), fun hl => ?_, h.disk,
    hwatched⟩
  · rw [hc]
    exact h.proc
  · rw [hc]
    exact h.file
  · rw [hc]
    exact h.pipe
  · rw [hc]
    exact h.sparse
  · refine (h.links hl).same rfl (fun m hm => ?_) (fun m j _ huse =>
      ⟨⟨?_, huse.valid, huse.inum⟩, fun _ => hdying j⟩) fun j hj => ?_
    · rw [hc]
      exact hm
    · rw [hrefs]
      exact huse.refs
    · rw [hopens] at hj
      exact (h.links hl).opened j hj

theorem blind (h : Inv M c s) : Inv M c.blind s :=
  h.recount rfl (fun _ => rfl) (fun _ hd => ⟨hd.dying, hd.held, hd.closed⟩) fun _ hf => hf.elim

theorem unblind (h : Inv M c.blind s) (hblind : ¬ c.watching) : Inv M c s :=
  h.recount rfl (fun _ => rfl) (fun _ hd => ⟨hd.dying, hd.held, hd.closed⟩)
    fun _ hwatch => absurd hwatch hblind

theorem settle {nlinks : Nat → Int} (h : Inv M { c with nlinks := nlinks } s)
    (hsame : M.holeFree → c.watching → nlinks = c.nlinks) : Inv M c s := by
  refine h.recount rfl (fun _ => rfl) (fun _ hd => ⟨hd.dying, hd.held, hd.closed⟩)
    fun hw hwatch => ?_
  have heq := h.watched hw hwatch
  rw [hsame hw hwatch] at heq
  exact heq

theorem pin (h : Inv M (c.hold i) s) (hn : (s.inode i).inum = n) : Inv M (c.pin i n) s := by
  refine h.recount rfl (fun j => ?_) (fun j hd => ⟨hd.dying, ?_, hd.closed⟩) fun hw hwatch => ?_
  · show (i :: c.pins).count j + c.held.count j = c.pins.count j + (i :: c.held).count j
    grind
  · rcases hd.held with hheld | hpins
    · rcases List.mem_cons.mp hheld with heq | hheld
      · exact .inr (List.mem_cons.mpr (.inl heq))
      · exact .inl hheld
    · exact .inr (List.mem_cons_of_mem _ hpins)
  · have hold := h.watched hw hwatch
    refine ⟨hold.linked, hold.nlink, hold.same, fun m hm hz => ?_, fun x hx => ?_, hold.made,
      hold.opened⟩
    · exact (hold.live m hm hz).imp_right fun ⟨j, hj⟩ => ⟨j, List.mem_cons_of_mem _ hj⟩
    · rcases List.mem_cons.mp hx with rfl | hx
      · exact hn
      · exact hold.pinned x hx

theorem unpin (h : Inv M (c.pin i n) s)
    (hn : M.holeFree → c.watching → M.watch n → c.nlinks n = 0 → HasFile M c n) :
    Inv M (c.hold i) s := by
  refine h.recount rfl (fun j => ?_) (fun j hd => ⟨hd.dying, ?_, hd.closed⟩) fun hw hwatch => ?_
  · show c.pins.count j + (i :: c.held).count j = (i :: c.pins).count j + c.held.count j
    rw [List.count_cons, List.count_cons]
    omega
  · rcases hd.held with hheld | hpins
    · exact .inl (List.mem_cons_of_mem _ hheld)
    · rcases List.mem_cons.mp hpins with heq | hpins
      · exact .inl (List.mem_cons.mpr (.inl heq))
      · exact .inr hpins
  · have hold := h.watched hw hwatch
    refine ⟨hold.linked, hold.nlink, hold.same, fun m hm hz => ?_,
      fun x hx => hold.pinned x (List.mem_cons_of_mem _ hx), hold.made, hold.opened⟩
    rcases hold.live m hm hz with hfile | ⟨j, hj⟩
    · exact .inl hfile
    · rcases List.mem_cons.mp hj with heq | hj
      · cases heq
        exact .inl (hn hw hwatch hm hz)
      · exact .inr ⟨j, hj⟩

theorem make (h : Inv M c s) (hi : i ∈ c.locked) (hinum : (s.inode i).inum = n)
    (hn : M.holeFree → c.watching → ¬ M.watch n) : Inv M (c.make i n) s := by
  refine h.recount rfl (fun _ => rfl) (fun _ hd => ⟨hd.dying, hd.held, hd.closed⟩)
    fun hw hwatch => ?_
  have hold := h.watched hw hwatch
  refine ⟨hold.linked, hold.nlink, hold.same, hold.live, hold.pinned, fun x hx => ?_, hold.opened⟩
  rcases List.mem_cons.mp hx with rfl | hx
  · exact ⟨hi, hinum, hn hw hwatch⟩
  · exact hold.made x hx

-- The other tables change, and references change their kind.
theorem recast (h : Inv M c s)
    (hsys : t = { s with file := t.file, proc := t.proc, pipe := t.pipe, refs := t.refs })
    (hproc : t.proc = c'.proc) (hfile : t.file = c'.file) (hpipe : t.pipe = c'.pipe)
    (hsparse : Sparse c'.dirs) (hrefs : ∀ j, c'.refs j = c.refs j)
    (hlocked : c'.locked = c.locked) (hisdir : c'.isdir = c.isdir)
    (hfresh : ∀ m, m ∈ c.fresh → m ∈ c'.fresh) (hdying : ∀ j, Dying c j → Dying c' j)
    (hopen : ∀ j, 0 < c'.opens j → 0 < c.opens j ∨ 0 < c.refs j ∧ (s.inode j).valid = true)
    (hblind : ¬ c'.watching) : Inv M c' t := by
  have hinode : t.inode = s.inode := by rw [hsys]
  have hdinode : t.dinode = s.dinode := by rw [hsys]
  refine ⟨hproc, hfile, hpipe, hsparse, ?_, fun hl => ?_, fun hw => ?_,
    fun _ hwatch => absurd hwatch hblind⟩
  · exact (h.table.congr hinode fun _ _ _ => by rw [hdinode]).ctx hrefs hlocked hisdir
  · refine (h.links hl).same hdinode hfresh (fun m j _ huse => ⟨⟨?_, ?_, ?_⟩, fun _ => hdying j⟩)
      fun j hj => ?_
    · rw [hrefs]
      exact huse.refs
    · rw [hinode]
      exact huse.valid
    · rw [hinode]
      exact huse.inum
    · rw [hinode]
      rcases hopen j hj with hold | ⟨hpos, hvalid⟩
      · exact (h.links hl).opened j hold
      · have hagree := (h.table.entry j).agree hpos hvalid
        rw [← hagree.2.type]
        exact hagree.1
  · exact (h.disk hw).congr hdinode (by rw [hsys]) (by rw [hsys]) (by rw [hsys])

theorem evict (h : Inv M c s) (hkeep : ∀ n, ¬ M.keep n) (hblind : ¬ c.watching) (b : Nat) :
    Inv M c (s.setData b (s.home b)) := by
  refine ⟨h.proc, h.file, h.pipe, h.sparse, h.table.congr rfl fun _ _ _ => rfl, fun hl => ?_,
    fun hw => ⟨(h.disk hw).blocks.evict b, fun n hn => absurd hn (hkeep n)⟩,
    fun _ hwatch => absurd hwatch hblind⟩
  exact (h.links hl).same rfl (fun _ => id) (fun m j _ huse =>
    ⟨⟨huse.refs, huse.valid, huse.inum⟩, fun _ => id⟩) (h.links hl).opened

end Inv

end Xv6.Fs
