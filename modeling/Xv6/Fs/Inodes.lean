import Xv6.Fs.Itable
import Xv6.Fs.Table

namespace Xv6.Fs

open Lib

def Unlocked (s : Sys) : Prop := ∀ i, (s.inode i).lock = none

-- The in-memory inodes are those of the disk, and have no holes.
structure Coherent (s : Sys) : Prop where
  same : ∀ i, 0 < (s.inode i).ref → (s.inode i).valid = true →
    (s.inode i).toDinode = s.dinode (s.inode i).inum
  small : ∀ i, 0 < (s.inode i).ref → (s.inode i).valid = true →
    (s.inode i).size ≤ MAXFILE * BSIZE
  mapped : ∀ i, 0 < (s.inode i).ref → (s.inode i).valid = true →
    Mapped s.data (s.inode i).toDinode

-- An action that takes the last link of an inode finds that nobody else refers to
-- it.
def Sole : Label → Sys → Prop
  | .incLink i, s => short ((s.inode i).nlink + 1) = 0 → (s.inode i).ref = 1
  | .setLink i, s => short ((s.inode i).nlink - 1) = 0 → (s.inode i).ref = 1
  | _, _ => True

-- An entry of the inode table that is in use and holds its inode.
def Holds (s : Sys) (i : Slot) : Prop := 0 < (s.inode i).ref ∧ (s.inode i).valid = true

-- No inode has block b, as the kernel has the inodes: from the table, and if they
-- are not there, from the disk.
structure Spare (s : Sys) (b : Nat) : Prop where
  table : ∀ i x, Holds s i → ptr s.data (s.inode i).toDinode x ≠ b
  disk : ∀ n x, (∀ i, Holds s i → (s.inode i).inum ≠ n) → (s.dinode n).type ≠ .free →
    ptr s.data (s.dinode n) x ≠ b

-- What is to be shown of the state that an action finds.
structure Must (M : Mode) (lbl : Label) (s : Sys) : Prop where
  coherent : M.holeFree → Unlocked s → Coherent s
  readi : ∀ i off n, lbl = .readi i off n → M.holeFree →
    ∀ dst, ∃ r, (readi M.sb i dst off n).run s = .done s r
  size : ∀ i, lbl = .size i → M.writes ∨ (s.inode i).type = .dir ∨
    (s.inode i).ref = 1 ∧ (s.inode i).nlink = 0
  endOp : lbl = .endOp → M.durable → ∀ n, ¬ Orphan s n
  balloc : ∀ c b, lbl = .balloc c → M.holeFree → s.freeBit M.sb c = some b → Spare s b

def Mode.spec (M : Mode) : Spec Sys Label where
  ok := fun lbl s => (M.durable → Sole lbl s) ∧ ∀ i, lbl = .size i → ¬ M.keep (s.inode i).inum
  must := Must M
  panics := fun msg => Apart msg ∧
    (M.holeFree → msg ≠ "bmap: out of range" ∧ msg ≠ "freeing free block") ∧
    (M.roomy → msg ≠ "iget: no inodes")
  waits := True

def Label.plain : Label → Bool
  | .readi .. | .size _ | .endOp | .balloc _ => false
  | _ => true

variable {M : Mode} {c c' : Ctx} {s t : Sys} {i j : Slot} {n : Nat} {lbl : Label}

theorem Must.of_plain (hl : lbl.plain = true) (h : M.holeFree → Unlocked s → Coherent s) :
    Must M lbl s := by
  refine ⟨h, fun i off n heq => ?_, fun i heq => ?_, fun heq => ?_, fun c b heq => ?_⟩
  · rw [heq] at hl
    cases hl
  · rw [heq] at hl
    cases hl
  · rw [heq] at hl
    cases hl
  · rw [heq] at hl
    cases hl

theorem Must.of_lock (hl : lbl.plain = true) (hlock : (s.inode i).lock ≠ none) : Must M lbl s :=
  .of_plain hl fun _ hu => absurd (hu i) hlock

theorem Must.of_block (hlock : (s.inode i).lock ≠ none)
    (hsize : M.writes ∨ (s.inode i).type = .dir ∨ (s.inode i).ref = 1 ∧ (s.inode i).nlink = 0)
    (hl : lbl.block i = true) (hsame : SameBut i s t) : Must M lbl t := by
  have hlock' : (t.inode i).lock ≠ none := by
    rw [hsame.self]
    exact hlock
  by_cases hs : lbl = .size i
  · subst hs
    refine ⟨fun _ hu => absurd (hu i) hlock', (fun _ _ _ heq => by cases heq), fun j heq => ?_,
      (fun heq => by cases heq), (fun _ _ heq => by cases heq)⟩
    cases heq
    rw [hsame.self]
    exact hsize
  · refine .of_lock ?_ hlock'
    cases lbl with
    | size j => exact absurd (congrArg Label.size (of_decide_eq_true hl)) hs
    | readi j off n => cases hl
    | endOp => cases hl
    | balloc c => cases hl
    | _ => rfl

theorem empty_eq_none (h : s.empty = none) (i : Slot) : (s.inode i).ref ≠ 0 := by
  intro hi
  refine absurd (List.find?_eq_none.mp h i (List.mem_finRange i)) ?_
  simpa using hi

theorem Ctx.Room.exists_free (h : c.Room 1) : ∃ i, c.refs i = 0 := by
  by_contra hnone
  have hcover : (Finset.univ : Finset Slot) ⊆
      (Finset.univ.filter fun i => 0 < c.opens i) ∪ (c.pins.toFinset ∪ c.held.toFinset) := by
    intro i _
    have hpos : 0 < c.opens i + c.pins.count i + c.held.count i :=
      Nat.pos_of_ne_zero fun hz => hnone ⟨i, hz⟩
    simp only [Finset.mem_union, Finset.mem_filter, Finset.mem_univ, true_and, List.mem_toFinset]
    grind
  have hcard := Finset.card_le_card hcover
  have hunion := Finset.card_union_le (Finset.univ.filter fun i => 0 < c.opens i)
    (c.pins.toFinset ∪ c.held.toFinset)
  have hunion' := Finset.card_union_le c.pins.toFinset c.held.toFinset
  have hpins := List.toFinset_card_le c.pins
  have hheld := List.toFinset_card_le c.held
  have hlen : c.pins.length = c.pinned.length := List.length_map _
  have hused : c.used + c.pinned.length + c.held.length + 1 ≤ NINODE := h
  rw [Finset.card_univ, Fintype.card_fin] at hcard
  unfold Ctx.used at hused
  omega

theorem yields_writeEntry (sb : Superblock) (i : Slot) (bs : List UInt8) {off : Nat}
    (hoff : DIRENT ∣ off) : (writei sb i (.kernel bs) off DIRENT).Yields
      fun r : Int => r = -1 ∨ r = 0 ∨ r = DIRENT := by
  have hchunks : chunks DIRENT off DIRENT = [(off, DIRENT)] := by
    have hin : DIRENT ≤ BSIZE - off % BSIZE := by
      obtain ⟨k, rfl⟩ := hoff
      rw [show DIRENT = 16 from rfl]
      unfold BSIZE
      omega
    rw [show chunks DIRENT off DIRENT = chunks (15 + 1) off DIRENT from rfl,
      chunks_succ (by decide), Nat.min_eq_left hin, Nat.sub_self, chunks_zero]
  unfold writei
  refine .bind (.always _) fun size _ => ?_
  split
  · exact .inl rfl
  · split
    · exact .inl rfl
    · rw [hchunks]
      refine .bind (Q := fun tot => tot = 0 ∨ tot = DIRENT) ?_ fun tot htot => ?_
      · refine .bind (.always _) fun addr _ => ?_
        split
        · exact .inl rfl
        · dsimp only
          split
          · exact .bind (.always _) fun _ _ => .inr (Nat.zero_add _)
          · exact .bind (.always _) fun _ _ => .inl rfl
      · refine .bind (.always _) fun _ _ => .bind (.always _) fun _ _ => .inr ?_
        omega

theorem Wrote.node_eq {sb : Superblock} {exact : Prop} {v : Nat → Dinode} {off n : Nat}
    {bs : List UInt8} (h : Wrote sb exact i v s off bs True n 0 t)
    (hview : v (s.inode i).inum = (s.inode i).toDinode) (hoff : off ≤ (s.inode i).size) :
    node t.data (t.inode i).toDinode = node s.data (s.inode i).toDinode := by
  have hsize : (t.inode i).size = (s.inode i).size := by
    rw [h.size]
    exact Nat.max_eq_left hoff
  have hcontent : content t.data (t.inode i).toDinode = content s.data (s.inode i).toDinode := by
    refine eq_of_byteOf fun k => ?_
    rw [h.bytes trivial k, if_neg (by omega), hview]
  grind [SameBut.self, same, node]

namespace Inv

theorem coherent (h : Inv M c s) (hw : M.holeFree) : Coherent s := by
  have hagree : ∀ i, 0 < (s.inode i).ref → (s.inode i).valid = true →
      (s.inode i).type ≠ .free ∧ (s.inode i).toDinode = s.dinode (s.inode i).inum := by
    intro i hi hv
    rw [h.ref] at hi
    have ha := (h.table.entry i).agree (by omega) hv
    exact ⟨ha.1, ha.2.whole hw⟩
  have hblocks := (h.disk hw).blocks
  refine ⟨fun i hi hv => (hagree i hi hv).2, fun i hi hv => ?_, fun i hi hv => ?_⟩
  · obtain ⟨htype, hsame⟩ := hagree i hi hv
    have hsmall := hblocks.small (s.inode i).inum
    rw [← hsame] at hsmall
    exact hsmall htype
  · obtain ⟨htype, hsame⟩ := hagree i hi hv
    have hmapped := hblocks.mapped (s.inode i).inum
    rw [← hsame] at hmapped
    exact hmapped htype

theorem must (h : Inv M c s) (hl : lbl.plain = true) : Must M lbl s :=
  .of_plain hl fun hw _ => h.coherent hw

theorem lock_ne (h : Inv M c s) (hi : i ∈ c.locked) : (s.inode i).lock ≠ none := by
  rw [(h.table.entry i).lock, if_pos hi]
  exact fun heq => by cases heq

theorem valid (h : Inv M c s) (hi : i ∈ c.locked) : (s.inode i).valid = true :=
  ((h.table.entry i).locked hi).1

theorem pos (h : Inv M c s) (hi : i ∈ c.locked) : 0 < c.refs i := ((h.table.entry i).locked hi).2

theorem type_ne (h : Inv M c s) (hi : i ∈ c.locked) : (s.inode i).type ≠ .free :=
  ((h.table.entry i).agree (h.pos hi) (h.valid hi)).1

theorem whole (h : Inv M c s) (hi : i ∈ c.locked) (hw : M.holeFree) :
    (s.inode i).toDinode = s.dinode (s.inode i).inum :=
  ((h.table.entry i).agree (h.pos hi) (h.valid hi)).2.whole hw

theorem dev (h : Inv M c s) (hi : 0 < c.refs i) : (s.inode i).dev = ROOTDEV :=
  (h.table.entry i).dev hi

theorem wp_iget (h : Inv M c s) (hroom : M.roomy → c.Room 1) (n : Nat) :
    M.spec.Wp (fun i t => Inv M (c.hold i) t ∧ (t.inode i).inum = n ∧
      (0 < c.refs i → (s.inode i).inum = n)) (iget M.p ROOTDEV n) s := by
  refine .atomic fun _ => ⟨h.must rfl, ?_, ?_⟩
  · intro i hi
    cases hcached : s.cached ROOTDEV n with
    | some j =>
      simp only [hcached] at hi ⊢
      cases hi
      obtain ⟨hpos, -, hinum⟩ := cached_eq_some hcached
      grind [ref, hold, Sys.setInode_self, Sys.hold]
    | none =>
      grind [empty_eq_some, ref, recycle, cached_eq_none, dev, Sys.setInode_self, Sys.recycle]
  · intro msg hmsg
    cases hcached : s.cached ROOTDEV n with
    | some j =>
      grind
    | none =>
      cases hempty : s.empty with
      | some j =>
        grind
      | none =>
        simp only [hcached, hempty] at hmsg
        cases hmsg
        refine ⟨by decide, fun _ => by decide, fun hr => ?_⟩
        obtain ⟨i, hi⟩ := (hroom hr).exists_free
        refine absurd (h.ref i) ?_
        rw [hi]
        exact empty_eq_none hempty i

theorem wp_idup (h : Inv M c s) (hi : 0 < c.refs i) :
    M.spec.Wp (fun j t => j = i ∧ Inv M (c.hold i) t) (idup M.p i) s :=
  .modify_bind fun _ => ⟨h.must rfl, rfl, h.hold M.p hi⟩

theorem not_locked (h : Inv M c s) (hlock : (s.inode i).lock = none) : i ∉ c.locked :=
  fun hi => h.lock_ne hi hlock

theorem wp_ilock (h : Inv M c s) (i : Slot) :
    M.spec.Wp (fun _ t => i ∉ c.locked ∧ 0 < c.refs i ∧ Inv M (c.lock i) t ∧
      (t.inode i).inum = (s.inode i).inum) (ilock M.p i) s := by
  refine .atomic_bind fun _ => ⟨h.must rfl, fun _ hpos => ?_, fun msg hmsg => ?_⟩
  · have href : 0 < c.refs i := by
      by_contra hzero
      have hlt : (s.inode i).ref < 1 := by
        rw [h.ref]
        omega
      grind
    refine .wait_bind fun _ => ⟨h.must rfl, fun _ => trivial, fun t ht => ?_⟩
    dsimp only at ht
    split at ht
    · rename_i hlock
      cases ht
      have hfree := h.not_locked hlock
      have hself : (s.acquire M.p i).inode i = { s.inode i with lock := some M.p } :=
        Sys.setInode_self ..
      have hlocked : ((s.acquire M.p i).inode i).lock ≠ none := by
        grind
      refine .atomic fun _ => ⟨.of_lock rfl hlocked, fun _ hok => ?_, fun msg hmsg => ?_⟩
      · by_cases hvalid : ((s.acquire M.p i).inode i).valid = true
        · rw [if_pos hvalid]
          rw [hself] at hvalid
          refine ⟨hfree, href, h.lock hfree href rfl (fun j hj => Function.update_of_ne hj _ _) ?_
            ?_, ?_⟩
          · grind
          · rw [hself]
            exact (h.table.entry i).agree href hvalid
          · rw [hself]
        · rw [if_neg hvalid] at hok ⊢
          have hload : ∀ f : Inode → Inode, ((s.acquire M.p i).setInode i f).inode i =
              f { s.inode i with lock := some M.p } := fun f => by
            rw [Sys.setInode_self, hself]
          have htype : (s.dinode (s.inode i).inum).type ≠ .free := by
            intro hnone
            have hload' : ((s.acquire M.p i).dinode ((s.acquire M.p i).inode i).inum).type =
                .free := by
              rw [hself]
              exact hnone
            simp only [if_pos hload'] at hok
            cases hok
          refine ⟨hfree, href, h.lock hfree href rfl (fun j hj => ?_) ?_ ?_, ?_⟩
          · dsimp only
            rw [Sys.setInode_other _ _ hj, Sys.acquire, Sys.setInode_other _ _ hj]
          · dsimp only
            rw [hload]
          · dsimp only
            rw [hload]
            exact ⟨htype, rfl, rfl, fun _ => rfl⟩
          · dsimp only
            rw [hload]
      · split at hmsg
        · cases hmsg
        · dsimp only at hmsg
          split at hmsg
          · cases hmsg
            exact ⟨by decide, fun _ => by decide, fun _ => by decide⟩
          · cases hmsg
    · cases ht
  · dsimp only at hmsg
    split at hmsg
    · cases hmsg
      exact ⟨by decide, fun _ => by decide, fun _ => by decide⟩
    · cases hmsg

theorem wp_iunlock (h : Inv M c s) (i : Slot) :
    M.spec.Wp (fun _ t => i ∈ c.locked ∧ Inv M (c.unlock i) t) (iunlock M.p i) s := by
  refine .atomic fun _ => ⟨h.must rfl, fun _ hok => ?_, fun msg hmsg => ?_⟩
  · split at hok
    · rename_i hlock
      rw [if_pos hlock]
      refine ⟨?_, h.unlock i⟩
      by_contra hi
      have hl := (h.table.entry i).lock
      grind
    · cases hok
  · split at hmsg
    · cases hmsg
    · cases hmsg
      exact ⟨by decide, fun _ => by decide, fun _ => by decide⟩

theorem wp_editing {α : Type} {m : Prog Sys Label α} {sized : Prop} (h : Inv M c s)
    (hw : ¬ M.holeFree) (hi : i ∈ c.locked) (hsize : sized → M.writes ∨ i ∈ c.isdir)
    (hm : Editing sized i m) : M.spec.Wp (fun _ t => Inv M c t) m s := by
  refine hm.wp (fun msg hmsg => ⟨hmsg.1, fun hf => absurd hf hw, fun _ => hmsg.2⟩) (fun lbl u t hu _ he => ?_) h
  refine ⟨⟨fun hf => absurd hf hw, fun _ _ _ _ hf => absurd hf hw, fun j heq => ?_, fun heq => ?_,
    fun _ _ _ hf => absurd hf hw⟩, hu.edits hw hi he⟩
  · subst heq
    have hj : j = i := of_decide_eq_true he.label
    subst hj
    rcases hsize (he.sized rfl) with hwrites | hdir
    · exact .inl hwrites
    · exact .inr (.inl ((hu.table.entry j).isdir hdir).2)
  · subst heq
    cases he.label

theorem wp_readi {dst : Dst} {off n : Nat} (h : Inv M c s) (hi : i ∈ c.locked) :
    M.spec.Wp (fun _ t => Inv M c t) (readi M.sb i dst off n) s := by
  by_cases hw : M.holeFree
  · have hcoh := h.coherent hw
    have hpos : 0 < (s.inode i).ref := by
      rw [h.ref]
      have := h.pos hi
      omega
    have hmapped := hcoh.mapped i hpos (h.valid hi)
    have hread : M.spec.must (.readi i off n) s := by
      refine ⟨fun _ _ => hcoh, fun j off' n' heq _ dst' => ?_, (fun _ heq => by cases heq),
        (fun heq => by cases heq), fun _ _ heq => by cases heq⟩
      cases heq
      have hwp : (Spec.total Sys Label).Wp _ (readi M.sb i dst' off n) s :=
        Fs.wp_readi trivial trivial hmapped
      obtain ⟨t, r, hrun, rfl, -⟩ := hwp.returns
      exact ⟨r, hrun⟩
    refine (Fs.wp_readi hread (h.must rfl) hmapped).mono fun r t ht => ?_
    rw [ht.1]
    exact h
  · exact h.wp_editing hw hi (fun hf : False => hf.elim) (editing_readi i dst off n)

theorem wrote {off n tot : Nat} {bs : List UInt8} {good : Prop} (h : Inv M c s) (hw : M.holeFree)
    (hi : i ∈ c.locked) (ht : Resized M.spec i s)
    (hwrote : Wrote M.sb M.exact i s.dinode s off bs good n tot t)
    (hnode : c.watching → M.watch (s.inode i).inum →
      node t.data (t.inode i).toDinode = node s.data (s.inode i).toDinode) : Inv M c t := by
  obtain ⟨u, hu, hok⟩ := ht
  refine h.rewritten hw hi hwrote.same hwrote.dinode ?_ (fun m hm ht => ?_) ?_ hnode
  · rw [hwrote.dinode]
    exact hwrote.blocks
  · have hother := hwrote.other m hm
    rw [node_of_alloc ht, node_of_alloc ht] at hother
    exact congrArg Node.content hother
  · rw [← hu.inum]
    exact hok.2 i rfl

theorem sizable (h : Inv M c s) (hsize : M.writes ∨ i ∈ c.isdir) : M.writes ∨
    (s.inode i).type = .dir ∨ (s.inode i).ref = 1 ∧ (s.inode i).nlink = 0 :=
  hsize.imp_right fun hdir => .inl ((h.table.entry i).isdir hdir).2

-- A block that is free belongs to no inode while the inode in slot i grows.
theorem spare {b : Nat} (h : Inv M c s) (hi : i ∈ c.locked) (hw : M.holeFree)
    (ht : Growing M.sb M.exact i s.dinode s t) (hfree : t.bitmap b = false) : Spare t b := by
  have hnone : ∀ n d x, Function.update s.dinode (s.inode i).inum (t.inode i).toDinode n = d →
      d.type ≠ .free → ptr t.data d x ≠ b := by
    intro n d x hd htype heq
    have hlo := ht.blocks.alloc.lo_le hfree
    have hpos := nmeta_pos M.sb
    refine ht.blocks.alloc.not_owned hfree (n, x) ⟨?_, ?_, by omega⟩
    · rw [hd]
      exact htype
    · rw [hd]
      exact heq
  have hself : (t.inode i).type ≠ .free := by
    rw [ht.same.self]
    exact h.type_ne hi
  have hheld : Holds t i := by
    refine ⟨?_, ?_⟩
    · rw [ht.same.self, h.ref]
      exact_mod_cast h.pos hi
    · rw [ht.same.self]
      exact h.valid hi
  refine ⟨fun j x hj => ?_, fun n x hn htype => ?_⟩
  · by_cases hji : j = i
    · rw [hji]
      exact hnone _ _ x (Function.update_self ..) hself
    · have hjs := ht.same.other j hji
      rw [Holds, hjs, h.ref] at hj
      obtain ⟨href, hvalid⟩ := hj
      have hpos : 0 < c.refs j := by exact_mod_cast href
      obtain ⟨htype, hagree⟩ := (h.table.entry j).agree hpos hvalid
      rw [hjs]
      refine hnone (s.inode j).inum _ x ?_ htype
      rw [Function.update_of_ne (h.table.inum_ne (h.pos hi) hji hpos)]
      exact (hagree.whole hw).symm
  · rw [ht.dinode] at htype ⊢
    refine hnone n _ x (Function.update_of_ne ?_ _ _) htype
    have hne := hn i hheld
    rw [ht.same.inum] at hne
    exact hne.symm

theorem must_balloc (h : Inv M c s) (hi : i ∈ c.locked) (hw : M.holeFree)
    (ht : Growing M.sb M.exact i s.dinode s t) {k : Nat} : Must M (.balloc k) t := by
  refine ⟨fun _ hu => ?_, (fun _ _ _ heq => by cases heq), (fun _ heq => by cases heq),
    (fun heq => by cases heq), fun c' b heq _ hfree => h.spare hi hw ht (freeBit_eq_some hfree).1⟩
  have hlock := hu i
  rw [ht.same.self] at hlock
  exact absurd hlock (h.lock_ne hi)

theorem wp_writei {src : Src} {off n : Nat} (h : Inv M c s) (hi : i ∈ c.locked)
    (hsize : M.writes ∨ i ∈ c.isdir) :
    M.spec.Wp (fun _ t => Inv M c.blind t) (writei M.sb i src off n) s := by
  by_cases hw : M.holeFree
  · have hsrc : False → ∀ tot m, tot + m ≤ n →
        src.copyin tot m = (([] : List UInt8).drop tot).take m ∧
          (src.copyin tot m).length = m := fun hf => hf.elim
    have hwp : M.spec.Wp _ (writei M.sb i src off n) s :=
      Fs.wp_writei (fun lbl t hl hsame => .of_block (h.lock_ne hi) (h.sizable hsize) hl hsame)
        (fun _ t ht => h.must_balloc hi hw ht) (h.type_ne hi) hsrc (h.whole hi hw).symm (h.disk hw).blocks
    refine hwp.mono fun r t ht => ?_
    split at ht
    · rw [ht.2]
      exact h.blind
    · obtain ⟨hresized, tot, -, -, hwrote⟩ := ht
      exact h.blind.wrote hw hi hresized hwrote fun hf => hf.elim
  · exact (h.wp_editing hw hi (fun _ => hsize) (editing_writei i src off n)).mono
      fun _ _ ht => ht.blind

-- The call does not watch the inode in slot i.
def Unwatched (M : Mode) (c : Ctx) (i : Slot) : Prop :=
  ∀ s, Inv M c s → M.holeFree → c.watching → ¬ M.watch (s.inode i).inum

theorem Unwatched.of_made (h : (i, n) ∈ c.made) : Unwatched M c i := by
  intro s hs hw hwatch
  obtain ⟨-, hinum, hnot⟩ := (hs.watched hw hwatch).made _ h
  rw [hinum]
  exact hnot

-- A write of an entry of a directory, which is all or nothing.
theorem wp_writeEntry {off : Nat} {bs : List UInt8} (h : Inv M c s) (hi : i ∈ c.locked)
    (hsize : M.writes ∨ i ∈ c.isdir) (hoff : DIRENT ∣ off) (hbs : bs.length = DIRENT) :
    M.spec.Wp (fun (r : Int) t => Inv M c.blind t ∧
        (r ≠ DIRENT ∨ Unwatched M c i → Inv M c t))
      (writei M.sb i (.kernel bs) off DIRENT) s := by
  by_cases hw : M.holeFree
  · have hsrc : True → ∀ tot m, tot + m ≤ DIRENT →
        Src.copyin (.kernel bs) tot m = (bs.drop tot).take m ∧
          (Src.copyin (.kernel bs) tot m).length = m := by
      grind [List.length_take, List.length_drop, Src.copyin]
    have hwp : M.spec.Wp _ (writei M.sb i (.kernel bs) off DIRENT) s :=
      Fs.wp_writei (fun lbl t hl hsame => .of_block (h.lock_ne hi) (h.sizable hsize) hl hsame)
        (fun _ t ht => h.must_balloc hi hw ht) (h.type_ne hi) hsrc (h.whole hi hw).symm (h.disk hw).blocks
    refine ((yields_writeEntry M.sb i bs hoff).wp hwp).mono fun r t ht => ?_
    obtain ⟨ht, hr⟩ := ht
    split at ht
    · rw [ht.2]
      exact ⟨h.blind, fun _ => h⟩
    · rename_i hcond
      obtain ⟨hresized, tot, rfl, -, hwrote⟩ := ht
      refine ⟨h.blind.wrote hw hi hresized hwrote fun hf => hf.elim, fun hcase =>
        h.wrote hw hi hresized hwrote fun hwatch hin => ?_⟩
      rcases hcase with hne | hnot
      · have hzero : tot = 0 := by
          omega
        subst hzero
        exact hwrote.node_eq (h.whole hi hw).symm (by omega)
      · exact absurd hin (hnot s h hw hwatch)
  · refine (h.wp_editing hw hi (fun _ => hsize) (editing_writei i (.kernel bs) off DIRENT)).mono
      fun _ _ ht => ⟨ht.blind, fun _ => ht⟩

theorem wp_itrunc (h : Inv M c s) (hi : i ∈ c.locked) (hwrites : M.writes)
    (hblind : ¬ c.watching) :
    M.spec.Wp (fun _ t => Inv M c t) (itrunc i) s := by
  by_cases hw : M.holeFree
  · have hwp : M.spec.Wp _ (itrunc i) s :=
      Fs.wp_itrunc (fun lbl t hl hsame => .of_block (h.lock_ne hi) (.inl hwrites) hl hsame)
        (h.whole hi hw).symm (h.type_ne hi) (h.disk hw).blocks
    refine hwp.mono fun _ t ht => ?_
    obtain ⟨hsame, ⟨u, hu, hok⟩, -, hdinode, hdata, -, hblocks⟩ := ht
    refine h.rewritten hw hi hsame hdinode ?_ (fun m _ _ => by rw [hdata]) ?_
      fun hwatch => absurd hwatch hblind
    · rw [hdinode]
      exact hblocks
    · rw [← hu.inum]
      exact hok.2 i rfl
  · exact h.wp_editing hw hi (fun _ => .inl hwrites) (editing_itrunc i)

section Free

variable (h : Inv M c s) (hone : c.refs i = 1) (hvalid : (s.inode i).valid = true)
  (hnlink : (s.inode i).nlink = 0)

include h hone hvalid hnlink

-- itrunc() of an inode that is about to be freed.
theorem wp_itrunc_free : M.spec.Wp (fun _ t => SameBut i (s.acquire M.p i) t ∧
    (M.holeFree → (t.inode i).size = 0 ∧ (t.inode i).addrs = (fun _ => 0) ∧ t.data = s.data ∧
      ¬ M.keep (s.inode i).inum ∧ Blocks M.sb M.exact
        (Function.update s.dinode (s.inode i).inum (t.inode i).toDinode) [] t))
    (itrunc i) (s.acquire M.p i) := by
  have hself : (s.acquire M.p i).inode i = { s.inode i with lock := some M.p } :=
    Sys.setInode_self ..
  have hlock : ((s.acquire M.p i).inode i).lock ≠ none := by
    grind
  have hlast : ((s.acquire M.p i).inode i).ref = 1 ∧ ((s.acquire M.p i).inode i).nlink = 0 := by
    grind [ref]
  have hagree := (h.table.entry i).agree (by omega) hvalid
  by_cases hw : M.holeFree
  · have hview : s.dinode ((s.acquire M.p i).inode i).inum =
        ((s.acquire M.p i).inode i).toDinode := by
      rw [hself]
      exact (hagree.2.whole hw).symm
    have hblocks : Blocks M.sb M.exact s.dinode [] (s.acquire M.p i) :=
      (h.disk hw).blocks.congr rfl rfl rfl
    have hwp : M.spec.Wp _ (itrunc i) (s.acquire M.p i) :=
      Fs.wp_itrunc (fun lbl t hl hsame => .of_block hlock (.inr (.inr hlast)) hl hsame) hview
        (by rw [hself]; exact hagree.1) hblocks
    refine hwp.mono fun _ t ht => ?_
    obtain ⟨hsame, ⟨u, hu, hok⟩, hempty, -, hdata, -, hblocks'⟩ := ht
    have hinum : ((s.acquire M.p i).inode i).inum = (s.inode i).inum := by rw [hself]
    rw [hinum] at hblocks'
    refine ⟨hsame, fun _ => ⟨congrArg Dinode.size hempty, congrArg Dinode.addrs hempty, hdata, ?_,
      hblocks'⟩⟩
    rw [← hinum, ← hu.inum]
    exact hok.2 i rfl
  · have hwp : M.spec.Wp (fun _ t => SameBut i (s.acquire M.p i) t) (itrunc i)
        (s.acquire M.p i) := by
      refine (editing_itrunc i).wp (fun msg hmsg => ⟨hmsg.1, fun hf => absurd hf hw, fun _ => hmsg.2⟩)
        (fun lbl u t hu _ he => ⟨⟨fun hf => absurd hf hw, fun _ _ _ _ hf => absurd hf hw,
          fun j heq => ?_, fun heq => ?_, fun _ _ _ hf => absurd hf hw⟩, hu.trans he.same⟩)
        (SameBut.refl i _)
      · subst heq
        have hj : j = i := of_decide_eq_true he.label
        subst hj
        rw [hu.self]
        exact .inr (.inr hlast)
      · subst heq
        cases he.label
    exact hwp.mono fun _ t ht => ⟨ht, fun hf => absurd hf hw⟩

-- ip->type = 0, iupdate() and ip->valid = 0 after itrunc().
theorem freed_of_trunc (hi : i ∈ c.held) (hfree : i ∉ c.locked)
    (hsame : SameBut i (s.acquire M.p i) t)
    (hdisk : M.holeFree → (t.inode i).size = 0 ∧ (t.inode i).addrs = (fun _ => 0) ∧
      t.data = s.data ∧ ¬ M.keep (s.inode i).inum ∧ Blocks M.sb M.exact
        (Function.update s.dinode (s.inode i).inum (t.inode i).toDinode) [] t) {u : Sys}
    (hu : u = { t with inode := u.inode, dinode := u.dinode })
    (hother : ∀ j, j ≠ i → u.inode j = t.inode j)
    (hself : u.inode i = { t.inode i with type := .free, valid := false, lock := none })
    (hdinode : u.dinode =
      Function.update t.dinode (t.inode i).inum { (t.inode i).toDinode with type := .free }) :
    Inv M c u := by
  have hacq : (s.acquire M.p i).inode i = { s.inode i with lock := some M.p } :=
    Sys.setInode_self ..
  have hinum : (t.inode i).inum = (s.inode i).inum := by rw [hsame.inum, hacq]
  have hself' : t.inode i = { s.inode i with
      lock := some M.p, size := (t.inode i).size, addrs := (t.inode i).addrs } := by
    have heq := hsame.self
    rw [hacq] at heq
    exact heq
  have hm : ∀ m, m ≠ (s.inode i).inum → u.dinode m = s.dinode m := by
    intro m hne
    rw [hdinode, Function.update_of_ne (by rw [hinum]; exact hne)]
    exact hsame.dinode m (by rw [hacq]; exact hne)
  have hn : u.dinode (s.inode i).inum = { (t.inode i).toDinode with type := .free } := by
    rw [hdinode, hinum, Function.update_self]
  have hdata : M.holeFree → u.data = s.data := by
    grind
  have hzero : (s.dinode (s.inode i).inum).nlink = 0 := by
    rw [← ((h.table.entry i).agree (by omega) hvalid).2.nlink]
    exact hnlink
  refine h.freed hone hi hfree ?_ ?_ ?_ (fun j hj => ?_) ⟨?_, ?_, ?_, ?_, ?_⟩ hm ⟨?_, ?_⟩
    (fun hw => ?_) hzero hdata
  · rw [hu]
    exact hsame.proc
  · rw [hu]
    exact hsame.file
  · rw [hu]
    exact hsame.pipe
  · rw [hother j hj, hsame.other j hj]
    exact Sys.setInode_other s _ hj
  · rw [hself]
    exact hinum
  · rw [hself, hself']
  · rw [hself, hself']
  · rw [hself]
  · rw [hself]
  · rw [hn]
  · rw [hn, hself']
    exact hnlink
  · obtain ⟨hsize, haddrs, -, hkeep, hblocks⟩ := hdisk hw
    refine ⟨?_, fun m hk => ?_⟩
    · have hcleared := hblocks.assign (n := (s.inode i).inum)
        (d := { (t.inode i).toDinode with type := .free })
        (.inr (by rw [Function.update_self]; exact haddrs)) haddrs hsize
      rw [Function.update_idem] at hcleared
      have hdinode' : u.dinode = Function.update s.dinode (s.inode i).inum
          { (t.inode i).toDinode with type := .free } := by
        grind
      rw [hdinode']
      exact hcleared.congr (by rw [hu]) (by rw [hu]) (by rw [hu])
    · have hne : m ≠ (s.inode i).inum := by
        rintro rfl
        exact hkeep hk
      exact ((h.disk hw).kept m hk).congr (hm m hne) (by rw [hdata hw])

theorem wp_ifree (hi : i ∈ c.held) (hfree : i ∉ c.locked) :
    M.spec.Wp (fun _ t => Inv M (c.drop i) t) (ifree M.p i) (s.acquire M.p i) := by
  have hacq : (s.acquire M.p i).inode i = { s.inode i with lock := some M.p } :=
    Sys.setInode_self ..
  refine .bind (wp_itrunc_free h hone hvalid hnlink) fun _ t ht => ?_
  obtain ⟨hsame, hdisk⟩ := ht
  have hlock : (t.inode i).lock ≠ none := by
    rw [hsame.self, hacq]
    exact fun heq => by cases heq
  refine .modify_bind fun _ => ⟨.of_lock rfl hlock, ?_⟩
  refine .modify_bind fun _ => ⟨.of_lock (i := i) rfl ?_, ?_⟩
  · simp_all
  refine .modify_bind fun _ => ⟨.of_lock (i := i) rfl ?_, ?_⟩
  · grind [Sys.setInode_self, Sys.setDinode]
  generalize hu : Sys.setInode _ i _ = u
  have hself : u.inode i = { t.inode i with type := .free, valid := false, lock := none } := by
    rw [← hu, Sys.setInode_self, Sys.setDinode, Sys.setInode_self]
  have hinv : Inv M c u := by
    refine freed_of_trunc h hone hvalid hnlink hi hfree hsame hdisk ?_ (fun j hj => ?_) hself ?_
    · rw [← hu]
      rfl
    · rw [← hu, Sys.setInode_other _ _ hj, Sys.setDinode, Sys.setInode_other _ _ hj]
    · rw [← hu]
      simp [Sys.setInode, Sys.setDinode]
  refine .modify fun _ => ⟨hinv.must rfl, hinv.drop M.p hi (fun hl => absurd hl hfree) ?_⟩
  simp [Sys.unused, hself]

end Free

theorem wp_iput (h : Inv M c s) (hi : i ∈ c.held) (hl : i ∈ c.locked → 1 < c.refs i) :
    M.spec.Wp (fun _ t => Inv M (c.drop i) t) (iput M.p i) s := by
  intro _
  refine ⟨h.must rfl, fun _ => trivial, fun t ht => ?_⟩
  dsimp only at ht ⊢
  by_cases hu : s.unused i = true
  · rw [if_pos hu] at ht ⊢
    split at ht
    · rename_i hlock
      cases ht
      simp only [Sys.unused, Bool.and_eq_true, beq_iff_eq] at hu
      grind [ref, wp_ifree, not_locked]
    · cases ht
  · rw [if_neg hu] at ht ⊢
    cases ht
    exact h.drop M.p hi hl (Bool.eq_false_iff.mpr hu)

theorem wp_iunlockput (h : Inv M c s) (hi : i ∈ c.held) :
    M.spec.Wp (fun _ t => Inv M ((c.unlock i).drop i) t) (iunlockput M.p i) s := by
  refine .bind (h.wp_iunlock i) fun _ t ht => ?_
  exact ht.2.wp_iput hi fun hl => absurd hl h.table.nodup.not_mem_erase

end Inv

end Xv6.Fs
