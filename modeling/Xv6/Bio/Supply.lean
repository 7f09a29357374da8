import Xv6.Bio.Refine
import Xv6.Fs
import Mathlib.Data.List.FinRange

namespace Xv6.Bio

open Lib

-- fileread() as the buffer cache sees it. The file has no holes, so that bmap()
-- allocates nothing.
section

variable (p : Nat)

def bmap (ip : Fs.Dinode) (bn : Nat) : Prog Sys Label Nat :=
  if h : bn < NDIRECT then pure (ip.addrs ⟨bn, Nat.lt_succ_of_lt h⟩)
  else if bn - NDIRECT < NINDIRECT then do
    let bp ← bread p ROOTDEV (ip.addrs Fs.indirect)
    let addr ← .look (.bread (ip.addrs Fs.indirect) bp) fun s =>
      (s.buf bp).data.getUint (bn - NDIRECT)
    brelse p bp
    pure addr
  else .panic "bmap: out of range"

def readiLoop (ip : Fs.Dinode) (dst : Fs.Dst) : Nat → List (Nat × Nat) → Prog Sys Label Unit
  | _, [] => pure ()
  | tot, (off, m) :: rest => do
      let addr ← bmap p ip (off / BSIZE)
      if addr = 0 then pure ()
      else do
        let bp ← bread p ROOTDEV addr
        brelse p bp
        if dst tot m then readiLoop ip dst (tot + m) rest else pure ()

def readi (ip : Fs.Dinode) (dst : Fs.Dst) (off n : Nat) : Prog Sys Label Unit :=
  if ip.size < off ∨ (off + n) % 2 ^ 32 < off then pure ()
  else
    let n := if ip.size < off + n then ip.size - off else n
    readiLoop p ip dst 0 (Fs.chunks n off n)

-- ilock() reads the block of an inode that is not in memory.
def ilock (ip : Fs.Inode) (iblock : Nat) : Prog Sys Label Unit :=
  if ip.valid then pure ()
  else do
    let bp ← bread p ROOTDEV iblock
    brelse p bp

def fileread (ip : Fs.Inode) (iblock : Nat) (dst : Fs.Dst) (off n : Nat) :
    Prog Sys Label Unit := do
  ilock p ip iblock
  readi p ip.toDinode dst off n

end

-- The processes read files and do what file-system operations do in transactions.
inductive Uses (dev : Log.Dev) (p : Nat) (s : Sys) : Prog Sys Label Unit → Prop
  | fileread (hp : p < NPROC) (ip : Fs.Inode) (iblock : Nat) (dst : Fs.Dst) (off n : Nat) :
      Uses dev p s (fileread p ip iblock dst off n)
  | op {m : Prog Sys Label Unit} (hp : p < NPROC) (h : Calls dev p s m) : Uses dev p s m

-- The buffer that a process counts for in refcnt without holding the lock.
def Access.waits : Access → Option Idx
  | .ref i => some i
  | _ => Option.none

-- The references to buffers: of processes on their way to or from a lock, of the
-- holders and of the log.
def Sys.demand (s : Sys) : Nat :=
  ((List.range NPROC).filterMap fun p => (s.pending p).waits).length +
    ((List.finRange NBUF).filter fun i => (s.buf i).holder.isSome).length + s.log.lh.length

-- bget() finds its block, or fewer references than buffers.
def Room : Label → Sys → Prop
  | .bget d b, s => s.cached d b ≠ none ∨ s.demand < NBUF
  | _, _ => True

-- bget() finds its block or a buffer that nobody uses.
def Supplied : Label → Sys → Prop
  | .bget d b, s => s.cached d b = none → s.victim ≠ none
  | _, _ => True

variable {dev : Log.Dev} {p : Nat} {s t : Sys} {ip : Fs.Dinode}

def noBuffers : String := "bget: no buffers"

theorem bget_avoids {d b : Nat} : (bget p d b).Avoids Supplied noBuffers := by
  refine Prog.Avoids.atomic fun s hs => ?_
  cases hc : s.cached d b with
  | some i => simp
  | none =>
    cases hv : s.victim with
    | some i => simp
    | none => exact absurd hv (hs hc)

theorem bread_avoids {d b : Nat} : (bread p d b).Avoids Supplied noBuffers := by
  refine bget_avoids.bind fun i => ?_
  refine Prog.Avoids.bind (fun _ _ => trivial) fun _ => ?_
  exact Prog.Avoids.modify.bind fun _ => Prog.Avoids.look

theorem bwrite_avoids {i : Idx} : (bwrite p i).Avoids Supplied noBuffers := by
  refine Prog.Avoids.atomic fun s _ => ?_
  split <;> simp [noBuffers]

theorem brelse_avoids {i : Idx} : (brelse p i).Avoids Supplied noBuffers := by
  refine Prog.Avoids.bind (Prog.Avoids.atomic fun s _ => ?_) fun _ => Prog.Avoids.modify
  split <;> simp [noBuffers]

theorem writeLog_avoids {tail : Nat} {lh : List Nat} :
    (writeLog p dev tail lh).Avoids Supplied noBuffers := by
  induction lh generalizing tail with
  | nil => trivial
  | cons b rest ih =>
    refine bread_avoids.bind fun dst => bread_avoids.bind fun src => ?_
    refine Prog.Avoids.modify.bind fun _ => bwrite_avoids.bind fun _ => ?_
    exact brelse_avoids.bind fun _ => brelse_avoids.bind fun _ => ih

theorem installTrans_avoids {tail : Nat} {lh : List Nat} :
    (installTrans p dev tail lh).Avoids Supplied noBuffers := by
  induction lh generalizing tail with
  | nil => trivial
  | cons b rest ih =>
    refine bread_avoids.bind fun lbuf => bread_avoids.bind fun dbuf => ?_
    refine Prog.Avoids.modify.bind fun _ => bwrite_avoids.bind fun _ => ?_
    refine Prog.Avoids.modify.bind fun _ => brelse_avoids.bind fun _ => ?_
    exact brelse_avoids.bind fun _ => ih

theorem writeHead_avoids :
    (writeHead p dev).Avoids Supplied noBuffers := by
  refine bread_avoids.bind fun buf => Prog.Avoids.modify.bind fun _ => ?_
  exact bwrite_avoids.bind fun _ => brelse_avoids

theorem commit_avoids : (commit p dev).Avoids Supplied noBuffers := by
  refine Prog.Avoids.look.bind fun lh => ?_
  split
  · refine writeLog_avoids.bind fun _ => writeHead_avoids.bind fun _ => ?_
    refine installTrans_avoids.bind fun _ => Prog.Avoids.modify.bind fun _ => ?_
    exact writeHead_avoids
  · trivial

theorem endOp_avoids : (endOp p dev).Avoids Supplied noBuffers := by
  refine Prog.Avoids.bind (Prog.Avoids.atomic fun s _ => ?_) fun doCommit => ?_
  · rw [Log.State.endOp]
    split_ifs <;> simp [noBuffers]
  · split
    · exact commit_avoids.bind fun _ => Prog.Avoids.modify
    · trivial

theorem logWrite_avoids {i : Idx} :
    (logWrite dev i).Avoids Supplied noBuffers := by
  refine Prog.Avoids.atomic fun s _ => ?_
  rw [Log.State.logWrite]
  split_ifs <;> simp [noBuffers]

theorem calls_avoids {m : Prog Sys Label Unit} (h : Calls dev p s m) :
    m.Avoids Supplied noBuffers := by
  cases h with
  | bread b => exact bread_avoids.bind fun _ => trivial
  | change i f hi hb => exact Prog.Avoids.modify
  | logWrite i hi hb => exact logWrite_avoids
  | brelse i hi hd => exact brelse_avoids
  | beginOp => exact fun _ _ => trivial
  | endOp => exact endOp_avoids

theorem bmap_avoids {bn : Nat} : (bmap p ip bn).Avoids Supplied noBuffers := by
  rw [bmap]
  split
  · trivial
  · split
    · refine bread_avoids.bind fun bp => Prog.Avoids.look.bind fun addr => ?_
      exact brelse_avoids.bind fun _ => trivial
    · exact show "bmap: out of range" ≠ noBuffers by decide

theorem readiLoop_avoids {dst : Fs.Dst} {tot : Nat} {rounds : List (Nat × Nat)} :
    (readiLoop p ip dst tot rounds).Avoids Supplied noBuffers := by
  induction rounds generalizing tot with
  | nil => trivial
  | cons round rest ih =>
    refine bmap_avoids.bind fun addr => ?_
    split
    · trivial
    · refine bread_avoids.bind fun bp => brelse_avoids.bind fun _ => ?_
      split
      · exact ih
      · trivial

theorem readi_avoids {dst : Fs.Dst} {off n : Nat} :
    (readi p ip dst off n).Avoids Supplied noBuffers := by
  rw [readi]
  split
  · trivial
  · exact readiLoop_avoids

theorem uses_avoids {m : Prog Sys Label Unit} (h : Uses dev p s m) :
    m.Avoids Supplied noBuffers := by
  cases h with
  | fileread hp ip iblock dst off n =>
    refine Prog.Avoids.bind ?_ fun _ => readi_avoids
    rw [ilock]
    split
    · trivial
    · exact bread_avoids.bind fun bp => brelse_avoids
  | op hp h => exact calls_avoids h

theorem stable_has (i : Idx) (b : Nat) : (rely dev).Stable p fun s => Has p i b s ∧ Idle p s :=
  (local_has i b).stable.and stable_idle

theorem bread_idle (b : Nat) : (rely dev).Triple p (Idle p) (bread p ROOTDEV b)
    fun i s => Has p i b s ∧ Idle p s :=
  (bread_triple local_true (fun _ _ _ hk => hk.elim) b).weaken (fun _ _ hs => ⟨trivial, hs⟩)
    fun _ _ _ hs => ⟨hs.1.2, hs.2.1⟩

theorem brelse_idle (i : Idx) (b : Nat) :
    (rely dev).Triple p (fun s => Has p i b s ∧ Idle p s) (brelse p i) fun _ => Idle p :=
  (brelse_triple local_true (fun hk => hk) b).weaken
    (fun _ _ hs => ⟨⟨trivial, hs.1.toHolds⟩, hs.2⟩) fun _ _ _ hs => hs.2

theorem look_idle {α : Type} (i : Idx) (b : Nat) (f : Sys → α) :
    (rely dev).Triple p (fun s => Has p i b s ∧ Idle p s) (.look (.bread b i) f)
      fun _ s => Has p i b s ∧ Idle p s := by
  refine Rely.Triple.act (stable_has i b) fun s t hs hpre _ ht => ?_
  cases ht
  refine ⟨hs, ⟨fun q _ => .refl q s, fun _ _ => rfl, fun _ _ _ _ => ⟨rfl, rfl⟩, fun c j he => ?_,
    rfl, rfl⟩, fun hi => ?_⟩
  · cases he
    exact ⟨hpre.1.block, hpre.1.root, hpre.1.holder, fun hb => hs.data_of_has hpre.1 hb⟩
  · exact Rely.Triple.ret (Q := fun _ s => Has p i b s ∧ Idle p s) (stable_has i b) s hi hpre

theorem ret_idle {α : Type} (a : α) :
    (rely dev).Triple p (Idle p) (.ret a) fun _ => Idle p :=
  Rely.Triple.ret (Q := fun _ => Idle p) stable_idle

theorem bmap_triple (bn : Nat) :
    (rely dev).Triple p (Idle p) (bmap p ip bn) fun _ => Idle p := by
  rw [bmap]
  split
  · exact ret_idle _
  · split
    · refine (bread_idle _).bind fun bp => (look_idle bp _ _).bind fun addr => ?_
      exact (brelse_idle bp _).bind fun _ => ret_idle addr
    · exact fun _ _ _ => trivial

theorem readiLoop_triple (dst : Fs.Dst) (tot : Nat) (rounds : List (Nat × Nat)) :
    (rely dev).Triple p (Idle p) (readiLoop p ip dst tot rounds) fun _ => Idle p := by
  induction rounds generalizing tot with
  | nil => exact ret_idle ()
  | cons round rest ih =>
    refine (bmap_triple _).bind fun addr => ?_
    split
    · exact ret_idle ()
    · refine (bread_idle addr).bind fun bp => (brelse_idle bp addr).bind fun _ => ?_
      split
      · exact ih _
      · exact ret_idle ()

theorem fileread_triple (ip : Fs.Inode) (iblock : Nat) (dst : Fs.Dst) (off n : Nat) :
    (rely dev).Triple p (Idle p) (fileread p ip iblock dst off n) fun _ => Idle p := by
  refine Rely.Triple.bind (M := fun _ => Idle p) ?_ fun _ => ?_
  · rw [ilock]
    split
    · exact ret_idle ()
    · exact (bread_idle iblock).bind fun bp => brelse_idle bp iblock
  · rw [readi]
    split
    · exact ret_idle ()
    · exact readiLoop_triple dst 0 _

theorem uses_safe {m : Prog Sys Label Unit} (hs : Inv dev s) (hidle : Idle p s)
    (h : Uses dev p s m) : (rely dev).Safe p (fun _ => Idle p) m s := by
  cases h with
  | fileread hp ip iblock dst off n => exact fileread_triple ip iblock dst off n s hs hidle
  | op hp h => exact calls_safe hs hidle h

section

variable {s₀ : Sys} {hist : List (Label × Sys)} {c : Conf Sys Label}

theorem Fresh.uses_inv (h₀ : Fresh s₀)
    (h : Conf.Reach (Uses dev) ⟨s₀, fun _ => .ret ()⟩ hist c) : Inv dev c.st :=
  (Rely.reach (R := rely dev) Idle h (fun _ _ _ hs hi hq => uses_safe hs hi hq) h₀.inv
    (fun p => ret_idle () s₀ h₀.inv (h₀.pending p)) fun _ _ => trivial).1

theorem Fresh.uses_guar (h₀ : Fresh s₀)
    (h : Conf.Reach (Uses dev) ⟨s₀, fun _ => .ret ()⟩ hist c) {lbl : Label}
    {upd : Sys → Option Sys} {next : Sys → Prog Sys Label Unit}
    (hp : c.prog p = .act lbl upd next) (ht : upd c.st = some t) : Guar dev p lbl c.st t :=
  Rely.reach_guar (R := rely dev) Idle h (fun _ _ _ hs hi hq => uses_safe hs hi hq) h₀.inv
    (fun p => ret_idle () s₀ h₀.inv (h₀.pending p)) (fun _ _ => trivial) hp trivial ht

theorem Fresh.uses_beyond (h₀ : Fresh s₀)
    (h : Conf.Reach (Uses dev) ⟨s₀, fun _ => .ret ()⟩ hist c) {q : Nat} (hq : NPROC ≤ q) :
    c.prog q = .ret () ∧ c.st.pending q = .none := by
  induction h with
  | init => exact ⟨rfl, h₀.pending q⟩
  | @act hist c p lbl upd next t h hp ht ih =>
    have hne : q ≠ p := by
      rintro rfl
      rw [ih.1] at hp
      cases hp
    rw [Conf.goto_other hne]
    exact ⟨ih.1, ((h₀.uses_guar h hp ht).pending q hne).trans ih.2⟩
  | @call hist c p m h hp hm ih =>
    have hlt : p < NPROC := by
      cases hm with
      | fileread hp => exact hp
      | op hp => exact hp
    rw [Conf.goto_other (by omega)]
    exact ih

end

theorem Inv.cached_of_unique (h : Inv dev s) {i : Idx} (hi : (s.buf i).dev = ROOTDEV) :
    s.cached ROOTDEV (s.buf i).blockno = some i := by
  cases hc : s.cached ROOTDEV (s.buf i).blockno with
  | none => exact absurd ⟨hi, rfl⟩ (h.refs.cached_eq_none hc i)
  | some j =>
    obtain ⟨hj, hb⟩ := Sys.cached_eq_some hc
    rw [h.coherent.unique j i hj hi hb]

-- A buffer in use has a reference, and each reference is to one buffer.
theorem Inv.victim_of_demand (h : Inv dev s) (hq : ∀ q, NPROC ≤ q → s.pending q = .none)
    (hd : s.demand < NBUF) : s.victim ≠ none := by
  intro hnone
  have hused : ∀ i, (s.buf i).refcnt ≠ 0 := fun i hi =>
    List.find?_eq_none.mp hnone i (List.mem_reverse.mpr (h.refs.listed i)) (decide_eq_true hi)
  have hsub : List.finRange NBUF ⊆
      (List.range NPROC).filterMap (fun p => (s.pending p).waits) ++
        (List.finRange NBUF).filter (fun i => (s.buf i).holder.isSome) ++
        s.log.lh.filterMap (s.cached ROOTDEV) := by
    intro i _
    obtain ⟨n, ⟨ps, hps, hcard⟩, hcount⟩ := h.refs.count i
    by_cases hhold : (s.buf i).holder = none
    · rw [if_pos hhold] at hcount
      split at hcount
      · rename_i hpin
        refine List.mem_append_right _ (List.mem_filterMap.mpr ⟨_, h.logOk.listed _ hpin.2, ?_⟩)
        exact h.cached_of_unique hpin.1
      · have hn : 0 < ps.card := by
          have hi := hused i
          omega
        obtain ⟨p, hp⟩ := Finset.card_pos.mp hn
        rw [hps] at hp
        have hlt : p < NPROC := by
          by_contra hge
          rw [hq p (by omega)] at hp
          cases hp
        refine List.mem_append_left _ (List.mem_append_left _ (List.mem_filterMap.mpr ?_))
        exact ⟨p, List.mem_range.mpr hlt, by rw [hp]; rfl⟩
    · refine List.mem_append_left _ (List.mem_append_right _ (List.mem_filter.mpr ?_))
      exact ⟨List.mem_finRange i, Option.isSome_iff_ne_none.mpr hhold⟩
  have hle := ((List.nodup_finRange NBUF).subperm hsub).length_le
  have hlog := List.length_filterMap_le (s.cached ROOTDEV) s.log.lh
  simp only [List.length_append, List.length_finRange] at hle
  rw [Sys.demand] at hd
  omega

theorem Fresh.uses_supplied {s₀ : Sys} {hist : List (Label × Sys)} {c : Conf Sys Label}
    (h₀ : Fresh s₀) (h : Conf.Reach (Uses dev) ⟨s₀, fun _ => .ret ()⟩ hist c)
    (hroom : ∀ e ∈ hist, Room e.1 e.2) : ∀ e ∈ hist, Supplied e.1 e.2 := by
  induction h with
  | init => exact fun _ he => absurd he List.not_mem_nil
  | @act hist c p lbl upd next t h hp ht ih =>
    obtain ⟨hbefore, hlast⟩ := List.forall_mem_append.mp hroom
    refine List.forall_mem_append.mpr ⟨ih hbefore, fun e he => ?_⟩
    have hr := hlast e he
    cases List.mem_singleton.mp he
    cases lbl with
    | bget d b =>
      intro hmiss
      rcases hr with hr | hr
      · exact absurd hmiss hr
      · exact (h₀.uses_inv h).victim_of_demand (fun q hq => (h₀.uses_beyond h hq).2) hr
    | _ => trivial
  | call h hp hm ih => exact ih hroom

-- In a run whose every bget() finds its block or fewer references than buffers, no
-- process finds the buffers used up.
theorem buffers_suffice {s₀ : Sys} {hist : List (Label × Sys)} {c : Conf Sys Label}
    (h₀ : Fresh s₀) (h : Conf.Reach (Uses dev) ⟨s₀, fun _ => .ret ()⟩ hist c)
    (hroom : ∀ e ∈ hist, Room e.1 e.2) (p : Nat) : c.prog p ≠ .panic "bget: no buffers" := by
  have havoids := h.avoids (fun _ => trivial) (fun _ _ _ hm => uses_avoids hm)
    (h₀.uses_supplied h hroom) p
  intro hp
  rw [hp] at havoids
  exact havoids rfl

instance (lbl : Label) (s : Sys) : Decidable (Room lbl s) :=
  match lbl with
  | .bget _ _ => inferInstanceAs (Decidable (_ ∨ _))
  | .acquiresleep | .virtioRead | .bread _ _ | .modify | .bwrite | .releasesleep | .brelse
  | .bunpin _ | .beginOp | .logWrite _ | .endOp | .commit => .isTrue trivial

-- The file of one block that process p reads.
def oneBlock (p : Nat) : Fs.Inode where
  type := .file
  major := 0
  minor := 0
  nlink := 1
  size := 1
  addrs := fun _ => 46 + p
  dev := ROOTDEV
  inum := 2 + p
  ref := 1
  lock := some p
  valid := true

def readFile (p : Nat) : Prog Sys Label Unit := fileread p (oneBlock p) 32 (fun _ _ => true) 0 1

-- The first n processes are each in bread() of a block of their own.
def readers : Nat → List (Label × Sys) × Conf Sys Label
  | 0 => booted
  | n + 1 => Conf.after n 1 (readFile n) (readers n)

theorem readers_other {n q : Nat} (hq : n ≤ q) : (readers n).2.prog q = .ret () := by
  induction n with
  | zero => rfl
  | succ n ih => exact (Conf.after_other (by omega)).trans (ih (by omega))

theorem reach_readers {n : Nat} (hn : n ≤ NPROC) :
    Conf.Reach (Uses ⟨2, LOGSIZE⟩) booted.2 (readers n).1 (readers n).2 := by
  induction n with
  | zero => exact .init
  | succ n ih =>
    exact (ih (by omega)).after n 1 (readers_other le_rfl)
      (.fileread (by omega) (oneBlock n) 32 (fun _ _ => true) 0 1)

theorem buffers_suffice_thirty : (readers 30).2.prog 29 ≠ .panic "bget: no buffers" :=
  buffers_suffice fresh_boot (reach_readers (by decide)) (by decide +kernel) 29

def message : Prog Sys Label Unit → Option String
  | .panic msg => some msg
  | _ => none

theorem panic_of_message {m : Prog Sys Label Unit} {msg : String} (h : message m = some msg) :
    m = .panic msg := by
  cases m with
  | panic msg' =>
    cases h
    rfl
  | ret a => cases h
  | act lbl upd next => cases h

-- Thirty-one processes read files of their own, and the last one finds no buffer.
theorem buffers_run_out : ∃ hist c, Conf.Reach (Uses ⟨2, LOGSIZE⟩) booted.2 hist c ∧
    c.prog 30 = .panic "bget: no buffers" :=
  ⟨_, _, reach_readers (n := 31) (by decide), panic_of_message (by decide +kernel)⟩

end Xv6.Bio
