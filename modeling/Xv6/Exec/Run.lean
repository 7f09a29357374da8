import Xv6.Exec.Args
import Xv6.Fork.Failed

namespace Xv6.Exec

open Lib Fork

def STACKPERM : Nat := PTE_R ||| PTE_U ||| PTE_W ||| PTE_V

namespace Img

-- The same pages, with the size rounded up to them.
def roundUp (img : Img) : Img := { img with sz := pagesFor img.sz * PGSIZE }

-- The stack and its guard above the image.
def stack (img : Img) : Img :=
  (img.roundUp.grow ((pagesFor img.sz + (USERSTACK + 1)) * PGSIZE) STACKPERM).protect
    (pagesFor img.sz)

variable {img : Img} {v : Nat}

theorem pagesFor_mul (n : Nat) : pagesFor (n * PGSIZE) = n := by
  unfold pagesFor PGSIZE
  omega

theorem stack_sz (img : Img) : img.stack.sz = (pagesFor img.sz + (USERSTACK + 1)) * PGSIZE := by
  have hsz := img.roundUp.grow_sz ((pagesFor img.sz + (USERSTACK + 1)) * PGSIZE) STACKPERM
  refine hsz.trans (Nat.max_eq_right ?_)
  exact Nat.mul_le_mul_right PGSIZE (Nat.le_add_right _ _)

theorem stack_pages (img : Img) : pagesFor img.stack.sz = pagesFor img.sz + (USERSTACK + 1) := by
  rw [stack_sz, pagesFor_mul]

theorem stack_byte (img : Img) : img.stack.byte = img.byte :=
  img.roundUp.grow_byte ((pagesFor img.sz + (USERSTACK + 1)) * PGSIZE) STACKPERM

theorem stack_below (hv : v < pagesFor img.sz) : img.stack.flags v = img.flags v := by
  refine (protect_other _ hv.ne).trans (grow_flags_below _ _ _ ?_)
  rwa [roundUp, pagesFor_mul]

theorem stack_above (hv : pagesFor img.sz < v) : img.stack.flags v = STACKPERM := by
  refine (protect_other _ hv.ne').trans (grow_flags_above _ _ ?_ ?_)
  · exact Nat.mul_le_mul_right PGSIZE (Nat.le_add_right _ _)
  · rw [roundUp, pagesFor_mul]
    exact hv.le

theorem stack_guard (img : Img) : img.stack.flags (pagesFor img.sz) &&& PTE_U = 0 := by
  rw [stack, protect_self]
  exact clear_PTE_U _

theorem stack_open (img : Img) : img.stack.StackAt ((pagesFor img.sz + 1) * PGSIZE) := by
  intro a hle hlt
  have hpage : pagesFor img.sz < a / PGSIZE ∧ a / PGSIZE < pagesFor img.stack.sz := by
    rw [stack_sz] at hlt
    rw [stack_pages]
    unfold USERSTACK PGSIZE at *
    omega
  refine ⟨hpage.2, ?_, ?_⟩
  · rw [stack_above hpage.1]
    decide
  · rw [stack_above hpage.1]
    decide

end Img

variable {m m' : Mem} {root n : Nat} {fixed : Nat → Nat} {T T' : Multiset Nat}
  {L L' : List (Nat × Nat)} {img : Img} {file : File} {argv : List (List UInt8)} {P : Panic → Prop}

theorem Shows.roundUp (h : Shows m root fixed T L img) : Shows m root fixed T L img.roundUp where
  space := h.space
  size := by
    rw [Img.roundUp, Img.pagesFor_mul]
    exact h.size
  flags := h.flags
  bytes := h.bytes
  beyond va hva := by
    rw [Img.roundUp, Img.pagesFor_mul] at hva
    exact h.beyond va hva

theorem allocStack_spec {Q : Option Nat → Mem → Prop} (h : Shows m root fixed T L img)
    (hfixed : High fixed)
    (hfail : ∀ m' T', Space m' root fixed T' L → m.Trade m' T T' → Q none m')
    (hdone : ∀ m' T' L', Shows m' root fixed T' L' img.stack →
      m.Trade m' (T + leaves L) (T' + leaves L') → Q (some img.stack.sz) m') :
    Wp (allocStack root (pagesFor img.sz * PGSIZE)) m P Q := by
  have hsz := img.roundUp.grow_sz ((pagesFor img.sz + (USERSTACK + 1)) * PGSIZE) STACKPERM
  have hmax : max img.roundUp.sz ((pagesFor img.sz + (USERSTACK + 1)) * PGSIZE) = img.stack.sz := by
    rw [← hsz]
    rfl
  have hbound := h.pages_le
  rw [NPAGES_eq] at hbound
  have hnew : u64 (pagesFor img.sz * PGSIZE + (USERSTACK + 1) * PGSIZE) =
      (pagesFor img.sz + (USERSTACK + 1)) * PGSIZE := by
    unfold u64 USERSTACK PGSIZE
    omega
  unfold allocStack
  rw [hnew]
  refine Wp.bind (h.roundUp.alloc hfixed (by decide) (fun m' T' h' ht' => ?_)
    fun m₁ T₁ A h₁ ht₁ => ?_)
  · rw [if_pos rfl]
    exact Wp.pure (hfail m' T' h' ht')
  · have hpos : img.stack.sz ≠ 0 := by
      rw [Img.stack_sz]
      unfold USERSTACK PGSIZE
      omega
    have hguard : u64Int ((img.stack.sz : Int) - ((USERSTACK + 1) * PGSIZE : Nat)) =
        pagesFor img.sz * PGSIZE := by
      rw [Img.stack_sz]
      unfold u64Int USERSTACK PGSIZE
      omega
    have hpages : pagesFor img.sz <
        pagesFor (img.roundUp.grow ((pagesFor img.sz + (USERSTACK + 1)) * PGSIZE) STACKPERM).sz := by
      rw [hsz, hmax, Img.stack_pages]
      unfold USERSTACK
      omega
    rw [hmax, if_neg hpos, hguard]
    refine Wp.bind (h₁.clear hpages fun m₂ L₂ h₂ hL₂ ht₂ => Wp.pure (hdone m₂ T₁ L₂ h₂ ?_))
    rw [hL₂, leaves_append, add_comm (leaves L), ← add_assoc]
    exact (ht₁.frame _).trans ((ht₂.frame (leaves A)).frame (leaves L))

-- The ELF header, if the file has one.
def File.elf (file : File) : Option Elfhdr :=
  if ELFHDR ≤ file.size ∧ (Elfhdr.decode (file.slice 0 ELFHDR)).magic = ELF_MAGIC then
    some (Elfhdr.decode (file.slice 0 ELFHDR))
  else none

theorem readElf_spec {Q : Option Elfhdr → Mem → Prop} (hnone : Q none m)
    (hsome : ∀ elf, file.elf = some elf → Q (some elf) m) : Wp (readElf file) m P Q := by
  refine Wp.bind (readi_spec (by decide) (fun hfit => ?_) fun bs hbs _ => ?_)
  · rw [if_neg (not_not.mpr (File.length_slice hfit))]
    refine Wp.ite (fun _ => Wp.pure hnone) fun hmagic => Wp.pure (hsome _ ?_)
    rw [Nat.zero_add] at hfit
    exact if_pos ⟨hfit, not_not.mp hmagic⟩
  · rw [if_pos hbs.ne]
    exact Wp.pure hnone

-- What exec() makes of an executable.
structure Program (file : File) (elf : Elfhdr) (hs : List Proghdr) (img : Img) : Prop where
  header : file.elf = some elf
  headers : file.headersAt (uint elf.phoff) elf.phnum = some hs
  loaded : ∀ ph ∈ loads hs, ph.Loaded file
  image : img = (loads hs).foldl (Img.load file) .empty

namespace State

def mem (s : State) : Mem := s.kernel.mem

def setMem (s : State) (m : Mem) : State := { s with kernel := s.kernel.setMem m }

-- In a transaction, with a locked inode.
def enter (s : State) (ip : Fin NINODE) : State where
  kernel := { s.kernel with
    inodeRef := Function.update s.kernel.inodeRef ip (s.kernel.inodeRef ip + 1) }
  outstanding := s.outstanding + 1
  locked := Function.update s.locked ip true

@[simp] theorem mem_setMem (s : State) (m : Mem) : (s.setMem m).mem = m := rfl

end State

variable {s s' : State} {p : Idx} {ip : Fin NINODE}

theorem onMem_spec {α : Type} {x : MemM α} {Q : α → State → Prop}
    (h : Wp x s.mem P fun a m => Q a (s.setMem m)) : Wp (onMem x) s P Q :=
  Wp.zoom (memory_spec h)

theorem beginOp_spec {Q : Unit → State → Prop}
    (h : Q () { s with outstanding := s.outstanding + 1 }) : Wp beginOp s P Q := h

theorem namei_spec {Q : Option (Fin NINODE × File) → State → Prop}
    (h : Q (some (ip, file)) { s with
      kernel.inodeRef := Function.update s.kernel.inodeRef ip (s.kernel.inodeRef ip + 1) }) :
    Wp (namei (some (ip, file))) s P Q := h

theorem ilock_spec {Q : Unit → State → Prop}
    (h : Q () { s with locked := Function.update s.locked ip true }) : Wp (ilock ip) s P Q := h

theorem leave_spec {Q : Unit → State → Prop} (hlocked : s.locked ip = false)
    (h : Q () (s.setMem m)) :
    Wp (leave ip) ((s.enter ip).setMem m) P Q := by
  have hends : s.setMem m = { (s.enter ip).setMem m with
      locked := Function.update (s.enter ip).locked ip false
      outstanding := s.outstanding + 1 - 1
      kernel.inodeRef := Function.update (s.enter ip).kernel.inodeRef ip
        ((s.enter ip).kernel.inodeRef ip - 1) } := by
    simp only [State.enter, State.setMem, Function.update_idem, Function.update_self,
      add_sub_cancel_right, Function.update_eq_self, ← hlocked]
    rfl
  rw [hends] at h
  exact h

theorem bad_none_spec {Q : Unit → State → Prop} (hlocked : s.locked ip = false)
    (h : Q () (s.setMem m)) : Wp (bad none 0 (some ip)) ((s.enter ip).setMem m) P Q :=
  Wp.bind (onMem_spec (Wp.pure (leave_spec hlocked h)))

theorem freeTable_spec {Q : Unit → Mem → Prop} {im : KernelImage} {tf sz : Nat}
    (h : Space m root (kernelPages im tf) T L) (hsz : L.length = pagesFor sz)
    (hdone : ∀ m', m.Trade m' (T + leaves L) 0 → Q () m') :
    Wp (freeTable sz (some root)) m P Q := procFreepagetable_spec h hsz hdone

theorem trade_back {m₀ m₁ m₂ : Mem} {X Y : Multiset Nat}
    (h : m₀.Trade m₁ X (X + Y)) (h' : m₁.Trade m₂ Y 0) : m₀.Trade m₂ X X := by
  have hgive := h.trans (h'.frame_left X)
  rwa [add_zero] at hgive

theorem loadProgram_spec {Q : Option (Nat × Nat × Nat) → State → Prop} {elf : Elfhdr} {tf : Nat}
    (helf : file.elf = some elf) (hlocked : s.locked ip = false)
    (h : Space m root (kernelPages s.mem.image tf) T []) (ht : ∀ X, s.mem.Trade m X (X + T))
    (hfail : ∀ m', (∀ X, s.mem.Trade m' X X) → Q none (s.setMem m'))
    (hdone : ∀ m' T' L' hs img, Program file elf hs img →
      Shows m' root (kernelPages s.mem.image tf) T' L' img.stack →
      (∀ X, s.mem.Trade m' X (X + (T' + leaves L'))) →
      Q (some (elf.entry, root, img.stack.sz)) (s.setMem m')) :
    Wp (loadProgram ip file elf root) ((s.enter ip).setMem m) P Q := by
  have hempty := Shows.empty h
  refine Wp.bind (onMem_spec (loadSegments_spec hempty High.kernelPages (fun v hv => ?_)
    (fun m₁ T₁ L₁ sz h₁ hsz ht₁ => ?_) fun m₁ T₁ L₁ hs img hheaders hloaded himg _ h₁ ht₁ => ?_))
  · exact absurd hv (Nat.not_lt_zero v)
  · rw [leaves_nil, add_zero] at ht₁
    dsimp only
    rw [if_pos rfl]
    refine Wp.bind (Wp.bind (onMem_spec (freeTable_spec h₁ hsz fun m₂ ht₂ => ?_)))
    refine leave_spec hlocked (Wp.pure (hfail m₂ fun X => ?_))
    exact trade_back ((ht X).trans (ht₁.frame_left X)) ht₂
  · rw [leaves_nil, add_zero] at ht₁
    have hround : PGROUNDUP img.sz = pagesFor img.sz * PGSIZE :=
      PGROUNDUP_pages le_rfl h₁.pages_le
    have htrade : ∀ X, s.mem.Trade m₁ X (X + (T₁ + leaves L₁)) := fun X =>
      (ht X).trans (ht₁.frame_left X)
    dsimp only
    rw [if_neg (by decide), hround]
    refine Wp.bind (leave_spec hlocked (Wp.bind (onMem_spec (allocStack_spec h₁ High.kernelPages
      (fun m₂ T₂ h₂ ht₂ => ?_) fun m₂ T₂ L₂ h₂ ht₂ => ?_))))
    · refine Wp.bind (Wp.bind (onMem_spec (freeTable_spec h₂ ?_ fun m₃ ht₃ =>
        Wp.pure (Wp.pure (hfail m₃ fun X => ?_)))))
      · rw [Img.pagesFor_mul]
        exact h₁.size
      · exact trade_back ((htrade X).trans ((ht₂.frame (leaves L₁)).frame_left X)) ht₃
    · exact Wp.pure (hdone m₂ T₂ L₂ hs img ⟨helf, hheaders, hloaded, himg⟩ h₂ fun X =>
        (htrade X).trans (ht₂.frame_left X))

-- The process p, whose address space has the interior pages T and the user pages L, calls exec().
structure Ready (p : Idx) (s : State) (T : Multiset Nat) (L : List (Nat × Nat)) : Prop where
  space : UserSpace s.mem (s.kernel.proc p).pagetable (s.kernel.proc p).sz
    (s.kernel.proc p).trapframe T L
  owned : s.mem.Owned (T + leaves L + {(s.kernel.proc p).trapframe})
  unlocked : s.locked = fun _ => false

theorem Ready.trapframe_lt (h : Ready p s T L) :
    (s.kernel.proc p).trapframe < 0x10000000000000000 :=
  (h.owned.ok_held (by simp)).lt.trans (by decide)

theorem buildImage_spec {Q : Option (Nat × Nat × Nat) → State → Prop}
    {found : Option (Fin NINODE × File)} (h : Ready p s T L)
    (hfail : ∀ m', (∀ X, s.mem.Trade m' X X) → Q none (s.setMem m'))
    (hdone : ∀ m' T' L' ip file elf hs img root, found = some (ip, file) →
      Program file elf hs img →
      Shows m' root (kernelPages s.mem.image (s.kernel.proc p).trapframe) T' L' img.stack →
      (∀ X, s.mem.Trade m' X (X + (T' + leaves L'))) →
      Q (some (elf.entry, root, img.stack.sz)) (s.setMem m')) :
    Wp (buildImage p found) s P Q := by
  have hsame : ∀ X, s.mem.Trade s.mem X X := fun X => .refl
  unfold buildImage
  cases found with
  | none =>
    have hends : s.setMem s.mem = { s with outstanding := s.outstanding + 1 - 1 } := by
      rw [add_sub_cancel_right]
      rfl
    have hq := hfail s.mem hsame
    rw [hends] at hq
    exact hq
  | some found =>
    obtain ⟨ip, file⟩ := found
    have hlocked : s.locked ip = false := by rw [h.unlocked]
    have hown : s.mem.Owned 0 := h.owned.mono (Multiset.zero_le _)
    refine Wp.bind (beginOp_spec (Wp.bind (namei_spec (Wp.bind (ilock_spec ?_)))))
    show Wp _ ((s.enter ip).setMem s.mem) P Q
    refine Wp.bind (onMem_spec (readElf_spec ?_ fun elf helf => Wp.bind (Wp.get (Wp.bind
      (onMem_spec (procPagetable_spec hown h.trapframe_lt (fun m' ht' => ?_)
        fun root m' T' h' ht' => ?_))))))
    · exact Wp.bind (bad_none_spec hlocked (Wp.pure (hfail s.mem hsame)))
    · exact Wp.bind (bad_none_spec hlocked (Wp.pure (hfail m' ht')))
    · have hempty : Space m' root (kernelPages s.mem.image (s.kernel.proc p).trapframe) T' [] := h'
      show Wp (loadProgram ip file elf root) ((s.enter ip).setMem m') P Q
      refine loadProgram_spec helf hlocked hempty ht' hfail ?_
      intro m'' T'' L'' hs img hprog h'' ht''
      exact hdone m'' T'' L'' ip file elf hs img root rfl hprog h'' ht''

theorem setReg_spec {Q : Unit → Mem → Prop} {tf r v : Nat} (h : Q () (m.store tf r v)) :
    Wp (setReg tf r v) m P Q := h

-- The process after a successful exec().
def execed (q : Proc) (path : List UInt8) (pagetable sz : Nat) : Proc :=
  { q with
    name := safestrcpy q.name fun i => (lastName path path).getD i 0
    pagetable := pagetable
    sz := sz }

-- The registers that exec() sets.
structure Registers (m : Mem) (tf entry sp : Nat) : Prop where
  a1 : m.load tf A1 = sp
  epc : m.load tf EPC = entry
  sp : m.load tf SP = sp

theorem registers_store {tf entry sp : Nat} (m : Mem) (hentry : entry < 0x10000000000000000)
    (hsp : sp < 0x10000000000000000) :
    Registers (((m.store tf A1 sp).store tf EPC entry).store tf SP sp) tf entry sp where
  a1 := by
    rw [Mem.load_store_index _ (by decide), Mem.load_store_index _ (by decide),
      Mem.load_store_self _ (by decide) hsp]
  epc := by
    rw [Mem.load_store_index _ (by decide), Mem.load_store_self _ (by decide) hentry]
  sp := Mem.load_store_self _ (by decide) hsp

theorem commit_spec {Q : Unit → Kernel → Prop} {k : Kernel} {T₀ : Multiset Nat}
    {L₀ : List (Nat × Nat)} {path : List UInt8} {entry sz sp : Nat}
    (hold : UserSpace k.mem (k.proc p).pagetable (k.proc p).sz (k.proc p).trapframe T₀ L₀)
    (hown : k.mem.Owned (T₀ + leaves L₀ + {(k.proc p).trapframe} + (T + leaves L)))
    (h : Shows k.mem root fixed T L img) (hentry : entry < 0x10000000000000000)
    (hsp : sp < 0x10000000000000000)
    (hdone : ∀ m', Shows m' root fixed T L img → Registers m' (k.proc p).trapframe entry sp →
      k.mem.Trade m' (T₀ + leaves L₀ + {(k.proc p).trapframe}) {(k.proc p).trapframe} →
      Q () ((k.setMem m').put p (execed (k.proc p) path root sz))) :
    Wp (commit p path entry root sz sp) k P Q := by
  have hself := Multiset.mem_singleton_self (k.proc p).trapframe
  have hregs : Registers _ (k.proc p).trapframe entry sp := registers_store k.mem hentry hsp
  have ht := ((Mem.Trade.store (m := k.mem) (k := A1) (v := sp) hself).trans
    (.store (k := EPC) (v := entry) hself)).trans (.store (k := SP) (v := sp) hself)
  refine Wp.bind (Wp.get (Wp.bind (memory_spec (setReg_spec (Wp.bind (setProc_spec (Wp.bind
    (memory_spec (setReg_spec (Wp.bind (memory_spec (setReg_spec (memory_spec
      (procFreepagetable_spec (hold.space.frame ht hown.left) hold.size ?_))))))))))))))
  intro m' (ht' : Mem.Trade (((k.mem.store _ A1 sp).store _ EPC entry).store _ SP sp) m' _ _)
  have hboth := ht.frame_left (T₀ + leaves L₀)
  have hown₃ := hboth.owned hown.left
  have htotal := hboth.trans (ht'.frame {(k.proc p).trapframe})
  rw [zero_add] at htotal
  have hpage := ht'.unchanged (add_comm (T₀ + leaves L₀) _ ▸ hown₃) hself
  refine hdone m' (h.frame htotal (add_comm _ (T + leaves L) ▸ hown)) ⟨?_, ?_, ?_⟩ htotal
  · rw [Mem.load, hpage]
    exact hregs.a1
  · rw [Mem.load, hpage]
    exact hregs.epc
  · rw [Mem.load, hpage]
    exact hregs.sp

-- The state after a successful exec().
def State.replace (s : State) (p : Idx) (path : List UInt8) (root sz : Nat) (m : Mem) : State :=
  { s with kernel := (s.kernel.setMem m).put p (execed (s.kernel.proc p) path root sz) }

theorem Img.pushArgv_sz (img : Img) (argv : List (List UInt8)) : (img.pushArgv argv).sz = img.sz :=
  img.pushStrings_sz img.sz argv

variable {path : List UInt8} {found : Option (Fin NINODE × File)} {elf : Elfhdr} {hs : List Proghdr}

theorem Program.entry_lt (h : Program file elf hs img) : elf.entry < 0x10000000000000000 := by
  have helf := h.header
  unfold File.elf at helf
  split at helf
  · cases helf
    exact field_lt _ 24 8
  · cases helf

-- From the arguments on, only lack of stack makes exec() fail.
theorem finish_spec {Q : Int → State → Prop} (h : Ready p s T L)
    (hprog : Program file elf hs img)
    (hshows : Shows m root (kernelPages s.mem.image (s.kernel.proc p).trapframe) T' L' img.stack)
    (ht : ∀ X, s.mem.Trade m X (X + (T' + leaves L')))
    (hlen : ∀ a ∈ argv, a.length < PGSIZE) (hcount : argv.length < MAXARG)
    (hfail : ∀ m', USERSTACK * PGSIZE < argRoom argv → (∀ X, s.mem.Trade m' X X) →
      Q (-1) (s.setMem m'))
    (hdone : ∀ m', argRoom argv ≤ USERSTACK * PGSIZE →
      Shows m' root (kernelPages s.mem.image (s.kernel.proc p).trapframe) T' L'
        (img.stack.pushArgv argv) →
      Registers m' (s.kernel.proc p).trapframe elf.entry (img.stack.sz - argRoom argv) →
      s.mem.Trade m' (T + leaves L + {(s.kernel.proc p).trapframe})
        (T' + leaves L' + {(s.kernel.proc p).trapframe}) →
      Q argv.length (s.replace p path root img.stack.sz m')) :
    Wp (finish p path argv elf.entry root img.stack.sz) (s.setMem m) P Q := by
  have hsz := img.stack_sz
  have hmod : img.stack.sz % 16 = 0 := by
    rw [hsz]
    unfold PGSIZE
    omega
  refine Wp.bind (onMem_spec (pushArgv_spec hshows ?_ ?_ img.stack_open hmod hlen hcount
    (fun m' hless h' ht' => ?_) fun m' hfits h' ht' => ?_))
  · rw [hsz]
    unfold USERSTACK PGSIZE
    omega
  · unfold PGSIZE
    omega
  · refine Wp.bind (Wp.bind (onMem_spec (freeTable_spec h' hshows.size fun m'' ht'' =>
      Wp.pure (Wp.pure (hfail m'' hless fun X => ?_)))))
    exact trade_back ((ht X).trans ((ht'.frame_left T').frame_left X)) ht''
  · have htotal : ∀ X, s.mem.Trade m' X (X + (T' + leaves L')) := fun X =>
      (ht X).trans ((ht'.frame_left T').frame_left X)
    have hold : UserSpace m' (s.kernel.proc p).pagetable (s.kernel.proc p).sz
        (s.kernel.proc p).trapframe T L := by
      refine ⟨?_, h.space.size, h.space.guard⟩
      rw [(htotal 0).image]
      exact h.space.space.take htotal
    have hown := (htotal _).owned h.owned
    have hsp : img.stack.sz - argRoom argv < 0x10000000000000000 := by
      have hpages := hshows.pages_le
      rw [NPAGES_eq] at hpages
      have := pagesFor_le hpages
      omega
    have hcommit : Wp (commit p path elf.entry root img.stack.sz (img.stack.sz - argRoom argv))
        (s.kernel.setMem m') P fun _ k => Q argv.length { s with kernel := k } := by
      refine commit_spec hold hown h' hprog.entry_lt hsp fun m'' h'' hregs ht'' =>
        hdone m'' hfits h'' hregs ?_
      rw [add_comm (T' + leaves L')]
      exact (htotal _).trans (ht''.frame (T' + leaves L'))
    exact Wp.bind (Wp.zoom hcommit)

theorem exec_spec {Q : Int → State → Prop} (h : Ready p s T L)
    (hlen : ∀ a ∈ argv, a.length < PGSIZE) (hcount : argv.length < MAXARG)
    (hfail : ∀ m', (∀ X, s.mem.Trade m' X X) → Q (-1) (s.setMem m'))
    (hdone : ∀ m' T' L' ip file elf hs img root, found = some (ip, file) →
      Program file elf hs img → argRoom argv ≤ USERSTACK * PGSIZE →
      Shows m' root (kernelPages s.mem.image (s.kernel.proc p).trapframe) T' L'
        (img.stack.pushArgv argv) →
      Registers m' (s.kernel.proc p).trapframe elf.entry (img.stack.sz - argRoom argv) →
      s.mem.Trade m' (T + leaves L + {(s.kernel.proc p).trapframe})
        (T' + leaves L' + {(s.kernel.proc p).trapframe}) →
      Q argv.length (s.replace p path root img.stack.sz m')) :
    Wp (exec p path found argv) s P Q := by
  refine Wp.bind (buildImage_spec h (fun m' ht' => Wp.pure (hfail m' ht')) ?_)
  intro m' T' L' ip file elf hs img root hfound hprog h' ht'
  exact finish_spec h hprog h' ht' hlen hcount (fun m'' _ => hfail m'')
    fun m'' => hdone m'' T' L' ip file elf hs img root hfound hprog

theorem exec_of_build {Q : Int → State → Prop} {x : Nat × Nat × Nat} (h : Ready p s T L)
    (hbuild : buildImage p found s = .ok (some x, s')) (hlen : ∀ a ∈ argv, a.length < PGSIZE)
    (hcount : argv.length < MAXARG)
    (hfail : ∀ s', USERSTACK * PGSIZE < argRoom argv → Q (-1) s')
    (hdone : ∀ s', argRoom argv ≤ USERSTACK * PGSIZE → Q argv.length s') :
    Wp (exec p path found argv) s P Q := by
  have hwp : Wp (buildImage p found) s (fun _ => False) fun r s₁ => ∀ x, r = some x →
      Wp (finish p path argv x.1 x.2.1 x.2.2) s₁ P Q := by
    refine buildImage_spec h (fun _ _ x hx => by cases hx) ?_
    intro m' T' L' ip file elf hs img root _ hprog h' ht' x hx
    cases hx
    exact finish_spec h hprog h' ht' hlen hcount (fun m'' hless _ => hfail _ hless)
      fun m'' hfits _ _ _ => hdone _ hfits
  exact Wp.bind (Wp.of_ok hbuild (hwp.ok hbuild x rfl))

end Xv6.Exec
