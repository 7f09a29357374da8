import Xv6.Mkfs.Build
import Xv6.Mkfs.Sector

namespace Xv6.Mkfs

open Fs Lib

theorem iblock_bounds {n : Nat} (hn : n < NINODES) :
    1 < IBLOCK n Sector.inodestart ∧ IBLOCK n Sector.inodestart < nmeta - 1 := by
  have hipb : IPB = 16 := by decide
  have hstart : Sector.inodestart = 32 := by decide
  have hmeta : nmeta = 46 := by decide
  have hinodes : NINODES = 200 := rfl
  rw [IBLOCK, hipb]
  omega

@[simp] theorem winode_self (n : Nat) (d : Dinode) (m : Mk) : (winode n d m).dinode n = d :=
  Function.update_self ..

theorem fixRoot_other (m : Mk) {n : Nat} (hn : n ≠ ROOTINO) :
    (fixRoot m).dinode n = m.dinode n := Function.update_of_ne hn _ _

theorem nmeta_lt : nmeta < FSSIZE := by decide

-- The sectors m' hold the image m.
structure Sim (m : Mk) (m' : Store) : Prop where
  agree : m.toStore.Agree m'
  dinode : ∀ n, n < NINODES →
    (m'.data (IBLOCK n Sector.inodestart)).dinode (n % IPB) = m.dinode n
  fits : ∀ n, (m.dinode n).Fits
  superblock : m'.data 1 = superblock

namespace Sim

variable {m : Mk} {m' : Store} {n inum : Nat} {d : Dinode}

theorem rsect_inode (hn : n < NINODES) : rsect (IBLOCK n Sector.inodestart) m' =
    some (m'.data (IBLOCK n Sector.inodestart)) := by
  have hb := iblock_bounds hn
  have hlt := nmeta_lt
  rw [rsect, if_pos (by omega)]

theorem rinode (h : Sim m m') (hn : n < NINODES) : Sector.rinode n m' = some (m.dinode n) := by
  rw [Sector.rinode, rsect_inode hn, ← h.dinode n hn]
  rfl

theorem winode (h : Sim m m') (hn : n < NINODES) (hd : d.Fits) :
    ∃ r, Sector.winode n d m' = some r ∧ Sim (Mkfs.winode n d m) r := by
  have hb := iblock_bounds hn
  have hipb : 0 < IPB := by decide
  refine ⟨wsect (IBLOCK n Sector.inodestart)
    ((m'.data (IBLOCK n Sector.inodestart)).setDinode (n % IPB) d) m',
    by rw [Sector.winode, rsect_inode hn]; rfl, ⟨fun b hb' => ?_, h.agree.freeinode,
    h.agree.freeblock⟩, fun k hk => ?_, fun k => ?_, ?_⟩
  · exact (Function.update_of_ne (by omega) _ _).trans (h.agree.data b hb')
  · show ((Function.update m'.data _ _) _).dinode _ = Function.update m.dinode n d k
    by_cases hkn : k = n
    · subst hkn
      rw [Function.update_self, Function.update_self]
      exact Block.dinode_setDinode (Nat.mod_lt _ hipb) hd
    · rw [Function.update_of_ne hkn, ← h.dinode k hk]
      by_cases hblock : IBLOCK k Sector.inodestart = IBLOCK n Sector.inodestart
      · rw [hblock, Function.update_self]
        refine Block.dinode_setDinode_other (Nat.mod_lt _ hipb) (fun hmod => hkn ?_) d
        have hdk := Nat.div_add_mod k IPB
        have hdn := Nat.div_add_mod n IPB
        have hdiv : k / IPB = n / IPB := by
          unfold IBLOCK at hblock
          omega
        rw [hdiv, hmod] at hdk
        omega
      · rw [Function.update_of_ne hblock]
  · show (Function.update m.dinode n d k).Fits
    by_cases hkn : k = n
    · rw [hkn, Function.update_self]
      exact hd
    · rw [Function.update_of_ne hkn]
      exact h.fits k
  · have hne : 1 ≠ IBLOCK n Sector.inodestart := by omega
    rw [wsect_other _ hne]
    exact h.superblock

end Sim

theorem Mk.Ok.fits {m : Mk} (h : m.Ok) {n : Nat} (ht : (m.dinode n).type ≠ .free) :
    (m.dinode n).size < 2 ^ 32 ∧ ∀ k, (m.dinode n).addrs k < 2 ^ 32 := by
  have hsmall := h.blocks.small n ht
  have hmax : MAXFILE * BSIZE < 2 ^ 32 := by decide
  refine ⟨by omega, fun k => ?_⟩
  by_cases hk : (m.dinode n).addrs k = 0
  · rw [hk]
    decide
  · have hlt := (h.blocks.alloc.owned (n, .addr k) _ ⟨ht, rfl, hk⟩).2.1
    exact Nat.lt_trans hlt sb.size_lt

-- iappend() on the inodes and on the sectors.
theorem iappend_sim {m : Mk} {m' : Store} {inum : Nat} (hok : m.Ok)
    (ht : (m.dinode inum).type ≠ .free) (hn : inum < NINODES) (h : Sim m m') (bs : List UInt8) :
    Option.Rel (fun r r' => Appended m inum bs r ∧ Sim r r') (iappend inum bs m)
      (Sector.iappend inum bs m') := by
  have hloop := iappendLoop_spec ht (Nat.le_refl _) (Nat.zero_le _) (hok.appending ht bs) h.agree
  rw [Nat.add_zero, Nat.sub_zero, List.drop_zero] at hloop
  unfold iappend Sector.iappend
  rw [h.rinode hn]
  dsimp only [bind, Option.bind]
  cases hl : iappendLoop (m.dinode inum) bs (chunks bs.length (m.dinode inum).size bs.length)
      m.toStore with
  | none =>
    rw [hl] at hloop
    cases hl' : iappendLoop (m.dinode inum) bs
        (chunks bs.length (m.dinode inum).size bs.length) m' with
    | none => exact .none
    | some r' =>
      rw [hl'] at hloop
      cases hloop
  | some r =>
    obtain ⟨r', hr', hd, hagree, hframe, happ⟩ := exists_of_rel hloop hl
    rw [hr']
    have hdone := happ.finish hok ht
    have hsim : Sim { m with toStore := r.2 } r'.2 := by
      refine ⟨hagree, fun n hn => ?_, h.fits, ?_⟩
      · have hb := iblock_bounds hn
        rw [hframe _ (by omega)]
        exact h.dinode n hn
      · rw [hframe _ (by decide)]
        exact h.superblock
    have hself : (winode inum { r.1 with size := (m.dinode inum).size + bs.length }
        { m with toStore := r.2 }).dinode inum =
        { r.1 with size := (m.dinode inum).size + bs.length } := Function.update_self ..
    have htype : r.1.type ≠ .free := by
      rw [happ.same]
      exact ht
    have hfits := hdone.ok.fits (n := inum) (by rw [hself]; exact htype)
    rw [hself] at hfits
    obtain ⟨hmajor, hminor, hnlink, -, -⟩ := h.fits inum
    obtain ⟨r₂, hr₂, hsim₂⟩ := hsim.winode hn
      (d := { r.1 with size := (m.dinode inum).size + bs.length })
      ⟨by rw [happ.same]; exact hmajor, by rw [happ.same]; exact hminor,
        by rw [happ.same]; exact hnlink, hfits.1, hfits.2⟩
    dsimp only
    rw [hd, hr₂]
    exact .some ⟨hdone, hsim₂⟩

-- An inode that ialloc() has made.
structure Made (type : InodeType) (d : Dinode) : Prop where
  type : d.type = type
  major : d.major = 0
  minor : d.minor = 0
  nlink : d.nlink = 1

-- The image has the entries es in the root directory and the files with the given
-- contents, in the order of their inodes.
structure Built (es : List Dirent) (bodies : List (List UInt8)) (m : Mk) : Prop where
  ok : m.Ok
  freeinode : m.freeinode = bodies.length + 2
  root : Made .dir (m.dinode ROOTINO)
  entries : m.contents ROOTINO = es.flatMap Dirent.encode
  file : ∀ k body, bodies[k]? = some body → Made .file (m.dinode (k + 2)) ∧
    m.contents (k + 2) = body
  free : ∀ n, n = 0 ∨ bodies.length + 2 ≤ n → m.dinode n = Dinode.zero

theorem ok_empty : empty.Ok := by
  refine ⟨⟨⟨fun b hb => ?_, fun o b ho => absurd rfl ho.1, fun o _ b ho => absurd rfl ho.1,
    List.nodup_nil, by simp, fun _ b _ hb => .inl ?_⟩, fun n hn => absurd rfl hn,
    fun n hn => absurd rfl hn, fun n hn => absurd rfl hn⟩, ⟨fun _ _ => rfl, nmeta_lt.le⟩,
    fun _ _ _ _ => rfl⟩
  · rw [nmeta_sb] at hb
    exact decide_eq_true hb
  · rw [nmeta_sb]
    exact of_decide_eq_true hb

section Ialloc

variable {m : Mk} {type : InodeType}

theorem contents_ialloc (type : InodeType) (n : Nat) : (ialloc type m).contents n =
    if n = m.freeinode then [] else m.contents n := by
  unfold Mk.contents Sys.contents
  show bytesOf (content m.data (Function.update m.dinode m.freeinode _ n)) 0
    (Function.update m.dinode m.freeinode _ n).size = _
  by_cases hn : n = m.freeinode
  · rw [if_pos hn, hn, Function.update_self]
    rfl
  · rw [if_neg hn, Function.update_of_ne hn]
    rfl

theorem Mk.Ok.ialloc (h : m.Ok) (hfree : m.dinode m.freeinode = Dinode.zero) (type : InodeType) :
    (ialloc type m).Ok := by
  have hblocks := h.blocks.assign (n := m.freeinode)
    (d := { Dinode.zero with type := type, nlink := 1 }) (.inl (by rw [hfree]; rfl)) rfl rfl
  refine ⟨hblocks.congr rfl rfl rfl, ⟨h.fresh.data, h.fresh.le⟩, fun n l hl hsize => ?_⟩
  show (Function.update m.dinode m.freeinode _ n).addrs l = 0
  by_cases hn : n = m.freeinode
  · rw [hn, Function.update_self]
    rfl
  · have hsize' : (Function.update m.dinode m.freeinode
      { Dinode.zero with type := type, nlink := 1 } n).size ≤ l.val * BSIZE := hsize
    rw [Function.update_of_ne hn] at hsize' ⊢
    exact h.tight n l hl hsize'

theorem Sim.ialloc {m' : Store} (h : Sim m m') (hn : m.freeinode < NINODES) (type : InodeType) :
    ∃ r, Sector.ialloc type m' = some (m.freeinode, r) ∧ Sim (ialloc type m) r := by
  have hbump : Sim { m with freeinode := m.freeinode + 1 }
      { m' with freeinode := m'.freeinode + 1 } := by
    refine ⟨⟨h.agree.data, ?_, h.agree.freeblock⟩, h.dinode, h.fits, h.superblock⟩
    exact congrArg (· + 1) h.agree.freeinode
  obtain ⟨r, hr, hsim⟩ := hbump.winode hn (d := { Dinode.zero with type := type, nlink := 1 })
    ⟨show short 0 = 0 by decide, show short 0 = 0 by decide, show short 1 = 1 by decide,
      show 0 < 2 ^ 32 by decide, fun _ => show 0 < 2 ^ 32 by decide⟩
  refine ⟨r, ?_, hsim⟩
  rw [Sector.ialloc, h.agree.freeinode]
  show (Sector.winode m.freeinode _ _).bind _ = _
  rw [← h.agree.freeinode] at hr ⊢
  rw [hr]
  rfl

end Ialloc

theorem Made.appended {type : InodeType} {m r : Mk} {inum : Nat} {bs : List UInt8}
    (h : Made type (m.dinode inum)) (ha : Appended m inum bs r) : Made type (r.dinode inum) := by
  obtain ⟨addrs, hdinode⟩ := ha.dinode
  rw [hdinode, Function.update_self]
  exact ⟨h.type, h.major, h.minor, h.nlink⟩

namespace Built

variable {es : List Dirent} {bodies : List (List UInt8)} {body bs : List UInt8} {m r : Mk}

theorem root_alloc (h : Built es bodies m) : (m.dinode ROOTINO).type ≠ .free := by
  rw [h.root.type]
  decide

theorem file_alloc (h : Built es bodies m) {k : Nat} (hk : k < bodies.length) :
    (m.dinode (k + 2)).type ≠ .free := by
  obtain ⟨hmade, -⟩ := h.file k _ (List.getElem?_eq_getElem hk)
  rw [hmade.type]
  decide

theorem start : Built [] [] (ialloc .dir empty) := by
  refine ⟨ok_empty.ialloc rfl .dir, rfl, ⟨rfl, rfl, rfl, rfl⟩, rfl, (fun k body hk => by cases hk),
    fun n hn => ?_⟩
  refine Function.update_of_ne (fun heq => ?_) _ _
  have heq' : n = 1 := heq
  omega

theorem ialloc (h : Built es bodies m) : Built es (bodies ++ [[]]) (ialloc .file m) := by
  have hfb := h.freeinode
  have hother : ∀ n, n ≠ m.freeinode → (Mkfs.ialloc .file m).dinode n = m.dinode n :=
    fun n hn => Function.update_of_ne hn _ _
  have hroot : ROOTINO ≠ m.freeinode := by
    rw [hfb]
    unfold ROOTINO
    omega
  refine ⟨h.ok.ialloc (h.free _ (.inr (by omega))) .file, ?_, ?_, ?_, fun k body hk => ?_,
    fun n hn => ?_⟩
  · show m.freeinode + 1 = _
    rw [hfb, List.length_append]
    rfl
  · rw [hother _ hroot]
    exact h.root
  · rw [contents_ialloc, if_neg hroot]
    exact h.entries
  · by_cases hlt : k < bodies.length
    · rw [List.getElem?_append_left hlt] at hk
      rw [hother _ (by omega), contents_ialloc, if_neg (by omega)]
      exact h.file k body hk
    · have hk' := List.getElem?_eq_some_iff.mp hk
      obtain ⟨hlt', -⟩ := hk'
      rw [List.length_append] at hlt'
      have hlast : k = bodies.length := by
        simp only [List.length_cons, List.length_nil] at hlt'
        omega
      subst hlast
      have hbody : body = [] := by
        simpa using hk.symm
      rw [contents_ialloc, if_pos hfb.symm, hbody]
      refine ⟨?_, rfl⟩
      have hself : (Mkfs.ialloc .file m).dinode (bodies.length + 2) =
          { Dinode.zero with type := .file, nlink := 1 } := by
        rw [← hfb]
        exact Function.update_self ..
      rw [hself]
      exact ⟨rfl, rfl, rfl, rfl⟩
  · simp only [List.length_append, List.length_cons, List.length_nil] at hn
    rw [hother n (by omega)]
    exact h.free n (by omega)

theorem entry (h : Built es bodies m) {de : Dirent} (ha : Appended m ROOTINO de.encode r) :
    Built (es ++ [de]) bodies r := by
  obtain ⟨addrs, hdinode⟩ := ha.dinode
  have hother : ∀ n, n ≠ ROOTINO → r.dinode n = m.dinode n := fun n hn => by
    rw [hdinode, Function.update_of_ne hn]
  refine ⟨ha.ok, ha.freeinode.trans h.freeinode, h.root.appended ha, ?_,
    fun k body hk => ?_, fun n hn => ?_⟩
  · rw [ha.contents, h.entries, List.flatMap_append]
    simp
  · have hne : k + 2 ≠ ROOTINO := by
      unfold ROOTINO
      omega
    have hlt := (List.getElem?_eq_some_iff.mp hk).1
    rw [hother _ hne, ha.others _ hne (h.file_alloc hlt)]
    exact h.file k body hk
  · rw [hother n (by unfold ROOTINO; omega)]
    exact h.free n hn

-- Bytes are appended to the last file.
theorem append (h : Built es (bodies ++ [body]) m) (ha : Appended m (bodies.length + 2) bs r) :
    Built es (bodies ++ [body ++ bs]) r := by
  obtain ⟨addrs, hdinode⟩ := ha.dinode
  have hlen : (bodies ++ [body]).length = bodies.length + 1 := by simp
  have hother : ∀ n, n ≠ bodies.length + 2 → r.dinode n = m.dinode n := fun n hn => by
    rw [hdinode, Function.update_of_ne hn]
  have hroot : ROOTINO ≠ bodies.length + 2 := by
    unfold ROOTINO
    omega
  obtain ⟨hmade, hold⟩ := h.file bodies.length body (by simp)
  refine ⟨ha.ok, ?_, ?_, ?_, fun k body' hk => ?_, fun n hn => ?_⟩
  · rw [ha.freeinode, h.freeinode, hlen]
    simp
  · rw [hother _ hroot]
    exact h.root
  · rw [ha.others _ hroot h.root_alloc]
    exact h.entries
  · by_cases hlt : k < bodies.length
    · rw [List.getElem?_append_left hlt] at hk
      have hne : k + 2 ≠ bodies.length + 2 := by omega
      rw [hother _ hne, ha.others _ hne (h.file_alloc (by omega))]
      exact h.file k body' (by rw [List.getElem?_append_left hlt]; exact hk)
    · have hlt' := (List.getElem?_eq_some_iff.mp hk).1
      have hlast : k = bodies.length := by
        simp only [List.length_append, List.length_cons, List.length_nil] at hlt'
        omega
      subst hlast
      have hbody : body' = body ++ bs := by simpa using hk.symm
      exact ⟨hmade.appended ha, by rw [ha.contents, hold, hbody]⟩
  · simp only [List.length_append, List.length_cons, List.length_nil] at hn
    rw [hother n (by omega)]
    exact h.free n (by rw [hlen]; omega)

end Built

def rootEntries (files : List HostFile) : List Dirent :=
  ⟨ROOTINO, DOT⟩ :: ⟨ROOTINO, DOTDOT⟩ :: files.mapIdx fun k f => ⟨k + 2, f.name⟩

theorem rootEntries_append (files : List HostFile) (f : HostFile) :
    rootEntries (files ++ [f]) = rootEntries files ++ [⟨files.length + 2, f.name⟩] := by
  simp [rootEntries]

-- The files have been added, on the inodes and on the sectors.
def Added (files : List HostFile) (m : Mk) (m' : Store) : Prop :=
  Built (rootEntries files) (files.map HostFile.contents) m ∧ Sim m m'

section Main

variable {m : Mk} {m' : Store} {es : List Dirent} {bodies : List (List UInt8)} {body : List UInt8}
  {files : List HostFile}

theorem copy_sim (h : Built es (bodies ++ [body]) m) (hsim : Sim m m')
    (hn : bodies.length + 2 < NINODES) (reads : List (List UInt8)) :
    Option.Rel (fun r r' => Built es (bodies ++ [body ++ reads.flatten]) r ∧ Sim r r')
      (copy (bodies.length + 2) reads m) (Sector.copy (bodies.length + 2) reads m') := by
  induction reads generalizing m m' body with
  | nil =>
    rw [List.flatten_nil, List.append_nil]
    exact .some ⟨h, hsim⟩
  | cons bs rest ih =>
    have halloc := h.file_alloc (k := bodies.length) (by simp)
    refine rel_bind (iappend_sim h.ok halloc hn hsim bs) fun r r' _ _ hr => ?_
    have hrest := ih (h.append hr.1) hr.2
    rw [List.append_assoc] at hrest
    exact hrest

theorem addFile_sim (h : Added files m m') (hn : files.length + 2 < NINODES) (f : HostFile) :
    Option.Rel (Added (files ++ [f])) (addFile f m) (Sector.addFile f m') := by
  obtain ⟨hbuilt, hsim⟩ := h
  unfold addFile Sector.addFile
  split
  · have hfree := hbuilt.freeinode
    rw [List.length_map] at hfree
    obtain ⟨r₀, hr₀, hsim₀⟩ := hsim.ialloc (by omega) .file
    have hbuilt₀ := hbuilt.ialloc
    have hroot : ROOTINO < NINODES := by decide
    rw [hr₀]
    show Option.Rel _ ((iappend ROOTINO _ _).bind _) ((Sector.iappend ROOTINO _ _).bind _)
    refine rel_bind (iappend_sim hbuilt₀.ok hbuilt₀.root_alloc hroot hsim₀ _) fun r r' _ _ hr => ?_
    have hentry := hbuilt₀.entry hr.1
    rw [hfree, ← rootEntries_append] at hentry
    have hcopy := copy_sim hentry hr.2 (by rwa [List.length_map]) f.reads
    rw [List.length_map] at hcopy
    rw [hfree]
    refine rel_mono hcopy fun a b hab => ⟨?_, hab.2⟩
    rw [List.map_append]
    exact hab.1
  · exact .none

theorem addFiles_sim (h : Added files m m') {rest : List HostFile}
    (hn : files.length + rest.length + 1 < NINODES) :
    Option.Rel (Added (files ++ rest)) (addFiles rest m) (Sector.addFiles rest m') := by
  induction rest generalizing files m m' with
  | nil =>
    rw [List.append_nil]
    exact .some h
  | cons f rest ih =>
    rw [List.length_cons] at hn
    refine rel_bind (addFile_sim h (by omega) f) fun r r' _ _ hr => ?_
    have hlen : (files ++ [f]).length + rest.length + 1 < NINODES := by
      rw [List.length_append, List.length_singleton]
      omega
    have hrest := ih hr hlen
    rw [List.append_assoc] at hrest
    exact hrest

theorem sim_start : Sim empty Sector.start := by
  refine ⟨⟨fun b hb => ?_, rfl, rfl⟩, fun n hn => ?_, fun _ => ?_, wsect_self ..⟩
  · have hmeta : 1 < nmeta := by decide
    exact wsect_other _ (by omega)
  · have hb := iblock_bounds hn
    rw [Sector.start, wsect_other _ (by omega)]
    have hzero : Block.zero.byte = fun _ => 0 := by
      funext i
      simp [Block.byte, Block.zero]
    simp only [Block.dinode, hzero]
    exact Dinode.ofBytes_zero
  · exact ⟨show short 0 = 0 by decide, show short 0 = 0 by decide, show short 0 = 0 by decide,
      show 0 < 2 ^ 32 by decide, fun _ => show 0 < 2 ^ 32 by decide⟩

-- The image that mkfs leaves: the size of the root directory is rounded up, and
-- the bitmap is written.
structure Final (files : List HostFile) (m : Mk) (m' : Store) : Prop where
  built : ∃ m₀, Built (rootEntries files) (files.map HostFile.contents) m₀ ∧ m = fixRoot m₀
  sim : Sim m m'
  bitmap : m'.data (2 + LOGSIZE + ninodeblocks) = Sector.marks m.freeblock

theorem fixRoot_sim (h : Added files m m') :
    ∃ r, Sector.fixRoot m' = some r ∧ Sim (fixRoot m) r := by
  obtain ⟨hbuilt, hsim⟩ := h
  have hroot : ROOTINO < NINODES := by decide
  obtain ⟨hmajor, hminor, hnlink, -, haddrs⟩ := hsim.fits ROOTINO
  have hsmall := hbuilt.ok.blocks.small ROOTINO hbuilt.root_alloc
  have hsize : ((m.dinode ROOTINO).size / BSIZE + 1) * BSIZE < 2 ^ 32 := by
    have hdiv := Nat.div_mul_le_self (m.dinode ROOTINO).size BSIZE
    have hmax : MAXFILE * BSIZE + BSIZE < 2 ^ 32 := by decide
    rw [Nat.add_mul, Nat.one_mul]
    omega
  obtain ⟨r, hr, hsim'⟩ := hsim.winode hroot
    (d := { m.dinode ROOTINO with size := ((m.dinode ROOTINO).size / BSIZE + 1) * BSIZE })
    ⟨hmajor, hminor, hnlink, hsize, haddrs⟩
  refine ⟨r, ?_, hsim'⟩
  rw [Sector.fixRoot, hsim.rinode hroot]
  exact hr

theorem main_sim (hn : files.length + 1 < NINODES) :
    Option.Rel (Final files) (build files) (Sector.main files) := by
  obtain ⟨r₀, hr₀, hsim₀⟩ := sim_start.ialloc (by decide) .dir
  have hroot : ROOTINO < NINODES := by decide
  have hbuilt₀ : Built [] [] (ialloc .dir empty) := .start
  unfold build Sector.main
  rw [hr₀]
  show Option.Rel _ ((iappend ROOTINO _ _).bind _) ((Sector.iappend ROOTINO _ _).bind _)
  refine rel_bind (iappend_sim hbuilt₀.ok hbuilt₀.root_alloc hroot hsim₀ _) fun m₁ m₁' _ _ h₁ => ?_
  have hbuilt₁ := hbuilt₀.entry h₁.1
  refine rel_bind (iappend_sim hbuilt₁.ok hbuilt₁.root_alloc hroot h₁.2 _) fun m₂ m₂' _ _ h₂ => ?_
  have hbuilt₂ := hbuilt₁.entry h₂.1
  have hadded : Added [] m₂ m₂' := ⟨hbuilt₂, h₂.2⟩
  refine rel_bind (addFiles_sim hadded (by simpa using hn)) fun m m' _ _ h => ?_
  rw [List.nil_append] at h
  obtain ⟨r, hr, hsim⟩ := fixRoot_sim h
  rw [hr]
  have hfb : r.freeblock = m.freeblock := hsim.agree.freeblock
  show Option.Rel _ _ (Sector.balloc r.freeblock r)
  unfold Sector.balloc
  rw [hfb]
  split
  · refine .some ⟨⟨m, h.1, rfl⟩, ⟨⟨fun b hb => ?_, hsim.agree.freeinode, hfb⟩, fun n hlt => ?_,
      hsim.fits, ?_⟩, wsect_self ..⟩
    · have hmeta : 2 + LOGSIZE + ninodeblocks < nmeta := by decide
      rw [wsect_other _ (by omega)]
      exact hsim.agree.data b hb
    · have hb := iblock_bounds hlt
      have hmeta : 2 + LOGSIZE + ninodeblocks = nmeta - 1 := by decide
      rw [wsect_other _ (by omega)]
      exact hsim.dinode n hlt
    · rw [wsect_other _ (by decide)]
      exact hsim.superblock
  · exact .none

theorem main_of_build (files : List HostFile) (hn : files.length + 1 < NINODES)
    (h : (build files).isSome = true) :
    ∃ m m', build files = some m ∧ Sector.main files = some m' ∧ Final files m m' := by
  obtain ⟨m, hm⟩ := Option.isSome_iff_exists.mp h
  obtain ⟨m', hm', hfinal⟩ := exists_of_rel (main_sim hn) hm
  exact ⟨m, m', hm, hm', hfinal⟩

end Main

end Xv6.Mkfs
