import Xv6.Exec.Image
import Xv6.Fs.Rw

namespace Xv6.Exec

open Lib

variable {m m' : Mem} {root va v off n sz : Nat} {fixed : Nat → Nat} {T T' X Y : Multiset Nat}
  {L : List (Nat × Nat)} {img : Img} {file : File} {P : Panic → Prop}

def File.slice (file : File) (off n : Nat) : List UInt8 := (file.bytes.drop off).take n

theorem File.slice_zero (file : File) (off : Nat) : file.slice off 0 = [] := List.take_zero

theorem File.slice_add (file : File) (off m n : Nat) :
    file.slice off (m + n) = file.slice off m ++ file.slice (off + m) n := by
  rw [slice, slice, slice, List.take_add, List.drop_drop]

theorem File.length_slice (h : off + n ≤ file.size) : (file.slice off n).length = n := by
  unfold size at h
  rw [slice, List.length_take, List.length_drop]
  omega

theorem File.slice_get {k : Nat} (hk : k < n) : (file.slice off n)[k]? = file.bytes[off + k]? := by
  rw [slice, List.getElem?_take_of_lt hk, List.getElem?_drop]

theorem File.size_lt (file : File) : file.size < 0x80000000 := by
  have hle : file.size ≤ MAXFILE * BSIZE := file.size_le
  have hmax : MAXFILE * BSIZE < 0x80000000 := by decide
  omega

theorem uint_of_lt {x : Nat} (h : x < 0x100000000) : uint x = x := by
  unfold uint
  omega

theorem readiLoop_run {fuel : Nat} (got : List UInt8) (hfuel : n ≤ fuel) (hfit : off + n ≤ file.size) :
    readiLoop file got (Fs.chunks fuel off n) m = .ok (got ++ file.slice off n, m) := by
  induction fuel generalizing off n got with
  | zero =>
    obtain rfl : n = 0 := Nat.le_zero.mp hfuel
    rw [File.slice_zero, List.append_nil]
    rfl
  | succ fuel ih =>
    by_cases hn : n = 0
    · subst hn
      rw [Fs.chunks_zero, File.slice_zero, List.append_nil]
      rfl
    · obtain ⟨hpos, hle, -⟩ := Fs.round_bound off hn
      rw [Fs.chunks_succ hn]
      generalize min n (BSIZE - off % BSIZE) = k at *
      have hbn : off / BSIZE < MAXFILE := by
        have hsize : file.size ≤ MAXFILE * BSIZE := file.size_le
        exact Nat.div_lt_of_lt_mul (by rw [Nat.mul_comm]; omega)
      have hbmap : bmap (off / BSIZE) m = .ok ((), m) := by
        rw [bmap, if_pos hbn]
        rfl
      rw [readiLoop, Fallible.bind_ok hbmap, ih _ (by omega) (by omega), List.append_assoc]
      have hparts := file.slice_add off k (n - k)
      rw [Nat.add_sub_cancel' hle] at hparts
      rw [hparts]
      rfl

theorem readi_eq (file : File) (off n : Nat) (m : Mem) : readi file off n m =
    .ok (if file.size < off ∨ uint (off + n) < off then [] else file.slice off n, m) := by
  unfold readi
  by_cases hnone : file.size < off ∨ uint (off + n) < off
  · rw [if_pos hnone, if_pos hnone]
    rfl
  · rw [if_neg hnone, if_neg hnone]
    push Not at hnone
    by_cases hfit : file.size < off + n
    · have hall : file.slice off n = file.slice off (file.size - off) := by
        have hlen : (file.bytes.drop off).length = file.size - off := List.length_drop
        rw [File.slice, File.slice, List.take_of_length_le (by omega),
          List.take_of_length_le (by omega)]
      rw [if_pos hfit, hall]
      exact readiLoop_run [] le_rfl (by omega)
    · rw [if_neg hfit]
      exact readiLoop_run [] le_rfl (by omega)

-- It is what readi() of the file system reads of an inode with these contents.
theorem readi_refines {sb : Fs.Superblock} {s : Fs.Sys} {i : Fs.Slot} {inum : Nat}
    (hfs : Fs.HoleFree sb s) (hi : Fs.InSlot s i inum) (hfile : file.bytes = s.contents inum)
    (hoff : off < 2 ^ 32) (hn : n < 2 ^ 32) (m : Mem) :
    ∃ bs, readi file off n m = .ok (bs, m) ∧
      (Fs.readi sb i Fs.kernelDst off n).run s = .done s ((bs.length : Int), bs) := by
  refine ⟨_, readi_eq file off n m, ?_⟩
  have hsize : file.size = (s.dinode inum).size := by
    rw [File.size, hfile, Fs.length_contents]
  have hwrap : uint (off + n) < off ↔ 2 ^ 32 ≤ off + n := by
    unfold uint
    omega
  rw [Fs.readi_run hfs hi (show ∀ tot m, Fs.kernelDst tot m = true from fun _ _ => rfl) off n hn]
  simp only [hsize, hwrap, File.slice, hfile]
  split <;> rfl

theorem readi_spec {Q : List UInt8 → Mem → Prop} (hn : 0 < n)
    (hfull : off + n ≤ file.size → Q (file.slice off n) m)
    (hshort : ∀ bs : List UInt8, bs.length < n → file.size < off + n → Q bs m) :
    Wp (readi file off n) m P Q := by
  have hsize := file.size_lt
  refine Wp.of_ok (readi_eq file off n m) ?_
  by_cases hfit : off + n ≤ file.size
  · have hwrap : uint (off + n) = off + n := by rw [← Nat.cast_add, uint_of_lt (by omega)]
    rw [if_neg (by omega)]
    exact hfull hfit
  · refine hshort _ ?_ (by omega)
    split
    · exact hn
    · have hlen : (file.bytes.drop off).length = file.size - off := List.length_drop
      rw [File.slice, List.length_take]
      omega

-- The pages of a range in which user code can read.
def Img.UserRange (img : Img) (va sz : Nat) : Prop :=
  ∀ a, va ≤ a → a < va + sz → a / PGSIZE < pagesFor img.sz ∧ img.flags (a / PGSIZE) &&& PTE_U ≠ 0

theorem loadsegLoop_spec {Q : Int → Mem → Prop} {offset i fuel : Nat}
    (h : Shows m root fixed T L (img.write va (file.slice offset (min i sz))))
    (hva : va % PGSIZE = 0) (hi : i % PGSIZE = 0) (hrange : img.UserRange va sz)
    (hoffset : offset < 0x100000000) (hsz : va + sz < 0x80000000)
    (hread : min i sz = 0 ∨ offset + min i sz ≤ file.size)
    (hfuel : sz ≤ i + fuel * PGSIZE - PGSIZE) (hfuel0 : 0 < fuel)
    (hfail : ∀ m', Space m' root fixed T L → m.Trade m' (leaves L) (leaves L) → Q (-1) m')
    (hdone : ∀ m', sz = 0 ∨ offset + sz ≤ file.size →
      Shows m' root fixed T L (img.write va (file.slice offset sz)) →
      m.Trade m' (leaves L) (leaves L) → Q 0 m') :
    Wp (loadsegLoop root va file offset sz fuel i) m P Q := by
  induction fuel generalizing m i with
  | zero => exact absurd hfuel0 (Nat.lt_irrefl 0)
  | succ fuel ih =>
    rw [loadsegLoop]
    refine Wp.ite (fun hlt => ?_) fun hge => Wp.pure ?_
    · have hsize := file.size_lt
      rw [Nat.min_eq_left hlt.le] at h hread
      have hmod : (va + i) % PGSIZE = 0 := by
        unfold PGSIZE at *
        omega
      obtain ⟨hv, hU⟩ := hrange (va + i) (by omega) (by omega)
      have hr : Readable m root (va + i) := h.readable hv hU
      obtain ⟨e, hmem, -, -, hpa⟩ := h.entry hv
      have hpos : PTE2PA (flat m root ((va + i) / PGSIZE)) ≠ 0 := by
        rw [hpa]
        exact (h.space.allocatable hmem).pos.ne'
      have haddr : u64 (va + i) = va + i := u64_of_lt (by omega)
      rw [haddr]
      refine Wp.bind (Wp.of_ok (walkaddr_eq m root (va + i)) ?_)
      rw [if_pos hr, if_neg hpos]
      have hn : (if sz - i < PGSIZE then sz - i else PGSIZE) = min (sz - i) PGSIZE := by
        split <;> omega
      rw [hn]
      generalize hk : min (sz - i) PGSIZE = k
      have hk0 : 0 < k := by
        unfold PGSIZE at hk
        omega
      have hoff : uint (offset + i) = offset + i := by
        rw [← Nat.cast_add, uint_of_lt]
        rcases hread with rfl | hread
        · exact hoffset
        · omega
      have hlen : (file.slice offset i).length = i := by
        rcases hread with rfl | hread
        · rw [File.slice_zero]
          rfl
        · exact File.length_slice hread
      rw [hoff]
      -- whatever has been read is stored in the page
      have hput : ∀ bs, m.setPage (PTE2PA (flat m root ((va + i) / PGSIZE)))
          ((m.page (PTE2PA (flat m root ((va + i) / PGSIZE)))).putBytes 0 bs) =
          m.put root (va + i) bs := by
        intro bs
        rw [Mem.put, hmod]
      refine Wp.bind (readi_spec hk0 (fun hfit => ?_) fun bs hbs _ => ?_)
      · have hkn : (file.slice (offset + i) k).length = k := File.length_slice hfit
        obtain ⟨h₁, ht₁⟩ := h.put (file.slice (offset + i) k) hv (by omega)
        have hwrite := img.write_append va (file.slice offset i) (file.slice (offset + i) k)
        rw [hlen, ← File.slice_add] at hwrite
        have hmin : min (i + PGSIZE) sz = i + k := by omega
        have hnext : uint (i + PGSIZE) = i + PGSIZE := by
          rw [← Nat.cast_add, uint_of_lt]
          unfold PGSIZE
          omega
        refine Wp.bind (Wp.get (Wp.bind (Wp.set ?_)))
        rw [hput, if_neg (not_not.mpr hkn), hnext]
        rw [hwrite, ← hmin] at h₁
        rw [Nat.add_assoc, ← hmin] at hfit
        refine ih h₁ ?_ (.inr hfit) ?_ ?_ (fun m' h' ht' => hfail m' h' (ht₁.trans ht'))
          fun m' hok h' ht' => hdone m' hok h' (ht₁.trans ht')
        · rw [Nat.add_mod_right]
          exact hi
        · rw [Nat.succ_mul] at hfuel
          omega
        · rcases Nat.eq_zero_or_pos fuel with rfl | hpos
          · unfold PGSIZE at hfuel
            omega
          · exact hpos
      · obtain ⟨h₁, ht₁⟩ := h.put bs hv (by omega)
        refine Wp.bind (Wp.get (Wp.bind (Wp.set ?_)))
        rw [hput, if_pos hbs.ne]
        exact Wp.pure (hfail _ h₁.space ht₁)
    · rw [Nat.min_eq_right (by omega)] at h hread
      exact hdone m hread h .refl

theorem loadseg_spec {Q : Int → Mem → Prop} {offset : Nat} (h : Shows m root fixed T L img)
    (hva : va % PGSIZE = 0) (hrange : img.UserRange va sz) (hoffset : offset < 0x100000000)
    (hsz : va + sz < 0x80000000)
    (hfail : ∀ m', Space m' root fixed T L → m.Trade m' (leaves L) (leaves L) → Q (-1) m')
    (hdone : ∀ m', sz = 0 ∨ offset + sz ≤ file.size →
      Shows m' root fixed T L (img.write va (file.slice offset sz)) →
      m.Trade m' (leaves L) (leaves L) → Q 0 m') :
    Wp (loadseg root va file offset sz) m P Q := by
  refine loadsegLoop_spec ?_ hva rfl hrange hoffset hsz (.inl (Nat.zero_min _)) ?_ (Nat.succ_pos _)
    hfail hdone
  · rw [Nat.zero_min, File.slice_zero, Img.write_nil]
    exact h
  · unfold PGSIZE
    omega

-- The program headers in the file from off on.
def File.headersAt (file : File) : Nat → Nat → Option (List Proghdr)
  | _, 0 => some []
  | off, n + 1 =>
    if off + PROGHDR ≤ file.size then
      (file.headersAt (off + PROGHDR) n).map (Proghdr.decode (file.slice off PROGHDR) :: ·)
    else none

def loads (hs : List Proghdr) : List Proghdr := hs.filter fun ph => ph.type = ELF_PROG_LOAD

def Proghdr.perm (ph : Proghdr) : Nat := PTE_R ||| PTE_U ||| flags2perm ph.flags ||| PTE_V

-- What a segment adds to the image.
def Img.load (file : File) (img : Img) (ph : Proghdr) : Img :=
  (img.grow (ph.vaddr + ph.memsz) ph.perm).write ph.vaddr (file.slice (uint ph.off) ph.filesz)

-- A segment that has passed the checks and has been read.
structure Proghdr.Loaded (file : File) (ph : Proghdr) : Prop where
  filesz : ph.filesz ≤ ph.memsz
  aligned : ph.vaddr % PGSIZE = 0
  read : ph.filesz = 0 ∨ uint ph.off + ph.filesz ≤ file.size

theorem flags2perm_lt (flags : Nat) : flags2perm flags < 1024 := by
  unfold flags2perm
  split <;> split <;> decide

def Img.User (img : Img) : Prop := ∀ v < pagesFor img.sz, img.flags v &&& PTE_U ≠ 0

theorem Img.User.grow {xperm : Nat} (h : img.User) (sz : Nat) :
    (img.grow sz (PTE_R ||| PTE_U ||| xperm ||| PTE_V)).User := by
  intro v hv
  by_cases hlt : v < pagesFor img.sz
  · rw [Img.grow_flags_below _ _ _ hlt]
    exact h v hlt
  · have hle : img.sz ≤ sz := by
      by_contra hless
      rw [Img.grow_sz, Nat.max_eq_left (by omega)] at hv
      exact hlt hv
    rw [Img.grow_flags_above _ _ hle (by omega)]
    exact user_flags _

theorem Img.User.range (h : img.User) (hsz : va + sz ≤ img.sz) : img.UserRange va sz := by
  intro a _ hlt
  have hv : a / PGSIZE < pagesFor img.sz := by
    unfold PGSIZE pagesFor
    omega
  exact ⟨hv, h _ hv⟩

theorem field_lt (bs : List UInt8) (off w : Nat) : field bs off w < 256 ^ w := leWord_lt _ w

theorem loadSegments_spec {Q : Bool × Nat → Mem → Prop} (h : Shows m root fixed T L img)
    (hfixed : High fixed) (huser : img.User)
    (hfail : ∀ m' T' L' sz, Space m' root fixed T' L' → L'.length = pagesFor sz →
      m.Trade m' (T + leaves L) (T' + leaves L') → Q (false, sz) m')
    (hdone : ∀ m' T' L' hs img', file.headersAt off n = some hs →
      (∀ ph ∈ loads hs, ph.Loaded file) → img' = (loads hs).foldl (Img.load file) img →
      img'.User → Shows m' root fixed T' L' img' → m.Trade m' (T + leaves L) (T' + leaves L') →
      Q (true, img'.sz) m') :
    Wp (loadSegments root file n off img.sz) m P Q := by
  induction n generalizing m T L img off with
  | zero =>
    exact Wp.pure (hdone m T L [] img rfl (fun ph hph => by cases hph) rfl huser h .refl)
  | succ n ih =>
    have hbad : Q (false, img.sz) m := hfail m T L img.sz h.space h.size .refl
    refine Wp.bind (readi_spec (by decide) (fun hfit => ?_) fun bs hbs _ => ?_)
    swap
    · rw [if_pos hbs.ne]
      exact Wp.pure hbad
    have hlen : (file.slice off PROGHDR).length = PROGHDR := File.length_slice hfit
    have hsize := file.size_lt
    have hnext : uint (off + PROGHDR) = off + PROGHDR := by
      rw [← Nat.cast_add, uint_of_lt (by omega)]
    rw [if_neg (not_not.mpr hlen), hnext]
    generalize hph : Proghdr.decode (file.slice off PROGHDR) = ph
    have hmemsz : ph.memsz < 0x10000000000000000 := hph ▸ field_lt _ 40 8
    have hheaders : ∀ hs, file.headersAt (off + PROGHDR) n = some hs →
        file.headersAt off (n + 1) = some (ph :: hs) := by
      intro hs hhs
      rw [File.headersAt, if_pos hfit, hhs, hph]
      rfl
    refine Wp.ite (fun htype => ?_) fun htype => Wp.ite (fun _ => Wp.pure hbad) fun hfilesz =>
      Wp.ite (fun _ => Wp.pure hbad) fun hwrap => Wp.ite (fun _ => Wp.pure hbad) fun halign => ?_
    · refine ih h huser hfail fun m' T' L' hs img' hhs hok himg hu h' ht' => ?_
      have hloads : loads (ph :: hs) = loads hs := List.filter_cons_of_neg (by simpa using htype)
      refine hdone m' T' L' (ph :: hs) img' (hheaders hs hhs) ?_ ?_ hu h' ht'
      · rwa [hloads]
      · rwa [hloads]
    have hsum : u64 (ph.vaddr + ph.memsz) = ph.vaddr + ph.memsz := by
      unfold u64 at hwrap ⊢
      omega
    rw [hsum]
    refine Wp.bind (h.alloc hfixed (flags2perm_lt _) (fun m' T' h' ht' => ?_)
      fun m₁ T₁ A h₁ ht₁ => ?_)
    · rw [if_pos rfl]
      exact Wp.pure (hfail m' T' L img.sz h' h.size (ht'.frame _))
    have htrade₁ : m.Trade m₁ (T + leaves L) (T₁ + leaves (L ++ A)) := by
      rw [leaves_append, add_comm (leaves L), ← add_assoc]
      exact ht₁.frame _
    have hgrow := img.grow_sz (ph.vaddr + ph.memsz) ph.perm
    have hu₁ : (img.grow (ph.vaddr + ph.memsz) ph.perm).User := huser.grow _
    refine Wp.ite (fun hzero => Wp.pure ?_) fun _ => ?_
    · refine hfail m₁ T₁ (L ++ A) img.sz h₁.space ?_ htrade₁
      rw [h₁.size, Img.grow_sz, hzero]
      congr 1
      omega
    · have hle : ph.vaddr + ph.filesz ≤ (img.grow (ph.vaddr + ph.memsz) ph.perm).sz := by
        rw [hgrow]
        omega
      have hbound : (img.grow (ph.vaddr + ph.memsz) ph.perm).sz < 0x80000000 := by
        have hpages := h₁.pages_le
        rw [NPAGES_eq] at hpages
        have := pagesFor_le hpages
        unfold Proghdr.perm
        omega
      have hfile : uint ph.filesz = ph.filesz := uint_of_lt (by omega)
      have hoff : uint ph.off < 0x100000000 := by
        unfold uint
        omega
      rw [hfile]
      refine Wp.bind (loadseg_spec h₁ (not_not.mp halign) (hu₁.range hle) hoff (by omega)
        (fun m' h' ht' => ?_) fun m₂ hread h₂ ht₂ => ?_)
      · rw [if_pos (by decide)]
        refine Wp.pure (hfail m' T₁ (L ++ A) _ h' ?_ (htrade₁.trans (ht'.frame_left _)))
        rw [h₁.size, Img.grow_sz]
      · have hload : (img.load file ph).sz = max img.sz (ph.vaddr + ph.memsz) := hgrow
        rw [if_neg (by decide), ← hload]
        refine ih h₂ hu₁ (fun m' T' L' sz h' hsz ht' => hfail m' T' L' sz h' hsz
          ((htrade₁.trans (ht₂.frame_left _)).trans ht'))
          fun m' T' L' hs img' hhs hok himg hu h' ht' => ?_
        have hloads : loads (ph :: hs) = ph :: loads hs :=
          List.filter_cons_of_pos (by simpa using htype)
        refine hdone m' T' L' (ph :: hs) img' (hheaders hs hhs) ?_ ?_ hu h'
          ((htrade₁.trans (ht₂.frame_left _)).trans ht')
        · rw [hloads]
          refine List.forall_mem_cons.mpr ⟨⟨by omega, not_not.mp halign, hread⟩, hok⟩
        · rw [hloads, himg]
          rfl

end Xv6.Exec
