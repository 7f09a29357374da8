import Xv6.Exec.Atomic

namespace Xv6.Exec

open Lib Fork

-- The pages of a segment.
def Proghdr.Has (ph : Proghdr) (v : Nat) : Prop :=
  ph.vaddr / PGSIZE ≤ v ∧ v < pagesFor (ph.vaddr + ph.memsz)

-- In ascending order and with no page in common.
def Ascending (segs : List Proghdr) : Prop :=
  segs.Pairwise fun a b => a.vaddr ≤ b.vaddr ∧ ∀ v, a.Has v → ¬b.Has v

-- The segments of the file that are to be loaded, by its ELF header.
def File.segments (file : File) : Option (List Proghdr) :=
  file.elf.bind fun elf => (file.headersAt elf.phoff elf.phnum).map loads

-- The permissions that the flags of a segment ask for.
def segmentPerm (flags : Nat) : Nat :=
  PTE_V + PTE_R + PTE_U + (if flags.testBit 0 then PTE_X else 0) +
    (if flags.testBit 1 then PTE_W else 0)

-- The memory holds what the file says, with zeros in the other places below the guard.
structure Faithful (file : File) (segs : List Proghdr) (m : Mem) (root sz : Nat) : Prop where
  bytes : ∀ ph ∈ segs, ∀ k < ph.filesz,
    file.bytes[ph.off + k]? = some (m.byte (physical m root (ph.vaddr + k)))
  zeros : ∀ ph ∈ segs, ∀ k, ph.filesz ≤ k → k < ph.memsz →
    m.byte (physical m root (ph.vaddr + k)) = 0
  flags : ∀ ph ∈ segs, ∀ v, ph.Has v → PTE_FLAGS (flat m root v) = segmentPerm ph.flags
  rest : ∀ va < sz - (USERSTACK + 1) * PGSIZE, (∀ ph ∈ segs, ¬ph.Has (va / PGSIZE)) →
    m.byte (physical m root va) = 0

-- All offsets that exec() uses fit in an uint.
def File.Addressed (file : File) : Prop :=
  ∃ elf, file.elf = some elf ∧ (elf.phnum = 0 ∨ elf.phoff < 2 ^ 32) ∧
    ∀ segs, file.segments = some segs → ∀ ph ∈ segs, ph.filesz = 0 ∨ ph.off < 2 ^ 32

variable {file : File} {img : Img} {segs : List Proghdr} {ph : Proghdr} {a v k : Nat}

theorem perm_eq (ph : Proghdr) : ph.perm = segmentPerm ph.flags := by
  have hX : ph.flags &&& 0x1 ≠ 0 ↔ ph.flags.testBit 0 = true := flag_iff rfl
  have hW : ph.flags &&& 0x2 ≠ 0 ↔ ph.flags.testBit 1 = true := flag_iff rfl
  unfold Proghdr.perm flags2perm segmentPerm
  simp only [hX, hW]
  cases ph.flags.testBit 0 <;> cases ph.flags.testBit 1 <;> rfl

theorem File.length_slice_le (file : File) (off n : Nat) : (file.slice off n).length ≤ n :=
  List.length_take_le _ _

theorem Proghdr.has_of_mem (hle : ph.vaddr ≤ a) (hlt : a < ph.vaddr + ph.memsz) :
    ph.Has (a / PGSIZE) := by
  unfold Has PGSIZE pagesFor
  omega

theorem load_sz (file : File) (img : Img) (ph : Proghdr) :
    (img.load file ph).sz = max img.sz (ph.vaddr + ph.memsz) :=
  img.grow_sz _ _

theorem foldl_load_le (file : File) (img : Img) (segs : List Proghdr) :
    img.sz ≤ (segs.foldl (Img.load file) img).sz := by
  induction segs generalizing img with
  | nil => exact le_rfl
  | cons q segs ih =>
    have hq := load_sz file img q
    exact le_trans (by omega) (ih (img.load file q))

theorem foldl_load_end_le (hph : ph ∈ segs) :
    ph.vaddr + ph.memsz ≤ (segs.foldl (Img.load file) img).sz := by
  induction segs generalizing img with
  | nil => cases hph
  | cons q segs ih =>
    rcases List.mem_cons.mp hph with rfl | hph
    · have hq := load_sz file img ph
      exact le_trans (by omega) (foldl_load_le file (img.load file ph) segs)
    · exact ih hph

theorem foldl_load_outside (hout : ∀ ph ∈ segs, a < ph.vaddr ∨ ph.vaddr + ph.filesz ≤ a) :
    (segs.foldl (Img.load file) img).byte a = img.byte a := by
  induction segs generalizing img with
  | nil => rfl
  | cons q segs ih =>
    obtain ⟨hq, hout⟩ := List.forall_mem_cons.mp hout
    have hlen := file.length_slice_le (uint q.off) q.filesz
    rw [List.foldl_cons, ih hout, Img.load, Img.write_byte, overlay_outside (by omega),
      Img.grow_byte]

theorem foldl_load_inside {b : UInt8} (hdisj : segs.Pairwise fun a b => ∀ v, a.Has v → ¬b.Has v)
    (hsize : ∀ ph ∈ segs, ph.filesz ≤ ph.memsz) (hph : ph ∈ segs) (hk : k < ph.filesz)
    (hb : (file.slice (uint ph.off) ph.filesz)[k]? = some b) :
    (segs.foldl (Img.load file) img).byte (ph.vaddr + k) = b := by
  induction segs generalizing img with
  | nil => cases hph
  | cons q segs ih =>
    obtain ⟨hq, hdisj⟩ := List.pairwise_cons.mp hdisj
    obtain ⟨hqsize, hrest⟩ := List.forall_mem_cons.mp hsize
    by_cases hlater : ph ∈ segs
    · exact ih hdisj hrest hlater
    · obtain rfl : ph = q := (List.mem_cons.mp hph).resolve_right hlater
      have hhas : ph.Has ((ph.vaddr + k) / PGSIZE) := Proghdr.has_of_mem (by omega) (by omega)
      have hout : ∀ r ∈ segs, ph.vaddr + k < r.vaddr ∨ r.vaddr + r.filesz ≤ ph.vaddr + k := by
        intro r hr
        by_contra hin
        have hrsize := hrest r hr
        exact hq r hr _ hhas (Proghdr.has_of_mem (by omega) (by omega))
      rw [List.foldl_cons, foldl_load_outside hout, Img.load, Img.write_byte, overlay_inside hb]

theorem load_flags_below (hv : v < pagesFor img.sz) : (img.load file ph).flags v = img.flags v :=
  img.grow_flags_below _ _ hv

theorem foldl_load_flags_below (hv : v < pagesFor img.sz) :
    (segs.foldl (Img.load file) img).flags v = img.flags v := by
  induction segs generalizing img with
  | nil => rfl
  | cons q segs ih =>
    have hle : img.sz ≤ (img.load file q).sz := by
      rw [load_sz]
      exact Nat.le_max_left _ _
    rw [List.foldl_cons, ih (hv.trans_le (pagesFor_mono hle)), load_flags_below hv]

-- The pages of a segment come with it.
theorem foldl_load_flags (hasc : Ascending segs)
    (hnew : ∀ ph ∈ segs, ∀ v, ph.Has v → pagesFor img.sz ≤ v) (hph : ph ∈ segs) (hv : ph.Has v) :
    (segs.foldl (Img.load file) img).flags v = ph.perm := by
  induction segs generalizing img with
  | nil => cases hph
  | cons q segs ih =>
    obtain ⟨hq, hasc⟩ := List.pairwise_cons.mp hasc
    obtain ⟨hqnew, hnew⟩ := List.forall_mem_cons.mp hnew
    by_cases hlater : ph ∈ segs
    · refine ih hasc (fun r hr w hw => ?_) hlater
      obtain ⟨hle, hdisj⟩ := hq r hr
      have hnot : ¬q.Has w := fun hqw => hdisj w hqw hw
      have hfirst : q.vaddr / PGSIZE ≤ w := (Nat.div_le_div_right hle).trans hw.1
      have hbelow : pagesFor (q.vaddr + q.memsz) ≤ w := by
        unfold Proghdr.Has at hnot
        omega
      rw [load_sz]
      rcases Nat.le_total img.sz (q.vaddr + q.memsz) with hmax | hmax
      · rwa [Nat.max_eq_right hmax]
      · rw [Nat.max_eq_left hmax]
        exact hnew r hr w hw
    · obtain rfl : ph = q := (List.mem_cons.mp hph).resolve_right hlater
      have hge := hqnew v hv
      have hsz : img.sz ≤ ph.vaddr + ph.memsz := by
        by_contra hless
        have := pagesFor_mono (Nat.le_of_not_le hless)
        have := hv.2
        omega
      have hin : v < pagesFor (img.load file ph).sz := by
        rw [load_sz, Nat.max_eq_right hsz]
        exact hv.2
      rw [List.foldl_cons, foldl_load_flags_below hin]
      exact img.grow_flags_above _ hsz hge

theorem Ascending.disjoint (h : Ascending segs) :
    segs.Pairwise fun a b => ∀ v, a.Has v → ¬b.Has v :=
  h.imp fun hab => hab.2

theorem Ascending.eq_of_has (h : Ascending segs) {q : Proghdr} (hph : ph ∈ segs) (hq : q ∈ segs)
    (hv : ph.Has v) (hv' : q.Has v) : ph = q := by
  by_contra hne
  have : Std.Symm fun a b : Proghdr => ∀ v, a.Has v → ¬b.Has v :=
    ⟨fun a b hab v hb ha => hab v ha hb⟩
  exact h.disjoint.forall hph hq hne v hv hv'

variable {argv : List (List UInt8)}

theorem pushArgv_below (hroom : argRoom argv ≤ USERSTACK * PGSIZE)
    (ha : a < (pagesFor img.sz + 1) * PGSIZE) : (img.stack.pushArgv argv).byte a = img.byte a := by
  have hsz := img.stack_sz
  have hsplit : (pagesFor img.sz + (USERSTACK + 1)) * PGSIZE =
      (pagesFor img.sz + 1) * PGSIZE + USERSTACK * PGSIZE := by
    rw [← Nat.add_mul]
    congr 1
  have hle : room argv ≤ argRoom argv := Nat.le_add_right _ _
  rw [Img.pushArgv, Img.write_byte, overlay_outside (.inl (by omega)),
    Img.pushStrings_outside (by omega) (.inl (by omega)), Img.stack_byte]

section Shown

variable {m : Mem} {root : Nat} {fixed : Nat → Nat} {T : Multiset Nat} {L : List (Nat × Nat)}

theorem pushArgv_flags (img : Img) (argv : List (List UInt8)) :
    (img.pushArgv argv).flags = img.flags := img.pushStrings_flags img.sz argv

theorem Shows.program_byte (h : Shows m root fixed T L (img.stack.pushArgv argv))
    (hroom : argRoom argv ≤ USERSTACK * PGSIZE) (ha : a / PGSIZE < pagesFor img.sz) :
    m.byte (physical m root a) = img.byte a := by
  rw [h.byte_eq, pushArgv_below hroom]
  · unfold PGSIZE at *
    omega
  · rw [Img.pushArgv_sz, Img.stack_pages]
    omega

theorem Shows.program_flags (h : Shows m root fixed T L (img.stack.pushArgv argv))
    (hv : v < pagesFor img.sz) : PTE_FLAGS (flat m root v) = img.flags v := by
  rw [h.flags_eq, pushArgv_flags, Img.stack_below hv]
  rw [Img.pushArgv_sz, Img.stack_pages]
  omega

-- With offsets that fit, the memory is faithful.
theorem Shows.faithful (h : Shows m root fixed T L (img.stack.pushArgv argv))
    (hroom : argRoom argv ≤ USERSTACK * PGSIZE) (himg : img = segs.foldl (Img.load file) .empty)
    (hloaded : ∀ ph ∈ segs, ph.Loaded file) (hasc : Ascending segs)
    (hoff : ∀ ph ∈ segs, ph.filesz = 0 ∨ ph.off < 2 ^ 32) :
    Faithful file segs m root img.stack.sz := by
  have hsize : ∀ ph ∈ segs, ph.filesz ≤ ph.memsz := fun ph hph => (hloaded ph hph).filesz
  have hpage : ∀ ph ∈ segs, ∀ v, ph.Has v → v < pagesFor img.sz := by
    intro ph hph v hv
    have hle : ph.vaddr + ph.memsz ≤ img.sz := himg ▸ foldl_load_end_le hph
    exact hv.2.trans_le (pagesFor_mono hle)
  refine ⟨?_, ?_, ?_, ?_⟩
  · intro ph hph k hk
    have hoff' : uint ph.off = ph.off := uint_of_lt ((hoff ph hph).resolve_left (by omega))
    have hread := (hloaded ph hph).read.resolve_left (by omega)
    have hmem := hsize ph hph
    have hget : (file.slice (uint ph.off) ph.filesz)[k]? = file.bytes[ph.off + k]? := by
      rw [hoff', File.slice_get hk]
    have hlt : ph.off + k < file.bytes.length := by
      have : file.size = file.bytes.length := rfl
      omega
    rw [List.getElem?_eq_getElem hlt] at hget ⊢
    rw [h.program_byte hroom (hpage ph hph _ (Proghdr.has_of_mem (by omega) (by omega))), himg,
      foldl_load_inside hasc.disjoint hsize hph hk hget]
  · intro ph hph k hge hlt
    have hhas : ph.Has ((ph.vaddr + k) / PGSIZE) := Proghdr.has_of_mem (by omega) (by omega)
    rw [h.program_byte hroom (hpage ph hph _ hhas), himg, foldl_load_outside]
    · rfl
    · intro q hq
      by_contra hin
      have hqsize := hsize q hq
      have hqhas : q.Has ((ph.vaddr + k) / PGSIZE) := Proghdr.has_of_mem (by omega) (by omega)
      obtain rfl := hasc.eq_of_has hph hq hhas hqhas
      omega
  · intro ph hph v hv
    rw [h.program_flags (hpage ph hph v hv), himg, ← perm_eq]
    exact foldl_load_flags hasc (fun _ _ _ _ => Nat.zero_le _) hph hv
  · intro va hva hnone
    have hguard : va / PGSIZE < pagesFor img.sz := by
      rw [img.stack_sz] at hva
      unfold USERSTACK PGSIZE at *
      omega
    rw [h.program_byte hroom hguard, himg, foldl_load_outside]
    · rfl
    · intro q hq
      by_contra hin
      have hqsize := hsize q hq
      exact hnone q hq (Proghdr.has_of_mem (by omega) (by omega))

end Shown

theorem File.get_none (file : File) {off : Nat} (hoff : 2 ^ 32 ≤ off) : file.bytes[off]? = none := by
  have hsize : file.bytes.length < 0x80000000 := file.size_lt
  exact List.getElem?_eq_none (by omega)

theorem File.headersAt_zero (file : File) (off : Nat) : file.headersAt off 0 = some [] := rfl

theorem File.headersAt_wide (file : File) {off n : Nat} (hn : n ≠ 0) (hoff : 2 ^ 32 ≤ off) :
    file.headersAt off n = none := by
  have hsize := file.size_lt
  cases n with
  | zero => exact absurd rfl hn
  | succ n => exact if_neg (by omega)

-- exec() loads the file faithfully if and only if no offset is cut off.
theorem exec_faithful_iff {p : Idx} {s s' : State} {T : Multiset Nat} {L : List (Nat × Nat)}
    {path : List UInt8} {ip : Fin NINODE} {r : Int} (h : Ready p s T L)
    (hcount : argv.length < MAXARG) (hlen : ∀ a ∈ argv, a.length < PGSIZE)
    (hrun : exec p path (some (ip, file)) argv s = .ok (r, s')) (hr : r ≠ -1)
    (hasc : ∀ segs, file.segments = some segs → Ascending segs) :
    (∃ segs, file.segments = some segs ∧
      Faithful file segs s'.mem (s'.kernel.proc p).pagetable (s'.kernel.proc p).sz) ↔
    file.Addressed := by
  have hwp : Wp (exec p path (some (ip, file)) argv) s (fun _ => False) fun r s' => r ≠ -1 →
      ((∃ segs, file.segments = some segs ∧
        Faithful file segs s'.mem (s'.kernel.proc p).pagetable (s'.kernel.proc p).sz) ↔
      file.Addressed) := by
    refine exec_spec h hlen hcount (fun _ _ hne => absurd rfl hne) ?_
    intro m' T' L' ip' file' elf hs img root hfound hprog hroom hshows _ _ _
    cases hfound
    have helf := hprog.header
    have hsegments : file.segments = (file.headersAt elf.phoff elf.phnum).map loads := by
      rw [File.segments, helf]
      rfl
    have hproc : (s.replace p path root img.stack.sz m').kernel.proc p =
        execed (s.kernel.proc p) path root img.stack.sz := Kernel.put_self ..
    rw [hproc]
    refine ⟨?_, ?_⟩
    · rintro ⟨segs, hsegs, hfaithful⟩
      refine ⟨elf, helf, ?_, ?_⟩
      · by_contra hwide
        push Not at hwide
        rw [hsegments, File.headersAt_wide file hwide.1 hwide.2] at hsegs
        cases hsegs
      · intro segs' hsegs' ph hph
        rw [hsegs] at hsegs'
        cases hsegs'
        by_contra hwide
        push Not at hwide
        have hbyte := hfaithful.bytes ph hph 0 (by omega)
        rw [File.get_none file (by omega)] at hbyte
        cases hbyte
    · rintro ⟨elf', helf', hphoff, hoff⟩
      rw [helf] at helf'
      cases helf'
      have htable : file.headersAt elf.phoff elf.phnum = some hs := by
        rw [← hprog.headers]
        rcases hphoff with hzero | hlt
        · rw [hzero, File.headersAt_zero, File.headersAt_zero]
        · rw [uint_of_lt hlt]
      rw [htable] at hsegments
      exact ⟨loads hs, hsegments, hshows.faithful hroom hprog.image hprog.loaded
        (hasc _ hsegments) (hoff _ hsegments)⟩
  exact hwp.ok hrun hr

theorem ascending_singleton (ph : Proghdr) : Ascending [ph] := List.pairwise_singleton _ _

theorem exec_faithful_iff_sample : ∃ s T L s' segs, Ready initproc s T L ∧
    exec initproc [] (some (firstInode, oneSegment 0)) [] s = .ok (0, s') ∧
    (oneSegment 0).segments = some segs ∧ Faithful (oneSegment 0) segs s'.mem
      (s'.kernel.proc initproc).pagetable (s'.kernel.proc initproc).sz := by
  obtain ⟨s, T, L, s', -, hready, hrun⟩ :=
    builds_exec builds_oneSegment [] (by simp) (by decide)
  have hsegs : (oneSegment 0).segments = some [⟨1, 5, 0, 0, 1, 1⟩] := by decide +kernel
  have haddressed : (oneSegment 0).Addressed := by
    refine ⟨⟨ELF_MAGIC, 0, ELFHDR, 1⟩, by decide +kernel, .inr (by decide), ?_⟩
    intro segs hsome ph hph
    rw [hsegs] at hsome
    cases hsome
    rw [List.mem_singleton.mp hph]
    exact .inr (by decide)
  have hiff := exec_faithful_iff hready (by decide) (by simp) hrun (by decide) fun segs hsome => by
    rw [hsegs] at hsome
    cases hsome
    exact ascending_singleton _
  obtain ⟨segs, hsome, hfaithful⟩ := hiff.mpr haddressed
  exact ⟨s, T, L, s', segs, hready, hrun, hsome, hfaithful⟩

-- The offset 2^32 is read as 0, and the file ends long before it.
theorem exec_unfaithful : ∃ s T L s' segs, Ready initproc s T L ∧
    exec initproc [] (some (firstInode, oneSegment 0x100000000)) [] s = .ok (0, s') ∧
    (oneSegment 0x100000000).segments = some segs ∧ Ascending segs ∧
    ¬Faithful (oneSegment 0x100000000) segs s'.mem
      (s'.kernel.proc initproc).pagetable (s'.kernel.proc initproc).sz := by
  obtain ⟨s, T, L, s', -, hready, hrun⟩ :=
    builds_exec (by decide +kernel : builds (oneSegment 0x100000000) = true) [] (by simp)
      (by decide)
  have hsegs : (oneSegment 0x100000000).segments = some [⟨1, 5, 0x100000000, 0, 1, 1⟩] := by
    decide +kernel
  refine ⟨s, T, L, s', _, hready, hrun, hsegs, ascending_singleton _, fun hfaithful => ?_⟩
  have hbyte := hfaithful.bytes _ (List.mem_singleton_self _) 0 (by decide)
  rw [File.get_none _ (by decide)] at hbyte
  cases hbyte

end Xv6.Exec
