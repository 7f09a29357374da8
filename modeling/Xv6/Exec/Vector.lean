import Xv6.Exec.Faithful

namespace Xv6.Exec

open Lib Fork

-- The word that user code reads at va.
def userWord (m : Mem) (root va : Nat) : Nat :=
  leWord (fun r => m.byte (physical m root (va + r))) 8

-- The array of pointers and the strings, each as its first address and its length.
def regions (sp : Nat) (argv : List (List UInt8)) (ptrs : List Nat) : List (Nat × Nat) :=
  (sp, (argv.length + 1) * 8) :: List.zipWith (fun q a => (q, a.length + 1)) ptrs argv

def Apart (x y : Nat × Nat) : Prop := x.1 + x.2 ≤ y.1 ∨ y.1 + y.2 ≤ x.1

-- The arguments that main() gets, on the stack below sz.
structure ArgVector (m : Mem) (root sz : Nat) (argv : List (List UInt8)) (sp : Nat)
    (ptrs : List Nat) : Prop where
  count : ptrs.length = argv.length
  aligned : sp % 16 = 0
  pointers : ∀ (i : Nat) q, (ptrs ++ [0])[i]? = some q → userWord m root (sp + 8 * i) = q
  strings : ∀ (i : Nat) a q, argv[i]? = some a → ptrs[i]? = some q →
    userBytes m root q (a.length + 1) = a ++ [0]
  apart : (regions sp argv ptrs).Pairwise Apart
  inside : ∀ x ∈ regions sp argv ptrs, sz - USERSTACK * PGSIZE ≤ x.1 ∧ x.1 + x.2 ≤ sz
  stack : ∀ va, sz - USERSTACK * PGSIZE ≤ va → va < sz → Writable m root va
  guard : flat m root ((sz - (USERSTACK + 1) * PGSIZE) / PGSIZE) &&& PTE_U = 0

variable {m : Mem} {root : Nat} {fixed : Nat → Nat} {T : Multiset Nat} {L : List (Nat × Nat)}
  {img : Img} {argv : List (List UInt8)}

theorem places_le (sp : Nat) (argv : List (List UInt8)) : ∀ q ∈ places sp argv, q ≤ sp := by
  induction argv generalizing sp with
  | nil => exact fun q hq => by cases hq
  | cons a argv ih =>
    refine List.forall_mem_cons.mpr ⟨Nat.sub_le _ _, fun q hq => ?_⟩
    exact (ih _ q hq).trans (Nat.sub_le _ _)

theorem Shows.userBytes_eq {va : Nat} {bs : List UInt8} (h : Shows m root fixed T L img)
    (hin : ∀ k < bs.length, (va + k) / PGSIZE < pagesFor img.sz)
    (hbs : ∀ k b, bs[k]? = some b → img.byte (va + k) = b) :
    userBytes m root va bs.length = bs := by
  refine List.ext_getElem (by simp [userBytes]) fun k hk hk' => ?_
  simp only [userBytes, List.getElem_map, List.getElem_range]
  rw [h.byte_eq (hin k hk')]
  exact hbs k _ (List.getElem?_eq_getElem hk')

section Regions

variable {sp low : Nat}

def strings (sp : Nat) (argv : List (List UInt8)) : List (Nat × Nat) :=
  List.zipWith (fun q a => (q, a.length + 1)) (places sp argv) argv

theorem strings_cons (sp : Nat) (a : List UInt8) (argv : List (List UInt8)) :
    strings sp (a :: argv) = (sp - up16 (a.length + 1), a.length + 1) ::
      strings (sp - up16 (a.length + 1)) argv := rfl

theorem strings_inside (hroom : room argv ≤ sp) :
    ∀ x ∈ strings sp argv, sp - room argv ≤ x.1 ∧ x.1 + x.2 ≤ sp := by
  induction argv generalizing sp with
  | nil => exact fun x hx => by cases hx
  | cons a argv ih =>
    rw [room] at hroom ⊢
    have hle := le_up16 (a.length + 1)
    rw [strings_cons]
    refine List.forall_mem_cons.mpr ⟨⟨?_, ?_⟩, fun x hx => ?_⟩
    · show sp - (up16 (a.length + 1) + room argv) ≤ sp - up16 (a.length + 1)
      omega
    · show sp - up16 (a.length + 1) + (a.length + 1) ≤ sp
      omega
    · have := ih (by omega) x hx
      omega

theorem strings_apart (hroom : room argv ≤ sp) : (strings sp argv).Pairwise Apart := by
  induction argv generalizing sp with
  | nil => exact .nil
  | cons a argv ih =>
    rw [room] at hroom
    rw [strings_cons]
    refine .cons (fun x hx => .inr ?_) (ih (by omega))
    exact (strings_inside (by omega) x hx).2

theorem regions_apart (hroom : room argv ≤ sp)
    (hlow : low + (argv.length + 1) * 8 ≤ sp - room argv) :
    (regions low argv (places sp argv)).Pairwise Apart := by
  refine .cons (fun x hx => .inl ?_) (strings_apart hroom)
  exact hlow.trans (strings_inside hroom x hx).1

theorem regions_inside (hroom : room argv ≤ sp)
    (hlow : low + (argv.length + 1) * 8 ≤ sp - room argv) :
    ∀ x ∈ regions low argv (places sp argv), low ≤ x.1 ∧ x.1 + x.2 ≤ sp := by
  refine List.forall_mem_cons.mpr ⟨⟨le_rfl, ?_⟩, fun x hx => ?_⟩
  · show low + (argv.length + 1) * 8 ≤ sp
    omega
  · have := strings_inside hroom x hx
    omega

end Regions

-- What is on the stack when exec() has pushed the arguments.
theorem Shows.argVector (h : Shows m root fixed T L (img.stack.pushArgv argv))
    (hfits : argRoom argv ≤ USERSTACK * PGSIZE) :
    ArgVector m root img.stack.sz argv (img.stack.sz - argRoom argv) (places img.stack.sz argv) := by
  have hsz := img.stack_sz
  have hpages := img.stack_pages
  have hargs : argRoom argv = room argv + up16 ((argv.length + 1) * 8) := rfl
  have hup := le_up16 ((argv.length + 1) * 8)
  have hsplit : (pagesFor img.sz + (USERSTACK + 1)) * PGSIZE =
      (pagesFor img.sz + 1) * PGSIZE + USERSTACK * PGSIZE := by
    rw [← Nat.add_mul]
    congr 1
  have hbound : img.stack.sz < 256 ^ 8 := by
    have hle := h.pages_le
    rw [Img.pushArgv_sz, NPAGES_eq] at hle
    have := pagesFor_le hle
    omega
  have hroom : room argv ≤ img.stack.sz := by omega
  have hlow : img.stack.sz - argRoom argv + (argv.length + 1) * 8 ≤ img.stack.sz - room argv := by
    omega
  have hwords := length_words_places img.stack.sz argv
  have hpage : ∀ va < img.stack.sz, va / PGSIZE < pagesFor (img.stack.pushArgv argv).sz := by
    intro va hva
    rw [Img.pushArgv_sz]
    unfold PGSIZE pagesFor
    omega
  have hinside := regions_inside hroom hlow
  refine ⟨length_places _ _, ?_, ?_, ?_, regions_apart hroom hlow, ?_, ?_, ?_⟩
  · have hmod := argRoom_mod argv
    have hmod' : img.stack.sz % 16 = 0 := by
      rw [hsz]
      unfold PGSIZE
      omega
    omega
  · intro i q hq
    have hi := (List.getElem?_eq_some_iff.mp hq).1
    rw [List.length_append, length_places, List.length_singleton] at hi
    have hlt : q < 256 ^ 8 := by
      rcases List.mem_append.mp (List.mem_of_getElem? hq) with hmem | hmem
      · exact (places_le _ _ q hmem).trans_lt hbound
      · rw [List.mem_singleton.mp hmem]
        decide
    have hbytes : ∀ r < 8, m.byte (physical m root (img.stack.sz - argRoom argv + 8 * i + r)) =
        leByte q r := by
      intro r hr
      rw [h.byte_eq (hpage _ (by omega)), Img.pushArgv, Img.write_byte, Nat.add_assoc]
      exact overlay_inside (words_get hq hr)
    rw [userWord, leWord_eq hbytes, Nat.mod_eq_of_lt hlt]
  · intro i a q ha hq
    have hplace := places_inside hroom ha hq
    have hlen : (a ++ [0]).length = a.length + 1 := List.length_append
    rw [← hlen]
    refine h.userBytes_eq (fun k hk => hpage _ (by omega)) fun k b hb => ?_
    rw [Img.pushArgv, Img.write_byte, overlay_outside (.inr (by omega))]
    exact Img.pushStrings_string hroom ha hq hb
  · intro x hx
    have := hinside x hx
    omega
  · intro va hle hlt
    have hopen := img.stack_open va (by rw [hsplit] at hsz; omega) hlt
    refine h.writable (hpage va hlt) ?_ ?_
    · rw [pushArgv_flags]
      exact hopen.2.1
    · rw [pushArgv_flags]
      exact hopen.2.2
  · have hguard : (img.stack.sz - (USERSTACK + 1) * PGSIZE) / PGSIZE = pagesFor img.sz := by
      rw [hsz, Nat.add_mul, Nat.add_sub_cancel]
      exact Nat.mul_div_cancel _ (by decide)
    rw [hguard, h.flag_eq _ (by decide), pushArgv_flags]
    · exact img.stack_guard
    · rw [Img.pushArgv_sz, hpages]
      omega

-- exec() builds the argument vector, and fails for lack of stack if and only if it is too
-- large.
theorem exec_argVector {p : Idx} {s : State} (h : Ready p s T L) (path : List UInt8)
    (found : Option (Fin NINODE × File)) (argv : List (List UInt8))
    (hcount : argv.length < MAXARG) (hlen : ∀ a ∈ argv, a.length < PGSIZE) :
    (∀ r s', exec p path found argv s = .ok (r, s') → r ≠ -1 → r = argv.length ∧
      ∃ sp ptrs, s'.mem.load (s.kernel.proc p).trapframe SP = sp ∧
        s'.mem.load (s.kernel.proc p).trapframe A1 = sp ∧
        ArgVector s'.mem (s'.kernel.proc p).pagetable (s'.kernel.proc p).sz argv sp ptrs) ∧
    ∀ x s₁, buildImage p found s = .ok (some x, s₁) →
      ((∃ s', exec p path found argv s = .ok (-1, s')) ↔ USERSTACK * PGSIZE < argRoom argv) := by
  refine ⟨?_, ?_⟩
  · intro r s' hrun hr
    have hwp : Wp (exec p path found argv) s (fun _ => False) fun r s' => r ≠ -1 →
        r = argv.length ∧ ∃ sp ptrs, s'.mem.load (s.kernel.proc p).trapframe SP = sp ∧
          s'.mem.load (s.kernel.proc p).trapframe A1 = sp ∧
          ArgVector s'.mem (s'.kernel.proc p).pagetable (s'.kernel.proc p).sz argv sp ptrs := by
      refine exec_spec h hlen hcount (fun _ _ hne => absurd rfl hne) ?_
      intro m' T' L' ip file elf hs img root _ _ hfits hshows hregs _ _
      have hproc : (s.replace p path root img.stack.sz m').kernel.proc p =
          execed (s.kernel.proc p) path root img.stack.sz := Kernel.put_self ..
      rw [hproc]
      exact ⟨rfl, _, _, hregs.sp, hregs.a1, hshows.argVector hfits⟩
    exact hwp.ok hrun hr
  · intro x s₁ hbuild
    have hwp : Wp (exec p path found argv) s (fun _ => False) fun r _ =>
        r = -1 ↔ USERSTACK * PGSIZE < argRoom argv :=
      exec_of_build h hbuild hlen hcount (fun _ hless => iff_of_true rfl hless)
        fun _ hfits => iff_of_false (by omega) (by omega)
    obtain ⟨r, s', hrun, hiff⟩ := hwp.exists_ok
    refine ⟨?_, fun hless => ⟨s', by rw [hrun, hiff.mpr hless]⟩⟩
    rintro ⟨s'', hneg⟩
    rw [hrun] at hneg
    cases hneg
    exact hiff.mp rfl

theorem exec_argVector_sample : ∃ s T L s' sp ptrs, Ready initproc s T L ∧
    exec initproc [] (some (firstInode, oneSegment 0)) [[104, 105], []] s = .ok (2, s') ∧
    ArgVector s'.mem (s'.kernel.proc initproc).pagetable (s'.kernel.proc initproc).sz
      [[104, 105], []] sp ptrs := by
  obtain ⟨s, T, L, s', -, hready, hrun⟩ :=
    builds_exec builds_oneSegment [[104, 105], []] (by decide) (by decide)
  obtain ⟨-, sp, ptrs, -, -, hargs⟩ := (exec_argVector hready [] (some (firstInode, oneSegment 0))
    [[104, 105], []] (by decide) (by decide)).1 2 s' hrun (by decide)
  exact ⟨s, T, L, s', sp, ptrs, hready, hrun, hargs⟩

end Xv6.Exec
