import Xv6.Exec
import Xv6.Vm.Exact
import Xv6.Vm.Grow
import Mathlib.Data.List.GetD
import Mathlib.Data.Nat.Basic

namespace Xv6.Lib

variable {β : Type} {f : Nat → β} {a i k : Nat} {b : β} {bs cs : List β}

-- f with the elements of bs in the places from a on.
def overlay (f : Nat → β) (a : Nat) (bs : List β) (i : Nat) : β :=
  if a ≤ i then (bs[i - a]?).getD (f i) else f i

theorem overlay_outside (h : i < a ∨ a + bs.length ≤ i) : overlay f a bs i = f i := by
  grind [overlay]

theorem overlay_inside (h : bs[k]? = some b) : overlay f a bs (a + k) = b := by
  grind [overlay]

theorem overlay_nil : overlay f a [] = f := by
  grind [overlay_outside]

theorem overlay_append :
    overlay (overlay f a bs) (a + bs.length) cs = overlay f a (bs ++ cs) := by
  grind [overlay]

end Xv6.Lib

namespace Xv6.Exec

open Lib

-- The user part of an address space: its size, its bytes and the flags of its pages.
structure Img where
  sz : Nat
  byte : Nat → UInt8
  flags : Nat → Nat

namespace Img

def empty : Img := ⟨0, fun _ => 0, fun _ => 0⟩

def grow (img : Img) (sz fl : Nat) : Img :=
  if sz < img.sz then img
  else ⟨sz, img.byte, fun v => if v < pagesFor img.sz then img.flags v else fl⟩

def write (img : Img) (va : Nat) (bs : List UInt8) : Img :=
  { img with byte := overlay img.byte va bs }

-- A page that user code cannot use any more.
def protect (img : Img) (v : Nat) : Img :=
  { img with flags := Function.update img.flags v (img.flags v - (img.flags v &&& PTE_U)) }

@[simp] theorem write_sz (img : Img) (va : Nat) (bs : List UInt8) : (img.write va bs).sz = img.sz :=
  rfl

@[simp] theorem write_flags (img : Img) (va : Nat) (bs : List UInt8) :
    (img.write va bs).flags = img.flags := rfl

theorem write_byte (img : Img) (va : Nat) (bs : List UInt8) :
    (img.write va bs).byte = overlay img.byte va bs := rfl

theorem write_nil (img : Img) (va : Nat) : img.write va [] = img := by
  rw [write, overlay_nil]

theorem write_append (img : Img) (va : Nat) (bs cs : List UInt8) :
    (img.write va bs).write (va + bs.length) cs = img.write va (bs ++ cs) := by
  rw [write, write, write, overlay_append]

theorem grow_sz (img : Img) (sz fl : Nat) : (img.grow sz fl).sz = max img.sz sz := by
  unfold grow
  split
  · rename_i hlt
    exact (Nat.max_eq_left hlt.le).symm
  · rename_i hge
    exact (Nat.max_eq_right (Nat.not_lt.mp hge)).symm

theorem protect_self (img : Img) (v : Nat) :
    (img.protect v).flags v = img.flags v - (img.flags v &&& PTE_U) :=
  Function.update_self ..

theorem protect_other (img : Img) {v w : Nat} (h : w ≠ v) : (img.protect v).flags w = img.flags w :=
  Function.update_of_ne h ..

@[simp] theorem grow_byte (img : Img) (sz fl : Nat) : (img.grow sz fl).byte = img.byte := by
  unfold grow
  split <;> rfl

theorem grow_flags_below {v : Nat} (img : Img) (sz fl : Nat) (hv : v < pagesFor img.sz) :
    (img.grow sz fl).flags v = img.flags v := by
  unfold grow
  split
  · rfl
  · exact if_pos hv

theorem grow_flags_above {v : Nat} (img : Img) (fl : Nat) {sz : Nat} (hsz : img.sz ≤ sz)
    (hv : pagesFor img.sz ≤ v) : (img.grow sz fl).flags v = fl := by
  rw [grow, if_neg (Nat.not_lt.mpr hsz)]
  exact if_neg (Nat.not_lt.mpr hv)

end Img

-- The page table at root shows the image. Bytes that have no page yet will be zero.
structure Shows (m : Mem) (root : Nat) (fixed : Nat → Nat) (T : Multiset Nat)
    (L : List (Nat × Nat)) (img : Img) : Prop where
  space : Space m root fixed T L
  size : L.length = pagesFor img.sz
  flags : ∀ v e, L[v]? = some e → e.2 = img.flags v
  bytes : ∀ v e, L[v]? = some e → ∀ j < PGSIZE, (m.page e.1).byte j = img.byte (v * PGSIZE + j)
  beyond : ∀ va, pagesFor img.sz * PGSIZE ≤ va → img.byte va = 0

variable {m m' : Mem} {root va v sz fl : Nat} {fixed : Nat → Nat} {T T' X Y : Multiset Nat}
  {L : List (Nat × Nat)} {img : Img} {bs src : List UInt8} {P : Panic → Prop}

theorem Shows.empty (h : Space m root fixed T []) : Shows m root fixed T [] .empty where
  space := h
  size := rfl
  flags v e he := by simp at he
  bytes v e he := by simp at he
  beyond _ _ := rfl

namespace Shows

theorem entry (h : Shows m root fixed T L img) (hv : v < pagesFor img.sz) :
    ∃ e ∈ L, L[v]? = some e ∧ flat m root v = PA2PTE e.1 ||| img.flags v ∧
      PTE2PA (flat m root v) = e.1 := by
  have hlt : v < L.length := h.size ▸ hv
  have he : L[v]? = some L[v] := List.getElem?_eq_getElem hlt
  have hmem : L[v] ∈ L := List.getElem_mem hlt
  have hflat := h.space.flat_eq (h.space.vpn_lt hlt)
  rw [layout_user he] at hflat
  refine ⟨L[v], hmem, he, ?_, ?_⟩
  · rw [hflat, h.flags v _ he]
  · rw [hflat, (h.space.allocatable hmem).PTE2PA_or (h.space.flags _ hmem).1]

theorem pages_le (h : Shows m root fixed T L img) : pagesFor img.sz ≤ NPAGES :=
  h.size ▸ h.space.length_le

theorem leafFlags (h : Shows m root fixed T L img) (hv : v < pagesFor img.sz) :
    LeafFlags (img.flags v) := by
  obtain ⟨e, hmem, he, -, -⟩ := h.entry hv
  rw [← h.flags v e he]
  exact h.space.flags e hmem

theorem byte_eq (h : Shows m root fixed T L img) (hv : va / PGSIZE < pagesFor img.sz) :
    m.byte (physical m root va) = img.byte va := by
  obtain ⟨e, -, he, -, hpa⟩ := h.entry hv
  rw [byte_physical, hpa, h.bytes _ e he _ (Nat.mod_lt _ (by decide)), Nat.mul_comm,
    Nat.div_add_mod]

theorem flags_eq (h : Shows m root fixed T L img) (hv : v < pagesFor img.sz) :
    PTE_FLAGS (flat m root v) = img.flags v := by
  obtain ⟨e, -, -, hflat, -⟩ := h.entry hv
  rw [hflat, PTE_FLAGS_or _ (h.leafFlags hv).1]

theorem flag_eq {f : Nat} (h : Shows m root fixed T L img) (hv : v < pagesFor img.sz)
    (hf : f < 1024) : flat m root v &&& f = img.flags v &&& f := by
  obtain ⟨e, -, -, hflat, -⟩ := h.entry hv
  rw [hflat, or_and_flag _ (h.leafFlags hv).1 hf]

theorem readable (h : Shows m root fixed T L img) (hv : va / PGSIZE < pagesFor img.sz)
    (hU : img.flags (va / PGSIZE) &&& PTE_U ≠ 0) : Readable m root va := by
  refine ⟨?_, ?_, ?_⟩
  · have hlt : va / PGSIZE < NPAGES := hv.trans_le h.pages_le
    rw [NPAGES_eq] at hlt
    unfold PGSIZE at hlt
    unfold MAXVA
    omega
  · rw [h.flag_eq hv (by decide)]
    exact (h.leafFlags hv).2.1
  · rwa [h.flag_eq hv (by decide)]

theorem writable (h : Shows m root fixed T L img) (hv : va / PGSIZE < pagesFor img.sz)
    (hU : img.flags (va / PGSIZE) &&& PTE_U ≠ 0) (hW : img.flags (va / PGSIZE) &&& PTE_W ≠ 0) :
    Writable m root va := by
  obtain ⟨hva, hV, hU⟩ := h.readable hv hU
  refine ⟨hva, hV, hU, ?_⟩
  rwa [h.flag_eq hv (by decide)]

theorem frame (h : Shows m root fixed T L img) (ht : m.Trade m' X Y)
    (hown : m.Owned (T + leaves L + X)) : Shows m' root fixed T L img where
  space := h.space.frame ht hown
  size := h.size
  flags := h.flags
  bytes v e he j hj := by
    have hmem : e.1 ∈ T + leaves L :=
      Multiset.mem_add.mpr (.inr (mem_leaves (List.mem_of_getElem? he)))
    rw [ht.unchanged hown hmem]
    exact h.bytes v e he j hj
  beyond := h.beyond

-- Bytes that are written inside one page.
theorem put (h : Shows m root fixed T L img) (bs : List UInt8)
    (hv : va / PGSIZE < pagesFor img.sz) (hfit : va % PGSIZE + bs.length ≤ PGSIZE) :
    Shows (m.put root va bs) root fixed T L (img.write va bs) ∧
      m.Trade (m.put root va bs) (leaves L) (leaves L) := by
  obtain ⟨e, hmem, he, -, hpa⟩ := h.entry hv
  have ht : m.Trade (m.put root va bs) (leaves L) (leaves L) := by
    rw [Mem.put, hpa]
    exact .setPage _ (mem_leaves hmem)
  have hpage : va / PGSIZE * PGSIZE + va % PGSIZE = va := by
    rw [Nat.mul_comm]
    exact Nat.div_add_mod va PGSIZE
  refine ⟨⟨?_, h.size, h.flags, ?_, ?_⟩, ht⟩
  · refine h.space.congr (fun q hq => ?_) ((ht.frame_left T).owned h.space.owned)
    rw [Mem.put, hpa]
    refine Mem.setPage_other m _ ?_
    rintro rfl
    exact h.space.owned.disjoint hq (mem_leaves hmem)
  · intro w e' he' j hj
    by_cases hw : w = va / PGSIZE
    · subst hw
      rw [he] at he'
      cases he'
      rw [Mem.put, hpa, Mem.page, Mem.setPage_self, byte_putBytes _ hj]
      by_cases hin : va % PGSIZE ≤ j ∧ j < va % PGSIZE + bs.length
      · have hk : j - va % PGSIZE < bs.length := by omega
        have hplace : va / PGSIZE * PGSIZE + j = va + (j - va % PGSIZE) := by omega
        rw [if_pos hin, Img.write_byte, hplace, overlay_inside (List.getElem?_eq_getElem hk),
          List.getD_eq_getElem _ _ hk]
      · rw [if_neg hin, Img.write_byte, overlay_outside (by omega), h.bytes _ e he j hj]
    · have hother : e'.1 ≠ e.1 := fun heq => hw (h.space.page_inj he' he heq)
      have hout : w * PGSIZE + j < va ∨ va + bs.length ≤ w * PGSIZE + j := by
        unfold PGSIZE at *
        omega
      rw [Mem.put, hpa, Mem.page, Mem.setPage_other m _ hother, Img.write_byte, overlay_outside hout]
      exact h.bytes w e' he' j hj
  · intro va' hva'
    rw [Img.write_sz] at hva'
    have hout : va + bs.length ≤ va' := by
      have hle := Nat.mul_le_mul_right PGSIZE (Nat.succ_le_of_lt hv)
      rw [Nat.succ_mul] at hle
      omega
    rw [Img.write_byte, overlay_outside (.inr hout)]
    exact h.beyond va' hva'

-- Growing adds pages of zeros.
theorem alloc {Q : Nat → Mem → Prop} {xperm : Nat} (h : Shows m root fixed T L img)
    (hfixed : High fixed) (hxperm : xperm < 1024)
    (hfail : ∀ m' T', Space m' root fixed T' L → m.Trade m' T T' → Q 0 m')
    (hdone : ∀ m' T' A,
      Shows m' root fixed T' (L ++ A) (img.grow sz (PTE_R ||| PTE_U ||| xperm ||| PTE_V)) →
      m.Trade m' T (T' + leaves A) → Q (max img.sz sz) m') :
    Wp (uvmalloc root img.sz sz xperm) m P Q := by
  refine uvmalloc_spec h.space hfixed h.size hxperm (fun hlt => ?_)
    (fun m' T' _ _ h' ht' _ => hfail m' T' h' ht') fun m' T' A hle _ hlen hA h' ht' => ?_
  · have hd := hdone m T []
    rw [Img.grow, if_pos hlt, List.append_nil, leaves_nil, add_zero, Nat.max_eq_left hlt.le] at hd
    exact hd h .refl
  · rw [← Nat.max_eq_right hle]
    have hnew : ∀ v e, L.length ≤ v → (L ++ A)[v]? = some e → e ∈ A := by
      intro v e hv he
      rw [List.getElem?_append_right hv] at he
      exact List.mem_of_getElem? he
    refine hdone m' T' A ⟨h', ?_, ?_, ?_, ?_⟩ ht'
    · rw [hlen, Img.grow_sz, Nat.max_eq_right hle]
    · intro v e he
      by_cases hv : v < L.length
      · rw [List.getElem?_append_left hv] at he
        rw [Img.grow_flags_below _ _ _ (h.size ▸ hv), h.flags v e he]
      · rw [Img.grow_flags_above _ _ hle (by rw [← h.size]; omega)]
        exact (hA e (hnew v e (by omega) he)).1
    · intro v e he j hj
      rw [Img.grow_byte]
      by_cases hv : v < L.length
      · rw [List.getElem?_append_left hv] at he
        rw [h.space.page_eq ht' e (List.mem_of_getElem? he)]
        exact h.bytes v e he j hj
      · have hzero : img.byte (v * PGSIZE + j) = 0 := by
          refine h.beyond _ ((Nat.mul_le_mul_right PGSIZE ?_).trans (Nat.le_add_right _ _))
          rw [← h.size]
          omega
        rw [(hA e (hnew v e (by omega) he)).2, hzero, Page.byte, dif_pos hj, Page.fill]
    · intro va hva
      rw [Img.grow_sz, Nat.max_eq_right hle] at hva
      rw [Img.grow_byte]
      exact h.beyond va ((Nat.mul_le_mul_right PGSIZE (pagesFor_mono hle)).trans hva)

end Shows

theorem and_PTE_U (x : Nat) : x &&& PTE_U = x / 16 % 2 * 16 := by
  have hbit : x.testBit 4 = decide (x / 16 % 2 = 1) := Nat.testBit_eq_decide_div_mod_eq
  rw [show PTE_U = 2 ^ 4 from rfl, Nat.and_two_pow, hbit]
  by_cases hone : x / 16 % 2 = 1
  · rw [hone]
    rfl
  · obtain hzero : x / 16 % 2 = 0 := by omega
    rw [hzero]
    rfl

theorem LeafFlags_clear {x : Nat} (h : LeafFlags x) : LeafFlags (x - (x &&& PTE_U)) := by
  obtain ⟨hlt, hV, hR⟩ := h
  rw [PTE_V_iff, Nat.testBit_eq_decide_div_mod_eq, decide_eq_true_iff] at hV
  rw [PTE_R_iff, Nat.testBit_eq_decide_div_mod_eq, decide_eq_true_iff] at hR
  refine ⟨by omega, ?_, ?_⟩
  · rw [PTE_V_iff, Nat.testBit_eq_decide_div_mod_eq, decide_eq_true_iff, and_PTE_U]
    omega
  · rw [PTE_R_iff, Nat.testBit_eq_decide_div_mod_eq, decide_eq_true_iff, and_PTE_U]
    omega

theorem clear_PTE_U (x : Nat) : (x - (x &&& PTE_U)) &&& PTE_U = 0 := by
  rw [and_PTE_U, and_PTE_U]
  omega

theorem PA2PTE_or_clear {x : Nat} (pa : Nat) (h : x < 1024) :
    (PA2PTE pa ||| x) - ((PA2PTE pa ||| x) &&& PTE_U) = PA2PTE pa ||| (x - (x &&& PTE_U)) := by
  have hle : x &&& PTE_U ≤ x := Nat.and_le_left
  rw [or_and_flag pa h (by decide), PA2PTE_or pa h, PA2PTE_or pa (by omega)]
  omega

theorem layout_set {e : Nat × Nat} (hv : v < L.length) :
    Function.update (layout fixed L) v (PA2PTE e.1 ||| e.2) = layout fixed (L.set v e) := by
  funext w
  by_cases hw : w = v
  · subst hw
    rw [Function.update_self, layout_user (List.getElem?_set_self hv)]
  · rw [Function.update_of_ne hw, layout, layout, List.getElem?_set_ne (Ne.symm hw)]

theorem leaves_set {pa fl : Nat} (he : L[v]? = some (pa, fl)) (fl' : Nat) :
    leaves (L.set v (pa, fl')) = leaves L := by
  have hmap : (L.map Prod.fst).set v pa = L.map Prod.fst := by
    refine List.ext_getElem? fun w => ?_
    by_cases hw : v = w
    · subst hw
      have hlt : v < (L.map Prod.fst).length := by
        rw [List.length_map]
        exact (List.getElem?_eq_some_iff.mp he).1
      rw [List.getElem?_set_self hlt, List.getElem?_map, he]
      rfl
    · rw [List.getElem?_set_ne hw]
  rw [leaves, List.map_set, hmap]
  rfl

-- uvmclear() takes a page from user code.
theorem Shows.clear {Q : Unit → Mem → Prop} (h : Shows m root fixed T L img)
    (hv : v < pagesFor img.sz)
    (hdone : ∀ m' L', Shows m' root fixed T L' (img.protect v) → leaves L' = leaves L →
      m.Trade m' T T → Q () m') : Wp (uvmclear root (v * PGSIZE)) m P Q := by
  obtain ⟨e, hmem, he, -, -⟩ := h.entry hv
  obtain ⟨pa, fl⟩ := e
  have hlt : v < L.length := h.size ▸ hv
  have hdiv : v * PGSIZE / 4096 = v := Nat.mul_div_cancel v (by decide)
  have hfl : fl = img.flags v := h.flags v _ he
  have hleaf : LeafFlags fl := h.space.flags _ hmem
  have hset := leaves_set he (fl - (fl &&& PTE_U))
  have hmaxva : v * PGSIZE < MAXVA := by
    have hpages := h.pages_le
    rw [NPAGES_eq] at hpages
    unfold PGSIZE MAXVA
    omega
  refine Wp.bind (walk_spec h.space.maps (fun hge => absurd hmaxva (by omega)) (fun hzero => ?_)
    fun pte hslot => Wp.bind (loadPte_spec (storePte_spec ?_)))
  · rw [hdiv, layout_user he] at hzero
    have hV := (hleaf.isLeaf pa).1
    rw [hzero] at hV
    exact absurd rfl hV
  rw [hslot.load, hdiv, layout_user he, PA2PTE_or_clear pa hleaf.1]
  have ht : m.Trade (m.store pte.1 pte.2 (PA2PTE pa ||| (fl - (fl &&& PTE_U)))) T T :=
    .store hslot.mem
  have hpte : PA2PTE pa ||| (fl - (fl &&& PTE_U)) < 0x10000000000000000 := by
    have hpa := (h.space.allocatable hmem).lt
    rw [PA2PTE_or pa (LeafFlags_clear hleaf).1]
    have := (LeafFlags_clear hleaf).1
    omega
  have hmaps := hslot.store _ hpte
  rw [hdiv, layout_set (e := (pa, fl - (fl &&& PTE_U))) hlt] at hmaps
  refine hdone _ _ ⟨⟨hmaps, ?_, ?_⟩, ?_, ?_, ?_, h.beyond⟩ hset ht
  · intro e' he'
    rcases List.mem_or_eq_of_mem_set he' with he' | rfl
    · exact h.space.flags e' he'
    · exact LeafFlags_clear hleaf
  · rw [hset]
    exact (ht.frame _).owned h.space.owned
  · rw [List.length_set]
    exact h.size
  · intro w e' he'
    by_cases hw : w = v
    · subst hw
      rw [List.getElem?_set_self hlt] at he'
      cases he'
      rw [Img.protect_self, hfl]
    · rw [List.getElem?_set_ne (Ne.symm hw)] at he'
      rw [Img.protect_other _ hw]
      exact h.flags w e' he'
  · intro w e' he' j hj
    by_cases hw : w = v
    · subst hw
      rw [List.getElem?_set_self hlt] at he'
      cases he'
      rw [h.space.page_eq ht _ hmem]
      exact h.bytes w _ he j hj
    · rw [List.getElem?_set_ne (Ne.symm hw)] at he'
      rw [h.space.page_eq ht _ (List.mem_of_getElem? he')]
      exact h.bytes w e' he' j hj

-- The image lets user code write at va.
def Img.Open (img : Img) (va : Nat) : Prop :=
  va / PGSIZE < pagesFor img.sz ∧ img.flags (va / PGSIZE) &&& PTE_U ≠ 0 ∧
    img.flags (va / PGSIZE) &&& PTE_W ≠ 0

theorem Shows.copyoutLoop {fuel : Nat} (h : Shows m root fixed T L img) (hfuel : src.length ≤ fuel)
    (hopen : ∀ k < src.length, img.Open (va + k)) :
    ∃ m', copyoutLoop root fuel va src m = .ok (0, m') ∧
      Shows m' root fixed T L (img.write va src) ∧ m.Trade m' (leaves L) (leaves L) := by
  induction fuel generalizing m img va src with
  | zero =>
    obtain rfl : src = [] := List.length_eq_zero_iff.mp (Nat.le_zero.mp hfuel)
    rw [Img.write_nil]
    exact ⟨m, rfl, h, .refl⟩
  | succ fuel ih =>
    by_cases hsrc : src = []
    · subst hsrc
      rw [Img.write_nil]
      exact ⟨m, rfl, h, .refl⟩
    · have hpos := List.length_pos_iff.mpr hsrc
      obtain ⟨hv, hU, hW⟩ : img.Open va := hopen 0 hpos
      have hw := h.writable hv hU hW
      rw [copyoutLoop_succ fuel hsrc, if_pos hw]
      generalize hn : min (PGSIZE - va % PGSIZE) src.length = n
      have hlt : va % PGSIZE < PGSIZE := Nat.mod_lt _ (by decide)
      have htake : (src.take n).length = n := List.length_take_of_le (by omega)
      have hdrop : (src.drop n).length = src.length - n := List.length_drop
      obtain ⟨h₁, ht₁⟩ := h.put (src.take n) hv (by omega)
      have hparts : (img.write va (src.take n)).write (va + n) (src.drop n) = img.write va src := by
        have happend := img.write_append va (src.take n) (src.drop n)
        rwa [htake, List.take_append_drop] at happend
      by_cases hmore : src.drop n = []
      · rw [hmore, Img.write_nil] at hparts
        rw [hmore, copyoutLoop_nil, ← hparts]
        exact ⟨_, rfl, h₁, ht₁⟩
      · have hne := List.length_pos_iff.mpr hmore
        have hnext : u64 (PGROUNDDOWN va + PGSIZE) = va + n := next_page hw.1 (by omega)
        rw [hnext]
        have hopen' : ∀ k < (src.drop n).length, img.Open (va + n + k) := by
          intro k hk
          rw [Nat.add_assoc]
          exact hopen (n + k) (by omega)
        have hless : (src.drop n).length ≤ fuel := by omega
        obtain ⟨m', hrun, h', ht'⟩ := ih h₁ hless hopen'
        rw [hparts] at h'
        exact ⟨m', hrun, h', ht₁.trans ht'⟩

theorem Shows.copyout (h : Shows m root fixed T L img) (va : Nat) (src : List UInt8)
    (hopen : ∀ k < src.length, img.Open (va + k)) :
    ∃ m', copyout root va src m = .ok (0, m') ∧
      Shows m' root fixed T L (img.write va src) ∧ m.Trade m' (leaves L) (leaves L) :=
  h.copyoutLoop le_rfl hopen

end Xv6.Exec
