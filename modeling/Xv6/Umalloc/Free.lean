import Xv6.Umalloc
import Xv6.Lib.Cyclic
import Xv6.Lib.Cover

namespace Xv6.Umalloc

open Lib

-- A block of size units, where the first unit is its header.
structure Block where
  addr : Nat
  size : Nat
  deriving DecidableEq

namespace Block

def stop (b : Block) : Nat := b.addr + HEADER * b.size

def extent (b : Block) : Extent := ⟨b.addr, b.stop⟩

def Before (x y : Block) : Prop := x.addr < y.addr ∧ x.stop ≤ y.addr

-- Two blocks that meet, as one.
def join (x y : Block) : Block := ⟨x.addr, x.size + y.size⟩

theorem stop_join {x y : Block} (h : x.stop = y.addr) : (x.join y).stop = y.stop := by
  grind [stop, join]

end Block

def total (l : List Block) : Nat := (l.map Block.size).sum

def extents (l : List Block) : List Extent := l.map Block.extent

-- base as a block without units
def node (base : Nat) : Block := ⟨base, 0⟩

variable {base p bp fuel : Nat} {h h' : Heap} {l l₁ l₂ : List Block} {b x y : Block}

-- The nodes of the free list from base on, in the order of their addresses.
structure Linked (base : Nat) (h : Heap) (l : List Block) : Prop where
  head : l.head? = some (node base)
  cyclic : Cyclic h.next (l.map Block.addr)
  size : ∀ x ∈ l, h.size x.addr = x.size
  pos : ∀ x ∈ l.tail, 0 < x.size
  order : l.Pairwise Block.Before

namespace Heap

@[simp] theorem next_setPtr (h : Heap) (p v : Nat) :
    (h.setPtr p v).next = Function.update h.next p v := by
  funext a
  by_cases ha : a = p
  · subst ha
    simp [next, setPtr]
  · simp [next, setPtr, ha]

@[simp] theorem size_setPtr (h : Heap) (p v : Nat) : (h.setPtr p v).size = h.size := by
  funext a
  by_cases ha : a = p
  · subst ha
    simp [size, setPtr]
  · simp [size, setPtr, ha]

@[simp] theorem next_setSize (h : Heap) (p v : Nat) : (h.setSize p v).next = h.next := by
  funext a
  by_cases ha : a = p
  · subst ha
    simp [next, setSize]
  · simp [next, setSize, ha]

@[simp] theorem size_setSize (h : Heap) (p v : Nat) :
    (h.setSize p v).size = Function.update h.size p (v % 2 ^ 32) := by
  funext a
  by_cases ha : a = p
  · subst ha
    simp [size, setSize]
  · simp [size, setSize, ha]

@[simp] theorem next_setFreep (h : Heap) (p : Nat) : (h.setFreep p).next = h.next := rfl

@[simp] theorem size_setFreep (h : Heap) (p : Nat) : (h.setFreep p).size = h.size := rfl

@[simp] theorem freep_setFreep (h : Heap) (p : Nat) : (h.setFreep p).freep = p := rfl

@[simp] theorem sbrks_setFreep (h : Heap) (p : Nat) : (h.setFreep p).sbrks = h.sbrks := rfl

@[simp] theorem sbrks_setPtr (h : Heap) (p v : Nat) : (h.setPtr p v).sbrks = h.sbrks := rfl

@[simp] theorem sbrks_setSize (h : Heap) (p v : Nat) : (h.setSize p v).sbrks = h.sbrks := rfl

@[simp] theorem freep_setPtr (h : Heap) (p v : Nat) : (h.setPtr p v).freep = h.freep := rfl

@[simp] theorem freep_setSize (h : Heap) (p v : Nat) : (h.setSize p v).freep = h.freep := rfl

-- A node that is put after p.
def insert (h : Heap) (p bp : Nat) : Heap := (h.setPtr bp (h.next p)).setPtr p bp

-- A node that takes in the one after it.
def join (h : Heap) (p : Nat) : Heap :=
  (h.setSize p (h.size p + h.size (h.next p))).setPtr p (h.next (h.next p))

end Heap

theorem Linked.ne_addr (hl : Linked base h (l₁ ++ x :: l₂)) : ∀ y ∈ l₁ ++ l₂, y.addr ≠ x.addr := by
  intro y hy
  have horder := List.pairwise_append.mp hl.order
  rcases List.mem_append.mp hy with hy | hy
  · have := horder.2.2 y hy x List.mem_cons_self
    exact Nat.ne_of_lt this.1
  · have := List.rel_of_pairwise_cons horder.2.1 hy
    exact Nat.ne_of_gt this.1

theorem Linked.insert (hl : Linked base h (l₁ ++ x :: l₂)) (hb : h.size b.addr = b.size)
    (hpos : 0 < b.size) (hbefore : ∀ y ∈ l₁ ++ [x], y.Before b) (hafter : ∀ y ∈ l₂, b.Before y) :
    Linked base (h.insert x.addr b.addr) (l₁ ++ x :: b :: l₂) := by
  have hx : x.addr < b.addr := (hbefore x (by simp)).1
  have hne : ∀ y ∈ l₁ ++ l₂, y.addr ≠ b.addr := by
    intro y hy
    rcases List.mem_append.mp hy with hy | hy
    · exact Nat.ne_of_lt (hbefore y (by simp [hy])).1
    · exact Nat.ne_of_gt (hafter y hy).1
  have hnext : (h.insert x.addr b.addr).next =
      Function.update (Function.update h.next b.addr (h.next x.addr)) x.addr b.addr := by
    simp [Heap.insert]
  refine ⟨?_, ?_, ?_, ?_, ?_⟩
  · have := hl.head
    cases l₁ <;> simpa using this
  · rw [List.map_append, List.map_cons, List.map_cons]
    have hcyclic := hl.cyclic
    rw [List.map_append, List.map_cons] at hcyclic
    apply hcyclic.insert
    · rw [hnext, Function.update_self]
    · rw [hnext, Function.update_of_ne (Nat.ne_of_gt hx), Function.update_self]
    · intro a ha
      rw [← List.map_append] at ha
      obtain ⟨y, hy, rfl⟩ := List.mem_map.mp ha
      rw [hnext, Function.update_of_ne (hl.ne_addr y hy), Function.update_of_ne (hne y hy)]
  · intro y hy
    simp only [Heap.insert, Heap.size_setPtr]
    grind [size]
  · grind [pos, List.tail_cons]
  · obtain ⟨h₁, h₂, h₁₂⟩ := List.pairwise_append.mp hl.order
    grind [List.pairwise_cons, List.mem_cons_self, List.mem_cons_of_mem]

theorem Linked.left_ne_nil (hl : Linked base h (l₁ ++ x :: y :: l₂)) (hstop : x.stop = y.addr) :
    l₁ ≠ [] := by
  rintro rfl
  have hx : x = node base := by simpa using hl.head
  have hlt := (List.rel_of_pairwise_cons hl.order List.mem_cons_self : x.Before y).1
  simp only [hx, Block.stop, node] at hstop hlt
  omega

theorem Linked.next_eq (hl : Linked base h (l₁ ++ x :: y :: l₂)) : h.next x.addr = y.addr := by
  have hcyclic := hl.cyclic
  grind [Cyclic.next_eq]

theorem Linked.join (hl : Linked base h (l₁ ++ x :: y :: l₂)) (hstop : x.stop = y.addr)
    (hsize : x.size + y.size < 2 ^ 32) : Linked base (h.join x.addr) (l₁ ++ x.join y :: l₂) := by
  have hl₁ := hl.left_ne_nil hstop
  have hnext : (h.join x.addr).next = Function.update h.next x.addr (h.next y.addr) := by
    simp [Heap.join, hl.next_eq]
  have hsizes : (h.join x.addr).size = Function.update h.size x.addr (x.size + y.size) := by
    have hmod : (x.size + y.size) % 4294967296 = x.size + y.size := Nat.mod_eq_of_lt hsize
    simp [Heap.join, hl.next_eq, hl.size x (by simp), hl.size y (by simp), hmod]
  have hne : ∀ w ∈ l₁ ++ l₂, w.addr ≠ x.addr := by
    grind [ne_addr, List.mem_append_left, List.mem_append_right, List.mem_cons_of_mem]
  obtain ⟨h₁, h₂, h₁₂⟩ := List.pairwise_append.mp hl.order
  rw [List.pairwise_cons, List.pairwise_cons] at h₂
  refine ⟨?_, ?_, ?_, ?_, ?_⟩
  · grind [List.head?_append_of_ne_nil, head]
  · rw [List.map_append, List.map_cons]
    have hcyclic := hl.cyclic
    rw [List.map_append, List.map_cons, List.map_cons] at hcyclic
    apply hcyclic.erase
    · rw [hnext]
      exact Function.update_self ..
    · intro a ha
      rw [← List.map_append] at ha
      obtain ⟨w, hw, rfl⟩ := List.mem_map.mp ha
      rw [hnext, Function.update_of_ne (hne w hw)]
  · intro w hw
    rw [hsizes]
    have hw : w = x.join y ∨ w ∈ l₁ ++ l₂ := by
      grind
    rcases hw with rfl | hw
    · exact Function.update_self ..
    grind [Function.update_of_ne, size]
  · intro w hw
    have hold := hl.pos
    rw [List.tail_append_of_ne_nil hl₁] at hw hold
    simp only [List.mem_append, List.mem_cons] at hw hold
    rcases hw with hw | rfl | hw
    · exact hold w (by tauto)
    · exact Nat.add_pos_left (hold x (by tauto)) _
    · exact hold w (by tauto)
  · refine List.pairwise_append.mpr ⟨h₁, List.pairwise_cons.mpr ⟨?_, h₂.2.2⟩, ?_⟩
    · intro w hw
      refine ⟨(h₂.1 w (List.mem_cons_of_mem _ hw)).1, ?_⟩
      rw [Block.stop_join hstop]
      exact (h₂.2.1 w hw).2
    · intro w hw v hv
      rcases List.mem_cons.mp hv with rfl | hv
      · exact h₁₂ w hw x List.mem_cons_self
      grind

-- What free() does once it has found p is to put bp after p and then to join what meets.
def Heap.place (h : Heap) (p bp : Nat) : Heap :=
  let mid := h.insert p bp
  let mid := if bp + HEADER * h.size bp = h.next p then mid.join bp else mid
  if p + HEADER * h.size p = bp then mid.join p else mid

theorem Heap.next_link (hp : bp ≠ p)
    (hq : bp + HEADER * h.size bp = h.next p → h.next p ≠ p ∧ h.next p ≠ bp) :
    (h.link p bp).next = (h.place p bp).next := by
  funext a
  by_cases hu : bp + HEADER * h.size bp = h.next p
  · obtain ⟨hqp, hqb⟩ := hq hu
    by_cases hd : p + HEADER * h.size p = bp
    · simp [link, linkNext, linkPrev, place, insert, join, hu, hd, Function.update_apply, hp, hp.symm,
        hqp, hqb]
      grind
    · simp [link, linkNext, linkPrev, place, insert, join, hu, hd, Function.update_apply, hp, hp.symm,
        hqp, hqb]
      grind
  · by_cases hd : p + HEADER * h.size p = bp
    all_goals simp_all [link, linkNext, linkPrev, place, insert, join]

theorem Heap.size_link (hp : bp ≠ p)
    (hq : bp + HEADER * h.size bp = h.next p → h.next p ≠ p ∧ h.next p ≠ bp) :
    (h.link p bp).size = (h.place p bp).size := by
  funext a
  by_cases hu : bp + HEADER * h.size bp = h.next p
  · obtain ⟨hqp, hqb⟩ := hq hu
    by_cases hd : p + HEADER * h.size p = bp
    · simp [link, linkNext, linkPrev, place, insert, join, hu, hd, Function.update_apply, hp, hp.symm,
        hqp, hqb]
    · simp [link, linkNext, linkPrev, place, insert, join, hu, hd, Function.update_apply, hp, hp.symm,
        hqp, hqb]
  · by_cases hd : p + HEADER * h.size p = bp
    all_goals simp_all [link, linkNext, linkPrev, place, insert, join]

theorem Linked.congr (hl : Linked base h l) (hnext : ∀ x ∈ l, h'.next x.addr = h.next x.addr)
    (hsize : ∀ x ∈ l, h'.size x.addr = h.size x.addr) : Linked base h' l := by
  refine ⟨hl.head, hl.cyclic.congr ?_, fun x hx => (hsize x hx).trans (hl.size x hx), hl.pos, hl.order⟩
  grind

-- No two free blocks meet.
def Gaps (l : List Block) : Prop := l.IsChain fun x y => x.stop < y.addr

theorem gaps_split : Gaps (l₁ ++ x :: l₂) ↔
    Gaps l₁ ∧ (∀ y ∈ l₁.getLast?, y.stop < x.addr) ∧ Gaps (x :: l₂) := by
  rw [Gaps, List.isChain_append]
  simp [Gaps]
  tauto

theorem gaps_cons : Gaps (x :: l) ↔ (∀ y ∈ l.head?, x.stop < y.addr) ∧ Gaps l := List.isChain_cons

-- A free list with a block more, which may be joined with its neighbours.
structure Released (b : Block) (l l' : List Block) : Prop where
  cover : ∀ a, cover (extents l') a = cover (extents (b :: l)) a
  total : total l' = total (b :: l)
  mem : ∃ y ∈ l', y.addr ≤ b.addr ∧ b.stop ≤ y.stop
  other : ∀ y ∈ l', y ∈ l ∨ y.addr ≤ b.addr ∧ b.stop ≤ y.stop
  addr : ∀ y ∈ l', y.addr = b.addr ∨ ∃ z ∈ l, y.addr = z.addr
  length : l'.length ≤ l.length + 1

theorem cover_join (hstop : x.stop = y.addr) (a : Nat) :
    cover (extents [x.join y]) a = cover (extents [x, y]) a := by
  have hx : x.addr ≤ x.stop := Nat.le_add_right ..
  have hy : y.addr ≤ y.stop := Nat.le_add_right ..
  have hjoin := cover_meet hx (hstop ▸ hy) a
  rw [extents, List.map_singleton, Block.extent, Block.stop_join hstop]
  simp only [extents, List.map_cons, List.map_nil, Block.extent, ← hstop]
  exact hjoin

theorem released_insert : Released b (l₁ ++ x :: l₂) (l₁ ++ x :: b :: l₂) where
  cover a := by
    simp only [extents, List.map_append, List.map_cons, cover_append, cover_cons]
    omega
  total := by
    grind [total]
  mem := ⟨b, by simp, Nat.le_refl _, Nat.le_refl _⟩
  other y hy := by
    grind
  addr y hy := by
    grind
  length := by
    grind

theorem Released.join (hr : Released b l (l₁ ++ x :: y :: l₂)) (hstop : x.stop = y.addr)
    (hmem : x.addr ≤ b.addr ∧ b.stop ≤ y.stop) :
    Released b l (l₁ ++ x.join y :: l₂) where
  cover a := by
    have hold := hr.cover a
    have hjoin := cover_join hstop a
    grind [cover_append, cover_cons, cover_nil, extents]
  total := by
    have hold := hr.total
    grind [Umalloc.total, Block.join]
  mem := ⟨x.join y, by simp, hmem.1, by rw [Block.stop_join hstop]; exact hmem.2⟩
  other z hz := by
    simp only [List.mem_append, List.mem_cons] at hz
    rcases hz with hz | rfl | hz
    · exact hr.other z (by simp [hz])
    · exact .inr ⟨hmem.1, by rw [Block.stop_join hstop]; exact hmem.2⟩
    · exact hr.other z (by simp [hz])
  addr z hz := by
    simp only [List.mem_append, List.mem_cons] at hz
    rcases hz with hz | rfl | hz
    · exact hr.addr z (by simp [hz])
    · exact hr.addr x (by simp)
    · exact hr.addr z (by simp [hz])
  length := by
    have hold := hr.length
    grind

theorem Linked.base_le (hl : Linked base h l) : ∀ y ∈ l, base ≤ y.addr := by
  intro y hy
  obtain ⟨l', rfl⟩ := List.head?_eq_some_iff.mp hl.head
  rcases List.mem_cons.mp hy with rfl | hy
  · exact Nat.le_refl _
  · exact Nat.le_of_lt (List.rel_of_pairwise_cons hl.order hy).1

theorem Linked.next_last (hl : Linked base h (l ++ [x])) : h.next x.addr = base := by
  have hcyclic := hl.cyclic
  rw [List.map_append, List.map_singleton] at hcyclic
  have hfrom := cyclic_cons.mp hcyclic.from
  have hhead : (l.map Block.addr ++ [x.addr]).head? = some base := by
    rw [← List.map_singleton (f := Block.addr), ← List.map_append, List.head?_map, hl.head]
    rfl
  grind

theorem Linked.up_iff (hl : Linked base h (l₁ ++ x :: l₂)) (hb : h.size b.addr = b.size)
    (hbefore : x.Before b) :
    b.addr + HEADER * h.size b.addr = h.next x.addr ↔ ∃ q l₃, l₂ = q :: l₃ ∧ b.stop = q.addr := by
  rw [hb, ← Block.stop]
  cases l₂ with
  | nil =>
    have hnext : h.next x.addr = base := hl.next_last
    have hbase : base < b.addr := Nat.lt_of_le_of_lt (hl.base_le x (by simp)) hbefore.1
    have hstop : b.addr ≤ b.stop := Nat.le_add_right ..
    grind
  | cons q l₃ =>
    grind [next_eq]

-- The list once bp is after p and joined with the next node if they meet.
theorem Linked.linkNext (hl : Linked base h (l₁ ++ x :: l₂)) (hgaps : Gaps l₂)
    (hb : h.size b.addr = b.size) (hpos : 0 < b.size) (hbefore : ∀ y ∈ l₁ ++ [x], y.Before b)
    (hafter : ∀ y ∈ l₂, b.Before y) (htotal : total (b :: (l₁ ++ x :: l₂)) < 2 ^ 32) :
    ∃ c r, c.addr = b.addr ∧ b.stop ≤ c.stop ∧ Gaps (c :: r) ∧
      Released b (l₁ ++ x :: l₂) (l₁ ++ x :: c :: r) ∧
      Linked base (if b.addr + HEADER * h.size b.addr = h.next x.addr
        then (h.insert x.addr b.addr).join b.addr else h.insert x.addr b.addr) (l₁ ++ x :: c :: r) := by
  have hinsert := hl.insert hb hpos hbefore hafter
  have hreleased : Released b (l₁ ++ x :: l₂) (l₁ ++ x :: b :: l₂) := released_insert
  have hup := hl.up_iff hb (hbefore x (by simp))
  by_cases hmeet : b.addr + HEADER * h.size b.addr = h.next x.addr
  · rw [if_pos hmeet]
    obtain ⟨q, l₃, rfl, hstop⟩ := hup.mp hmeet
    have hsize : b.size + q.size < 2 ^ 32 := by
      grind [total]
    have hb : b.stop ≤ q.stop := hstop ▸ Nat.le_add_right ..
    have hassoc : ∀ r, l₁ ++ x :: r = (l₁ ++ [x]) ++ r := fun r => List.append_cons ..
    rw [hassoc (b :: q :: l₃)] at hinsert hreleased
    have hjoin := hinsert.join hstop hsize
    have hreljoin := hreleased.join hstop ⟨Nat.le_refl _, hb⟩
    rw [← hassoc (b.join q :: l₃)] at hjoin hreljoin
    refine ⟨b.join q, l₃, rfl, ?_, ?_, hreljoin, hjoin⟩
    all_goals grind [Block.stop_join, gaps_cons]
  · rw [if_neg hmeet]
    refine ⟨b, l₂, rfl, Nat.le_refl _, gaps_cons.mpr ⟨?_, hgaps⟩, hreleased, hinsert⟩
    intro q hq
    obtain ⟨l₃, rfl⟩ := List.head?_eq_some_iff.mp hq
    have hle := (hafter q (by simp)).2
    grind

-- What free() makes of the list, where bp comes after p.
theorem Linked.link (hl : Linked base h (l₁ ++ x :: l₂)) (hgaps : Gaps (l₁ ++ x :: l₂))
    (hb : h.size b.addr = b.size) (hpos : 0 < b.size) (hbefore : ∀ y ∈ l₁ ++ [x], y.Before b)
    (hafter : ∀ y ∈ l₂, b.Before y) (htotal : total (b :: (l₁ ++ x :: l₂)) < 2 ^ 32) :
    ∃ l', Linked base (h.link x.addr b.addr) l' ∧ Gaps l' ∧ Released b (l₁ ++ x :: l₂) l' ∧
      ∃ y ∈ l', y.addr = x.addr := by
  have hxb : x.Before b := hbefore x (by simp)
  have hne : b.addr ≠ x.addr := Nat.ne_of_gt hxb.1
  have hsx : h.size x.addr = x.size := hl.size x (by simp)
  obtain ⟨hg₁, hgx, hg⟩ := gaps_split.mp hgaps
  obtain ⟨c, r, hca, hcs, hgc, hreleased, hlinked⟩ :=
    hl.linkNext (gaps_cons.mp hg).2 hb hpos hbefore hafter htotal
  have hq : b.addr + HEADER * h.size b.addr = h.next x.addr →
      h.next x.addr ≠ x.addr ∧ h.next x.addr ≠ b.addr := by
    intro hmeet
    obtain ⟨q, l₃, rfl, hstop⟩ := (hl.up_iff hb hxb).mp hmeet
    have hbq := (hafter q (by simp)).1
    rw [hl.next_eq]
    have := hxb.1
    omega
  have hplace : ∀ {l'}, Linked base (h.place x.addr b.addr) l' → Linked base (h.link x.addr b.addr) l' :=
    fun hl' => hl'.congr (fun _ _ => by rw [Heap.next_link hne hq]) fun _ _ => by
      rw [Heap.size_link hne hq]
  by_cases hmeet : x.addr + HEADER * h.size x.addr = b.addr
  · have hstop : x.stop = c.addr := by
      rw [hca, ← hmeet, hsx, Block.stop]
    have hsize : x.size + c.size < 2 ^ 32 := by
      have := hreleased.total
      grind [total]
    refine ⟨l₁ ++ x.join c :: r, hplace ?_, ?_, ?_, x.join c, by simp, rfl⟩
    · rw [Heap.place, if_pos hmeet]
      exact hlinked.join hstop hsize
    · refine gaps_split.mpr ⟨hg₁, hgx, gaps_cons.mpr ?_⟩
      rw [Block.stop_join hstop]
      exact gaps_cons.mp hgc
    · exact hreleased.join hstop ⟨Nat.le_of_lt hxb.1, hcs⟩
  · have hlt : x.stop < c.addr := by
      have hle := hxb.2
      grind [Block.stop]
    refine ⟨l₁ ++ x :: c :: r, hplace ?_, ?_, hreleased, x, by simp, rfl⟩
    · grind [Heap.place]
    grind [gaps_split, gaps_cons]

theorem split_order (horder : l.Pairwise Block.Before) (hapart : ∀ y ∈ l, y.Before b ∨ b.Before y) :
    ∃ l₁ l₂, l = l₁ ++ l₂ ∧ (∀ y ∈ l₁, y.Before b) ∧ ∀ y ∈ l₂, b.Before y := by
  induction l with
  | nil => simp_all
  | cons x l ih =>
    rw [List.pairwise_cons] at horder
    rcases hapart x List.mem_cons_self with hx | hx
    · grind
    · refine ⟨[], x :: l, rfl, by simp, ?_⟩
      intro y hy
      rcases List.mem_cons.mp hy with rfl | hy
      · exact hx
      · have hxy := horder.1 y hy
        exact ⟨by have := hx.1; have := hxy.1; omega, by have := hx.2; have := hxy.1; omega⟩

-- Whether the loop of free() stops at p.
def Heap.stops (h : Heap) (bp p : Nat) : Bool :=
  decide (p < bp ∧ bp < h.next p ∨ h.next p ≤ p ∧ (p < bp ∨ bp < h.next p))

theorem Heap.freeLoop_eq (h : Heap) (bp fuel p : Nat) :
    h.freeLoop bp fuel p = seek h.next (h.stops bp) fuel p := by
  induction fuel generalizing p with
  | zero => rfl
  | succ fuel ih =>
    grind [freeLoop, seek, stops]

theorem Linked.next_cases (hl : Linked base h (l₁ ++ x :: l₂)) :
    l₂ = [] ∧ h.next x.addr = base ∨ ∃ z l₃, l₂ = z :: l₃ ∧ h.next x.addr = z.addr ∧ x.addr < z.addr := by
  cases l₂ with
  | nil => exact .inl ⟨rfl, hl.next_last⟩
  | cons z l₃ =>
    refine .inr ⟨z, l₃, rfl, hl.next_eq, ?_⟩
    exact (List.rel_of_pairwise_cons (List.pairwise_append.mp hl.order).2.1 List.mem_cons_self).1

-- The loop of free() stops only at the node that bp comes after.
theorem Linked.stops_iff (hl : Linked base h (l₁ ++ x :: l₂)) (hbefore : ∀ y ∈ l₁ ++ [x], y.Before b)
    (hafter : ∀ y ∈ l₂, b.Before y) {y : Block} (hy : y ∈ l₁ ++ x :: l₂) :
    h.stops b.addr y.addr = true ↔ y = x := by
  have hxb := (hbefore x (by simp)).1
  have hbase := hl.base_le x (by simp)
  rw [Heap.stops, decide_eq_true_eq]
  rcases List.mem_append.mp hy with hy | hy
  · -- The node after y is not above bp either.
    obtain ⟨m₁, m₂, rfl⟩ := List.append_of_mem hy
    have hyx : y.addr < x.addr := ((List.pairwise_append.mp hl.order).2.2 y hy x (by simp)).1
    rw [List.append_assoc, List.cons_append] at hl
    rcases hl.next_cases with ⟨hnil, -⟩ | ⟨z, m₃, hz, hnext, hlt⟩
    · simp at hnil
    · have hzb : z.addr < b.addr := by
        have hmem : z ∈ (m₂ ++ [x]).head? := by
          cases m₂ <;> simp_all
        refine (hbefore z ?_).1
        grind
      grind
  · rcases List.mem_cons.mp hy with rfl | hy
    · rcases hl.next_cases with ⟨-, hnext⟩ | ⟨z, m₃, rfl, hnext, hlt⟩
      · simp only [iff_true]
        omega
      · have hbz := (hafter z (by simp)).1
        simp only [iff_true]
        omega
    · -- y is above bp.
      obtain ⟨m₁, m₂, rfl⟩ := List.append_of_mem hy
      have hby := (hafter y (by simp)).1
      grind [List.append_assoc, next_cases]

-- A block in memory that is apart from the free list.
structure Apart (base : Nat) (h : Heap) (l : List Block) (b : Block) : Prop where
  size : h.size b.addr = b.size
  pos : 0 < b.size
  base : base < b.addr
  apart : ∀ y ∈ l, y.Before b ∨ b.Before y
  total : total (b :: l) < 2 ^ 32

-- free() puts a block into the list.
theorem Linked.free (hl : Linked base h l) (hgaps : Gaps l) (hfreep : ∃ y ∈ l, y.addr = h.freep)
    (hb : Apart base h l b) (hf : l.length ≤ fuel) :
    ∃ h' l', h.free fuel (b.addr + HEADER) = some h' ∧ Linked base h' l' ∧ Gaps l' ∧ Released b l l' ∧
      (∃ y ∈ l', y.addr = h'.freep) ∧ h'.sbrks = h.sbrks ∧
      ∀ a, a ≠ b.addr → (∀ y ∈ l, a ≠ y.addr) → h'.size a = h.size a := by
  obtain ⟨m, l₂, rfl, hbefore, hafter⟩ := split_order hl.order hb.apart
  have hne : m ≠ [] := by
    rintro rfl
    have hmem : node base ∈ l₂ := List.mem_of_mem_head? hl.head
    have := (hafter _ hmem).1
    have := hb.base
    simp only [node] at *
    omega
  obtain ⟨l₁, x, rfl⟩ : ∃ l₁ x, m = l₁ ++ [x] :=
    ⟨m.dropLast, m.getLast hne, (List.dropLast_append_getLast hne).symm⟩
  rw [List.append_assoc, List.singleton_append] at hl hgaps hfreep hf ⊢
  -- The loop ends at x.
  have hloop : h.freeLoop b.addr fuel h.freep = some x.addr := by
    obtain ⟨y, hy, hfreep⟩ := hfreep
    have hstops := fun y (hy : y ∈ l₁ ++ x :: l₂) => hl.stops_iff hbefore hafter hy
    have hlen : ((l₁ ++ x :: l₂).map Block.addr).length ≤ fuel := by simpa using hf
    obtain ⟨a, ha, hseek, hpass⟩ := hl.cyclic.seek_mem (List.mem_map_of_mem hy) (h.stops b.addr)
      ⟨x.addr, List.mem_map_of_mem (by simp), (hstops x (by simp)).mpr rfl⟩ hlen
    grind [Heap.freeLoop_eq]
  have htotal : total (b :: (l₁ ++ x :: l₂)) < 2 ^ 32 := by
    have := hb.total
    grind
  obtain ⟨l', hlinked, hgaps', hreleased, hx⟩ := hl.link hgaps hb.size hb.pos hbefore hafter htotal
  refine ⟨h.link x.addr b.addr, l', ?_, hlinked, hgaps', hreleased, hx, ?_, ?_⟩
  · rw [Heap.free, Nat.add_sub_cancel, hloop]
    rfl
  · simp only [Heap.link, Heap.linkNext, Heap.linkPrev]
    split <;> split <;> rfl
  · intro a hab hay
    have hax := hay x (by simp)
    simp only [Heap.link, Heap.linkNext, Heap.linkPrev]
    split <;> split <;> simp [Function.update_of_ne, hab, hax]

end Xv6.Umalloc
