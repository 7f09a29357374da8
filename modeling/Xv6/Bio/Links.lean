import Xv6.Bio.Inv
import Xv6.Lib.Dll
import Mathlib.Data.List.FinRange

namespace Xv6.Bio

open Lib

-- The fields of struct buf that bcache.lock protects.
structure Entry where
  valid : Bool
  dev : Nat
  blockno : Nat
  refcnt : BitVec 32

def Entry.key (e : Entry) : Nat × Nat := (e.dev, e.blockno)

-- bcache with its list as it lies in memory. The references that bget() and bpin()
-- have given and that are not given back are kept for the proofs only.
structure Cache where
  buf : Idx → Entry
  links : Dll Idx
  refs : Idx → Nat

namespace Cache

def setBuf (c : Cache) (b : Idx) (f : Entry → Entry) : Cache :=
  { c with buf := Function.update c.buf b (f (c.buf b)) }

def setRefs (c : Cache) (b : Idx) (n : Nat) : Cache :=
  { c with refs := Function.update c.refs b n }

def binit : Cache where
  buf := fun _ => ⟨false, 0, 0, 0⟩
  links := (List.finRange NBUF).foldl (fun d b => d.pushFront (some b)) .empty
  refs := fun _ => 0

-- The two loops of bget(), which end at the head.
def lookup (c : Cache) (dev blockno : Nat) : Option (Option Idx) :=
  Dll.scan c.links.next (fun b => (c.buf b).dev = dev ∧ (c.buf b).blockno = blockno) NBUF
    (c.links.next none)

def unused (c : Cache) : Option (Option Idx) :=
  Dll.scan c.links.prev (fun b => (c.buf b).refcnt = 0) NBUF (c.links.prev none)

-- The critical section of bget(). There is no result if a loop does not end.
def bget (c : Cache) (dev blockno : Nat) : Option (Except String (Cache × Idx)) :=
  (c.lookup dev blockno).bind fun
    | some b =>
      some (.ok ((c.setBuf b fun e => { e with refcnt := e.refcnt + 1 }).setRefs b (c.refs b + 1), b))
    | none =>
      c.unused.map fun
        | some b =>
          .ok ((c.setBuf b fun e =>
            { e with dev := dev, blockno := blockno, valid := false, refcnt := 1 }).setRefs b
              (c.refs b + 1), b)
        | none => .error "bget: no buffers"

def brelse (c : Cache) (b : Idx) : Cache :=
  let c := (c.setBuf b fun e => { e with refcnt := e.refcnt - 1 }).setRefs b (c.refs b - 1)
  if (c.buf b).refcnt = 0 then
    { c with links := (c.links.unlink (some b)).pushFront (some b) }
  else c

def bpin (c : Cache) (b : Idx) : Cache :=
  (c.setBuf b fun e => { e with refcnt := e.refcnt + 1 }).setRefs b (c.refs b + 1)

def bunpin (c : Cache) (b : Idx) : Cache :=
  (c.setBuf b fun e => { e with refcnt := e.refcnt - 1 }).setRefs b (c.refs b - 1)

inductive Call where
  | bget (dev blockno : Nat)
  | brelse (b : Idx)
  | bpin (b : Idx)
  | bunpin (b : Idx)

-- One critical section. A process that calls brelse(), bpin() or bunpin() has a
-- reference to the buffer, from bget() or bpin().
def step (c : Cache) : Call → Option (Except String Cache)
  | .bget dev blockno => (c.bget dev blockno).map fun r => r.map Prod.fst
  | .brelse b => if 0 < c.refs b then some (.ok (c.brelse b)) else none
  | .bpin b => if 0 < c.refs b then some (.ok (c.bpin b)) else none
  | .bunpin b => if 0 < c.refs b then some (.ok (c.bunpin b)) else none

def run : List Call → Cache → Option (Except String Cache)
  | [], c => some (.ok c)
  | call :: rest, c =>
    (c.step call).bind fun
      | .ok c' => run rest c'
      | .error msg => some (.error msg)

-- The states that some interleaving of the critical sections reaches.
inductive Reach : Cache → Prop
  | init : Reach binit
  | step {c c' : Cache} (call : Call) (h : Reach c) (hs : c.step call = some (.ok c')) : Reach c'

-- The buffer that a loop from the head of the list l finds for a block.
def first (c : Cache) (l : List Idx) (k : Nat × Nat) : Option Idx :=
  l.find? fun b => (c.buf b).key = k

-- A buffer that is or was in use is the first one for its block. Only the blocks of
-- device 0 that the buffers start with are ever in two of them.
structure Inv (c : Cache) (l : List Idx) : Prop where
  lists : c.links.Lists l
  all : ∀ b, b ∈ l
  first : ∀ b, (c.buf b).refcnt ≠ 0 ∨ 0 < c.refs b → c.first l (c.buf b).key = some b
  unique : ∀ b b', (c.buf b).dev ≠ 0 → (c.buf b).key = (c.buf b').key → b = b'

variable {c c' : Cache} {l : List Idx} {b : Idx}

theorem length_of_all (hn : l.Nodup) (hall : ∀ b, b ∈ l) : l.length = NBUF := by
  have hperm : l.Perm (List.finRange NBUF) :=
    (List.perm_ext_iff_of_nodup hn (List.nodup_finRange NBUF)).mpr fun b => by simp [hall b]
  rw [hperm.length_eq, List.length_finRange]

theorem Inv.length (h : Inv c l) : l.length = NBUF := length_of_all h.lists.nodup h.all

theorem Inv.lookup (h : Inv c l) (dev blockno : Nat) :
    c.lookup dev blockno = some (c.first l (dev, blockno)) := by
  rw [Cache.lookup, h.lists.seg.scan _ (le_of_eq h.length), Cache.first]
  simp only [Entry.key, Prod.mk.injEq]

theorem Inv.unused (h : Inv c l) :
    c.unused = some (l.reverse.find? fun b => (c.buf b).refcnt = 0) :=
  h.lists.flip.seg.scan _ (by rw [List.length_reverse]; exact le_of_eq h.length)

theorem find?_of_imp {p q : Idx → Bool} (hp : l.find? p = some b) (hq : q b = true)
    (himp : ∀ x, q x = true → p x = true) : l.find? q = some b := by
  induction l with
  | nil => cases hp
  | cons x l ih =>
    rw [List.find?_cons] at hp ⊢
    cases hx : p x with
    | true =>
      rw [hx] at hp
      cases hp
      rw [hq]
    | false =>
      rw [hx] at hp
      cases hqx : q x with
      | true =>
        rw [himp x hqx] at hx
        cases hx
      | false => exact ih hp

theorem first_congr (hkey : ∀ b, (c'.buf b).key = (c.buf b).key) (l : List Idx) (k : Nat × Nat) :
    c'.first l k = c.first l k := by
  simp only [Cache.first, hkey]

theorem first_key {k : Nat × Nat} (h : c.first l k = some b) : (c.buf b).key = k := by
  have hb := List.find?_some h
  exact of_decide_eq_true hb

theorem Inv.count (h : Inv c l) (hlists : c'.links = c.links)
    (hkey : ∀ b, (c'.buf b).key = (c.buf b).key) (hb : c.first l (c.buf b).key = some b)
    (hother : ∀ b', b' ≠ b → c'.buf b' = c.buf b' ∧ c'.refs b' = c.refs b') : Inv c' l := by
  refine ⟨hlists ▸ h.lists, h.all, fun b' hb' => ?_, fun b₁ b₂ hdev heq => ?_⟩
  · rw [first_congr hkey, hkey]
    by_cases hbb : b' = b
    · rw [hbb]
      exact hb
    · obtain ⟨hbuf, hrefs⟩ := hother b' hbb
      rw [hbuf, hrefs] at hb'
      exact h.first b' hb'
  · rw [hkey, hkey] at heq
    have hdev' : (c.buf b₁).dev = (c'.buf b₁).dev := congrArg Prod.fst (hkey b₁).symm
    exact h.unique b₁ b₂ (hdev' ▸ hdev) heq

theorem set_self (c : Cache) (b : Idx) (f : Entry → Entry) (n : Nat) :
    ((c.setBuf b f).setRefs b n).buf b = f (c.buf b) := Function.update_self ..

theorem set_other (c : Cache) {b b' : Idx} (f : Entry → Entry) (n : Nat) (h : b' ≠ b) :
    ((c.setBuf b f).setRefs b n).buf b' = c.buf b' ∧
      ((c.setBuf b f).setRefs b n).refs b' = c.refs b' :=
  ⟨Function.update_of_ne h .., Function.update_of_ne h ..⟩

theorem refcnt_key (c : Cache) (b : Idx) (f : BitVec 32 → BitVec 32) (n : Nat) (b' : Idx) :
    (((c.setBuf b fun e => { e with refcnt := f e.refcnt }).setRefs b n).buf b').key =
      (c.buf b').key := by
  by_cases hbb : b' = b
  · rw [hbb, set_self]
    rfl
  · rw [(set_other c _ n hbb).1]

theorem Inv.refcnt (h : Inv c l) (hb : c.first l (c.buf b).key = some b)
    (f : BitVec 32 → BitVec 32) (n : Nat) :
    Inv ((c.setBuf b fun e => { e with refcnt := f e.refcnt }).setRefs b n) l :=
  h.count rfl (refcnt_key c b f n) hb fun _ hne => set_other c _ n hne

-- bget() of a block that no buffer has, in a buffer that is not in use.
theorem Inv.recycle (h : Inv c l) {dev blockno : Nat} (hmiss : c.first l (dev, blockno) = none)
    (n : Nat) : Inv ((c.setBuf b fun e => { e with
      dev := dev, blockno := blockno, valid := false, refcnt := 1 }).setRefs b n) l := by
  have hnot : ∀ b', (c.buf b').key ≠ (dev, blockno) := fun b' heq => by
    have hnone := List.find?_eq_none.mp hmiss b' (h.all b')
    exact hnone (decide_eq_true heq)
  generalize hc' : (c.setBuf b fun e => { e with
    dev := dev, blockno := blockno, valid := false, refcnt := 1 }).setRefs b n = c'
  have hself : (c'.buf b).key = (dev, blockno) := by
    rw [← hc', set_self]
    rfl
  have hother : ∀ {b'}, b' ≠ b → c'.buf b' = c.buf b' ∧ c'.refs b' = c.refs b' := by
    intro b' hne
    rw [← hc']
    exact set_other c _ n hne
  have heq : ∀ {b'}, (c'.buf b').key = (dev, blockno) → b' = b := by
    intro b' hk
    by_contra hne
    rw [(hother hne).1] at hk
    exact hnot b' hk
  refine ⟨by rw [← hc']; exact h.lists, h.all, fun b' hb' => ?_, fun b₁ b₂ hdev hk => ?_⟩
  · by_cases hbb : b' = b
    · -- No other buffer has the block.
      rw [hbb, hself]
      cases hfind : c'.first l (dev, blockno) with
      | none => exact absurd (decide_eq_true hself) (List.find?_eq_none.mp hfind b (h.all b))
      | some b₁ => rw [heq (first_key hfind)]
    · obtain ⟨hbuf, hrefs⟩ := hother hbb
      rw [hbuf, hrefs] at hb'
      rw [hbuf]
      refine find?_of_imp (h.first b' hb') (decide_eq_true (congrArg Entry.key hbuf)) fun x hx => ?_
      have hxk := of_decide_eq_true hx
      have hxb : x ≠ b := by
        rintro rfl
        rw [hself] at hxk
        exact hnot b' hxk.symm
      rw [(hother hxb).1] at hxk
      exact decide_eq_true hxk
  · by_cases h₁ : b₁ = b
    · rw [h₁, hself] at hk
      rw [h₁, heq hk.symm]
    · by_cases h₂ : b₂ = b
      · rw [h₂, hself] at hk
        exact absurd (heq hk) h₁
      · rw [(hother h₁).1] at hdev hk
        rw [(hother h₂).1] at hk
        exact h.unique b₁ b₂ hdev hk

theorem find?_front {p : Idx → Bool} {l₁ l₂ : List Idx} (hb : p b = false) :
    (b :: (l₁ ++ l₂)).find? p = (l₁ ++ b :: l₂).find? p := by
  simp [List.find?_append, hb]

theorem not_mem_of_nodup_middle {l₁ l₂ : List Idx} (h : (l₁ ++ b :: l₂).Nodup) : b ∉ l₁ ++ l₂ := by
  have hperm : (l₁ ++ b :: l₂).Perm (b :: (l₁ ++ l₂)) := List.perm_middle
  exact (List.nodup_cons.mp (hperm.nodup_iff.mp h)).1

theorem Inv.front (h : Inv c l) (hb : c.first l (c.buf b).key = some b) :
    ∃ l', Inv { c with links := (c.links.unlink (some b)).pushFront (some b) } l' := by
  obtain ⟨l₁, l₂, rfl⟩ := List.append_of_mem (h.all b)
  have hnot : b ∉ l₁ ++ l₂ := not_mem_of_nodup_middle h.lists.nodup
  refine ⟨b :: (l₁ ++ l₂), h.lists.unlink.pushFront hnot, fun b' => ?_, fun b' hb' => ?_, h.unique⟩
  · have hmem := h.all b'
    simp only [List.mem_append, List.mem_cons] at hmem ⊢
    tauto
  · show c.first (b :: (l₁ ++ l₂)) (c.buf b').key = some b'
    have hfirst := h.first b' hb'
    by_cases hk : (c.buf b).key = (c.buf b').key
    · rw [← hk, hb] at hfirst
      cases hfirst
      exact List.find?_cons_of_pos (decide_eq_true rfl)
    · rw [Cache.first, find?_front (decide_eq_false hk)]
      exact hfirst

theorem Inv.brelse (h : Inv c l) (hr : 0 < c.refs b) : ∃ l', Inv (c.brelse b) l' := by
  have hb := h.first b (.inr hr)
  have hdec := h.refcnt hb (· - 1) (c.refs b - 1)
  have hkey := refcnt_key c b (· - 1) (c.refs b - 1)
  rw [Cache.brelse]
  split
  · refine hdec.front ?_
    rw [first_congr hkey, hkey]
    exact hb
  · exact ⟨l, hdec⟩

theorem Inv.bget (h : Inv c l) {dev blockno : Nat} (hg : c.bget dev blockno = some (.ok (c', b))) :
    Inv c' l := by
  rw [Cache.bget, h.lookup, h.unused] at hg
  cases hfind : c.first l (dev, blockno) with
  | some b₁ =>
    rw [hfind] at hg
    cases hg
    exact h.refcnt (by rw [first_key hfind]; exact hfind) (· + 1) _
  | none =>
    rw [hfind] at hg
    cases hvictim : l.reverse.find? fun b => decide ((c.buf b).refcnt = 0) with
    | none =>
      rw [hvictim] at hg
      cases hg
    | some b₁ =>
      rw [hvictim] at hg
      cases hg
      exact h.recycle hfind _

theorem Inv.step (h : Inv c l) {call : Call} (hs : c.step call = some (.ok c')) : ∃ l', Inv c' l' := by
  cases call with
  | bget dev blockno =>
    obtain ⟨r, hr, heq⟩ := Option.map_eq_some_iff.mp hs
    cases r with
    | error msg => cases heq
    | ok r =>
      cases heq
      exact ⟨l, h.bget hr⟩
  | brelse b =>
    rw [Cache.step] at hs
    split at hs <;> cases hs
    exact h.brelse ‹_›
  | bpin b =>
    rw [Cache.step] at hs
    split at hs <;> cases hs
    exact ⟨l, h.refcnt (h.first b (.inr ‹_›)) (· + 1) _⟩
  | bunpin b =>
    rw [Cache.step] at hs
    split at hs <;> cases hs
    exact ⟨l, h.refcnt (h.first b (.inr ‹_›)) (· - 1) _⟩

theorem lists_foldl (bs : List Idx) (hn : (bs.reverse ++ l).Nodup) {d : Dll Idx} (h : d.Lists l) :
    (bs.foldl (fun d b => d.pushFront (some b)) d).Lists (bs.reverse ++ l) := by
  induction bs generalizing l d with
  | nil => exact h
  | cons b bs ih =>
    rw [List.reverse_cons, List.append_assoc, List.singleton_append] at hn ⊢
    have hb : b ∉ l := (List.nodup_cons.mp (List.nodup_append.mp hn).2.1).1
    exact ih hn (h.pushFront hb)

theorem binit_inv : Inv binit (List.finRange NBUF).reverse := by
  have hlists : binit.links.Lists ((List.finRange NBUF).reverse ++ []) := by
    refine lists_foldl _ ?_ ⟨List.nodup_nil, rfl, rfl⟩
    rw [List.append_nil]
    exact List.nodup_reverse.mpr (List.nodup_finRange NBUF)
  rw [List.append_nil] at hlists
  refine ⟨hlists, fun b => by simp, fun b hb => ?_, fun b b' hdev => absurd rfl hdev⟩
  rcases hb with hb | hb
  · exact absurd rfl hb
  · exact absurd hb (lt_irrefl 0)

theorem Reach.inv (h : Reach c) : ∃ l, Inv c l := by
  induction h with
  | init => exact ⟨_, binit_inv⟩
  | step call h hs ih =>
    obtain ⟨l, hl⟩ := ih
    exact hl.step hs

theorem brelse_key (c : Cache) (b b' : Idx) : ((c.brelse b).buf b').key = (c.buf b').key := by
  have hkey := refcnt_key c b (· - 1) (c.refs b - 1) b'
  rw [Cache.brelse]
  split
  · exact hkey
  · exact hkey

theorem Inv.bget_key (h : Inv c l) {dev blockno : Nat} {b₁ : Idx} (hb : (c.buf b).refcnt ≠ 0)
    (hg : c.bget dev blockno = some (.ok (c', b₁))) : (c'.buf b).key = (c.buf b).key := by
  rw [Cache.bget, h.lookup, h.unused] at hg
  cases hfind : c.first l (dev, blockno) with
  | some b₂ =>
    rw [hfind] at hg
    cases hg
    exact refcnt_key c b₁ (· + 1) _ b
  | none =>
    rw [hfind] at hg
    cases hvictim : l.reverse.find? fun b => decide ((c.buf b).refcnt = 0) with
    | none =>
      rw [hvictim] at hg
      cases hg
    | some b₂ =>
      rw [hvictim] at hg
      cases hg
      have hfree : (c.buf b₁).refcnt = 0 := by
        have hsome := List.find?_some hvictim
        exact of_decide_eq_true hsome
      have hne : b ≠ b₁ := by
        rintro rfl
        exact hb hfree
      rw [(set_other c _ _ hne).1]

theorem Inv.step_key (h : Inv c l) {call : Call} (hb : (c.buf b).refcnt ≠ 0)
    (hs : c.step call = some (.ok c')) : (c'.buf b).key = (c.buf b).key := by
  cases call with
  | bget dev blockno =>
    obtain ⟨r, hr, heq⟩ := Option.map_eq_some_iff.mp hs
    cases r with
    | error msg => cases heq
    | ok r =>
      cases heq
      exact h.bget_key hb hr
  | brelse b₁ =>
    rw [Cache.step] at hs
    split at hs <;> cases hs
    exact brelse_key c b₁ b
  | bpin b₁ =>
    rw [Cache.step] at hs
    split at hs <;> cases hs
    exact refcnt_key c b₁ (· + 1) _ b
  | bunpin b₁ =>
    rw [Cache.step] at hs
    split at hs <;> cases hs
    exact refcnt_key c b₁ (· - 1) _ b

theorem Inv.bget_ends (h : Inv c l) (dev blockno : Nat) : ∃ r, c.bget dev blockno = some r := by
  rw [Cache.bget, h.lookup, h.unused]
  cases c.first l (dev, blockno) with
  | some b => exact ⟨_, rfl⟩
  | none => exact ⟨_, rfl⟩

-- In every reachable state the list has each buffer once, in both directions, the
-- buffers in use have different blocks, and so have all buffers of a real device.
-- No critical section changes the block of a buffer in use.
theorem buffer_list_kept (h : Reach c) :
    (∃ l, Dll.walk c.links.next NBUF (c.links.next none) = some l ∧
      Dll.walk c.links.prev NBUF (c.links.prev none) = some l.reverse ∧
      l.length = NBUF ∧ ∀ b, l.count b = 1) ∧
    (∀ b b', (c.buf b).refcnt ≠ 0 → (c.buf b').refcnt ≠ 0 →
      (c.buf b).key = (c.buf b').key → b = b') ∧
    (∀ b b', (c.buf b).dev ≠ 0 → (c.buf b).key = (c.buf b').key → b = b') ∧
    (∀ b call c', (c.buf b).refcnt ≠ 0 → c.step call = some (.ok c') →
      (c'.buf b).key = (c.buf b).key) ∧
    ∀ dev blockno, ∃ r, c.bget dev blockno = some r := by
  obtain ⟨l, hl⟩ := h.inv
  have hlength := hl.length
  refine ⟨⟨l, hl.lists.seg.walk hlength.le, hl.lists.flip.seg.walk ?_, hlength, fun b => ?_⟩,
    fun b b' hb hb' hk => ?_, hl.unique, fun b call c' hb hs => hl.step_key hb hs, hl.bget_ends⟩
  · rw [List.length_reverse]
    exact hlength.le
  · exact List.count_eq_one_of_mem hl.lists.nodup (hl.all b)
  · have hfirst := hl.first b (.inl hb)
    rw [hk, hl.first b' (.inl hb')] at hfirst
    exact (Option.some.inj hfirst).symm

theorem Reach.run (h : Reach c) {calls : List Call} (hr : run calls c = some (.ok c')) :
    Reach c' := by
  induction calls generalizing c with
  | nil =>
    cases hr
    exact h
  | cons call calls ih =>
    obtain ⟨r, hs, hrest⟩ := Option.bind_eq_some_iff.mp hr
    cases r with
    | error msg => cases hrest
    | ok c₁ => exact ih (.step call h hs) hrest

-- Two blocks are read, the first is pinned, and both are released.
def readTwo : List Call :=
  [.bget 1 2, .bget 1 3, .bpin ⟨0, by decide⟩, .brelse ⟨1, by decide⟩, .brelse ⟨0, by decide⟩]

def completes (calls : List Call) : Bool :=
  match run calls binit with
  | some (.ok _) => true
  | _ => false

theorem completes_reach {calls : List Call} (h : completes calls = true) :
    ∃ c, run calls binit = some (.ok c) ∧ Reach c := by
  rw [completes] at h
  split at h
  · rename_i c hc
    exact ⟨c, hc, Reach.init.run hc⟩
  · cases h

theorem buffer_list_kept_readTwo : ∃ c, run readTwo binit = some (.ok c) ∧
    ∃ l, Dll.walk c.links.next NBUF (c.links.next none) = some l ∧ l.length = NBUF := by
  obtain ⟨c, hc, hreach⟩ := completes_reach (show completes readTwo = true by decide +kernel)
  obtain ⟨⟨l, hwalk, -, hlength, -⟩, -⟩ := buffer_list_kept hreach
  exact ⟨c, hc, l, hwalk, hlength⟩

end Cache

end Xv6.Bio
