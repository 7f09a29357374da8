import Xv6.Bio.Links
import Xv6.Lib.MoveFront

namespace Xv6.Bio.Cache

open Lib

-- The buffer whose refcnt a call of brelse() takes to 0.
def zeroed : Call × Cache → Option Idx
  | (.brelse b, c) => if (c.buf b).refcnt - 1 = 0 then some b else none
  | _ => none

-- The critical sections of a run with the state that each one found, the last one first, and
-- who has which buffer from bread(). A process that still waits for the lock of its buffer
-- counts as well.
inductive Uses : List (Call × Cache) → List (Nat × Idx) → Cache → Prop
  | binit : Uses [] [] binit
  | bget {hist : List (Call × Cache)} {held : List (Nat × Idx)} {c c' : Cache} {b : Idx}
      (p dev blockno : Nat) (h : Uses hist held c)
      (hg : c.bget dev blockno = some (.ok (c', b))) :
      Uses ((.bget dev blockno, c) :: hist) ((p, b) :: held) c'
  | brelse {hist : List (Call × Cache)} {held : List (Nat × Idx)} {c : Cache} {p : Nat} {b : Idx}
      (h : Uses hist held c) (hb : (p, b) ∈ held) :
      Uses ((.brelse b, c) :: hist) (held.erase (p, b)) (c.brelse b)
  | bpin {hist : List (Call × Cache)} {held : List (Nat × Idx)} {c : Cache} {p : Nat} {b : Idx}
      (h : Uses hist held c) (hb : (p, b) ∈ held) : Uses ((.bpin b, c) :: hist) held (c.bpin b)
  | bunpin {hist : List (Call × Cache)} {held : List (Nat × Idx)} {c : Cache} {p : Nat} {b : Idx}
      (h : Uses hist held c) (hb : (p, b) ∈ held) : Uses ((.bunpin b, c) :: hist) held (c.bunpin b)

-- The releases that made a buffer unused, the last one first.
def releases (hist : List (Call × Cache)) : List Idx := hist.filterMap zeroed

variable {hist : List (Call × Cache)} {held : List (Nat × Idx)} {c : Cache}

theorem bget_links {c' : Cache} {b : Idx} {dev blockno : Nat}
    (h : c.bget dev blockno = some (.ok (c', b))) : c'.links = c.links := by
  rw [Cache.bget] at h
  obtain ⟨r, -, h⟩ := Option.bind_eq_some_iff.mp h
  cases r with
  | some b' =>
    cases h
    rfl
  | none =>
    obtain ⟨r, -, h⟩ := Option.map_eq_some_iff.mp h
    cases r with
    | some b' =>
      cases h
      rfl
    | none => cases h

theorem brelse_lists {l : List Idx} {b : Idx} (h : c.links.Lists l) (hb : b ∈ l) :
    (c.brelse b).links.Lists
      (if (c.buf b).refcnt - 1 = 0 then b :: l.erase b else l) := by
  have hself : ((c.setBuf b fun e => { e with refcnt := e.refcnt - 1 }).setRefs b
      (c.refs b - 1)).buf b = { c.buf b with refcnt := (c.buf b).refcnt - 1 } := set_self ..
  rw [Cache.brelse]
  simp only [hself]
  split
  · obtain ⟨l₁, l₂, rfl⟩ := List.append_of_mem hb
    have hnot := not_mem_of_nodup_middle h.nodup
    have hl₁ : b ∉ l₁ := fun hmem => hnot (List.mem_append.mpr (.inl hmem))
    rw [List.erase_append_right _ hl₁, List.erase_cons_head]
    exact h.unlink.pushFront hnot
  · exact h

theorem all_listed (b : Idx) : b ∈ moveFront (List.finRange NBUF).reverse (releases hist) :=
  mem_moveFront b fun b' => List.mem_reverse.mpr (List.mem_finRange b')

theorem Uses.lists (h : Uses hist held c) :
    c.links.Lists (moveFront (List.finRange NBUF).reverse (releases hist)) := by
  induction h with
  | binit => exact binit_inv.lists
  | bget p dev blockno _ hg ih =>
    rw [bget_links hg]
    exact ih
  | @brelse hist held c p b _ _ ih =>
    have hlists := brelse_lists ih (all_listed b)
    by_cases hzero : (c.buf b).refcnt - 1 = 0
    · rw [if_pos hzero] at hlists
      have hz : zeroed (.brelse b, c) = some b := if_pos hzero
      rw [releases, List.filterMap_cons_some hz]
      exact hlists
    · rw [if_neg hzero] at hlists
      have hz : zeroed (.brelse b, c) = none := if_neg hzero
      rw [releases, List.filterMap_cons_none hz]
      exact hlists
  | bpin _ _ ih => exact ih
  | bunpin _ _ ih => exact ih

theorem Uses.unused (h : Uses hist held c) :
    c.unused = some ((moveFront (List.finRange NBUF).reverse (releases hist)).reverse.find? fun b =>
      (c.buf b).refcnt = 0) := by
  have hlen := length_of_all h.lists.nodup all_listed
  exact h.lists.flip.seg.scan _ (by rw [List.length_reverse]; exact le_of_eq hlen)

-- Buffer b after a miss.
def recycled (c : Cache) (dev blockno : Nat) (b : Idx) : Cache :=
  (c.setBuf b fun e =>
    { e with dev := dev, blockno := blockno, valid := false, refcnt := 1 }).setRefs b (c.refs b + 1)

theorem bget_miss {dev blockno : Nat} {b : Idx} (hmiss : c.lookup dev blockno = some none)
    (hunused : c.unused = some (some b)) :
    c.bget dev blockno = some (.ok (c.recycled dev blockno b, b)) := by
  rw [Cache.bget, hmiss, Option.bind_some, hunused, Option.map_some]
  rfl

-- A miss with an unused buffer takes, of the unused buffers, the one whose last release is the
-- longest ago. One that was never released is older than all that were.
theorem recycles_least_recently_used (dev blockno : Nat) (h : Uses hist held c)
    (hmiss : c.lookup dev blockno = some none) (hfree : ∃ b, (c.buf b).refcnt = 0) :
    ∃ c' b, c.bget dev blockno = some (.ok (c', b)) ∧ (c.buf b).refcnt = 0 ∧
      (c'.buf b).key = (dev, blockno) ∧
      ∀ b', (c.buf b').refcnt = 0 → age (releases hist) b' ≤ age (releases hist) b := by
  have hunused := h.unused
  cases hfind : (moveFront (List.finRange NBUF).reverse (releases hist)).reverse.find? (fun b =>
      (c.buf b).refcnt = 0) with
  | none =>
    obtain ⟨b, hb⟩ := hfree
    have hno := List.find?_eq_none.mp hfind b (List.mem_reverse.mpr (all_listed b))
    exact absurd (decide_eq_true hb) hno
  | some b =>
    rw [hfind] at hunused
    have htest := List.find?_some hfind
    have hzero : (c.buf b).refcnt = 0 := of_decide_eq_true htest
    refine ⟨c.recycled dev blockno b, b, bget_miss hmiss hunused, hzero, ?_, fun b' hb' => ?_⟩
    · rw [recycled, set_self]
      rfl
    · have hsorted := moveFront_sorted (releases hist)
        (List.nodup_reverse.mpr (List.nodup_finRange NBUF))
      exact find?_reverse_oldest hsorted hfind (all_listed b') (decide_eq_true hb')

theorem NBUF_pos : 0 < NBUF := by decide

def firstBuf : Idx := ⟨0, NBUF_pos⟩

-- Block 2 is read and released: a buffer that was never used is recycled for block 3.
theorem recycles_least_recently_used_unread : ∃ hist held c c' b,
    Uses hist held c ∧ releases hist = [firstBuf] ∧ c.bget 1 3 = some (.ok (c', b)) ∧
      age [firstBuf] firstBuf ≤ age [firstBuf] b := by
  have hread : binit.bget 1 2 = some (.ok (binit.recycled 1 2 firstBuf, firstBuf)) :=
    bget_miss (by decide +kernel) (by decide +kernel)
  have huses := (Uses.bget 7 1 2 .binit hread).brelse List.mem_cons_self
  have hreleases : releases [(.brelse firstBuf, binit.recycled 1 2 firstBuf), (.bget 1 2, binit)] =
      [firstBuf] := by decide +kernel
  obtain ⟨c', b, hget, -, -, holdest⟩ := recycles_least_recently_used 1 3 huses
    (by decide +kernel) ⟨firstBuf, by decide +kernel⟩
  rw [hreleases] at holdest
  exact ⟨_, _, _, c', b, huses, hreleases, hget, holdest firstBuf (by decide +kernel)⟩

end Xv6.Bio.Cache
