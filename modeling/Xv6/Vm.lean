import Xv6.Kalloc

namespace Xv6

open Lib

def memset (pa : Nat) (c : UInt8) : MemM Unit := do
  let m ← get
  set (m.setPage pa (.fill c))

-- A whole page, as its callers copy.
def memmove (dst src : Nat) : MemM Unit := do
  let m ← get
  set (m.setPage dst (m.page src))

-- A pointer to an entry is the page of its table and its index there.
def loadPte (pte : Nat × Nat) : MemM Nat := do
  let m ← get
  return m.load pte.1 pte.2

def storePte (pte : Nat × Nat) (v : Nat) : MemM Unit := do
  let m ← get
  set (m.store pte.1 pte.2 v)

-- The loop of walk, from a level down to the bottom.
def walkLevels (alloc : Bool) : Nat → Nat → Nat → MemM (Option (Nat × Nat))
  | 0, pagetable, va => return some (pagetable, PX 0 va)
  | level + 1, pagetable, va => do
      let pte ← loadPte (pagetable, PX (level + 1) va)
      if pte &&& PTE_V ≠ 0 then
        walkLevels alloc level (PTE2PA pte) va
      else if alloc = false then
        return none
      else
        match ← kalloc with
        | none => return none
        | some page => do
            memset page 0
            storePte (pagetable, PX (level + 1) va) (PA2PTE page ||| PTE_V)
            walkLevels alloc level page va

def walk (pagetable va : Nat) (alloc : Bool) : MemM (Option (Nat × Nat)) :=
  if MAXVA ≤ va then throw .walk else walkLevels alloc 2 pagetable va

def walkaddr (pagetable va : Nat) : MemM Nat :=
  if MAXVA ≤ va then
    return 0
  else do
    match ← walk pagetable va false with
    | none => return 0
    | some pte => do
        let e ← loadPte pte
        if e &&& PTE_V = 0 then
          return 0
        else if e &&& PTE_U = 0 then
          return 0
        else
          return PTE2PA e

-- The loop of mappages ends after as many pages as the range has.
def mappagesLoop (pagetable last perm : Nat) : Nat → Nat → Nat → MemM Int
  | 0, _, _ => throw .fuel
  | n + 1, a, pa => do
      match ← walk pagetable a true with
      | none => return -1
      | some pte => do
          let e ← loadPte pte
          if e &&& PTE_V ≠ 0 then
            throw .mappagesRemap
          else do
            storePte pte (PA2PTE pa ||| perm ||| PTE_V)
            if a = last then
              return 0
            else
              mappagesLoop pagetable last perm n (u64 (a + PGSIZE)) (u64 (pa + PGSIZE))

def mappages (pagetable va size pa perm : Nat) : MemM Int :=
  if va % PGSIZE ≠ 0 then
    throw .mappagesVa
  else if size % PGSIZE ≠ 0 then
    throw .mappagesSizeAlign
  else if size = 0 then
    throw .mappagesSize
  else
    mappagesLoop pagetable (u64 (va + size - PGSIZE)) perm (size / PGSIZE) va pa

def uvmunmapLoop (pagetable stop : Nat) (doFree : Bool) : Nat → Nat → MemM Unit
  | 0, _ => return
  | n + 1, a =>
    if a < stop then do
      match ← walk pagetable a false with
      | none => throw .uvmunmapWalk
      | some pte => do
          let e ← loadPte pte
          if e &&& PTE_V = 0 then
            throw .uvmunmapNotMapped
          else if PTE_FLAGS e = PTE_V then
            throw .uvmunmapNotLeaf
          else do
            if doFree then kfree (PTE2PA e) else pure ()
            storePte pte 0
            uvmunmapLoop pagetable stop doFree n (u64 (a + PGSIZE))
    else
      return

def uvmunmap (pagetable va npages : Nat) (doFree : Bool) : MemM Unit :=
  if va % PGSIZE ≠ 0 then
    throw .uvmunmapAlign
  else
    uvmunmapLoop pagetable (u64 (va + npages * PGSIZE)) doFree npages va

def uvmcreate : MemM (Option Nat) := do
  match ← kalloc with
  | none => return none
  | some pagetable => do
      memset pagetable 0
      return some pagetable

-- A number of pages goes through an int, whose sign is extended back to 64 bits.
def i32 (x : Nat) : Nat :=
  if x % 0x100000000 < 0x80000000 then x % 0x100000000
  else x % 0x100000000 + 0xffffffff00000000

def uvmdealloc (pagetable oldsz newsz : Nat) : MemM Nat :=
  if oldsz ≤ newsz then
    return oldsz
  else do
    if PGROUNDUP newsz < PGROUNDUP oldsz then
      uvmunmap pagetable (PGROUNDUP newsz)
        (i32 ((PGROUNDUP oldsz - PGROUNDUP newsz) / PGSIZE)) true
    else
      pure ()
    return newsz

def uvmallocLoop (pagetable oldsz newsz xperm : Nat) : Nat → Nat → MemM Nat
  | 0, _ => throw .fuel
  | n + 1, a =>
    if a < newsz then do
      match ← kalloc with
      | none => do
          let _ ← uvmdealloc pagetable a oldsz
          return 0
      | some mem => do
          memset mem 0
          let r ← mappages pagetable a PGSIZE mem (PTE_R ||| PTE_U ||| xperm)
          if r ≠ 0 then do
            kfree mem
            let _ ← uvmdealloc pagetable a oldsz
            return 0
          else
            uvmallocLoop pagetable oldsz newsz xperm n (u64 (a + PGSIZE))
    else
      return newsz

-- Every round takes a page from the free list, which bounds their number.
def uvmalloc (pagetable oldsz newsz xperm : Nat) : MemM Nat :=
  if newsz < oldsz then
    return oldsz
  else do
    let m ← get
    uvmallocLoop pagetable (PGROUNDUP oldsz) newsz xperm (m.freelist.length + 1)
      (PGROUNDUP oldsz)

-- A table has 512 entries.
@[irreducible] def entryIndices : List Nat := List.range 512

def freeEntries (freeChild : Nat → MemM Unit) (pagetable : Nat) : List Nat → MemM Unit
  | [] => return
  | i :: rest => do
      let pte ← loadPte (pagetable, i)
      if pte &&& PTE_V ≠ 0 ∧ pte &&& (PTE_R ||| PTE_W ||| PTE_X) = 0 then do
        freeChild (PTE2PA pte)
        storePte (pagetable, i) 0
        freeEntries freeChild pagetable rest
      else if pte &&& PTE_V ≠ 0 then
        throw .freewalk
      else
        freeEntries freeChild pagetable rest

-- The fuel is the number of levels.
def freewalk : Nat → Nat → MemM Unit
  | 0, _ => throw .fuel
  | level + 1, pagetable => do
      freeEntries (freewalk level) pagetable entryIndices
      kfree pagetable

def uvmfree (pagetable sz : Nat) : MemM Unit := do
  if 0 < sz then
    uvmunmap pagetable 0 (PGROUNDUP sz / PGSIZE) true
  else
    pure ()
  freewalk 3 pagetable

def uvmcopyLoop (old new sz : Nat) : Nat → Nat → MemM Int
  | 0, _ => return 0
  | n + 1, i =>
    if i < sz then do
      match ← walk old i false with
      | none => throw .uvmcopyPte
      | some pte => do
          let e ← loadPte pte
          if e &&& PTE_V = 0 then
            throw .uvmcopyPresent
          else do
            match ← kalloc with
            | none => do
                uvmunmap new 0 (i / PGSIZE) true
                return -1
            | some mem => do
                memmove mem (PTE2PA e)
                let r ← mappages new i PGSIZE mem (PTE_FLAGS e)
                if r ≠ 0 then do
                  kfree mem
                  uvmunmap new 0 (i / PGSIZE) true
                  return -1
                else
                  uvmcopyLoop old new sz n (u64 (i + PGSIZE))
    else
      return 0

def uvmcopy (old new sz : Nat) : MemM Int :=
  uvmcopyLoop old new sz (sz / PGSIZE + 1) 0

def uvmclear (pagetable va : Nat) : MemM Unit := do
  match ← walk pagetable va false with
  | none => throw .uvmclear
  | some pte => do
      let e ← loadPte pte
      storePte pte (e - (e &&& PTE_U))

-- Every round of these loops moves at least one byte, so the fuel is the length.
def copyoutLoop (pagetable : Nat) : Nat → Nat → List UInt8 → MemM Int
  | 0, _, _ => return 0
  | fuel + 1, dstva, src =>
    if src = [] then
      return 0
    else if MAXVA ≤ PGROUNDDOWN dstva then
      return -1
    else do
      match ← walk pagetable (PGROUNDDOWN dstva) false with
      | none => return -1
      | some pte => do
          let e ← loadPte pte
          if e &&& PTE_V = 0 ∨ e &&& PTE_U = 0 ∨ e &&& PTE_W = 0 then
            return -1
          else do
            let m ← get
            let off := dstva - PGROUNDDOWN dstva
            let n := min (PGSIZE - off) src.length
            set (m.setPage (PTE2PA e) ((m.page (PTE2PA e)).putBytes off (src.take n)))
            copyoutLoop pagetable fuel (u64 (PGROUNDDOWN dstva + PGSIZE)) (src.drop n)

def copyout (pagetable dstva : Nat) (src : List UInt8) : MemM Int :=
  copyoutLoop pagetable src.length dstva src

-- The bytes that arrive in the kernel's buffer, if there is no error.
def copyinLoop (pagetable : Nat) : Nat → Nat → Nat → MemM (Option (List UInt8))
  | 0, _, _ => return some []
  | fuel + 1, srcva, len =>
    if len = 0 then
      return some []
    else do
      let pa0 ← walkaddr pagetable (PGROUNDDOWN srcva)
      if pa0 = 0 then
        return none
      else do
        let m ← get
        let off := srcva - PGROUNDDOWN srcva
        let n := min (PGSIZE - off) len
        match ← copyinLoop pagetable fuel (u64 (PGROUNDDOWN srcva + PGSIZE)) (len - n) with
        | none => return none
        | some rest => return some ((m.page pa0).getBytes off n ++ rest)

def copyin (pagetable srcva len : Nat) : MemM (Option (List UInt8)) :=
  copyinLoop pagetable len srcva len

-- The string without its terminating zero.
def copyinstrLoop (pagetable : Nat) : Nat → Nat → Nat → MemM (Option (List UInt8))
  | 0, _, _ => return none
  | fuel + 1, srcva, max =>
    if max = 0 then
      return none
    else do
      let pa0 ← walkaddr pagetable (PGROUNDDOWN srcva)
      if pa0 = 0 then
        return none
      else do
        let m ← get
        let off := srcva - PGROUNDDOWN srcva
        let n := min (PGSIZE - off) max
        let chunk := (m.page pa0).getBytes off n
        if 0 ∈ chunk then
          return some (chunk.takeWhile (· ≠ 0))
        else
          match ← copyinstrLoop pagetable fuel (u64 (PGROUNDDOWN srcva + PGSIZE)) (max - n) with
          | none => return none
          | some rest => return some (chunk ++ rest)

def copyinstr (pagetable srcva max : Nat) : MemM (Option (List UInt8)) :=
  copyinstrLoop pagetable max srcva max

end Xv6
