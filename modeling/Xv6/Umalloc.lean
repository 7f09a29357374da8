import Mathlib.Algebra.Order.Ring.Int
import Mathlib.Logic.Function.Basic

namespace Xv6.Umalloc

-- union header
structure Header where
  ptr : Nat
  size : Nat

-- sizeof(Header)
def HEADER : Nat := 16

-- The headers in memory by their addresses, and freep, which is 0 before the first
-- malloc(). The calls of sbrk() that gave memory are kept with their results.
structure Heap where
  mem : Nat → Header
  freep : Nat
  sbrks : List (Int × Nat)

namespace Heap

def next (h : Heap) (p : Nat) : Nat := (h.mem p).ptr

def size (h : Heap) (p : Nat) : Nat := (h.mem p).size

-- p->s.ptr = v
def setPtr (h : Heap) (p v : Nat) : Heap :=
  { h with mem := Function.update h.mem p { h.mem p with ptr := v } }

-- p->s.size = v, where size is a uint
def setSize (h : Heap) (p v : Nat) : Heap :=
  { h with mem := Function.update h.mem p { h.mem p with size := v % 2 ^ 32 } }

-- The for loop of free().
def freeLoop (h : Heap) (bp : Nat) : Nat → Nat → Option Nat
  | 0, _ => none
  | fuel + 1, p =>
    if p < bp ∧ bp < h.next p then some p
    else if h.next p ≤ p ∧ (p < bp ∨ bp < h.next p) then some p
    else h.freeLoop bp fuel (h.next p)

-- if(bp + bp->s.size == p->s.ptr)
def linkNext (h : Heap) (p bp : Nat) : Heap :=
  if bp + HEADER * h.size bp = h.next p then
    let h := h.setSize bp (h.size bp + h.size (h.next p))
    h.setPtr bp (h.next (h.next p))
  else h.setPtr bp (h.next p)

-- if(p + p->s.size == bp)
def linkPrev (h : Heap) (p bp : Nat) : Heap :=
  if p + HEADER * h.size p = bp then
    let h := h.setSize p (h.size p + h.size bp)
    h.setPtr p (h.next bp)
  else h.setPtr p bp

def setFreep (h : Heap) (p : Nat) : Heap := { h with freep := p }

-- The rest of free(), where p is what the loop has found.
def link (h : Heap) (p bp : Nat) : Heap := ((h.linkNext p bp).linkPrev p bp).setFreep p

def free (h : Heap) (fuel ap : Nat) : Option Heap :=
  let bp := ap - HEADER
  (h.freeLoop bp fuel h.freep).map fun p => h.link p bp

-- The argument of sbrk(), which is an int.
def sbrkArg (nu : Nat) : Int := (BitVec.ofNat 32 (nu * HEADER)).toInt

-- if(nu < 4096)
def moreUnits (nu : Nat) : Nat := if nu < 4096 then 4096 else nu

-- morecore(), where sbrk gives the result of the call. The pointer is 0 on failure.
def morecore (h : Heap) (sbrk : Int → Option Nat) (fuel nu : Nat) : Option (Nat × Heap) :=
  let nu := moreUnits nu
  match sbrk (sbrkArg nu) with
  | none => some (0, h)
  | some hp =>
    let h := { h with sbrks := h.sbrks ++ [(sbrkArg nu, hp)] }
    let h := h.setSize hp nu
    (h.free fuel (hp + HEADER)).map fun h => (h.freep, h)

-- The block p is large enough.
def take (h : Heap) (nunits prevp p : Nat) : Nat × Heap :=
  if h.size p = nunits then
    (p + HEADER, (h.setPtr prevp (h.next p)).setFreep prevp)
  else
    let h := h.setSize p (h.size p - nunits)
    let p := p + HEADER * h.size p
    let h := h.setSize p nunits
    (p + HEADER, h.setFreep prevp)

-- The for loop of malloc().
def mallocLoop (sbrk : Int → Option Nat) (nunits : Nat) : Nat → Heap → Nat → Nat → Option (Nat × Heap)
  | 0, _, _, _ => none
  | fuel + 1, h, prevp, p =>
    if nunits ≤ h.size p then some (h.take nunits prevp p)
    else if p = h.freep then
      (h.morecore sbrk fuel nunits).bind fun (p, h) =>
        if p = 0 then some (0, h) else mallocLoop sbrk nunits fuel h p (h.next p)
    else mallocLoop sbrk nunits fuel h p (h.next p)

-- nunits, which is a uint
def units (nbytes : Nat) : Nat := ((nbytes + HEADER - 1) / HEADER + 1) % 2 ^ 32

-- if((prevp = freep) == 0)
def start (h : Heap) (base : Nat) : Heap :=
  if h.freep = 0 then ((h.setPtr base base).setSize base 0).setFreep base else h

-- malloc(nbytes), where base is the address of base.
def malloc (h : Heap) (sbrk : Int → Option Nat) (base fuel nbytes : Nat) : Option (Nat × Heap) :=
  let h := h.start base
  mallocLoop sbrk (units nbytes) fuel h h.freep (h.next h.freep)

end Heap

end Xv6.Umalloc
