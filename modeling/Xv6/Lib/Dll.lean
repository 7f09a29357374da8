import Mathlib.Data.List.Nodup
import Mathlib.Logic.Function.Basic

namespace Xv6.Lib

-- A circular list of nodes with a head, linked both ways. The head is none.
structure Dll (ι : Type) where
  next : Option ι → Option ι
  prev : Option ι → Option ι

namespace Dll

variable {ι : Type}

-- The head alone.
def empty : Dll ι := ⟨fun _ => none, fun _ => none⟩

-- The list read the other way.
def flip (d : Dll ι) : Dll ι := ⟨d.prev, d.next⟩

-- The nodes from b on, up to the head. There is no result if fuel runs out first.
def walk (next : Option ι → Option ι) : Nat → Option ι → Option (List ι)
  | _, none => some []
  | 0, some _ => none
  | fuel + 1, some i => (walk next fuel (next (some i))).map (i :: ·)

-- The first node from b on that passes the test, up to the head.
def scan (next : Option ι → Option ι) (test : ι → Bool) : Nat → Option ι → Option (Option ι)
  | _, none => some none
  | 0, some _ => none
  | fuel + 1, some i => if test i then some (some i) else scan next test fuel (next (some i))

-- The nodes of l lie between x and y, in this order.
def Seg (d : Dll ι) : Option ι → List ι → Option ι → Prop
  | x, [], y => d.next x = y ∧ d.prev y = x
  | x, i :: l, y => d.next x = some i ∧ d.prev (some i) = x ∧ Seg d (some i) l y

structure Lists (d : Dll ι) (l : List ι) : Prop where
  nodup : l.Nodup
  seg : d.Seg none l none

variable {d d' : Dll ι} {x y : Option ι} {l a b : List ι} {i : ι}

theorem Seg.append : d.Seg x (a ++ i :: b) y ↔ d.Seg x a (some i) ∧ d.Seg (some i) b y := by
  induction a generalizing x with
  | nil => simp only [List.nil_append, Seg, and_assoc]
  | cons k a ih => simp only [List.cons_append, Seg, ih, and_assoc]

theorem Seg.congr (h : d.Seg x l y) (hnext : ∀ s ∈ x :: l.map some, d'.next s = d.next s)
    (hprev : ∀ t ∈ y :: l.map some, d'.prev t = d.prev t) : d'.Seg x l y := by
  induction l generalizing x with
  | nil =>
    obtain ⟨hx, hy⟩ := h
    exact ⟨(hnext x (by simp)).trans hx, (hprev y (by simp)).trans hy⟩
  | cons k l ih =>
    obtain ⟨hx, hk, hrest⟩ := h
    refine ⟨(hnext x (by simp)).trans hx, (hprev _ (by simp)).trans hk, ih hrest ?_ ?_⟩
    · intro s hs
      exact hnext s (by simp only [List.map_cons, List.mem_cons] at hs ⊢; exact .inr hs)
    · intro t ht
      refine hprev t ?_
      simp only [List.map_cons, List.mem_cons] at ht ⊢
      exact ht.imp_right .inr

theorem Seg.flip (h : d.Seg x l y) : d.flip.Seg y l.reverse x := by
  induction l generalizing x with
  | nil => exact ⟨h.2, h.1⟩
  | cons k l ih =>
    obtain ⟨hx, hk, hrest⟩ := h
    rw [List.reverse_cons, Seg.append]
    exact ⟨ih hrest, hk, hx⟩

theorem Lists.flip (h : d.Lists l) : d.flip.Lists l.reverse :=
  ⟨List.nodup_reverse.mpr h.nodup, h.seg.flip⟩

theorem Seg.walk (h : d.Seg x l none) {fuel : Nat} (hf : l.length ≤ fuel) :
    walk d.next fuel (d.next x) = some l := by
  induction l generalizing x fuel with
  | nil =>
    rw [h.1]
    cases fuel <;> rfl
  | cons k l ih =>
    cases fuel with
    | zero => simp at hf
    | succ fuel =>
      rw [h.1, Dll.walk, ih h.2.2 (by simpa using hf)]
      rfl

theorem Seg.scan (h : d.Seg x l none) (test : ι → Bool) {fuel : Nat} (hf : l.length ≤ fuel) :
    scan d.next test fuel (d.next x) = some (l.find? test) := by
  induction l generalizing x fuel with
  | nil =>
    rw [h.1]
    cases fuel <;> rfl
  | cons k l ih =>
    cases fuel with
    | zero => simp at hf
    | succ fuel =>
      rw [h.1, Dll.scan, List.find?_cons]
      cases htest : test k with
      | true => rfl
      | false => exact ih h.2.2 (by simpa using hf)

theorem Seg.prev_mem (h : d.Seg x a (some i)) : d.prev (some i) ∈ x :: a.map some := by
  induction a generalizing x with
  | nil =>
    rw [h.2]
    exact List.mem_cons_self
  | cons k a ih => exact List.mem_cons_of_mem _ (ih h.2.2)

theorem Seg.next_mem (h : d.Seg (some i) b y) : d.next (some i) ∈ y :: b.map some := by
  cases b with
  | nil =>
    rw [h.1]
    exact List.mem_cons_self
  | cons k b =>
    rw [h.1]
    simp

variable [DecidableEq ι]

def setNext (d : Dll ι) (x y : Option ι) : Dll ι := { d with next := Function.update d.next x y }

def setPrev (d : Dll ι) (x y : Option ι) : Dll ι := { d with prev := Function.update d.prev x y }

-- b->next->prev = b->prev and b->prev->next = b->next
def unlink (d : Dll ι) (b : Option ι) : Dll ι :=
  let d := d.setPrev (d.next b) (d.prev b)
  d.setNext (d.prev b) (d.next b)

-- b->next = head.next, b->prev = &head, head.next->prev = b and head.next = b
def pushFront (d : Dll ι) (b : Option ι) : Dll ι :=
  let d := d.setNext b (d.next none)
  let d := d.setPrev b none
  let d := d.setPrev (d.next none) b
  d.setNext none b

-- The links around i are joined.
theorem Seg.join {p n : Option ι} (ha : d.Seg x a (some i)) (hb : d.Seg (some i) b y)
    (hp : d.prev (some i) = p) (hn : d.next (some i) = n) (hab : (a ++ b).Nodup)
    (hx : ∀ k ∈ a ++ b, x ≠ some k) (hy : ∀ k ∈ a ++ b, y ≠ some k) :
    (⟨Function.update d.next p n, Function.update d.prev n p⟩ : Dll ι).Seg x (a ++ b) y := by
  induction a generalizing x with
  | nil =>
    obtain ⟨-, hprev⟩ := ha
    have hpx : p = x := hp.symm.trans hprev
    cases b with
    | nil =>
      have hny : n = y := hn.symm.trans hb.1
      rw [hpx, hny]
      exact ⟨Function.update_self .., Function.update_self ..⟩
    | cons j b =>
      obtain ⟨hnext, -, hrest⟩ := hb
      have hnj : n = some j := hn.symm.trans hnext
      have hj := List.nodup_cons.mp hab
      rw [hpx, hnj]
      refine ⟨Function.update_self .., Function.update_self .., hrest.congr ?_ ?_⟩
      · intro s hs
        refine Function.update_of_ne (fun heq => ?_) ..
        rw [heq, ← List.map_cons (f := some), List.mem_map] at hs
        obtain ⟨k, hk, hkx⟩ := hs
        exact hx k hk hkx.symm
      · intro t ht
        refine Function.update_of_ne (fun heq => ?_) ..
        rw [heq] at ht
        rcases List.mem_cons.mp ht with hyj | hmem
        · exact hy j (by simp) hyj.symm
        · exact hj.1 (by simpa using hmem)
  | cons k a ih =>
    obtain ⟨hnext, hprev, hrest⟩ := ha
    obtain ⟨hk, hab⟩ := List.nodup_cons.mp hab
    have hpx : x ≠ p := by
      intro heq
      have hmem := hrest.prev_mem
      rw [hp, ← heq, ← List.map_cons (f := some), List.mem_map] at hmem
      obtain ⟨j, hj, hjx⟩ := hmem
      exact hx j (List.mem_append_left b hj) hjx.symm
    have hnk : some k ≠ n := by
      intro heq
      have hmem := hb.next_mem
      rw [hn, ← heq] at hmem
      rcases List.mem_cons.mp hmem with hyk | hmem
      · exact hy k (by simp) hyk.symm
      · exact hk (List.mem_append_right a (by simpa using hmem))
    refine ⟨?_, ?_, ih hrest hab (fun j hj heq => ?_) fun j hj => hy j (List.mem_cons_of_mem k hj)⟩
    · exact (Function.update_of_ne hpx ..).trans hnext
    · exact (Function.update_of_ne hnk ..).trans hprev
    · cases heq
      exact hk hj

theorem unlink_eq (d : Dll ι) (b : Option ι) : d.unlink b =
    ⟨Function.update d.next (d.prev b) (d.next b), Function.update d.prev (d.next b) (d.prev b)⟩ := by
  have hprev : Function.update d.prev (d.next b) (d.prev b) b = d.prev b := by
    by_cases hb : b = d.next b
    · rw [← hb, Function.update_self]
    · rw [Function.update_of_ne hb]
  simp only [unlink, setPrev, setNext, hprev]

theorem Lists.unlink (h : d.Lists (a ++ i :: b)) : (d.unlink (some i)).Lists (a ++ b) := by
  obtain ⟨ha, hb⟩ := Seg.append.mp h.seg
  have hnodup : (a ++ b).Nodup := by
    refine h.nodup.sublist ?_
    exact List.Sublist.append_left (List.sublist_cons_self i b) a
  refine ⟨hnodup, ?_⟩
  rw [unlink_eq]
  exact ha.join hb rfl rfl hnodup (fun _ _ => nofun) fun _ _ => nofun

theorem Lists.pushFront (h : d.Lists l) (hi : i ∉ l) : (d.pushFront (some i)).Lists (i :: l) := by
  have hhead : Function.update d.next (some i) (d.next none) none = d.next none :=
    Function.update_of_ne (Option.some_ne_none i).symm ..
  have heq : d.pushFront (some i) =
      ⟨Function.update (Function.update d.next (some i) (d.next none)) none (some i),
        Function.update (Function.update d.prev (some i) none) (d.next none) (some i)⟩ := by
    simp only [Dll.pushFront, setNext, setPrev, hhead]
  refine ⟨List.nodup_cons.mpr ⟨hi, h.nodup⟩, ?_⟩
  rw [heq]
  have hseg := h.seg
  cases l with
  | nil =>
    have hnone : d.next none = none := hseg.1
    rw [hnone]
    refine ⟨?_, ?_, ?_, ?_⟩ <;> simp
  | cons j l =>
    obtain ⟨hnext, -, hrest⟩ := hseg
    simp only [List.mem_cons, not_or] at hi
    have hj := List.nodup_cons.mp h.nodup
    rw [hnext]
    refine ⟨?_, ?_, ?_, ?_, hrest.congr ?_ ?_⟩
    · simp
    · simp [hi.1]
    · simp
    · simp
    · intro s hs
      obtain ⟨k, hk, rfl⟩ : ∃ k ∈ j :: l, some k = s := by
        rw [← List.map_cons (f := some)] at hs
        exact List.mem_map.mp hs
      have hki : k ≠ i := by
        rintro rfl
        simp only [List.mem_cons] at hk
        exact hk.elim hi.1 hi.2
      simp [hki]
    · intro t ht
      have htj : t ≠ some j := by
        rintro rfl
        simp only [List.mem_cons, reduceCtorEq, List.mem_map, Option.some.injEq, exists_eq_right,
          false_or] at ht
        exact hj.1 ht
      have hti : t ≠ some i := by
        rintro rfl
        simp only [List.mem_cons, reduceCtorEq, List.mem_map, Option.some.injEq, exists_eq_right,
          false_or] at ht
        exact hi.2 ht
      simp [htj, hti]

end Dll

end Xv6.Lib
