import Xv6.Fs.Atomic
import Xv6.Fs.Rw
import Xv6.Lib.Words

namespace Xv6.Fs

open Lib

section Path

variable {path : List UInt8}

def isSlash (c : UInt8) : Bool := decide (c = SLASH)

theorem not_isSlash : (fun c => decide (c ≠ SLASH)) = fun c => !isSlash c := by
  funext c
  exact decide_not

theorem skipelem_nil (h : path.dropWhile isSlash = []) : skipelem path = none := by
  unfold skipelem
  rw [show path.dropWhile (fun c => decide (c = SLASH)) = [] from h]

theorem skipelem_cons {c : UInt8} {q : List UInt8} (h : path.dropWhile isSlash = c :: q) :
    skipelem path = some (((c :: q).takeWhile fun c => !isSlash c).take DIRSIZ,
      ((c :: q).dropWhile fun c => !isSlash c).dropWhile isSlash) := by
  unfold skipelem
  rw [show path.dropWhile (fun c => decide (c = SLASH)) = c :: q from h, not_isSlash]
  rfl

theorem elements_eq_words {fuel : Nat} (h : path.length ≤ fuel) :
    elements fuel path = (words isSlash path).map (List.take DIRSIZ) := by
  induction fuel generalizing path with
  | zero =>
    rw [List.length_eq_zero_iff.mp (Nat.le_zero.mp h), words_nil]
    rfl
  | succ fuel ih =>
    rw [← words_dropWhile path]
    have hlen := (List.dropWhile_suffix isSlash (l := path)).length_le
    cases hq : path.dropWhile isSlash with
    | nil =>
      rw [elements, skipelem_nil hq]
      rfl
    | cons c q =>
      have hc : isSlash c = false := by
        have hne : path.dropWhile isSlash ≠ [] := by
          rw [hq]
          simp
        have hhead := List.head_dropWhile_not isSlash hne
        grind
      have hsplit := List.takeWhile_append_dropWhile (p := fun c => !isSlash c) (l := c :: q)
      have hshort : (((c :: q).dropWhile fun c => !isSlash c).dropWhile isSlash).length ≤
          fuel := by
        have h1 := (List.dropWhile_suffix isSlash
          (l := (c :: q).dropWhile fun c => !isSlash c)).length_le
        have h3 : 0 < ((c :: q).takeWhile fun c => !isSlash c).length := by
          simp [hc]
        grind
      rw [words_cons hc, List.map_cons, ← words_dropWhile, ← ih hshort, elements,
        skipelem_cons hq]

end Path

end Xv6.Fs
