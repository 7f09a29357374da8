import Xv6.Exec.Load

namespace Xv6.Exec

open Lib

-- A length rounded up to 16 bytes.
def up16 (n : Nat) : Nat := (n + 15) / 16 * 16

-- The bytes that the strings of argv take on the stack.
def room : List (List UInt8) → Nat
  | [] => 0
  | s :: argv => up16 (s.length + 1) + room argv

-- With the array of pointers to them.
def argRoom (argv : List (List UInt8)) : Nat := room argv + up16 ((argv.length + 1) * 8)

-- Where the strings are when the stack begins at sp.
def places : Nat → List (List UInt8) → List Nat
  | _, [] => []
  | sp, s :: argv => (sp - up16 (s.length + 1)) :: places (sp - up16 (s.length + 1)) argv

def Img.pushStrings (img : Img) : Nat → List (List UInt8) → Img
  | _, [] => img
  | sp, s :: argv =>
    Img.pushStrings (img.write (sp - up16 (s.length + 1)) (s ++ [0])) (sp - up16 (s.length + 1)) argv

def Img.pushArgv (img : Img) (argv : List (List UInt8)) : Img :=
  (img.pushStrings img.sz argv).write (img.sz - argRoom argv) (words (places img.sz argv ++ [0]))

theorem le_up16 (n : Nat) : n ≤ up16 n := by
  unfold up16
  omega

theorem up16_mod (n : Nat) : up16 n % 16 = 0 := Nat.mul_mod_left _ 16

theorem room_mod (argv : List (List UInt8)) : room argv % 16 = 0 := by
  induction argv with
  | nil => rfl
  | cons s argv ih =>
    grind [up16_mod, room]

theorem argRoom_mod (argv : List (List UInt8)) : argRoom argv % 16 = 0 := by
  grind [room_mod, up16_mod, argRoom]

theorem push_eq {sp n : Nat} (hmod : sp % 16 = 0) (hle : n ≤ sp) (hlt : sp < 0x10000000000000000) :
    push sp n = sp - up16 n := by
  grind [u64Int, push, up16]

theorem up16_le {sp n : Nat} (hmod : sp % 16 = 0) (hle : n ≤ sp) : up16 n ≤ sp := by
  unfold up16
  omega

variable {argv : List (List UInt8)} {img : Img} {sp a : Nat}

theorem length_places (sp : Nat) (argv : List (List UInt8)) :
    (places sp argv).length = argv.length := by
  induction argv generalizing sp <;> grind [places]

theorem places_inside (hroom : room argv ≤ sp) {i q : Nat} {s : List UInt8}
    (hs : argv[i]? = some s) (hq : (places sp argv)[i]? = some q) :
    sp - room argv ≤ q ∧ q + (s.length + 1) ≤ sp := by
  induction argv generalizing sp i with
  | nil => simp at hs
  | cons s' argv ih =>
    grind [le_up16, room, places]

namespace Img

@[simp] theorem pushStrings_sz (img : Img) (sp : Nat) (argv : List (List UInt8)) :
    (img.pushStrings sp argv).sz = img.sz := by
  induction argv generalizing img sp with
  | nil => rfl
  | cons s argv ih => rw [pushStrings, ih, write_sz]

@[simp] theorem pushStrings_flags (img : Img) (sp : Nat) (argv : List (List UInt8)) :
    (img.pushStrings sp argv).flags = img.flags := by
  induction argv generalizing img sp with
  | nil => rfl
  | cons s argv ih => rw [pushStrings, ih, write_flags]

theorem pushStrings_outside (hroom : room argv ≤ sp) (ha : a < sp - room argv ∨ sp ≤ a) :
    (img.pushStrings sp argv).byte a = img.byte a := by
  induction argv generalizing img sp with
  | nil => rfl
  | cons s argv ih =>
    rw [room] at hroom ha
    have hle := le_up16 (s.length + 1)
    have hlen : (s ++ [0]).length = s.length + 1 := List.length_append
    rw [pushStrings, ih (by omega) (by omega), write_byte, overlay_outside (by omega)]

theorem pushStrings_string (hroom : room argv ≤ sp) {i q k : Nat} {s : List UInt8} {b : UInt8}
    (hs : argv[i]? = some s) (hq : (places sp argv)[i]? = some q) (hb : (s ++ [0])[k]? = some b) :
    (img.pushStrings sp argv).byte (q + k) = b := by
  induction argv generalizing img sp i with
  | nil => simp at hs
  | cons s' argv ih =>
    rw [room] at hroom
    rw [pushStrings]
    cases i with
    | zero =>
      cases hs
      cases hq
      rw [pushStrings_outside (by omega) (.inr (Nat.le_add_right _ _)), write_byte,
        overlay_inside hb]
    | succ i =>
      rw [List.getElem?_cons_succ] at hs
      rw [places, List.getElem?_cons_succ] at hq
      exact ih (by omega) hs hq

end Img

theorem length_words (ws : List Nat) : (words ws).length = ws.length * 8 := by
  simp_all [words]

theorem words_get {ws : List Nat} {i r w : Nat} (hw : ws[i]? = some w) (hr : r < 8) :
    (words ws)[8 * i + r]? = some (leByte w r) := by
  induction ws generalizing i <;> grind [words]

theorem length_words_places (sp : Nat) (argv : List (List UInt8)) :
    (words (places sp argv ++ [0])).length = (argv.length + 1) * 8 := by
  grind [length_words, length_places]

variable {m m' : Mem} {root n top base : Nat} {fixed : Nat → Nat} {T : Multiset Nat}
  {L : List (Nat × Nat)} {P : Panic → Prop}

theorem pushStrings_spec {Q : Option (Nat × List Nat) → Mem → Prop} {ustack : List Nat}
    (h : Shows m root fixed T L img) (hopen : ∀ a, base ≤ a → a < sp → img.Open a)
    (hbase : PGSIZE ≤ base) (hle : base ≤ sp) (hmod : sp % 16 = 0) (hlt : sp < 0x10000000000000000)
    (hlen : ∀ s ∈ argv, s.length < PGSIZE) (hcount : ustack.length + argv.length ≤ MAXARG)
    (hfail : ∀ m', sp < base + room argv → Space m' root fixed T L →
      m.Trade m' (leaves L) (leaves L) → Q none m')
    (hdone : ∀ m', base + room argv ≤ sp → Shows m' root fixed T L (img.pushStrings sp argv) →
      m.Trade m' (leaves L) (leaves L) → Q (some (sp - room argv, ustack ++ places sp argv)) m') :
    Wp (pushStrings root base argv sp ustack) m P Q := by
  induction argv generalizing m img sp ustack with
  | nil =>
    have hd := hdone m hle h .refl
    rw [places, List.append_nil] at hd
    exact Wp.pure hd
  | cons s argv ih =>
    obtain ⟨hs, hlen⟩ := List.forall_mem_cons.mp hlen
    rw [List.length_cons] at hcount
    rw [room] at hfail hdone
    have hsp : s.length + 1 ≤ sp := by omega
    have hmod' := up16_mod (s.length + 1)
    have hstring := le_up16 (s.length + 1)
    have hsize : (s ++ [0]).length = s.length + 1 := List.length_append
    refine Wp.ite (fun hmax => absurd hcount (by omega)) fun _ => ?_
    rw [push_eq hmod hsp hlt]
    refine Wp.ite (fun hless => Wp.pure ?_) fun hfit => ?_
    · exact hfail m (by omega) h.space .refl
    · obtain ⟨m₁, hrun, h₁, ht₁⟩ := h.copyout (sp - up16 (s.length + 1)) (s ++ [0])
        fun k hk => hopen _ (by omega) (by omega)
      refine Wp.bind (Wp.of_ok hrun ?_)
      rw [if_neg (by decide)]
      refine ih h₁ (fun a ha ha' => hopen a ha (by omega)) (by omega) (by omega) (by omega) hlen
        ?_ (fun m' hless h' ht' => hfail m' (by omega) h' (ht₁.trans ht'))
        fun m' hfits h' ht' => ?_
      · rw [List.length_append, List.length_singleton]
        omega
      · have hd := hdone m' (by omega) h' (ht₁.trans ht')
        rw [places] at hd
        rw [List.append_assoc, Nat.sub_sub]
        exact hd

-- Where user code finds its stack.
def Img.StackAt (img : Img) (base : Nat) : Prop :=
  ∀ a, base ≤ a → a < img.sz → img.Open a

theorem pushArgv_spec {Q : Option Nat → Mem → Prop} (h : Shows m root fixed T L img)
    (hbase : base + USERSTACK * PGSIZE = img.sz) (hguard : PGSIZE ≤ base) (hstack : img.StackAt base)
    (hmod : img.sz % 16 = 0) (hlen : ∀ s ∈ argv, s.length < PGSIZE) (hcount : argv.length < MAXARG)
    (hfail : ∀ m', USERSTACK * PGSIZE < argRoom argv → Space m' root fixed T L →
      m.Trade m' (leaves L) (leaves L) → Q none m')
    (hdone : ∀ m', argRoom argv ≤ USERSTACK * PGSIZE → Shows m' root fixed T L (img.pushArgv argv) →
      m.Trade m' (leaves L) (leaves L) → Q (some (img.sz - argRoom argv)) m') :
    Wp (pushArgv root img.sz argv) m P Q := by
  have hlt : img.sz < 0x10000000000000000 := by
    have hpages := h.pages_le
    rw [NPAGES_eq] at hpages
    have := pagesFor_le hpages
    omega
  have hstackbase : u64Int ((img.sz : Int) - (USERSTACK * PGSIZE : Nat)) = base := by
    unfold u64Int
    omega
  have hpos : 0 < base := Nat.lt_of_lt_of_le (by decide) hguard
  have hup := le_up16 ((argv.length + 1) * 8)
  have hmod' := room_mod argv
  have hargs : argRoom argv = room argv + up16 ((argv.length + 1) * 8) := rfl
  unfold pushArgv
  rw [hstackbase]
  refine Wp.bind (pushStrings_spec h hstack hguard (by omega) hmod hlt hlen ?_
    (fun m' hless h' ht' => Wp.pure (hfail m' (by omega) h' ht')) fun m₁ hfits h₁ ht₁ => ?_)
  · rw [List.length_nil]
    omega
  · have hptrs : (argv.length + 1) * 8 ≤ img.sz - room argv := by
      grind [MAXARG, PGSIZE]
    have hsub : img.sz - room argv - up16 ((argv.length + 1) * 8) = img.sz - argRoom argv := by
      omega
    rw [List.nil_append]
    dsimp only
    rw [length_places, push_eq (by omega) hptrs (by omega)]
    refine Wp.ite (fun hless => Wp.pure ?_) fun hfit => ?_
    · exact hfail m₁ (by omega) h₁.space ht₁
    · rw [hsub] at hfit ⊢
      have hwords := length_words_places img.sz argv
      have hopen : ∀ k < (words (places img.sz argv ++ [0])).length,
          (img.pushStrings img.sz argv).Open (img.sz - argRoom argv + k) := by
        intro k hk
        have ha := hstack (img.sz - argRoom argv + k) (by omega) (by omega)
        unfold Img.Open at ha ⊢
        rwa [Img.pushStrings_sz, Img.pushStrings_flags]
      obtain ⟨m', hrun, h', ht'⟩ := h₁.copyout _ _ hopen
      refine Wp.bind (Wp.of_ok hrun ?_)
      rw [if_neg (by decide)]
      exact Wp.pure (hdone m' (by omega) h' (ht₁.trans ht'))

end Xv6.Exec
