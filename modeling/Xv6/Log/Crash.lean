import Xv6.Log.Header
import Xv6.Lib.Crash
import Mathlib.Data.List.Nodup

namespace Xv6.Log

open Xv6.Lib

-- The disks that a crash can leave: any number of recoveries, each stopped
-- between two of its writes.
inductive Crashed (dev : Dev) : Disk → Disk → Prop
  | refl (disk : Disk) : Crashed dev disk disk
  | recover {disk other : Disk} {trace : List (Io × Store)} {rest : Prog Store Io Unit}
      {s : Store} (hrec : Crashed dev disk other)
      (he : Prog.Exec (recoverFromLog dev) (Store.boot other) trace rest s) :
      Crashed dev disk s.disk

-- One transaction: the blocks lh get the contents new over the disk old.
structure Tx (dev : Dev) where
  old : Disk
  lh : List Nat
  new : Nat → Block
  short : (lh.length : Int) ≤ min (LOGSIZE : Int) ((dev.size : Int) - 1)
  nodup : lh.Nodup
  home : ∀ b ∈ lh, ¬dev.area b
  uint : ∀ b ∈ lh, b < 2 ^ 32

namespace Tx

variable {dev : Dev} (tx : Tx dev)

-- Outside the transaction and the log area the disk is as it was.
def Frame (disk : Disk) : Prop :=
  ∀ b, b ∉ tx.lh → ¬dev.area b → disk b = tx.old b

-- Before the header is written.
def Pending (disk : Disk) : Prop :=
  headN (disk dev.start) = 0 ∧ tx.Frame disk ∧ ∀ b ∈ tx.lh, disk b = tx.old b

-- After the header is written. Any part of the blocks may be installed, and
-- installing again changes nothing.
def Committed (disk : Disk) : Prop :=
  getHead (disk dev.start) = tx.lh ∧ tx.Frame disk ∧
    (∀ i (hi : i < tx.lh.length), disk (dev.start + i + 1) = tx.new tx.lh[i]) ∧
    ∀ b ∈ tx.lh, disk b = tx.old b ∨ disk b = tx.new b

-- After the header is erased again.
def Installed (disk : Disk) : Prop :=
  headN (disk dev.start) = 0 ∧ tx.Frame disk ∧ ∀ b ∈ tx.lh, disk b = tx.new b

-- What a crash may find, by whether the first write_head() reached the disk.
def Safe (written : Prop) (disk : Disk) : Prop :=
  (¬written → tx.Pending disk) ∧ (written → tx.Committed disk ∨ tx.Installed disk)

theorem length_le : tx.lh.length ≤ LOGSIZE := by
  have h := tx.short
  omega

theorem slot_area {i : Nat} (hi : i < tx.lh.length) : dev.area (dev.start + i + 1) := by
  have h := tx.short
  exact ⟨by omega, by omega⟩

theorem start_area (tx : Tx dev) : dev.area dev.start := by
  have h := tx.short
  exact ⟨le_refl _, by omega⟩

theorem slot_not_mem {i : Nat} (hi : i < tx.lh.length) : dev.start + i + 1 ∉ tx.lh :=
  fun h => tx.home _ h (tx.slot_area hi)

theorem start_not_mem : dev.start ∉ tx.lh := fun h => tx.home _ h tx.start_area

variable {tx}

theorem Frame.update_area {disk : Disk} (h : tx.Frame disk) {b : Nat} (data : Block)
    (hb : dev.area b) : tx.Frame (Function.update disk b data) := by
  intro c hc ha
  rw [Function.update_of_ne (by rintro rfl; exact ha hb)]
  exact h c hc ha

theorem Frame.update_home {disk : Disk} (h : tx.Frame disk) {b : Nat} (data : Block)
    (hb : b ∈ tx.lh) : tx.Frame (Function.update disk b data) := by
  intro c hc ha
  rw [Function.update_of_ne (by rintro rfl; exact hc hb)]
  exact h c hc ha

theorem Pending.write_slot {disk : Disk} (h : tx.Pending disk) {i : Nat} (hi : i < tx.lh.length)
    (data : Block) : tx.Pending (Function.update disk (dev.start + i + 1) data) := by
  obtain ⟨hn, hf, ho⟩ := h
  refine ⟨?_, hf.update_area data (tx.slot_area hi), fun b hb => ?_⟩
  · rw [Function.update_of_ne (by omega)]
    exact hn
  · rw [Function.update_of_ne (by rintro rfl; exact tx.slot_not_mem hi hb)]
    exact ho b hb

theorem Committed.install {disk : Disk} (h : tx.Committed disk) {i : Nat}
    (hi : i < tx.lh.length) : tx.Committed (Function.update disk tx.lh[i] (tx.new tx.lh[i])) := by
  obtain ⟨hg, hf, hl, hb⟩ := h
  have hmem : tx.lh[i] ∈ tx.lh := List.getElem_mem hi
  refine ⟨?_, hf.update_home _ hmem, fun j hj => ?_, fun b hbm => ?_⟩
  · rw [Function.update_of_ne (by intro he; exact tx.start_not_mem (he ▸ hmem))]
    exact hg
  · rw [Function.update_of_ne (by intro he; exact tx.slot_not_mem hj (he ▸ hmem))]
    exact hl j hj
  · by_cases he : b = tx.lh[i]
    · subst he
      right
      simp
    · rw [Function.update_of_ne he]
      exact hb b hbm

-- The loop invariant of write_log() at index tail.
theorem writeLog_crash (rest : List Nat) (tail : Nat) (hdrop : rest = tx.lh.drop tail)
    {past : List Io} {s : Store} (hpast : Io.write dev.start ∉ past) (hp : tx.Pending s.disk)
    (hc : ∀ b ∈ tx.lh, s.cached b = some (tx.new b)) (hs : ∀ b, b ∉ tx.lh → s.cached b = none)
    (hl : ∀ i (hi : i < tx.lh.length), i < tail → s.disk (dev.start + i + 1) = tx.new tx.lh[i]) :
    (writeLog dev tail rest).Crash
      (fun past s => Io.write dev.start ∉ past ∧ tx.Pending s.disk)
      (fun _ past s => Io.write dev.start ∉ past ∧ tx.Pending s.disk ∧
        (∀ b, b ∉ tx.lh → s.cached b = none) ∧
        ∀ i (hi : i < tx.lh.length), s.disk (dev.start + i + 1) = tx.new tx.lh[i])
      past s := by
  induction rest generalizing tail past s with
  | nil =>
    have hlen : tx.lh.length ≤ tail := by simpa using hdrop.symm
    exact ⟨⟨hpast, hp⟩, hpast, hp, hs, fun i hi => hl i hi (by omega)⟩
  | cons b rest ih =>
    have htail : tail < tx.lh.length := by
      by_contra h
      rw [List.drop_of_length_le (by omega)] at hdrop
      cases hdrop
    rw [List.drop_eq_getElem_cons htail] at hdrop
    obtain ⟨rfl, hrest⟩ := List.cons.inj hdrop
    have hmem : tx.lh[tail] ∈ tx.lh := List.getElem_mem htail
    have hslot := tx.slot_not_mem htail
    have hpast' : Io.write dev.start ∉ past ++ [Io.write (dev.start + tail + 1)] := by
      simp only [List.mem_append, List.mem_singleton, Io.write.injEq, not_or]
      exact ⟨hpast, by omega⟩
    have hp' := hp.write_slot htail (tx.new tx.lh[tail])
    have hread : s.bread tx.lh[tail] = tx.new tx.lh[tail] := by simp [Store.bread, hc _ hmem]
    simp only [writeLog, bwrite]
    apply Prog.Crash.bind
    apply Prog.Crash.modify ⟨hpast, hp⟩
    · exact ⟨hpast', by simpa [Store.write, hread] using hp'⟩
    · apply ih (tail + 1) hrest hpast'
      · simpa [Store.write, hread] using hp'
      · intro b hb
        simp only [Store.write]
        rw [Function.update_of_ne (by rintro rfl; exact hslot hb)]
        exact hc b hb
      · intro b hb
        simp only [Store.write]
        by_cases he : b = dev.start + tail + 1
        · simp [he]
        · rw [Function.update_of_ne he]
          exact hs b hb
      · intro i hi hit
        simp only [Store.write, hread]
        by_cases he : i = tail
        · subst he
          simp
        · rw [Function.update_of_ne (by omega)]
          exact hl i hi (by omega)

-- The loop invariant of install_trans() at index tail. A mark on the labels
-- that holds at the start is carried along.
theorem installTrans_crash (mark : List Io → Prop)
    (hmark : ∀ past l, mark past → mark (past ++ [l])) (rest : List Nat) (tail : Nat) (hdrop : rest = tx.lh.drop tail)
    {past : List Io} {s : Store} (hpast : mark past) (hp : tx.Committed s.disk)
    (hs : ∀ b, b ∉ tx.lh → s.cached b = none)
    (hl : ∀ i (hi : i < tx.lh.length), i < tail → s.disk tx.lh[i] = tx.new tx.lh[i]) :
    (installTrans dev tail rest).Crash
      (fun past s => mark past ∧ tx.Committed s.disk)
      (fun _ past s => mark past ∧ tx.Committed s.disk ∧ s.cached dev.start = none ∧
        ∀ b ∈ tx.lh, s.disk b = tx.new b)
      past s := by
  induction rest generalizing tail past s with
  | nil =>
    have hlen : tx.lh.length ≤ tail := by simpa using hdrop.symm
    refine ⟨⟨hpast, hp⟩, hpast, hp, hs _ tx.start_not_mem, fun b hb => ?_⟩
    obtain ⟨i, hi, rfl⟩ := List.getElem_of_mem hb
    exact hl i hi (by omega)
  | cons b rest ih =>
    have htail : tail < tx.lh.length := by
      by_contra h
      rw [List.drop_of_length_le (by omega)] at hdrop
      cases hdrop
    rw [List.drop_eq_getElem_cons htail] at hdrop
    obtain ⟨rfl, hrest⟩ := List.cons.inj hdrop
    have hread : s.bread (dev.start + tail + 1) = tx.new tx.lh[tail] := by
      simp [Store.bread, hs _ (tx.slot_not_mem htail), hp.2.2.1 tail htail]
    have hp' := hp.install htail
    simp only [installTrans, bwrite]
    apply Prog.Crash.bind
    apply Prog.Crash.modify ⟨hpast, hp⟩
    · exact ⟨hmark _ _ hpast, by simpa [Store.write, hread] using hp'⟩
    · apply ih (tail + 1) hrest (hmark _ _ hpast)
      · simpa [Store.write, hread] using hp'
      · intro b hb
        simp only [Store.write]
        rw [Function.update_of_ne (by rintro rfl; exact hb (List.getElem_mem htail))]
        exact hs b hb
      · intro i hi hit
        simp only [Store.write, hread]
        by_cases he : i = tail
        · subst he
          simp
        · rw [Function.update_of_ne (fun h => he ((List.Nodup.getElem_inj_iff tx.nodup).mp h))]
          exact hl i hi (by omega)

theorem Pending.write_head {disk : Disk} (h : tx.Pending disk)
    (hl : ∀ i (hi : i < tx.lh.length), disk (dev.start + i + 1) = tx.new tx.lh[i]) :
    tx.Committed (Function.update disk dev.start (putHead (disk dev.start) tx.lh)) := by
  obtain ⟨_, hf, ho⟩ := h
  refine ⟨?_, hf.update_area _ tx.start_area, fun i hi => ?_, fun b hb => ?_⟩
  · rw [Function.update_self, getHead_putHead _ _ tx.length_le tx.uint]
  · rw [Function.update_of_ne (by omega)]
    exact hl i hi
  · left
    rw [Function.update_of_ne (by rintro rfl; exact tx.start_not_mem hb)]
    exact ho b hb

theorem erase_head {disk : Disk} (hf : tx.Frame disk) :
    headN (Function.update disk dev.start (putHead (disk dev.start) []) dev.start) = 0 ∧
      tx.Frame (Function.update disk dev.start (putHead (disk dev.start) [])) ∧
      ∀ b ∈ tx.lh, Function.update disk dev.start (putHead (disk dev.start) []) b = disk b := by
  refine ⟨?_, hf.update_area _ tx.start_area, fun b hb => ?_⟩
  · rw [Function.update_self, headN_putHead _ _ (by simp)]
    rfl
  · rw [Function.update_of_ne (by rintro rfl; exact tx.start_not_mem hb)]

theorem Committed.erase {disk : Disk} (h : tx.Committed disk)
    (hnew : ∀ b ∈ tx.lh, disk b = tx.new b) :
    tx.Installed (Function.update disk dev.start (putHead (disk dev.start) [])) := by
  obtain ⟨hn, hf, hb⟩ := erase_head h.2.1
  exact ⟨hn, hf, fun b hm => (hb b hm).trans (hnew b hm)⟩

theorem Pending.erase {disk : Disk} (h : tx.Pending disk) :
    tx.Pending (Function.update disk dev.start (putHead (disk dev.start) [])) := by
  obtain ⟨hn, hf, hb⟩ := erase_head h.2.1
  exact ⟨hn, hf, fun b hm => (hb b hm).trans (h.2.2 b hm)⟩

theorem Installed.erase {disk : Disk} (h : tx.Installed disk) :
    tx.Installed (Function.update disk dev.start (putHead (disk dev.start) [])) := by
  obtain ⟨hn, hf, hb⟩ := erase_head h.2.1
  exact ⟨hn, hf, fun b hm => (hb b hm).trans (h.2.2 b hm)⟩

theorem safe_pending {disk : Disk} {written : Prop} (hw : ¬written) (h : tx.Pending disk) :
    tx.Safe written disk :=
  ⟨fun _ => h, fun hw' => absurd hw' hw⟩

theorem safe_written {disk : Disk} {written : Prop} (hw : written)
    (h : tx.Committed disk ∨ tx.Installed disk) : tx.Safe written disk :=
  ⟨fun hn => absurd hw hn, fun _ => h⟩

theorem writeHead_nil_crash {crash : List Io → Store → Prop}
    {post : Unit → List Io → Store → Prop} {past : List Io} {s : Store}
    (hc : s.cached dev.start = none) (hs : crash past s)
    (h : ∀ t : Store, t.disk = Function.update s.disk dev.start (putHead (s.disk dev.start) []) →
      crash (past ++ [.write dev.start]) t ∧ post () (past ++ [.write dev.start]) t) :
    (writeHead dev []).Crash crash post past s := by
  have ht := h (s.write dev.start (putHead (s.bread dev.start) []))
    (by simp [Store.write, Store.bread, hc])
  exact Prog.Crash.modify hs ht.1 ht.2

-- Every crash point of commit().
theorem commit_crash (hclean : headN (tx.old dev.start) = 0) :
    (commit dev tx.lh).Crash
      (fun past s => tx.Safe (Io.write dev.start ∈ past) s.disk) (fun _ _ _ => True)
      [] (Store.logged tx.old tx.lh tx.new) := by
  have hpend : tx.Pending (Store.logged tx.old tx.lh tx.new).disk :=
    ⟨hclean, fun _ _ _ => rfl, fun _ _ => rfl⟩
  unfold commit
  split
  · apply Prog.Crash.bind
    apply (writeLog_crash tx.lh 0 rfl (by simp) hpend
      (fun b hb => by simp [Store.logged, hb]) (fun b hb => by simp [Store.logged, hb])
      (fun i hi h => by omega)).mono
    · intro past s h
      exact safe_pending h.1 h.2
    rintro _ past s ⟨hpast, hp, hs, hl⟩
    apply Prog.Crash.bind
    have hstart := hs _ tx.start_not_mem
    have hw := hp.write_head hl
    apply Prog.Crash.modify (safe_pending hpast hp)
    · exact safe_written (by simp) (.inl (by simpa [Store.write, Store.bread, hstart] using hw))
    apply Prog.Crash.bind
    apply (installTrans_crash (fun past => Io.write dev.start ∈ past)
      (fun past l h => by simp [h]) tx.lh 0 rfl (by simp)
      (by simpa [Store.write, Store.bread, hstart] using hw) ?_ (fun i hi h => by omega)).mono
    · intro past s h
      exact safe_written h.1 (.inl h.2)
    · rintro _ past s ⟨hpast, hcom, hc, hnew⟩
      apply writeHead_nil_crash hc (safe_written hpast (.inl hcom))
      intro t ht
      exact ⟨safe_written (by simp) (.inr (ht ▸ hcom.erase hnew)), trivial⟩
    · intro b hb
      simp only [Store.write]
      by_cases he : b = dev.start
      · simp [he]
      · rw [Function.update_of_ne he]
        exact hs b hb
  · exact ⟨safe_pending (by simp) hpend, trivial⟩

theorem recover_head {crash : List Io → Store → Prop} {post : Unit → List Io → Store → Prop}
    {disk : Disk} {lh : List Nat} (hhead : getHead (disk dev.start) = lh)
    (hs : ∀ past, crash past (Store.boot disk))
    (h : (installTrans dev 0 lh >>= fun _ => writeHead dev []).Crash crash post [Io.read]
      (Store.boot disk)) :
    (recoverFromLog dev).Crash crash post [] (Store.boot disk) := by
  unfold recoverFromLog readHead
  apply Prog.Crash.bind
  refine Prog.Crash.look (hs _) (hs _) ?_
  have hread : (Store.boot disk).bread dev.start = disk dev.start := rfl
  rw [hread, hhead]
  exact h

theorem recover_pending {written : Prop} {disk : Disk} (hw : ¬written) (h : tx.Pending disk) :
    (recoverFromLog dev).Crash (fun _ s => tx.Safe written s.disk)
      (fun _ _ s => tx.Pending s.disk) [] (Store.boot disk) := by
  have hsafe : tx.Safe written (Store.boot disk).disk := safe_pending hw h
  apply recover_head ((getHead_eq_nil_iff _).mpr (Int.le_of_eq h.1)) (fun _ => hsafe)
  apply writeHead_nil_crash rfl hsafe
  intro t ht
  exact ⟨safe_pending hw (ht ▸ h.erase), ht ▸ h.erase⟩

theorem recover_installed {written : Prop} {disk : Disk} (hw : written) (h : tx.Installed disk) :
    (recoverFromLog dev).Crash (fun _ s => tx.Safe written s.disk)
      (fun _ _ s => tx.Installed s.disk) [] (Store.boot disk) := by
  have hsafe : tx.Safe written (Store.boot disk).disk := safe_written hw (.inr h)
  apply recover_head ((getHead_eq_nil_iff _).mpr (Int.le_of_eq h.1)) (fun _ => hsafe)
  apply writeHead_nil_crash rfl hsafe
  intro t ht
  exact ⟨safe_written hw (.inr (ht ▸ h.erase)), ht ▸ h.erase⟩

theorem recover_committed {written : Prop} {disk : Disk} (hw : written) (h : tx.Committed disk) :
    (recoverFromLog dev).Crash (fun _ s => tx.Safe written s.disk)
      (fun _ _ s => tx.Installed s.disk) [] (Store.boot disk) := by
  apply recover_head h.1 (fun _ => safe_written hw (.inl h))
  apply Prog.Crash.bind
  apply (installTrans_crash (s := Store.boot disk) (fun _ => True) (fun _ _ h => h) tx.lh 0 rfl
    trivial h (fun b hb => rfl) (fun i hi h => by omega)).mono
  · intro past s h
    exact safe_written hw (.inl h.2)
  · rintro _ past s ⟨-, hcom, hc, hnew⟩
    apply writeHead_nil_crash hc (safe_written hw (.inl hcom))
    intro t ht
    exact ⟨safe_written hw (.inr (ht ▸ hcom.erase hnew)), ht ▸ hcom.erase hnew⟩

theorem recover_crash {written : Prop} {disk : Disk} (h : tx.Safe written disk) :
    (recoverFromLog dev).Crash (fun _ s => tx.Safe written s.disk)
      (fun _ _ s => (¬written → tx.Pending s.disk) ∧ (written → tx.Installed s.disk))
      [] (Store.boot disk) := by
  by_cases hw : written
  · have hpost : ∀ (_ : Unit) (_ : List Io) (s : Store), tx.Installed s.disk →
        (¬written → tx.Pending s.disk) ∧ (written → tx.Installed s.disk) :=
      fun _ _ _ hi => ⟨fun hn => absurd hw hn, fun _ => hi⟩
    rcases h.2 hw with hcom | hins
    · exact (recover_committed hw hcom).mono (fun _ _ h => h) hpost
    · exact (recover_installed hw hins).mono (fun _ _ h => h) hpost
  · exact (recover_pending hw (h.1 hw)).mono (fun _ _ h => h)
      fun _ _ _ hp => ⟨fun _ => hp, fun h => absurd h hw⟩

theorem safe_of_crashed {written : Prop} {disk other : Disk} (h : tx.Safe written disk)
    (hrec : Crashed dev disk other) : tx.Safe written other := by
  induction hrec with
  | refl => exact h
  | recover _ he ih => exact (recover_crash ih).stopped he

end Tx

theorem installTrans_run (dev : Dev) (tail : Nat) (lh : List Nat) (s : Store) :
    ∃ t, (installTrans dev tail lh).run s = .done t () := by
  induction lh generalizing tail s with
  | nil => exact ⟨s, rfl⟩
  | cons b rest ih =>
    obtain ⟨t, ht⟩ := ih (tail + 1) (s.write b (s.bread (dev.start + tail + 1)))
    exact ⟨t, ht⟩

theorem readHead_run (dev : Dev) (s : Store) :
    (readHead dev).run s = .done s (getHead (s.bread dev.start)) := rfl

theorem recoverFromLog_run_of_head {dev : Dev} {s t : Store} {lh : List Nat}
    (hhead : getHead (s.bread dev.start) = lh)
    (ht : (installTrans dev 0 lh).run s = .done t ()) :
    (recoverFromLog dev).run s =
      .done (t.write dev.start (putHead (t.bread dev.start) [])) () := by
  rw [recoverFromLog, Prog.run_bind, readHead_run, hhead]
  simp only [Prog.run_bind, ht]
  rfl

theorem recoverFromLog_run (dev : Dev) (s : Store) :
    ∃ t, (recoverFromLog dev).run s = .done t () := by
  obtain ⟨t, ht⟩ := installTrans_run dev 0 (getHead (s.bread dev.start)) s
  exact ⟨_, recoverFromLog_run_of_head rfl ht⟩

-- The machine stops during commit(), any number of recoveries stop as well, and one ends.
theorem Tx.crash_recovers {dev : Dev} {tx : Tx dev} {trace : List (Io × Store)} {rest : Prog Store Io Unit} {s : Store}
    {disk : Disk} (hclean : headN (tx.old dev.start) = 0)
    (hcrash : Prog.Exec (commit dev tx.lh) (Store.logged tx.old tx.lh tx.new) trace rest s)
    (hrec : Crashed dev s.disk disk) :
    ∃ t, (recoverFromLog dev).run (Store.boot disk) = .done t () ∧
      (Io.write dev.start ∉ trace.map Prod.fst → tx.Pending t.disk) ∧
      (Io.write dev.start ∈ trace.map Prod.fst → tx.Installed t.disk) := by
  have hsafe := safe_of_crashed ((commit_crash hclean).stopped hcrash) hrec
  obtain ⟨t, ht⟩ := recoverFromLog_run dev (Store.boot disk)
  exact ⟨t, ht, (recover_crash hsafe).returned ht⟩

-- A crash at any point of commit(), any number of crashed recoveries, and
-- then a recovery that ends: all blocks of the transaction are new if the
-- first write_head() was on disk, and else all are old.
theorem commit_crash_atomic {dev : Dev} (tx : Tx dev) (hclean : headN (tx.old dev.start) = 0)
    {trace : List (Io × Store)} {rest : Prog Store Io Unit} {s : Store} {disk : Disk}
    (hcrash : Prog.Exec (commit dev tx.lh) (Store.logged tx.old tx.lh tx.new) trace rest s)
    (hrec : Crashed dev s.disk disk) :
    ∃ t, (recoverFromLog dev).run (Store.boot disk) = .done t () ∧
      (Io.write dev.start ∉ trace.map Prod.fst → ∀ b ∈ tx.lh, t.disk b = tx.old b) ∧
      (Io.write dev.start ∈ trace.map Prod.fst → ∀ b ∈ tx.lh, t.disk b = tx.new b) ∧
      (∀ b, b ∉ tx.lh → ¬dev.area b → t.disk b = tx.old b) ∧
      headN (t.disk dev.start) = 0 := by
  obtain ⟨t, ht, hold, hnew⟩ := Tx.crash_recovers hclean hcrash hrec
  refine ⟨t, ht, fun hw => (hold hw).2.2, fun hw => (hnew hw).2.2, ?_, ?_⟩
  · by_cases hw : Io.write dev.start ∈ trace.map Prod.fst
    · exact (hnew hw).2.1
    · exact (hold hw).2.1
  · by_cases hw : Io.write dev.start ∈ trace.map Prod.fst
    · exact (hnew hw).1
    · exact (hold hw).1

-- Two blocks on an empty disk. The crash comes right after the header is
-- written, and one recovery crashes before its first write.
def exampleTx : Tx ⟨2, LOGSIZE⟩ where
  old := fun _ => Block.zero
  lh := [46, 50]
  new := fun b _ => UInt8.ofNat b
  short := by decide
  nodup := by decide
  home := by decide
  uint := by decide

theorem commit_crash_atomic_exampleTx :
    ∃ s disk t, Crashed ⟨2, LOGSIZE⟩ s disk ∧
      (recoverFromLog ⟨2, LOGSIZE⟩).run (Store.boot disk) = .done t () ∧
      t.disk 46 = exampleTx.new 46 ∧ t.disk 50 = exampleTx.new 50 ∧ t.disk 47 = Block.zero := by
  obtain ⟨t, hrun, -, hnew, hframe, -⟩ := commit_crash_atomic exampleTx (by decide)
    (.step rfl (.step rfl (.step rfl (.refl _ _))))
    (.recover (.refl _) (.refl _ _))
  refine ⟨_, _, t, .recover (.refl _) (.refl _ _), hrun, ?_, ?_, ?_⟩
  · exact hnew (by simp) 46 (by decide)
  · exact hnew (by simp) 50 (by decide)
  · exact hframe 47 (by decide) (by decide)

-- The same on a disk whose header already lists block 60. The machine stops before commit()
-- has written anything, and recovery installs what lies in the first block of the log.
def dirtyTx : Tx ⟨2, LOGSIZE⟩ where
  old := fun b => if b = 2 then putHead Block.zero [60] else if b = 3 then fun _ => 1 else Block.zero
  lh := [46, 50]
  new := fun b _ => UInt8.ofNat b
  short := by decide
  nodup := by decide
  home := by decide
  uint := by decide

theorem dirty_header_installed :
    ∃ rest s t, Prog.Exec (commit ⟨2, LOGSIZE⟩ dirtyTx.lh)
        (Store.logged dirtyTx.old dirtyTx.lh dirtyTx.new) [] rest s ∧
      (recoverFromLog ⟨2, LOGSIZE⟩).run (Store.boot s.disk) = .done t () ∧
      60 ∉ dirtyTx.lh ∧ ¬(⟨2, LOGSIZE⟩ : Dev).area 60 ∧ t.disk 60 ≠ dirtyTx.old 60 := by
  have hhead : getHead ((Store.boot dirtyTx.old).bread 2) = [60] :=
    getHead_putHead _ _ (by decide) (by decide)
  refine ⟨_, _, _, .refl _ _, recoverFromLog_run_of_head hhead rfl, by decide, by decide, fun h => ?_⟩
  have hbyte := congrFun h ⟨0, by decide⟩
  revert hbyte
  decide

end Xv6.Log
