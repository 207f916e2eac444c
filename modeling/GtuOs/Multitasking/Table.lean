import GtuOs.Multitasking.Task
import Mathlib.Data.Nat.Find
import Mathlib.Logic.Function.Basic
import Mathlib.Tactic.Common

/-!
# The process table

What the task manager is for, without queue, frames and memory: a table of
processes with their parents (`Proc`), of which at most one is running. A
process blocks waiting for a child, or for any of them, and is ready again
when such a child terminates, which is then reaped.

`Table` is the invariant of the table, and the lemmas after it are the steps:
a process is preempted, dispatched, forked, blocked, reaped or terminates. The
table never deadlocks (`Table.exists_ready`), because every blocked process
waits for a live child, and a child has a greater pid than its parent.
-/

namespace GtuOs

/-- A process of the table. -/
structure Proc where
  ppid : ℤ
  state : State
  /-- The child a blocked process waits for: its pid, or `-1` for any of them. -/
  waiting : Option ℤ
  /-- Whether a terminated process has been delivered to its parent. -/
  reaped : Bool

/-- The process of a task. -/
def Task.proc (t : Task) : Proc where
  ppid := t.ppid
  state := t.state
  waiting := if t.waitingChild then some t.waitingChildId else none
  reaped := t.parentTookInWait

/-- The process `c` is a child the process `i` is waiting for. -/
def WaitsFor (procs : ℕ → Proc) (i c : ℕ) : Prop :=
  (procs c).ppid = i ∧ ((procs i).waiting = some (-1) ∨ (procs i).waiting = some (c : ℤ))

/-- A table of `n` processes, of which `run` is running (if any). -/
structure Table (run : Option ℕ) (procs : ℕ → Proc) (n : ℕ) : Prop where
  ppid_ge : ∀ i < n, -1 ≤ (procs i).ppid
  ppid_lt : ∀ i < n, (procs i).ppid < i
  run_lt : ∀ i, run = some i → i < n
  running_iff : ∀ i < n, (procs i).state = .running ↔ run = some i
  blocked_iff : ∀ i < n, (procs i).state = .blocked ↔ (procs i).waiting ≠ none
  /-- A blocked process waits for some child that is alive. -/
  waits : ∀ i < n, (procs i).state = .blocked →
    ∃ c < n, WaitsFor procs i c ∧ (procs c).state ≠ .terminated
  /-- A blocked process has reaped all terminated children it asked for. -/
  waits_reaped : ∀ i < n, ∀ c < n, WaitsFor procs i c → (procs c).state = .terminated →
    (procs c).reaped = true
  reaped : ∀ i < n, (procs i).reaped = true → (procs i).state = .terminated
  /-- The init process never exits. -/
  init_alive : 0 < n ∧ (procs 0).state ≠ .terminated

namespace Table

variable {run : Option ℕ} {procs : ℕ → Proc} {n t : ℕ}

/-- **No deadlock**: when no process is running, some process is ready. The live
    process of greatest pid is not blocked, as it would wait for a live child of
    greater pid. -/
theorem exists_ready (h : Table none procs n) : ∃ i < n, (procs i).state = .ready := by
  obtain ⟨hn, h0⟩ := h.init_alive
  let Live : ℕ → Prop := fun i => i < n ∧ (procs i).state ≠ .terminated
  have : DecidablePred Live := fun i => inferInstanceAs (Decidable (_ ∧ _))
  let m := Nat.findGreatest Live n
  have hm : Live m := Nat.findGreatest_spec (P := Live) (Nat.zero_le n) ⟨hn, h0⟩
  have hmax : ∀ i, Live i → i ≤ m := fun i hi => Nat.le_findGreatest (Nat.le_of_lt hi.1) hi
  refine ⟨m, hm.1, ?_⟩
  cases hst : (procs m).state with
  | ready => rfl
  | running => exact absurd ((h.running_iff m hm.1).1 hst) (by simp)
  | blocked =>
    obtain ⟨c, hc, ⟨hpp, -⟩, hlive⟩ := h.waits m hm.1 hst
    have hle := hmax c ⟨hc, hlive⟩
    have hlt := h.ppid_lt c hc
    omega
  | terminated => exact absurd hst hm.2

/-- The update of one process, keeping its parent. -/
theorem update (h : Table run procs n) (ht : t < n) {u : Proc} {run' : Option ℕ}
    (hpp : u.ppid = (procs t).ppid)
    (hrun : ∀ i, run' = some i ↔ if i = t then u.state = .running else run = some i)
    (hblk : u.state = .blocked ↔ u.waiting ≠ none)
    (hwaits : u.state = .blocked → ∃ c < n, (procs c).ppid = t ∧
      (u.waiting = some (-1) ∨ u.waiting = some (c : ℤ)) ∧ (procs c).state ≠ .terminated)
    (hdead : ∀ c < n, (procs c).ppid = t → (u.waiting = some (-1) ∨ u.waiting = some (c : ℤ)) →
      (procs c).state = .terminated → (procs c).reaped = true)
    (hterm : u.state = .terminated → (procs t).state = .terminated ∨ ∀ i < n, ¬WaitsFor procs i t)
    (hreap : u.reaped = true → u.state = .terminated)
    (hmono : (procs t).reaped = true → u.reaped = true)
    (hinit : t = 0 → u.state ≠ .terminated) :
    Table run' (Function.update procs t u) n := by
  have hself : Function.update procs t u t = u := Function.update_self _ _ _
  have hne : ∀ i, i ≠ t → Function.update procs t u i = procs i := fun i hi =>
    Function.update_of_ne hi _ _
  have hppid : ∀ i, (Function.update procs t u i).ppid = (procs i).ppid := fun i => by
    rcases eq_or_ne i t with rfl | hi
    · rw [hself, hpp]
    · rw [hne i hi]
  -- A process is not its own child: the other processes wait as before.
  have hwf : ∀ i, i ≠ t → ∀ c, WaitsFor (Function.update procs t u) i c ↔ WaitsFor procs i c :=
    fun i hi c => by rw [WaitsFor, WaitsFor, hppid, hne i hi]
  have hchild : ∀ c < n, (procs c).ppid = t → c ≠ t := fun c hc hct he => by
    have := h.ppid_lt c hc
    rw [hct, he] at this
    exact absurd this (Int.lt_irrefl _)
  refine ⟨fun i hi => ?_, fun i hi => ?_, fun i hi => ?_, fun i hi => ?_, fun i hi => ?_,
    fun i hi hb => ?_, fun i hi c hc hw hd => ?_, fun i hi hr => ?_, ?_⟩
  · rw [hppid]
    exact h.ppid_ge i hi
  · rw [hppid]
    exact h.ppid_lt i hi
  · rcases eq_or_ne i t with rfl | hit
    · exact ht
    · exact h.run_lt i (by simpa [hit] using (hrun i).1 hi)
  · rw [hrun i]
    rcases eq_or_ne i t with rfl | hit
    · rw [hself, if_pos rfl]
    · rw [hne i hit, if_neg hit, h.running_iff i hi]
  · rcases eq_or_ne i t with rfl | hit
    · rw [hself, hblk]
    · rw [hne i hit, h.blocked_iff i hi]
  · rcases eq_or_ne i t with rfl | hit
    · rw [hself] at hb
      obtain ⟨c, hc, hci, hw, hl⟩ := hwaits hb
      refine ⟨c, hc, ⟨?_, ?_⟩, ?_⟩
      · rw [hppid, hci]
      · rwa [hself]
      · rwa [hne c (hchild c hc hci)]
    · rw [hne i hit] at hb
      obtain ⟨c, hc, hw, hl⟩ := h.waits i hi hb
      refine ⟨c, hc, (hwf i hit c).2 hw, ?_⟩
      rcases eq_or_ne c t with rfl | hct
      · rw [hself]
        exact fun hu => (hterm hu).elim hl fun hno => hno i hi hw
      · rwa [hne c hct]
  · rcases eq_or_ne i t with rfl | hit
    · obtain ⟨hci, hw⟩ := hw
      rw [hppid] at hci
      rw [hself] at hw
      rw [hne c (hchild c hc hci)] at hd ⊢
      exact hdead c hc hci hw hd
    · rw [hwf i hit] at hw
      rcases eq_or_ne c t with rfl | hct
      · rw [hself] at hd ⊢
        rcases hterm hd with hd | hno
        · exact hmono (h.waits_reaped i hi c hc hw hd)
        · exact absurd hw (hno i hi)
      · rw [hne c hct] at hd ⊢
        exact h.waits_reaped i hi c hc hw hd
  · rcases eq_or_ne i t with rfl | hit
    · rw [hself] at hr ⊢
      exact hreap hr
    · rw [hne i hit] at hr ⊢
      exact h.reaped i hi hr
  · refine ⟨h.init_alive.1, ?_⟩
    rcases eq_or_ne 0 t with rfl | hit
    · rw [hself]
      exact hinit rfl
    · rw [hne 0 hit]
      exact h.init_alive.2

theorem waiting_eq_none (h : Table run procs n) (ht : t < n) (hst : (procs t).state ≠ .blocked) :
    (procs t).waiting = none := by
  by_contra hw
  exact hst ((h.blocked_iff t ht).2 hw)

theorem reaped_eq_false (h : Table run procs n) (ht : t < n)
    (hst : (procs t).state ≠ .terminated) : (procs t).reaped = false :=
  Bool.eq_false_iff.2 fun hr => hst (h.reaped t ht hr)

theorem state_running (h : Table (some t) procs n) : (procs t).state = .running :=
  (h.running_iff t (h.run_lt t rfl)).2 rfl

/-- The running process is preempted: it is ready. -/
theorem preempt (h : Table (some t) procs n) :
    Table none (Function.update procs t { procs t with state := .ready }) n := by
  have ht := h.run_lt t rfl
  have hst := h.state_running
  have hw := h.waiting_eq_none ht (by simp [hst])
  have hr := h.reaped_eq_false ht (by simp [hst])
  refine h.update ht rfl (fun i => ?_) ?_ ?_ ?_ ?_ ?_ ?_ ?_
  all_goals simp [hw, hr]
  exact fun hi hti => hi hti.symm

/-- A ready process is dispatched. -/
theorem dispatch (h : Table none procs n) (ht : t < n) (hst : (procs t).state = .ready) :
    Table (some t) (Function.update procs t { procs t with state := .running }) n := by
  have hw := h.waiting_eq_none ht (by simp [hst])
  have hr := h.reaped_eq_false ht (by simp [hst])
  refine h.update ht rfl (fun i => ?_) ?_ ?_ ?_ ?_ ?_ ?_ ?_
  all_goals simp [hw, hr]
  exact eq_comm

/-- The running process blocks, waiting for a live child, when it has reaped all
    terminated ones it asks for. -/
theorem block (h : Table (some t) procs n) {w : ℤ}
    (hlive : ∃ c < n, (procs c).ppid = t ∧ (w = -1 ∨ w = c) ∧ (procs c).state ≠ .terminated)
    (hdead : ∀ c < n, (procs c).ppid = t → (w = -1 ∨ w = c) → (procs c).state = .terminated →
      (procs c).reaped = true) :
    Table none (Function.update procs t { procs t with state := .blocked, waiting := some w }) n := by
  have ht := h.run_lt t rfl
  have hr := h.reaped_eq_false ht (by simp [h.state_running])
  refine h.update ht rfl (fun i => ?_) ?_ ?_ ?_ ?_ ?_ ?_ ?_
  all_goals simp [hr]
  · exact fun hi hti => hi hti.symm
  · exact hlive
  · exact hdead

/-- A blocked process is ready again. -/
theorem wake (h : Table run procs n) (ht : t < n) (hst : (procs t).state = .blocked) :
    Table run (Function.update procs t { procs t with state := .ready, waiting := none }) n := by
  have hr := h.reaped_eq_false ht (by simp [hst])
  have hrun : run ≠ some t := fun he => by
    rw [(h.running_iff t ht).2 he] at hst
    cases hst
  refine h.update ht rfl (fun i => ?_) ?_ ?_ ?_ ?_ ?_ ?_ ?_
  all_goals simp [hr]
  rintro rfl
  exact fun he => hrun (congrArg some he)

/-- The running process terminates, when nobody waits for it (any more). -/
theorem terminate (h : Table (some t) procs n) (h0 : t ≠ 0) (hno : ∀ i < n, ¬WaitsFor procs i t)
    (r : Bool) :
    Table none (Function.update procs t { procs t with state := .terminated, reaped := r }) n := by
  have ht := h.run_lt t rfl
  have hst := h.state_running
  have hw := h.waiting_eq_none ht (by simp [hst])
  have hr := h.reaped_eq_false ht (by simp [hst])
  refine h.update ht rfl (fun i => ?_) ?_ ?_ ?_ ?_ ?_ ?_ ?_
  all_goals simp [hw, hr, h0]
  · exact fun hi hti => hi hti.symm
  · exact .inr hno

/-- A terminated process is reaped. -/
theorem reap (h : Table run procs n) (ht : t < n) (hst : (procs t).state = .terminated) :
    Table run (Function.update procs t { procs t with reaped := true }) n := by
  have hw := h.waiting_eq_none ht (by simp [hst])
  have hrun : run ≠ some t := fun he => by
    rw [(h.running_iff t ht).2 he] at hst
    cases hst
  refine h.update ht rfl (fun i => ?_) ?_ ?_ ?_ ?_ ?_ ?_ ?_
  all_goals simp [hw, hst]
  · rintro rfl
    exact fun he => hrun (congrArg some he)
  · rintro rfl
    exact h.init_alive.2 hst

/-- A process that is not blocked forks: its child is a new ready process. -/
theorem fork (h : Table run procs n) (ht : t < n) {u : Proc}
    (hu : u = { ppid := t, state := .ready, waiting := none, reaped := false }) :
    Table run (Function.update procs n u) (n + 1) := by
  have hself : Function.update procs n u n = u := Function.update_self _ _ _
  have hlt : ∀ i < n, Function.update procs n u i = procs i := fun i hi =>
    Function.update_of_ne (Nat.ne_of_lt hi) _ _
  -- The old processes wait for the same children as before.
  have hwf : ∀ i < n, ∀ c < n, WaitsFor (Function.update procs n u) i c ↔ WaitsFor procs i c :=
    fun i hi c hc => by rw [WaitsFor, WaitsFor, hlt i hi, hlt c hc]
  have hcases : ∀ i < n + 1, i < n ∨ i = n := fun i hi => by omega
  -- Each field for the old processes, and for the new one.
  refine ⟨fun i hi => ?_, fun i hi => ?_, fun i hi => ?_, fun i hi => ?_, fun i hi => ?_,
    fun i hi hb => ?_, fun i hi c hc hw hd => ?_, fun i hi hr => ?_, ?_⟩
  · rcases hcases i hi with hi | rfl
    · rw [hlt i hi]
      exact h.ppid_ge i hi
    · rw [hself, hu]
      dsimp only
      omega
  · rcases hcases i hi with hi | rfl
    · rw [hlt i hi]
      exact h.ppid_lt i hi
    · rw [hself, hu]
      exact Int.ofNat_lt.2 ht
  · exact Nat.lt_succ_of_lt (h.run_lt i hi)
  · rcases hcases i hi with hi | rfl
    · rw [hlt i hi, h.running_iff i hi]
    · rw [hself, hu]
      refine ⟨fun he => by simp at he, fun he => absurd (h.run_lt _ he) (Nat.lt_irrefl _)⟩
  · rcases hcases i hi with hi | rfl
    · rw [hlt i hi, h.blocked_iff i hi]
    · rw [hself, hu]
      simp
  · rcases hcases i hi with hi | rfl
    · rw [hlt i hi] at hb
      obtain ⟨c, hc, hw, hl⟩ := h.waits i hi hb
      exact ⟨c, Nat.lt_succ_of_lt hc, (hwf i hi c hc).2 hw, by rwa [hlt c hc]⟩
    · rw [hself, hu] at hb
      cases hb
  · rcases hcases c hc with hc | rfl
    · rcases hcases i hi with hi | rfl
      · rw [hlt c hc] at hd ⊢
        exact h.waits_reaped i hi c hc ((hwf i hi c hc).1 hw) hd
      · have := hw.2
        rw [hself, hu] at this
        simp at this
    · rw [hself, hu] at hd
      cases hd
  · rcases hcases i hi with hi | rfl
    · rw [hlt i hi] at hr ⊢
      exact h.reaped i hi hr
    · rw [hself, hu] at hr
      cases hr
  · rw [hlt 0 h.init_alive.1]
    exact ⟨Nat.succ_pos n, h.init_alive.2⟩

end Table

end GtuOs
