import Mathlib.Algebra.BigOperators.Fin
import Mathlib.Algebra.Order.BigOperators.Group.Finset

/-! # The counting reader-writer lock of the concurrency package

`RWMutex` keeps four counters under its own mutex `rw.mu`. Each critical section under
`rw.mu` is one atomic step here, and `cond.Wait` splits `RLock` and `Lock` in two: the
thread registers as a waiter and blocks, and once signalled it takes `rw.mu` again and
re-enters the guard loop. The statistics block is bookkeeping no guard reads, so it is
left out.
-/
namespace GoMiniDb.Concurrency
open Finset

/-- The counters of `RWMutex` (Go `int`s, unbounded here). -/
structure RWMutex where
  readers : Int
  writers : Int
  readWaiters : Int
  writeWaiters : Int
deriving DecidableEq, Repr

def newRWMutex : RWMutex := ⟨0, 0, 0, 0⟩

namespace RWMutex

/-- One pass of `RLock`'s guard loop under `rw.mu`: the read lock is taken (`true`), or the
thread counts itself as a read waiter and blocks on `readCond` (`false`). -/
def rLockLoop (rw : RWMutex) : Bool × RWMutex :=
  if rw.writers > 0 ∨ rw.writeWaiters > 0 then (false, { rw with readWaiters := rw.readWaiters + 1 })
  else (true, { rw with readers := rw.readers + 1 })

def lockLoop (rw : RWMutex) : Bool × RWMutex :=
  if rw.readers > 0 ∨ rw.writers > 0 then (false, { rw with writeWaiters := rw.writeWaiters + 1 })
  else (true, { rw with writers := rw.writers + 1 })

/-- What `RLock` does after `readCond.Wait` returns: `readWaiters--`, then the loop again. -/
def rLockWake (rw : RWMutex) : Bool × RWMutex :=
  rLockLoop { rw with readWaiters := rw.readWaiters - 1 }

def lockWake (rw : RWMutex) : Bool × RWMutex :=
  lockLoop { rw with writeWaiters := rw.writeWaiters - 1 }

/-- Which condition variable a release wakes. -/
inductive Wake
  | nothing
  | signalWrite
  | broadcastRead
deriving DecidableEq, Repr

/-- `RUnlock`: the new counters, and whether it calls `writeCond.Signal()`. -/
def rUnlock (rw : RWMutex) : RWMutex × Wake :=
  let rw' := { rw with readers := rw.readers - 1 }
  (rw', if rw'.readers = 0 ∧ rw'.writeWaiters > 0 then .signalWrite else .nothing)

/-- `Unlock`: writers wake first, readers only when no writer waits. -/
def unlock (rw : RWMutex) : RWMutex × Wake :=
  let rw' := { rw with writers := rw.writers - 1 }
  (rw', if rw'.writeWaiters > 0 then .signalWrite
    else if rw'.readWaiters > 0 then .broadcastRead else .nothing)

def tryRLock (rw : RWMutex) : Bool × RWMutex :=
  if rw.writers > 0 ∨ rw.writeWaiters > 0 then (false, rw)
  else (true, { rw with readers := rw.readers + 1 })

def tryLock (rw : RWMutex) : Bool × RWMutex :=
  if rw.readers > 0 ∨ rw.writers > 0 then (false, rw)
  else (true, { rw with writers := rw.writers + 1 })

end RWMutex

/-- Where a thread is: outside any blocking wait, blocked on a condition variable, or
signalled and about to take `rw.mu` again. -/
inductive Pc
  | running
  | waitRead
  | wokenRead
  | waitWrite
  | wokenWrite
deriving DecidableEq, Repr

/-- A thread, with the read and write locks it holds. Nothing stops a thread from taking a
second read lock, so holds are counts. -/
structure Thread where
  pc : Pc
  reads : Nat
  writes : Nat
deriving DecidableEq, Repr

/-- The lock and `n` threads. -/
structure Sys (n : Nat) where
  lock : RWMutex
  threads : Fin n → Thread

/-- A fresh lock; every thread runs and holds nothing. -/
def Sys.init (n : Nat) : Sys n := ⟨newRWMutex, fun _ => ⟨.running, 0, 0⟩⟩

variable {n : Nat}

/-- The thread after a pass of a guard loop: it holds one more lock, or blocks on `wait`. -/
def Thread.afterLoop (th : Thread) (taken : Bool) (wait : Pc) (write : Bool) : Thread :=
  if taken then
    if write then { th with pc := .running, writes := th.writes + 1 }
    else { th with pc := .running, reads := th.reads + 1 }
  else { th with pc := wait }

/-- `writeCond.Signal()` wakes one blocked writer if there is one, any of them. -/
inductive SignalWrite : (Fin n → Thread) → (Fin n → Thread) → Prop
  | wake {ts : Fin n → Thread} (w : Fin n) : (ts w).pc = .waitWrite →
      SignalWrite ts (Function.update ts w { ts w with pc := .wokenWrite })
  | none {ts : Fin n → Thread} : (∀ t, (ts t).pc ≠ .waitWrite) → SignalWrite ts ts

def broadcastRead (ts : Fin n → Thread) : Fin n → Thread := fun t =>
  if (ts t).pc = .waitRead then { ts t with pc := .wokenRead } else ts t

/-- The threads after a release wakes what `w` names. -/
inductive Wakes : RWMutex.Wake → (Fin n → Thread) → (Fin n → Thread) → Prop
  | nothing {ts : Fin n → Thread} : Wakes .nothing ts ts
  | signal {ts ts' : Fin n → Thread} : SignalWrite ts ts' → Wakes .signalWrite ts ts'
  | broadcast {ts : Fin n → Thread} : Wakes .broadcastRead ts (broadcastRead ts)

/-- One atomic step of one thread `t`. A thread releases only a mode it holds. -/
inductive Step : Sys n → Sys n → Prop
  | rLock {s : Sys n} (t : Fin n) : (s.threads t).pc = .running →
      Step s ⟨s.lock.rLockLoop.2,
        Function.update s.threads t ((s.threads t).afterLoop s.lock.rLockLoop.1 .waitRead false)⟩
  | rLockWake {s : Sys n} (t : Fin n) : (s.threads t).pc = .wokenRead →
      Step s ⟨s.lock.rLockWake.2,
        Function.update s.threads t ((s.threads t).afterLoop s.lock.rLockWake.1 .waitRead false)⟩
  | lock {s : Sys n} (t : Fin n) : (s.threads t).pc = .running →
      Step s ⟨s.lock.lockLoop.2,
        Function.update s.threads t ((s.threads t).afterLoop s.lock.lockLoop.1 .waitWrite true)⟩
  | lockWake {s : Sys n} (t : Fin n) : (s.threads t).pc = .wokenWrite →
      Step s ⟨s.lock.lockWake.2,
        Function.update s.threads t ((s.threads t).afterLoop s.lock.lockWake.1 .waitWrite true)⟩
  | tryRLock {s : Sys n} (t : Fin n) : (s.threads t).pc = .running →
      Step s ⟨s.lock.tryRLock.2,
        Function.update s.threads t ((s.threads t).afterLoop s.lock.tryRLock.1 .running false)⟩
  | tryLock {s : Sys n} (t : Fin n) : (s.threads t).pc = .running →
      Step s ⟨s.lock.tryLock.2,
        Function.update s.threads t ((s.threads t).afterLoop s.lock.tryLock.1 .running true)⟩
  | rUnlock {s : Sys n} (t : Fin n) {ts' : Fin n → Thread} : (s.threads t).pc = .running →
      0 < (s.threads t).reads →
      Wakes s.lock.rUnlock.2
        (Function.update s.threads t { s.threads t with reads := (s.threads t).reads - 1 }) ts' →
      Step s ⟨s.lock.rUnlock.1, ts'⟩
  | unlock {s : Sys n} (t : Fin n) {ts' : Fin n → Thread} : (s.threads t).pc = .running →
      0 < (s.threads t).writes →
      Wakes s.lock.unlock.2
        (Function.update s.threads t { s.threads t with writes := (s.threads t).writes - 1 }) ts' →
      Step s ⟨s.lock.unlock.1, ts'⟩

/-- Every state some interleaving reaches from a fresh lock. -/
inductive Reachable : Sys n → Prop
  | init : Reachable (Sys.init n)
  | step {s s' : Sys n} : Reachable s → Step s s' → Reachable s'

theorem sum_update_add {α β : Type} [AddCommMonoid β] (ts : Fin n → α) (i : Fin n)
    (x : α) (f : α → β) :
    ∑ t, f (Function.update ts i x t) + f (ts i) = ∑ t, f (ts t) + f x := by
  rw [← add_sum_erase _ _ (mem_univ i), ← add_sum_erase _ (fun t => f (ts t)) (mem_univ i)]
  have : ∑ t ∈ univ.erase i, f (Function.update ts i x t) = ∑ t ∈ univ.erase i, f (ts t) :=
    sum_congr rfl fun t ht => by rw [Function.update_noteq (ne_of_mem_erase ht)]
  rw [this, Function.update_same]
  ac_rfl

/-- The lock's counters are the holds of the threads, and they exclude each other. -/
structure Inv (s : Sys n) : Prop where
  readers : s.lock.readers = ((∑ t, (s.threads t).reads : Nat) : Int)
  writers : s.lock.writers = ((∑ t, (s.threads t).writes : Nat) : Int)
  writers_le : s.lock.writers ≤ 1
  exclusive : s.lock.writers = 1 → s.lock.readers = 0

theorem inv_init : Inv (Sys.init n) := by
  refine ⟨?_, ?_, ?_, ?_⟩ <;> simp [Sys.init, newRWMutex]

theorem Wakes.holds {w : RWMutex.Wake} {ts ts' : Fin n → Thread} (h : Wakes w ts ts') (t : Fin n) :
    (ts' t).reads = (ts t).reads ∧ (ts' t).writes = (ts t).writes := by
  cases h with
  | nothing => exact ⟨rfl, rfl⟩
  | broadcast => unfold broadcastRead; split <;> exact ⟨rfl, rfl⟩
  | signal hs =>
    cases hs with
    | none => exact ⟨rfl, rfl⟩
    | wake w _ =>
      by_cases htw : t = w
      · subst htw; simp
      · simp [Function.update_noteq htw]

theorem Inv.of_wakes {rw : RWMutex} {w : RWMutex.Wake} {ts ts' : Fin n → Thread}
    (h : Inv ⟨rw, ts⟩) (hw : Wakes w ts ts') : Inv ⟨rw, ts'⟩ := by
  have hr : ∑ t, (ts' t).reads = ∑ t, (ts t).reads := sum_congr rfl fun t _ => (hw.holds t).1
  have hw : ∑ t, (ts' t).writes = ∑ t, (ts t).writes := sum_congr rfl fun t _ => (hw.holds t).2
  exact ⟨hr ▸ h.readers, hw ▸ h.writers, h.writers_le, h.exclusive⟩

theorem Inv.update {s : Sys n} (h : Inv s) (t : Fin n) (rw' : RWMutex) (th : Thread)
    (hr : rw'.readers + (s.threads t).reads = s.lock.readers + th.reads)
    (hw : rw'.writers + (s.threads t).writes = s.lock.writers + th.writes)
    (hle : rw'.writers ≤ 1) (hex : rw'.writers = 1 → rw'.readers = 0) :
    Inv ⟨rw', Function.update s.threads t th⟩ := by
  have h1 := sum_update_add s.threads t th Thread.reads
  have h2 := sum_update_add s.threads t th Thread.writes
  have := h.readers
  have := h.writers
  refine ⟨?_, ?_, hle, hex⟩ <;> dsimp only <;> omega

theorem step_inv {s s' : Sys n} (h : Inv s) (hs : Step s s') : Inv s' := by
  have hr := h.readers
  have hw := h.writers
  have hle := h.writers_le
  have hex := h.exclusive
  cases hs with
  | rLock t _ | rLockWake t _ | tryRLock t _ =>
    apply h.update <;>
      simp only [RWMutex.rLockLoop, RWMutex.rLockWake, RWMutex.tryRLock, Thread.afterLoop] <;>
      split <;> simp only [↓reduceIte, Bool.false_eq_true] <;> omega
  | lock t _ | lockWake t _ | tryLock t _ =>
    apply h.update <;>
      simp only [RWMutex.lockLoop, RWMutex.lockWake, RWMutex.tryLock, Thread.afterLoop] <;>
      split <;> simp only [↓reduceIte, Bool.false_eq_true] <;> omega
  | rUnlock t _ hpos hwk =>
    have ht : (s.threads t).reads ≤ ∑ t, (s.threads t).reads :=
      @single_le_sum _ _ _ (fun t => (s.threads t).reads) _ (fun _ _ => Nat.zero_le _) t (mem_univ t)
    refine Inv.of_wakes (h.update t _ _ ?_ ?_ ?_ ?_) hwk <;> simp [RWMutex.rUnlock] <;> omega
  | unlock t _ hpos hwk =>
    have ht : (s.threads t).writes ≤ ∑ t, (s.threads t).writes :=
      @single_le_sum _ _ _ (fun t => (s.threads t).writes) _ (fun _ _ => Nat.zero_le _) t (mem_univ t)
    refine Inv.of_wakes (h.update t _ _ ?_ ?_ ?_ ?_) hwk <;> simp [RWMutex.unlock] <;> omega

theorem Reachable.inv {s : Sys n} (h : Reachable s) : Inv s := by
  induction h with
  | init => exact inv_init
  | step _ hs ih => exact step_inv ih hs

theorem sum_reads_eq_card (ts : Fin n → Thread) (h : ∀ t, (ts t).reads ≤ 1) :
    ∑ t, (ts t).reads = (univ.filter fun t => 0 < (ts t).reads).card := by
  rw [card_filter]
  exact sum_congr rfl fun t _ => by have := h t; split <;> omega

/-- In every reachable state at most one writer holds the lock, never together with a
reader, and `readers` counts the read locks held; when no thread holds two, that is the
number of threads holding a read lock. -/
theorem Reachable.exclusive {s : Sys n} (h : Reachable s) :
    s.lock.writers ≤ 1 ∧ (s.lock.writers = 1 → s.lock.readers = 0) ∧
      s.lock.readers = ((∑ t, (s.threads t).reads : Nat) : Int) ∧
      ((∀ t, (s.threads t).reads ≤ 1) →
        s.lock.readers = ((univ.filter fun t => 0 < (s.threads t).reads).card : Int)) := by
  have hi := h.inv
  exact ⟨hi.writers_le, hi.exclusive, hi.readers, fun h1 => by rw [hi.readers, sum_reads_eq_card _ h1]⟩

/-- Two threads that have each taken one read lock. -/
def twoReaders : Sys 2 := ⟨⟨2, 0, 0, 0⟩, fun _ => ⟨.running, 1, 0⟩⟩

theorem twoReaders_reachable : Reachable twoReaders := by
  have h : Reachable (n := 2) _ := .step (.step .init (.rLock 0 rfl)) (.rLock 1 rfl)
  convert h using 1
  simp only [twoReaders, Sys.mk.injEq]
  refine ⟨rfl, funext fun t => ?_⟩
  match t with
  | 0 => rfl
  | 1 => rfl

theorem two_readers_exclusive :
    Reachable twoReaders ∧ (∀ t, (twoReaders.threads t).reads ≤ 1) ∧
      twoReaders.lock.readers = ((univ.filter fun t => 0 < (twoReaders.threads t).reads).card : Int) :=
  ⟨twoReaders_reachable, fun _ => le_refl 1,
    (Reachable.exclusive twoReaders_reachable).2.2.2 fun _ => le_refl 1⟩

theorem readers_ne_holding_threads :
    ¬ ∀ (n : Nat) (s : Sys n), Reachable s →
      s.lock.writers ≤ 1 ∧ (s.lock.writers = 1 → s.lock.readers = 0) ∧
        s.lock.readers = ((univ.filter fun t => 0 < (s.threads t).reads).card : Int) := by
  intro h
  have h1 : Reachable (n := 1) _ := .step .init (.rLock 0 rfl)
  have h2 : Reachable (n := 1) _ := .step h1 (.rLock 0 rfl)
  exact absurd (h 1 _ h2).2.2 (by decide)

end GoMiniDb.Concurrency
