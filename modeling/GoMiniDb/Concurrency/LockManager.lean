import GoMiniDb.GoMap
import GoMiniDb.Concurrency.RWMutex

/-! # The lock manager and the per-key locks it hands out

`LockManager` keeps a Go map from keys to `*RWMutex`; a pointer is an index into the heap
of mutexes that `GetLock` has allocated. Every method of the manager runs under `lm.mu`
and is one atomic step, and so is every critical section of a mutex under its own
`rw.mu`, as in the model of the lock itself. Client threads use the write side only: a
client gets the lock of a key, `Lock`s it and `Unlock`s it, so no thread waits on
`readCond` and `Broadcast` wakes no one. `CleanupUnusedLocks` and `RemoveLock` may run
between any two steps. Each mutex excludes its own writers, but the manager can hand out
two mutexes for one key: cleanup drops a lock that a client has fetched and not yet
locked, and the next `GetLock` of the key allocates another.
-/
namespace GoMiniDb.Concurrency
open Finset

/-- The Go heap of `RWMutex` values: the pointers in use are the indices below `next`. -/
structure Heap where
  cells : Nat → RWMutex
  next : Nat

namespace Heap

def alloc (h : Heap) (rw : RWMutex) : Nat × Heap :=
  (h.next, ⟨Function.update h.cells h.next rw, h.next + 1⟩)

def set (h : Heap) (p : Nat) (rw : RWMutex) : Heap := { h with cells := Function.update h.cells p rw }

@[simp] theorem set_next (h : Heap) (p : Nat) (rw : RWMutex) : (h.set p rw).next = h.next := rfl

end Heap

/-- `LockManager`: the map from keys to locks. -/
structure LockManager where
  locks : GoMap String Nat

def newLockManager : LockManager := ⟨[]⟩

/-- The test `CleanupUnusedLocks` makes on `lock.GetState()`: no holder and no waiter. -/
def RWMutex.unused (rw : RWMutex) : Bool :=
  rw.readers = 0 && rw.writers = 0 && rw.readWaiters = 0 && rw.writeWaiters = 0

theorem RWMutex.lockLoop_writers (rw : RWMutex) :
    rw.lockLoop.2.writers = (if rw.lockLoop.1 then rw.writers + 1 else rw.writers) ∧
      (rw.lockLoop.1 = true → rw.writers ≤ 0) := by
  unfold RWMutex.lockLoop
  by_cases h : rw.readers > 0 ∨ rw.writers > 0
  · simp [h]
  · simp only [h, ↓reduceIte, true_implies, true_and]
    omega

namespace LockManager

/-- `GetLock`: the lock stored under `key`, or a new one stored there. -/
def getLock (lm : LockManager) (h : Heap) (key : String) : Nat × LockManager × Heap :=
  match lm.locks.get? key with
  | some p => (p, lm, h)
  | none =>
    let (p, h') := h.alloc newRWMutex
    (p, ⟨lm.locks.set key p⟩, h')

def removeLock (lm : LockManager) (key : String) : LockManager := ⟨lm.locks.erase key⟩

/-- `CleanupUnusedLocks`: every lock with no holder and no waiter is deleted from the map,
whoever has fetched it. The `maxAge` argument is never read. -/
def cleanupUnusedLocks (lm : LockManager) (h : Heap) : LockManager :=
  ⟨lm.locks.filter fun e => !(h.cells e.2).unused⟩

end LockManager

namespace Clients

/-- Where a client is: free, holding the pointer `GetLock` returned, blocked in `Lock` on
`writeCond`, signalled, or between `Lock` and `Unlock`. -/
inductive Phase
  | idle
  | fetched
  | waiting
  | woken
  | holding
deriving DecidableEq, Repr

/-- A client thread, with the key it asked for and the lock it got. -/
structure Client where
  phase : Phase
  key : String
  ptr : Nat
deriving DecidableEq, Repr

/-- The manager, the heap of mutexes and `n` clients. -/
structure Sys (n : Nat) where
  lm : LockManager
  heap : Heap
  clients : Fin n → Client

/-- A new manager, an empty heap and idle clients. -/
def Sys.init (n : Nat) : Sys n :=
  ⟨newLockManager, ⟨fun _ => newRWMutex, 0⟩, fun _ => ⟨.idle, "", 0⟩⟩

variable {n : Nat}

def Sys.getLock (s : Sys n) (t : Fin n) (key : String) : Sys n :=
  let (p, lm, h) := s.lm.getLock s.heap key
  ⟨lm, h, Function.update s.clients t ⟨.fetched, key, p⟩⟩

/-- Client `t` runs a pass of `Lock`'s guard loop on its mutex, with result `r`. -/
def Sys.lockPass (s : Sys n) (t : Fin n) (r : Bool × RWMutex) : Sys n :=
  ⟨s.lm, s.heap.set (s.clients t).ptr r.2,
    Function.update s.clients t { s.clients t with phase := if r.1 then .holding else .waiting }⟩

/-- `writeCond.Signal()` on mutex `p` wakes one client blocked in that mutex's `Lock`, if
there is one. -/
inductive SignalOn (p : Nat) : (Fin n → Client) → (Fin n → Client) → Prop
  | wake {cs : Fin n → Client} (w : Fin n) : (cs w).phase = .waiting → (cs w).ptr = p →
      SignalOn p cs (Function.update cs w { cs w with phase := .woken })
  | none {cs : Fin n → Client} : (∀ w, (cs w).phase = .waiting → (cs w).ptr ≠ p) →
      SignalOn p cs cs

/-- The clients after `Unlock` of mutex `p` wakes what `w` names; no client waits to read. -/
def WakesOn (p : Nat) (w : RWMutex.Wake) (cs cs' : Fin n → Client) : Prop :=
  if w = .signalWrite then SignalOn p cs cs' else cs' = cs

/-- One atomic step: a client's call of the manager or critical section of its mutex, or
another thread's `RemoveLock` or `CleanupUnusedLocks`. -/
inductive Step : Sys n → Sys n → Prop
  | getLock {s : Sys n} (t : Fin n) (key : String) : (s.clients t).phase = .idle →
      Step s (s.getLock t key)
  | lock {s : Sys n} (t : Fin n) : (s.clients t).phase = .fetched →
      Step s (s.lockPass t (s.heap.cells (s.clients t).ptr).lockLoop)
  | lockWake {s : Sys n} (t : Fin n) : (s.clients t).phase = .woken →
      Step s (s.lockPass t (s.heap.cells (s.clients t).ptr).lockWake)
  | unlock {s : Sys n} (t : Fin n) {cs : Fin n → Client} : (s.clients t).phase = .holding →
      WakesOn (s.clients t).ptr (s.heap.cells (s.clients t).ptr).unlock.2
        (Function.update s.clients t { s.clients t with phase := .idle }) cs →
      Step s ⟨s.lm, s.heap.set (s.clients t).ptr (s.heap.cells (s.clients t).ptr).unlock.1, cs⟩
  | removeLock {s : Sys n} (key : String) : Step s { s with lm := s.lm.removeLock key }
  | cleanup {s : Sys n} : Step s { s with lm := s.lm.cleanupUnusedLocks s.heap }

/-- Every state some interleaving reaches from a new manager. -/
inductive Reachable : Sys n → Prop
  | init : Reachable (Sys.init n)
  | step {s s' : Sys n} : Reachable s → Step s s' → Reachable s'

/-- The write locks of mutex `p` that client `c` holds. -/
def Client.holding (c : Client) (p : Nat) : Nat := if c.phase = .holding ∧ c.ptr = p then 1 else 0

theorem Client.holding_le (c : Client) (p : Nat) : c.holding p ≤ 1 := by
  unfold Client.holding; split <;> omega

/-- Pointers in the map and in clients' hands are allocated, and each mutex counts the
clients that hold it, at most one. -/
structure Inv (s : Sys n) : Prop where
  mapped : ∀ e ∈ s.lm.locks, e.2 < s.heap.next
  fetched : ∀ t, (s.clients t).phase ≠ .idle → (s.clients t).ptr < s.heap.next
  writers : ∀ p, (s.heap.cells p).writers = ((∑ t, (s.clients t).holding p : Nat) : Int)
  writers_le : ∀ p, (s.heap.cells p).writers ≤ 1

theorem inv_init : Inv (Sys.init n) :=
  ⟨by simp [Sys.init, newLockManager], fun _ h => absurd rfl h,
    fun _ => by simp [Sys.init, Client.holding, newRWMutex], fun _ => by simp [Sys.init, newRWMutex]⟩

theorem Inv.holding_next {s : Sys n} (h : Inv s) (t : Fin n) :
    (s.clients t).holding s.heap.next = 0 := by
  unfold Client.holding
  split
  · rename_i hc
    exact absurd hc.2 (h.fetched t (by rw [hc.1]; decide)).ne
  · rfl

theorem Inv.update {s : Sys n} (h : Inv s) (t : Fin n) (lm : LockManager) (hp : Heap)
    (c : Client) (hmapped : ∀ e ∈ lm.locks, e.2 < hp.next) (hnext : s.heap.next ≤ hp.next)
    (hc : c.phase ≠ .idle → c.ptr < hp.next)
    (hw : ∀ p, (hp.cells p).writers + (s.clients t).holding p = (s.heap.cells p).writers + c.holding p)
    (hle : ∀ p, (hp.cells p).writers ≤ 1) :
    Inv ⟨lm, hp, Function.update s.clients t c⟩ := by
  refine ⟨hmapped, fun u hu => ?_, fun p => ?_, hle⟩
  · by_cases hut : u = t
    · subst hut
      simp only [Function.update_same] at hu ⊢
      exact hc hu
    · simp only [Function.update_noteq hut] at hu ⊢
      exact lt_of_lt_of_le (h.fetched u hu) hnext
  · have h1 := sum_update_add s.clients t c (Client.holding · p)
    have h2 := h.writers p
    have h3 := hw p
    simp only at h1 ⊢
    omega

theorem SignalOn.holding {p : Nat} {cs cs' : Fin n → Client} (h : SignalOn p cs cs') (t : Fin n) :
    (cs' t).holding = (cs t).holding ∧ (cs' t).ptr = (cs t).ptr ∧
      ((cs' t).phase = .idle ↔ (cs t).phase = .idle) := by
  cases h with
  | none => exact ⟨rfl, rfl, Iff.rfl⟩
  | wake w hw _ =>
    by_cases htw : t = w
    · subst htw
      refine ⟨funext fun q => ?_, by simp, by simp [hw]⟩
      simp [Client.holding, hw]
    · simp [Function.update_noteq htw]

theorem Inv.of_wakes {lm : LockManager} {hp : Heap} {p : Nat} {w : RWMutex.Wake}
    {cs cs' : Fin n → Client} (h : Inv ⟨lm, hp, cs⟩) (hw : WakesOn p w cs cs') :
    Inv ⟨lm, hp, cs'⟩ := by
  unfold WakesOn at hw
  split at hw
  · have hs := hw.holding
    refine ⟨h.mapped, fun t ht => ?_, fun q => ?_, h.writers_le⟩
    · rw [(hs t).2.1]
      exact h.fetched t (mt (hs t).2.2.2 ht)
    · have hq : ∀ t, (cs' t).holding q = (cs t).holding q := fun t => congrFun (hs t).1 q
      simpa only [hq] using h.writers q
  · exact hw ▸ h

theorem Inv.lockPass {s : Sys n} (h : Inv s) (t : Fin n) (r : Bool × RWMutex)
    (hph : (s.clients t).phase ≠ .idle) (hhold : (s.clients t).phase ≠ .holding)
    (hr : r.2.writers = if r.1 then (s.heap.cells (s.clients t).ptr).writers + 1
      else (s.heap.cells (s.clients t).ptr).writers)
    (hfree : r.1 = true → (s.heap.cells (s.clients t).ptr).writers ≤ 0) :
    Inv (s.lockPass t r) := by
  have hpos := h.writers (s.clients t).ptr
  refine h.update t _ _ _ h.mapped le_rfl (fun _ => h.fetched t hph) (fun p => ?_) (fun p => ?_)
  all_goals
    by_cases hp : p = (s.clients t).ptr
    · subst hp
      have := h.writers_le (s.clients t).ptr
      cases hb : r.1 <;>
        simp_all [Heap.set, Client.holding]
    · simp [Heap.set, Function.update_noteq hp, Client.holding, hhold, Ne.symm hp, h.writers_le p]

theorem step_inv {s s' : Sys n} (h : Inv s) (hs : Step s s') : Inv s' := by
  cases hs with
  | getLock t key hidle =>
    rcases hget : s.lm.locks.get? key with _ | p
    · simp only [Sys.getLock, LockManager.getLock, hget, Heap.alloc]
      refine h.update t _ _ _ (fun e he => ?_) (Nat.le_succ _) (fun _ => Nat.lt_succ_self _)
        (fun q => ?_) (fun q => ?_)
      · rcases GoMap.mem_set he with he | rfl
        · exact Nat.lt_succ_of_lt (h.mapped e he)
        · exact Nat.lt_succ_self _
      · by_cases hq : q = s.heap.next
        · subst hq
          have h0 := h.writers s.heap.next
          simp only [h.holding_next, sum_const_zero, Nat.cast_zero] at h0
          simp [hidle, Client.holding, h0, newRWMutex]
        · simp [Function.update_noteq hq, hidle, Client.holding, Ne.symm hq]
      · by_cases hq : q = s.heap.next
        · subst hq; simp [newRWMutex]
        · simp [Function.update_noteq hq, h.writers_le q]
    · simp only [Sys.getLock, LockManager.getLock, hget]
      refine h.update t _ _ _ h.mapped le_rfl (fun _ => h.mapped _ (GoMap.mem_of_get? hget))
        (fun q => ?_) h.writers_le
      simp [hidle, Client.holding]
  | lock t hph =>
    obtain ⟨hr, hfree⟩ := RWMutex.lockLoop_writers (s.heap.cells (s.clients t).ptr)
    exact h.lockPass t _ (by rw [hph]; decide) (by rw [hph]; decide) hr hfree
  | lockWake t hph =>
    obtain ⟨hr, hfree⟩ := RWMutex.lockLoop_writers
      { s.heap.cells (s.clients t).ptr with writeWaiters := (s.heap.cells (s.clients t).ptr).writeWaiters - 1 }
    exact h.lockPass t _ (by rw [hph]; decide) (by rw [hph]; decide) hr hfree
  | unlock t hph hw =>
    refine Inv.of_wakes (h.update t _ _ { s.clients t with phase := .idle } h.mapped le_rfl (fun _ => h.fetched t (by rw [hph]; decide))
      (fun p => ?_) (fun p => ?_)) hw
    all_goals
      by_cases hp : p = (s.clients t).ptr
      · subst hp
        have := h.writers_le (s.clients t).ptr
        simp [Heap.set, RWMutex.unlock, Client.holding, hph]
        try omega
      · simp [Heap.set, Function.update_noteq hp, Client.holding, Ne.symm hp, h.writers_le p]
  | removeLock key =>
    exact ⟨fun e he => h.mapped e (List.mem_of_mem_filter he), h.fetched, h.writers, h.writers_le⟩
  | cleanup =>
    exact ⟨fun e he => h.mapped e (List.mem_of_mem_filter he), h.fetched, h.writers, h.writers_le⟩

theorem Reachable.inv {s : Sys n} (h : Reachable s) : Inv s := by
  induction h with
  | init => exact inv_init
  | step _ hs ih => exact step_inv ih hs

/-- Each mutex the manager hands out excludes its writers: two clients between `Lock` and
`Unlock` of one mutex are the same client. -/
theorem Reachable.mutex_exclusive {s : Sys n} (h : Reachable s) {t u : Fin n}
    (ht : (s.clients t).phase = .holding) (hu : (s.clients u).phase = .holding)
    (hp : (s.clients t).ptr = (s.clients u).ptr) : t = u := by
  by_contra htu
  have hi := h.inv
  have h2 : (s.clients t).holding (s.clients t).ptr + (s.clients u).holding (s.clients t).ptr ≤
      ∑ v, (s.clients v).holding (s.clients t).ptr := by
    rw [← sum_pair (f := fun v => (s.clients v).holding (s.clients t).ptr) htu]
    exact sum_le_sum_of_subset (subset_univ _)
  have ht1 : (s.clients t).holding (s.clients t).ptr = 1 := by simp [Client.holding, ht]
  have hu1 : (s.clients u).holding (s.clients t).ptr = 1 := by simp [Client.holding, hu, hp]
  have h3 := hi.writers (s.clients t).ptr
  have h4 := hi.writers_le (s.clients t).ptr
  omega

theorem holder_waiter_mutex_exclusive :
    ∃ s : Sys 2, Reachable s ∧ (s.clients 0).phase = .holding ∧ (s.clients 1).phase = .waiting ∧
      (s.clients 1).ptr = (s.clients 0).ptr ∧
      ∀ u, (s.clients u).phase = .holding → (s.clients u).ptr = (s.clients 0).ptr → u = 0 := by
  have h := (((Reachable.init (n := 2)).step (.getLock 0 "k" rfl)).step (.getLock 1 "k" rfl)
    |>.step (.lock 0 rfl)).step (.lock 1 rfl)
  exact ⟨_, h, rfl, rfl, rfl, fun u hu hp => h.mutex_exclusive hu rfl hp⟩

/-- Client 0 fetches the lock of "k"; cleanup deletes it, unused; client 1's `GetLock`
allocates a second mutex for "k"; both clients lock, and both hold "the" lock of "k". -/
theorem getLock_cleanup_two_writers :
    ¬ ∀ (n : Nat) (s : Sys n), Reachable s → ∀ t u, t ≠ u →
      (s.clients t).phase = .holding → (s.clients u).phase = .holding →
        (s.clients t).key ≠ (s.clients u).key := by
  intro h
  have h1 : Reachable (n := 2) _ := .step .init (.getLock 0 "k" rfl)
  have h2 := h1.step .cleanup
  have h3 := h2.step (.getLock 1 "k" rfl)
  have h4 := h3.step (.lock 0 rfl)
  have h5 := h4.step (.lock 1 rfl)
  exact h 2 _ h5 0 1 (by decide) (by decide) (by decide) rfl

end Clients

end GoMiniDb.Concurrency
