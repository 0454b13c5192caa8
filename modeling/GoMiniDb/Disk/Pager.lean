import GoMiniDb.GoMap

/-! # Page allocation of the refactored disk KV

`pageNew` and `pageDel` are the B-tree's callbacks; `flushPages` is `writePages` then
`syncPages`. The I/O calls (`extendFile`, `extendMmap`, `fp.Sync`, `masterStore`) are taken
to succeed, and the copy of page data into the mmap is left out: no allocation decision
reads it.
-/
namespace GoMiniDb.Disk

def u64 (x : Int) : UInt64 := UInt64.ofNat (x % 18446744073709551616).toNat

/-- The in-memory `FreeList` of the refactored pager. -/
structure FreeList where
  head : UInt64
  total : Int
  freePages : List UInt64
deriving DecidableEq, Repr

namespace FreeList

def Total (fl : FreeList) : Int := fl.total

/-- `FreeList.Get`: page 0 when the index is out of range. -/
def Get (fl : FreeList) (index : Int) : UInt64 :=
  if index ≥ fl.freePages.length ∨ index < 0 then 0 else fl.freePages.getD index.toNat 0

/-- `FreeList.Update`: append the freed pages (skipping 0), then drop the first `nfree`. -/
def Update (fl : FreeList) (nfree : Int) (freed : List UInt64) : FreeList :=
  let fl1 := freed.foldl (fun fl ptr => if ptr = 0 then fl
    else { fl with freePages := fl.freePages ++ [ptr], total := fl.total + 1 }) fl
  if nfree > 0 ∧ nfree ≤ fl1.freePages.length then
    { fl1 with freePages := fl1.freePages.drop nfree.toNat, total := fl1.total - nfree }
  else fl1

end FreeList

/-- A page's bytes; `none` is the `nil` that marks a deallocated page. -/
abbrev Bytes := List UInt8

/-- The `page` block of `KV`. -/
structure Page where
  flushed : UInt64
  nfree : Int
  nappend : Int
  updates : GoMap UInt64 (Option Bytes)
deriving DecidableEq, Repr

/-- The allocation state of `KV`. -/
structure KV where
  page : Page
  free : FreeList
deriving DecidableEq, Repr

namespace KV

/-- `KV.pageNew`: reuse the next free-list page, or append at `flushed + nappend`. -/
def pageNew (db : KV) (data : Bytes) : Except String (UInt64 × KV) :=
  if data.length ≤ 4096 then
    let (ptr, page) :=
      if db.page.nfree < db.free.Total then
        (db.free.Get db.page.nfree, { db.page with nfree := db.page.nfree + 1 })
      else
        (db.page.flushed + u64 db.page.nappend, { db.page with nappend := db.page.nappend + 1 })
    .ok (ptr, { db with page := { page with updates := page.updates.set ptr (some data) } })
  else .error "len(node.data) <= BTREE_PAGE_SIZE"

def pageDel (db : KV) (ptr : UInt64) : KV :=
  { db with page := { db.page with updates := db.page.updates.set ptr none } }

/-- `writePages`: push every page the updates map as deallocated onto the free list. -/
def writePages (db : KV) : KV :=
  let freed := (db.page.updates.filter fun e => e.2 = none).map Prod.fst
  { db with free := db.free.Update db.page.nfree freed }

def syncPages (db : KV) : KV :=
  { db with
    page := { db.page with
      flushed := db.page.flushed + u64 db.free.Total
      nfree := 0
      nappend := 0 } }

def flushPages (db : KV) : KV := db.writePages.syncPages

/-- The pager a fresh file starts with: page 0 is the master page. -/
def init : KV := ⟨⟨1, 0, 0, []⟩, ⟨0, 0, []⟩⟩

/-- A step of the pager as a state machine. -/
inductive Op
  | new (data : Bytes)
  | del (ptr : UInt64)
  | flush
deriving DecidableEq, Repr

/-- One step; `pageNew` also answers the page it returned. -/
def step (db : KV) : Op → Except String (List UInt64 × KV)
  | .new data => (db.pageNew data).map fun r => ([r.1], r.2)
  | .del ptr => .ok ([], db.pageDel ptr)
  | .flush => .ok ([], db.flushPages)

/-- A run, with the pages `pageNew` returned, in order. -/
def run (db : KV) : List Op → Except String (List UInt64 × KV)
  | [] => .ok ([], db)
  | op :: ops => do
    let (r1, db1) ← db.step op
    let (r2, db2) ← db1.run ops
    return (r1 ++ r2, db2)

theorem add_u64_zero (x : UInt64) : x + u64 0 = x := UInt64.eq_of_val_eq (by simp [UInt64.add_def, u64])

theorem flushPages_keeps_flushed (db : KV) (hfree : db.free.Total = 0) (hnfree : db.page.nfree = 0)
    (hlive : ∀ e ∈ db.page.updates, e.2 ≠ none) :
    db.flushPages.page.flushed = db.page.flushed ∧ db.flushPages.free.Total = 0 ∧
      db.flushPages.page.nfree = 0 ∧ db.flushPages.page.nappend = 0 := by
  have hf : db.page.updates.filter (fun e => e.2 = none) = [] := List.filter_eq_nil_iff.2 (by simpa using hlive)
  simp only [flushPages, syncPages, writePages, hf, List.map_nil, FreeList.Update, List.foldl_nil, hnfree]
  simp only [FreeList.Total] at hfree ⊢
  simp [hfree, add_u64_zero]

theorem pageNew_repeats_after_flush (db : KV) (data data' : Bytes) (hfree : db.free.Total = 0)
    (hnfree : db.page.nfree = 0) (hnapp : db.page.nappend = 0) (hlive : ∀ e ∈ db.page.updates, e.2 ≠ none)
    (hd : data.length ≤ 4096) (hd' : data'.length ≤ 4096) :
    ∃ p db1 db2, db.pageNew data = .ok (p, db1) ∧ db1.flushPages.pageNew data' = .ok (p, db2) := by
  have hlt : ¬ db.page.nfree < db.free.Total := by omega
  let db1 : KV := ⟨{ db.page with nappend := 1, updates := db.page.updates.set db.page.flushed (some data) }, db.free⟩
  have hnew : db.pageNew data = .ok (db.page.flushed, db1) := by
    rw [pageNew, if_pos hd, if_neg hlt, hnapp, add_u64_zero]
    rfl
  obtain ⟨hflushed, htotal, _, hnapp'⟩ := flushPages_keeps_flushed db1 hfree hnfree
    (fun e he => (GoMap.mem_set he).elim (hlive e) (fun h => h ▸ Option.some_ne_none data))
  exact ⟨_, db1, _, hnew, by rw [pageNew, if_pos hd', if_neg (by omega), hnapp', hflushed, add_u64_zero]⟩

end KV

/-- The first transaction appends page 1 and is flushed, yet `syncPages` leaves
`page.flushed` at 1 (it adds `free.Total()`, here 0), so the second transaction's `pageNew`
returns the live page 1 again. And `page.updates` is never cleared: a page deleted once
is pushed onto the free list by every later flush. -/
theorem pageNew_returns_live_page :
    (KV.init.run [.new [], .flush, .new []]).map Prod.fst = .ok [1, 1] ∧
      (KV.init.run [.new [], .flush, .new [], .del 1, .flush, .flush]).map
        (·.2.free.freePages) = .ok [1, 1] :=
  ⟨rfl, rfl⟩

end GoMiniDb.Disk
