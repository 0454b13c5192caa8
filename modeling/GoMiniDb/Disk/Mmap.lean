import GoMiniDb.Disk.Pager

/-! # The memory-mapped pager of the chapter-6 KV

`mmapInit`, `Open`, `extendFile`, `extendMmap`, `pageRead`, `pageNew` and `writePages` of
the KV in `part_001`. The mapping is kept as the length of each chunk: chunk `k` maps the
file from the sum of the lengths before it, so `pageRead` finds page `ptr` in the first
chunk whose pages reach past it, and panics with `bad ptr` past the last. The system calls
(`Stat`, `Mmap`, `Fallocate`) are taken to succeed and the bytes of the pages are left out:
a call here fails only by panicking, with the panic's message. `masterLoad` is not in
`part_001`, so `Open` takes the page count it leaves in `page.flushed`.

`writePages` passes `npages`, a number of pages, to `extendMmap`, which compares it with
`mmap.total`, a number of bytes. A file mapped with 64 MiB (16384 pages) is never mapped
further while fewer than 2^26 pages are in use, and the copy loop panics as soon as the
pages to write pass the first chunk.
-/
namespace GoMiniDb.Disk.Mmap

def BTREE_PAGE_SIZE : Nat := 4096

/-- `64 << 20`, the first mapping and the least extension. -/
def MMAP_MIN : Nat := 67108864

/-- `db.mmap`: the file size, the mapped size (both in bytes) and each chunk's length. -/
structure MmapState where
  file : Nat
  total : Nat
  chunks : List Nat
deriving DecidableEq, Repr

/-- `db.page`: the pages in the file and the pages allocated since. -/
structure PageState where
  flushed : Nat
  temp : List Bytes
deriving DecidableEq, Repr

/-- `KV`, without its path, file handle and tree. -/
structure KV where
  mmap : MmapState
  page : PageState
deriving DecidableEq, Repr

/-- The doubling loops of `mmapInit` and `extendMmap`: `size *= 2` while
`base + size < target`, for at most `fuel` rounds. -/
def doubleWhile (base target : Nat) : Nat → Nat → Nat
  | 0, size => size
  | fuel + 1, size => if base + size < target then doubleWhile base target fuel (size * 2) else size

/-- The loop of `extendFile`: grow by an eighth, and at least a page, until `npages`. -/
def growFile (npages : Nat) : Nat → Nat → Nat
  | 0, filePages => filePages
  | fuel + 1, filePages =>
    if filePages < npages then growFile npages fuel (filePages + max (filePages / 8) 1)
    else filePages

/-- The length of the first mapping of a file of `fileSize` bytes. The loop doubles from
`64 << 20` at least once per round, so `fileSize` rounds are enough. -/
def initMmapSize (fileSize : Nat) : Nat := doubleWhile 0 fileSize fileSize MMAP_MIN

/-- `mmapInit`: the file size and the length of the first chunk. -/
def mmapInit (fileSize : Nat) : Except String (Nat × Nat) :=
  if fileSize % BTREE_PAGE_SIZE ≠ 0 then .error "File size is not a multiple of page size."
  else .ok (fileSize, initMmapSize fileSize)

/-- `Open` on a file of `fileSize` bytes, with `flushed` the page count `masterLoad` sets. -/
def openKV (fileSize flushed : Nat) : Except String KV :=
  match mmapInit fileSize with
  | .error e => .error ("KV.Open: " ++ e)
  | .ok (sz, chunk) => .ok ⟨⟨sz, chunk, [chunk]⟩, ⟨flushed, []⟩⟩

namespace KV

def extendFile (db : KV) (npages : Nat) : KV :=
  let filePages := db.mmap.file / BTREE_PAGE_SIZE
  if filePages ≥ npages then db
  else
    { db with mmap := { db.mmap with file := growFile npages npages filePages * BTREE_PAGE_SIZE } }

def extendMmap (db : KV) (size : Nat) : KV :=
  if size ≤ db.mmap.total then db
  else
    let alloc := doubleWhile db.mmap.total size size (max db.mmap.total MMAP_MIN)
    { db with
      mmap := { db.mmap with total := db.mmap.total + alloc, chunks := db.mmap.chunks ++ [alloc] } }

/-- The chunk loop of `pageRead` from chunk `k`, whose first page is `start`: the chunk
and the byte offset in it of page `ptr`. -/
def pageReadLoop (ptr : Nat) : Nat → Nat → List Nat → Except String (Nat × Nat)
  | _, _, [] => .error "bad ptr"
  | k, start, len :: chunks =>
    let stop := start + len / BTREE_PAGE_SIZE
    if ptr < stop then .ok (k, BTREE_PAGE_SIZE * (ptr - start))
    else pageReadLoop ptr (k + 1) stop chunks

def pageRead (db : KV) (ptr : Nat) : Except String (Nat × Nat) :=
  pageReadLoop ptr 0 0 db.mmap.chunks

/-- `pageNew(node)`: the page is appended after the flushed and the allocated ones. -/
def pageNew (db : KV) (node : Bytes) : Except String (Nat × KV) :=
  if node.length ≤ BTREE_PAGE_SIZE then
    .ok (db.page.flushed + db.page.temp.length,
      { db with page := { db.page with temp := db.page.temp ++ [node] } })
  else .error "len(node.data) <= BTREE_PAGE_SIZE"

/-- `writePages`: the file and the mapping are extended to `npages`, then each new page is
read back by `pageRead` for the copy. -/
def writePages (db : KV) : Except String KV := do
  let npages := db.page.flushed + db.page.temp.length
  let db := (db.extendFile npages).extendMmap npages
  (List.range db.page.temp.length).forM fun i => do
    let _ ← db.pageRead (db.page.flushed + i)
  pure db

/-- The pages the tree allocates, in order. -/
def allocate (db : KV) : List Bytes → Except String KV
  | [] => .ok db
  | node :: nodes => do
    let (_, db) ← db.pageNew node
    allocate db nodes

end KV

def coveredPages : List Nat → Nat
  | [] => 0
  | len :: chunks => len / BTREE_PAGE_SIZE + coveredPages chunks

namespace KV

section Reads

variable {db : KV}

theorem pageReadLoop_spec (ptr : Nat) :
    ∀ (k start : Nat) (chunks : List Nat), start ≤ ptr →
      (ptr < start + coveredPages chunks → ∃ r, pageReadLoop ptr k start chunks = .ok r) ∧
      (start + coveredPages chunks ≤ ptr → pageReadLoop ptr k start chunks = .error "bad ptr")
  | _, _, [], hs => ⟨fun h => absurd h (by simp only [coveredPages]; omega), fun _ => rfl⟩
  | k, start, len :: chunks, hs => by
    have ih := pageReadLoop_spec ptr (k + 1) (start + len / BTREE_PAGE_SIZE) chunks
    simp only [coveredPages] at ih ⊢
    unfold pageReadLoop
    by_cases hlt : ptr < start + len / BTREE_PAGE_SIZE
    · simp only [if_pos hlt]
      exact ⟨fun _ => ⟨_, rfl⟩, fun h => absurd h (by omega)⟩
    · simp only [if_neg hlt]
      exact ⟨fun h => (ih (by omega)).1 (by omega), fun h => (ih (by omega)).2 (by omega)⟩

theorem pageRead_bad (h : coveredPages db.mmap.chunks ≤ ptr) :
    db.pageRead ptr = .error "bad ptr" :=
  (pageReadLoop_spec ptr 0 0 db.mmap.chunks (Nat.zero_le _)).2 (by omega)

theorem pageRead_ok_or_bad (ptr : Nat) :
    (∃ r, db.pageRead ptr = .ok r) ∨ db.pageRead ptr = .error "bad ptr" := by
  by_cases h : ptr < coveredPages db.mmap.chunks
  · exact .inl ((pageReadLoop_spec ptr 0 0 db.mmap.chunks (Nat.zero_le _)).1 (by omega))
  · exact .inr (pageRead_bad (by omega))

end Reads

theorem forM_error {α : Type} {e : String} {f : α → Except String Unit} :
    ∀ {l : List α}, (∀ x ∈ l, f x = .ok () ∨ f x = .error e) → (∃ x ∈ l, f x = .error e) →
      l.forM f = .error e
  | [], _, ⟨_, hx, _⟩ => absurd hx (List.not_mem_nil _)
  | x :: xs, hall, ⟨y, hy, hfy⟩ => by
    unfold List.forM
    rcases hall x (List.mem_cons_self _ _) with hx | hx
    · have hyx : y ∈ xs := by
        rcases List.mem_cons.mp hy with rfl | h
        · rw [hx] at hfy; cases hfy
        · exact h
      rw [hx]
      exact forM_error (fun z hz => hall z (List.mem_cons_of_mem _ hz)) ⟨y, hyx, hfy⟩
    · rw [hx]; rfl

theorem extendFile_frame (db : KV) (npages : Nat) :
    (db.extendFile npages).mmap.total = db.mmap.total ∧
      (db.extendFile npages).mmap.chunks = db.mmap.chunks ∧ (db.extendFile npages).page = db.page := by
  unfold extendFile
  dsimp only
  split <;> exact ⟨rfl, rfl, rfl⟩

/-- `writePages` of at least one new page panics when the pages in use, counted in pages,
do not pass the mapped size in bytes but do pass the pages the chunks cover: `extendMmap`
adds no chunk, and the copy loop reaches a page past the last. -/
theorem writePages_bad_ptr (db : KV) (hnew : db.page.temp ≠ [])
    (hle : db.page.flushed + db.page.temp.length ≤ db.mmap.total)
    (hover : coveredPages db.mmap.chunks < db.page.flushed + db.page.temp.length) :
    db.writePages = .error "bad ptr" := by
  have hlen : 0 < db.page.temp.length := List.length_pos.mpr hnew
  obtain ⟨htotal, hchunks, hpage⟩ := extendFile_frame db (db.page.flushed + db.page.temp.length)
  set db' := db.extendFile (db.page.flushed + db.page.temp.length)
  have hfits : db.page.flushed + db.page.temp.length ≤ db'.mmap.total := htotal ▸ hle
  have hmmap : db'.extendMmap (db.page.flushed + db.page.temp.length) = db' := by
    rw [extendMmap, if_pos hfits]
  simp only [writePages, hmmap, hpage]
  have hloop : (List.range db.page.temp.length).forM (fun i => do
      let _ ← db'.pageRead (db.page.flushed + i)) = .error "bad ptr" := by
    refine forM_error (fun i _ => ?_)
      ⟨db.page.temp.length - 1, List.mem_range.mpr (by omega), ?_⟩
    · rcases @pageRead_ok_or_bad db' (db.page.flushed + i) with ⟨r, hr⟩ | hr
      · exact .inl (by rw [hr]; rfl)
      · exact .inr (by rw [hr]; rfl)
    · rw [pageRead_bad (by rw [hchunks]; omega)]; rfl
  rw [hloop]
  rfl

theorem allocate_ok (db : KV) :
    ∀ (nodes : List Bytes), (∀ p ∈ nodes, p.length ≤ BTREE_PAGE_SIZE) →
    db.allocate nodes = .ok { db with page := { db.page with temp := db.page.temp ++ nodes } }
  | [], _ => by simp [allocate]
  | node :: nodes, h => by
    rw [allocate, pageNew, if_pos (h node (List.mem_cons_self _ _))]
    simp only [bind, Except.bind]
    rw [allocate_ok _ nodes fun p hp => h p (List.mem_cons_of_mem _ hp)]
    simp

end KV

/-- After `Open` on a file whose size is a multiple of a page, with `flushed` pages in the
file, allocating pages past the first mapping but fewer than its size in bytes makes the
next `writePages` panic with `bad ptr`. -/
theorem writePages_panics_past_first_chunk (fileSize flushed : Nat) (nodes : List Bytes)
    (hs : fileSize % BTREE_PAGE_SIZE = 0) (hne : nodes ≠ [])
    (hp : ∀ p ∈ nodes, p.length ≤ BTREE_PAGE_SIZE)
    (hover : initMmapSize fileSize / BTREE_PAGE_SIZE < flushed + nodes.length)
    (hle : flushed + nodes.length ≤ initMmapSize fileSize) :
    ∃ db, (openKV fileSize flushed >>= fun db => db.allocate nodes) = .ok db ∧
      db.writePages = .error "bad ptr" := by
  have hopen : openKV fileSize flushed =
      .ok ⟨⟨fileSize, initMmapSize fileSize, [initMmapSize fileSize]⟩, ⟨flushed, []⟩⟩ := by
    simp [openKV, mmapInit, hs]
  refine ⟨_, by rw [hopen]; exact KV.allocate_ok _ nodes hp,
    KV.writePages_bad_ptr _ (by simpa using hne) ?_ ?_⟩
  · simpa using hle
  · simpa [coveredPages] using hover

/-- One page more than the first mapping of an empty file covers: 16385 empty pages. -/
def pastFirstChunk : List Bytes := List.replicate 16385 []

theorem fresh_file_write_panics :
    0 % BTREE_PAGE_SIZE = 0 ∧ pastFirstChunk ≠ [] ∧
      (∀ p ∈ pastFirstChunk, p.length ≤ BTREE_PAGE_SIZE) ∧
      initMmapSize 0 / BTREE_PAGE_SIZE < 0 + pastFirstChunk.length ∧
      0 + pastFirstChunk.length ≤ initMmapSize 0 ∧
      ∃ db, (openKV 0 0 >>= fun db => db.allocate pastFirstChunk) = .ok db ∧
        db.writePages = .error "bad ptr" :=
  have hne : pastFirstChunk ≠ [] :=
    List.ne_nil_of_length_pos (by rw [pastFirstChunk, List.length_replicate]; omega)
  have hp : ∀ p ∈ pastFirstChunk, p.length ≤ BTREE_PAGE_SIZE := fun p hp => by
    rw [List.eq_of_mem_replicate hp]; exact Nat.zero_le _
  have hlen : pastFirstChunk.length = 16385 := List.length_replicate _ _
  have hover : initMmapSize 0 / BTREE_PAGE_SIZE < 0 + pastFirstChunk.length := by
    rw [hlen]; unfold initMmapSize doubleWhile MMAP_MIN BTREE_PAGE_SIZE; omega
  have hle : 0 + pastFirstChunk.length ≤ initMmapSize 0 := by
    rw [hlen]; unfold initMmapSize doubleWhile MMAP_MIN; omega
  ⟨rfl, hne, hp, hover, hle, writePages_panics_past_first_chunk 0 0 _ rfl hne hp hover hle⟩

end GoMiniDb.Disk.Mmap
