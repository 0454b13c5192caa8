import GoMiniDb.Storage.Build

/-! # The bytes of a node

The Go node is its buffer: a two-byte type and key count, `nkeys` eight-byte child
pointers, `nkeys` two-byte offsets (where each KV pair ends in the KV area; pair 0 starts at
0), then the KV pairs, each a two-byte key length, a two-byte value length, the key and the
value, all little endian. Here the accessors, `setPtr`, `setOffset`, `nodeAppendKV` and
`nodeAppendRange` of the source work on those bytes, with the `uint16` arithmetic on
positions and the rebase of copied offsets. A buffer being filled is the header, the
pointer and offset slots written so far, the KV bytes written so far and zeros
(`image`); each write of an append extends one of these areas. So a node built by
`setHeader` and appends is the layout of its entries, and every read of it returns them.
-/
namespace GoMiniDb.Storage.Layout

def zeros (n : Nat) : Bytes := List.replicate n 0

/-- The `w` low bytes of `x`, least significant first. -/
def leBytes : Nat → Nat → Bytes
  | 0, _ => []
  | w + 1, x => UInt8.ofNat x :: leBytes w (x / 256)

/-- The little-endian value of a byte string. -/
def leValue : Bytes → Nat
  | [] => 0
  | b :: bs => b.toNat + 256 * leValue bs

def readAt (data : Bytes) (pos w : Nat) : Bytes := (data.drop pos).take w

def writeAt (data : Bytes) (pos : Nat) (bs : Bytes) : Bytes :=
  data.take pos ++ bs ++ data.drop (pos + bs.length)

section Bytes

variable {A B X : Bytes} {p w : Nat}

@[simp] theorem length_zeros (n : Nat) : (zeros n).length = n := List.length_replicate n 0

@[simp] theorem length_leBytes (w x : Nat) : (leBytes w x).length = w := by
  induction w generalizing x <;> simp [leBytes, *]

theorem leValue_leBytes (w x : Nat) : leValue (leBytes w x) = x % Nat.pow 256 w := by
  induction w generalizing x with
  | zero => exact (Nat.mod_one x).symm
  | succ w ih =>
    show (UInt8.ofNat x).toNat + 256 * leValue (leBytes w (x / 256)) = x % (Nat.pow 256 w * 256)
    rw [ih, Nat.mul_comm _ 256, Nat.mod_mul]; rfl

theorem leValue_leBytes_of_lt {w x : Nat} (h : x < Nat.pow 256 w) : leValue (leBytes w x) = x := by
  rw [leValue_leBytes, Nat.mod_eq_of_lt h]

theorem readAt_append_left (h : p + w ≤ A.length) : readAt (A ++ B) p w = readAt A p w := by
  rw [readAt, readAt, List.drop_append_of_le_length (by omega),
    List.take_append_of_le_length (by rw [List.length_drop]; omega)]

theorem readAt_append_right (A B : Bytes) (p w : Nat) : readAt (A ++ B) (A.length + p) w = readAt B p w := by
  rw [readAt, readAt, List.drop_append]

@[simp] theorem readAt_self (A : Bytes) : readAt A 0 A.length = A := by simp [readAt]

theorem readAt_head (A B : Bytes) : readAt (A ++ B) 0 A.length = A := by
  rw [readAt_append_left (by omega), readAt_self]

theorem readAt_of_prefix (h : A <+: B) (hw : p + w ≤ A.length) : readAt B p w = readAt A p w := by
  obtain ⟨C, rfl⟩ := h
  exact readAt_append_left hw

theorem writeAt_append_left (h : p + X.length ≤ A.length) : writeAt (A ++ B) p X = writeAt A p X ++ B := by
  simp only [writeAt, List.take_append_of_le_length (show p ≤ A.length by omega),
    List.drop_append_of_le_length h, List.append_assoc]

theorem writeAt_append_right (A B X : Bytes) (p : Nat) : writeAt (A ++ B) (A.length + p) X = A ++ writeAt B p X := by
  simp only [writeAt, List.take_append, List.append_assoc, Nat.add_assoc, List.drop_append]

theorem writeAt_zeros (m : Nat) : writeAt (zeros m) 0 X = X ++ zeros (m - X.length) := by
  simp [writeAt, zeros, List.drop_replicate]

end Bytes

def uint16At (data : Bytes) (pos : Nat) : Outcome Nat := do
  bounds (pos + 2 ≤ data.length)
  return leValue (readAt data pos 2)

def putUint16 (data : Bytes) (pos v : Nat) : Outcome Bytes := do
  bounds (pos + 2 ≤ data.length)
  return writeAt data pos (leBytes 2 v)

def uint64At (data : Bytes) (pos : Nat) : Outcome UInt64 := do
  bounds (pos + 8 ≤ data.length)
  return UInt64.ofNat (leValue (readAt data pos 8))

def putUint64 (data : Bytes) (pos : Nat) (v : UInt64) : Outcome Bytes := do
  bounds (pos + 8 ≤ data.length)
  return writeAt data pos (leBytes 8 v.toNat)

def copyAt (data : Bytes) (pos : Nat) (src : Bytes) : Outcome Bytes := do
  bounds (pos ≤ data.length)
  return writeAt data pos (src.take (data.length - pos))

/-- `data[pos:][:w]`, in a buffer whose capacity is its length. -/
def sliceAt (data : Bytes) (pos w : Nat) : Outcome Bytes := do
  bounds (pos + w ≤ data.length)
  return readAt data pos w

def sliceRange (data : Bytes) (lo hi : Nat) : Outcome Bytes := do
  bounds (lo ≤ hi ∧ hi ≤ data.length)
  return readAt data lo (hi - lo)

def hdr (t n : Nat) : Bytes := leBytes 2 t ++ leBytes 2 n

/-- An area of `s` bytes whose first bytes `F` are written. -/
def area (F : Bytes) (s : Nat) : Bytes := F ++ zeros (s - F.length)

/-- A node up to the end of its KV pairs: the header, the pointer slots with `P` written,
the offset slots with `O` written, and the KV bytes `K`. -/
def front (t n : Nat) (P O K : Bytes) : Bytes :=
  hdr t n ++ (area P (8 * n) ++ (area O (2 * n) ++ K))

/-- A buffer of `len` bytes being filled: its front, then zeros. -/
def image (t n : Nat) (P O K : Bytes) (len : Nat) : Bytes :=
  hdr t n ++ (area P (8 * n) ++ (area O (2 * n) ++ area K (len - (HEADER + 10 * n))))

section Areas

variable {t n len s p w : Nat} {F P O K X : Bytes}

@[simp] theorem length_hdr : (hdr t n).length = HEADER := rfl

theorem length_area (h : F.length ≤ s) : (area F s).length = s := by
  simp only [area, List.length_append, length_zeros]; omega

theorem length_front (hP : P.length ≤ 8 * n) (hO : O.length ≤ 2 * n) :
    (front t n P O K).length = HEADER + 10 * n + K.length := by
  simp only [front, List.length_append, length_hdr, length_area hP, length_area hO]; omega

theorem writeAt_area (F X : Bytes) (s : Nat) : writeAt (area F s) F.length X = area (F ++ X) s := by
  have := writeAt_append_right F (zeros (s - F.length)) X 0
  rw [Nat.add_zero, writeAt_zeros] at this
  rw [area, this, area, List.length_append, Nat.sub_sub, List.append_assoc]

theorem readAt_area (h : p + w ≤ F.length) : readAt (area F s) p w = readAt F p w := readAt_append_left h

theorem front_prefix_image : front t n P O K <+: image t n P O K len :=
  ⟨zeros (len - (HEADER + 10 * n) - K.length), by simp only [image, front, area, List.append_assoc]⟩

theorem length_image (hP : P.length ≤ 8 * n) (hO : O.length ≤ 2 * n) (hK : HEADER + 10 * n + K.length ≤ len) :
    (image t n P O K len).length = len := by
  simp only [image, List.length_append, length_hdr, length_area hP, length_area hO, length_area (show K.length ≤ len - (HEADER + 10 * n) by omega)]
  unfold HEADER at *; omega

theorem writeAt_image_P (hP : P.length + X.length ≤ 8 * n) :
    writeAt (image t n P O K len) (HEADER + P.length) X = image t n (P ++ X) O K len := by
  rw [image, show HEADER + P.length = (hdr t n).length + P.length from rfl, writeAt_append_right,
    writeAt_append_left (by rw [length_area (by omega)]; exact hP), writeAt_area .., image]

theorem writeAt_image_O (hP : P.length ≤ 8 * n) (hO : O.length + X.length ≤ 2 * n) :
    writeAt (image t n P O K len) (HEADER + 8 * n + O.length) X = image t n P (O ++ X) K len := by
  rw [image, show HEADER + 8 * n + O.length = (hdr t n).length + ((area P (8 * n)).length + O.length) by
      rw [length_hdr, length_area hP, Nat.add_assoc],
    writeAt_append_right, writeAt_append_right,
    writeAt_append_left (by rw [length_area (by omega)]; exact hO), writeAt_area .., image]

theorem writeAt_image_K (hP : P.length ≤ 8 * n) (hO : O.length ≤ 2 * n) :
    writeAt (image t n P O K len) (HEADER + 10 * n + K.length) X = image t n P O (K ++ X) len := by
  rw [image, show HEADER + 10 * n + K.length =
      (hdr t n).length + ((area P (8 * n)).length + ((area O (2 * n)).length + K.length)) by
      rw [length_hdr, length_area hP, length_area hO]; omega,
    writeAt_append_right, writeAt_append_right, writeAt_append_right, writeAt_area .., image]

end Areas

/-- `data` begins with the front of a node of type `t` and `n` keys, with `P`, `O` and `K`
written, and every position in it is below `2^16`. -/
structure Shows (data : Bytes) (t n : Nat) (P O K : Bytes) : Prop where
  begins : front t n P O K <+: data
  ptrs : P.length ≤ 8 * n
  offs : O.length ≤ 2 * n
  small : HEADER + 10 * n + K.length < 65536

namespace Shows

variable {data : Bytes} {t n p w : Nat} {P O K : Bytes} (hs : Shows data t n P O K)
include hs

theorem length_le : HEADER + 10 * n + K.length ≤ data.length :=
  length_front hs.ptrs hs.offs ▸ hs.begins.length_le

theorem readAt_front (h : p + w ≤ HEADER + 10 * n + K.length) : readAt data p w = readAt (front t n P O K) p w :=
  readAt_of_prefix hs.begins (by rw [length_front hs.ptrs hs.offs]; exact h)

theorem readAt_type : readAt data 0 2 = leBytes 2 t := by
  have h := readAt_head (leBytes 2 t) (leBytes 2 n ++ (area P (8 * n) ++ (area O (2 * n) ++ K)))
  rw [length_leBytes] at h
  rw [hs.readAt_front (by unfold HEADER; omega), front, hdr, List.append_assoc, h]

theorem readAt_count : readAt data 2 2 = leBytes 2 n := by
  have h1 := readAt_append_right (leBytes 2 t) (leBytes 2 n ++ (area P (8 * n) ++ (area O (2 * n) ++ K))) 0 2
  have h2 := readAt_head (leBytes 2 n) (area P (8 * n) ++ (area O (2 * n) ++ K))
  rw [length_leBytes] at h1 h2
  rw [hs.readAt_front (by unfold HEADER; omega), front, hdr, List.append_assoc, h1, h2]

theorem readAt_P (h : p + w ≤ P.length) : readAt data (HEADER + p) w = readAt P p w := by
  have := hs.ptrs
  rw [hs.readAt_front (by omega), front, show HEADER + p = (hdr t n).length + p from rfl,
    readAt_append_right, readAt_append_left (by rw [length_area this]; omega), readAt_area h]

theorem readAt_O (h : p + w ≤ O.length) : readAt data (HEADER + 8 * n + p) w = readAt O p w := by
  have := hs.offs
  rw [hs.readAt_front (by omega), front, show HEADER + 8 * n + p = (hdr t n).length +
      ((area P (8 * n)).length + p) by rw [length_hdr, length_area hs.ptrs, Nat.add_assoc],
    readAt_append_right, readAt_append_right, readAt_append_left (by rw [length_area this]; omega),
    readAt_area h]

theorem readAt_K (h : p + w ≤ K.length) : readAt data (HEADER + 10 * n + p) w = readAt K p w := by
  rw [hs.readAt_front (by omega), front, show HEADER + 10 * n + p = (hdr t n).length +
      ((area P (8 * n)).length + ((area O (2 * n)).length + p)) by
      rw [length_hdr, length_area hs.ptrs, length_area hs.offs]; omega,
    readAt_append_right, readAt_append_right, readAt_append_right]

end Shows

theorem image_shows {t n len : Nat} {P O K : Bytes} (hP : P.length ≤ 8 * n) (hO : O.length ≤ 2 * n)
    (hK : HEADER + 10 * n + K.length < 65536) : Shows (image t n P O K len) t n P O K :=
  ⟨front_prefix_image, hP, hO, hK⟩

def btype (data : Bytes) : Outcome Nat := uint16At data 0

def nkeys (data : Bytes) : Outcome Nat := uint16At data 2

def setHeader (data : Bytes) (btype nkeys : Nat) : Outcome Bytes := do
  putUint16 (← putUint16 data 0 btype) 2 nkeys

def getPtr (data : Bytes) (index : Nat) : Outcome UInt64 := do
  assert (index < (← nkeys data)) "Index out of bounds"
  uint64At data (u16 (HEADER + index * 8))

def setPtr (data : Bytes) (index : Nat) (val : UInt64) : Outcome Bytes := do
  assert (index < (← nkeys data)) "Index out of bounds"
  putUint64 data (u16 (HEADER + index * 8)) val

def offsetPos (data : Bytes) (idx : Nat) : Outcome Nat := do
  let n ← nkeys data
  assert (1 ≤ idx ∧ idx ≤ n) "1<=idx && idx <= node.nkeys()"
  return u16 (HEADER + n * 8 + (idx - 1) * 2)

def getOffset (data : Bytes) (idx : Nat) : Outcome Nat :=
  if idx = 0 then .ok 0 else do uint16At data (← offsetPos data idx)

def setOffset (data : Bytes) (idx val : Nat) : Outcome Bytes := do
  putUint16 data (← offsetPos data idx) val

def kvPos (data : Bytes) (idx : Nat) : Outcome Nat := do
  let n ← nkeys data
  assert (idx ≤ n) "idx <= node.nkeys()"
  return u16 (HEADER + n * 8 + n * 2 + (← getOffset data idx))

def getKey (data : Bytes) (idx : Nat) : Outcome Bytes := do
  assert (idx < (← nkeys data)) "idx < node.nkeys()"
  let pos ← kvPos data idx
  let klen ← uint16At data pos
  sliceAt data (u16 (pos + 4)) klen

def getVal (data : Bytes) (idx : Nat) : Outcome Bytes := do
  assert (idx < (← nkeys data)) "idx < node.nkeys()"
  let pos ← kvPos data idx
  let klen ← uint16At data pos
  let vlen ← uint16At data (u16 (pos + 2))
  sliceAt data (u16 (pos + 4 + klen)) vlen

def nbytes (data : Bytes) : Outcome Nat := do
  kvPos data (← nkeys data)

def nodeAppendKV (data : Bytes) (idx : Nat) (ptr : UInt64) (key val : Bytes) : Outcome Bytes := do
  let data ← setPtr data idx ptr
  let pos ← kvPos data idx
  let data ← putUint16 data pos (u16 key.length)
  let data ← putUint16 data (u16 (pos + 2)) (u16 val.length)
  let data ← copyAt data (u16 (pos + 4)) key
  let data ← copyAt data (u16 (pos + 4 + u16 key.length)) val
  setOffset data (u16 (idx + 1)) (u16 ((← getOffset data idx) + 4 + u16 (key.length + val.length)))

/-- The pointer loop of `nodeAppendRange` at `i`, with `k` iterations left. -/
def copyPtrs (old : Bytes) (dstNew srcOld : Nat) : Nat → Nat → Bytes → Outcome Bytes
  | _, 0, new => .ok new
  | i, k + 1, new => do
    copyPtrs old dstNew srcOld (i + 1) k
      (← setPtr new (u16 (dstNew + i)) (← getPtr old (u16 (srcOld + i))))

/-- The offset loop of `nodeAppendRange` at `i`, with `k` iterations left: each offset of
`old` moved from `srcBegin` to `dstBegin`, in `uint16`. -/
def copyOffsets (old : Bytes) (dstNew srcOld dstBegin srcBegin : Nat) :
    Nat → Nat → Bytes → Outcome Bytes
  | _, 0, new => .ok new
  | i, k + 1, new => do
    let offset := u16 (dstBegin + (← getOffset old (u16 (srcOld + i))) + 65536 - srcBegin)
    copyOffsets old dstNew srcOld dstBegin srcBegin (i + 1) k
      (← setOffset new (u16 (dstNew + i)) offset)

/-- `nodeAppendRange`; its offset loop `for i := uint16(1); i <= n; i++` never ends when
`n` is `65535`. -/
def nodeAppendRange (new old : Bytes) (dstNew srcOld n : Nat) : Outcome Bytes := do
  assert (u16 (srcOld + n) ≤ (← nkeys old)) "srcOld+n <= old.nkeys()"
  assert (u16 (dstNew + n) ≤ (← nkeys new)) "dstNew+n <= new.nkeys()"
  if n = 0 then return new
  let new ← copyPtrs old dstNew srcOld 0 n new
  let dstBegin ← getOffset new dstNew
  let srcBegin ← getOffset old srcOld
  if n = 65535 then .error .unmodelled else
  let new ← copyOffsets old dstNew srcOld dstBegin srcBegin 1 n new
  let kvBegin ← kvPos old srcOld
  let kvEnd ← kvPos old (u16 (srcOld + n))
  copyAt new (← kvPos new dstNew) (← sliceRange old kvBegin kvEnd)

section Access

variable {data src : Bytes} {pos v w lo hi : Nat}

theorem uint16At_eq (h : pos + 2 ≤ data.length) : uint16At data pos = .ok (leValue (readAt data pos 2)) := by
  rw [uint16At, bounds_pos h]; rfl

theorem putUint16_eq (h : pos + 2 ≤ data.length) : putUint16 data pos v = .ok (writeAt data pos (leBytes 2 v)) := by
  rw [putUint16, bounds_pos h]; rfl

theorem uint64At_eq (h : pos + 8 ≤ data.length) :
    uint64At data pos = .ok (UInt64.ofNat (leValue (readAt data pos 8))) := by
  rw [uint64At, bounds_pos h]; rfl

theorem putUint64_eq {p : UInt64} (h : pos + 8 ≤ data.length) :
    putUint64 data pos p = .ok (writeAt data pos (leBytes 8 p.toNat)) := by
  rw [putUint64, bounds_pos h]; rfl

theorem copyAt_eq (h : pos + src.length ≤ data.length) : copyAt data pos src = .ok (writeAt data pos src) := by
  rw [copyAt, bounds_pos (by omega), List.take_of_length_le (by omega)]; rfl

theorem sliceAt_eq (h : pos + w ≤ data.length) : sliceAt data pos w = .ok (readAt data pos w) := by
  rw [sliceAt, bounds_pos h]; rfl

theorem sliceRange_eq (h : lo ≤ hi) (h' : hi ≤ data.length) : sliceRange data lo hi = .ok (readAt data lo (hi - lo)) := by
  rw [sliceRange, bounds_pos ⟨h, h'⟩]; rfl

theorem leValue_leBytes_two {x : Nat} (h : x < 65536) : leValue (leBytes 2 x) = x :=
  leValue_leBytes_of_lt h

theorem ofNat_leValue_leBytes (p : UInt64) : UInt64.ofNat (leValue (leBytes 8 p.toNat)) = p := by
  rw [leValue_leBytes_of_lt (w := 8) (UInt64.toNat_lt_size p)]
  cases p; simp [UInt64.ofNat, UInt64.toNat]

end Access

namespace Shows

variable {data : Bytes} {t n p i off : Nat} {P O K : Bytes} (hs : Shows data t n P O K)
include hs

theorem count_small : 10 * n < 65536 := by have := hs.small; omega

theorem nkeys_eq : nkeys data = .ok n := by
  have := hs.length_le; have := hs.count_small
  rw [nkeys, uint16At_eq (by unfold HEADER at *; omega), hs.readAt_count, leValue_leBytes_two (by omega)]

theorem btype_eq (ht : t < 65536) : btype data = .ok t := by
  have := hs.length_le
  rw [btype, uint16At_eq (by unfold HEADER at *; omega), hs.readAt_type, leValue_leBytes_two ht]

theorem getPtr_eq (hi : i < n) (hP : 8 * i + 8 ≤ P.length) :
    getPtr data i = .ok (UInt64.ofNat (leValue (readAt P (8 * i) 8))) := by
  have := hs.length_le; have := hs.count_small; have := hs.ptrs
  rw [getPtr, hs.nkeys_eq, except_ok_bind, assert_pos hi, except_ok_bind,
    u16_of_lt (by unfold HEADER; omega), show HEADER + i * 8 = HEADER + 8 * i by omega,
    uint64At_eq (by unfold HEADER at *; omega), hs.readAt_P hP]

theorem offsetPos_eq (h1 : 1 ≤ i) (hi : i ≤ n) : offsetPos data i = .ok (HEADER + 8 * n + 2 * (i - 1)) := by
  have := hs.count_small
  rw [offsetPos, hs.nkeys_eq, except_ok_bind, assert_pos ⟨h1, hi⟩, except_ok_bind]
  show Except.ok _ = _
  rw [u16_of_lt (by unfold HEADER; omega)]
  congr 1; omega

theorem getOffset_eq (h1 : 1 ≤ i) (hi : i ≤ n) (hO : 2 * i ≤ O.length) :
    getOffset data i = .ok (leValue (readAt O (2 * (i - 1)) 2)) := by
  have := hs.length_le; have := hs.offs
  rw [getOffset, if_neg (by omega), hs.offsetPos_eq h1 hi, except_ok_bind,
    uint16At_eq (by unfold HEADER at *; omega), hs.readAt_O (by omega)]

theorem kvPos_eq (hi : i ≤ n) (ho : getOffset data i = .ok off) (hoff : HEADER + 10 * n + off < 65536) :
    kvPos data i = .ok (HEADER + 10 * n + off) := by
  have := hs.small
  rw [kvPos, hs.nkeys_eq, except_ok_bind, assert_pos hi, except_ok_bind, ho, except_ok_bind]
  show Except.ok _ = _
  rw [u16_of_lt (by omega)]
  congr 1; omega

theorem uint16At_K (h : p + 2 ≤ K.length) : uint16At data (HEADER + 10 * n + p) = .ok (leValue (readAt K p 2)) := by
  have := hs.length_le
  rw [uint16At_eq (by omega), hs.readAt_K h]

theorem sliceAt_K {w : Nat} (h : p + w ≤ K.length) : sliceAt data (HEADER + 10 * n + p) w = .ok (readAt K p w) := by
  have := hs.length_le
  rw [sliceAt_eq (by omega), hs.readAt_K h]

end Shows

def ptrBytes : List Cell → Bytes
  | [] => []
  | c :: cs => leBytes 8 c.ptr.toNat ++ ptrBytes cs

/-- The offset slots of cells whose KV pairs start at `b`: where each pair ends. -/
def offBytes : Nat → List Cell → Bytes
  | _, [] => []
  | b, c :: cs => leBytes 2 (b + c.size) ++ offBytes (b + c.size) cs

/-- A KV pair: key length, value length, key, value. -/
def cellBytes (c : Cell) : Bytes := leBytes 2 c.key.length ++ (leBytes 2 c.val.length ++ (c.key ++ c.val))

def kvBytes : List Cell → Bytes
  | [] => []
  | c :: cs => cellBytes c ++ kvBytes cs

section Cells

variable {b i p w : Nat} {c : Cell} {cs xs ys : List Cell}

@[simp] theorem length_ptrBytes : (ptrBytes cs).length = 8 * cs.length := by
  induction cs <;> simp [ptrBytes, *]; omega

@[simp] theorem length_offBytes : (offBytes b cs).length = 2 * cs.length := by
  induction cs generalizing b <;> simp [offBytes, *]; omega

@[simp] theorem length_cellBytes : (cellBytes c).length = c.size := by
  simp [cellBytes, Cell.size]; omega

theorem length_kvBytes : (kvBytes cs).length = offsetOf cs cs.length := by
  induction cs <;> simp [kvBytes, offsetOf, *]

theorem ptrBytes_append : ptrBytes (xs ++ ys) = ptrBytes xs ++ ptrBytes ys := by
  induction xs <;> simp [ptrBytes, *]

theorem kvBytes_append : kvBytes (xs ++ ys) = kvBytes xs ++ kvBytes ys := by
  induction xs <;> simp [kvBytes, *]

theorem offBytes_append : offBytes b (xs ++ ys) = offBytes b xs ++ offBytes (b + offsetOf xs xs.length) ys := by
  induction xs generalizing b with
  | nil => simp [offBytes, offsetOf]
  | cons x xs ih => simp [offBytes, offsetOf, ih, Nat.add_assoc]

theorem length_kvBytes_take : (kvBytes (cs.take i)).length = offsetOf cs i := by
  induction cs generalizing i with
  | nil => cases i <;> rfl
  | cons d cs ih => cases i <;> simp [kvBytes, offsetOf, ih]

theorem offsetOf_le_length : offsetOf cs i ≤ (kvBytes cs).length := by
  rw [← length_kvBytes_take, ← List.take_append_drop i cs, kvBytes_append, List.take_append_drop]
  simp

theorem offsetOf_succ (hc : cs[i]? = some c) : offsetOf cs (i + 1) = offsetOf cs i + c.size := by
  induction cs generalizing i with
  | nil => simp at hc
  | cons d cs ih =>
    cases i with
    | zero => simp only [List.getElem?_cons_zero, Option.some.injEq] at hc; subst hc; simp [offsetOf]
    | succ i => rw [List.getElem?_cons_succ] at hc; rw [offsetOf, ih hc, offsetOf]; omega

theorem readAt_ptrBytes (hc : cs[i]? = some c) : readAt (ptrBytes cs) (8 * i) 8 = leBytes 8 c.ptr.toNat := by
  induction cs generalizing i with
  | nil => simp at hc
  | cons d cs ih =>
    cases i with
    | zero =>
      simp only [List.getElem?_cons_zero, Option.some.injEq] at hc; subst hc
      simpa using readAt_head (leBytes 8 d.ptr.toNat) (ptrBytes cs)
    | succ i =>
      rw [List.getElem?_cons_succ] at hc
      have := readAt_append_right (leBytes 8 d.ptr.toNat) (ptrBytes cs) (8 * i) 8
      rw [length_leBytes] at this
      rw [ptrBytes, show 8 * (i + 1) = 8 + 8 * i by omega, this, ih hc]

theorem readAt_offBytes (hi : i < cs.length) : readAt (offBytes b cs) (2 * i) 2 = leBytes 2 (b + offsetOf cs (i + 1)) := by
  induction cs generalizing i b with
  | nil => simp at hi
  | cons d cs ih =>
    cases i with
    | zero => simpa [offBytes, offsetOf] using readAt_head (leBytes 2 (b + d.size)) (offBytes (b + d.size) cs)
    | succ i =>
      have := readAt_append_right (leBytes 2 (b + d.size)) (offBytes (b + d.size) cs) (2 * i) 2
      rw [length_leBytes] at this
      rw [offBytes, show 2 * (i + 1) = 2 + 2 * i by omega, this, ih (by simpa using hi), offsetOf,
        Nat.add_assoc]

theorem readAt_kvBytes (hc : cs[i]? = some c) (h : p + w ≤ c.size) :
    readAt (kvBytes cs) (offsetOf cs i + p) w = readAt (cellBytes c) p w := by
  induction cs generalizing i with
  | nil => simp at hc
  | cons d cs ih =>
    cases i with
    | zero =>
      simp only [List.getElem?_cons_zero, Option.some.injEq] at hc; subst hc
      rw [kvBytes, show offsetOf (d :: cs) 0 = 0 from rfl, Nat.zero_add, readAt_append_left (by simpa using h)]
    | succ i =>
      rw [List.getElem?_cons_succ] at hc
      have := readAt_append_right (cellBytes d) (kvBytes cs) (offsetOf cs i + p) w
      rw [length_cellBytes] at this
      rw [kvBytes, offsetOf, Nat.add_assoc, this, ih hc]

theorem readAt_kvBytes_range (s m : Nat) :
    readAt (kvBytes cs) (offsetOf cs s) (offsetOf cs (s + m) - offsetOf cs s) = kvBytes ((cs.drop s).take m) := by
  have hkv : kvBytes cs = kvBytes (cs.take s) ++ (kvBytes ((cs.drop s).take m) ++ kvBytes ((cs.drop s).drop m)) := by
    rw [← kvBytes_append, ← kvBytes_append, List.take_append_drop, List.take_append_drop]
  have hm : offsetOf cs (s + m) = offsetOf cs s + (kvBytes ((cs.drop s).take m)).length := by
    rw [← length_kvBytes_take, ← length_kvBytes_take, List.take_add, kvBytes_append, List.length_append]
  rw [hm, Nat.add_sub_cancel_left, ← length_kvBytes_take, hkv, ← Nat.add_zero (kvBytes (cs.take s)).length,
    readAt_append_right, readAt_head]

@[simp] theorem readAt_cellBytes_key_length : readAt (cellBytes c) 0 2 = leBytes 2 c.key.length := by
  simpa using readAt_head (leBytes 2 c.key.length) (leBytes 2 c.val.length ++ (c.key ++ c.val))

theorem readAt_cellBytes_val_length : readAt (cellBytes c) 2 2 = leBytes 2 c.val.length := by
  have h1 := readAt_append_right (leBytes 2 c.key.length) (leBytes 2 c.val.length ++ (c.key ++ c.val)) 0 2
  have h2 := readAt_head (leBytes 2 c.val.length) (c.key ++ c.val)
  rw [length_leBytes] at h1 h2
  rw [cellBytes, h1, h2]

theorem readAt_cellBytes_key : readAt (cellBytes c) 4 c.key.length = c.key := by
  have := readAt_append_right (leBytes 2 c.key.length ++ leBytes 2 c.val.length) (c.key ++ c.val) 0 c.key.length
  simp only [List.length_append, length_leBytes, List.append_assoc, readAt_head] at this
  rw [cellBytes, this]

theorem readAt_cellBytes_val : readAt (cellBytes c) (4 + c.key.length) c.val.length = c.val := by
  have := readAt_append_right (leBytes 2 c.key.length ++ leBytes 2 c.val.length ++ c.key) c.val 0 c.val.length
  simp only [List.length_append, length_leBytes, List.append_assoc, readAt_self, Nat.add_zero] at this
  rw [cellBytes, show 4 + c.key.length = 2 + (2 + c.key.length) by omega, this]

end Cells

namespace Shows

variable {data : Bytes} {t n i : Nat} {c : Cell} {cs : List Cell} {P O : Bytes}

theorem getPtr_cells (hs : Shows data t n (ptrBytes cs) O (kvBytes ys)) (hc : cs[i]? = some c) (hi : i < n) :
    getPtr data i = .ok c.ptr := by
  have := (List.getElem?_eq_some_iff.mp hc).1
  rw [hs.getPtr_eq hi (by simp; omega), readAt_ptrBytes hc, ofNat_leValue_leBytes]

theorem getOffset_cells {K : Bytes} (hs : Shows data t n P (offBytes 0 cs) K) (hK : (kvBytes cs).length < 65536)
    (hi : i ≤ cs.length) : getOffset data i = .ok (offsetOf cs i) := by
  rcases Nat.eq_zero_or_pos i with rfl | h1
  · rw [getOffset, if_pos rfl]; cases cs <;> rfl
  · have := hs.offs; have := hs.small; have := @offsetOf_le_length i cs
    simp only [length_offBytes] at *
    rw [hs.getOffset_eq h1 (by omega) (by simp; omega), readAt_offBytes (by omega), Nat.sub_add_cancel h1,
      Nat.zero_add, leValue_leBytes_two (by omega)]

theorem kvPos_cells {K : Bytes} (hs : Shows data t n P (offBytes 0 cs) K)
    (hK : HEADER + 10 * n + (kvBytes cs).length < 65536)
    (hi : i ≤ cs.length) : kvPos data i = .ok (HEADER + 10 * n + offsetOf cs i) := by
  have := hs.offs
  simp only [length_offBytes] at this
  have := @offsetOf_le_length i cs
  exact hs.kvPos_eq (by omega) (hs.getOffset_cells (by omega) hi) (by omega)

variable (hs : Shows data t n P (offBytes 0 cs) (kvBytes cs))
include hs

theorem cell_small (hc : cs[i]? = some c) : i < n ∧ HEADER + 10 * n + (offsetOf cs i + c.size) < 65536 := by
  have := hs.offs; have := hs.small; have := @offsetOf_le_length (i + 1) cs
  have := (List.getElem?_eq_some_iff.mp hc).1
  simp only [length_offBytes, offsetOf_succ hc] at *
  omega

theorem uint16At_cell {p : Nat} (hc : cs[i]? = some c) (h : p + 2 ≤ c.size) :
    uint16At data (HEADER + 10 * n + (offsetOf cs i + p)) = .ok (leValue (readAt (cellBytes c) p 2)) := by
  have := hs.cell_small hc; have := @offsetOf_le_length (i + 1) cs
  rw [offsetOf_succ hc] at this
  rw [hs.uint16At_K (by omega), readAt_kvBytes hc h]

theorem sliceAt_cell {p w : Nat} (hc : cs[i]? = some c) (h : p + w ≤ c.size) :
    sliceAt data (HEADER + 10 * n + (offsetOf cs i + p)) w = .ok (readAt (cellBytes c) p w) := by
  have := hs.cell_small hc; have := @offsetOf_le_length (i + 1) cs
  rw [offsetOf_succ hc] at this
  rw [hs.sliceAt_K (by omega), readAt_kvBytes hc h]

theorem getKey_cells (hc : cs[i]? = some c) : getKey data i = .ok c.key := by
  obtain ⟨hi, hsmall⟩ := hs.cell_small hc
  have hk := hs.uint16At_cell (p := 0) hc (by unfold Cell.size; omega)
  unfold Cell.size at hsmall
  rw [readAt_cellBytes_key_length, leValue_leBytes_two (x := c.key.length) (by omega), Nat.add_zero] at hk
  rw [getKey, hs.nkeys_eq, except_ok_bind, assert_pos hi, except_ok_bind, hs.kvPos_cells hs.small (List.getElem?_eq_some_iff.mp hc).1.le,
    except_ok_bind, hk, except_ok_bind, u16_of_lt (by omega), Nat.add_assoc,
    hs.sliceAt_cell hc (by unfold Cell.size; omega), readAt_cellBytes_key]

theorem getVal_cells (hc : cs[i]? = some c) : getVal data i = .ok c.val := by
  obtain ⟨hi, hsmall⟩ := hs.cell_small hc
  unfold Cell.size at hsmall
  have hk := hs.uint16At_cell (p := 0) hc (by unfold Cell.size; omega)
  have hv := hs.uint16At_cell (p := 2) hc (by unfold Cell.size; omega)
  rw [readAt_cellBytes_key_length, leValue_leBytes_two (x := c.key.length) (by omega), Nat.add_zero] at hk
  rw [readAt_cellBytes_val_length, leValue_leBytes_two (x := c.val.length) (by omega)] at hv
  rw [getVal, hs.nkeys_eq, except_ok_bind, assert_pos hi, except_ok_bind, hs.kvPos_cells hs.small (List.getElem?_eq_some_iff.mp hc).1.le,
    except_ok_bind, hk, except_ok_bind, u16_of_lt (by omega), Nat.add_assoc, hv, except_ok_bind,
    u16_of_lt (by omega), Nat.add_assoc, Nat.add_assoc, hs.sliceAt_cell hc (by unfold Cell.size; omega),
    readAt_cellBytes_val]

end Shows

/-- `data` begins with the bytes of a node of type `t` holding `cs`. -/
abbrev LaysOut (data : Bytes) (t : Nat) (cs : List Cell) : Prop :=
  Shows data t cs.length (ptrBytes cs) (offBytes 0 cs) (kvBytes cs)

theorem LaysOut.nbytes_eq {data : Bytes} {t : Nat} {cs : List Cell} (h : LaysOut data t cs) :
    nbytes data = .ok (HEADER + cellsBytes cs) := by
  rw [nbytes, h.nkeys_eq, except_ok_bind, h.kvPos_cells h.small le_rfl, ← offsetOf_length_eq, Nat.add_assoc]

section Writes

variable {t n len k pos v : Nat} {P O K X : Bytes}

theorem len_le_length_image (hP : P.length ≤ 8 * n) (hO : O.length ≤ 2 * n) :
    HEADER + 10 * n + K.length ≤ (image t n P O K len).length ∧ len ≤ (image t n P O K len).length := by
  simp only [image, area, List.length_append, length_hdr, length_zeros]; unfold HEADER; omega

theorem setPtr_image {p : UInt64} (hP : P.length = 8 * k) (hk : k < n) (hO : O.length ≤ 2 * n)
    (hK : HEADER + 10 * n + K.length < 65536) :
    setPtr (image t n P O K len) k p = .ok (image t n (P ++ leBytes 8 p.toNat) O K len) := by
  have hs : Shows (image t n P O K len) t n P O K := image_shows (by omega) hO hK
  have : HEADER + 10 * n + K.length ≤ (image t n P O K len).length := (len_le_length_image (by omega) hO).1
  rw [setPtr, hs.nkeys_eq, except_ok_bind, assert_pos hk, except_ok_bind, u16_of_lt (by unfold HEADER at *; omega),
    putUint64_eq (by unfold HEADER at *; omega), show HEADER + k * 8 = HEADER + P.length by omega,
    writeAt_image_P (by simp; omega)]

theorem setOffset_image (hO : O.length = 2 * (k - 1)) (h1 : 1 ≤ k) (hk : k ≤ n) (hP : P.length ≤ 8 * n)
    (hK : HEADER + 10 * n + K.length < 65536) :
    setOffset (image t n P O K len) k v = .ok (image t n P (O ++ leBytes 2 v) K len) := by
  have hs : Shows (image t n P O K len) t n P O K := image_shows hP (by omega) hK
  have : HEADER + 10 * n + K.length ≤ (image t n P O K len).length := (len_le_length_image hP (by omega)).1
  rw [setOffset, hs.offsetPos_eq h1 hk, except_ok_bind, putUint16_eq (by omega),
    show HEADER + 8 * n + 2 * (k - 1) = HEADER + 8 * n + O.length by omega, writeAt_image_O hP (by simp; omega)]

theorem putUint16_image (hP : P.length ≤ 8 * n) (hO : O.length ≤ 2 * n) (hfit : HEADER + 10 * n + K.length + 2 ≤ len) :
    putUint16 (image t n P O K len) (HEADER + 10 * n + K.length) v = .ok (image t n P O (K ++ leBytes 2 v) len) := by
  have : len ≤ (image t n P O K len).length := (len_le_length_image hP hO).2
  rw [putUint16_eq (by omega), writeAt_image_K hP hO]

theorem copyAt_image (hP : P.length ≤ 8 * n) (hO : O.length ≤ 2 * n) (hfit : HEADER + 10 * n + K.length + X.length ≤ len) :
    copyAt (image t n P O K len) (HEADER + 10 * n + K.length) X = .ok (image t n P O (K ++ X) len) := by
  have : len ≤ (image t n P O K len).length := (len_le_length_image hP hO).2
  rw [copyAt_eq (by omega), writeAt_image_K hP hO]

end Writes

/-- The bytes of a cell-level node: its cells laid out in a buffer of `len` bytes. -/
def encode (node : BNode) : Bytes :=
  image node.hdrType node.hdrKeys (ptrBytes node.cells) (offBytes 0 node.cells) (kvBytes node.cells) node.len

section Append

variable {t n len : Nat} {cs : List Cell} {c : Cell}

theorem ptrBytes_concat : ptrBytes cs ++ leBytes 8 c.ptr.toNat = ptrBytes (cs ++ [c]) := by
  simp [ptrBytes_append, ptrBytes]

theorem offBytes_concat : offBytes 0 cs ++ leBytes 2 ((kvBytes cs).length + c.size) = offBytes 0 (cs ++ [c]) := by
  simp [offBytes_append, offBytes, length_kvBytes]

theorem kvBytes_concat :
    kvBytes cs ++ leBytes 2 c.key.length ++ leBytes 2 c.val.length ++ c.key ++ c.val = kvBytes (cs ++ [c]) := by
  simp [kvBytes_append, kvBytes, cellBytes]

theorem nodeAppendKV_encode (hk : cs.length < n) (hfit : HEADER + 10 * n + (kvBytes cs).length + c.size ≤ len)
    (hsmall : HEADER + 10 * n + (kvBytes cs).length + c.size < 65536) :
    nodeAppendKV (encode ⟨t, n, cs, len⟩) cs.length c.ptr c.key c.val = .ok (encode ⟨t, n, cs ++ [c], len⟩) := by
  unfold Cell.size at hfit hsmall
  have hO : (offBytes 0 cs).length ≤ 2 * n := by simp; omega
  have hP : (ptrBytes (cs ++ [c])).length ≤ 8 * n := by simp; omega
  have hs1 : Shows (image t n (ptrBytes (cs ++ [c])) (offBytes 0 cs) (kvBytes cs) len) t n _ _ _ :=
    image_shows hP hO (by omega)
  have hs2 : Shows (image t n (ptrBytes (cs ++ [c])) (offBytes 0 cs) (kvBytes (cs ++ [c])) len) t n _ _ _ :=
    image_shows hP hO (by simp [kvBytes_append, kvBytes, Cell.size]; omega)
  have hpos := hs1.kvPos_cells (by omega) le_rfl
  have hoff := hs2.getOffset_cells (by omega) le_rfl
  rw [← length_kvBytes] at hpos hoff
  rw [← kvBytes_concat] at hoff
  simp only [List.length_append, length_leBytes] at *
  show nodeAppendKV (image t n (ptrBytes cs) (offBytes 0 cs) (kvBytes cs) len) _ _ _ _ =
    .ok (image t n (ptrBytes (cs ++ [c])) (offBytes 0 (cs ++ [c])) (kvBytes (cs ++ [c])) len)
  rw [nodeAppendKV, setPtr_image length_ptrBytes hk hO (by omega), except_ok_bind, ptrBytes_concat, hpos,
    except_ok_bind, u16_of_lt (show c.key.length < 65536 by omega), putUint16_image hP hO (by omega), except_ok_bind]
  have e2 : u16 (HEADER + 10 * n + (kvBytes cs).length + 2) =
      HEADER + 10 * n + (kvBytes cs ++ leBytes 2 c.key.length).length := by
    rw [u16_of_lt (by omega)]; simp; omega
  have e3 : u16 (HEADER + 10 * n + (kvBytes cs).length + 4) =
      HEADER + 10 * n + (kvBytes cs ++ leBytes 2 c.key.length ++ leBytes 2 c.val.length).length := by
    rw [u16_of_lt (by omega)]; simp; omega
  have e4 : u16 (HEADER + 10 * n + (kvBytes cs).length + 4 + c.key.length) =
      HEADER + 10 * n + (kvBytes cs ++ leBytes 2 c.key.length ++ leBytes 2 c.val.length ++ c.key).length := by
    rw [u16_of_lt (by omega)]; simp; omega
  rw [e2, u16_of_lt (show c.val.length < 65536 by omega), putUint16_image hP hO (by simp; omega), except_ok_bind,
    e3, copyAt_image hP hO (by simp; omega), except_ok_bind, e4, copyAt_image hP hO (by simp; omega),
    except_ok_bind, hoff, except_ok_bind, u16_of_lt (show cs.length + 1 < 65536 by omega),
    u16_of_lt (show c.key.length + c.val.length < 65536 by omega), u16_of_lt (by omega),
    setOffset_image (by simp) (by omega) (by omega) hP (by simp; omega),
    show (kvBytes cs).length + 4 + (c.key.length + c.val.length) = (kvBytes cs).length + c.size by
      unfold Cell.size; omega, offBytes_concat, kvBytes_concat]

theorem offsetOf_append_left {ys : List Cell} {i : Nat} (h : i ≤ cs.length) : offsetOf (cs ++ ys) i = offsetOf cs i := by
  rw [← length_kvBytes_take, ← length_kvBytes_take, List.take_append_of_le_length h]

theorem offsetOf_add (s j : Nat) : offsetOf cs (s + j) = offsetOf cs s + offsetOf (cs.drop s) j := by
  rw [← length_kvBytes_take, ← length_kvBytes_take, ← length_kvBytes_take, List.take_add, kvBytes_append,
    List.length_append]

theorem take_drop_succ {s j : Nat} (hc : cs[s + j]? = some c) : (cs.drop s).take (j + 1) = (cs.drop s).take j ++ [c] := by
  rw [List.take_succ, List.getElem?_drop, hc]; rfl

variable {old : Bytes} {t' src m : Nat} {ocs : List Cell}

theorem copyPtrs_image (hold : LaysOut old t' ocs) (hsrc : src + m ≤ ocs.length) (hroom : cs.length + m ≤ n)
    (hsmall : HEADER + 10 * n + (kvBytes cs).length < 65536) :
    ∀ i k, i + k = m → copyPtrs old cs.length src i k
        (image t n (ptrBytes (cs ++ (ocs.drop src).take i)) (offBytes 0 cs) (kvBytes cs) len) =
      .ok (image t n (ptrBytes (cs ++ (ocs.drop src).take m)) (offBytes 0 cs) (kvBytes cs) len)
  | i, 0, h => by rw [copyPtrs, ← h, Nat.add_zero]
  | i, k + 1, h => by
    obtain ⟨c, hc⟩ : ∃ c, ocs[src + i]? = some c := ⟨_, List.getElem?_eq_getElem (by omega)⟩
    have := hold.count_small
    rw [copyPtrs, u16_of_lt (show src + i < 65536 by omega), hold.getPtr_cells hc (by omega), except_ok_bind,
      u16_of_lt (show cs.length + i < 65536 by unfold HEADER at hsmall; omega),
      setPtr_image (by simp; omega) (by omega) (by simp; omega) hsmall, except_ok_bind,
      ptrBytes_concat, List.append_assoc, ← take_drop_succ hc]
    exact copyPtrs_image hold hsrc hroom hsmall (i + 1) k (by omega)

theorem copyOffsets_image {P : Bytes} (hold : LaysOut old t' ocs) (hsrc : src + m ≤ ocs.length) (hroom : cs.length + m ≤ n)
    (hP : P.length ≤ 8 * n) (hsmall : HEADER + 10 * n + (kvBytes (cs ++ (ocs.drop src).take m)).length < 65536) :
    ∀ j k, j + k = m → copyOffsets old cs.length src (kvBytes cs).length (offsetOf ocs src) (j + 1) k
        (image t n P (offBytes 0 (cs ++ (ocs.drop src).take j)) (kvBytes cs) len) =
      .ok (image t n P (offBytes 0 (cs ++ (ocs.drop src).take m)) (kvBytes cs) len)
  | j, 0, h => by rw [copyOffsets, ← h, Nat.add_zero]
  | j, k + 1, h => by
    obtain ⟨c, hc⟩ : ∃ c, ocs[src + j]? = some c := ⟨_, List.getElem?_eq_getElem (by omega)⟩
    have := hold.count_small; have := hold.small
    have hseg : offsetOf (ocs.drop src) (j + 1) = (kvBytes ((ocs.drop src).take j)).length + c.size := by
      rw [← length_kvBytes_take, take_drop_succ hc, kvBytes_append, List.length_append]
      simp [kvBytes]
    have hoff : offsetOf ocs (src + (j + 1)) = offsetOf ocs src + ((kvBytes ((ocs.drop src).take j)).length + c.size) := by
      rw [offsetOf_add, hseg]
    have hmono : (kvBytes ((ocs.drop src).take (j + 1))).length ≤ (kvBytes ((ocs.drop src).take m)).length := by
      rw [length_kvBytes_take, length_kvBytes_take]; exact offsetOf_mono (by omega)
    rw [take_drop_succ hc, kvBytes_append, List.length_append] at hmono
    simp only [kvBytes, List.append_nil, length_cellBytes] at hmono
    rw [kvBytes_append, List.length_append] at hsmall
    rw [copyOffsets, u16_of_lt (show src + (j + 1) < 65536 by omega), hold.getOffset_cells (by omega) (by omega),
      except_ok_bind, u16_of_lt (show cs.length + (j + 1) < 65536 by unfold HEADER at hsmall; omega)]
    dsimp only
    rw [setOffset_image (by simp; omega) (by omega) (by omega) hP (by omega), except_ok_bind, hoff,
      show u16 ((kvBytes cs).length + (offsetOf ocs src + ((kvBytes ((ocs.drop src).take j)).length + c.size)) +
          65536 - offsetOf ocs src) = (kvBytes (cs ++ (ocs.drop src).take j)).length + c.size by
        rw [kvBytes_append, List.length_append]; unfold u16; omega,
      offBytes_concat, List.append_assoc, ← take_drop_succ hc]
    exact copyOffsets_image hold hsrc hroom hP (by rwa [kvBytes_append, List.length_append]) (j + 1) k (by omega)

/-- `nodeAppendRange` of `m` cells of a laid-out source, at the next index of a laid-out
node, lays out those cells after its own: the pointers, the offsets rebased onto the node's
KV area, and the KV bytes. -/
theorem nodeAppendRange_encode (hold : LaysOut old t' ocs) (hsrc : src + m ≤ ocs.length) (hroom : cs.length + m ≤ n)
    (hfit : HEADER + 10 * n + (kvBytes (cs ++ (ocs.drop src).take m)).length ≤ len)
    (hsmall : HEADER + 10 * n + (kvBytes (cs ++ (ocs.drop src).take m)).length < 65536) :
    nodeAppendRange (encode ⟨t, n, cs, len⟩) old cs.length src m = .ok (encode ⟨t, n, cs ++ (ocs.drop src).take m, len⟩) := by
  show nodeAppendRange (image t n (ptrBytes cs) (offBytes 0 cs) (kvBytes cs) len) old cs.length src m =
    .ok (image t n (ptrBytes (cs ++ (ocs.drop src).take m)) (offBytes 0 (cs ++ (ocs.drop src).take m))
      (kvBytes (cs ++ (ocs.drop src).take m)) len)
  have hkv := hsmall
  rw [kvBytes_append, List.length_append] at hkv hfit
  have := hold.count_small; have := hold.small
  have hO : (offBytes 0 cs).length ≤ 2 * n := by simp; omega
  have hP : (ptrBytes (cs ++ (ocs.drop src).take m)).length ≤ 8 * n := by simp; omega
  have hO' : (offBytes 0 (cs ++ (ocs.drop src).take m)).length ≤ 2 * n := by simp; omega
  have hs0 : Shows (image t n (ptrBytes cs) (offBytes 0 cs) (kvBytes cs) len) t n _ _ _ :=
    image_shows (by simp; omega) hO (by omega)
  rw [nodeAppendRange, hold.nkeys_eq, except_ok_bind, assert_pos (by rw [u16_of_lt (by omega)]; omega), except_ok_bind,
    hs0.nkeys_eq, except_ok_bind, assert_pos (by rw [u16_of_lt (by omega)]; omega), except_ok_bind]
  rcases Nat.eq_zero_or_pos m with rfl | hm
  · simp only [List.take_zero, List.append_nil, if_pos]; rfl
  have hp : copyPtrs old cs.length src 0 m (image t n (ptrBytes cs) (offBytes 0 cs) (kvBytes cs) len) =
      .ok (image t n (ptrBytes (cs ++ (ocs.drop src).take m)) (offBytes 0 cs) (kvBytes cs) len) := by
    simpa using copyPtrs_image (t := t) hold hsrc hroom (by omega) 0 m (Nat.zero_add m)
  have hs1 : Shows (image t n (ptrBytes (cs ++ (ocs.drop src).take m)) (offBytes 0 cs) (kvBytes cs) len) t n _ _ _ :=
    image_shows hP hO (by omega)
  have hq : copyOffsets old cs.length src (kvBytes cs).length (offsetOf ocs src) 1 m
      (image t n (ptrBytes (cs ++ (ocs.drop src).take m)) (offBytes 0 cs) (kvBytes cs) len) =
      .ok (image t n (ptrBytes (cs ++ (ocs.drop src).take m)) (offBytes 0 (cs ++ (ocs.drop src).take m)) (kvBytes cs) len) := by
    simpa using copyOffsets_image (t := t) hold hsrc hroom hP hsmall 0 m (Nat.zero_add m)
  have hs2 : Shows (image t n (ptrBytes (cs ++ (ocs.drop src).take m)) (offBytes 0 (cs ++ (ocs.drop src).take m))
      (kvBytes cs) len) t n _ _ _ := image_shows hP hO' (by omega)
  have hend := hold.kvPos_cells hold.small (show src + m ≤ ocs.length from hsrc)
  have hslice : sliceRange old (HEADER + 10 * ocs.length + offsetOf ocs src) (HEADER + 10 * ocs.length + offsetOf ocs (src + m)) =
      .ok (kvBytes ((ocs.drop src).take m)) := by
    have hmono := @offsetOf_mono ocs src (src + m) (by omega)
    have hle := @offsetOf_le_length (src + m) ocs
    have := hold.length_le
    rw [sliceRange_eq (by omega) (by omega), show HEADER + 10 * ocs.length + offsetOf ocs (src + m) -
        (HEADER + 10 * ocs.length + offsetOf ocs src) = offsetOf ocs (src + m) - offsetOf ocs src by omega,
      hold.readAt_K (by omega), readAt_kvBytes_range]
  rw [if_neg (by omega), hp, except_ok_bind, hs1.getOffset_cells (by omega) le_rfl, except_ok_bind,
    hold.getOffset_cells (by omega) (by omega), except_ok_bind, if_neg (by omega), ← length_kvBytes, hq, except_ok_bind,
    hold.kvPos_cells hold.small (by omega), except_ok_bind, u16_of_lt (show src + m < 65536 by omega), hend, except_ok_bind,
    hs2.kvPos_cells hsmall (by simp), except_ok_bind, hslice, except_ok_bind,
    offsetOf_append_left le_rfl, ← length_kvBytes, copyAt_image hP hO' (by omega), kvBytes_append]
  rfl

end Append

/-- One step of filling a node: an entry, or `n` cells of the node whose bytes are `old`,
from index `src`. -/
inductive Step
  | kv (ptr : UInt64) (key val : Bytes)
  | range (old : Bytes) (src n : Nat)

namespace Step

/-- The indices a step fills, as the caller counts them. -/
def count : Step → Nat
  | kv .. => 1
  | range _ _ n => n

/-- The call a step makes at index `dst` of `new`. -/
def run (new : Bytes) (dst : Nat) : Step → Outcome Bytes
  | kv ptr key val => nodeAppendKV new dst ptr key val
  | range old src n => nodeAppendRange new old dst src n

end Step

/-- The steps in order, each at the index after those before it. -/
def appendAll (data : Bytes) (dst : Nat) : List Step → Outcome Bytes
  | [] => .ok data
  | s :: ss => do appendAll (← s.run data dst) (dst + s.count) ss

def buildNode (len t n : Nat) (steps : List Step) : Outcome Bytes := do
  appendAll (← setHeader (zeros len) t n) 0 steps

/-- The steps write the entries `es` in order, each range copying cells that its source lays
out. -/
inductive Fills : List Step → List Cell → Prop
  | nil : Fills [] []
  | kv {ptr key val ss es} : Fills ss es → Fills (.kv ptr key val :: ss) (⟨ptr, key, val⟩ :: es)
  | range {old t cs src n ss es} : LaysOut old t cs → src + n ≤ cs.length → Fills ss es →
      Fills (.range old src n :: ss) ((cs.drop src).take n ++ es)

section Build

variable {t n len : Nat}

theorem cellsBytes_eq_kv (cs : List Cell) : cellsBytes cs = 10 * cs.length + (kvBytes cs).length := by
  rw [← offsetOf_length_eq, length_kvBytes]

theorem setHeader_encode (h : HEADER + 10 * n ≤ len) : setHeader (zeros len) t n = .ok (encode ⟨t, n, [], len⟩) := by
  unfold HEADER at h
  have h2 := writeAt_append_right (leBytes 2 t) (zeros (len - 2)) (leBytes 2 n) 0
  rw [length_leBytes, Nat.add_zero, writeAt_zeros, length_leBytes] at h2
  rw [setHeader, putUint16_eq (by simp; omega), except_ok_bind, writeAt_zeros, length_leBytes,
    putUint16_eq (by simp; omega), h2]
  show Except.ok _ = Except.ok (hdr t n ++ (zeros (8 * n - 0) ++ (zeros (2 * n - 0) ++ ([] ++ zeros (len - (HEADER + 10 * n) - 0)))))
  simp only [hdr, zeros, List.nil_append, Nat.sub_zero, List.append_assoc, ← List.replicate_add]
  congr 4; unfold HEADER; omega

theorem kv_bound (pre mid rest : List Cell) (h : (pre ++ mid).length + rest.length = n) :
    HEADER + 10 * n + (kvBytes (pre ++ mid)).length ≤ HEADER + cellsBytes (pre ++ mid ++ rest) := by
  rw [cellsBytes_eq_kv, show kvBytes (pre ++ mid ++ rest) = kvBytes (pre ++ mid) ++ kvBytes rest from kvBytes_append]
  simp only [List.length_append] at h ⊢; omega

theorem appendAll_encode {ss : List Step} {es : List Cell} (hf : Fills ss es) :
    ∀ pre : List Cell, pre.length + es.length = n → HEADER + cellsBytes (pre ++ es) ≤ len →
      HEADER + cellsBytes (pre ++ es) < 65536 →
      appendAll (encode ⟨t, n, pre, len⟩) pre.length ss = .ok (encode ⟨t, n, pre ++ es, len⟩) := by
  induction hf with
  | nil => intro pre _ _ _; simp [appendAll]
  | @kv ptr key val ss es _ ih =>
    intro pre hn hfit hsmall
    have e : pre ++ ⟨ptr, key, val⟩ :: es = pre ++ [⟨ptr, key, val⟩] ++ es := by simp
    have hb := kv_bound (n := n) pre [⟨ptr, key, val⟩] es (by rw [← hn]; simp; omega)
    rw [← e, kvBytes_append, List.length_append] at hb
    have hc : (kvBytes [⟨ptr, key, val⟩]).length = Cell.size ⟨ptr, key, val⟩ := by simp [kvBytes]
    have hkv : nodeAppendKV (encode ⟨t, n, pre, len⟩) pre.length ptr key val = .ok (encode ⟨t, n, pre ++ [⟨ptr, key, val⟩], len⟩) :=
      nodeAppendKV_encode (c := ⟨ptr, key, val⟩) (by simp at hn; omega) (by omega) (by omega)
    rw [appendAll, Step.run, hkv, except_ok_bind,
      Step.count, show pre.length + 1 = (pre ++ ([⟨ptr, key, val⟩] : List Cell)).length by simp, e]
    exact ih _ (by simp at hn ⊢; omega) (e ▸ hfit) (e ▸ hsmall)
  | @range old t' cs src m ss es hold hsrc _ ih =>
    intro pre hn hfit hsmall
    have hm : ((cs.drop src).take m).length = m := by simp; omega
    have e : pre ++ ((cs.drop src).take m ++ es) = pre ++ (cs.drop src).take m ++ es := by simp
    have hb := kv_bound (n := n) pre ((cs.drop src).take m) es (by rw [← hn]; simp [hm]; omega)
    rw [← e] at hb
    have hr : nodeAppendRange (encode ⟨t, n, pre, len⟩) old pre.length src m = .ok (encode ⟨t, n, pre ++ (cs.drop src).take m, len⟩) :=
      nodeAppendRange_encode hold hsrc (by simp at hn; omega) (by omega) (by omega)
    rw [appendAll, Step.run, hr,
      except_ok_bind, Step.count, show pre.length + m = (pre ++ (cs.drop src).take m).length by rw [List.length_append, hm], e]
    exact ih _ (by simp at hn ⊢; omega) (e ▸ hfit) (e ▸ hsmall)

end Build

/-- A node built by `setHeader(t, n)` and appends of `n` entries that fit a buffer of at
most two pages is the layout of those entries: it has type `t` and `n` keys, reads back
every entry at its index, has `nbytes()` equal to the header plus ten bytes and the KV pair
of each entry, and its offsets and KV positions are the exact sums, none wrapped in
`uint16`. -/
theorem buildNode_reads (len t n : Nat) (steps : List Step) (es : List Cell) (hfills : Fills steps es)
    (ht : t < 65536) (hn : es.length = n) (hS : HEADER + cellsBytes es ≤ len) (hlen : len ≤ 2 * BTREE_PAGE_SIZE) :
    ∃ data, buildNode len t n steps = .ok data ∧ data.length = len ∧ btype data = .ok t ∧ nkeys data = .ok n ∧
      (∀ i e, es[i]? = some e → getPtr data i = .ok e.ptr ∧ getKey data i = .ok e.key ∧ getVal data i = .ok e.val) ∧
      nbytes data = .ok (HEADER + cellsBytes es) ∧
      ∀ i ≤ n, getOffset data i = .ok (offsetOf es i) ∧ kvPos data i = .ok (HEADER + 10 * n + offsetOf es i) := by
  subst hn
  have hsmall : HEADER + cellsBytes es < 65536 := by unfold BTREE_PAGE_SIZE at hlen; omega
  have hkv := cellsBytes_eq_kv es
  have hbuild : buildNode len t es.length steps = .ok (image t es.length (ptrBytes es) (offBytes 0 es) (kvBytes es) len) := by
    rw [buildNode, setHeader_encode (by omega), except_ok_bind]
    exact appendAll_encode hfills [] (by simp) (by simpa using hS) (by simpa using hsmall)
  have hs : LaysOut (image t es.length (ptrBytes es) (offBytes 0 es) (kvBytes es) len) t es :=
    image_shows (by simp) (by simp) (by omega)
  refine ⟨_, hbuild, length_image (by simp) (by simp) (by omega), hs.btype_eq ht, hs.nkeys_eq,
    fun i e he => ?_, hs.nbytes_eq, fun i hi => ⟨hs.getOffset_cells (by omega) hi, hs.kvPos_cells (by omega) hi⟩⟩
  have hi := (List.getElem?_eq_some_iff.mp he).1
  exact ⟨hs.getPtr_cells he hi, hs.getKey_cells he, hs.getVal_cells he⟩

section Refines

variable {node : BNode}

theorem encode_laysOut (h : Filled node) : LaysOut (encode node) node.hdrType node.cells := by
  obtain ⟨t, n, cs, len⟩ := node
  have hs := h.small
  rw [size_eq, cellsBytes_eq_kv] at hs
  obtain rfl : n = cs.length := h.nkeys
  dsimp only at hs
  show LaysOut (image t cs.length (ptrBytes cs) (offBytes 0 cs) (kvBytes cs) len) t cs
  exact image_shows (by simp) (by simp) (by omega)

/-- The cell view refines the bytes: on the layout of a node that fits its buffer, each read
of the source returns what the cell view's read returns. -/
theorem encode_reads (h : Filled node) (ht : node.hdrType < 65536) :
    btype (encode node) = node.btype ∧ nkeys (encode node) = node.nkeys ∧ nbytes (encode node) = node.nbytes ∧
      (∀ i c, node.cells[i]? = some c → getPtr (encode node) i = node.getPtr i ∧
        getKey (encode node) i = node.getKey i ∧ getVal (encode node) i = node.getVal i) ∧
      ∀ i ≤ node.cells.length, getOffset (encode node) i = node.getOffset i ∧ kvPos (encode node) i = node.kvPos i := by
  have hs := encode_laysOut h
  have hlen := h.header
  have hk := h.nkeys
  refine ⟨?_, ?_, ?_, fun i c hc => ?_, fun i hi => ?_⟩
  · rw [hs.btype_eq ht, btype_eq (by unfold HEADER at hlen; omega)]
  · rw [hs.nkeys_eq, nkeys_eq (by unfold HEADER at hlen; omega), hk]
  · rw [hs.nbytes_eq, h.nbytes, size_eq]
  · have hi := (List.getElem?_eq_some_iff.mp hc).1
    rw [hs.getPtr_cells hc hi, hs.getKey_cells hc, hs.getVal_cells hc, getPtr_eq h hc, getKey_eq h hc, getVal_eq h hc]
    exact ⟨rfl, rfl, rfl⟩
  · rw [hs.getOffset_cells (by have := hs.small; omega) hi, hs.kvPos_cells hs.small hi, getOffset_eq hlen (hk ▸ hi) hi,
      kvPos_eq hlen (hk ▸ hi) hi, hk]
    exact ⟨rfl, rfl⟩

end Refines

/-- The byte-level step of a cell-level one: a source node is passed as its layout. -/
def Append.bytes : Append → Step
  | .kv ptr key val => .kv ptr key val
  | .range old src n => .range (encode old) src n

theorem fills_entries : ∀ {as : List Append}, (∀ a ∈ as, a.Sound) → Fills (as.map Append.bytes) (entries as)
  | [], _ => .nil
  | .kv .. :: _, h => .kv (fills_entries fun a ha => h a (List.mem_cons_of_mem _ ha))
  | .range old src n :: _, h =>
    have ⟨hold, hsrc⟩ := h (.range old src n) (List.mem_cons_self _ _)
    .range (encode_laysOut hold) hsrc (fills_entries fun a ha => h a (List.mem_cons_of_mem _ ha))

theorem buildNode_refines (len t n : Nat) (steps : List Append) (hsound : ∀ a ∈ steps, a.Sound)
    (hn : (entries steps).length = n) (hS : HEADER + cellsBytes (entries steps) ≤ len) (hlen : len ≤ 2 * BTREE_PAGE_SIZE) :
    Storage.buildNode len t n steps = .ok ⟨t, n, entries steps, len⟩ ∧
      buildNode len t n (steps.map Append.bytes) = .ok (encode ⟨t, n, entries steps, len⟩) := by
  refine ⟨Storage.buildNode_eq len t n steps hsound hn hS, ?_⟩
  have hkv := cellsBytes_eq_kv (entries steps)
  rw [buildNode, setHeader_encode (by omega), except_ok_bind]
  exact appendAll_encode (fills_entries hsound) [] (by simpa using hn) (by simpa using hS)
    (by unfold BTREE_PAGE_SIZE at hlen; simp; omega)

/-- A leaf of one cell in a buffer of 64 bytes. -/
def oneLeaf : BNode := ⟨BNODE_LEAF, 1, [⟨0, [5], [6]⟩], 64⟩

theorem one_leaf_reads : Filled oneLeaf ∧ oneLeaf.hdrType < 65536 ∧
    getKey (encode oneLeaf) 0 = oneLeaf.getKey 0 ∧ kvPos (encode oneLeaf) 1 = oneLeaf.kvPos 1 :=
  have hf : Filled oneLeaf := ⟨rfl, by decide, by decide⟩
  have ⟨_, _, _, hread, hoff⟩ := encode_reads hf (by decide)
  ⟨hf, by decide, (hread 0 _ rfl).2.1, (hoff 1 le_rfl).2⟩

def copyLeaf : Bytes := encode oneLeaf

/-- The two steps: a new entry at index 0, then the cell of `copyLeaf` at index 1. -/
def twoSteps : List Step := [.kv 0 [1] [2], .range copyLeaf 0 1]

theorem build_two_entries :
    Fills twoSteps [⟨0, [1], [2]⟩, ⟨0, [5], [6]⟩] ∧ BNODE_LEAF < 65536 ∧
      HEADER + cellsBytes [⟨0, [1], [2]⟩, ⟨0, [5], [6]⟩] ≤ 64 ∧ 64 ≤ 2 * BTREE_PAGE_SIZE ∧
      ∃ data, buildNode 64 BNODE_LEAF 2 twoSteps = .ok data ∧ getKey data 1 = .ok [5] ∧ getVal data 0 = .ok [2] :=
  have hl : LaysOut copyLeaf BNODE_LEAF [⟨0, [5], [6]⟩] := encode_laysOut (show Filled oneLeaf from ⟨rfl, by decide, by decide⟩)
  have hfills : Fills twoSteps [⟨0, [1], [2]⟩, ⟨0, [5], [6]⟩] := .kv (.range hl (by decide) .nil)
  have ⟨data, hdata, _, _, _, hread, _⟩ :=
    buildNode_reads 64 BNODE_LEAF 2 twoSteps _ hfills (by decide) rfl (by decide) (by decide)
  ⟨hfills, by decide, by decide, by decide, data, hdata, (hread 1 _ rfl).2.1, (hread 0 _ rfl).2.2⟩

end GoMiniDb.Storage.Layout
