import IonaOs.Lib.Run

/-!
# Block devices
-/

namespace IonaOs.Lib

open List

/-- `bytes[off..off + len]`. -/
def slice (bytes : List UInt8) (off len : ℕ) : List UInt8 := (bytes.drop off).take len

variable {bytes : List UInt8} {len off : ℕ}

theorem length_slice (h : off + len ≤ bytes.length) : (slice bytes off len).length = len := by
  rw [slice, length_take, length_drop]
  omega

theorem slice_append_left {xs ys : List UInt8} (h : off + len ≤ xs.length) :
    slice (xs ++ ys) off len = slice xs off len := by
  rw [slice, drop_append_of_le_length (by omega), take_append_of_le_length, slice]
  rw [length_drop]
  omega

theorem slice_append_right (xs ys : List UInt8) (off len : ℕ) :
    slice (xs ++ ys) (xs.length + off) len = slice ys off len := by
  rw [slice, drop_length_add_append, slice]

theorem slice_slice {off' len' : ℕ} (h : off' + len' ≤ len) :
    slice (slice bytes off len) off' len' = slice bytes (off + off') len' := by
  rw [slice, slice, drop_take, take_take, drop_drop, slice]
  congr 1
  omega

theorem slice_self (h : bytes.length = len) : slice bytes 0 len = bytes := by
  rw [slice, drop_zero, take_of_length_le h.le]

theorem slice_replicate {n : ℕ} {b : UInt8} (h : off + len ≤ n) :
    slice (replicate n b) off len = replicate len b := by
  rw [slice, drop_replicate, take_replicate]
  congr 1
  omega

/-! ## Records of one size -/

variable {i : ℕ}

theorem slice_flatMap {α : Type*} {f : α → List UInt8} {size : ℕ} (hf : ∀ x, (f x).length = size)
    {xs : List α} {x : α} (h : xs[i]? = some x) (rest : List UInt8) :
    slice (xs.flatMap f ++ rest) (i * size) size = f x := by
  induction xs generalizing i with
  | nil => simp at h
  | cons y _ ih =>
    rw [flatMap_cons, append_assoc]
    cases i with
    | zero =>
      simp only [getElem?_cons_zero, Option.some.injEq] at h
      subst h
      rw [zero_mul, slice_append_left (by rw [hf]; omega), slice_self (hf y)]
    | succ i =>
      have hoff : (i + 1) * size = (f y).length + i * size := by rw [hf]; ring
      rw [hoff, slice_append_right]
      exact ih (by simpa using h)

theorem length_flatMap_const {α : Type*} {f : α → List UInt8} {size : ℕ}
    (hf : ∀ x, (f x).length = size) (xs : List α) : (xs.flatMap f).length = xs.length * size := by
  induction xs with
  | nil => simp
  | cons _ _ ih => rw [flatMap_cons, length_append, hf, ih, length_cons]; ring

theorem filterMap_range_getElem? {α : Type*} (l : List α) :
    (range l.length).filterMap (fun i => l[i]?) = l := by
  induction l using reverseRecOn with
  | nil => rfl
  | append_singleton l a ih =>
    rw [length_append, length_singleton, range_succ, filterMap_append]
    congr 1
    · conv_rhs => rw [← ih]
      refine filterMap_congr fun i hi => ?_
      rw [getElem?_append_left (by simpa using hi)]
    · simp

/-! ## Blocks -/

/-- A block of `n` bytes. -/
def DiskBlock (n : ℕ) : Type := { bytes : List UInt8 // bytes.length = n }

variable {n : ℕ}

def DiskBlock.pad (n : ℕ) (bytes : List UInt8) : DiskBlock n :=
  ⟨(bytes ++ List.replicate n 0).take n, by simp⟩

theorem DiskBlock.pad_val (h : bytes.length ≤ n) :
    (DiskBlock.pad n bytes).1 = bytes ++ replicate (n - bytes.length) 0 := by
  simp only [DiskBlock.pad, take_append, take_of_length_le h, take_replicate]
  congr 2
  omega

theorem DiskBlock.pad_of_length (h : bytes.length = n) : (DiskBlock.pad n bytes).1 = bytes := by
  simp [DiskBlock.pad_val h.le, h]

theorem DiskBlock.slice_pad (hn : bytes.length ≤ n) (h : off + len ≤ bytes.length) :
    slice (DiskBlock.pad n bytes).1 off len = slice bytes off len := by
  rw [DiskBlock.pad_val hn, slice_append_left h]

/-! ## Disks -/

def Disk (n : ℕ) : Type := ℕ → DiskBlock n

def Disk.write (d : Disk n) (w : ℕ × DiskBlock n) : Disk n := Function.update d w.1 w.2

variable {d : Disk n}

theorem Disk.write_of_ne {w : ℕ × DiskBlock n} {a : ℕ} (h : a ≠ w.1) :
    d.write w a = d a := Function.update_of_ne h _ _

@[simp] theorem Disk.write_self {a : ℕ} {b : DiskBlock n} : d.write (a, b) a = b :=
  Function.update_self _ _ _

theorem exec_write_of_notMem {ws : List (ℕ × DiskBlock n)} {a : ℕ} (h : ∀ w ∈ ws, w.1 ≠ a) :
    exec Disk.write d ws a = d a := by
  induction ws generalizing d with
  | nil => rfl
  | cons w _ ih =>
    rw [exec_cons, ih fun w' hw' => h w' (mem_cons_of_mem _ hw')]
    exact Disk.write_of_ne (h w mem_cons_self).symm

/-- Write consecutive blocks, from `base` on. -/
def blocksAt (base count : ℕ) (f : ℕ → DiskBlock n) : List (ℕ × DiskBlock n) :=
  (List.range count).map fun i => (base + i, f i)

variable {f : ℕ → DiskBlock n} {count base : ℕ}

theorem length_blocksAt : (blocksAt base count f).length = count := by simp [blocksAt]

theorem take_blocksAt {k : ℕ} : (blocksAt base count f).take k = blocksAt base (min k count) f := by
  rw [blocksAt, ← map_take, take_range, blocksAt]

theorem mem_blocksAt {w : ℕ × DiskBlock n} (h : w ∈ blocksAt base count f) :
    base ≤ w.1 ∧ w.1 < base + count := by
  simp only [blocksAt, mem_map, mem_range] at h
  obtain ⟨i, hi, rfl⟩ := h
  exact ⟨Nat.le_add_right _ _, by omega⟩

theorem exec_blocksAt_of_lt (h : i < count) :
    exec Disk.write d (blocksAt base count f) (base + i) = f i := by
  induction count with
  | zero => omega
  | succ count ih =>
    rw [blocksAt, range_succ, map_append, exec_append]
    simp only [map_cons, map_nil, exec_cons, exec_nil]
    by_cases hlast : i = count
    · subst hlast
      rw [Disk.write_self]
    · rw [Disk.write_of_ne (by simp only; omega)]
      exact ih (by omega)

/-! ## Reading -/

def readBlocks (d : Disk n) (base count : ℕ) : List UInt8 :=
  (List.range count).flatMap fun i => (d (base + i)).1

theorem length_readBlocks (d : Disk n) (base count : ℕ) :
    (readBlocks d base count).length = count * n := by
  rw [readBlocks, length_flatMap_const fun i => (d (base + i)).2, length_range]

theorem readBlocks_succ (d : Disk n) (base count : ℕ) :
    readBlocks d base (count + 1) = readBlocks d base count ++ (d (base + count)).1 := by
  simp [readBlocks, range_succ]

theorem slice_readBlocks (hi : i < count) (h : off + len ≤ n) :
    slice (readBlocks d base count) (i * n + off) len = slice (d (base + i)).1 off len := by
  have hblock : slice (readBlocks d base count) (i * n) n = (d (base + i)).1 := by
    have hget : (range count)[i]? = some i := getElem?_range hi
    have := slice_flatMap (fun j => (d (base + j)).2) hget []
    rwa [append_nil] at this
  rw [← hblock, slice_slice h]

theorem take_readBlocks (hcount : bytes.length ≤ count * n)
    (h : ∀ i < count, d (base + i) = DiskBlock.pad n (slice bytes (i * n) n)) :
    (readBlocks d base count).take bytes.length = bytes := by
  -- the first blocks hold the bytes up to their length
  have hread : ∀ m ≤ count, (readBlocks d base m).take bytes.length = bytes.take (m * n) := by
    intro m hm
    induction m with
    | zero => simp [readBlocks]
    | succ m ih =>
      have hlen : (slice bytes (m * n) n).length = min n (bytes.length - m * n) := by
        rw [slice, length_take, length_drop]
      have hall : (slice bytes (m * n) n).take (bytes.length - m * n) = slice bytes (m * n) n :=
        take_of_length_le (by omega)
      rw [readBlocks_succ, take_append, ih (by omega), length_readBlocks, h m (by omega),
        DiskBlock.pad_val (by omega), take_append, hall, add_mul, one_mul, take_add]
      -- behind a short block nothing is left to read, behind a full one nothing is filled up
      have hzeros : (replicate (n - (slice bytes (m * n) n).length) (0 : UInt8)).take
          (bytes.length - m * n - (slice bytes (m * n) n).length) = [] := by
        rw [take_replicate, replicate_eq_nil_iff]
        omega
      rw [hzeros, append_nil, slice]
  rw [hread count le_rfl, take_of_length_le hcount]

end IonaOs.Lib
