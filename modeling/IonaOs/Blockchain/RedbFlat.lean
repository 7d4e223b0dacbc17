import IonaOs.Blockchain.RedbAdapter

/-!
# The database file is a flat byte array
-/

namespace IonaOs.Blockchain

open Std Lib Fs ExtTreeMap

variable {mem : ℕ → UInt8} {r r' : Redb} {fs : Files} {dbName : String}

/-! ## Paths -/

variable {p q : ℕ}

theorem pagePath_inj : pagePath dbName p = pagePath dbName q ↔ p = q := by
  refine ⟨fun h => ?_, fun h => h ▸ rfl⟩
  simp only [pagePath, String.append_right_inj] at h
  exact Nat.repr_injective h

theorem superPath_ne_pagePath (p : ℕ) : superPath dbName ≠ pagePath dbName p := by
  intro h
  simp only [pagePath, superPath, String.append_assoc, String.append_right_inj] at h
  have := congrArg String.toList h
  simp [String.toList_append] at this

@[simp] theorem write_pagePath_superPath (p : ℕ) (data : List UInt8) :
    fs.write (pagePath dbName p) data (superPath dbName) = fs (superPath dbName) :=
  Files.write_of_ne (superPath_ne_pagePath p) data

@[simp] theorem write_superPath_pagePath (p : ℕ) (data : List UInt8) :
    fs.write (superPath dbName) data (pagePath dbName p) = fs (pagePath dbName p) :=
  Files.write_of_ne (superPath_ne_pagePath p).symm data

theorem storedPages_congr {fs' : Files} (h : fs' (superPath dbName) = fs (superPath dbName)) :
    storedPages fs' dbName = storedPages fs dbName := by
  rw [storedPages, storedPages, h]

/-! ## Pages of a memory -/

/-- Page `p` of the memory. -/
def pageOf (mem : ℕ → UInt8) (p : ℕ) : List UInt8 := window mem (p * pageSize) pageSize

/-- Page `p` as the files have it. -/
def storedPage (fs : Files) (dbName : String) (p : ℕ) : List UInt8 :=
  (fs (pagePath dbName p)).getD (List.replicate pageSize 0)

theorem storedPage_write (fs : Files) (dbName : String) (p : ℕ) (data : List UInt8) :
    storedPage (fs.write (pagePath dbName p) data) dbName p = data := by
  simp [storedPage]

theorem storedPage_write_of_ne (fs : Files) (dbName : String) (h : q ≠ p) (data : List UInt8) :
    storedPage (fs.write (pagePath dbName p) data) dbName q = storedPage fs dbName q := by
  rw [storedPage, Files.write_of_ne (mt pagePath_inj.mp h), storedPage]

@[simp] theorem length_pageOf (p : ℕ) : (pageOf mem p).length = pageSize := length_window

theorem page_pos (pos : ℕ) : pos / pageSize * pageSize + pos % pageSize = pos :=
  Nat.div_add_mod' pos pageSize

theorem mod_page_lt (pos : ℕ) : pos % pageSize < pageSize := Nat.mod_lt _ (by decide)

variable {pos : ℕ}

theorem slice_pageOf {n : ℕ} (h : pos % pageSize + n ≤ pageSize) :
    slice (pageOf mem (pos / pageSize)) (pos % pageSize) n = window mem pos n := by
  rw [slice, pageOf, drop_window (by omega), take_window (by omega), page_pos]

variable {data : List UInt8}

section

variable (h : pos % pageSize + data.length ≤ pageSize)
include h

theorem overwritePage_pageOf :
    Redb.overwritePage (pageOf mem (pos / pageSize)) (pos % pageSize) data =
      pageOf (patch mem pos data) (pos / pageSize) := by
  have hcover := window_patch_of_covers mem (pos / pageSize * pageSize) h
  rw [page_pos] at hcover
  rw [Redb.overwritePage, length_pageOf, Nat.sub_self, List.replicate_zero, List.append_nil, pageOf,
    pageOf, hcover]

theorem pageOf_patch_of_ne (hp : p ≠ pos / pageSize) :
    pageOf (patch mem pos data) p = pageOf mem p := by
  apply window_patch_of_apart
  have hpos := page_pos pos
  obtain hlt | hlt := Nat.lt_or_gt_of_ne hp
  · have : (p + 1) * pageSize ≤ pos / pageSize * pageSize := Nat.mul_le_mul_right _ hlt
    exact .inl (by rw [Nat.add_mul] at this; omega)
  · have : (pos / pageSize + 1) * pageSize ≤ p * pageSize := Nat.mul_le_mul_right _ hlt
    exact .inr (by rw [Nat.add_mul] at this; omega)

end

/-! ## The cache -/

theorem PageCache.pages_insert {c : PageCache} {page : ℕ} {x : List UInt8}
    (h : (c.insert page data).2.pages[q]? = some x) :
    (q = page ∧ x = data) ∨ (q ≠ page ∧ c.pages[q]? = some x) := by
  have hinsert : ∀ pages : ExtTreeMap ℕ (List UInt8) compare,
      (pages.insert page data)[q]? = some x →
        (q = page ∧ x = data) ∨ (q ≠ page ∧ pages[q]? = some x) := by
    intro pages hq
    simp only [getElem?_insert, Std.compare_eq_iff_eq] at hq
    split at hq
    · next heq => exact .inl ⟨heq.symm, (Option.some.inj hq).symm⟩
    · next hne => exact .inr ⟨Ne.symm hne, hq⟩
  simp only [insert] at h
  split at h
  · exact hinsert _ h
  split at h
  · split at h
    · exact hinsert _ h
    refine (hinsert _ h).imp_right fun ⟨hne, hq⟩ => ⟨hne, ?_⟩
    rw [getElem?_erase] at hq
    split at hq
    · cases hq
    · exact hq
  · exact hinsert _ h

/-! ## The invariant -/

/-- The files hold the memory, in `n` pages. -/
structure Stored (dbName : String) (mem : ℕ → UInt8) (n : ℕ) (fs : Files) : Prop where
  page : ∀ p, storedPage fs dbName p = pageOf mem p
  count : storedPages fs dbName = n
  small : n < 2 ^ 52
  beyond : ∀ i, n * pageSize ≤ i → mem i = 0

structure Holds (mem : ℕ → UInt8) (r : Redb) : Prop where
  dirty : ∀ p data, r.db.dirty[p]? = some data → data = pageOf mem p
  cached : ∀ p data, r.db.cache.pages[p]? = some data → data = pageOf mem p
  stored : ∀ p, r.db.dirty[p]? = none → storedPage r.fs r.db.dbName p = pageOf mem p
  count : storedPages r.fs r.db.dbName = r.db.numPages
  small : r.db.numPages < 2 ^ 52
  beyond : ∀ i, r.db.numPages * pageSize ≤ i → mem i = 0
  flushed : r.db.closed = true → ∀ p : ℕ, r.db.dirty[p]? = none

structure Redb.Grows (r r' : Redb) : Prop where
  name : r'.db.dbName = r.db.dbName
  pages : r.db.numPages ≤ r'.db.numPages
  closed : r'.db.closed = r.db.closed

namespace Redb.Grows

theorem refl (r : Redb) : r.Grows r := ⟨rfl, le_rfl, rfl⟩

theorem trans {r₁ r₂ r₃ : Redb} (h : r₁.Grows r₂) (h' : r₂.Grows r₃) : r₁.Grows r₃ :=
  ⟨h'.name.trans h.name, h.pages.trans h'.pages, h'.closed.trans h.closed⟩

theorem markDirty (r : Redb) (page : ℕ) (data : List UInt8) :
    r.Grows ((r.cachePage page data).markDirty page data) := ⟨rfl, le_rfl, rfl⟩

end Redb.Grows

namespace Holds

section

variable (h : Holds mem r)
include h

theorem len_eq : r.db.len = r.db.numPages * pageSize := by
  have := h.small
  rw [IonafsDatabaseFile.len, pageSize, Nat.mod_eq_of_lt (by omega)]

theorem toStored (hdirty : ∀ p : ℕ, r.db.dirty[p]? = none) :
    Stored r.db.dbName mem r.db.numPages r.fs :=
  ⟨fun p => h.stored p (hdirty p), h.count, h.small, h.beyond⟩

/-! ### Reading -/

theorem cachePage (hdata : data = pageOf mem p) : Holds mem (r.cachePage p data) := by
  refine ⟨h.dirty, fun q x hq => ?_, h.stored, h.count, h.small, h.beyond, h.flushed⟩
  obtain ⟨rfl, rfl⟩ | ⟨-, hq⟩ := PageCache.pages_insert hq
  · exact hdata
  · exact h.cached q x hq

theorem readPage (p : ℕ) :
    (r.readPage p).1 = pageOf mem p ∧ Holds mem (r.readPage p).2 ∧ r.Grows (r.readPage p).2 := by
  rw [Redb.readPage]
  split
  · next data hdata => exact ⟨h.dirty p data hdata, h, .refl r⟩
  next hdirty =>
    split
    · next data hdata => exact ⟨h.cached p data hdata, h, .refl r⟩
    · exact ⟨h.stored p hdirty, h.cachePage (h.stored p hdirty), rfl, le_rfl, rfl⟩

theorem readLoop {offset len : ℕ} {result : List UInt8} {fuel : ℕ}
    (hresult : result = window mem offset result.length) (hle : result.length ≤ len)
    (hfuel : len < result.length + fuel) :
    ∃ r', Redb.readLoop len fuel r (offset + result.length) result =
        some (window mem offset len, r') ∧ Holds mem r' ∧ r.Grows r' := by
  induction fuel generalizing r result with
  | zero => omega
  | succ _ ih =>
    rw [Redb.readLoop]
    split
    · next hlt =>
        obtain ⟨hdata, hnext, hgrows⟩ := h.readPage ((offset + result.length) / pageSize)
        have hoff := mod_page_lt (offset + result.length)
        simp only [hdata, length_pageOf]
        set pos := offset + result.length with hpos
        set n := min (pageSize - pos % pageSize) (len - result.length) with hn
        have hstop : min (pos % pageSize + n) pageSize = pos % pageSize + n := by omega
        rw [hstop, if_pos (by omega), Nat.add_sub_cancel_left, slice_pageOf (by omega)]
        have hlen : (result ++ window mem pos n).length = result.length + n := by simp
        obtain ⟨r', hrun, hr', hgrows'⟩ := ih hnext
          (by rw [hlen, ← window_append, ← hresult]) (by rw [hlen]; omega) (by rw [hlen]; omega)
        rw [hlen, ← Nat.add_assoc] at hrun
        exact ⟨r', hrun, hr', hgrows.trans hgrows'⟩
    · next hge =>
        have heq : result.length = len := by omega
        exact ⟨r, by rw [← heq, ← hresult], h, .refl r⟩

theorem readAt (hopen : r.db.closed = false) (offset len : ℕ) :
    ∃ r', r.readAt offset len = some (.ok (window mem offset len), r') ∧ Holds mem r' ∧
      r.Grows r' := by
  rw [Redb.readAt, if_neg (by simp [hopen])]
  split
  · next hbeyond =>
      rw [h.len_eq] at hbeyond
      have hzero : window mem offset len = List.replicate len 0 :=
        window_eq_replicate fun i hi => h.beyond i (by omega)
      exact ⟨r, by rw [hzero], h, .refl r⟩
  · have hempty : [] = window mem offset ([] : List UInt8).length := rfl
    have hfuel : len < ([] : List UInt8).length + (len + 1) := by simp
    obtain ⟨r', hrun, hr', hgrows⟩ := h.readLoop hempty (Nat.zero_le len) hfuel
    exact ⟨r', congrArg _ hrun, hr', hgrows⟩

end

/-! ### Storing pages -/

section

variable (h : Holds mem r)
include h

theorem flushPage {e : ℕ × List UInt8} (he : e.2 = pageOf mem e.1) : Holds mem (r.flushPage e) := by
  have herase : ∀ q : ℕ, (r.flushPage e).db.dirty[q]? =
      if compare e.1 q = .eq then none else r.db.dirty[q]? := fun q => getElem?_erase
  refine ⟨fun q x hq => ?_, h.cached, fun q hq => ?_, ?_, h.small, h.beyond, fun hclosed q => ?_⟩
  · rw [herase] at hq
    split at hq
    · cases hq
    · exact h.dirty q x hq
  · by_cases hp : q = e.1
    · rw [hp, ← he]
      exact storedPage_write ..
    · rw [herase, if_neg fun heq => hp (Std.compare_eq_iff_eq.mp heq).symm] at hq
      exact (storedPage_write_of_ne _ _ hp _).trans (h.stored q hq)
  · exact (storedPages_congr (write_pagePath_superPath ..)).trans h.count
  · rw [herase, h.flushed hclosed q, ite_self]

theorem flushPages {es : List (ℕ × List UInt8)} (hes : ∀ e ∈ es, e.2 = pageOf mem e.1) :
    Holds mem (exec Redb.flushPage r es) ∧ r.Grows (exec Redb.flushPage r es) ∧
      ∀ p x, (exec Redb.flushPage r es).db.dirty[p]? = some x →
        p ∉ es.map (·.1) ∧ r.db.dirty[p]? = some x := by
  induction es generalizing r with
  | nil => exact ⟨h, .refl r, fun p x hp => ⟨by simp, hp⟩⟩
  | cons e _ ih =>
    obtain ⟨hholds, hgrows, hleft⟩ :=
      ih (h.flushPage (hes e (by simp))) fun e he => hes e (by simp [he])
    have hturn : r.Grows (r.flushPage e) := ⟨rfl, le_rfl, rfl⟩
    refine ⟨hholds, hturn.trans hgrows, fun p x hp => ?_⟩
    obtain ⟨hnotin, hdirty⟩ := hleft p x hp
    rw [Redb.flushPage, getElem?_erase] at hdirty
    split at hdirty
    · cases hdirty
    next hne =>
      refine ⟨?_, hdirty⟩
      rw [List.map_cons, List.mem_cons, not_or]
      exact ⟨fun heq => hne (Std.compare_eq_iff_eq.mpr heq.symm), hnotin⟩

theorem resize {n : ℕ} (hle : r.db.numPages ≤ n) (hn : n < 2 ^ 52) :
    Holds mem { r with db := { r.db with numPages := n } }.writeSuperblock := by
  refine ⟨h.dirty, h.cached, fun p hp => ?_, ?_, hn, fun i hi => ?_, h.flushed⟩
  · rw [← h.stored p hp]
    exact congrArg (Option.getD · _) (write_superPath_pagePath ..)
  · have hbytes : slice (leBytes 8 n ++ leBytes 8 pageSize) 0 8 = leBytes 8 n := by
      rw [slice_append_left (by simp), slice_self (by simp)]
    simp only [storedPages, Redb.writeSuperblock, Files.write_self, Option.bind_some,
      List.length_append, length_leBytes, hbytes]
    rw [if_pos (by decide), Option.getD_some, leNat_leBytes (by omega)]
  · exact h.beyond i ((Nat.mul_le_mul_right _ hle).trans hi)

theorem flush (hopen : r.db.closed = false) :
    ∃ r', r.flush = (.ok (), r') ∧ Holds mem r' ∧ r.Grows r' ∧
      ∀ p : ℕ, r'.db.dirty[p]? = none := by
  rw [Redb.flush, if_neg (by simp [hopen])]
  have hlisted : ∀ e ∈ r.db.dirty.toList, r.db.dirty[e.1]? = some e.2 := fun e he =>
    mem_toList_iff_getElem?_eq_some.mp he
  dsimp only
  split
  · next hempty =>
      refine ⟨r, rfl, h, .refl r, fun p => ?_⟩
      rw [List.isEmpty_iff, toList_eq_nil_iff] at hempty
      simp [hempty]
  · obtain ⟨hholds, hgrows, hleft⟩ := h.flushPages fun e he => h.dirty e.1 e.2 (hlisted e he)
    refine ⟨_, rfl, hholds.resize le_rfl hholds.small, ⟨hgrows.name, hgrows.pages, hgrows.closed⟩,
      fun p => Option.eq_none_iff_forall_ne_some.mpr fun x hp => ?_⟩
    obtain ⟨hnotin, hdirty⟩ := hleft p x hp
    exact hnotin (List.mem_map.mpr ⟨(p, x), mem_toList_iff_getElem?_eq_some.mpr hdirty, rfl⟩)

theorem growPages {ps : List ℕ} (hps : ∀ p ∈ ps, pageOf mem p = List.replicate pageSize 0) :
    Holds mem (exec Redb.growPage r ps) ∧ (exec Redb.growPage r ps).db = r.db := by
  induction ps generalizing r with
  | nil => exact ⟨h, rfl⟩
  | cons p _ ih =>
    have hnext : Holds mem (r.growPage p) := by
      refine ⟨h.dirty, h.cached, fun q hq => ?_, ?_, h.small, h.beyond, h.flushed⟩
      · by_cases hqp : q = p
        · rw [hqp, hps p (by simp)]
          exact storedPage_write ..
        · exact (storedPage_write_of_ne _ _ hqp _).trans (h.stored q hq)
      · exact (storedPages_congr (write_pagePath_superPath ..)).trans h.count
    exact ih hnext fun q hq => hps q (by simp [hq])

theorem growTo (hopen : r.db.closed = false) (newSize : ℕ) :
    ∃ r', r.growTo newSize = (.ok (), r') ∧ Holds mem r' ∧ r.Grows r' ∧
      (newSize < 2 ^ 63 → newSize ≤ r'.db.numPages * pageSize) := by
  rw [Redb.growTo, if_neg (by simp [hopen])]
  have hcovers : newSize < 2 ^ 63 →
      newSize ≤ (newSize + pageSize - 1) % 2 ^ 64 / pageSize * pageSize := by
    simp only [pageSize]
    omega
  have hsmall : (newSize + pageSize - 1) % 2 ^ 64 / pageSize < 2 ^ 52 := by
    simp only [pageSize]
    omega
  dsimp only
  set newPages := (newSize + pageSize - 1) % 2 ^ 64 / pageSize
  split
  · next hle =>
      exact ⟨r, rfl, h, .refl r, fun hlt => (hcovers hlt).trans (Nat.mul_le_mul_right _ hle)⟩
  next hlt =>
    have hzero : ∀ p ∈ List.range' r.db.numPages (newPages - r.db.numPages),
        pageOf mem p = List.replicate pageSize 0 := by
      intro p hp
      rw [List.mem_range'_1] at hp
      exact window_eq_replicate fun i hi =>
        h.beyond i ((Nat.mul_le_mul_right _ hp.1).trans hi)
    obtain ⟨hholds, hdb⟩ := h.growPages hzero
    have hle : (exec Redb.growPage r (List.range' r.db.numPages
        (newPages - r.db.numPages))).db.numPages ≤ newPages := by
      rw [hdb]
      omega
    refine ⟨_, rfl, hholds.resize hle hsmall, ⟨?_, by change _ ≤ newPages; omega, ?_⟩, hcovers⟩
    · exact congrArg (·.dbName) hdb
    · exact congrArg (·.closed) hdb

end

/-! ### Writing -/

variable {data : List UInt8}

section

variable (h : Holds mem r)
include h

section

variable (hopen : r.db.closed = false)
include hopen

theorem writePage {chunk : List UInt8} (hin : pos % pageSize + chunk.length ≤ pageSize)
    (hend : pos + chunk.length ≤ r.db.numPages * pageSize)
    (hdata : data = pageOf (patch mem pos chunk) (pos / pageSize)) : Holds (patch mem pos chunk)
      ((r.cachePage (pos / pageSize) data).markDirty (pos / pageSize) data) := by
  have hother : ∀ q, q ≠ pos / pageSize → pageOf (patch mem pos chunk) q = pageOf mem q :=
    fun q hq => pageOf_patch_of_ne hin hq
  have hold : ∀ q x, x = pageOf mem q → q ≠ pos / pageSize →
      x = pageOf (patch mem pos chunk) q := fun q x hx hq => hx.trans (hother q hq).symm
  refine ⟨fun q x hq => ?_, fun q x hq => ?_, fun q hq => ?_, h.count, h.small, fun i hi => ?_,
    fun hclosed => ?_⟩
  · simp only [Redb.markDirty, getElem?_insert, Std.compare_eq_iff_eq] at hq
    split at hq
    · next heq => rw [← Option.some.inj hq, ← heq, hdata]
    · next hne => exact hold q x (h.dirty q x hq) (Ne.symm hne)
  · obtain ⟨rfl, rfl⟩ | ⟨hne, hq⟩ := PageCache.pages_insert hq
    · exact hdata
    · exact hold q x (h.cached q x hq) hne
  · simp only [Redb.markDirty, getElem?_insert, Std.compare_eq_iff_eq] at hq
    split at hq
    · cases hq
    · next hne => rw [hother q (Ne.symm hne)]; exact h.stored q hq
  · rw [patch_of_le (hend.trans hi)]
    exact h.beyond i hi
  · exact absurd (hopen.symm.trans hclosed) (by simp)

theorem flushIfFull :
    ∃ r', (if r.db.config.maxDirtyPages ≤ r.db.dirty.size then r.flush else (.ok (), r)) =
      (.ok (), r') ∧ Holds mem r' ∧ r.Grows r' := by
  split
  · obtain ⟨r', hflush, hr', hgrows, -⟩ := h.flush hopen
    exact ⟨r', hflush, hr', hgrows⟩
  · exact ⟨r, rfl, h, .refl r⟩

theorem writeLoop {src fuel : ℕ} (hsrc : src ≤ data.length)
    (hend : pos + (data.length - src) ≤ r.db.numPages * pageSize)
    (hfuel : data.length < src + fuel) :
    ∃ r', Redb.writeLoop data fuel r pos src = some (.ok (), r') ∧
      Holds (patch mem pos (data.drop src)) r' ∧ r.Grows r' := by
  induction fuel generalizing mem r pos src with
  | zero => omega
  | succ _ ih =>
    rw [Redb.writeLoop]
    split
    · next hlt =>
        obtain ⟨hdata, hread, hgrows⟩ := h.readPage (pos / pageSize)
        have hoff := mod_page_lt pos
        simp only [hdata]
        set n := min (pageSize - pos % pageSize) (data.length - src) with hn
        have hchunk : (slice data src n).length = n := length_slice (by omega)
        have hpages := Nat.mul_le_mul_right pageSize hgrows.pages
        have hin : pos % pageSize + (slice data src n).length ≤ pageSize := by omega
        have hfits : pos + (slice data src n).length ≤
            (r.readPage (pos / pageSize)).2.db.numPages * pageSize := by omega
        rw [overwritePage_pageOf hin]
        have hwrite := hread.writePage (hgrows.closed.trans hopen) hin hfits rfl
        obtain ⟨r₁, hfull, hr₁, hgrows₁⟩ := hwrite.flushIfFull (hgrows.closed.trans hopen)
        have hgrows₁ : r.Grows r₁ := hgrows.trans ((Redb.Grows.markDirty ..).trans hgrows₁)
        have hpages₁ := Nat.mul_le_mul_right pageSize hgrows₁.pages
        rw [hfull]
        obtain ⟨r', hrun, hr', hgrows'⟩ := ih hr₁ (hgrows₁.closed.trans hopen)
          (by omega : src + n ≤ data.length) (by omega : pos + n + _ ≤ _) (by omega)
        refine ⟨r', hrun, ?_, hgrows₁.trans hgrows'⟩
        have hrest : data.drop src = slice data src n ++ data.drop (src + n) := by
          rw [slice, ← List.drop_drop, List.take_append_drop]
        rwa [hrest, ← patch_patch, hchunk]
    · next hge =>
        rw [List.drop_of_length_le (by omega), patch_nil]
        exact ⟨r, rfl, h, .refl r⟩

theorem writeAt {offset : ℕ} (hend : offset + data.length < 2 ^ 63) :
    ∃ r', r.writeAt offset data = some (.ok (), r') ∧ Holds (patch mem offset data) r' ∧
      r.Grows r' := by
  rw [Redb.writeAt, if_neg (by simp [hopen])]
  dsimp only
  rw [Nat.mod_eq_of_lt (by omega)]
  have hgrown : ∃ r₁, (if r.db.len < offset + data.length then r.growTo (offset + data.length)
      else (.ok (), r)) = (.ok (), r₁) ∧ Holds mem r₁ ∧ r.Grows r₁ ∧
        offset + data.length ≤ r₁.db.numPages * pageSize := by
    split
    · obtain ⟨r₁, hgrow, hr₁, hgrows, hlong⟩ := h.growTo hopen (offset + data.length)
      exact ⟨r₁, hgrow, hr₁, hgrows, hlong hend⟩
    · next hlong => exact ⟨r, rfl, h, .refl r, by rw [← h.len_eq]; omega⟩
  obtain ⟨r₁, hgrow, hr₁, hgrows, hlong⟩ := hgrown
  rw [hgrow]
  obtain ⟨r', hrun, hr', hgrows'⟩ := hr₁.writeLoop (hgrows.closed.trans hopen)
    (Nat.zero_le data.length) (by omega) (by omega : data.length < 0 + (data.length + 1))
  exact ⟨r', hrun, hr', hgrows.trans hgrows'⟩

end

/-! ### Closing -/

theorem close : Holds mem r.close.2 ∧ r.close.2.db.dbName = r.db.dbName ∧
      r.db.numPages ≤ r.close.2.db.numPages ∧ r.close.2.db.closed = true := by
  rw [Redb.close]
  split
  · next hclosed => exact ⟨h, rfl, le_rfl, hclosed⟩
  next hopen =>
    obtain ⟨r', hflush, hr', hgrows, hclean⟩ := h.flush (by simpa using hopen)
    rw [hflush]
    exact ⟨⟨hr'.dirty, hr'.cached, hr'.stored, hr'.count, hr'.small, hr'.beyond,
      fun _ => hclean⟩, hgrows.name, hgrows.pages, rfl⟩

theorem drop : ∃ n, Stored r.db.dbName mem n r.drop ∧ r.db.numPages ≤ n := by
  rw [Redb.drop]
  split
  · next hclosed => exact ⟨_, h.toStored (h.flushed hclosed), le_rfl⟩
  · obtain ⟨hholds, hname, hle, hclosed⟩ := h.close
    rw [← hname]
    exact ⟨_, hholds.toStored (hholds.flushed hclosed), hle⟩

end

end Holds

namespace Stored

variable {n : ℕ}

theorem openFile (h : Stored dbName mem n fs) {cfg : RedbAdapterConfig} {db : IonafsDatabaseFile}
    (hdb : IonafsDatabaseFile.openFile fs dbName cfg = .ok db) :
    Holds mem ⟨fs, db⟩ ∧ db.dbName = dbName ∧ db.numPages = n ∧ db.closed = false := by
  rw [IonafsDatabaseFile.openFile] at hdb
  split at hdb
  · cases hdb
  cases hdb
  refine ⟨⟨by simp, fun p data hp => ?_, fun p _ => h.page p, rfl, h.count ▸ h.small,
    h.count ▸ h.beyond, by simp⟩, rfl, h.count, rfl⟩
  simp [PageCache.new] at hp

theorem create (h : Stored dbName mem n fs) (cfg : RedbAdapterConfig) :
    (∃ e, IonafsDatabaseFile.create fs dbName cfg = (.error e, fs)) ∨
    ∃ r, IonafsDatabaseFile.create fs dbName cfg = (.ok r.db, r.fs) ∧ Holds mem r ∧
      r.db.dbName = dbName ∧ n ≤ r.db.numPages := by
  rw [IonafsDatabaseFile.create]
  split
  · exact .inl ⟨_, rfl⟩
  split
  · exact .inl ⟨_, rfl⟩
  next db hdb =>
    obtain ⟨hholds, hname, hpages, hopen⟩ := h.openFile hdb
    obtain ⟨r, hgrow, hr, hgrows, -⟩ := hholds.growTo hopen (2 * pageSize)
    rw [hgrow]
    exact .inr ⟨r, rfl, hr, hgrows.name.trans hname, hpages ▸ hgrows.pages⟩

end Stored

/-! ## Runs -/

namespace Session

variable {s : Session} {x : RedbCall} {xs : List RedbCall}

def byteAt (s : Session) (pos : ℕ) : UInt8 := (lastPut s.written pos).getD 0

theorem byteAt_eq (s : Session) : s.byteAt = patchAll (fun _ => 0) s.written := by
  funext pos
  rw [patchAll_apply, byteAt]

def pages (dbName : String) (s : Session) : ℕ :=
  match s.handle with
  | none => storedPages s.fs dbName
  | some db => db.numPages

def Flat (dbName : String) (s : Session) : Prop :=
  match s.handle with
  | none => ∃ n, Stored dbName s.byteAt n s.fs
  | some db => db.dbName = dbName ∧ Holds s.byteAt ⟨s.fs, db⟩

def Advances (dbName : String) (s s' : Session) : Prop :=
  s'.Flat dbName ∧ s.pages dbName ≤ s'.pages dbName

theorem Flat.dropped (h : s.Flat dbName) :
    ∃ n, Stored dbName s.byteAt n s.dropped ∧ s.pages dbName ≤ n := by
  obtain ⟨fs, handle, written⟩ := s
  cases handle with
  | none =>
    obtain ⟨n, hn⟩ := h
    exact ⟨n, hn, hn.count.le⟩
  | some =>
    obtain ⟨rfl, hholds⟩ := h
    exact hholds.drop

theorem Flat.advances_none {n : ℕ} (hn : Stored dbName s.byteAt n fs) (hle : s.pages dbName ≤ n) :
    s.Advances dbName { s with fs := fs, handle := none } :=
  ⟨⟨n, hn⟩, hle.trans hn.count.ge⟩

section

variable (h : s.Flat dbName)
include h

theorem Flat.openFile (cfg : RedbAdapterConfig) :
    s.Advances dbName (s.step dbName (.openFile cfg)) := by
  obtain ⟨n, hn, hle⟩ := h.dropped
  rw [step]
  cases hdb : IonafsDatabaseFile.openFile s.dropped dbName cfg with
  | error => exact Flat.advances_none hn hle
  | ok =>
    obtain ⟨hholds, hname, hpages, -⟩ := hn.openFile hdb
    exact ⟨⟨hname, hholds⟩, hle.trans hpages.ge⟩

theorem Flat.create (cfg : RedbAdapterConfig) :
    s.Advances dbName (s.step dbName (.create cfg)) := by
  obtain ⟨n, hn, hle⟩ := h.dropped
  rw [step]
  obtain ⟨e, heq⟩ | ⟨r, heq, hholds, hname, hpages⟩ := hn.create cfg
  · rw [heq]
    exact Flat.advances_none hn hle
  · rw [heq]
    exact ⟨⟨hname, hholds⟩, hle.trans hpages⟩

theorem Flat.onHandle {call : Redb → Redb} (hclosed : ∀ r, r.db.closed = true → call r = r)
    (hopen : ∀ mem r, Holds mem r → r.db.closed = false →
      Holds mem (call r) ∧ (call r).db.dbName = r.db.dbName ∧
        r.db.numPages ≤ (call r).db.numPages) : s.Advances dbName (s.onHandle call) := by
  obtain ⟨fs, handle, written⟩ := s
  cases handle with
  | none => exact ⟨h, le_rfl⟩
  | some db =>
    obtain ⟨hname, hholds⟩ := h
    simp only [Session.onHandle]
    cases hdb : db.closed with
    | true =>
      rw [hclosed ⟨fs, db⟩ hdb]
      exact ⟨⟨hname, hholds⟩, le_rfl⟩
    | false =>
      obtain ⟨hholds', hname', hle⟩ := hopen _ _ hholds hdb
      exact ⟨⟨hname'.trans hname, hholds'⟩, hle⟩

theorem Flat.flush : s.Advances dbName (s.onHandle fun r => r.flush.2) := by
  refine h.onHandle (fun r hclosed => ?_) fun mem r hr hopen => ?_
  · rw [Redb.flush, if_pos hclosed]
  · obtain ⟨r', hflush, hr', hgrows, -⟩ := hr.flush hopen
    rw [hflush]
    exact ⟨hr', hgrows.name, hgrows.pages⟩

theorem Flat.writeAt {offset : ℕ} (hend : offset + data.length < 2 ^ 63) :
    s.Advances dbName (s.step dbName (.writeAt offset data)) := by
  obtain ⟨fs, handle, written⟩ := s
  cases handle with
  | none => exact ⟨h, le_rfl⟩
  | some db =>
    obtain ⟨hname, hholds⟩ := h
    simp only [step]
    cases hdb : db.closed with
    | true =>
      rw [show (Redb.mk fs db).writeAt offset data = some (.error .closed, ⟨fs, db⟩) from
        if_pos hdb]
      exact ⟨⟨hname, hholds⟩, le_rfl⟩
    | false =>
      obtain ⟨r', hwrite, hholds', hgrows⟩ := hholds.writeAt hdb hend
      rw [hwrite]
      refine ⟨⟨hgrows.name.trans hname, ?_⟩, hgrows.pages⟩
      rwa [byteAt_eq, patchAll_concat, ← byteAt_eq ⟨fs, some db, written⟩]

theorem Flat.step (hx : x.reach < 2 ^ 63) : s.Advances dbName (s.step dbName x) := by
  cases x with
  | openFile cfg => exact h.openFile cfg
  | create cfg => exact h.create cfg
  | readAt offset len =>
    refine h.onHandle (fun r hclosed => ?_) fun mem r hr hopen => ?_
    · rw [Redb.readAt, if_pos hclosed]
      rfl
    · obtain ⟨r', hread, hr', hgrows⟩ := hr.readAt hopen offset len
      rw [hread]
      exact ⟨hr', hgrows.name, hgrows.pages⟩
  | writeAt => exact h.writeAt hx
  | flush | syncAll => exact h.flush
  | growTo newSize =>
    refine h.onHandle (fun r hclosed => ?_) fun mem r hr hopen => ?_
    · rw [Redb.growTo, if_pos hclosed]
    · obtain ⟨r', hgrow, hr', hgrows, -⟩ := hr.growTo hopen newSize
      rw [hgrow]
      exact ⟨hr', hgrows.name, hgrows.pages⟩
  | close =>
    refine h.onHandle (fun r hclosed => ?_) fun mem r hr _ => ?_
    · rw [Redb.close, if_pos hclosed]
    · exact ⟨hr.close.1, hr.close.2.1, hr.close.2.2.1⟩

theorem Flat.exec (hxs : ∀ x ∈ xs, x.reach < 2 ^ 63) :
    s.Advances dbName (exec (Session.step dbName) s xs) := by
  induction xs generalizing s with
  | nil => exact ⟨h, le_rfl⟩
  | cons x _ ih =>
    obtain ⟨hflat, hle⟩ := h.step (hxs x (by simp))
    obtain ⟨hflat', hle'⟩ := ih hflat fun x hx => hxs x (by simp [hx])
    exact ⟨hflat', hle.trans hle'⟩

variable {db : IonafsDatabaseFile}

theorem Flat.holds (hdb : s.handle = some db) : Holds s.byteAt ⟨s.fs, db⟩ := by
  obtain ⟨fs, handle, written⟩ := s
  cases hdb
  exact h.2

theorem Flat.len_eq (hdb : s.handle = some db) : db.len = s.pages dbName * pageSize := by
  rw [(h.holds hdb).len_eq, pages, hdb]

end

def Unused (fs : Files) (dbName : String) : Prop :=
  fs (superPath dbName) = none ∧ ∀ p, fs (pagePath dbName p) = none

theorem flat_start (h : Unused fs dbName) : (start fs).Flat dbName := by
  suffices Stored dbName (start fs).byteAt 0 fs from ⟨0, this⟩
  refine ⟨fun p => ?_, ?_, by decide, fun i _ => rfl⟩
  · have hzero : pageOf (start fs).byteAt p = List.replicate pageSize 0 :=
      window_eq_replicate fun i _ => rfl
    rw [storedPage, h.2 p, hzero, Option.getD_none]
  · rw [storedPages, h.1]
    rfl

/-- Whatever the caches and the flushes, an open handle reads back the last bytes written and zeros
elsewhere, writes succeed, a valid configuration opens the database if its cache can be allocated,
and it never gets shorter. -/
theorem reads_last_written (fs : Files) (dbName : String) (hnew : Unused fs dbName)
    (xs : List RedbCall) (hxs : ∀ x ∈ xs, x.reach < 2 ^ 63) :
    let s := Lib.exec (step dbName) (start fs) xs
    (∀ db, s.handle = some db → db.closed = false →
      (∀ offset len, offset + len < 2 ^ 63 → ∃ r, (Redb.mk s.fs db).readAt offset len =
        some (.ok ((List.range len).map fun i => s.byteAt (offset + i)), r)) ∧
      ∀ offset data, offset + data.length < 2 ^ 63 →
        ∃ r, (Redb.mk s.fs db).writeAt offset data = some (.ok (), r)) ∧
    (∀ cfg, cfg.validate = .ok () → cfg.cacheSize < 2 ^ 60 →
      ∃ db, (s.step dbName (.openFile cfg)).handle = some db ∧ db.closed = false) ∧
    ∀ ys db db', (∀ y ∈ ys, y.reach < 2 ^ 63) → s.handle = some db →
      (Lib.exec (step dbName) s ys).handle = some db' → db.len ≤ db'.len := by
  intro s
  have hflat : s.Flat dbName := ((flat_start hnew).exec hxs).1
  refine ⟨fun db hdb hopen => ⟨fun offset len _ => ?_, fun offset data hend => ?_⟩,
    fun cfg hvalid _ => ?_, fun ys db db' hys hdb hdb' => ?_⟩
  · obtain ⟨r, hread, -⟩ := (hflat.holds hdb).readAt hopen offset len
    exact ⟨r, hread⟩
  · obtain ⟨r, hwrite, -⟩ := (hflat.holds hdb).writeAt hopen hend
    exact ⟨r, hwrite⟩
  · simp only [step, IonafsDatabaseFile.openFile, hvalid, Except.toOption]
    exact ⟨_, rfl, rfl⟩
  · obtain ⟨hflat', hle⟩ := hflat.exec hys
    rw [hflat.len_eq hdb, hflat'.len_eq hdb']
    exact Nat.mul_le_mul_right _ hle

def sampleCalls : List RedbCall :=
  [.openFile ⟨1, 1000, 1⟩, .writeAt 4094 [1, 2, 3, 4], .readAt 4090 10, .close,
    .openFile ⟨1, 1000, 2⟩, .growTo 9000, .writeAt 4095 [7]]

def sampleSession : Session := Lib.exec (step "a") (start fun _ => none) sampleCalls

/-- Four bytes across two pages with a cache of one page, one of them written again by a second
handle. -/
theorem reads_last_written_sample :
    ∃ db r, sampleSession.handle = some db ∧ db.closed = false ∧
      (Redb.mk sampleSession.fs db).readAt 4093 6 = some (.ok [0, 1, 7, 3, 4, 0], r) := by
  have ⟨hopen, hbytes⟩ : sampleSession.handle.map (·.closed) = some false ∧
      (List.range 6).map (fun i => sampleSession.byteAt (4093 + i)) = [0, 1, 7, 3, 4, 0] := by
    decide +kernel
  obtain ⟨db, hdb, hclosed⟩ := Option.map_eq_some_iff.mp hopen
  obtain ⟨hreads, -⟩ := reads_last_written (fun _ => none) "a" ⟨rfl, fun _ => rfl⟩ sampleCalls
    (by decide)
  obtain ⟨r, hread⟩ := (hreads db hdb hclosed).1 4093 6 (by decide)
  exact ⟨db, r, hdb, hclosed, hbytes ▸ hread⟩

end Session

end IonaOs.Blockchain
