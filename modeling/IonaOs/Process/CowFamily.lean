import IonaOs.Process.ForkCow
import IonaOs.Process.SpaceTrees

/-!
# Families of processes
-/

namespace IonaOs.Process

open Lib Memory List

/-! ## Words -/

def wordIndex (virt : UInt64) : Fin 512 := Fin.ofNat 512 (virt.toNat / 8)

abbrev Contents := UInt64 → Option (BitVec 64)

def Contents.overwrite (content : Contents) (virt : UInt64) (change : BitVec 64 → BitVec 64) :
    Contents :=
  fun v => if v.toNat / 8 = virt.toNat / 8 then (content v).map change else content v

def pageEntry : Except AddressSpaceError (Entry × ℕ) → Option Entry
  | .ok (e, 1) => some e
  | _ => none

namespace Kernel

def load (k : Kernel) (l4 : ℕ) : Contents := fun virt =>
  (pageEntry (walkPageTables k.mem l4 virt)).map fun e => k.mem e.frame (wordIndex virt)

def store (k : Kernel) (virt : UInt64) (change : BitVec 64 → BitVec 64) : Kernel :=
  match pageEntry (walkPageTables k.mem k.l4 virt) with
  | none => k
  | some e =>
    let i := wordIndex virt
    { k with mem := k.mem.write e.frame i (change (k.mem e.frame i)) }

def touch (strict : Bool) (k : Kernel) (virt : UInt64) : Bool × Kernel :=
  match walkPageTables k.mem k.l4 virt with
  | .error _ => (false, k)
  | .ok (e, _) => if e.isWritable then (true, k) else k.copyOnWriteFault strict virt

end Kernel

/-! ## Families -/

structure Family where
  kernel : Kernel
  members : List ℕ
  due : ℕ → Option Contents

inductive FamilyEvent where
  | fork (p : ℕ)
  | write (p : ℕ) (virt : UserAddr) (change : BitVec 64 → BitVec 64)

namespace Family

def start (k : Kernel) (root : ℕ) : Family := ⟨k, [root], fun _ => none⟩

def join (s : Family) (p child : ℕ) (kernel : Kernel) : Family where
  kernel := kernel
  members := child :: s.members
  due :=
    let content := s.kernel.load p
    let due := Function.update s.due p (some ((s.due p).getD content))
    Function.update due child (some content)

def step (strict : Bool) (s : Family) : FamilyEvent → Family
  | .fork p =>
    if p ∈ s.members then
      match s.kernel.clonePageTablesCow strict p with
      | (.error _, kernel) => { s with kernel }
      | (.ok child, kernel) => s.join p child kernel
    else s
  | .write p virt change =>
    if p ∈ s.members then
      -- the member is running, so CR3 is its first table
      match { s.kernel with l4 := p }.touch strict virt with
      | (false, kernel) => { s with kernel }
      | (true, kernel) =>
        { s with
          kernel := kernel.store virt change
          due := Function.update s.due p ((s.due p).map (·.overwrite virt change)) }
    else s

def Succeeds (strict : Bool) (s : Family) : FamilyEvent → Prop
  | .fork p => p ∈ s.members → (s.kernel.clonePageTablesCow strict p).1.isOk = true
  | .write .. => True

end Family

/-! ## Tables and pages -/

def entriesOf (mem : PhysMem) (level t : ℕ) : List ℕ :=
  (indices level).filterMap fun i => (mem t i).target

def rows (mem : PhysMem) (root : ℕ) : ℕ → List ℕ
  | 0 => [root]
  | n + 1 => (rows mem root n).flatMap (entriesOf mem (4 - n))

def tables (mem : PhysMem) (root : ℕ) : List ℕ := (List.range 4).flatMap (rows mem root)

def leaves (mem : PhysMem) (root : ℕ) : List ℕ := rows mem root 4

structure OneProcess (k : Kernel) (root : ℕ) : Prop where
  sound : k.frames.Sound
  plain : ∀ n < 4, ∀ t ∈ rows k.mem root n, ∀ i ∈ indices (4 - n),
    (k.mem t i).isPresent = true → (k.mem t i).isHuge = false
  distinct : (tables k.mem root).Nodup
  counted : ∀ t ∈ tables k.mem root, k.frames.refs t = 1
  pages : ∀ f ∈ leaves k.mem root, f ∉ tables k.mem root ∧
    k.frames.refs f = (leaves k.mem root).count f

def othersOf (k : Kernel) (root f : ℕ) : ℕ :=
  k.frames.refs f - ((tables k.mem root).count f + (leaves k.mem root).count f)

section Start

variable {k : Kernel} {root n t f : ℕ}

def startTables (mem : PhysMem) (root : ℕ) : Tables where
  set := (tables mem root).toFinset
  level t :=
    if t ∈ rows mem root 0 then 4 else if t ∈ rows mem root 1 then 3
    else if t ∈ rows mem root 2 then 2 else 1
  owner _ := root

theorem mem_tables {mem : PhysMem} : t ∈ tables mem root ↔ ∃ n < 4, t ∈ rows mem root n := by
  simp only [tables, mem_flatMap, mem_range]

namespace OneProcess

variable (h : OneProcess k root)

include h

theorem row_unique {m : ℕ} (hn : n < 4) (hm : m < 4) (ht : t ∈ rows k.mem root n)
    (ht' : t ∈ rows k.mem root m) : n = m := by
  by_contra hne
  have hpair := (nodup_flatMap.mp h.distinct).2
  have hdisjoint : ∀ {a b : ℕ}, a < b → b < 4 → List.Disjoint (rows k.mem root a)
      (rows k.mem root b) := by
    intro a b hab hb
    have hall := pairwise_iff_getElem.mp hpair a b (by simp; omega) (by simpa using hb) hab
    simpa using hall
  rcases Nat.lt_or_gt_of_ne hne with hlt | hlt
  · exact hdisjoint hlt hm ht ht'
  · exact hdisjoint hlt hn ht' ht

theorem level_of_mem (hn : n < 4) (ht : t ∈ rows k.mem root n) :
    (startTables k.mem root).level t = 4 - n := by
  have hother : ∀ m < 4, t ∈ rows k.mem root m ↔ m = n := fun m hm =>
    ⟨fun ht' => h.row_unique hm hn ht' ht, fun heq => heq ▸ ht⟩
  simp only [startTables, hother 0 (by decide), hother 1 (by decide), hother 2 (by decide)]
  split_ifs
  · omega
  · omega
  · omega
  · omega

theorem kids_of_mem (hn : n < 4) (ht : t ∈ rows k.mem root n) :
    (startTables k.mem root).kids k.mem t = entriesOf k.mem (4 - n) t := by
  rw [Tables.kids, h.level_of_mem hn ht, entriesOf]

theorem refers_eq (f : ℕ) :
    [root].count f + (startTables k.mem root).refers k.mem f =
      (tables k.mem root).count f + (leaves k.mem root).count f := by
  have hsum : (startTables k.mem root).refers k.mem f =
      ((range 4).flatMap fun n => rows k.mem root (n + 1)).count f := by
    have hflat : (tables k.mem root).flatMap ((startTables k.mem root).kids k.mem) =
        (range 4).flatMap fun n => rows k.mem root (n + 1) := by
      rw [tables, flatMap_assoc]
      refine flatMap_congr fun n hn => ?_
      exact flatMap_congr fun t ht => h.kids_of_mem (mem_range.mp hn) ht
    rw [← hflat, count_flatMap]
    exact sum_toFinset _ h.distinct
  rw [hsum, tables, leaves]
  simp only [range_succ, range_zero, nil_append, flatMap_append,
    flatMap_singleton, count_append, rows]
  omega

theorem counted_le (f : ℕ) :
    (tables k.mem root).count f + (leaves k.mem root).count f ≤ k.frames.refs f := by
  by_cases hleaf : f ∈ leaves k.mem root
  · obtain ⟨hnot, hrefs⟩ := h.pages f hleaf
    rw [count_eq_zero.mpr hnot, hrefs, Nat.zero_add]
  rw [count_eq_zero.mpr hleaf]
  by_cases htable : f ∈ tables k.mem root
  · rw [count_eq_one_of_mem h.distinct htable, h.counted f htable]
  · rw [count_eq_zero.mpr htable]
    exact Nat.zero_le _

theorem small (ht : t ∈ tables k.mem root) : t < 524288 := by
  have hlt := h.sound.lt_length (f := t) (by rw [h.counted t ht]; decide)
  rw [h.sound.valid.length h.sound.ready] at hlt
  have hcap : Constants.maxFrames = 524288 := by decide
  have := k.frames.bitmap.maxFrames_le
  omega

theorem ledger : Ledger ⟨false, fun _ => False, othersOf k root⟩ [root]
    (startTables k.mem root) [] k := by
  have hset : ∀ {t}, t ∈ (startTables k.mem root).set ↔ t ∈ tables k.mem root := mem_toFinset
  have hrow : ∀ {t}, t ∈ (startTables k.mem root).set → ∃ n < 4, t ∈ rows k.mem root n ∧
      (startTables k.mem root).level t = 4 - n := by
    intro t ht
    obtain ⟨n, hn, ht⟩ := mem_tables.mp (hset.mp ht)
    exact ⟨n, hn, ht, h.level_of_mem hn ht⟩
  have hnext : ∀ {t n c}, n < 4 → t ∈ rows k.mem root n →
      c ∈ (startTables k.mem root).kids k.mem t → c ∈ rows k.mem root (n + 1) := by
    intro t n c hn ht hc
    rw [h.kids_of_mem hn ht] at hc
    exact mem_flatMap.mpr ⟨t, ht, hc⟩
  have hroot : root ∈ rows k.mem root 0 := mem_singleton_self root
  have hmem : root ∈ (startTables k.mem root).set := hset.mpr (mem_tables.mpr ⟨0, by decide, hroot⟩)
  have hfour : (startTables k.mem root).level root = 4 := h.level_of_mem (by decide) hroot
  refine
    { sound := h.sound
      returned := fun _ hf => hf.elim
      counted := fun f => ?_
      single := fun t ht => h.counted t (hset.mp ht)
      fresh := fun t ht => ?_
      small := fun t ht => h.small (hset.mp ht)
      levels := fun t ht => ?_
      unused := fun hfalse => by cases hfalse
      plain := fun t ht i hi => ?_
      bottom := fun t ht hone c hc => ?_
      down := fun t ht hone c hc => ?_
      root := fun r hr => ?_
      top := fun t ht hlevel => ?_
      owned := fun t ht => ⟨hmem, hfour, .inl (mem_singleton_self root)⟩ }
  · have hall := h.refers_eq f
    have hle := h.counted_le f
    simp only [othersOf, count_nil]
    omega
  · change othersOf k root t = 0
    rw [othersOf, h.counted t (hset.mp ht), count_eq_one_of_mem h.distinct (hset.mp ht)]
    omega
  · obtain ⟨n, hn, -, hlevel⟩ := hrow ht
    omega
  · obtain ⟨n, hn, ht, hlevel⟩ := hrow ht
    exact h.plain n hn t ht i (hlevel ▸ hi)
  · obtain ⟨n, hn, ht, hlevel⟩ := hrow ht
    obtain rfl : n = 3 := by omega
    obtain ⟨hnot, hrefs⟩ := h.pages c (hnext hn ht hc)
    refine ⟨fun hin => hnot (hset.mp hin), ?_⟩
    change othersOf k root c = 0
    rw [othersOf, hrefs]
    omega
  · obtain ⟨n, hn, ht, hlevel⟩ := hrow ht
    have hc' := hnext hn ht hc
    refine ⟨hset.mpr (mem_tables.mpr ⟨n + 1, by omega, hc'⟩), ?_, rfl⟩
    rw [h.level_of_mem (by omega) hc', hlevel]
    omega
  · rw [mem_singleton.mp hr]
    exact ⟨hmem, hfour⟩
  · obtain ⟨n, hn, ht, hlevel'⟩ := hrow ht
    obtain rfl : n = 0 := by omega
    exact (mem_singleton.mp ht).symm

end OneProcess

end Start

end IonaOs.Process
