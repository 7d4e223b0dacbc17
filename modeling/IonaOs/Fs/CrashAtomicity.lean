import IonaOs.Fs.Persistence

/-!
# Interrupted operations
-/

namespace IonaOs.Fs

open Std Lib List Disk

variable {lossy : FromUtf8Lossy} {d : Disk sectorSize} {old new : List FileEntry}
  {cache : ExtTreeMap String (List UInt8) compare} {m : Mounted}

/-- The disk when an operation ends after `k` sector writes. -/
def FileOp.interrupted (o : FileOp) (m : Mounted) (k : ℕ) : Disk sectorSize :=
  exec Disk.write m.disk ((o.run m.fs).2.take k)

/-! ## The index in the middle of being written -/

/-- Slot `j` when the new index has been written up to slot `n`. -/
def mixedSlot (old new : List FileEntry) (n j : ℕ) : Option FileEntry :=
  if j < n then new[j]? else old[j]?

theorem exists_getElem?_lt {x : FileEntry} : (∃ j < old.length, old[j]? = some x) ↔ x ∈ old := by
  rw [mem_iff_getElem?]
  constructor
  · rintro ⟨j, -, hj⟩
    exact ⟨j, hj⟩
  · rintro ⟨j, hj⟩
    exact ⟨j, (List.getElem?_eq_some_iff.mp hj).1, hj⟩

theorem Change.mixed (h : Change old new) (n : ℕ) :
    (∀ x, (∃ j < old.length, mixedSlot old new n j = some x) ↔ x ∈ old) ∨
      ∀ x, (∃ j < old.length, mixedSlot old new n j = some x) ↔ x ∈ new := by
  -- where the first `n` slots are the same, the old entries are there
  have hold : (∀ j < n, j < old.length → new[j]? = old[j]?) →
      ∀ x, (∃ j < old.length, mixedSlot old new n j = some x) ↔ x ∈ old := by
    intro hsame x
    rw [← exists_getElem?_lt]
    refine exists_congr fun j => and_congr_right fun hj => ?_
    rw [mixedSlot]
    split
    case isTrue hlt => rw [hsame j hlt hj]
    case isFalse => rfl
  cases h with
  | append => exact .inl (hold fun j _ hj => getElem?_append_left hj)
  | replace pre post e e' =>
    by_cases hn : n ≤ pre.length
    · refine .inl (hold fun j hjn _ => ?_)
      rw [getElem?_append_left (by omega), getElem?_append_left (by omega)]
    right
    intro x
    have hlen : (pre ++ e :: post).length = (pre ++ e' :: post).length := by simp
    rw [hlen, ← exists_getElem?_lt]
    refine exists_congr fun j => and_congr_right fun _ => ?_
    rw [mixedSlot]
    split
    case isTrue => rfl
    case isFalse hj =>
      obtain ⟨i, rfl⟩ : ∃ i, j = pre.length + (i + 1) := ⟨j - pre.length - 1, by omega⟩
      rw [getElem?_append_right (by omega), getElem?_append_right (by omega),
        Nat.add_sub_cancel_left, getElem?_cons_succ, getElem?_cons_succ]
  | delete pre post e =>
    by_cases hn : n ≤ pre.length
    · refine .inl (hold fun j hjn _ => ?_)
      rw [getElem?_append_left (by omega), getElem?_append_left (by omega)]
    right
    -- behind the deleted entry the old slots are one further on
    have hshift : ∀ i, pre.length ≤ i → (pre ++ e :: post)[i + 1]? = (pre ++ post)[i]? := by
      intro i hi
      obtain ⟨i, rfl⟩ := Nat.exists_eq_add_of_le hi
      rw [Nat.add_assoc, getElem?_append_right (by omega), getElem?_append_right (by omega)]
      simp
    intro x
    constructor
    · rintro ⟨j, -, hj⟩
      rw [mixedSlot] at hj
      split at hj
      case isTrue => exact mem_of_getElem? hj
      case isFalse hjn =>
        obtain ⟨i, rfl⟩ : ∃ i, j = i + 1 := ⟨j - 1, by omega⟩
        rw [hshift i (by omega)] at hj
        exact mem_of_getElem? hj
    · intro hx
      obtain ⟨i, hi⟩ := mem_iff_getElem?.mp hx
      have hlen := (List.getElem?_eq_some_iff.mp hi).1
      rw [length_append] at hlen
      by_cases hin : i < n
      · refine ⟨i, by simp; omega, ?_⟩
        rw [mixedSlot, if_pos hin, hi]
      · refine ⟨i + 1, by simp; omega, ?_⟩
        rw [mixedSlot, if_neg (by omega), hshift i (by omega), hi]

theorem mem_entriesOn_mixed {k bound bound' : ℕ} {e : FileEntry} (h : OnDisk old cache d)
    (hold : IndexOk bound old) (hnew : IndexOk bound' new) (hk : k ≤ 15) :
    e ∈ entriesOn lossy (exec write d (blocksAt indexLba k (indexSector new))) ↔
      ∃ x, (∃ j < old.length, mixedSlot old new (8 * k) j = some x) ∧ x.asLoaded = e := by
  have hload : ∀ j < old.length, loadEntry lossy (slotOn (exec write d
      (blocksAt indexLba k (indexSector new))) j) =
        (mixedSlot old new (8 * k) j).map FileEntry.asLoaded := by
    intro j hj
    have := hold.few
    rw [slotOn_exec_indexSector hnew.few (by omega), mixedSlot]
    by_cases hjk : j < 8 * k
    · rw [if_pos (by omega), if_pos hjk, loadEntry_slotBytes hnew.entries]
    · have hget := getElem?_eq_getElem hj
      rw [if_neg (by omega), if_neg hjk, h.slots j _ hget, hget,
        loadEntry_entryBytes (hold.entries _ (getElem_mem hj)), Option.map_some]
  rw [entriesOn, numFilesOn, exec_indexSector_of_outside hk (.inl rfl)]
  have hnum : leNat (slice (d 0).1 4 4) = old.length := h.numFiles
  rw [hnum, min_eq_left hold.few, mem_filterMap]
  constructor
  · rintro ⟨j, hj, he⟩
    have hj := mem_range.mp hj
    rw [hload j hj] at he
    obtain ⟨x, hx, rfl⟩ := Option.map_eq_some_iff.mp he
    exact ⟨x, ⟨j, hj, hx⟩, rfl⟩
  · rintro ⟨x, ⟨j, hj, hx⟩, rfl⟩
    refine ⟨j, mem_range.mpr hj, ?_⟩
    rw [hload j hj, hx, Option.map_some]

/-! ## Updates -/

theorem Update.mount_take {fs : IonFs} {prep fin : List SectorWrite} {head : ℕ} (hm : m.Valid)
    (h : Update m fs prep fin) (k : ℕ) :
    (mount lossy (exec write m.disk
        ((prep ++ indexWrites fs.index head ++ fin).take k))).fs.cache = m.fs.cache ∨
      (mount lossy (exec write m.disk
        ((prep ++ indexWrites fs.index head ++ fin).take k))).fs.cache = fs.cache := by
  have hprep := hm.holds.exec_write hm.ok hm.bound h.prepared
  rw [append_assoc, take_append, exec_append]
  by_cases hk : k ≤ prep.length
  · left
    rw [Nat.sub_eq_zero_of_le hk, take_zero, exec_nil]
    refine OnDisk.mount_cache ?_ hm.ok
    exact hm.holds.exec_write hm.ok hm.bound fun w hw => h.prepared w (mem_of_mem_take hw)
  rw [take_of_length_le (by omega)]
  generalize k - prep.length = k
  have hlen : (indexWrites fs.index head).length = 16 := by
    simp [indexWrites, length_blocksAt]
  by_cases hk : k ≤ 15
  · -- only sectors of the index are written
    rw [take_append_of_le_length (by omega), indexWrites,
      take_append_of_le_length (by rw [length_blocksAt]; exact hk), take_blocksAt,
      min_eq_left hk]
    generalize hd : exec write (exec write m.disk prep)
      (blocksAt indexLba k (indexSector fs.index)) = d
    have hmagic : leNat (slice (d 0).1 0 4) = magic := by
      rw [← hd, exec_indexSector_of_outside hk (.inl rfl)]
      exact hprep.magic
    have hsame : ∀ a, dataLba ≤ a → exec write m.disk prep a = d a := by
      intro a ha
      rw [← hd, exec_indexSector_of_outside hk
        (.inr (by simp only [dataLba, journalLba] at *; omega))]
    have hentries : ∀ e, e ∈ entriesOn lossy d ↔
        ∃ x, (∃ j < m.fs.index.length, mixedSlot m.fs.index fs.index (8 * k) j = some x) ∧
          x.asLoaded = e := by
      intro e
      rw [← hd]
      exact mem_entriesOn_mixed hprep hm.ok h.ok hk
    have hfiles : ∀ {index cache bound}, Reflects (exec write m.disk prep) index cache →
        IndexOk bound index → Reflects d index cache := by
      intro index cache bound hreflects hok
      refine hreflects.congr fun e he a ha => hsame a ?_
      exact (hok.entries e he).above.trans (Finset.mem_Ico.mp ha).1
    obtain hmixed | hmixed := h.change.mixed (8 * k)
    · left
      refine mount_cache hmagic (hfiles hprep.reflects hm.ok)
        (fun e he => (hm.ok.entries e he).above) fun e => ?_
      rw [hentries e]
      exact exists_congr fun x => and_congr_left fun _ => hmixed x
    · right
      refine mount_cache hmagic (hfiles h.reflects h.ok)
        (fun e he => (h.ok.entries e he).above) fun e => ?_
      rw [hentries e]
      exact exists_congr fun x => and_congr_left fun _ => hmixed x
  · right
    rw [take_append, take_of_length_le (by omega), exec_append]
    refine OnDisk.mount_cache ?_ h.ok
    exact (OnDisk.writeIndex h.ok h.reflects).exec_write h.ok h.bound
      fun w hw => h.finished w (mem_of_mem_take hw)

/-- **Crash atomicity within the limits.**  After any run of operations within the limits, a mount
of a disk on which one more was interrupted finds the files before it or those after it. -/
theorem interrupted_mount_before_or_after (lossy : FromUtf8Lossy) (disk : Disk sectorSize)
    (evs : List Event) (hblank : leNat (slice (disk 0).1 0 4) ≠ magic)
    (hfits : Along (Mounted.step lossy) (fun m ev => ev.Fits m) (mount lossy disk) evs)
    (o : FileOp) (hfit : o.Fits (exec (Mounted.step lossy) (mount lossy disk) evs).fs) (k : ℕ) :
    let m := exec (Mounted.step lossy) (mount lossy disk) evs
    (mount lossy (o.interrupted m k)).fs.cache = m.fs.cache ∨
      (mount lossy (o.interrupted m k)).fs.cache = (m.step lossy (.op o)).fs.cache := by
  intro m
  have hm : m.Valid := valid_exec hblank hfits
  obtain hnone | ⟨prep, head, fin, hwrites, hupdate⟩ := o.update hm hfit
  · left
    rw [FileOp.interrupted, hnone, take_nil, exec_nil]
    exact hm.holds.mount_cache hm.ok
  · rw [FileOp.interrupted, hwrites]
    exact hupdate.mount_take hm k

def twoFiles : Mounted :=
  exec (Mounted.step sampleDecoder) (mount sampleDecoder blankDisk)
    [.op (.write 5 "a" [1]), .op (.write 6 "b" [2])]

theorem interrupted_mount_sample :
    ∃ o k, o = FileOp.delete "a" ∧ k = 3 ∧
      ((mount sampleDecoder (o.interrupted twoFiles k)).fs.cache = twoFiles.fs.cache ∨
        (mount sampleDecoder (o.interrupted twoFiles k)).fs.cache =
          (twoFiles.step sampleDecoder (.op o)).fs.cache) := by
  refine ⟨_, _, rfl, rfl, ?_⟩
  refine interrupted_mount_before_or_after sampleDecoder blankDisk
    [.op (.write 5 "a" [1]), .op (.write 6 "b" [2])] (by decide) ?_ (.delete "a") trivial 3
  refine ⟨⟨?_, by decide, by decide +kernel, by decide⟩, ⟨?_, by decide, ?_, by decide +kernel⟩,
    trivial⟩
  · exact ⟨by decide, by decide, by decide⟩
  · exact ⟨by decide, by decide, by decide⟩
  · decide +kernel

def renamedIndex : List FileEntry :=
  [⟨"b", 64, 1, 0o644, 1000, 1000, 5, 5, 5⟩, ⟨"b", 65, 1, 0o644, 1000, 1000, 6, 6, 6⟩]

theorem storable_renamedIndex : Storable 66 renamedIndex := by
  have hname : PathOk "b" := ⟨by decide, by decide, by decide⟩
  refine ⟨by decide, fun e he => ?_⟩
  simp only [renamedIndex, mem_cons, not_mem_nil, or_false] at he
  obtain rfl | rfl := he
  · exact ⟨hname, by decide, by decide, by decide, by decide⟩
  · exact ⟨hname, by decide, by decide, by decide, by decide⟩

/-- **A rename to a name in use loses the file.**  Afterwards the contents of `a` are under the name
`b`; but a mount of the disk finds no `a`, and under `b` what was there before. -/
theorem renamed_file_lost :
    let o := FileOp.rename "a" "b"
    let found := (mount sampleDecoder (o.interrupted twoFiles 16)).fs.cache
    (twoFiles.fs.cache["a"]? = some [1] ∧ twoFiles.fs.cache["b"]? = some [2]) ∧
      (twoFiles.step sampleDecoder (.op o)).fs.cache["b"]? = some [1] ∧
      found["a"]? = none ∧ found["b"]? = some [2] := by
  refine ⟨⟨by decide +kernel, by decide +kernel⟩, by decide +kernel, ?_⟩
  have hwrites : (((FileOp.rename "a" "b").run twoFiles.fs).2).take 16 =
      indexWrites renamedIndex 2 := rfl
  have hindexed : Indexed renamedIndex (exec write twoFiles.disk (indexWrites renamedIndex 2)) :=
    indexed_exec_indexWrites (by decide)
  rw [FileOp.interrupted, hwrites, mount_eq hindexed.magic,
    hindexed.entriesOn_eq storable_renamedIndex]
  refine ⟨by rw [getElem?_loadCache]; rfl, ?_⟩
  rw [getElem?_loadCache]
  -- the later entry counts, and its sector has not been written
  have hdata : loadData twoFiles.disk ⟨"b", 65, 1, 0o644, 0, 0, 0, 0, 0⟩ = [2] := rfl
  refine congrArg some (Eq.trans (loadData_congr fun a ha => ?_) hdata)
  have hge : 65 ≤ a := (Finset.mem_Ico.mp ha).1
  rw [recoverJournal_of_outside (.inr (by simp only [dataLba]; omega)),
    exec_indexWrites_of_outside (by simp only [journalLba]; omega)]

end IonaOs.Fs
