import IonaOs.Lib.MapSum
import IonaOs.Lib.Run

/-!
# Swapping pages out to files
-/

namespace IonaOs.Memory

open List hiding getElem?_insert
open Std Lib ExtTreeMap Function

abbrev Page := List.Vector UInt8 4096

abbrev Files := String → Option (List UInt8)

structure Faults where
  read : Bool
  write : Bool
  delete : String → Bool

structure SwapConfig where
  maxPages : ℕ := 16384
  pathPrefix : String := "/swap/page-"

def SwapConfig.validate (cfg : SwapConfig) : Except String Unit :=
  if cfg.maxPages = 0 then .error "max_pages must be > 0"
  else if cfg.pathPrefix.isEmpty then .error "path_prefix must not be empty"
  else .ok ()

inductive SwapError where
  | full (max : ℕ)
  | unalignedAddress (addr : UInt64)
  | alreadySwapped (addr : UInt64)
  | notSwapped (addr : UInt64)
  | io (path : String)

structure SwapSlot where
  slotId : ℕ
  path : String
  size : ℕ

/-- The file of a slot: the format `{:06}` pads the number with zeros. -/
def slotPath (pathPrefix : String) (id : ℕ) : String :=
  let digits := Nat.toDigits 10 id
  pathPrefix ++ String.ofList (replicate (6 - digits.length) '0' ++ digits)

structure SwapTable where
  entries : ExtTreeMap UInt64 SwapSlot compare
  freeSlots : List ℕ
  nextSlot : ℕ
  totalSlots : ℕ
  usedSlots : ℕ

namespace SwapTable

def new (maxPages : ℕ) : SwapTable := ⟨∅, [], 0, maxPages, 0⟩

variable (t : SwapTable)

def allocSlot (pathPrefix : String) : Option (SwapSlot × SwapTable) :=
  if t.totalSlots ≤ t.usedSlots then none
  else
    match t.freeSlots.getLast? with
    | some id =>
      some (⟨id, slotPath pathPrefix id, 4096⟩,
        { t with freeSlots := t.freeSlots.dropLast, usedSlots := t.usedSlots + 1 })
    | none =>
      if t.nextSlot + 1 < 2 ^ 32 then
        some (⟨t.nextSlot, slotPath pathPrefix t.nextSlot, 4096⟩,
          { t with nextSlot := t.nextSlot + 1, usedSlots := t.usedSlots + 1 })
      else none

def freeSlot (faults : Faults) (s : SwapTable × Files) (slot : SwapSlot) : SwapTable × Files :=
  ({ s.1 with usedSlots := s.1.usedSlots - 1, freeSlots := s.1.freeSlots ++ [slot.slotId] },
    if faults.delete slot.path then s.2 else Function.update s.2 slot.path none)

def evictRange (start stop : UInt64) : List SwapSlot × SwapTable :=
  let inRange (addr : UInt64) : Bool := decide (start ≤ addr) && decide (addr < stop)
  ((t.entries.toList.filter fun e => inRange e.1).map Prod.snd,
    { t with entries := t.entries.filter fun addr _ => !inRange addr })

end SwapTable

structure SwapHandler where
  table : SwapTable
  config : SwapConfig

namespace SwapHandler

/-- `new` expects a configuration that is valid. -/
def new (cfg : SwapConfig) : Option SwapHandler :=
  match cfg.validate with
  | .error _ => none
  | .ok () => some ⟨.new cfg.maxPages, cfg⟩

def aligned (vaddr : UInt64) : UInt64 := vaddr &&& ~~~0xFFF

variable (h : SwapHandler) (files : Files) (faults : Faults)

def swapOut (vaddr : UInt64) (pageData : Page) : Except SwapError Unit × SwapHandler × Files :=
  if vaddr ≠ aligned vaddr then (.error (.unalignedAddress vaddr), h, files)
  else if h.table.entries.contains (aligned vaddr) then
    (.error (.alreadySwapped (aligned vaddr)), h, files)
  else
    match h.table.allocSlot h.config.pathPrefix with
    | none => (.error (.full h.config.maxPages), h, files)
    | some (slot, table) =>
      if faults.write then
        let (table, files) := SwapTable.freeSlot faults (table, files) slot
        (.error (.io slot.path), { h with table }, files)
      else
        let table := { table with entries := table.entries.insert (aligned vaddr) slot }
        (.ok (), { h with table }, Function.update files slot.path (some pageData.toList))

def copyToPage (data : List UInt8) (out : Page) : Page :=
  ⟨data.take (min data.length 4096) ++ out.toList.drop (min data.length 4096), by
    have hlen := out.2
    simp only [length_append, length_take, length_drop, List.Vector.toList_length]
    omega⟩

def swapIn (vaddr : UInt64) (out : Page) :
    (Except SwapError Unit × Page) × SwapHandler × Files :=
  if vaddr ≠ aligned vaddr then ((.error (.unalignedAddress vaddr), out), h, files)
  else
    match h.table.entries[aligned vaddr]? with
    | none => ((.error (.notSwapped (aligned vaddr)), out), h, files)
    | some slot =>
      let table := { h.table with entries := h.table.entries.erase (aligned vaddr) }
      match if faults.read then none else files slot.path with
      | some data =>
        let (table, files) := SwapTable.freeSlot faults (table, files) slot
        ((.ok (), copyToPage data out), { h with table }, files)
      | none =>
        let table := { table with entries := table.entries.insert (aligned vaddr) slot }
        ((.error (.io slot.path), out), { h with table }, files)

def evictRange (start stop : UInt64) : ℕ × SwapHandler × Files :=
  let (slots, table) := h.table.evictRange start stop
  let (table, files) := slots.foldl (SwapTable.freeSlot faults) (table, files)
  (slots.length, { h with table }, files)

end SwapHandler

/-! ## Runs -/

inductive SwapCall where
  | swapOut (vaddr : UInt64) (pageData : Page)
  | swapIn (vaddr : UInt64) (out : Page)
  | evictRange (start stop : UInt64)

structure SwapRun where
  handler : SwapHandler
  files : Files
  held : UInt64 → Option Page

namespace SwapRun

def start (handler : SwapHandler) (files : Files) : SwapRun := ⟨handler, files, fun _ => none⟩

def step (s : SwapRun) : Faults × SwapCall → SwapRun
  | (faults, .swapOut vaddr pageData) =>
    let (result, handler, files) := s.handler.swapOut s.files faults vaddr pageData
    match result with
    | .ok () => ⟨handler, files, Function.update s.held vaddr (some pageData)⟩
    | .error _ => ⟨handler, files, s.held⟩
  | (faults, .swapIn vaddr out) =>
    let ((result, _), handler, files) := s.handler.swapIn s.files faults vaddr out
    match result with
    | .ok () => ⟨handler, files, Function.update s.held vaddr none⟩
    | .error _ => ⟨handler, files, s.held⟩
  | (faults, .evictRange start stop) =>
    let (_, handler, files) := s.handler.evictRange s.files faults start stop
    ⟨handler, files, fun vaddr => if start ≤ vaddr ∧ vaddr < stop then none else s.held vaddr⟩

end SwapRun

structure SwapTable.Consistent (t : SwapTable) (maxPages : ℕ) : Prop where
  distinct : ∀ (v w : UInt64) (slot slot' : SwapSlot), t.entries[v]? = some slot →
    t.entries[w]? = some slot' → v ≠ w → slot.slotId ≠ slot'.slotId ∧ slot.path ≠ slot'.path
  notFree : ∀ (v : UInt64) (slot : SwapSlot), t.entries[v]? = some slot → slot.slotId ∉ t.freeSlots
  used : t.usedSlots = t.entries.size
  le : t.usedSlots ≤ maxPages

/-! ## Slots -/

theorem slotPath_inj {pathPrefix : String} {i j : ℕ}
    (h : slotPath pathPrefix i = slotPath pathPrefix j) : i = j := by
  have hread : ∀ n id, Nat.ofDigitChars 10 (replicate n '0' ++ Nat.toDigits 10 id) 0 = id := by
    intro n id
    rw [Nat.ofDigitChars_append, Nat.ofDigitChars_replicate_zero, Nat.mul_zero,
      Nat.ofDigitChars_ten_toDigits]
  simp only [slotPath, String.append_right_inj, String.ofList_inj] at h
  rw [← hread _ i, h, hread]

namespace SwapTable

variable {pathPrefix : String} {pending pending' : List SwapSlot} {t t' : SwapTable}
variable {slot : SwapSlot} {v : UInt64}

def slots (t : SwapTable) : List SwapSlot := t.entries.toList.map Prod.snd

theorem mem_slots : slot ∈ t.slots ↔ ∃ v : UInt64, t.entries[v]? = some slot := by
  simp only [slots, mem_map, Prod.exists, mem_toList_iff_getElem?_eq_some, exists_eq_right]

/-- The slots that a call has in hand are `pending`.  No slot is there twice, among the entries, in
hand and free, and those that are not free are counted. -/
structure Sound (pathPrefix : String) (pending : List SwapSlot) (t : SwapTable) : Prop where
  nodup : ((t.slots ++ pending).map SwapSlot.slotId ++ t.freeSlots).Nodup
  below : ∀ id ∈ (t.slots ++ pending).map SwapSlot.slotId ++ t.freeSlots, id < t.nextSlot
  path : ∀ slot ∈ t.slots ++ pending, slot.path = slotPath pathPrefix slot.slotId
  used : t.usedSlots = (t.slots ++ pending).length
  le : t.usedSlots ≤ t.totalSlots

theorem sound_new (pathPrefix : String) (maxPages : ℕ) : (new maxPages).Sound pathPrefix [] := by
  refine ⟨?_, ?_, ?_, ?_, ?_⟩
  all_goals simp [slots, new]

theorem Sound.perm (h : t.Sound pathPrefix pending)
    (hslots : (t'.slots ++ pending').Perm (t.slots ++ pending))
    (hfree : t'.freeSlots = t.freeSlots) (hnext : t'.nextSlot = t.nextSlot)
    (hused : t'.usedSlots = t.usedSlots) (htotal : t'.totalSlots = t.totalSlots) :
    t'.Sound pathPrefix pending' := by
  have hids : ((t'.slots ++ pending').map SwapSlot.slotId ++ t'.freeSlots).Perm
      ((t.slots ++ pending).map SwapSlot.slotId ++ t.freeSlots) := by
    rw [hfree]
    exact (hslots.map _).append_right _
  refine ⟨hids.nodup_iff.mpr h.nodup, ?_, fun slot hslot => h.path slot (hslots.mem_iff.mp hslot),
    ?_, ?_⟩
  · intro id hid
    rw [hnext]
    exact h.below id (hids.mem_iff.mp hid)
  · rw [hused, h.used, hslots.length_eq]
  · rw [hused, htotal]
    exact h.le

theorem Sound.take (h : t.Sound pathPrefix []) (hentries : t'.entries = t.entries)
    (hpath : slot.path = slotPath pathPrefix slot.slotId)
    (hnodup : (t.slots.map SwapSlot.slotId ++ slot.slotId :: t'.freeSlots).Nodup)
    (hbelow : ∀ id ∈ t.slots.map SwapSlot.slotId ++ slot.slotId :: t'.freeSlots, id < t'.nextSlot)
    (hused : t'.usedSlots = t.usedSlots + 1) (hle : t'.usedSlots ≤ t'.totalSlots) :
    t'.Sound pathPrefix [slot] := by
  have hslots : t'.slots = t.slots := by rw [slots, hentries, slots]
  have hids : (t'.slots ++ [slot]).map SwapSlot.slotId ++ t'.freeSlots =
      t.slots.map SwapSlot.slotId ++ slot.slotId :: t'.freeSlots := by
    simp [hslots]
  refine ⟨hids ▸ hnodup, hids ▸ hbelow, ?_, ?_, hle⟩
  · intro other hother
    rw [hslots, mem_append, mem_singleton] at hother
    rcases hother with hother | rfl
    · exact h.path other (mem_append_left _ hother)
    · exact hpath
  · have hlive := h.used
    rw [append_nil] at hlive
    rw [hused, hlive, hslots, length_append, length_singleton]

theorem Sound.allocSlot (h : t.Sound pathPrefix [])
    (hslot : t.allocSlot pathPrefix = some (slot, t')) :
    t'.Sound pathPrefix [slot] ∧ t'.entries = t.entries := by
  have hnodup := h.nodup
  have hbelow := h.below
  rw [append_nil] at hnodup hbelow
  unfold SwapTable.allocSlot at hslot
  split at hslot
  · cases hslot
  rename_i hle
  split at hslot
  · -- the last of the free slots
    rename_i id hlast
    cases hslot
    have hids : (t.slots.map SwapSlot.slotId ++ id :: t.freeSlots.dropLast).Perm
        (t.slots.map SwapSlot.slotId ++ t.freeSlots) := by
      obtain ⟨init, hinit⟩ := getLast?_eq_some_iff.mp hlast
      rw [hinit, dropLast_concat]
      exact (perm_append_singleton id init).symm.append_left _
    exact ⟨h.take rfl rfl (hids.nodup_iff.mpr hnodup) (fun i hi => hbelow i (hids.mem_iff.mp hi))
      rfl (Nat.not_le.mp hle), rfl⟩
  · rename_i hlast
    split at hslot
    · -- a new slot
      cases hslot
      have hfree : t.freeSlots = [] := getLast?_eq_none_iff.mp hlast
      rw [hfree, append_nil] at hnodup hbelow
      have hnew : t.nextSlot ∉ t.slots.map SwapSlot.slotId :=
        fun hmem => absurd (hbelow _ hmem) (Nat.lt_irrefl _)
      refine ⟨h.take rfl rfl ?_ ?_ rfl (Nat.not_le.mp hle), rfl⟩
      · rw [hfree]
        refine nodup_middle.mpr (nodup_cons.mpr ⟨?_, ?_⟩)
        · simpa using hnew
        · simpa using hnodup
      · intro i hi
        rw [hfree, mem_append, mem_singleton] at hi
        rcases hi with hi | rfl
        · exact Nat.lt_succ_of_lt (hbelow i hi)
        · exact Nat.lt_succ_self _
    · cases hslot

theorem totalSlots_allocSlot (hslot : t.allocSlot pathPrefix = some (slot, t')) :
    t'.totalSlots = t.totalSlots := by
  unfold SwapTable.allocSlot at hslot
  split at hslot
  · cases hslot
  split at hslot
  · cases hslot
    rfl
  split at hslot
  · cases hslot
    rfl
  · cases hslot

theorem slots_insert {m : ExtTreeMap UInt64 SwapSlot compare} (hv : m[v]? = none)
    (slot : SwapSlot) :
    ((m.insert v slot).toList.map Prod.snd).Perm (slot :: m.toList.map Prod.snd) := by
  have hother : m.toList.filter (fun e => e.1 ≠ v) = m.toList := by
    refine filter_eq_self.mpr ?_
    rintro ⟨w, slot'⟩ hmem
    rw [mem_toList_iff_getElem?_eq_some] at hmem
    have hne : w ≠ v := by
      rintro rfl
      rw [hv] at hmem
      cases hmem
    simpa using hne
  have hslots := (toList_insert_perm m v slot).map Prod.snd
  rwa [hother] at hslots

section

variable (h : t.Sound pathPrefix (slot :: pending))
include h

theorem Sound.insert (hv : t.entries[v]? = none) :
    Sound pathPrefix pending { t with entries := t.entries.insert v slot } := by
  refine h.perm ?_ rfl rfl rfl rfl
  exact ((slots_insert hv slot).append_right pending).trans perm_middle.symm

omit h in
theorem Sound.erase (h : t.Sound pathPrefix pending) (hv : t.entries[v]? = some slot) :
    Sound pathPrefix (slot :: pending) { t with entries := t.entries.erase v } := by
  refine h.perm ?_ rfl rfl rfl rfl
  have hslots := slots_insert (getElem?_erase_self (t := t.entries) (k := v)) slot
  rw [insert_erase hv] at hslots
  exact perm_middle.trans (hslots.symm.append_right pending)

omit h in
theorem Sound.evictRange (h : t.Sound pathPrefix []) (start stop : UInt64) :
    (t.evictRange start stop).2.Sound pathPrefix (t.evictRange start stop).1 := by
  refine h.perm ?_ rfl rfl rfl rfl
  have hsplit := (filter_append_perm
    (fun e : UInt64 × SwapSlot => !(decide (start ≤ e.1) && decide (e.1 < stop)))
    t.entries.toList).map Prod.snd
  simp only [Bool.not_not, map_append] at hsplit
  simpa only [SwapTable.evictRange, slots, toList_filter, append_nil] using hsplit

theorem Sound.freeSlot (files : Files) (faults : Faults) :
    (SwapTable.freeSlot faults (t, files) slot).1.Sound pathPrefix pending := by
  have hids : ((t.slots ++ pending).map SwapSlot.slotId ++ (t.freeSlots ++ [slot.slotId])).Perm
      ((t.slots ++ slot :: pending).map SwapSlot.slotId ++ t.freeSlots) := by
    simp only [map_append, map_cons, append_assoc, cons_append]
    refine Perm.append_left _ ?_
    rw [← append_assoc]
    exact perm_append_singleton _ _
  have hused := h.used
  rw [length_append, length_cons] at hused
  refine ⟨hids.nodup_iff.mpr h.nodup, fun i hi => h.below i (hids.mem_iff.mp hi), ?_, ?_, ?_⟩
  · intro other hother
    refine h.path other ?_
    rw [mem_append] at hother ⊢
    exact hother.imp_right (mem_cons_of_mem _)
  · change t.usedSlots - 1 = (t.slots ++ pending).length
    rw [hused, length_append]
    rfl
  · exact (Nat.sub_le _ _).trans h.le

theorem Sound.path_ne {live : SwapSlot} (hlive : t.entries[v]? = some live) :
    live.path ≠ slot.path := by
  have hmem : live ∈ t.slots := mem_slots.mpr ⟨v, hlive⟩
  rw [h.path live (mem_append_left _ hmem), h.path slot (mem_append_right _ mem_cons_self)]
  intro heq
  have hnodup := (nodup_append.mp h.nodup).1
  rw [map_append, nodup_append] at hnodup
  exact hnodup.2.2 _ (mem_map_of_mem hmem) _ (mem_map_of_mem mem_cons_self) (slotPath_inj heq)

end

theorem Sound.consistent (h : t.Sound pathPrefix []) : t.Consistent t.totalSlots := by
  have hnodup := h.nodup
  have hused := h.used
  rw [append_nil] at hnodup hused
  refine ⟨?_, ?_, ?_, h.le⟩
  · intro v w slot slot' hv hw hne
    have hother : (t.entries.erase v)[w]? = some slot' := by
      rw [getElem?_erase, if_neg (by simpa using hne)]
      exact hw
    have hslot := (h.erase hv).path_ne hother
    refine ⟨fun hid => hslot ?_, hslot.symm⟩
    rw [h.path slot' (mem_append_left _ (mem_slots.mpr ⟨w, hw⟩)),
      h.path slot (mem_append_left _ (mem_slots.mpr ⟨v, hv⟩)), hid]
  · intro v slot hv hfree
    exact (nodup_append.mp hnodup).2.2 _ (mem_map_of_mem (mem_slots.mpr ⟨v, hv⟩)) _ hfree rfl
  · rw [hused, slots, length_map, length_toList]

end SwapTable

/-! ## Files -/

structure Holds (entries : ExtTreeMap UInt64 SwapSlot compare) (files : Files)
    (held : UInt64 → Option Page) : Prop where
  live : ∀ (v : UInt64) (slot : SwapSlot), entries[v]? = some slot →
    ∃ page : Page, held v = some page ∧ files slot.path = some page.toList
  absent : ∀ v : UInt64, entries[v]? = none → held v = none

section Holds

variable {pathPrefix : String} {pending slots : List SwapSlot} {t : SwapTable} {files : Files}
variable {held : UInt64 → Option Page} {slot : SwapSlot} {faults : Faults} {v : UInt64}

section

variable (h : Holds t.entries files held) (hs : t.Sound pathPrefix (slot :: pending))
include h hs

theorem Holds.update (content : Option (List UInt8)) :
    Holds t.entries (Function.update files slot.path content) held := by
  refine ⟨fun v live hlive => ?_, h.absent⟩
  rw [update_of_ne (hs.path_ne hlive)]
  exact h.live v live hlive

theorem Holds.freeSlot (faults : Faults) :
    Holds t.entries (SwapTable.freeSlot faults (t, files) slot).2 held := by
  unfold SwapTable.freeSlot
  dsimp only
  split
  · exact h
  · exact h.update hs none

omit hs in
theorem Holds.foldl_freeSlot (hs : t.Sound pathPrefix slots) (faults : Faults) :
    let out := slots.foldl (SwapTable.freeSlot faults) (t, files)
    Holds out.1.entries out.2 held ∧ out.1.Sound pathPrefix [] ∧ out.1.entries = t.entries ∧
      out.1.totalSlots = t.totalSlots := by
  induction slots generalizing t files with
  | nil => exact ⟨h, hs, rfl, rfl⟩
  | cons slot _ ih =>
    have hfreed := hs.freeSlot files faults
    exact ih (t := (SwapTable.freeSlot faults (t, files) slot).1) (h.freeSlot hs faults) hfreed

theorem Holds.insert (v : UInt64) (page : Page) :
    Holds (t.entries.insert v slot) (Function.update files slot.path (some page.toList))
      (Function.update held v (some page)) := by
  have hwritten := h.update hs (some page.toList)
  refine ⟨fun w live hlive => ?_, fun w hnone => ?_⟩
  · rw [getElem?_insert] at hlive
    by_cases hw : w = v
    · subst hw
      rw [if_pos ReflCmp.compare_self] at hlive
      cases hlive
      exact ⟨page, update_self .., update_self ..⟩
    · rw [if_neg (by simpa using Ne.symm hw)] at hlive
      rw [update_of_ne hw]
      exact hwritten.live w live hlive
  · rw [getElem?_insert] at hnone
    by_cases hw : w = v
    · subst hw
      simp at hnone
    · rw [if_neg (by simpa using Ne.symm hw)] at hnone
      rw [update_of_ne hw]
      exact h.absent w hnone

end

theorem Holds.restrict {entries entries' : ExtTreeMap UInt64 SwapSlot compare}
    {held' : UInt64 → Option Page} {gone : UInt64 → Prop} [DecidablePred gone]
    (h : Holds entries files held)
    (hentries : ∀ v : UInt64, entries'[v]? = if gone v then none else entries[v]?)
    (hheld : ∀ v, held' v = if gone v then none else held v) : Holds entries' files held' := by
  refine ⟨fun v slot hslot => ?_, fun v hnone => ?_⟩
  · rw [hentries] at hslot
    rw [hheld]
    split_ifs at hslot ⊢
    exact h.live v slot hslot
  · rw [hentries] at hnone
    rw [hheld]
    split_ifs at hnone ⊢
    · rfl
    · exact h.absent v hnone

end Holds

/-! ## Calls -/

namespace SwapHandler

variable (h : SwapHandler) (files : Files) (faults : Faults) (v : UInt64)

theorem swapOut_cases (page : Page) :
    (∃ err, h.swapOut files faults v page = (.error err, h, files)) ∨
      ∃ slot table, h.table.allocSlot h.config.pathPrefix = some (slot, table) ∧
        h.table.entries[v]? = none ∧ aligned v = v ∧
        (h.swapOut files faults v page = (.error (.io slot.path),
            { h with table := (SwapTable.freeSlot faults (table, files) slot).1 },
            (SwapTable.freeSlot faults (table, files) slot).2) ∨
          h.swapOut files faults v page = (.ok (),
            { h with table := { table with entries := table.entries.insert v slot } },
            Function.update files slot.path (some page.toList))) := by
  by_cases halign : v = aligned v
  · rw [swapOut, if_neg (not_not.mpr halign), ← halign]
    cases hcontains : h.table.entries.contains v with
    | true => exact .inl ⟨_, if_pos rfl⟩
    | false =>
      rw [if_neg Bool.false_ne_true]
      cases halloc : h.table.allocSlot h.config.pathPrefix with
      | none => exact .inl ⟨_, rfl⟩
      | some out =>
        refine .inr ⟨out.1, out.2, rfl, ?_, rfl, ?_⟩
        · rw [contains_eq_isSome_getElem?] at hcontains
          exact Option.isSome_eq_false_iff.mp hcontains |> Option.isNone_iff_eq_none.mp
        · cases hwrite : faults.write with
          | true => exact .inl rfl
          | false => exact .inr rfl
  · exact .inl ⟨_, if_pos halign⟩

theorem copyToPage_page (page out : Page) : copyToPage page.toList out = page := by
  refine Subtype.ext ?_
  have hpage : page.toList.length = 4096 := page.2
  have hout : out.toList.length = 4096 := out.2
  change page.toList.take _ ++ out.toList.drop _ = page.toList
  rw [hpage, Nat.min_self, take_of_length_le hpage.le, drop_of_length_le hout.le, append_nil]

theorem swapIn_cases (out : Page) :
    (∃ err, h.swapIn files faults v out = ((.error err, out), h, files) ∧
        (v ∈ h.table.entries → aligned v = v → faults.read = false →
          ∃ slot, h.table.entries[v]? = some slot ∧ files slot.path = none)) ∨
      ∃ slot data, h.table.entries[v]? = some slot ∧ files slot.path = some data ∧
        faults.read = false ∧
        let table := { h.table with entries := h.table.entries.erase v }
        h.swapIn files faults v out = ((.ok (), copyToPage data out),
          { h with table := (SwapTable.freeSlot faults (table, files) slot).1 },
          (SwapTable.freeSlot faults (table, files) slot).2) := by
  by_cases halign : v = aligned v
  · rw [swapIn, if_neg (not_not.mpr halign), ← halign]
    cases hentry : h.table.entries[v]? with
    | none =>
      refine .inl ⟨_, rfl, fun hmem => ?_⟩
      rw [mem_iff_isSome_getElem?, hentry] at hmem
      cases hmem
    | some slot =>
      have hback := insert_erase hentry
      cases hfault : faults.read with
      | true =>
        refine .inl ⟨.io slot.path, ?_, fun _ _ h => by cases h⟩
        simp only [if_true, hback]
      | false =>
        cases hread : files slot.path with
        | some data =>
          exact .inr ⟨slot, data, rfl, hread, rfl, by simp [hread]⟩
        | none =>
          refine .inl ⟨.io slot.path, ?_, fun _ _ _ => ⟨slot, rfl, hread⟩⟩
          simp [hread, hback]
  · exact .inl ⟨_, if_pos halign, fun _ h => absurd h.symm halign⟩

end SwapHandler

namespace SwapRun

structure Valid (cfg : SwapConfig) (s : SwapRun) : Prop where
  same : s.handler.config = cfg
  total : s.handler.table.totalSlots = cfg.maxPages
  sound : s.handler.table.Sound cfg.pathPrefix []
  holds : Holds s.handler.table.entries s.files s.held
  aligned : ∀ v : UInt64, v ∈ s.handler.table.entries → SwapHandler.aligned v = v

variable {cfg : SwapConfig} {s : SwapRun}

theorem valid_start {handler : SwapHandler} (hnew : SwapHandler.new cfg = some handler)
    (files : Files) : (start handler files).Valid cfg := by
  unfold SwapHandler.new at hnew
  split at hnew
  · cases hnew
  cases hnew
  refine ⟨rfl, rfl, SwapTable.sound_new _ _, ?_, ?_⟩
  · exact ⟨fun v slot hv => by simp [start, SwapTable.new] at hv, fun _ _ => rfl⟩
  · intro v hv
    simp [start, SwapTable.new] at hv

section

variable (h : s.Valid cfg)
include h

theorem Valid.swapOut (faults : Faults) (v : UInt64) (page : Page) :
    (s.step (faults, .swapOut v page)).Valid cfg := by
  rcases s.handler.swapOut_cases s.files faults v page with
    ⟨err, heq⟩ | ⟨slot, table, halloc, hnone, halign, heq | heq⟩
  · rw [step, heq]
    exact h
  all_goals
    rw [h.same] at halloc
    obtain ⟨hsound, hentries⟩ := h.sound.allocSlot halloc
    have hholds : Holds table.entries s.files s.held := hentries ▸ h.holds
    have htotal : table.totalSlots = cfg.maxPages :=
      (SwapTable.totalSlots_allocSlot halloc).trans h.total
    rw [step, heq]
    dsimp only
  · exact ⟨h.same, htotal, hsound.freeSlot s.files faults, hholds.freeSlot hsound faults,
      fun w hw => h.aligned w (hentries ▸ hw)⟩
  refine ⟨h.same, htotal, hsound.insert (hentries ▸ hnone), hholds.insert hsound v page, ?_⟩
  intro w hw
  rcases mem_insert.mp hw with hw | hw
  · rw [← LawfulEqCmp.compare_eq_iff_eq.mp hw]
    exact halign
  · exact h.aligned w (hentries ▸ hw)

theorem Valid.swapIn (faults : Faults) (v : UInt64) (out : Page) :
    (s.step (faults, .swapIn v out)).Valid cfg := by
  rcases s.handler.swapIn_cases s.files faults v out with
    ⟨err, heq, -⟩ | ⟨slot, data, hslot, -, -, heq⟩
  · rw [step, heq]
    exact h
  have hsound := h.sound.erase hslot
  have hholds : Holds (s.handler.table.entries.erase v) s.files
      (Function.update s.held v none) := by
    have hgone : ∀ w : UInt64, (s.handler.table.entries.erase v)[w]? =
        if w = v then none else s.handler.table.entries[w]? := fun w => by
      rw [getElem?_erase]
      exact if_congr (LawfulEqCmp.compare_eq_iff_eq.trans eq_comm) rfl rfl
    exact h.holds.restrict hgone fun w => update_apply ..
  rw [step, heq]
  dsimp only
  exact ⟨h.same, h.total, hsound.freeSlot s.files faults, hholds.freeSlot hsound faults,
    fun w hw => h.aligned w (mem_of_mem_erase hw)⟩

theorem Valid.evictRange (faults : Faults) (start stop : UInt64) :
    (s.step (faults, .evictRange start stop)).Valid cfg := by
  have hholds : Holds (s.handler.table.evictRange start stop).2.entries s.files
      fun v => if start ≤ v ∧ v < stop then none else s.held v := by
    refine h.holds.restrict (fun v => ?_) fun v => rfl
    have hfilter : (s.handler.table.evictRange start stop).2.entries[v]? =
        s.handler.table.entries[v]?.filter fun _ => !decide (start ≤ v ∧ v < stop) := by
      simp [SwapTable.evictRange, ExtTreeMap.getElem?_filter, Option.pfilter_eq_filter]
    rw [hfilter]
    by_cases hin : start ≤ v ∧ v < stop
    · simp [hin]
    · cases s.handler.table.entries[v]? with
      | none => simp
      | some => simp [hin]
  obtain ⟨hfreed, hsound, hentries, htotal⟩ :=
    hholds.foldl_freeSlot (h.sound.evictRange start stop) faults
  refine ⟨h.same, htotal.trans h.total, hsound, hfreed, fun w hw => h.aligned w ?_⟩
  have hmem : w ∈ (s.handler.table.evictRange start stop).2.entries := hentries ▸ hw
  exact mem_of_mem_filter hmem

theorem Valid.step (call : Faults × SwapCall) : (s.step call).Valid cfg := by
  obtain ⟨faults, call⟩ := call
  cases call with
  | swapOut v page => exact h.swapOut faults v page
  | swapIn v out => exact h.swapIn faults v out
  | evictRange start stop => exact h.evictRange faults start stop

theorem Valid.swapIn_eq_ok_iff (faults : Faults) (v : UInt64) (out page : Page) :
    (s.handler.swapIn s.files faults v out).1 = (.ok (), page) ↔
      s.held v = some page ∧ faults.read = false := by
  rcases s.handler.swapIn_cases s.files faults v out with
    ⟨err, heq, hfails⟩ | ⟨slot, data, hslot, hdata, hread, heq⟩
  · rw [heq]
    refine ⟨fun hok => ?_, fun hheld => ?_⟩
    · cases hok
    cases hentry : s.handler.table.entries[v]? with
    | none =>
      rw [h.holds.absent v hentry] at hheld
      cases hheld.1
    | some =>
      have hmem : v ∈ s.handler.table.entries := by
        rw [mem_iff_isSome_getElem?, hentry]
        rfl
      obtain ⟨slot', hslot', hnone⟩ := hfails hmem (h.aligned v hmem) hheld.2
      obtain ⟨page', -, hfile⟩ := h.holds.live v slot' hslot'
      rw [hnone] at hfile
      cases hfile
  · obtain ⟨held, hheld, hfile⟩ := h.holds.live v slot hslot
    rw [hdata] at hfile
    cases hfile
    rw [heq, hheld]
    simp [SwapHandler.copyToPage_page, hread]

end

/-- **Swapped pages return.**  In a run of any calls, any of which may find the file system failing,
a page that is swapped in is the one that was last swapped out from its address and neither swapped
in nor evicted since, and it does come back if its file can be read.  At every point no two live
entries share a slot or a file, no live slot is free, and the slots in use are counted. -/
theorem swapped_pages_return {handler : SwapHandler}
    (hnew : SwapHandler.new cfg = some handler) (files : Files) (calls : List (Faults × SwapCall)) :
    let s := exec step (start handler files) calls
    (∀ faults v out page, (s.handler.swapIn s.files faults v out).1 = (.ok (), page) ↔
      s.held v = some page ∧ faults.read = false) ∧
    s.handler.table.Consistent cfg.maxPages := by
  intro s
  have hvalid : s.Valid cfg := exec_invariant (valid_start hnew files) fun _ e h => h.step e
  refine ⟨hvalid.swapIn_eq_ok_iff, ?_⟩
  rw [← hvalid.total]
  exact hvalid.sound.consistent

def writeFault (write : Bool) : Faults := ⟨false, write, fun _ => true⟩

def filledPage (byte : UInt8) : Page := List.Vector.replicate 4096 byte

def sampleCalls : List (Faults × SwapCall) :=
  [(writeFault true, .swapOut 0x1000 (filledPage 1)),
    (writeFault false, .swapOut 0x1000 (filledPage 2)),
    (writeFault false, .swapOut 0x2000 (filledPage 3)),
    (writeFault false, .evictRange 0x2000 0x3000)]

theorem swapped_pages_return_sample : ∃ handler s, SwapHandler.new {} = some handler ∧
    s = exec step (start handler fun _ => none) sampleCalls ∧
    (s.handler.swapIn s.files (writeFault false) 0x1000 (filledPage 0)).1 =
      (.ok (), filledPage 2) ∧
    s.handler.table.usedSlots = s.handler.table.entries.size := by
  obtain ⟨hreturn, hconsistent⟩ := @swapped_pages_return {} _ rfl (fun _ => none) sampleCalls
  exact ⟨_, _, rfl, rfl, (hreturn _ _ _ _).mpr ⟨rfl, rfl⟩, hconsistent.used⟩

end SwapRun

end IonaOs.Memory
