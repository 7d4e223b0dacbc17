import IonaOs.Process.CloneBooks

/-!
# The clone and the write fault of `fork`
-/

namespace IonaOs.Process

open Lib Memory List Entry Kernel

/-- The global `get_ref`. -/
def Kernel.getRef (k : Kernel) (f : ℕ) : ℕ :=
  if k.frames.refcounts.heapReady then (k.frames.refcounts.counts.getD f 0).toNat else 0

theorem Kernel.getRef_eq {k : Kernel} (h : k.frames.Sound) (f : ℕ) :
    k.getRef f = k.frames.refs f := by
  simp [getRef, FrameAllocator.refs, h.ready]

namespace Kernel

/-! ## The clone -/

variable (strict : Bool)

def forkL1Entry (parent new : ℕ) (k : Kernel) (i : Fin 512) :
    Except AddressSpaceError Unit × Kernel :=
  let l1e := k.mem parent i
  if !l1e.isPresent then (.ok (), k)
  else
    let cowFlags := l1e.flags &&& ~~~Flag.writable
    let copied := k.mem.write new i (.setAddr l1e.addr cowFlags)
    let mem := copied.write parent i (.setAddr l1e.addr cowFlags)
    -- the entry of the parent is read again, now without the write bit
    (.ok (), { k with mem }.share strict (mem parent i))

def forkL1 (parent new : ℕ) (k : Kernel) :
    Except AddressSpaceError Unit × Kernel :=
  tryExec (forkL1Entry strict parent new) k (List.finRange 512)

def forkEntry (huge : Entry → Bool)
    (forkBelow : ℕ → ℕ → Kernel → Except AddressSpaceError Unit × Kernel) (parent new : ℕ)
    (k : Kernel) (i : Fin 512) : Except AddressSpaceError Unit × Kernel :=
  let e := k.mem parent i
  if !e.isPresent then (.ok (), k)
  else if huge e then (.ok (), { k with mem := k.mem.write new i e }.share strict e)
  else
    match k.allocateTable with
    | (.error err, k) => (.error err, k)
    | (.ok table, k) =>
      match forkBelow e.frame table k with
      | (.error err, k) => (.error err, k)
      | (.ok (), k) =>
        let link : Entry := .setAddr (frameAddr table) (k.mem parent i).flags
        (.ok (), { k with mem := k.mem.write new i link })

def forkL2 (parent new : ℕ) (k : Kernel) :
    Except AddressSpaceError Unit × Kernel :=
  tryExec (forkEntry strict Entry.isHuge (forkL1 strict) parent new) k (List.finRange 512)

def forkL3 (parent new : ℕ) (k : Kernel) :
    Except AddressSpaceError Unit × Kernel :=
  tryExec (forkEntry strict Entry.isHuge (forkL2 strict) parent new) k (List.finRange 512)

def forkL4 (parent new : ℕ) (k : Kernel) :
    Except AddressSpaceError Unit × Kernel :=
  tryExec (forkEntry strict (fun _ => false) (forkL3 strict) parent new) k userHalf

def clonePageTablesCow (k : Kernel) (parent : ℕ) :
    Except AddressSpaceError ℕ × Kernel :=
  match k.allocateTable with
  | (.error err, k) => (.error err, k)
  | (.ok new, k) =>
    match forkL4 strict parent new (k.copyKernelHalf parent new) with
    | (.error err, k) => (.error err, k)
    | (.ok (), k) => (.ok new, k)

/-! ## The write fault -/

/-- The macro `get_table`: the table that an entry refers to, if the entry is present. -/
def getTable (k : Kernel) (table : ℕ) (i : Fin 512) : Option ℕ :=
  if !(k.mem table i).isPresent then none else some (k.mem table i).frame

def setWritable (k : Kernel) (table : ℕ) (i : Fin 512) (f : ℕ) : Kernel :=
  let flags := (k.mem table i).flags ||| Flag.writable
  { k with mem := k.mem.write table i (.setAddr (frameAddr f) flags) }

def copyOnWriteEntry (k : Kernel) (table : ℕ) (i : Fin 512) : Bool × Kernel :=
  let entry := k.mem table i
  if !entry.isPresent then (false, k)
  else
    match entry.frame? strict with
    | none => (false, k)
    | some oldFrame =>
      if k.getRef oldFrame ≤ 1 then (true, k.setWritable table i oldFrame)
      else
        match k.frames.allocateOne with
        | (.error _, frames) => (false, { k with frames })
        | (.ok newFrame, frames) =>
          let copied := { k with frames, mem := Function.update k.mem newFrame (k.mem oldFrame) }
          (true, (copied.decRef oldFrame).setWritable table i newFrame)

def copyOnWriteFault (k : Kernel) (virt : UInt64) : Bool × Kernel :=
  match k.getTable k.l4 (index 4 virt) with
  | none => (false, k)
  | some l3 =>
    match k.getTable l3 (index 3 virt) with
    | none => (false, k)
    | some l2 =>
      match k.getTable l2 (index 2 virt) with
      | none => (false, k)
      | some l1 => copyOnWriteEntry strict k l1 (index 1 virt)

end Kernel

/-! ## The two clones -/

section Clones

variable {mem₀ : PhysMem} {l4 : ℕ} {k k' : Kernel} {level p c : ℕ} {i : Fin 512} {strict : Bool}

def PlainTree (mem : PhysMem) (l4 : ℕ) : Prop :=
  ∀ level t i, IsTable mem l4 level t → (level = 4 → i.1 < 256) → (mem t i).isPresent = true →
    (mem t i).isHuge = false

theorem TurnClones.loop_congr
    {turn turn' : ℕ → ℕ → Kernel → Fin 512 → Except AddressSpaceError Unit × Kernel}
    (hturn : TurnClones mem₀ l4 level turn) (hp : IsTable mem₀ l4 level p)
    (hsame : ∀ {k i}, During mem₀ l4 k → Outside mem₀ l4 k c → (level = 4 → i.1 < 256) →
      turn' p c k i = turn p c k i)
    {l : List (Fin 512)} (hnodup : l.Nodup) (hl : ∀ i ∈ l, level = 4 → i.1 < 256)
    (hd : During mem₀ l4 k) (hc : Outside mem₀ l4 k c)
    (hzero : ∀ i ∈ l, (k.mem c i).isPresent = false) :
    tryExec (turn' p c) k l = tryExec (turn p c) k l := by
  induction l generalizing k with
  | nil => rfl
  | cons i l ih =>
    obtain ⟨hi, hnodup⟩ := nodup_cons.mp hnodup
    have huser := hl i mem_cons_self
    rw [tryExec, tryExec, hsame hd hc huser]
    rcases heq : turn p c k i with ⟨_ | ⟨⟩, k₁⟩
    · rfl
    obtain ⟨hlater, -⟩ := hturn hd hp hc huser (hzero i mem_cons_self) heq
    refine ih hnodup (fun j hj => hl j (mem_cons_of_mem i hj))
      (hd.later hlater hc.not_written) (hc.later hlater) fun j hj => ?_
    rw [hlater.mem hc.1 (hc.2 1) fun hX => hi (hX.2 ▸ hj)]
    exact hzero j (mem_cons_of_mem i hj)

def SameClone (mem₀ : PhysMem) (l4 level : ℕ)
    (fork clone : ℕ → ℕ → Kernel → Except AddressSpaceError Unit × Kernel) : Prop :=
  ∀ ⦃p c k⦄, During mem₀ l4 k → IsTable mem₀ l4 level p → Outside mem₀ l4 k c →
    (∀ i, (k.mem c i).isPresent = false) → fork p c k = clone p c k

theorem Entry.frame?_readOnly {e : Entry} : e.readOnly.frame? strict = e.frame? strict := by
  simp [frame?, frame_readOnly]

theorem forkL1Entry_eq (hne : p ≠ c) :
    forkL1Entry strict p c k i = cloneL1Entry strict p c k i := by
  cases hpres : (k.mem p i).isPresent with
  | false => simp [forkL1Entry, cloneL1Entry, hpres]
  | true =>
    have hentry : setAddr (k.mem p i).addr ((k.mem p i).flags &&& ~~~Flag.writable) =
        (k.mem p i).readOnly := rfl
    rw [cloneL1Entry_of_present hpres hne]
    simp only [forkL1Entry, hpres, Bool.not_true, Bool.false_eq_true, if_false, hentry]
    rw [PhysMem.write_apply, if_pos ⟨rfl, rfl⟩, share, share, frame?_readOnly]

theorem sameClone_forkL1 : SameClone mem₀ l4 1 (forkL1 strict) (cloneL1 strict) := by
  intro p c k hd hp hc hzero
  refine (turnClones_cloneL1Entry mem₀ l4 strict).loop_congr hp (fun _ hc' _ => ?_)
    (nodup_finRange 512) (fun _ _ hfour => by cases hfour) hd hc fun i _ => hzero i
  exact forkL1Entry_eq fun heq => hc'.2 1 (heq ▸ hp)

variable {fork clone : ℕ → ℕ → Kernel → Except AddressSpaceError Unit × Kernel}

section

variable (hplain : PlainTree mem₀ l4)
include hplain

theorem forkEntry_eq {huge : Entry → Bool} (hhuge : ∀ e : Entry, huge e = e.isLeaf (level + 1))
    (hlevel : 1 ≤ level) (hbelow : SameClone mem₀ l4 level fork clone) (hd : During mem₀ l4 k)
    (hp : IsTable mem₀ l4 (level + 1) p) (hi : level + 1 = 4 → i.1 < 256) :
    forkEntry strict huge fork p c k i = cloneEntry strict huge clone p c k i := by
  have hsame : k.mem p i = mem₀ p i := congrFun (hd.same hp (by omega)) i
  cases hpres : (k.mem p i).isPresent with
  | false => simp [forkEntry, cloneEntry, hpres]
  | true =>
    rw [hsame] at hpres
    have hleaf : (mem₀ p i).isLeaf (level + 1) = false := by
      simp only [isLeaf, hplain _ p i hp hi hpres, Bool.and_false, Bool.or_false,
        decide_eq_false_iff_not]
      omega
    have htable : IsTable mem₀ l4 level (mem₀ p i).frame :=
      hp.under (fun h3 => hi (by omega)) hpres hleaf
    simp only [forkEntry, cloneEntry, hsame, hpres, hhuge, hleaf, Bool.not_true,
      Bool.false_eq_true, if_false]
    rcases hnew : k.allocateTable with ⟨_ | table, k₁⟩
    · rfl
    obtain ⟨-, hout, -, hzero, hlater⟩ := allocateTable_eq_ok hd hnew
    have hfork := hbelow (hd.later hlater fun _ _ => id) htable hout hzero
    rcases hclone : clone (mem₀ p i).frame table k₁ with ⟨_ | ⟨⟩, k₂⟩
    · simp [hfork, hclone]
    · simp [hfork, hclone]

theorem sameClone_forkTable (hlevel : 1 ≤ level) (hthree : level + 1 ≤ 3)
    (hclones : Clones mem₀ l4 level clone) (hbelow : SameClone mem₀ l4 level fork clone) :
    SameClone mem₀ l4 (level + 1)
      (fun p c k => tryExec (forkEntry strict isHuge fork p c) k (finRange 512))
      (fun p c k =>
        tryExec (cloneEntry strict isHuge clone p c) k (finRange 512)) := by
  have hhuge : ∀ e : Entry, e.isHuge = e.isLeaf (level + 1) := fun e => by
    have habove : ¬ level + 1 ≤ 1 := by omega
    simp [isLeaf, habove, hthree]
  intro p c k hd hp hc hzero
  refine (turnClones_cloneEntry strict isHuge hclones hlevel hhuge).loop_congr hp
    (fun hd' _ hi => forkEntry_eq hplain hhuge hlevel hbelow hd' hp hi)
    (nodup_finRange 512) (fun _ _ hfour => by omega) hd hc fun i _ => hzero i

theorem sameClone_forkL2 : SameClone mem₀ l4 2 (forkL2 strict) (cloneL2 strict) := by
  intro p c k hd hp hc hzero
  rw [forkL2, cloneL2]
  exact sameClone_forkTable hplain (by decide) (by decide) (clones_cloneL1 mem₀ l4 strict)
    sameClone_forkL1 hd hp hc hzero

theorem sameClone_forkL3 : SameClone mem₀ l4 3 (forkL3 strict) (cloneL3 strict) := by
  intro p c k hd hp hc hzero
  rw [forkL3, cloneL3]
  exact sameClone_forkTable hplain (by decide) (by decide) (clones_cloneL2 mem₀ l4 strict)
    (sameClone_forkL2 hplain) hd hp hc hzero

theorem forkL4_eq (hd : During mem₀ l4 k) (hc : Outside mem₀ l4 k c)
    (hzero : ∀ i : Fin 512, i.1 < 256 → (k.mem c i).isPresent = false) :
    forkL4 strict l4 c k = cloneL4 strict l4 c k := by
  rw [forkL4, cloneL4]
  exact (turnClones_cloneEntry strict (fun _ => false) (clones_cloneL3 mem₀ l4 strict)
    (by decide) fun _ => rfl).loop_congr .root
    (fun hd' _ hi =>
      forkEntry_eq hplain (fun _ => rfl) (by decide) (sameClone_forkL3 hplain) hd' .root hi)
    ((nodup_finRange 512).filter _) (fun i hi _ => mem_userHalf.mp hi) hd hc
    fun i hi => hzero i (mem_userHalf.mp hi)

end

theorem Kernel.clonePageTablesCow_eq (k : Kernel) (space : AddressSpace) (hvalid : k.frames.Valid)
    (htree : PageTree k space.l4) (hplain : PlainTree k.mem space.l4) (strict : Bool) :
    k.clonePageTablesCow strict space.l4 =
      ((k.cloneCow strict space).1.map AddressSpace.l4, (k.cloneCow strict space).2) := by
  have hd : During k.mem space.l4 k := ⟨hvalid, htree.used _ _, htree.last _ _, fun _ _ => rfl⟩
  rw [clonePageTablesCow, cloneCow]
  rcases hnew : k.allocateTable with ⟨_ | new, k₁⟩
  · rfl
  obtain ⟨-, hout, -, hzero, hl₁⟩ := allocateTable_eq_ok hd hnew
  have hd₁ := hd.later hl₁ fun _ _ => id
  have hl₂ := later_copyKernelHalf hd₁.valid hout space.l4
  have hd₂ := hd₁.later hl₂ fun ht _ heq => hout.2 _ (heq ▸ ht)
  have hzero₂ : ∀ i : Fin 512, i.1 < 256 →
      ((k₁.copyKernelHalf space.l4 new).mem new i).isPresent = false := by
    intro i hi
    simpa [copyKernelHalf, hi] using hzero i
  simp only [forkL4_eq hplain hd₂ (hout.later hl₂) hzero₂]
  rcases cloneL4 strict space.l4 new (k₁.copyKernelHalf space.l4 new) with ⟨_ | ⟨⟩, k₂⟩
  · rfl
  · rfl

end Clones

end IonaOs.Process
