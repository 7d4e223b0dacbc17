import IonaOs.Process.Mmap

/-!
# Fork by copy on write
-/

namespace IonaOs.Process

open Lib Memory PhysMem FrameAllocator BitVec Entry

namespace Entry

/-- The method `frame`.  With some versions of the crate it fails for entries with the flag
`HUGE_PAGE` (`strict`), with others it does not. -/
def frame? (strict : Bool) (e : Entry) : Option ℕ :=
  if !isPresent e || (strict && isHuge e) then none else some (frame e)

def readOnly (e : Entry) : Entry := setFlags e (flags e &&& ~~~Flag.writable)

end Entry

/-- `l4` is the frame of the first table. -/
structure AddressSpace where
  l4 : ℕ
  userBase : UInt64
  stackTop : UInt64
  entryPoint : UInt64
  argc : UInt64
  mappedPages : UInt64
  pageTables : UInt64
  locked : Bool
deriving DecidableEq

namespace Kernel

variable (k : Kernel)

def allocateTable : Except AddressSpaceError ℕ × Kernel :=
  match k.frames.allocateOne with
  | (.error _, frames) => (.error .outOfMemory, { k with frames })
  | (.ok new, frames) => (.ok new, { k with frames, mem := Function.update k.mem new fun _ => 0 })

variable (strict : Bool)

/-- `inc_ref` for the frame of an entry, if `frame` returns one. -/
def share (e : Entry) : Kernel :=
  match e.frame? strict with
  | none => k
  | some f => { k with frames := (k.frames.incRef f).2 }

def cloneL1Entry (parent new : ℕ) (k : Kernel) (i : Fin 512) :
    Except AddressSpaceError Unit × Kernel :=
  let l1e := k.mem parent i
  if !l1e.isPresent then (.ok (), k)
  else
    let flags := l1e.flags &&& ~~~Flag.writable
    let copied := k.mem.write new i (l1e.setFlags flags)
    let mem := copied.write parent i ((copied parent i).setFlags flags)
    (.ok (), { k with mem }.share strict l1e)

def cloneL1 (parent new : ℕ) (k : Kernel) :
    Except AddressSpaceError Unit × Kernel :=
  tryExec (cloneL1Entry strict parent new) k (List.finRange 512)

def cloneEntry (huge : Entry → Bool)
    (cloneBelow : ℕ → ℕ → Kernel → Except AddressSpaceError Unit × Kernel) (parent new : ℕ)
    (k : Kernel) (i : Fin 512) : Except AddressSpaceError Unit × Kernel :=
  let e := k.mem parent i
  if !e.isPresent then (.ok (), k)
  else if huge e then
    (.ok (), { k with mem := k.mem.write new i e.readOnly }.share strict e)
  else
    match k.allocateTable with
    | (.error err, k) => (.error err, k)
    | (.ok table, k) =>
      match cloneBelow e.frame table k with
      | (.error err, k) => (.error err, k)
      | (.ok (), k) =>
        let link : Entry := .setAddr (frameAddr table) (k.mem parent i).flags
        (.ok (), { k with mem := k.mem.write new i link })

def cloneL2 (parent new : ℕ) (k : Kernel) :
    Except AddressSpaceError Unit × Kernel :=
  tryExec (cloneEntry strict isHuge (cloneL1 strict) parent new) k (List.finRange 512)

def cloneL3 (parent new : ℕ) (k : Kernel) :
    Except AddressSpaceError Unit × Kernel :=
  tryExec (cloneEntry strict isHuge (cloneL2 strict) parent new) k (List.finRange 512)

def userHalf : List (Fin 512) := (List.finRange 512).filter (·.1 < 256)

def cloneL4 (parent new : ℕ) (k : Kernel) :
    Except AddressSpaceError Unit × Kernel :=
  tryExec (cloneEntry strict (fun _ => false) (cloneL3 strict) parent new) k userHalf

def copyKernelHalf (parent new : ℕ) : Kernel :=
  let table : PageTable := fun i => if i.1 < 256 then k.mem new i else k.mem parent i
  { k with mem := Function.update k.mem new table }

def cloneCow (space : AddressSpace) :
    Except AddressSpaceError AddressSpace × Kernel :=
  match k.allocateTable with
  | (.error err, k) => (.error err, k)
  | (.ok new, k) =>
    match cloneL4 strict space.l4 new (k.copyKernelHalf space.l4 new) with
    | (.error err, k) => (.error err, k)
    | (.ok (), k) =>
      (.ok { space with l4 := new, pageTables := space.pageTables + 1, locked := false }, k)

end Kernel

open Kernel hiding share

/-! ## Trees -/

def Entry.isLeaf (e : Entry) (level : ℕ) : Bool :=
  decide (level ≤ 1) || (decide (level ≤ 3) && isHuge e)

def walkFrom (mem : PhysMem) (virt : UInt64) : ℕ → ℕ → Except AddressSpaceError (Entry × ℕ)
  | 0, _ => .error .notMapped
  | level + 1, table =>
    let e := mem table (index (level + 1) virt)
    if !e.isPresent then .error .notMapped
    else if e.isLeaf (level + 1) then .ok (e, level + 1)
    else walkFrom mem virt level e.frame

theorem walkPageTables_eq (mem : PhysMem) (table : ℕ) (virt : UInt64) :
    walkPageTables mem table virt =
      if isCanonical virt then walkFrom mem virt 4 table else .error .invalidAddress := by
  cases h : isCanonical virt with
  | false => simp [walkPageTables, h]
  | true => simp [walkPageTables, walkFrom, isLeaf, h]

section Walk

variable {mem : PhysMem} {virt : UInt64} {level t : ℕ}

theorem walkFrom_of_absent (h : (mem t (index (level + 1) virt)).isPresent = false) :
    walkFrom mem virt (level + 1) t = .error .notMapped := by
  simp [walkFrom, h]

section

variable (h : (mem t (index (level + 1) virt)).isPresent = true)
include h

theorem walkFrom_of_leaf (hleaf : (mem t (index (level + 1) virt)).isLeaf (level + 1) = true) :
    walkFrom mem virt (level + 1) t = .ok (mem t (index (level + 1) virt), level + 1) := by
  simp [walkFrom, h, hleaf]

theorem walkFrom_of_table (hleaf : (mem t (index (level + 1) virt)).isLeaf (level + 1) = false) :
    walkFrom mem virt (level + 1) t =
      walkFrom mem virt level (mem t (index (level + 1) virt)).frame := by
  simp [walkFrom, h, hleaf]

end

end Walk

variable {level : ℕ} {e : Entry}

theorem Entry.ne_zero_of_not_leaf (h : e.isLeaf (level + 1) = false) : level ≠ 0 := by
  rintro rfl
  simp [isLeaf] at h

inductive IsTable (mem : PhysMem) (l4 : ℕ) : ℕ → ℕ → Prop
  | root : IsTable mem l4 4 l4
  | under {level table : ℕ} {i : Fin 512} (h : IsTable mem l4 (level + 1) table)
      (hi : level = 3 → i.1 < 256) (hpres : (mem table i).isPresent = true)
      (hleaf : (mem table i).isLeaf (level + 1) = false) :
      IsTable mem l4 level (mem table i).frame

structure PageTree (k : Kernel) (l4 : ℕ) : Prop where
  used : ∀ level f, IsTable k.mem l4 level f → ¬ k.frames.Free f
  last : ∀ level f, IsTable k.mem l4 1 f → IsTable k.mem l4 level f → level = 1

def IsUser (virt : UInt64) : Prop := virt.toNat < 2 ^ 47

def ReadOnlyInBoth (mem : PhysMem) (parent child : ℕ) : Prop :=
  ∀ virt, IsUser virt → ∀ e level e' level', walkPageTables mem parent virt = .ok (e, level) →
    walkPageTables mem child virt = .ok (e', level') →
      e.isWritable = false ∧ e'.isWritable = false

def HugeReadOnly (mem : PhysMem) (l4 : ℕ) : Prop :=
  ∀ virt, IsUser virt → ∀ e level, walkPageTables mem l4 virt = .ok (e, level) → level ≠ 1 →
    e.isWritable = false

variable {mem : PhysMem} {f l4 : ℕ}

theorem IsTable.le (h : IsTable mem l4 level f) : level ≤ 4 := by
  induction h with
  | root => exact le_refl 4
  | under => omega

theorem IsTable.pos (h : IsTable mem l4 level f) : 0 < level := by
  cases h with
  | root => decide
  | under _ _ _ hleaf => exact Nat.pos_of_ne_zero (ne_zero_of_not_leaf hleaf)

variable {virt : UInt64}

theorem IsUser.index_lt (h : IsUser virt) : (index 4 virt).1 < 256 := by
  have hlt : virt.toNat / 2 ^ 39 < 256 := by
    rw [Nat.div_lt_iff_lt_mul (by decide)]
    exact h
  exact (Nat.mod_le _ _).trans_lt hlt

theorem IsTable.exists_of_walkFrom {p n : ℕ} (hp : IsTable mem l4 level p)
    (hi : level = 4 → (index 4 virt).1 < 256) (h : walkFrom mem virt level p = .ok (e, n)) :
    ∃ t i, IsTable mem l4 n t ∧ mem t i = e ∧ e.isPresent = true ∧ e.isLeaf n = true := by
  induction level generalizing p with
  | zero => cases h
  | succ level ih =>
    cases hpres : (mem p (index (level + 1) virt)).isPresent with
    | false =>
      rw [walkFrom_of_absent hpres] at h
      cases h
    | true =>
      cases hleaf : (mem p (index (level + 1) virt)).isLeaf (level + 1) with
      | true =>
        rw [walkFrom_of_leaf hpres hleaf] at h
        cases h
        exact ⟨p, _, hp, rfl, hpres, hleaf⟩
      | false =>
        rw [walkFrom_of_table hpres hleaf] at h
        have hle := hp.le
        refine ih (hp.under ?_ hpres hleaf) (fun h4 => by omega) h
        rintro rfl
        exact hi rfl

theorem exists_table_of_walk {n : ℕ} (hi : IsUser virt)
    (h : walkPageTables mem l4 virt = .ok (e, n)) :
    ∃ t i, IsTable mem l4 n t ∧ mem t i = e ∧ e.isPresent = true ∧ e.isLeaf n = true := by
  rw [walkPageTables_eq] at h
  split at h
  · exact IsTable.root.exists_of_walkFrom (fun _ => hi.index_lt) h
  · cases h

/-! ## Entries -/

namespace Entry

variable {e : Entry} {i : ℕ}

theorem getLsbD_flags (hi : i < 64) :
    (flags e).getLsbD i = (e.getLsbD i && !(decide (12 ≤ i) && decide (i < 52))) := by
  rw [flags, getLsbD_and, getLsbD_not, getLsbD_addrMask, decide_eq_true hi, Bool.true_and]

theorem getLsbD_readOnly (hi : i < 64) :
    (readOnly e).getLsbD i = (e.getLsbD i && decide (i ≠ 1)) := by
  have hwritable : Flag.writable.getLsbD i = decide (i = 1) := by
    have hall : ∀ j : Fin 64, Flag.writable.getLsbD j = decide (j.1 = 1) := by decide
    exact hall ⟨i, hi⟩
  rw [readOnly, setFlags, getLsbD_or, getLsbD_addr, getLsbD_and, getLsbD_flags hi,
    getLsbD_not, hwritable, decide_eq_true hi, Bool.true_and]
  by_cases hone : i = 1
  · subst hone
    simp
  cases e.getLsbD i with
  | false => rfl
  | true =>
    simp only [Bool.true_and, decide_not, decide_eq_false hone, Bool.not_false, Bool.and_true]
    exact Bool.or_not_self _

@[simp] theorem isPresent_readOnly : (readOnly e).isPresent = e.isPresent := by
  rw [isPresent, isPresent, getLsbD_readOnly (by decide)]
  exact Bool.and_true _

@[simp] theorem isHuge_readOnly : (readOnly e).isHuge = e.isHuge := by
  rw [isHuge, isHuge, getLsbD_readOnly (by decide)]
  exact Bool.and_true _

@[simp] theorem isWritable_readOnly : (readOnly e).isWritable = false := by
  rw [isWritable, getLsbD_readOnly (by decide)]
  exact Bool.and_false _

@[simp] theorem isLeaf_readOnly : (readOnly e).isLeaf level = e.isLeaf level := by
  simp [isLeaf]

theorem addr_readOnly : (readOnly e).addr = e.addr := by
  refine eq_of_getLsbD_eq fun i hi => ?_
  rw [getLsbD_addr, getLsbD_addr, getLsbD_readOnly hi]
  by_cases hone : i = 1
  · subst hone
    simp
  · simp [hone]

theorem readOnly_of_not_writable (h : e.isWritable = false) : readOnly e = e := by
  refine eq_of_getLsbD_eq fun i hi => ?_
  rw [getLsbD_readOnly hi]
  by_cases hone : i = 1
  · subst hone
    exact (Bool.and_false _).trans h.symm
  · simp [hone]

theorem readOnly_readOnly : (readOnly e).readOnly = readOnly e :=
  readOnly_of_not_writable isWritable_readOnly

theorem getLsbD_setAddr_flags (hf : f < 2 ^ 40) (hi : i < 12) :
    (setAddr (frameAddr f) (flags e)).getLsbD i = e.getLsbD i := by
  have hlow : ¬ 12 ≤ i := by omega
  rw [setAddr, getLsbD_or, getLsbD_frameAddr hf, getLsbD_flags (by omega)]
  simp [hlow]

theorem frame_setAddr_flags (hf : f < 2 ^ 40) : frame (setAddr (frameAddr f) (flags e)) = f := by
  refine frame_setAddr hf ?_
  rw [flags, BitVec.and_assoc, BitVec.not_and_self]
  exact and_zero

end Entry

/-! ## What a clone changes -/

def Cleared (e e' : Entry) : Prop := e' = e ∨ e.isPresent = true ∧ e' = e.readOnly

variable {e' : Entry}

section

variable (h : Cleared e e')
include h

theorem Cleared.trans {e'' : Entry} (h' : Cleared e' e'') : Cleared e e'' := by
  rcases h with rfl | ⟨hpres, rfl⟩
  · exact h'
  · rcases h' with rfl | ⟨-, rfl⟩
    · exact .inr ⟨hpres, rfl⟩
    · exact .inr ⟨hpres, readOnly_readOnly⟩

theorem Cleared.isPresent : e'.isPresent = e.isPresent := by
  rcases h with rfl | ⟨-, rfl⟩
  · rfl
  · exact isPresent_readOnly

theorem Cleared.isLeaf : e'.isLeaf level = e.isLeaf level := by
  rcases h with rfl | ⟨-, rfl⟩
  · rfl
  · exact isLeaf_readOnly

theorem Cleared.addr : e'.addr = e.addr := by
  rcases h with rfl | ⟨-, rfl⟩
  · rfl
  · exact addr_readOnly

end

section Clone

variable {mem₀ : PhysMem} {l4 : ℕ} {k k' k₁ k₂ : Kernel} {X Y : ℕ → Fin 512 → Prop}
variable {level p c t : ℕ} {i : Fin 512} {strict : Bool}

/-- A state while the tree that was in `mem₀` is cloned. -/
structure During (mem₀ : PhysMem) (l4 : ℕ) (k : Kernel) : Prop where
  valid : k.frames.Valid
  used : ∀ {level f}, IsTable mem₀ l4 level f → ¬ k.frames.Free f
  last : ∀ {level f}, IsTable mem₀ l4 1 f → IsTable mem₀ l4 level f → level = 1
  same : ∀ {level f}, IsTable mem₀ l4 level f → 2 ≤ level → k.mem f = mem₀ f

/-- Between two states, frames were taken and filled, write bits of the last tables were cleared,
and the words `X` were written. -/
structure Later (mem₀ : PhysMem) (l4 : ℕ) (X : ℕ → Fin 512 → Prop) (k k' : Kernel) : Prop where
  valid : k'.frames.Valid
  free : ∀ {f}, k'.frames.Free f → k.frames.Free f
  mem : ∀ {f i}, ¬ k.frames.Free f → ¬ IsTable mem₀ l4 1 f → ¬ X f i → k'.mem f i = k.mem f i
  last : ∀ {f}, IsTable mem₀ l4 1 f → ∀ i, Cleared (k.mem f i) (k'.mem f i)

theorem Later.refl (h : k.frames.Valid) : Later mem₀ l4 X k k :=
  ⟨h, id, fun _ _ _ => rfl, fun _ _ => .inl rfl⟩

theorem Later.trans (h : Later mem₀ l4 X k k₁) (h' : Later mem₀ l4 Y k₁ k₂)
    (hY : ∀ f i, ¬ k.frames.Free f → Y f i → X f i) : Later mem₀ l4 X k k₂ := by
  refine ⟨h'.valid, fun hf => h.free (h'.free hf), ?_, ?_⟩
  · intro f i hfree hlast hX
    have hfree' : ¬ k₁.frames.Free f := fun hf => hfree (h.free hf)
    exact (h'.mem hfree' hlast fun hin => hX (hY f i hfree hin)).trans (h.mem hfree hlast hX)
  · exact fun hlast i => (h.last hlast i).trans (h'.last hlast i)

theorem Later.mono (h : Later mem₀ l4 X k k') (hX : ∀ f i, ¬ k.frames.Free f → X f i → Y f i) :
    Later mem₀ l4 Y k k' :=
  ⟨h.valid, h.free, fun hfree hlast hY => h.mem hfree hlast fun hin => hY (hX _ _ hfree hin),
    h.last⟩

theorem During.later (hd : During mem₀ l4 k) (h : Later mem₀ l4 X k k')
    (hX : ∀ {level f}, IsTable mem₀ l4 level f → ∀ i, ¬ X f i) : During mem₀ l4 k' := by
  refine ⟨h.valid, fun ht hfree => hd.used ht (h.free hfree), hd.last, ?_⟩
  intro level f ht hlevel
  rw [← hd.same ht hlevel]
  funext i
  refine h.mem (hd.used ht) ?_ (hX ht i)
  intro hlast
  have hone := hd.last hlast ht
  omega

def Outside (mem₀ : PhysMem) (l4 : ℕ) (k : Kernel) (c : ℕ) : Prop :=
  ¬ k.frames.Free c ∧ ∀ level, ¬ IsTable mem₀ l4 level c

theorem Outside.later (hc : Outside mem₀ l4 k c) (h : Later mem₀ l4 X k k') :
    Outside mem₀ l4 k' c :=
  ⟨fun hfree => hc.1 (h.free hfree), hc.2⟩

theorem Outside.not_written (hc : Outside mem₀ l4 k c) (h : IsTable mem₀ l4 level t) (j : Fin 512) :
    ¬ (t = c ∧ j = i) :=
  fun heq => hc.2 level (heq.1 ▸ h)

theorem later_write (h : k.frames.Valid) (hc : Outside mem₀ l4 k c) (e : Entry) :
    Later mem₀ l4 (fun f j => f = c ∧ j = i) k { k with mem := k.mem.write c i e } := by
  refine ⟨h, id, ?_, ?_⟩
  · intro f j _ _ hne
    exact (write_apply _ _ _ _ _ _).trans (if_neg hne)
  · intro f hlast j
    exact .inl ((write_apply _ _ _ _ _ _).trans (if_neg (hc.not_written hlast j)))

theorem mem_share (k : Kernel) (e : Entry) : (k.share strict e).mem = k.mem := by
  unfold Kernel.share
  split
  · rfl
  · rfl

theorem Later.share (h : Later mem₀ l4 X k k') (e : Entry) :
    Later mem₀ l4 X k (k'.share strict e) := by
  unfold Kernel.share
  split
  · exact h
  · exact ⟨h.valid.incRef, fun hf => h.free ((free_incRef _ _ _).mp hf), h.mem, h.last⟩

theorem lt_of_free {a : FrameAllocator} (hfree : a.Free f) : f < 524288 := by
  have hmax := a.bitmap.maxFrames_le
  have hin : ¬ a.bitmap.maxFrames ≤ f := by
    intro hge
    have hused := hfree.1
    rw [RawBitmapAllocator.isFree, if_pos hge] at hused
    cases hused
  have hcap : Constants.maxFrames = 524288 := by decide
  omega

theorem allocateTable_eq_ok (hd : During mem₀ l4 k) (h : k.allocateTable = (.ok t, k₁)) :
    k.frames.Free t ∧ Outside mem₀ l4 k₁ t ∧ t < 2 ^ 40 ∧ (∀ i, (k₁.mem t i).isPresent = false) ∧
      Later mem₀ l4 (fun _ _ => False) k k₁ := by
  rcases allocateOne_cases hd.valid with ⟨hnone, -⟩ | ⟨f, hfree, hsome⟩
  · simp [allocateTable, hnone] at h
  have hvalid := hd.valid.allocateOne
  have hleft : ∀ g, k.frames.allocateOne.2.Free g → k.frames.Free g ∧ g ≠ f := by
    intro g hg
    have hg' := (free_allocateOne hd.valid).mp hg
    refine ⟨hg'.1, ?_⟩
    rintro rfl
    exact hg'.2 (by rw [hsome])
  rw [hsome] at hvalid hleft
  simp only [allocateTable, hsome, Prod.mk.injEq, Except.ok.injEq] at h
  obtain ⟨rfl, rfl⟩ := h
  refine ⟨hfree, ⟨fun hf => (hleft f hf).2 rfl, fun level ht => hd.used ht hfree⟩,
    (lt_of_free hfree).trans (by decide), ?_, hvalid, fun hf => (hleft _ hf).1, ?_, ?_⟩
  · intro i
    simp [isPresent]
  · intro g i hg _ _
    have hne : g ≠ f := fun heq => hg (heq ▸ hfree)
    simp [hne]
  · intro g hlast i
    have hne : g ≠ f := fun heq => hd.used hlast (heq ▸ hfree)
    exact .inl (by simp [hne])

/-! ## Mirrors -/

/-- In the table `c` of the child the entry is a copy of that in the table `p` of the parent, and so
are the tables below, which are frames that meet `own`. -/
def MirrorsAt (own : ℕ → Prop) (mem : PhysMem) : ℕ → ℕ → ℕ → Fin 512 → Prop
  | 0, _, _, _ => True
  | level + 1, p, c, i =>
    (mem c i).isPresent = (mem p i).isPresent ∧ ((mem p i).isPresent = true →
      if (mem p i).isLeaf (level + 1) = true then
        mem c i = (mem p i).readOnly ∧ (level = 0 → (mem p i).isWritable = false)
      else (mem c i).isLeaf (level + 1) = false ∧ own (mem c i).frame ∧
        ∀ j, MirrorsAt own mem level (mem p i).frame (mem c i).frame j)

variable {own : ℕ → Prop}

theorem MirrorsAt.mono {own' : ℕ → Prop} (h : MirrorsAt own mem level p c i)
    (hown : ∀ f, own f → own' f) : MirrorsAt own' mem level p c i := by
  induction level generalizing p c i with
  | zero => trivial
  | succ _ ih =>
    refine ⟨h.1, fun hpres => ?_⟩
    have hentry := h.2 hpres
    split_ifs at hentry ⊢
    · exact hentry
    · exact ⟨hentry.1, hown _ hentry.2.1, fun j => ih (hentry.2.2 j)⟩

theorem MirrorsAt.later {own' : ℕ → Prop} (h : MirrorsAt own k.mem level p c i)
    (hd : During mem₀ l4 k) (hd' : During mem₀ l4 k') (hl : Later mem₀ l4 X k k')
    (hp : IsTable mem₀ l4 level p) (hi : level = 4 → i.1 < 256) (hc : Outside mem₀ l4 k c ∧ ¬ X c i)
    (hown : ∀ f, own f → (Outside mem₀ l4 k f ∧ ∀ j, ¬ X f j) ∧ own' f) :
    MirrorsAt own' k'.mem level p c i := by
  induction level generalizing p c i with
  | zero => trivial
  | succ level ih =>
    have hchild : k'.mem c i = k.mem c i := hl.mem hc.1.1 (hc.1.2 1) hc.2
    have hparent : k'.mem p i = k.mem p i := by
      cases level with
      | zero =>
        rcases hl.last hp i with heq | ⟨hpres, heq⟩
        · exact heq
        · have hleaf := h.2 hpres
          rw [if_pos (by simp [isLeaf])] at hleaf
          rw [heq, readOnly_of_not_writable (hleaf.2 rfl)]
      | succ => rw [hd'.same hp (by omega), hd.same hp (by omega)]
    rw [MirrorsAt] at h ⊢
    rw [hchild, hparent]
    refine ⟨h.1, fun hpres => ?_⟩
    have hentry := h.2 hpres
    by_cases hleaf : (k.mem p i).isLeaf (level + 1) = true
    · rwa [if_pos hleaf] at hentry ⊢
    rw [if_neg hleaf] at hentry ⊢
    obtain ⟨hnot, hframe, hbelow⟩ := hentry
    obtain ⟨hkeep, hframe'⟩ := hown _ hframe
    have hpos := ne_zero_of_not_leaf (Bool.not_eq_true _ ▸ hleaf)
    have hlevel : 2 ≤ level + 1 := by omega
    have hsame : k.mem p i = mem₀ p i := congrFun (hd.same hp hlevel) i
    have hle := hp.le
    have htable : IsTable mem₀ l4 level (k.mem p i).frame := by
      rw [hsame] at hpres hleaf ⊢
      exact hp.under (fun h3 => hi (by omega)) hpres (Bool.not_eq_true _ ▸ hleaf)
    exact ⟨hnot, hframe', fun j =>
      ih (hbelow j) htable (fun h4 => by omega) ⟨hkeep.1, hkeep.2 j⟩⟩

/-! ## Loops -/

def taken (k k' : Kernel) (f : ℕ) : Prop := k.frames.Free f ∧ ¬ k'.frames.Free f

def TurnClones (mem₀ : PhysMem) (l4 level : ℕ)
    (turn : ℕ → ℕ → Kernel → Fin 512 → Except AddressSpaceError Unit × Kernel) : Prop :=
  ∀ ⦃p c k k' i⦄, During mem₀ l4 k → IsTable mem₀ l4 level p → Outside mem₀ l4 k c →
    (level = 4 → i.1 < 256) → (k.mem c i).isPresent = false → turn p c k i = (.ok (), k') →
      Later mem₀ l4 (fun f j => f = c ∧ j = i) k k' ∧
        MirrorsAt (taken k k') k'.mem level p c i

theorem MirrorsAt.turn {k₀ : Kernel} {j : Fin 512} (h : MirrorsAt (taken k₀ k) k.mem level p c j)
    (hd₀ : During mem₀ l4 k₀) (hd : During mem₀ l4 k) (hc : Outside mem₀ l4 k₀ c)
    (hl : Later mem₀ l4 (fun f j => f = c ∧ j = i) k k') (hp : IsTable mem₀ l4 level p)
    (hj : level = 4 → j.1 < 256) (hc' : Outside mem₀ l4 k c) (hne : j ≠ i) :
    MirrorsAt (taken k₀ k') k'.mem level p c j := by
  refine h.later hd (hd.later hl hc.not_written) hl hp hj ⟨hc', fun heq => hne heq.2⟩ ?_
  rintro f ⟨hfree, hused⟩
  refine ⟨⟨⟨hused, fun level ht => hd₀.used ht hfree⟩, ?_⟩, hfree, fun hf => hused (hl.free hf)⟩
  rintro j ⟨rfl, -⟩
  exact hc.1 hfree

variable {turn : ℕ → ℕ → Kernel → Fin 512 → Except AddressSpaceError Unit × Kernel}

theorem TurnClones.loop (hturn : TurnClones mem₀ l4 level turn) {l : List (Fin 512)}
    (hnodup : l.Nodup) (hl : ∀ i ∈ l, level = 4 → i.1 < 256) (hd : During mem₀ l4 k)
    (hp : IsTable mem₀ l4 level p) (hc : Outside mem₀ l4 k c)
    (hzero : ∀ i ∈ l, (k.mem c i).isPresent = false) (hok : tryExec (turn p c) k l = (.ok (), k')) :
    Later mem₀ l4 (fun f j => f = c ∧ j ∈ l) k k' ∧
      ∀ i ∈ l, MirrorsAt (taken k k') k'.mem level p c i := by
  let I (s : Kernel) := During mem₀ l4 s ∧ Later mem₀ l4 (fun f j => f = c ∧ j ∈ l) k s
  let P (s : Kernel) (i : Fin 512) := i ∈ l ∧ (s.mem c i).isPresent = false
  let Q (s : Kernel) (i : Fin 512) :=
    (level = 4 → i.1 < 256) ∧ MirrorsAt (taken k s) s.mem level p c i
  have hstep : ∀ s i s', I s → P s i → turn p c s i = (.ok (), s') →
      I s' ∧ Q s' i ∧ ∀ j ≠ i, (P s j → P s' j) ∧ (Q s j → Q s' j) := by
    rintro s i s' ⟨hs, hlater⟩ ⟨hi, hempty⟩ hstep
    have hc' := hc.later hlater
    obtain ⟨hl', hmirror⟩ := hturn hs hp hc' (hl i hi) hempty hstep
    have hs' := hs.later hl' hc.not_written
    refine ⟨⟨hs', hlater.trans hl' ?_⟩, ⟨hl i hi, ?_⟩, ?_⟩
    · rintro f j - ⟨rfl, rfl⟩
      exact ⟨rfl, hi⟩
    · refine hmirror.mono ?_
      rintro f ⟨hfree, hused⟩
      exact ⟨hlater.free hfree, hused⟩
    · intro j hne
      refine ⟨fun hpending => ⟨hpending.1, ?_⟩, fun hdone => ⟨hdone.1, ?_⟩⟩
      · rw [hl'.mem hc'.1 (hc'.2 1) fun heq => hne heq.2]
        exact hpending.2
      · exact hdone.2.turn hd hs hc hl' hp hdone.1 hc' hne
  obtain ⟨⟨-, hlater⟩, hdone, -⟩ := tryExec_each hstep ⟨hd, .refl hd.valid⟩
    (fun i hi => ⟨hi, hzero i hi⟩) hnodup hok
  exact ⟨hlater, fun i hi => (hdone i hi).2⟩

def Clones (mem₀ : PhysMem) (l4 level : ℕ)
    (clone : ℕ → ℕ → Kernel → Except AddressSpaceError Unit × Kernel) : Prop :=
  ∀ ⦃p c k k'⦄, During mem₀ l4 k → IsTable mem₀ l4 level p → Outside mem₀ l4 k c →
    (∀ i, (k.mem c i).isPresent = false) → clone p c k = (.ok (), k') →
      Later mem₀ l4 (fun f _ => f = c) k k' ∧
        ∀ i, MirrorsAt (taken k k') k'.mem level p c i

theorem TurnClones.clones (hturn : TurnClones mem₀ l4 level turn) (hlevel : level ≠ 4) :
    Clones mem₀ l4 level fun p c k => tryExec (turn p c) k (List.finRange 512) := by
  intro p c k k' hd hp hc hzero hok
  obtain ⟨hlater, hdone⟩ := hturn.loop (List.nodup_finRange 512)
    (fun _ _ h4 => absurd h4 hlevel) hd hp hc (fun i _ => hzero i) hok
  exact ⟨hlater.mono fun f j _ h => h.1, fun i => hdone i (List.mem_finRange i)⟩

theorem cloneL1Entry_of_present (hpres : (k.mem p i).isPresent = true) (hne : p ≠ c) :
    cloneL1Entry strict p c k i = (.ok (), Kernel.share { k with
      mem := (k.mem.write c i (k.mem p i).readOnly).write p i (k.mem p i).readOnly }
        strict (k.mem p i)) := by
  have hsame : k.mem.write c i (k.mem p i).readOnly p i = k.mem p i := by
    rw [write_apply, if_neg fun heq => hne heq.1]
  simp only [cloneL1Entry, hpres, Bool.not_true, Bool.false_eq_true, if_false]
  rw [← readOnly, hsame, ← readOnly]

theorem turnClones_cloneL1Entry (mem₀ : PhysMem) (l4 : ℕ) (strict : Bool) :
    TurnClones mem₀ l4 1 (cloneL1Entry strict) := by
  intro p c k k' i hd hp hc _ hzero hstep
  have hne : p ≠ c := fun heq => hc.2 1 (heq ▸ hp)
  cases hpres : (k.mem p i).isPresent with
  | false =>
    simp only [cloneL1Entry, hpres, Bool.not_false, if_true] at hstep
    obtain rfl : k = k' := congrArg Prod.snd hstep
    refine ⟨.refl hd.valid, ?_⟩
    rw [MirrorsAt]
    simp [hpres, hzero]
  | true =>
    rw [cloneL1Entry_of_present hpres hne] at hstep
    obtain rfl := congrArg Prod.snd hstep
    refine ⟨Later.share ?_ _, ?_⟩
    · refine ⟨hd.valid, id, ?_, ?_⟩
      · intro f j _ hlast hX
        have hp' : ¬ (f = p ∧ j = i) := fun heq => hlast (heq.1 ▸ hp)
        simp [write_apply, if_neg hp', if_neg hX]
      · intro f hlast j
        by_cases hp' : f = p ∧ j = i
        · obtain ⟨rfl, rfl⟩ := hp'
          exact .inr ⟨hpres, by simp [write_apply]⟩
        · refine .inl ?_
          simp [write_apply, if_neg hp', if_neg (hc.not_written hlast j)]
    · rw [MirrorsAt, mem_share]
      simp [write_apply, readOnly_readOnly, isLeaf]

variable {cloneBelow : ℕ → ℕ → Kernel → Except AddressSpaceError Unit × Kernel}

theorem mirrors_linked (hbelow : Clones mem₀ l4 level cloneBelow) (hd : During mem₀ l4 k)
    (hp : IsTable mem₀ l4 (level + 1) p) (hc : Outside mem₀ l4 k c) (hi : level + 1 = 4 → i.1 < 256)
    (hpres : (k.mem p i).isPresent = true) (hleaf : (k.mem p i).isLeaf (level + 1) = false)
    (hlevel : 1 ≤ level) (hnew : k.allocateTable = (.ok t, k₁))
    (hcloned : cloneBelow (k.mem p i).frame t k₁ = (.ok (), k₂)) :
    let link : Entry := .setAddr (frameAddr t) (k₂.mem p i).flags
    let k₃ := { k₂ with mem := k₂.mem.write c i link }
    Later mem₀ l4 (fun f j => f = c ∧ j = i) k k₃ ∧
      MirrorsAt (taken k k₃) k₃.mem (level + 1) p c i := by
  intro link k₃
  obtain ⟨hfree, hout, hlt, hzero, hl₁⟩ := allocateTable_eq_ok hd hnew
  have hd₁ := hd.later hl₁ fun _ _ => id
  have hsame : k.mem p i = mem₀ p i := congrFun (hd.same hp (by omega)) i
  have htable : IsTable mem₀ l4 level (k.mem p i).frame := by
    rw [hsame] at hpres hleaf ⊢
    exact hp.under (fun h3 => hi (by omega)) hpres hleaf
  obtain ⟨hl₂, hmirror⟩ := hbelow hd₁ htable hout hzero hcloned
  have hd₂ := hd₁.later hl₂ fun ht j heq => hout.2 _ (heq ▸ ht)
  have hc₁ := hc.later hl₁
  have hc₂ := hc₁.later hl₂
  have hl₃ : Later mem₀ l4 (fun f j => f = c ∧ j = i) k₂ k₃ := later_write hd₂.valid hc₂ link
  have hd₃ := hd₂.later hl₃ hc.not_written
  have hl : Later mem₀ l4 (fun f j => f = c ∧ j = i) k k₃ := by
    refine Later.trans (.trans (hl₁.mono fun _ _ _ => False.elim) hl₂ ?_) hl₃ fun _ _ _ h => h
    rintro f j hused rfl
    exact absurd hfree hused
  refine ⟨hl, ?_⟩
  have hparent : k₃.mem p i = k.mem p i := (congrFun (hd₃.same hp (by omega)) i).trans hsame.symm
  have hchild : k₃.mem c i = link := (write_apply _ _ _ _ _ _).trans (if_pos ⟨rfl, rfl⟩)
  have hflags : k₂.mem p i = k.mem p i := (congrFun (hd₂.same hp (by omega)) i).trans hsame.symm
  have hbits : ∀ n < 12, link.getLsbD n = (k.mem p i).getLsbD n := by
    intro n hn
    rw [getLsbD_setAddr_flags hlt hn, hflags]
  have hframe : link.frame = t := frame_setAddr_flags hlt
  have hle := hp.le
  have htc : t ≠ c := fun heq => hc.1 (heq ▸ hfree)
  have hout₂ := hout.later hl₂
  rw [MirrorsAt, hparent, hchild, if_neg (by simp [hleaf]), hframe]
  refine ⟨hbits 0 (by decide), fun _ => ⟨?_, ⟨hfree, hout₂.1⟩, fun j => ?_⟩⟩
  · rw [← hleaf, isLeaf, isLeaf, isHuge, isHuge, hbits 7 (by decide)]
  refine (hmirror j).later hd₂ hd₃ hl₃ htable (fun h4 => by omega) ⟨hout₂, fun heq => htc heq.1⟩ ?_
  rintro f ⟨hfree₁, hused₂⟩
  have hfree₀ := hl₁.free hfree₁
  refine ⟨⟨⟨hused₂, fun _ ht => hd.used ht hfree₀⟩, ?_⟩, hfree₀, hused₂⟩
  rintro _ ⟨rfl, -⟩
  exact hc.1 hfree₀

theorem turnClones_cloneEntry (strict : Bool) (huge : Entry → Bool)
    (hbelow : Clones mem₀ l4 level cloneBelow) (hlevel : 1 ≤ level)
    (hhuge : ∀ e : Entry, huge e = e.isLeaf (level + 1)) :
    TurnClones mem₀ l4 (level + 1) (cloneEntry strict huge cloneBelow) := by
  intro p c k k' i hd hp hc hi hzero hstep
  have hne : p ≠ c := fun heq => hc.2 _ (heq ▸ hp)
  cases hpres : (k.mem p i).isPresent with
  | false =>
    simp only [cloneEntry, hpres, Bool.not_false, if_true] at hstep
    obtain rfl : k = k' := congrArg Prod.snd hstep
    refine ⟨.refl hd.valid, ?_⟩
    rw [MirrorsAt]
    simp [hpres, hzero]
  | true =>
    cases hleaf : (k.mem p i).isLeaf (level + 1) with
    | true =>
      simp only [cloneEntry, hpres, hhuge, hleaf, Bool.not_true, Bool.false_eq_true,
        if_true, if_false] at hstep
      obtain rfl := congrArg Prod.snd hstep
      refine ⟨(later_write hd.valid hc _).share _, ?_⟩
      rw [MirrorsAt, mem_share]
      have habove : level ≠ 0 := by omega
      simp [write_apply, hne, hleaf, habove]
    | false =>
      simp only [cloneEntry, hpres, hhuge, hleaf, Bool.not_true, Bool.false_eq_true,
        if_false] at hstep
      split at hstep
      · cases hstep
      rename_i table k₁ hnew
      split at hstep
      · cases hstep
      rename_i k₂ hcloned
      obtain rfl := congrArg Prod.snd hstep
      exact mirrors_linked hbelow hd hp hc hi hpres hleaf hlevel hnew hcloned

section

variable (mem₀ l4 strict)

theorem clones_cloneL1 : Clones mem₀ l4 1 (cloneL1 strict) := by
  intro p c k k' hd hp hc hzero hok
  rw [cloneL1] at hok
  exact (turnClones_cloneL1Entry mem₀ l4 strict).clones (by decide) hd hp hc hzero hok

theorem clones_cloneL2 : Clones mem₀ l4 2 (cloneL2 strict) := by
  intro p c k k' hd hp hc hzero hok
  rw [cloneL2] at hok
  exact (turnClones_cloneEntry strict isHuge (clones_cloneL1 mem₀ l4 strict) (by decide)
    fun _ => rfl).clones (by decide) hd hp hc hzero hok

theorem clones_cloneL3 : Clones mem₀ l4 3 (cloneL3 strict) := by
  intro p c k k' hd hp hc hzero hok
  rw [cloneL3] at hok
  exact (turnClones_cloneEntry strict isHuge (clones_cloneL2 mem₀ l4 strict) (by decide)
    fun _ => rfl).clones (by decide) hd hp hc hzero hok

end

theorem mem_userHalf : i ∈ userHalf ↔ i.1 < 256 := by
  simp [userHalf]

theorem cloneL4_mirrors (hd : During mem₀ l4 k) (hc : Outside mem₀ l4 k c)
    (hzero : ∀ i : Fin 512, i.1 < 256 → (k.mem c i).isPresent = false)
    (hok : cloneL4 strict l4 c k = (.ok (), k')) :
    Later mem₀ l4 (fun f j => f = c ∧ j.1 < 256) k k' ∧
      ∀ i : Fin 512, i.1 < 256 → MirrorsAt (taken k k') k'.mem 4 l4 c i := by
  have hturn := turnClones_cloneEntry strict (fun _ => false) (clones_cloneL3 mem₀ l4 strict)
    (by decide) fun _ => rfl
  rw [cloneL4] at hok
  obtain ⟨hlater, hdone⟩ := hturn.loop ((List.nodup_finRange 512).filter _)
    (fun i hi _ => mem_userHalf.mp hi) hd .root hc (fun i hi => hzero i (mem_userHalf.mp hi)) hok
  exact ⟨hlater.mono fun f j _ h => ⟨h.1, mem_userHalf.mp h.2⟩,
    fun i hi => hdone i (mem_userHalf.mpr hi)⟩

/-! ## Walks -/

/-- Two walks fail alike, or end at one level, at entries that meet `R`. -/
def Alike (R : Entry → Entry → ℕ → Prop) (r r' : Except AddressSpaceError (Entry × ℕ)) : Prop :=
  (∃ err, r = .error err ∧ r' = .error err) ∨
    ∃ e e' n, r = .ok (e, n) ∧ r' = .ok (e', n) ∧ R e e' n

section Alike

variable {R : Entry → Entry → ℕ → Prop} {mem mem' : PhysMem} {virt : UInt64} {t' : ℕ}

theorem Alike.tables (h : Alike R (walkFrom mem virt 4 t) (walkFrom mem' virt 4 t')) :
    Alike R (walkPageTables mem t virt) (walkPageTables mem' t' virt) := by
  rw [walkPageTables_eq, walkPageTables_eq]
  cases isCanonical virt with
  | false => exact .inl ⟨_, rfl, rfl⟩
  | true => exact h

theorem Alike.physAddr (h : Alike R (walkPageTables mem t virt) (walkPageTables mem' t' virt))
    (hR : ∀ e e' n, R e e' n → e'.addr = e.addr) :
    getPhysAddr mem' t' virt = getPhysAddr mem t virt := by
  rcases h with ⟨err, h, h'⟩ | ⟨e, e', n, h, h', hentry⟩
  · simp [getPhysAddr, h, h']
  · simp [getPhysAddr, h, h', hR e e' n hentry]

end Alike

theorem MirrorsAt.walk (h : MirrorsAt own mem level p c (index level virt)) (hlevel : 1 ≤ level) :
    Alike (fun e e' n => e' = e.readOnly ∧ (n = 1 → e.isWritable = false))
      (walkFrom mem virt level p) (walkFrom mem virt level c) := by
  induction level generalizing p c with
  | zero => omega
  | succ level ih =>
    obtain ⟨hpres, hentry⟩ := h
    cases hp : (mem p (index (level + 1) virt)).isPresent with
    | false => exact .inl ⟨_, walkFrom_of_absent hp, walkFrom_of_absent (hpres.trans hp)⟩
    | true =>
      have hc := hpres.trans hp
      have hentry := hentry hp
      cases hleaf : (mem p (index (level + 1) virt)).isLeaf (level + 1) with
      | true =>
        rw [if_pos hleaf] at hentry
        have hleaf' : (mem c (index (level + 1) virt)).isLeaf (level + 1) = true := by
          rw [hentry.1, isLeaf_readOnly, hleaf]
        exact .inr ⟨_, _, level + 1, walkFrom_of_leaf hp hleaf, walkFrom_of_leaf hc hleaf',
          hentry.1, fun hone => hentry.2 (by omega)⟩
      | false =>
        rw [if_neg (by simp [hleaf])] at hentry
        have hpos := ne_zero_of_not_leaf hleaf
        rw [walkFrom_of_table hp hleaf, walkFrom_of_table hc hentry.1]
        exact ih (hentry.2.2 _) (by omega)

theorem walkFrom_later {k₀ : Kernel} (hl : Later k₀.mem l4 X k₀ k) (hd : During k₀.mem l4 k)
    (hp : IsTable k₀.mem l4 level p) (hi : level = 4 → (index 4 virt).1 < 256) :
    Alike (fun e e' n => Cleared e e' ∧ (n ≠ 1 → e' = e)) (walkFrom k₀.mem virt level p)
      (walkFrom k.mem virt level p) := by
  induction level generalizing p with
  | zero => exact .inl ⟨.notMapped, rfl, rfl⟩
  | succ level ih =>
    obtain ⟨hcleared, hsame⟩ : Cleared (k₀.mem p (index (level + 1) virt))
        (k.mem p (index (level + 1) virt)) ∧ (level ≠ 0 →
          k.mem p (index (level + 1) virt) = k₀.mem p (index (level + 1) virt)) := by
      rcases Nat.eq_zero_or_pos level with rfl | hpos
      · exact ⟨hl.last hp _, fun h => absurd rfl h⟩
      · have heq := congrFun (hd.same hp (by omega)) (index (level + 1) virt)
        exact ⟨.inl heq, fun _ => heq⟩
    cases hpres : (k₀.mem p (index (level + 1) virt)).isPresent with
    | false =>
      exact .inl ⟨_, walkFrom_of_absent hpres, walkFrom_of_absent (hcleared.isPresent.trans hpres)⟩
    | true =>
      have hpres' := hcleared.isPresent.trans hpres
      cases hleaf : (k₀.mem p (index (level + 1) virt)).isLeaf (level + 1) with
      | true =>
        exact .inr ⟨_, _, _, walkFrom_of_leaf hpres hleaf,
          walkFrom_of_leaf hpres' (hcleared.isLeaf.trans hleaf), hcleared,
          fun hne => hsame fun hzero => hne (by omega)⟩
      | false =>
        have hpos := ne_zero_of_not_leaf hleaf
        have hle := hp.le
        rw [walkFrom_of_table hpres hleaf,
          walkFrom_of_table hpres' (hcleared.isLeaf.trans hleaf), hsame hpos]
        refine ih (hp.under ?_ hpres hleaf) fun h4 => by omega
        rintro rfl
        exact hi rfl

end Clone

/-! ## The clone -/

namespace Kernel

variable {k k' k₁ : Kernel} {space child : AddressSpace} {strict : Bool} {mem₀ : PhysMem} {l4 c : ℕ}

theorem cloneCow_eq_ok (h : k.cloneCow strict space = (.ok child, k')) :
    ∃ k₁, k.allocateTable = (.ok child.l4, k₁) ∧
      cloneL4 strict space.l4 child.l4 (k₁.copyKernelHalf space.l4 child.l4) = (.ok (), k') := by
  unfold cloneCow at h
  split at h
  · cases h
  rename_i new k₁ hnew
  split at h
  · cases h
  · rename_i k₂ hcloned
    cases h
    exact ⟨k₁, hnew, hcloned⟩

theorem later_copyKernelHalf (h : k.frames.Valid) (hc : Outside mem₀ l4 k c) (parent : ℕ) :
    Later mem₀ l4 (fun f _ => f = c) k (k.copyKernelHalf parent c) := by
  refine ⟨h, id, ?_, ?_⟩
  · intro f i _ _ hne
    simp [copyKernelHalf, hne]
  · intro f hlast i
    have hne : f ≠ c := fun heq => hc.2 1 (heq ▸ hlast)
    exact .inl (by simp [copyKernelHalf, hne])

theorem cloneCow_mirrors (hvalid : k.frames.Valid) (htree : PageTree k space.l4)
    (hok : k.cloneCow strict space = (.ok child, k')) :
    During k.mem space.l4 k' ∧ Later k.mem space.l4 (fun _ _ => False) k k' ∧
      (∃ own, ∀ i : Fin 512, i.1 < 256 → MirrorsAt own k'.mem 4 space.l4 child.l4 i) ∧
      ∀ i : Fin 512, 256 ≤ i.1 → k'.mem child.l4 i = k'.mem space.l4 i := by
  obtain ⟨k₁, hnew, hcloned⟩ := cloneCow_eq_ok hok
  have hd : During k.mem space.l4 k := ⟨hvalid, htree.used _ _, htree.last _ _, fun _ _ => rfl⟩
  obtain ⟨hfree, hout, -, hzero, hl₁⟩ := allocateTable_eq_ok hd hnew
  have hd₁ := hd.later hl₁ fun _ _ => id
  have hl₂ := later_copyKernelHalf hd₁.valid hout space.l4
  have hd₂ := hd₁.later hl₂ fun ht _ heq => hout.2 _ (heq ▸ ht)
  have hout₂ := hout.later hl₂
  have hzero₂ : ∀ i : Fin 512, i.1 < 256 →
      ((k₁.copyKernelHalf space.l4 child.l4).mem child.l4 i).isPresent = false := by
    intro i hi
    simpa [copyKernelHalf, hi] using hzero i
  obtain ⟨hl₃, hmirror⟩ := cloneL4_mirrors hd₂ hout₂ hzero₂ hcloned
  have hd₃ := hd₂.later hl₃ fun ht _ heq => hout.2 _ (heq.1 ▸ ht)
  refine ⟨hd₃, ?_, ⟨_, hmirror⟩, ?_⟩
  · refine (hl₁.trans hl₂ ?_).trans hl₃ ?_
    · rintro f i hused rfl
      exact hused hfree
    · rintro f i hused ⟨rfl, -⟩
      exact hused hfree
  · intro i hi
    have hroot : IsTable k.mem space.l4 4 space.l4 := .root
    calc k'.mem child.l4 i
        = (k₁.copyKernelHalf space.l4 child.l4).mem child.l4 i :=
          hl₃.mem hout₂.1 (hout₂.2 1) fun h => by omega
      _ = k₁.mem space.l4 i := by simp [copyKernelHalf, Nat.not_lt.mpr hi]
      _ = k.mem space.l4 i := by rw [hd₁.same hroot (by decide)]
      _ = k'.mem space.l4 i := by rw [hd₃.same hroot (by decide)]

/-- **Fork by copy on write.**  After a clone parent and child have the same pages, which are those
that the parent had, and the same kernel half.  That neither can write to a page of both is so
exactly if the parent had no writable page of 2 MiB or 1 GiB. -/
theorem cloneCow_isolates_iff (hvalid : k.frames.Valid) (htree : PageTree k space.l4)
    (hok : k.cloneCow strict space = (.ok child, k')) :
    (∀ virt, getPhysAddr k'.mem child.l4 virt = getPhysAddr k'.mem space.l4 virt) ∧
    (∀ virt, IsUser virt → getPhysAddr k'.mem space.l4 virt = getPhysAddr k.mem space.l4 virt) ∧
    (∀ i : Fin 512, 256 ≤ i.1 → k'.mem child.l4 i = k'.mem space.l4 i) ∧
    (ReadOnlyInBoth k'.mem space.l4 child.l4 ↔ HugeReadOnly k.mem space.l4) := by
  obtain ⟨hd, hl, ⟨own, hmirror⟩, hkernel⟩ := cloneCow_mirrors hvalid htree hok
  have hchild : ∀ virt, (index 4 virt).1 < 256 →
      Alike (fun e e' n => e' = e.readOnly ∧ (n = 1 → e.isWritable = false))
        (walkPageTables k'.mem space.l4 virt) (walkPageTables k'.mem child.l4 virt) :=
    fun virt hi => ((hmirror _ hi).walk (by decide)).tables
  have hparent : ∀ virt, IsUser virt → Alike (fun e e' n => Cleared e e' ∧ (n ≠ 1 → e' = e))
      (walkPageTables k.mem space.l4 virt) (walkPageTables k'.mem space.l4 virt) :=
    fun virt hi => (walkFrom_later hl hd .root fun _ => hi.index_lt).tables
  refine ⟨fun virt => ?_, fun virt hi => ?_, hkernel, fun hboth virt hi => ?_,
    fun hhuge virt hi => ?_⟩
  · by_cases hi : (index 4 virt).1 < 256
    · refine (hchild virt hi).physAddr ?_
      rintro e e' n ⟨rfl, -⟩
      exact addr_readOnly
    · have hsame := hkernel _ (Nat.not_lt.mp hi)
      have hwalk : walkPageTables k'.mem child.l4 virt = walkPageTables k'.mem space.l4 virt := by
        simp [walkPageTables, hsame]
      rw [getPhysAddr, getPhysAddr, hwalk]
  · exact (hparent virt hi).physAddr fun _ _ _ h => h.1.addr
  · intro e level hwalk hne
    rcases hparent virt hi with ⟨err, herr, -⟩ | ⟨e₁, e₂, n, hbefore, hafter, -, hsame⟩
    · rw [hwalk] at herr
      cases herr
    · rw [hwalk] at hbefore
      cases hbefore
      rcases hchild virt hi.index_lt with ⟨err, herr, -⟩ | ⟨e₃, e₄, n, hp, hc, -⟩
      · rw [hafter] at herr
        cases herr
      · have hentry := (hboth virt hi _ _ _ _ hafter (by rw [hc])).1
        rwa [hsame hne] at hentry
  · intro e level e' level' hp hc
    rcases hchild virt hi.index_lt with ⟨err, herr, -⟩ | ⟨e₁, e₂, n, hp', hc', rfl, hsmall⟩
    · rw [hp] at herr
      cases herr
    rw [hp] at hp'
    rw [hc] at hc'
    cases hp'
    cases hc'
    refine ⟨?_, isWritable_readOnly⟩
    by_cases hone : level = 1
    · exact hsmall hone
    · rcases hparent virt hi with ⟨err, -, herr⟩ | ⟨e₃, e₄, n, hbefore, hafter, -, hsame⟩
      · rw [hp] at herr
        cases herr
      · rw [hp] at hafter
        cases hafter
        have heq := hsame hone
        exact heq ▸ hhuge virt hi _ _ hbefore hone

def oneBranch (small : Bool) : PhysMem := fun table i =>
  if i.1 ≠ 0 then 0
  else if table = 300 then 0x12d007
  else if table = 301 then 0x12e007
  else if table = 302 then if small then 0x12f007 else 0x400087
  else if table = 303 then 0x500007
  else 0

def withBranch (small : Bool) : Kernel where
  managers := fun _ => none
  frames := FrameAllocator.init ⟨⟨512, false⟩, .withMaxFrames 512, false, {}, 0, 0⟩
    [⟨0, 0x8000, .usable⟩]
  mem := oneBranch small
  l4 := 300

def branchSpace (l4 : ℕ) (pageTables : UInt64) : AddressSpace :=
  ⟨l4, 0x400000000000, 0x7fff00000000, 0, 0, 1, pageTables, false⟩

theorem isTable_oneBranch {small : Bool} (h : IsTable (oneBranch small) 300 level f) :
    level + f = 304 := by
  induction h with
  | root => rfl
  | @under level table i h _ hpres hleaf ih =>
    have hpos := ne_zero_of_not_leaf hleaf
    have hle := h.le
    have hi : i.1 = 0 := by
      by_contra hne
      simp [oneBranch, hne, isPresent] at hpres
    have hcases : level = 1 ∧ table = 302 ∨ level = 2 ∧ table = 301 ∨
        level = 3 ∧ table = 300 := by omega
    rcases hcases with ⟨rfl, rfl⟩ | ⟨rfl, rfl⟩ | ⟨rfl, rfl⟩
    · cases small with
      | true =>
        simp only [oneBranch, hi]
        decide
      | false =>
        simp only [oneBranch, hi] at hleaf
        exact absurd hleaf (by decide)
    · have hentry : oneBranch small 301 i = 0x12e007 := by simp [oneBranch, hi]
      rw [hentry]
      decide
    · have hentry : oneBranch small 300 i = 0x12d007 := by simp [oneBranch, hi]
      rw [hentry]
      decide

theorem pageTree_withBranch (small : Bool) : PageTree (withBranch small) 300 := by
  have hfree : ∀ f, (withBranch small).frames.Free f → f < 8 := by
    rintro f ⟨-, hlt⟩
    have htotal : ∀ small, (withBranch small).frames.bitmap.totalFrames = 8 := by decide +kernel
    rw [htotal] at hlt
    omega
  refine ⟨?_, ?_⟩
  · intro level f h hf
    have hsum := isTable_oneBranch h
    have hle := h.le
    have hlt := hfree f hf
    omega
  · intro level f h h'
    have hsum := isTable_oneBranch h
    have hsum' := isTable_oneBranch h'
    omega

theorem hugeReadOnly_oneBranch : HugeReadOnly (oneBranch true) 300 := by
  intro virt hi e level hwalk hne
  obtain ⟨t, i, ht, rfl, hpres, hleaf⟩ := exists_table_of_walk hi hwalk
  have hsum := isTable_oneBranch ht
  have hzero : i.1 = 0 := by
    by_contra hne
    simp [oneBranch, hne, isPresent] at hpres
  have hle := ht.le
  have hpos := ht.pos
  have hcases : level = 2 ∧ t = 302 ∨ level = 3 ∧ t = 301 ∨ level = 4 := by omega
  rcases hcases with ⟨rfl, rfl⟩ | ⟨rfl, rfl⟩ | rfl
  · simp only [oneBranch, hzero] at hleaf
    exact absurd hleaf (by decide)
  · simp only [oneBranch, hzero] at hleaf
    exact absurd hleaf (by decide)
  · cases hleaf

/-- A page of 4 KiB is shared, and neither can write to it. -/
theorem cloneCow_isolates_sample : ∃ k', (withBranch true).cloneCow true (branchSpace 300 4) =
      (.ok (branchSpace 0 5), k') ∧
    getPhysAddr k'.mem 0 0 = getPhysAddr k'.mem 300 0 ∧ getPhysAddr k'.mem 300 0 = .ok 0x500000 ∧
    ReadOnlyInBoth k'.mem 300 0 := by
  have hspace : ((withBranch true).cloneCow true (branchSpace 300 4)).1 =
      .ok (branchSpace 0 5) := by decide +kernel
  have hok := Prod.fst_eq_iff.mp hspace
  obtain ⟨hsame, hbefore, -, hiff⟩ :=
    cloneCow_isolates_iff (valid_init _ rfl) (pageTree_withBranch true) hok
  refine ⟨_, hok, hsame 0, ?_, hiff.mpr hugeReadOnly_oneBranch⟩
  have hzero : IsUser 0 := Nat.two_pow_pos 47
  exact (hbefore 0 hzero).trans (by decide +kernel)

/-- A writable page of 2 MiB is shared: the parent can still write to it, and the child sees it. -/
theorem huge_page_stays_writable : ∃ k', (withBranch false).cloneCow true (branchSpace 300 4) =
      (.ok (branchSpace 0 5), k') ∧
    walkPageTables k'.mem 300 0 = .ok (0x400087, 2) ∧ isWritable 0x400087 = true ∧
    walkPageTables k'.mem 0 0 = .ok (0x400085, 2) ∧
    getPhysAddr k'.mem 0 0 = getPhysAddr k'.mem 300 0 := by
  refine ⟨_, Prod.fst_eq_iff.mp (by decide +kernel), ?_⟩
  decide +kernel

end Kernel

end IonaOs.Process
