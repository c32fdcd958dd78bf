import AuraLite.Lib.RefCount
import AuraLite.Mm.Pmm

/-!
# The pool of frames behind the bitmap

The purpose of the allocator is a pool of reference-counted frames: some frames
are kept back for good, every other frame below `nframes` has a number of
references, and it is free when that number is zero.  `Holds` says that the
metadata bytes of a state represent such a pool, and each operation gets one
lemma that says what it does to the pool and which bytes it leaves alone.
-/

namespace AuraLite.Pmm

open List ByteMemory Bitmap Word64 Function

/-- The bytes of the metadata: the bitmap and the reference counts. -/
def PmmState.Metadata (s : PmmState) (x : ℕ) : Prop :=
  s.bitmap ≤ x ∧ x < s.refcount + 4 * s.nframes

/-- The number of clear bits below `nframes`. -/
def PmmState.clearBits (s : PmmState) : ℕ := countFree s.mem s.bitmap s.nframes

/-- The metadata of `s` represents the pool with the frames `kept` back and the
reference counts `refs`.  The last byte of the bitmap may be the first byte of
the reference counts, which belongs to frame `0`. -/
structure View (s : PmmState) (kept : ℕ → Prop) (refs : ℕ → ℕ) : Prop where
  layout : s.bitmap + s.nframes / 8 ≤ s.refcount
  frames_le : s.nframes ≤ 2 ^ 32
  zero : kept 0
  metadata : ∀ x, s.Metadata x → x / pageSize < s.nframes → kept (x / pageSize)
  pool : ∀ f, refs f ≠ 0 → f < s.nframes ∧ ¬kept f
  bit : ∀ f < s.nframes, s.test f = true ↔ kept f ∨ refs f ≠ 0
  ref : ∀ f, f ≠ 0 → f < s.nframes → s.ref f = refs f

/-- A represented pool together with the counter of free frames. -/
structure Holds (s : PmmState) (kept : ℕ → Prop) (refs : ℕ → ℕ) : Prop
    extends View s kept refs where
  free : s.freeFrames = s.clearBits

/-- A step that moves nothing and changes, outside the metadata, only bytes of
the frames in `zeroed`. -/
structure Keeps (zeroed : ℕ → Prop) (s s' : PmmState) : Prop where
  bitmap : s'.bitmap = s.bitmap
  refcount : s'.refcount = s.refcount
  nframes : s'.nframes = s.nframes
  data : ∀ x, ¬s.Metadata x → ¬zeroed (x / pageSize) → s'.mem x = s.mem x

variable {s s' s'' : PmmState} {kept zeroed : ℕ → Prop} {refs : ℕ → ℕ}
variable {f g idx count value : ℕ}

/-! ## Counting -/

theorem countP_range_drop {p q : ℕ → Bool} {n i : ℕ} (hi : i < n)
    (hp : p i = true) (hq : q i = false)
    (hsame : ∀ j < n, j ≠ i → q j = p j) :
    (List.range n).countP p = (List.range n).countP q + 1 := by
  have hperm := perm_cons_erase (List.mem_range.mpr hi)
  rw [hperm.countP_eq, hperm.countP_eq, countP_cons_of_pos hp, countP_cons_of_neg (by simp [hq])]
  congr 1
  apply countP_congr
  intro j hj
  obtain ⟨hne, hlt⟩ := nodup_range.mem_erase_iff.mp hj
  rw [hsame j (List.mem_range.mp hlt) hne]

theorem countFree_congr {m m' : Mem} {bitmap n : ℕ}
    (hsame : ∀ g < n, bmTest m' bitmap g = bmTest m bitmap g) :
    countFree m' bitmap n = countFree m bitmap n := by
  apply countP_congr
  intro g hg
  rw [hsame g (List.mem_range.mp hg)]

/-! ## Edits of the metadata -/

@[simp]
theorem test_setBit (s : PmmState) (f g : ℕ) :
    (s.setBit f).test g = if g = f then true else s.test g :=
  bmTest_bmSet s.mem s.bitmap f g

@[simp]
theorem test_clearBit (s : PmmState) (f g : ℕ) :
    (s.clearBit f).test g = if g = f then false else s.test g :=
  bmTest_bmClear s.mem s.bitmap f g

theorem View.bitmap_byte (hview : View s kept refs) (hf : f < s.nframes) :
    s.bitmap + f / 8 ≤ s.refcount :=
  (Nat.add_le_add_left (Nat.div_le_div_right hf.le) _).trans hview.layout

theorem View.test_setRef (hview : View s kept refs) (hf : f ≠ 0)
    (hg : g < s.nframes) : (s.setRef f value).test g = s.test g := by
  have hbyte := hview.bitmap_byte hg
  have hbelow : s.bitmap + g / 8 < s.refcount + 4 * f := by omega
  exact bmTest_congr (write32_outside (.inl hbelow))

theorem ref_setRef (s : PmmState) (f g : ℕ) (hvalue : value < 2 ^ 32) :
    (s.setRef f value).ref g = if g = f then value else s.ref g := by
  split_ifs with hgf
  · rw [hgf]
    exact (read32_write32_self _ _ _).trans (Nat.mod_eq_of_lt hvalue)
  · have hapart : s.refcount + 4 * g + 4 ≤ s.refcount + 4 * f ∨
        s.refcount + 4 * f + 4 ≤ s.refcount + 4 * g := by omega
    exact read32_write32_disjoint hapart

theorem View.ref_setBit (hview : View s kept refs) (hf : f < s.nframes)
    (hg : g ≠ 0) : (s.setBit f).ref g = s.ref g := by
  have hbyte := hview.bitmap_byte hf
  apply read32_congr
  intro x (hx : s.refcount + 4 * g ≤ x) _
  exact bmSet_outside (by omega)

theorem View.ne_zero (hview : View s kept refs) (hf : ¬kept f) : f ≠ 0 :=
  fun hzero => hf (hzero ▸ hview.zero)

variable {mem : Mem}

section

variable (hview : View s kept refs)
include hview

/-- A pool with one reference count changed, read off the new metadata. -/
theorem View.update (hf : f < s.nframes) (hkept : ¬kept f)
    (hbit : ∀ g < s.nframes, bmTest mem s.bitmap g =
      if g = f then decide (value ≠ 0) else s.test g)
    (href : ∀ g, g ≠ 0 → g < s.nframes →
      read32 mem (s.refcount + 4 * g) = if g = f then value else s.ref g) :
    View { s with mem := mem } kept (Function.update refs f value) := by
  refine { hview with pool := ?_, bit := ?_, ref := ?_ }
  · intro g hg
    by_cases hgf : g = f
    · exact hgf ▸ ⟨hf, hkept⟩
    · rw [update_of_ne hgf] at hg
      exact hview.pool g hg
  · intro g hg
    have hnew : PmmState.test { s with mem := mem } g = _ := hbit g hg
    rw [hnew]
    split_ifs with hgf
    · rw [hgf, update_self, decide_eq_true_eq]
      exact ⟨.inr, fun h => h.resolve_left hkept⟩
    · rw [update_of_ne hgf]
      exact hview.bit g hg
  · intro g hg hlt
    have hnew : PmmState.ref { s with mem := mem } g = _ := href g hg hlt
    rw [hnew]
    split_ifs with hgf
    · rw [hgf, update_self]
    · rw [update_of_ne hgf]
      exact hview.ref g hg hlt

theorem View.claim (hf : f < s.nframes)
    (hkept : ¬kept f) : View (s.claim f) kept (Function.update refs f 1) := by
  have hne := hview.ne_zero hkept
  refine hview.update hf hkept (fun g hg => ?_) fun g hg hlt => ?_
  · have hbyte := hview.bitmap_byte hg
    have hbelow : s.bitmap + g / 8 < s.refcount + 4 * f := by omega
    have hset : (s.claim f).test g = (s.setBit f).test g :=
      bmTest_congr (write32_outside (.inl hbelow))
    exact hset.trans (test_setBit s f g)
  · refine (ref_setRef (s.setBit f) f g (by decide)).trans ?_
    rw [hview.ref_setBit hf hg]

theorem View.setRef (hrefs : refs f ≠ 0) (hvalue : value ≠ 0) (hlt : value < 2 ^ 32) :
    View (s.setRef f value) kept (Function.update refs f value) := by
  obtain ⟨hf, hkept⟩ := hview.pool f hrefs
  refine hview.update hf hkept (fun g hg => ?_) fun g hg hlt' => ?_
  · refine (hview.test_setRef (hview.ne_zero hkept) hg).trans ?_
    split_ifs with hgf
    · rw [hgf, decide_eq_true hvalue]
      exact (hview.bit f hf).mpr (.inr hrefs)
    · rfl
  · exact ref_setRef s f g hlt

theorem View.release (hrefs : refs f ≠ 0) :
    View ((s.setRef f 0).clearBit f) kept (Function.update refs f 0) := by
  obtain ⟨hf, hkept⟩ := hview.pool f hrefs
  have hne := hview.ne_zero hkept
  refine hview.update hf hkept (fun g hg => ?_) fun g hg hlt => ?_
  · refine (test_clearBit (s.setRef f 0) f g).trans ?_
    rw [hview.test_setRef hne hg]
    rfl
  · have hbyte := hview.bitmap_byte hf
    have hclear : ((s.setRef f 0).clearBit f).ref g = (s.setRef f 0).ref g := by
      apply read32_congr
      intro x (hx : s.refcount + 4 * g ≤ x) _
      exact bmClear_outside (show x ≠ s.bitmap + f / 8 by omega)
    exact hclear.trans (ref_setRef s f g (by decide))

/-! ## The counter of free frames -/

theorem View.test_eq_iff (hf : f < s.nframes) : s.test f = false ↔ ¬kept f ∧ refs f = 0 := by
  rw [← Bool.not_eq_true, hview.bit f hf, not_or, not_not]

section

variable (hview' : View s' kept (Function.update refs f value)) (hn : s'.nframes = s.nframes)
include hview' hn

theorem View.test_of_ne (hg : g < s.nframes) (hne : g ≠ f) : s'.test g = s.test g := by
  have hnew := hview'.bit g (hn ▸ hg)
  rw [update_of_ne hne, ← hview.bit g hg] at hnew
  exact Bool.eq_iff_iff.mpr hnew

/-- Taking a free frame makes one clear bit less. -/
theorem View.clearBits_take (hf : f < s.nframes) (hkept : ¬kept f) (hfree : refs f = 0)
    (hvalue : value ≠ 0) : s.clearBits = s'.clearBits + 1 := by
  have hold : s.test f = false := (hview.test_eq_iff hf).mpr ⟨hkept, hfree⟩
  have hnew : s'.test f = true := by
    rw [hview'.bit f (hn ▸ hf), update_self]
    exact .inr hvalue
  simp only [PmmState.clearBits, countFree, hn]
  refine countP_range_drop hf ?_ ?_ fun j hj hne => ?_
  · exact (congrArg not hold).trans rfl
  · exact (congrArg not hnew).trans rfl
  · exact congrArg not (hview.test_of_ne hview' hn hj hne)

theorem View.clearBits_same (hrefs : refs f ≠ 0) (hvalue : value ≠ 0) :
    s'.clearBits = s.clearBits := by
  have hold := hview.pool f hrefs
  simp only [PmmState.clearBits, countFree, hn]
  apply countP_congr
  intro g hg
  have hlt := List.mem_range.mp hg
  have hsame : s'.test g = s.test g := by
    by_cases hne : g = f
    · rw [hne, (hview.bit f hold.1).mpr (.inr hrefs), hview'.bit f (hn ▸ hold.1),
        update_self]
      exact .inr hvalue
    · exact hview.test_of_ne hview' hn hlt hne
  rw [show bmTest s'.mem s'.bitmap g = _ from hsame]
  rfl

end

omit hview in
theorem update_update_self (refs : ℕ → ℕ) :
    Function.update (Function.update refs f value) f (refs f) = refs := by
  rw [update_idem, update_eq_self]

/-- Giving the last reference back makes one clear bit more. -/
theorem View.clearBits_release (hview' : View s' kept (Function.update refs f 0))
    (hn : s'.nframes = s.nframes) (hrefs : refs f ≠ 0) :
    s'.clearBits = s.clearBits + 1 := by
  obtain ⟨hf, hkept⟩ := hview.pool f hrefs
  rw [← @update_update_self f 0 refs] at hview
  exact hview'.clearBits_take hview hn.symm (hn ▸ hf) hkept (update_self f 0 refs) hrefs

end

/-! ## What the operations leave alone -/

/-- No frame is zeroed. -/
def noFrame (_ : ℕ) : Prop := False

/-- The frames `[first, first + count)`. -/
def inRun (first count f : ℕ) : Prop := first ≤ f ∧ f < first + count

instance (first count f : ℕ) : Decidable (inRun first count f) :=
  inferInstanceAs (Decidable (first ≤ f ∧ f < first + count))

theorem Keeps.refl (zeroed : ℕ → Prop) (s : PmmState) : Keeps zeroed s s :=
  ⟨rfl, rfl, rfl, fun _ _ _ => rfl⟩

theorem Keeps.metadata (hkeeps : Keeps zeroed s s') (x : ℕ) : s'.Metadata x ↔ s.Metadata x := by
  rw [PmmState.Metadata, PmmState.Metadata, hkeeps.bitmap, hkeeps.refcount, hkeeps.nframes]

theorem Keeps.trans (hfirst : Keeps zeroed s s') (hsecond : Keeps zeroed s' s'') :
    Keeps zeroed s s'' := by
  refine ⟨hsecond.bitmap.trans hfirst.bitmap, hsecond.refcount.trans hfirst.refcount,
    hsecond.nframes.trans hfirst.nframes, fun x hx hzeroed => ?_⟩
  rw [hsecond.data x (fun h => hx ((hfirst.metadata x).mp h)) hzeroed]
  exact hfirst.data x hx hzeroed

theorem Keeps.of_noFrame (hkeeps : Keeps noFrame s s') : Keeps zeroed s s' :=
  { hkeeps with data := fun x hx _ => hkeeps.data x hx id }

theorem keeps_setRef (hf : f < s.nframes) (hlayout : s.bitmap ≤ s.refcount) :
    Keeps noFrame s (s.setRef f value) := by
  refine ⟨rfl, rfl, rfl, fun x hx _ => write32_outside ?_⟩
  rw [PmmState.Metadata] at hx
  omega

section

variable (hview : View s kept refs)
include hview

theorem View.keeps_setBit (hf : f < s.nframes) : Keeps noFrame s (s.setBit f) := by
  refine ⟨rfl, rfl, rfl, fun x hx _ => bmSet_outside ?_⟩
  have hbyte := hview.bitmap_byte hf
  rw [PmmState.Metadata] at hx
  omega

theorem View.layout_le : s.bitmap ≤ s.refcount :=
  (Nat.le_add_right _ _).trans hview.layout

theorem View.keeps_claim (hf : f < s.nframes) : Keeps noFrame s (s.claim f) :=
  (hview.keeps_setBit hf).trans (keeps_setRef hf hview.layout_le)

theorem View.keeps_release (hf : f < s.nframes) : Keeps noFrame s ((s.setRef f 0).clearBit f) := by
  refine (keeps_setRef hf hview.layout_le).trans ⟨rfl, rfl, rfl, fun x hx _ => bmClear_outside ?_⟩
  have hbyte := hview.bitmap_byte hf
  have hout : ¬s.Metadata x := hx
  rw [PmmState.Metadata] at hout
  show x ≠ s.bitmap + f / 8
  omega

theorem View.test_congr (hsame : ∀ x, s.Metadata x → mem x = s.mem x) (hg : g < s.nframes) :
    bmTest mem s.bitmap g = s.test g := by
  have hbyte := hview.bitmap_byte hg
  exact bmTest_congr (hsame _ ⟨by omega, by omega⟩)

end

theorem View.congr {free : ℕ} (hview : View s kept refs)
    (hsame : ∀ x, s.Metadata x → mem x = s.mem x) :
    View { s with mem := mem, freeFrames := free } kept refs := by
  refine { hview with bit := fun g hg => ?_, ref := fun g hg hlt => ?_ }
  · exact (Bool.eq_iff_iff.mp (hview.test_congr hsame hg)).trans (hview.bit g hg)
  · rw [← hview.ref g hg hlt]
    apply read32_congr
    intro x hx hx'
    have hlow := hview.layout_le
    have hg' : g < s.nframes := hlt
    have hx₁ : s.refcount + 4 * g ≤ x := hx
    have hx₂ : x < s.refcount + 4 * g + 4 := hx'
    exact hsame x ⟨by omega, by omega⟩

/-- Zeroing frames of the pool does not touch the metadata. -/
theorem View.off_metadata (hview : View s kept refs)
    (hpool : ∀ g, inRun f count g → g < s.nframes ∧ ¬kept g) {x : ℕ}
    (hx : s.Metadata x) :
    x < f * pageSize ∨ f * pageSize + count * pageSize ≤ x := by
  by_contra hin
  have hrun : inRun f count (x / pageSize) := by
    simp only [inRun, pageSize] at hin ⊢
    omega
  obtain ⟨hlt, hnot⟩ := hpool _ hrun
  exact hnot (hview.metadata x hx hlt)

/-! ## Allocation -/

/-- The reference counts after the frames of a run have been taken. -/
def claimed (refs : ℕ → ℕ) (first count f : ℕ) : ℕ :=
  if inRun first count f then 1 else refs f

theorem claimed_succ (refs : ℕ → ℕ) (first count : ℕ) : claimed refs first (count + 1) =
      Function.update (claimed refs first count) (first + count) 1 := by
  funext g
  simp only [claimed, update_apply]
  split_ifs
  all_goals simp only [inRun] at *
  all_goals omega

theorem claimed_outside {first : ℕ} (hout : ¬inRun first count g) :
    claimed refs first count g = refs g :=
  if_neg hout

/-- The frames of a run are below `nframes`, not kept back and free. -/
def FreeRun (s : PmmState) (kept : ℕ → Prop) (refs : ℕ → ℕ) (first count : ℕ) :
    Prop :=
  ∀ g, inRun first count g → g < s.nframes ∧ ¬kept g ∧ refs g = 0

theorem claimRun_fields (s : PmmState) (idx count : ℕ) :
    (claimRun s idx count).freeFrames = s.freeFrames := by
  induction count with
  | zero => rfl
  | succ count ih => exact ih

theorem View.claimRun (hview : View s kept refs) (hfree : FreeRun s kept refs idx count) :
    View (claimRun s idx count) kept (claimed refs idx count) ∧
      Keeps noFrame s (Pmm.claimRun s idx count) ∧
      s.clearBits = (Pmm.claimRun s idx count).clearBits + count := by
  induction count with
  | zero =>
    have hnone : claimed refs idx 0 = refs := by
      funext g
      exact claimed_outside (by simp only [inRun]; omega)
    rw [hnone]
    exact ⟨hview, .refl _ _, rfl⟩
  | succ count ih =>
    obtain ⟨hview', hkeeps, hclear⟩ := ih fun g hg => hfree g (by
      simp only [inRun] at hg ⊢
      omega)
    obtain ⟨hlt, hnot, hzero⟩ := hfree (idx + count) (by
      simp only [inRun]
      omega)
    rw [← hkeeps.nframes] at hlt
    have hout : claimed refs idx count (idx + count) = 0 := by
      rw [claimed_outside (by simp only [inRun]; omega)]
      exact hzero
    have hnext := hview'.claim hlt hnot
    have hstep := hview'.keeps_claim hlt
    have hcount := hview'.clearBits_take hnext hstep.nframes hlt hnot hout (by decide)
    refine ⟨?_, hkeeps.trans hstep, ?_⟩
    · rw [claimed_succ]
      exact hnext
    · rw [hclear, hcount, Nat.add_assoc, Nat.add_comm 1 count]
      rfl

/-- The common tail of the two allocators: count the frames out and zero them. -/
def handOut (s : PmmState) (idx count : ℕ) : PmmState :=
  { claimRun s idx count with
    freeFrames := sub64 (claimRun s idx count).freeFrames count
    mem := fill (claimRun s idx count).mem (wrap64 (idx * pageSize))
      (wrap64 (count * pageSize)) 0 }

theorem pmmAllocFrame_eq (s : PmmState) :
    pmmAllocFrame s = match bmFirstFree s.mem s.bitmap s.nframes with
      | none => (s, 0)
      | some idx => (handOut s idx 1, wrap64 (idx * pageSize)) :=
  rfl

theorem pmmAllocContiguous_eq (s : PmmState) (count : ℕ) : pmmAllocContiguous s count =
      match bmFindContiguous s.mem s.bitmap s.nframes count with
      | none => (s, 0)
      | some idx => (handOut s idx count, wrap64 (idx * pageSize)) :=
  rfl

theorem View.phys_lt (hview : View s kept refs) (hf : f ≤ s.nframes) : f * pageSize < 2 ^ 64 := by
  have hframes := hview.frames_le
  simp only [pageSize]
  omega

section

variable (hholds : Holds s kept refs)
include hholds

theorem Holds.free_lt : s.freeFrames ≤ 2 ^ 32 := by
  rw [hholds.free]
  refine le_trans ?_ hholds.frames_le
  exact countP_le_length.trans_eq length_range

/-- What an allocation of the run `[idx, idx + count)` did. -/
structure Allocated (s : PmmState) (kept : ℕ → Prop) (refs : ℕ → ℕ)
    (idx count : ℕ) (s' : PmmState) : Prop where
  run : FreeRun s kept refs idx count
  holds : Holds s' kept (claimed refs idx count)
  keeps : Keeps (inRun idx count) s s'

theorem Holds.handOut (hcount : count ≠ 0) (hfree : FreeRun s kept refs idx count) :
    Allocated s kept refs idx count (handOut s idx count) ∧
      wrap64 (idx * pageSize) = idx * pageSize := by
  obtain ⟨hview, hkeeps, hclear⟩ := hholds.toView.claimRun hfree
  have hlast := (hfree (idx + (count - 1)) (by simp only [inRun]; omega)).1
  have hidx := hholds.phys_lt (by omega : idx ≤ s.nframes)
  have hcountLt := hholds.phys_lt (by omega : count ≤ s.nframes)
  have hoff : ∀ x, (Pmm.claimRun s idx count).Metadata x →
      x < idx * pageSize ∨ idx * pageSize + count * pageSize ≤ x := by
    intro x hx
    refine hview.off_metadata (fun g hg => ?_) hx
    exact ⟨hkeeps.nframes ▸ (hfree g hg).1, (hfree g hg).2.1⟩
  have hsame : ∀ x, (Pmm.claimRun s idx count).Metadata x →
      (Pmm.handOut s idx count).mem x = (Pmm.claimRun s idx count).mem x := by
    intro x hx
    simp only [Pmm.handOut, wrap64_of_lt hidx, wrap64_of_lt hcountLt]
    exact fill_outside (hoff x hx)
  have hview' : View (Pmm.handOut s idx count) kept (claimed refs idx count) := hview.congr hsame
  have hclear' : (Pmm.handOut s idx count).clearBits = (Pmm.claimRun s idx count).clearBits :=
    countFree_congr fun g hg => hview.test_congr hsame hg
  refine ⟨⟨hfree, ⟨hview', ?_⟩, ?_⟩, wrap64_of_lt hidx⟩
  · have hle := hholds.free_lt
    rw [hclear']
    simp only [Pmm.handOut]
    rw [claimRun_fields, hholds.free, hclear]
    rw [hholds.free, hclear] at hle
    rw [sub64_of_le (by omega) (by omega), Nat.add_sub_cancel]
  · refine { hkeeps with data := fun x hx hout => ?_ }
    rw [← hkeeps.data x hx id]
    simp only [Pmm.handOut, wrap64_of_lt hidx, wrap64_of_lt hcountLt]
    apply fill_outside
    simp only [inRun, pageSize] at hout ⊢
    omega

/-- `pmm_alloc_frame` hands out a free frame with one reference, or finds that
there is none and changes nothing. -/
theorem pmmAllocFrame_spec :
    pmmAllocFrame s = (s, 0) ∧ (∀ f < s.nframes, kept f ∨ refs f ≠ 0) ∨
      ∃ idx s', pmmAllocFrame s = (s', idx * pageSize) ∧
        Allocated s kept refs idx 1 s' ∧ ∀ g < idx, kept g ∨ refs g ≠ 0 := by
  rw [pmmAllocFrame_eq]
  cases hfound : bmFirstFree s.mem s.bitmap s.nframes with
  | none =>
    refine .inl ⟨rfl, fun f hf => ?_⟩
    rw [bmFirstFree_eq, find?_eq_none] at hfound
    have hset := hfound f (List.mem_range.mpr hf)
    rw [← hholds.bit f hf, PmmState.test]
    simpa using hset
  | some idx =>
    obtain ⟨hlt, hclear, hleast⟩ := bmFirstFree_some hfound
    obtain ⟨hnot, hzero⟩ := (hholds.test_eq_iff hlt).mp hclear
    have hrun : FreeRun s kept refs idx 1 := by
      intro g hg
      have heq : g = idx := by simp only [inRun] at hg; omega
      exact heq ▸ ⟨hlt, hnot, hzero⟩
    obtain ⟨halloc, hphys⟩ := hholds.handOut (by decide) hrun
    refine .inr ⟨idx, Pmm.handOut s idx 1, ?_, halloc, fun g hg => ?_⟩
    · simp only [hphys]
    · exact (hholds.bit g (by omega)).mp (hleast g hg)

/-- The frame it hands out is the lowest free one. -/
theorem pmmAllocFrame_least (hf : f < s.nframes) (hfree : ¬(kept f ∨ refs f ≠ 0))
    (hleast : ∀ g < f, kept g ∨ refs g ≠ 0) : (pmmAllocFrame s).2 = f * pageSize := by
  rcases pmmAllocFrame_spec hholds with ⟨_, hnone⟩ | ⟨idx, s', hsome, halloc, hbelow⟩
  · exact absurd (hnone f hf) hfree
  · rw [hsome]
    obtain ⟨_, hkept, hzero⟩ := halloc.run idx (by simp only [inRun]; omega)
    rcases Nat.lt_trichotomy idx f with hlt | heq | hgt
    · exact absurd (hleast idx hlt) (by simp [hkept, hzero])
    · rw [heq]
    · exact absurd (hbelow f hgt) hfree

end

theorem handOut_none (hfree : s.freeFrames < 2 ^ 64) : handOut s 0 0 = s := by
  have hwrap : wrap64 (0 * pageSize) = 0 := rfl
  have hfill : fill s.mem 0 0 0 = s.mem := by
    funext x
    exact fill_outside (.inr (Nat.zero_le x))
  rw [handOut, claimRun, hwrap, hfill, sub64_of_le (Nat.zero_le _) hfree, Nat.sub_zero]

/-- `pmm_alloc_contiguous` hands out a run of free frames, or changes nothing. -/
theorem pmmAllocContiguous_spec (hholds : Holds s kept refs) (count : ℕ) :
    pmmAllocContiguous s count = (s, 0) ∨
      ∃ idx s', pmmAllocContiguous s count = (s', idx * pageSize) ∧
        count ≠ 0 ∧ Allocated s kept refs idx count s' := by
  rw [pmmAllocContiguous_eq]
  by_cases hcount : count = 0
  · subst hcount
    have hsame := handOut_none ((hholds.free_lt).trans_lt (by decide))
    left
    rw [bmFindContiguous, if_pos rfl]
    simp only [hsame, Nat.zero_mul, wrap64, Nat.zero_mod]
  · cases hfound : bmFindContiguous s.mem s.bitmap s.nframes count with
    | none => exact .inl rfl
    | some idx =>
      obtain ⟨hle, hclear⟩ := bmFindContiguous_some hcount hfound
      have hrun : FreeRun s kept refs idx count := by
        rintro g ⟨hfirst, hlast⟩
        have hbit := hclear (g - idx) (by omega)
        rw [Nat.add_sub_cancel' hfirst] at hbit
        have hlt : g < s.nframes := by omega
        exact ⟨hlt, (hholds.test_eq_iff hlt).mp hbit⟩
      obtain ⟨halloc, hphys⟩ := hholds.handOut hcount hrun
      refine .inr ⟨idx, Pmm.handOut s idx count, ?_, hcount, halloc⟩
      simp only [hphys]

/-! ## References -/

variable {phys : ℕ}

section

variable (hholds : Holds s kept refs)
include hholds

theorem Holds.referenced (hrefs : refs f ≠ 0) :
    f ≠ 0 ∧ f < s.nframes ∧ s.ref f = refs f ∧ s.test f = true := by
  obtain ⟨hlt, hkept⟩ := hholds.pool f hrefs
  have hne := hholds.ne_zero hkept
  exact ⟨hne, hlt, hholds.ref f hne hlt, (hholds.bit f hlt).mpr (.inr hrefs)⟩

theorem Holds.setRef (hrefs : refs f ≠ 0) (hvalue : value ≠ 0) (hsmall : value < 2 ^ 32) :
    Holds (s.setRef f value) kept (Function.update refs f value) ∧
      Keeps noFrame s (s.setRef f value) := by
  have hview := hholds.toView.setRef hrefs hvalue hsmall
  refine ⟨⟨hview, ?_⟩, keeps_setRef (hholds.pool f hrefs).1 hholds.layout_le⟩
  rw [hholds.toView.clearBits_same hview rfl hrefs hvalue]
  exact hholds.free

theorem pmmFreeFrame_spec (hrefs : refs (phys / pageSize) ≠ 0) :
    Holds (pmmFreeFrame s phys) kept
        (Function.update refs (phys / pageSize) (refs (phys / pageSize) - 1)) ∧
      Keeps noFrame s (pmmFreeFrame s phys) := by
  generalize hf : phys / pageSize = f at hrefs
  obtain ⟨hne, hlt, href, hset⟩ := hholds.referenced hrefs
  have hsmall := read32_lt s.mem (s.refcount + 4 * f)
  rw [show read32 s.mem (s.refcount + 4 * f) = refs f from href] at hsmall
  rw [pmmFreeFrame]
  simp only [hf, href, hset, Bool.true_eq_false, if_false]
  rw [if_neg (by omega)]
  split_ifs with hshared
  · exact hholds.setRef hrefs (by omega) (by omega)
  · rw [show refs f - 1 = 0 by omega]
    have hview := hholds.toView.release hrefs
    have hkeeps := hholds.toView.keeps_release hlt
    have hclear := hholds.toView.clearBits_release hview hkeeps.nframes hrefs
    have hle := hholds.free_lt
    refine ⟨⟨hview.congr fun _ _ => rfl, ?_⟩,
      { hkeeps with }⟩
    show wrap64 (s.freeFrames + 1) = ((s.setRef f 0).clearBit f).clearBits
    rw [hclear, ← hholds.free, wrap64_of_lt (by omega)]

theorem pmmIncFrameRef_spec (hrefs : refs (phys / pageSize) ≠ 0)
    (hroom : refs (phys / pageSize) + 1 < 2 ^ 32) :
    ∃ s', pmmIncFrameRef s phys = (s', true) ∧ Holds s' kept
        (Function.update refs (phys / pageSize) (refs (phys / pageSize) + 1)) ∧
      Keeps noFrame s s' := by
  generalize hf : phys / pageSize = f at hrefs hroom
  obtain ⟨hne, hlt, href, hset⟩ := hholds.referenced hrefs
  refine ⟨s.setRef f (refs f + 1), ?_, hholds.setRef hrefs (Nat.succ_ne_zero _) hroom⟩
  rw [pmmIncFrameRef]
  simp only [hf, href, hset, hrefs, Bool.true_eq_false, or_self, if_false]
  rw [if_neg (by omega)]

theorem pmmIncFrameRef_refuses (hrefs : refs (phys / pageSize) = 0) :
    pmmIncFrameRef s phys = (s, false) := by
  rw [pmmIncFrameRef]
  by_cases hrange : phys / pageSize = 0 ∨ s.nframes ≤ phys / pageSize
  · simp only [hrange, if_true]
  · have href := hholds.ref (phys / pageSize) (by omega) (by omega)
    simp only [hrange, href, hrefs, or_true, if_true, if_false]

end

/-- The reference counts after every frame of a run gave one reference back. -/
def released (refs : ℕ → ℕ) (first count f : ℕ) : ℕ :=
  if inRun first count f then refs f - 1 else refs f

theorem released_succ (refs : ℕ → ℕ) (first count : ℕ) : released refs first (count + 1) =
      Function.update (released refs first count) (first + count)
        (released refs first count (first + count) - 1) := by
  funext g
  obtain rfl | hlast := eq_or_ne g (first + count)
  · rw [update_self]
    simp only [released]
    split_ifs
    all_goals simp only [inRun] at *
    all_goals omega
  · rw [update_of_ne hlast]
    simp only [released]
    split_ifs
    all_goals simp only [inRun] at *
    all_goals omega

theorem released_none (refs : ℕ → ℕ) (first : ℕ) : released refs first 0 = refs := by
  funext g
  exact if_neg (by simp only [inRun]; omega)

section

variable (hholds : Holds s kept refs) (hrefs : ∀ g, inRun (phys / pageSize) count g → refs g ≠ 0)
include hholds hrefs

theorem freeRun_spec :
    Holds (freeRun s phys count) kept (released refs (phys / pageSize) count) ∧
      Keeps noFrame s (freeRun s phys count) := by
  induction count with
  | zero =>
    rw [released_none]
    exact ⟨hholds, .refl _ _⟩
  | succ count ih =>
    obtain ⟨hholds', hkeeps⟩ := ih fun g hg => hrefs g (by
      simp only [inRun] at hg ⊢
      omega)
    have hlast : refs (phys / pageSize + count) ≠ 0 := hrefs _ (by simp only [inRun]; omega)
    have hfresh : ¬inRun (phys / pageSize) count (phys / pageSize + count) := by
      simp only [inRun]
      omega
    have hbound := hholds.phys_lt (hholds.pool _ hlast).1
    have haddr : wrap64 (phys + count * pageSize) / pageSize = phys / pageSize + count := by
      have hlt : phys + count * pageSize < 2 ^ 64 := by
        simp only [pageSize] at hbound ⊢
        omega
      rw [wrap64_of_lt hlt]
      simp only [pageSize]
      omega
    have hrefs' : released refs (phys / pageSize) count
        (wrap64 (phys + count * pageSize) / pageSize) ≠ 0 := by
      rw [haddr, released, if_neg hfresh]
      exact hlast
    obtain ⟨hnext, hstep⟩ := pmmFreeFrame_spec hholds' hrefs'
    refine ⟨?_, hkeeps.trans hstep⟩
    rw [released_succ, ← haddr]
    exact hnext

/-- `pmm_free_contiguous` gives one reference of every frame of the run back. -/
theorem pmmFreeContiguous_spec :
    Holds (pmmFreeContiguous s phys count) kept (released refs (phys / pageSize) count) ∧
      Keeps noFrame s (pmmFreeContiguous s phys count) := by
  rw [pmmFreeContiguous]
  by_cases hcount : count = 0
  · rw [if_pos (.inr hcount), hcount, released_none]
    exact ⟨hholds, .refl _ _⟩
  · have hphys : phys ≠ 0 := by
      rintro rfl
      have hzero : refs 0 ≠ 0 := hrefs 0 (by
        simp only [inRun, Nat.zero_div]
        omega)
      exact (hholds.pool 0 hzero).2 hholds.zero
    rw [if_neg (by simp [hphys, hcount])]
    exact freeRun_spec hholds hrefs

end

/-! ## The large page -/

/-- The frames of the pool that are free. -/
def FreeFrame (s : PmmState) (kept : ℕ → Prop) (refs : ℕ → ℕ) (f : ℕ) : Prop :=
  f < s.nframes ∧ ¬kept f ∧ refs f = 0

theorem Keeps.mono {wider : ℕ → Prop} (hkeeps : Keeps zeroed s s')
    (hwider : ∀ f, zeroed f → wider f) : Keeps wider s s' :=
  { hkeeps with data := fun x hx hout => hkeeps.data x hx fun h => hout (hwider _ h) }

/-- `pmm_get_frame_refcount` reads the references, also out of bounds. -/
theorem Holds.refcount (hholds : Holds s kept refs) (f : ℕ) :
    pmmGetFrameRefcount s (f * pageSize) = refs f := by
  rw [pmmGetFrameRefcount, frame_addr]
  split_ifs with hout
  · by_contra hne
    obtain ⟨hlt, hkept⟩ := hholds.pool f (Ne.symm hne)
    have := hholds.ne_zero hkept
    omega
  · exact hholds.ref f (by omega) (by omega)

/-- Bytes outside the metadata do not matter to the pool. -/
theorem Holds.with_mem (hholds : Holds s kept refs) (hsame : ∀ x, s.Metadata x → mem x = s.mem x) :
    Holds { s with mem := mem } kept refs := by
  refine ⟨hholds.toView.congr hsame, hholds.free.trans (Eq.symm ?_)⟩
  exact countFree_congr fun g hg => hholds.toView.test_congr hsame hg

/-- Trimming a run of 1024 fresh frames to its aligned half. -/
theorem released_trim {first : ℕ} (hlow : idx ≤ first) (hhigh : first + 512 ≤ idx + 1024)
    (hfree : ∀ g, inRun idx 1024 g → refs g = 0) :
    released (released (claimed refs idx 1024) idx (first - idx)) (first + 512)
        (idx + 1024 - (first + 512)) = claimed refs first 512 := by
  funext g
  have hzero := hfree g
  simp only [released, claimed]
  split_ifs
  all_goals simp only [inRun] at *
  all_goals omega

theorem pmmFreeContiguous_zero (s : PmmState) (phys : ℕ) : pmmFreeContiguous s phys 0 = s :=
  if_pos (.inr rfl)

/-- The two trims of `pmm_alloc_2m`, once the run at `idx` has been taken. -/
theorem pmmAlloc2m_trims {first : ℕ} (hidx : idx ≠ 0)
    (hbound : idx + 1024 ≤ 2 ^ 32) (hfirst : first = (idx + 511) / 512 * 512)
    (halloc : pmmAllocContiguous s 1024 = (s', idx * pageSize)) :
    pmmAlloc2m s = (pmmFreeContiguous (pmmFreeContiguous s' (idx * pageSize) (first - idx))
        ((first + 512) * pageSize) (idx + 1024 - (first + 512)),
        first * pageSize) := by
  have hbase : idx * pageSize ≠ 0 := Nat.mul_ne_zero hidx (by decide)
  have haligned : alignDown (wrap64 (idx + 511)) 512 = first := by
    rw [wrap64_of_lt (by omega), alignDown, hfirst]
  have hhead : (if first ≠ idx then
      pmmFreeContiguous s' (idx * pageSize) (first - idx) else s') =
        pmmFreeContiguous s' (idx * pageSize) (first - idx) := by
    by_cases heq : first = idx
    · rw [if_neg (not_not.mpr heq), heq, Nat.sub_self, pmmFreeContiguous_zero]
    · rw [if_pos heq]
  have hpage : ∀ f, f ≤ 2 ^ 33 → wrap64 (f * pageSize) = f * pageSize := by
    intro f hf
    exact wrap64_of_lt (by simp only [pageSize]; omega)
  rw [pmmAlloc2m, halloc]
  simp only [hbase, if_false, frame_addr, haligned, hhead]
  rw [wrap64_of_lt (by omega : first + 512 < 2 ^ 64),
    wrap64_of_lt (by omega : idx + 1024 < 2 ^ 64), if_pos (by omega),
    hpage _ (by omega), hpage _ (by omega)]

/-- `pmm_alloc_2m` hands out an aligned run of 512 free frames with one
reference each and changes no other frame of the pool, or changes nothing. -/
theorem pmmAlloc2m_spec (hholds : Holds s kept refs) : pmmAlloc2m s = (s, 0) ∨
      ∃ first s', pmmAlloc2m s = (s', first * pageSize) ∧ 512 ∣ first ∧
        FreeRun s kept refs first 512 ∧ Holds s' kept (claimed refs first 512) ∧
        Keeps (FreeFrame s kept refs) s s' := by
  rcases pmmAllocContiguous_spec hholds 1024 with
    hnone | ⟨idx, taken, halloc, _, hrun, hholds', hkeeps⟩
  · left
    rw [pmmAlloc2m, hnone]
    rfl
  · right
    have hidx : idx ≠ 0 := hholds.ne_zero (hrun idx (by simp only [inRun]; omega)).2.1
    have hlast := (hrun (idx + 1023) (by simp only [inRun]; omega)).1
    have hframes := hholds.frames_le
    obtain ⟨first, hfirst⟩ : ∃ first, first = (idx + 511) / 512 * 512 := ⟨_, rfl⟩
    have hin : ∀ g, inRun idx 1024 g → claimed refs idx 1024 g ≠ 0 := by
      intro g hg
      rw [claimed, if_pos hg]
      decide
    obtain ⟨hhead, hkeepsHead⟩ := @pmmFreeContiguous_spec taken kept _
      (first - idx) (idx * pageSize) hholds' (fun g hg => hin g (by
        simp only [frame_addr, inRun] at hg ⊢
        omega))
    rw [frame_addr] at hhead
    obtain ⟨htail, hkeepsTail⟩ := @pmmFreeContiguous_spec _ kept _
      (idx + 1024 - (first + 512)) ((first + 512) * pageSize) hhead
      (fun g hg => by
        simp only [frame_addr, inRun] at hg
        rw [released, if_neg (by simp only [inRun]; omega)]
        exact hin g (by simp only [inRun]; omega))
    rw [frame_addr, released_trim (by omega) (by omega) fun g hg => (hrun g hg).2.2] at htail
    refine ⟨first, _, pmmAlloc2m_trims hidx (by omega) hfirst halloc,
      ⟨(idx + 511) / 512, by omega⟩, fun g hg => ?_, htail, ?_⟩
    · exact hrun g (by simp only [inRun] at hg ⊢; omega)
    · refine (hkeeps.mono fun g hg => hrun g hg).trans ?_
      exact (hkeepsHead.trans hkeepsTail).of_noFrame

end AuraLite.Pmm
