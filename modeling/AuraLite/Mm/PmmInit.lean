import AuraLite.Mm.PmmPool

/-!
# What initialisation leaves in the bitmap

`pmm_init` marks every frame used, clears the frames of the usable regions and
marks the early boot reserve and its own metadata again.  The bytes it reserves
for the bitmap are `nframes / 8` rounded up to a page, so when `nframes` is a
little more than a multiple of the bits in a page, the last bits fall behind the
bitmap, into the zeroed count of frame `0`: those frames start out clear.
-/

namespace AuraLite.Pmm

open ByteMemory Bitmap Word64

variable {m mem : Mem} {bm n f g x : ℕ} {used : Bool} {map : MemoryMap}
variable {s : PmmState}

/-! ## Marking -/

theorem bmTest_markFrames (m : Mem) (bm n count f g : ℕ) (used : Bool) :
    bmTest (markFrames m bm n used count f) bm g =
      if (f ≤ g ∧ g < f + count) ∧ g < n then used else bmTest m bm g := by
  induction count generalizing m f with
  | zero =>
    rw [markFrames, if_neg (by omega)]
  | succ count ih =>
    rw [markFrames]
    by_cases hf : f < n
    · have hone : bmTest (if used then bmSet m bm f else bmClear m bm f) bm g =
          if g = f then used else bmTest m bm g := by
        cases used with
        | true => exact bmTest_bmSet m bm f g
        | false => exact bmTest_bmClear m bm f g
      simp only [hf, if_true]
      rw [ih, hone]
      split_ifs
      all_goals first | rfl | omega
    · rw [if_neg hf, if_neg (by omega)]

theorem markFrames_outside (hx : bm + n / 8 < x) (count f : ℕ) :
    markFrames m bm n used count f x = m x := by
  induction count generalizing m f with
  | zero => rfl
  | succ count ih =>
    rw [markFrames]
    by_cases hf : f < n
    · have hbyte : f / 8 ≤ n / 8 := Nat.div_le_div_right hf.le
      simp only [hf, if_true]
      rw [ih]
      cases used with
      | true => exact bmSet_outside (by omega)
      | false => exact bmClear_outside (by omega)
    · rw [if_neg hf]

/-- The frames that `mark_range` visits. -/
def Marked (base len f : ℕ) : Prop :=
  alignUp base pageSize / pageSize ≤ f ∧ f < wrap64 (base + len) / pageSize

instance (base len f : ℕ) : Decidable (Marked base len f) :=
  inferInstanceAs (Decidable (_ ∧ _))

theorem bmTest_markRange (base len : ℕ) (hg : g < n) :
    bmTest (markRange m bm n base len used) bm g =
      if Marked base len g then used else bmTest m bm g := by
  rw [markRange, bmTest_markFrames]
  have hsame : (alignUp base pageSize / pageSize ≤ g ∧
      g < alignUp base pageSize / pageSize + (wrap64 (base + len) / pageSize -
        alignUp base pageSize / pageSize)) ∧ g < n ↔ Marked base len g := by
    rw [Marked]
    omega
  simp only [hsame]

theorem markRange_outside (hx : bm + n / 8 < x) (base len : ℕ) :
    markRange m bm n base len used x = m x :=
  markFrames_outside hx _ _

/-- A usable region of the map makes the frame free. -/
def Freed (map : MemoryMap) (f : ℕ) : Prop :=
  ∃ e ∈ map, e.type = .usable ∧ Marked e.base e.length f

theorem bmTest_clearUsable (hg : g < n) : bmTest (clearUsable map m bm n) bm g = true ↔
      bmTest m bm g = true ∧ ¬Freed map g := by
  induction map generalizing m with
  | nil => simp [clearUsable, Freed]
  | cons e map ih =>
    have hcons : Freed (e :: map) g ↔
        (e.type = .usable ∧ Marked e.base e.length g) ∨ Freed map g := by
      simp [Freed]
    rw [hcons, clearUsable, List.foldl_cons]
    split_ifs with husable
    · refine (ih (m := markRange m bm n e.base e.length false)).trans ?_
      rw [bmTest_markRange _ _ hg]
      by_cases hmarked : Marked e.base e.length g
      · simp [hmarked, husable]
      · simp [hmarked]
    · refine ih.trans ?_
      simp [husable]

theorem clearUsable_outside (hx : bm + n / 8 < x) : clearUsable map m bm n x = m x := by
  refine List.foldlRecOn (motive := fun m' : Mem => m' x = m x) map _ rfl fun m' hm' e _ => ?_
  split_ifs
  · exact (markRange_outside hx _ _).trans hm'
  · exact hm'

/-! ## Placement of the metadata -/

theorem nframesOf_lt (map : MemoryMap) : nframesOf map < 2 ^ 52 := by
  have hlt : alignUp (highestUsable map) pageSize < 2 ^ 64 := by
    have hwrap := wrap64_lt (highestUsable map + (pageSize - 1))
    rw [alignUp]
    exact lt_of_le_of_lt (Nat.div_mul_le_self _ _) hwrap
  have hpages : pageSize * 2 ^ 52 = 2 ^ 64 := by decide
  rw [nframesOf]
  exact Nat.div_lt_of_lt_mul (hpages ▸ hlt)

theorem bitmapBytesOf_eq (hn : n < 2 ^ 52) : bitmapBytesOf n = (n / 8 + 4095) / 4096 * 4096 := by
  rw [bitmapBytesOf, alignUp_of_lt (by simp only [pageSize]; omega)]
  rfl

theorem refcountBytesOf_eq (hn : n < 2 ^ 52) :
    refcountBytesOf n = (n * 4 + 4095) / 4096 * 4096 := by
  have hfour : n * 4 < 2 ^ 64 := by omega
  rw [refcountBytesOf, wrap64_of_lt hfour, alignUp_of_lt (by simp only [pageSize]; omega)]
  rfl

theorem metadata_size (hn : n < 2 ^ 52) :
    alignUp (wrap64 (bitmapBytesOf n + refcountBytesOf n)) pageSize =
        bitmapBytesOf n + refcountBytesOf n ∧
      n / 8 ≤ bitmapBytesOf n ∧ n * 4 ≤ refcountBytesOf n ∧
      bitmapBytesOf n < 2 ^ 60 ∧ refcountBytesOf n < 2 ^ 60 := by
  have hbitmap : bitmapBytesOf n ≤ n / 8 + 4095 := by
    rw [bitmapBytesOf_eq hn]
    exact Nat.div_mul_le_self _ _
  have hrefcount : refcountBytesOf n ≤ n * 4 + 4095 := by
    rw [refcountBytesOf_eq hn]
    exact Nat.div_mul_le_self _ _
  have hdvd : pageSize ∣ bitmapBytesOf n + refcountBytesOf n :=
    Nat.dvd_add (dvd_alignUp _ _) (dvd_alignUp _ _)
  refine ⟨?_, ?_, ?_, by omega, by omega⟩
  · rw [wrap64_of_lt (by omega)]
    exact alignUp_of_dvd (by decide) hdvd (by simp only [pageSize]; omega)
  · rw [bitmapBytesOf_eq hn]
    omega
  · rw [refcountBytesOf_eq hn]
    omega

theorem placeIn_spec {need place : ℕ} {wantType : MemType} {e : MapEntry}
    (hneed : pageSize ∣ need) (hplace : placeIn need wantType e = some place) :
    pageSize ∣ place ∧ place + need ≤ 2 ^ 32 := by
  have hlimit : pageSize ∣ earlyHhdmLimit ∧ earlyHhdmLimit = 2 ^ 32 := by decide
  rw [placeIn] at hplace
  split at hplace
  · cases hplace
  · obtain ⟨stop, hstop⟩ : ∃ stop, (if earlyHhdmLimit <
        alignDown (wrap64 (e.base + e.length)) pageSize then earlyHhdmLimit
        else alignDown (wrap64 (e.base + e.length)) pageSize) = stop := ⟨_, rfl⟩
    have hbounds : pageSize ∣ stop ∧ stop ≤ 2 ^ 32 := by
      rw [← hstop]
      split_ifs with hhigh
      · exact ⟨hlimit.1, hlimit.2.le⟩
      · exact ⟨Nat.dvd_mul_left _ _, hlimit.2 ▸ Nat.le_of_not_lt hhigh⟩
    simp only [hstop] at hplace
    by_cases hsmall : stop ≤ alignUp e.base pageSize ∨ stop - alignUp e.base pageSize < need
    · rw [if_pos hsmall] at hplace
      cases hplace
    · rw [if_neg hsmall, Option.some.injEq] at hplace
      rw [← hplace]
      exact ⟨Nat.dvd_sub hbounds.1 hneed, by omega⟩

/-- The metadata lies on page boundaries below the early limit. -/
theorem findBitmapRegion_spec (hn : n < 2 ^ 52) (hplace : findBitmapRegion map n ≠ 0) :
    pageSize ∣ findBitmapRegion map n ∧
      findBitmapRegion map n + (bitmapBytesOf n + refcountBytesOf n) ≤ 2 ^ 32 := by
  have hsize := (metadata_size hn).1
  have hdvd : pageSize ∣ bitmapBytesOf n + refcountBytesOf n :=
    Nat.dvd_add (dvd_alignUp _ _) (dvd_alignUp _ _)
  rw [findBitmapRegion, hsize] at hplace ⊢
  cases hfirst : map.findSome? (placeIn (bitmapBytesOf n + refcountBytesOf n) .bootloader) with
  | some place =>
    obtain ⟨e, _, he⟩ := List.exists_of_findSome?_eq_some hfirst
    exact placeIn_spec hdvd he
  | none =>
    rw [hfirst] at hplace
    cases hsecond : map.findSome? (placeIn (bitmapBytesOf n + refcountBytesOf n) .usable) with
    | some place =>
      obtain ⟨e, _, he⟩ := List.exists_of_findSome?_eq_some hsecond
      exact placeIn_spec hdvd he
    | none =>
      rw [hsecond] at hplace
      exact absurd rfl hplace

/-! ## The state after initialisation -/

/-- The two `memset` calls of `pmm_init`. -/
def blank (mem : Mem) (bitmap bitmapBytes refcountBytes : ℕ) : Mem :=
  fill (fill mem (bitmap + bitmapBytes) refcountBytes 0) bitmap bitmapBytes 255

/-- The early boot reserve. -/
def BootFrame (f : ℕ) : Prop := f * pageSize < earlyBootReserve

instance (f : ℕ) : Decidable (BootFrame f) :=
  inferInstanceAs (Decidable (f * pageSize < earlyBootReserve))

/-- The frames of the bitmap and the reference counts. -/
def MetadataFrame (map : MemoryMap) (f : ℕ) : Prop :=
  inRun (findBitmapRegion map (nframesOf map) / pageSize)
    ((bitmapBytesOf (nframesOf map) + refcountBytesOf (nframesOf map)) / pageSize) f

/-- What a successful `pmm_init` computed. -/
structure Initialised (map : MemoryMap) (mem : Mem) (s : PmmState) : Prop where
  nframes : s.nframes = nframesOf map
  bitmap : s.bitmap = findBitmapRegion map (nframesOf map)
  refcount : s.refcount = s.bitmap + bitmapBytesOf (nframesOf map)
  place_dvd : pageSize ∣ s.bitmap
  place_le : s.bitmap + (bitmapBytesOf (nframesOf map) +
    refcountBytesOf (nframesOf map)) ≤ 2 ^ 32
  free : s.freeFrames = s.clearBits
  mem : s.mem = markRange (markRange (clearUsable map
    (blank mem s.bitmap (bitmapBytesOf (nframesOf map))
      (refcountBytesOf (nframesOf map))) s.bitmap s.nframes) s.bitmap s.nframes 0
        earlyBootReserve true) s.bitmap s.nframes s.bitmap
          (bitmapBytesOf (nframesOf map) + refcountBytesOf (nframesOf map)) true

theorem pmmInit_succeeds (mem : Mem) (hframes : nframesOf map ≠ 0)
    (hplace : findBitmapRegion map (nframesOf map) ≠ 0) :
    ∃ s, pmmInit map mem = some s := by
  rw [pmmInit]
  simp only [hframes, hplace, if_false]
  exact ⟨_, rfl⟩

theorem pmmInit_initialised (hinit : pmmInit map mem = some s) : Initialised map mem s := by
  have hn := nframesOf_lt map
  rw [pmmInit] at hinit
  by_cases hframes : nframesOf map = 0
  · simp only [hframes, if_true] at hinit
    cases hinit
  · by_cases hplace : findBitmapRegion map (nframesOf map) = 0
    · simp only [hplace, if_true, ite_self] at hinit
      cases hinit
    · obtain ⟨hdvd, hle⟩ := findBitmapRegion_spec hn hplace
      simp only [hframes, hplace, if_false, Option.some.injEq] at hinit
      rw [wrap64_of_lt (by omega : findBitmapRegion map (nframesOf map) +
        bitmapBytesOf (nframesOf map) < 2 ^ 64), wrap64_of_lt
        (by omega : bitmapBytesOf (nframesOf map) +
          refcountBytesOf (nframesOf map) < 2 ^ 64)] at hinit
      subst hinit
      exact ⟨rfl, rfl, rfl, hdvd, hle, rfl, rfl⟩

theorem marked_boot (f : ℕ) : Marked 0 earlyBootReserve f ↔ BootFrame f := by
  have hstart : alignUp 0 pageSize / pageSize = 0 := by decide
  have hstop : wrap64 (0 + earlyBootReserve) / pageSize = 14336 := by decide
  have hreserve : earlyBootReserve = 14336 * pageSize := by decide
  rw [Marked, BootFrame, hstart, hstop, hreserve, Nat.mul_lt_mul_right (by decide)]
  exact ⟨fun h => h.2, fun h => ⟨Nat.zero_le f, h⟩⟩

section

variable (hinit : Initialised map mem s)
include hinit

theorem Initialised.marked_metadata (f : ℕ) : Marked s.bitmap (bitmapBytesOf (nframesOf map) +
        refcountBytesOf (nframesOf map)) f ↔ MetadataFrame map f := by
  have hle := hinit.place_le
  obtain ⟨page, hpage⟩ := hinit.place_dvd
  rw [Marked, MetadataFrame, ← hinit.bitmap, inRun, wrap64_of_lt (by omega),
    alignUp_of_dvd (by decide) hinit.place_dvd (by simp only [pageSize]; omega),
    hpage, Nat.mul_add_div (by decide), Nat.mul_div_cancel_left _ (by decide)]

/-- A bit before any frame is marked: set inside the bytes of the bitmap, clear
behind them. -/
theorem Initialised.blank_bit (hf : f < s.nframes) :
    bmTest (blank mem s.bitmap (bitmapBytesOf (nframesOf map))
        (refcountBytesOf (nframesOf map))) s.bitmap f = true ↔
      f < 8 * bitmapBytesOf (nframesOf map) := by
  obtain ⟨_, hbytes, hcounts, _⟩ := metadata_size (nframesOf_lt map)
  rw [hinit.nframes] at hf
  generalize bitmapBytesOf (nframesOf map) = bitmapBytes at *
  generalize refcountBytesOf (nframesOf map) = refcountBytes at *
  by_cases hin : f < 8 * bitmapBytes
  · have hbyte : blank mem s.bitmap bitmapBytes refcountBytes (s.bitmap + f / 8) = 255 := by
      rw [blank, fill, if_pos (by omega)]
    rw [bmTest, hbyte]
    exact iff_of_true (testBit_ones (Nat.mod_lt _ (by omega))) hin
  · have hbyte : blank mem s.bitmap bitmapBytes refcountBytes (s.bitmap + f / 8) = 0 := by
      rw [blank, fill, if_neg (by omega), fill, if_pos (by omega)]
    rw [bmTest, hbyte]
    exact iff_of_false (by simp) hin

/-- The bitmap that `pmm_init` leaves behind. -/
theorem Initialised.test_iff (hf : f < s.nframes) :
    s.test f = true ↔ (f < 8 * bitmapBytesOf (nframesOf map) ∧ ¬Freed map f) ∨ BootFrame f ∨
        MetadataFrame map f := by
  rw [PmmState.test, hinit.mem, bmTest_markRange _ _ hf, bmTest_markRange _ _ hf]
  by_cases hmeta : MetadataFrame map f
  · rw [if_pos ((hinit.marked_metadata f).mpr hmeta)]
    exact iff_of_true rfl (.inr (.inr hmeta))
  · rw [if_neg fun h => hmeta ((hinit.marked_metadata f).mp h)]
    by_cases hboot : BootFrame f
    · rw [if_pos ((marked_boot f).mpr hboot)]
      exact iff_of_true rfl (.inr (.inl hboot))
    · rw [if_neg fun h => hboot ((marked_boot f).mp h), bmTest_clearUsable hf, hinit.blank_bit hf]
      simp [hboot, hmeta]

theorem Initialised.layout : s.bitmap + s.nframes / 8 ≤ s.refcount := by
  rw [hinit.refcount, hinit.nframes]
  exact Nat.add_le_add_left (metadata_size (nframesOf_lt map)).2.1 _

/-- The counts of all frames but frame `0` are zero. -/
theorem Initialised.ref_zero (hne : f ≠ 0) (hf : f < s.nframes) : s.ref f = 0 := by
  have hlayout := hinit.layout
  have hcounts := (metadata_size (nframesOf_lt map)).2.2.1
  have hfill : ∀ x, s.refcount + 4 * f ≤ x → x < s.refcount + 4 * f + 4 → s.mem x = lowByte 0 := by
    intro x hlow hhigh
    have hx : s.bitmap + s.nframes / 8 < x := by omega
    rw [hinit.mem, markRange_outside hx, markRange_outside hx, clearUsable_outside hx]
    rw [hinit.refcount] at hlow hhigh
    rw [hinit.nframes] at hf
    rw [blank, fill, if_neg (by omega), fill, if_pos (by omega)]
    rfl
  have hread : read32 s.mem (s.refcount + 4 * f) = 0 % 256 ^ 4 := by
    apply readLE_of_bytes
    intro i hi
    rw [Nat.zero_div]
    exact hfill _ (by omega) (by omega)
  exact hread

/-- The pool right after `pmm_init`: nothing is referenced, and the frames kept
back are those whose bit is set. -/
theorem Initialised.holds : Holds s (fun f => f < s.nframes → s.test f = true) fun _ => 0 := by
  have hle := hinit.place_le
  have hcounts := (metadata_size (nframesOf_lt map)).2.2.1
  refine ⟨⟨hinit.layout, ?_, fun hlt => ?_, fun x hx hlt _ => ?_, ?_,
    fun f hf => ?_, fun f hne hf => hinit.ref_zero hne hf⟩, hinit.free⟩
  · rw [hinit.nframes]
    omega
  · rw [hinit.test_iff hlt]
    exact .inr (.inl (by decide))
  · rw [hinit.test_iff hlt]
    refine .inr (.inr ?_)
    obtain ⟨hlow, hhigh⟩ := hx
    rw [hinit.refcount, hinit.nframes] at hhigh
    obtain ⟨page, hpage⟩ := hinit.place_dvd
    obtain ⟨pages, hpages⟩ : pageSize ∣ bitmapBytesOf (nframesOf map) +
        refcountBytesOf (nframesOf map) :=
      Nat.dvd_add (dvd_alignUp _ _) (dvd_alignUp _ _)
    rw [MetadataFrame, ← hinit.bitmap, hpages, hpage, inRun,
      Nat.mul_div_cancel_left _ (by decide), Nat.mul_div_cancel_left _ (by decide)]
    simp only [pageSize] at hpage hpages ⊢
    omega
  · exact fun f hne => absurd rfl hne
  · exact ⟨fun hset => .inl fun _ => hset, fun h => h.elim (fun h => h hf) fun h => absurd rfl h⟩

end

end AuraLite.Pmm
