import AuraLite.Fs.DescriptorTable

/-!
# Lifetime of open file descriptions

Every count equals the number of slots and areas that hold the description, whatever the
tasks do.  A pipe counts its open ends, and a description refers to live objects as long as
names are removed only when nothing is open behind them.
-/

namespace AuraLite.Descriptor

open Option Arena RefCount Fallible Reachability
open List hiding lookup
open Mmap (Vma hasFlag vmaFile vmaInsert vmaLink vmaAlloc)

/-- The slots and areas that hold a description. -/
def State.held (s : State) (o : ℕ) : ℕ :=
  (owned Fdtab.held s.tables).count o + (owned areaFiles s.lists).count o

/-- `extra` are the references in the hands of the running code. -/
structure State.Sound (s : State) (extra : List ℕ) : Prop where
  store : s.store.Sound fun o => s.held o + extra.count o
  tables : ∀ k, (0 :: owned (fun task : Task => task.fdtab.toList) s.tasks).count k ≤
    (lookup s.tables k).elim 0 Fdtab.refs
  lists : ∀ t task k, lookup s.tasks t = some task → task.vmaList = some k →
    ∃ areas, lookup s.lists k = some areas

variable {s s' s'' : State} {extra : List ℕ} {k i o : ℕ}
variable {f : Store → Store} {areas : List Vma} {rfd wfd : ℕ}
variable {tab : Fdtab} {t start : ℕ} {self : Task} {x : Option Fdtab} {extra' : List ℕ}
  {new old : Option ℕ}

/-! ## Moving a reference -/

open State

theorem slotAt_eq_some (hslot : s.slotAt k i = some o) :
    ∃ tab, lookup s.tables k = some tab ∧ tab.slots[i]? = some (some o) := by
  obtain ⟨tab, htab, hget⟩ := bind_eq_some_iff.mp hslot
  exact ⟨tab, htab, join_eq_some_iff.mp hget⟩

theorem slotAt_of_lookup (htab : lookup s.tables k = some tab) (i : ℕ) :
    s.slotAt k i = tab.slots[i]?.join := by
  rw [slotAt, htab, bind_some]

theorem slot_eq_some {fd : ℤ} (hslot : s.slot k fd = some o) : s.slotAt k fd.toNat = some o := by
  rw [slot] at hslot
  split at hslot
  · cases hslot
  · exact hslot

theorem allocFdSlot_free {slots : List (Option ℕ)} (hfree : allocFdSlot slots start = some i) :
    slots[i]? = some none := by
  have hfound := find?_some hfree
  exact eq_of_beq hfound

theorem freeSlot_eq_some (hfree : s.freeSlot k start = some i) :
    ∃ tab, lookup s.tables k = some tab ∧ tab.slots[i]? = some none := by
  obtain ⟨tab, htab, hget⟩ := bind_eq_some_iff.mp hfree
  exact ⟨tab, htab, allocFdSlot_free hget⟩

theorem setSlot_eq (htab : lookup s.tables k = some tab) (new : Option ℕ) (cloexec : Bool) :
    s.setSlot k i new cloexec =
      { s with tables := s.tables.set k (some (tab.set i new cloexec)) } := by
  rw [setSlot, htab]

@[simp] theorem setSlot_store (s : State) (k i : ℕ) (new : Option ℕ) (cloexec : Bool) :
    (s.setSlot k i new cloexec).store = s.store := by
  rw [setSlot]
  split <;> rfl

/-- How many tasks use a table; the fallback table has one user more. -/
def State.users (s : State) (k : ℕ) : ℕ :=
  (0 :: owned (fun task : Task => task.fdtab.toList) s.tasks).count k

def State.tableRefs (s : State) (k : ℕ) : ℕ := (lookup s.tables k).elim 0 Fdtab.refs

section

variable (hsound : s.Sound extra)
include hsound

theorem State.Sound.users_le (k : ℕ) : s.users k ≤ s.tableRefs k :=
  hsound.tables k

theorem State.Sound.users_le_refs (htab : lookup s.tables k = some tab) : s.users k ≤ tab.refs := by
  have hle := hsound.users_le k
  rw [tableRefs, htab, elim_some] at hle
  exact hle

theorem State.Sound.no_users (hfree : lookup s.tables k = none) :
    s.users k = 0 := by
  have hle := hsound.users_le k
  rw [tableRefs, hfree, elim_none] at hle
  exact Nat.le_zero.mp hle

/-- A table is replaced or freed: what it held is in the hands of the code. -/
theorem State.Sound.setTable (htab : lookup s.tables k = some tab)
    (hrefs : s.users k ≤ x.elim 0 Fdtab.refs)
    (hextra : ∀ w, extra'.count w + (x.elim [] Fdtab.held).count w =
      extra.count w + tab.held.count w) : { s with tables := s.tables.set k x }.Sound extra' := by
  refine ⟨hsound.store.congr ?_, ?_, hsound.lists⟩
  · intro w
    have hset := count_owned_set Fdtab.held htab x w
    have hw := hextra w
    simp only [held]
    omega
  · intro j
    rw [lookup_set htab]
    split_ifs with hj
    · exact hj ▸ hrefs
    · exact hsound.tables j

/-- A slot is written: what it held is in the hands of the code, and what it holds is not. -/
theorem State.Sound.replaceSlot (htab : lookup s.tables k = some tab)
    (hold : tab.slots[i]? = some old) (cloexec : Bool)
    (hextra : ∀ w, extra'.count w + new.toList.count w = extra.count w + old.toList.count w) :
    (s.setSlot k i new cloexec).Sound extra' := by
  rw [setSlot_eq htab]
  have hrefs := hsound.users_le_refs htab
  refine hsound.setTable htab hrefs fun w => ?_
  have hslots : (tab.set i new cloexec).held.count w + old.toList.count w =
      tab.held.count w + new.toList.count w := count_flatMap_set toList hold w
  have hw := hextra w
  rw [elim_some]
  omega

end

/-- A reference goes into a slot, and the one that was there comes out. -/
theorem State.Sound.setSlot (hsound : s.Sound (new.toList ++ extra))
    (htab : lookup s.tables k = some tab) (hold : tab.slots[i]? = some old) (cloexec : Bool) :
    (s.setSlot k i new cloexec).Sound (old.toList ++ extra) := by
  apply hsound.replaceSlot htab hold
  intro w
  rw [count_append, count_append]
  omega

theorem State.Sound.onStore (hsound : s.Sound extra)
    (hstore : (f s.store).Sound fun o => s.held o + extra'.count o) : (s.onStore f).Sound extra' :=
  ⟨hstore, hsound.tables, hsound.lists⟩

theorem State.Sound.perm (hsound : s.Sound extra) (hperm : extra.Perm extra') : s.Sound extra' :=
  ⟨hsound.store.congr fun w => by rw [hperm.count_eq], hsound.tables, hsound.lists⟩

theorem State.Sound.get (hsound : s.Sound extra) (hpos : 0 < s.held o + extra.count o) :
    (s.ofdGet o).Sound (o :: extra) := by
  apply hsound.onStore
  apply (hsound.store.get hpos).congr
  intro w
  have hcons := count_cons_single o extra w
  omega

theorem State.Sound.put (hsound : s.Sound (o :: extra)) : (s.ofdPut o).Sound extra := by
  apply hsound.onStore
  apply hsound.store.put
  intro w
  have hcons := count_cons_single o extra w
  omega

theorem held_pos_of_slot (hslot : s.slotAt k i = some o) : 0 < s.held o := by
  obtain ⟨tab, htab, hget⟩ := slotAt_eq_some hslot
  have hle := count_le_owned Fdtab.held htab o
  have hmem : o ∈ tab.held :=
    mem_flatMap.mpr ⟨some o, mem_of_getElem? hget, mem_singleton_self o⟩
  have hpos := count_pos_iff.mpr hmem
  exact Nat.lt_of_lt_of_le hpos (Nat.le_add_right_of_le hle)

theorem held_pos_of_area {v : Vma} (hlist : lookup s.lists k = some areas) (hv : v ∈ areas)
    (hfile : fileOf v = some o) : 0 < s.held o := by
  have hle := count_le_owned areaFiles hlist o
  have hmem : o ∈ areaFiles areas :=
    mem_flatMap.mpr ⟨v, hv, by rw [hfile]; exact mem_singleton_self o⟩
  have hpos := count_pos_iff.mpr hmem
  exact Nat.lt_of_lt_of_le hpos (Nat.le_add_left_of_le hle)

/-! ## What a call leaves in place -/

/-- Descriptions keep their vnode and numbers are not used again. -/
structure SameVns (ofds ofds' : List (Option Ofd)) : Prop where
  grown : ofds.length ≤ ofds'.length
  vn : ∀ o d', lookup ofds' o = some d' → o < ofds.length →
    ∃ d, lookup ofds o = some d ∧ d.vn = d'.vn

def OldPipes (rings rings' : List Ring) : Prop :=
  ∀ (r : ℕ) (ring' : Ring) (ends : Ends), rings'[r]? = some ring' → ring'.owner = .pipe ends →
    ∃ ring, rings[r]? = some ring ∧ ring.owner = .pipe ends

section Evolves

variable {ofds ofds' ofds'' : List (Option Ofd)} {rings rings' rings'' : List Ring} {d : Ofd}

theorem SameVns.refl (ofds : List (Option Ofd)) : SameVns ofds ofds :=
  ⟨Nat.le_refl _, fun _ d' hd' _ => ⟨d', hd', rfl⟩⟩

theorem SameVns.trans (hfirst : SameVns ofds ofds') (hsecond : SameVns ofds' ofds'') :
    SameVns ofds ofds'' := by
  refine ⟨hfirst.grown.trans hsecond.grown, ?_⟩
  intro o d' hd' ho
  obtain ⟨d₁, hd₁, hvn₁⟩ := hsecond.vn o d' hd' (ho.trans_le hfirst.grown)
  obtain ⟨d, hd, hvn⟩ := hfirst.vn o d₁ hd₁ ho
  exact ⟨d, hd, hvn.trans hvn₁⟩

theorem SameVns.set (hget : lookup ofds o = some d) {x : Option Ofd}
    (hvn : ∀ d', x = some d' → d'.vn = d.vn) : SameVns ofds (ofds.set o x) := by
  refine ⟨by rw [length_set], ?_⟩
  intro w d' hd' _
  rw [lookup_set hget] at hd'
  split_ifs at hd' with hw
  · exact ⟨d, hw ▸ hget, (hvn d' hd').symm⟩
  · exact ⟨d', hd', rfl⟩

theorem SameVns.append (ofds : List (Option Ofd)) (x : Option Ofd) :
    SameVns ofds (ofds ++ [x]) := by
  refine ⟨by rw [length_append]; exact Nat.le_add_right _ _, ?_⟩
  intro o d' hd' ho
  rw [lookup_append_of_ne x ho.ne] at hd'
  exact ⟨d', hd', rfl⟩

theorem OldPipes.refl (rings : List Ring) : OldPipes rings rings :=
  fun _ ring' _ hring howner => ⟨ring', hring, howner⟩

theorem OldPipes.trans (hfirst : OldPipes rings rings') (hsecond : OldPipes rings' rings'') :
    OldPipes rings rings'' := by
  intro r ring' ends hring howner
  obtain ⟨ring₁, hring₁, howner₁⟩ := hsecond r ring' ends hring howner
  exact hfirst r ring₁ ends hring₁ howner₁

theorem OldPipes.modify (rings : List Ring) (r : ℕ) {f : Ring → Ring}
    (howner : ∀ ring, (f ring).owner = ring.owner) : OldPipes rings (rings.modify r f) := by
  intro j ring' ends hring' hends
  by_cases hj : r = j
  · subst hj
    rw [getElem?_modify_eq] at hring'
    obtain ⟨ring, hring, rfl⟩ := map_eq_some_iff.mp hring'
    exact ⟨ring, hring, (howner ring).symm.trans hends⟩
  · rw [getElem?_modify_ne _ _ hj] at hring'
    exact ⟨ring', hring', hends⟩

theorem OldPipes.append (rings : List Ring) {ring : Ring}
    (howner : ∀ ends, ring.owner ≠ .pipe ends) : OldPipes rings (rings ++ [ring]) := by
  intro r ring' ends hring' hends
  cases hold : rings[r]? with
  | some old =>
    rw [append_of_some _ hold] at hring'
    cases hring'
    exact ⟨ring', rfl, hends⟩
  | none =>
    obtain ⟨-, rfl⟩ := concat_new hold hring'
    exact absurd hends (howner ends)

end Evolves

/-- What a piece of a call does: `clears` are the slots it may close, `frees` the area lists
it may free. -/
structure Kept (clears : ℕ → ℕ → Prop) (frees : ℕ → Prop) (s s' : State) : Prop where
  vns : SameVns s.store.ofds s'.store.ofds
  slots : ∀ k i o, s.slotAt k i = some o → ¬ clears k i → s'.slotAt k i = some o
  lists : ∀ k areas, lookup s.lists k = some areas → ¬ frees k →
    lookup s'.lists k = some areas

section Kept

variable {clears clears' : ℕ → ℕ → Prop} {frees frees' : ℕ → Prop}

theorem Kept.of_eq (hvns : SameVns s.store.ofds s'.store.ofds) (htables : s'.tables = s.tables)
    (hlists : s'.lists = s.lists) : Kept clears frees s s' := by
  refine ⟨hvns, fun k i o hslot _ => ?_, fun k areas hlist _ => hlists ▸ hlist⟩
  rw [slotAt, htables]
  exact hslot

theorem Kept.trans (hfirst : Kept clears frees s s') (hsecond : Kept clears frees s' s'') :
    Kept clears frees s s'' := by
  refine ⟨hfirst.vns.trans hsecond.vns, ?_, ?_⟩
  · intro k i o hslot hnot
    exact hsecond.slots k i o (hfirst.slots k i o hslot hnot) hnot
  · intro k areas hlist hnot
    exact hsecond.lists k areas (hfirst.lists k areas hlist hnot) hnot

theorem Kept.weaken (hkept : Kept clears frees s s') (hclears : ∀ k i, clears k i → clears' k i)
    (hfrees : ∀ k, frees k → frees' k) : Kept clears' frees' s s' :=
  ⟨hkept.vns, fun k i o hslot hnot => hkept.slots k i o hslot fun h => hnot (hclears k i h),
    fun k areas hlist hnot => hkept.lists k areas hlist fun h => hnot (hfrees k h)⟩

theorem Kept.onStore (hvns : SameVns s.store.ofds (f s.store).ofds) :
    Kept clears frees s (s.onStore f) :=
  .of_eq hvns rfl rfl

theorem Kept.setTable (htab : lookup s.tables k = some tab)
    (hslots : ∀ i o, tab.slots[i]?.join = some o → ¬ clears k i →
      (x.bind fun tab => tab.slots[i]?.join) = some o) :
    Kept clears frees s { s with tables := s.tables.set k x } := by
  refine ⟨.refl _, ?_, fun _ _ hlist _ => hlist⟩
  intro j i o hslot hnot
  simp only [slotAt, lookup_set htab] at hslot ⊢
  split_ifs with hj
  · rw [hj, htab, bind_some] at hslot
    exact hslots i o hslot (hj ▸ hnot)
  · exact hslot

theorem Kept.setSlot {cloexec : Bool}
    (hclears : s.slotAt k i = none ∨ new = s.slotAt k i ∨ clears k i) :
    Kept clears frees s (s.setSlot k i new cloexec) := by
  cases htab : lookup s.tables k with
  | none =>
    have hsame : s.setSlot k i new cloexec = s := by rw [State.setSlot, htab]
    rw [hsame]
    exact .of_eq (.refl _) rfl rfl
  | some tab =>
    rw [setSlot_eq htab]
    apply Kept.setTable htab
    intro j o hj hnot
    rw [bind_some, Fdtab.set, getElem?_set]
    split_ifs with hi hlt
    · rw [slotAt_of_lookup htab, hi, hj] at hclears
      obtain hnone | hsame | hclear := hclears
      · cases hnone
      · exact hsame
      · exact absurd hclear hnot
    · rw [← hi, getElem?_eq_none (Nat.le_of_not_lt hlt)] at hj
      cases hj
    · exact hj

end Kept

/-! ## The store under the calls -/

section Store

variable (st : Store)

theorem ofdGet_vns (o : ℕ) : SameVns st.ofds (st.ofdGet o).ofds := by
  rw [Store.ofdGet]
  cases hd : lookup st.ofds o with
  | none => exact .refl _
  | some d =>
    apply SameVns.set hd
    rintro d' ⟨⟩
    rfl

theorem ofdGet_rings (o : ℕ) : (st.ofdGet o).rings = st.rings := by
  rw [Store.ofdGet]
  cases lookup st.ofds o <;> rfl

theorem ofdPut_vns (o : ℕ) : SameVns st.ofds (st.ofdPut o).ofds := by
  rw [Store.ofdPut]
  cases hd : lookup st.ofds o with
  | none => exact .refl _
  | some d =>
    simp only
    split_ifs
    · apply SameVns.set hd
      rintro d' ⟨⟩
    · apply SameVns.set hd
      rintro d' ⟨⟩
      rfl

theorem releaseBacking_pipes (v : ℕ) : OldPipes st.rings (st.releaseBacking v).rings := by
  have hdrop : ∀ side r, OldPipes st.rings (st.dropEnd side r).rings := fun side r =>
    OldPipes.modify _ _ fun ring => Ring.drop_owner ring side
  rw [Store.releaseBacking]
  split
  · split_ifs
    · exact (hdrop _ _).trans (OldPipes.modify _ _ fun _ => rfl)
    · exact hdrop _ _
  · exact .refl _

theorem ofdPut_pipes (o : ℕ) : OldPipes st.rings (st.ofdPut o).rings := by
  rw [Store.ofdPut]
  cases lookup st.ofds o with
  | none => exact .refl _
  | some d =>
    simp only
    split_ifs
    · exact releaseBacking_pipes st d.vn
    · exact .refl _

end Store

/-- The counts hold after a change to the store that makes no pipe. -/
structure Calm (held : ℕ → ℕ) (st st' : Store) : Prop where
  sound : st'.Sound held
  vns : SameVns st.ofds st'.ofds
  pipes : OldPipes st.rings st'.rings

theorem Calm.refl {st : Store} {held : ℕ → ℕ} (hst : st.Sound held) : Calm held st st :=
  ⟨hst, .refl _, .refl _⟩

/-- Only the store was written, and no pipe made. -/
structure Shifts (s s' : State) : Prop where
  tables : s'.tables = s.tables
  lists : s'.lists = s.lists
  tasks : s'.tasks = s.tasks
  vns : SameVns s.store.ofds s'.store.ofds
  pipes : OldPipes s.store.rings s'.store.rings

theorem Shifts.refl (s : State) : Shifts s s := ⟨rfl, rfl, rfl, .refl _, .refl _⟩

theorem Shifts.trans (hfirst : Shifts s s') (hsecond : Shifts s' s'') : Shifts s s'' :=
  ⟨hsecond.tables.trans hfirst.tables, hsecond.lists.trans hfirst.lists,
    hsecond.tasks.trans hfirst.tasks, hfirst.vns.trans hsecond.vns,
    hfirst.pipes.trans hsecond.pipes⟩

theorem Shifts.held (hshifts : Shifts s s') (o : ℕ) : s'.held o = s.held o := by
  rw [State.held, hshifts.tables, hshifts.lists, State.held]

theorem Shifts.get (s : State) (o : ℕ) : Shifts s (s.ofdGet o) := by
  refine ⟨rfl, rfl, rfl, ofdGet_vns s.store o, ?_⟩
  change OldPipes s.store.rings (s.store.ofdGet o).rings
  rw [ofdGet_rings]
  exact .refl _

theorem Shifts.retain (s : State) (v : Vma) : Shifts s (s.retainFile v) := by
  rw [retainFile]
  cases fileOf v with
  | none => exact .refl s
  | some o => exact Shifts.get s o

theorem Shifts.put (s : State) (o : ℕ) : Shifts s (s.ofdPut o) :=
  ⟨rfl, rfl, rfl, ofdPut_vns s.store o, ofdPut_pipes s.store o⟩

theorem Shifts.foldl {f : State → ℕ → State} (hf : ∀ s o, Shifts s (f s o)) (l : List ℕ)
    (s : State) : Shifts s (l.foldl f s) :=
  foldlRecOn l f (.refl s) fun s' hs' o _ => hs'.trans (hf s' o)

/-! ## Programs that keep the counts -/

structure Good (clears : ℕ → ℕ → Prop) (frees : ℕ → Prop) (s s' : State) : Prop where
  sound : s'.Sound []
  kept : Kept clears frees s s'
  pipes : OldPipes s.store.rings s'.store.rings

section Good

variable {clears clears' : ℕ → ℕ → Prop} {frees frees' : ℕ → Prop} {α β : Type}

theorem Good.refl (hsound : s.Sound []) : Good clears frees s s :=
  ⟨hsound, .of_eq (.refl _) rfl rfl, .refl _⟩

theorem Good.onStore (hsound : s.Sound [])
    (hcalm : Calm (fun o => s.held o + [].count o) s.store (f s.store)) :
    Good clears frees s (s.onStore f) :=
  ⟨hsound.onStore hcalm.sound, .onStore hcalm.vns, hcalm.pipes⟩

theorem Good.trans (hfirst : Good clears frees s s') (hsecond : Good clears frees s' s'') :
    Good clears frees s s'' :=
  ⟨hsecond.sound, hfirst.kept.trans hsecond.kept, hfirst.pipes.trans hsecond.pipes⟩

theorem Shifts.kept (hshifts : Shifts s s') : Kept clears frees s s' :=
  .of_eq hshifts.vns hshifts.tables hshifts.lists

theorem Shifts.good (hshifts : Shifts s s') (hgood : Good clears frees s' s'') :
    Good clears frees s s'' :=
  ⟨hgood.sound, hshifts.kept.trans hgood.kept, hshifts.pipes.trans hgood.pipes⟩

theorem Good.weaken (hgood : Good clears frees s s') (hclears : ∀ k i, clears k i → clears' k i)
    (hfrees : ∀ k, frees k → frees' k) : Good clears' frees' s s' :=
  ⟨hgood.sound, hgood.kept.weaken hclears hfrees, hgood.pipes⟩

/-- The program does no harm, whether it returns or fails. -/
def Does (clears : ℕ → ℕ → Prop) (frees : ℕ → Prop) (m : Prog α) (s : State) : Prop :=
  Exits m s (fun _ s' => Good clears frees s s') fun _ s' => Good clears frees s s'

section

variable {done : β → State → Prop} {fails : Errno → State → Prop}

theorem exits_orThrow {e : Errno} {x : Option α} {next : α → Prog β} (hnone : fails e s)
    (hsome : ∀ a, x = some a → Exits (next a) s done fails) :
    Exits (orThrow e x >>= next) s done fails := by
  cases x with
  | none => exact hnone
  | some a => exact hsome a rfl

theorem exits_check {e : Option Errno} {next : Unit → Prog β} (hfails : ∀ e, fails e s)
    (hnext : Exits (next ()) s done fails) : Exits (check e >>= next) s done fails := by
  cases e with
  | some e => exact hfails e
  | none => exact hnext

theorem exits_refuse {cond : Prop} [Decidable cond] {e : Errno} {next : Unit → Prog β}
    (hfails : fails e s) (hnext : ¬ cond → Exits (next ()) s done fails) :
    Exits (refuse cond e >>= next) s done fails := by
  rw [refuse]
  split_ifs with hcond
  · exact hfails
  · exact hnext hcond

end

/-! ### `open` and `close` -/

theorem State.Sound.fill (hsound : s.Sound (o :: extra)) (htab : lookup s.tables k = some tab)
    (hfree : tab.slots[i]? = some none) (cloexec : Bool) :
    (s.setSlot k i (some o) cloexec).Sound extra ∧
      Kept clears frees s (s.setSlot k i (some o) cloexec) := by
  refine ⟨hsound.setSlot (s := s) htab hfree cloexec, Kept.setSlot (.inl ?_)⟩
  rw [slotAt_of_lookup htab, hfree, join_some]

theorem Good.fill (hsound : s.Sound [o]) (hfree : s.freeSlot k start = some i) (cloexec : Bool) :
    Good clears frees s (s.setSlot k i (some o) cloexec) := by
  obtain ⟨tab, htab, hslot⟩ := freeSlot_eq_some hfree
  obtain ⟨hfilled, hkept⟩ := hsound.fill htab hslot cloexec
  refine ⟨hfilled, hkept, ?_⟩
  rw [setSlot_store]
  exact .refl _

theorem Good.replace (hsound : s.Sound new.toList) (htab : lookup s.tables k = some tab)
    (hold : tab.slots[i]? = some old) (hclears : clears k i) :
    Good clears frees s ((s.setSlot k i new false).putSlot old) := by
  have hkept : Kept clears frees s (s.setSlot k i new false) :=
    Kept.setSlot (.inr (.inr hclears))
  have hset : (s.setSlot k i new false).Sound (old.toList ++ []) :=
    Sound.setSlot (by rw [append_nil]; exact hsound) htab hold false
  have hpipes : OldPipes s.store.rings (s.setSlot k i new false).store.rings := by
    rw [setSlot_store]
    exact .refl _
  cases old with
  | none => exact ⟨hset, hkept, hpipes⟩
  | some w =>
    have hput := Shifts.put (s.setSlot k i new false) w
    exact ⟨Sound.put hset, hkept.trans hput.kept, hpipes.trans hput.pipes⟩

theorem Good.clear (hsound : s.Sound []) (hslot : s.slotAt k i = some o) (hclears : clears k i) :
    Good clears frees s ((s.setSlot k i none false).ofdPut o) := by
  obtain ⟨tab, htab, hget⟩ := slotAt_eq_some hslot
  have hnone : s.Sound (none : Option ℕ).toList := hsound
  exact Good.replace hnone htab hget hclears

theorem vfsClose_does (hsound : s.Sound []) {fd : ℤ} (hclears : clears k fd.toNat) :
    Does clears frees (vfsClose k fd) s := by
  apply Exits.get_bind
  apply exits_orThrow (.refl hsound)
  intro o hslot
  apply Exits.modify
  exact Good.clear hsound (slot_eq_some hslot) hclears

theorem findVnode_exits (hsound : s.Sound []) (args : OpenArgs) : Exits (findVnode args) s
      (fun v s' => Good clears frees s s' ∧ (s'.tables = s.tables ∧ s'.tasks = s.tasks) ∧
        s'.store.Live v ∧
        ∀ side r n, s'.store.vnodes[v]? ≠ some ⟨.pipe side r, n⟩)
      fun _ s' => Good clears frees s s' := by
  apply Exits.get_bind
  cases hresolve : s.store.resolve args.path with
  | some v =>
    apply Exits.ite
    · intro _
      exact .refl hsound
    · intro _
      exact ⟨.refl hsound, ⟨rfl, rfl⟩, hsound.store.resolve hresolve⟩
  | none =>
    refine Exits.ite (fun _ => ?_) fun _ => .refl hsound
    refine exits_check (fun _ => .refl hsound) ?_
    apply Exits.modifyGet
    have hnew : (s.store.addFile args.path).vnodes[s.store.vnodes.length]? =
        some ⟨.file, 0⟩ := getElem?_concat_length
    have hadd : Good clears frees s (s.onStore (·.addFile args.path)) :=
      .onStore hsound ⟨hsound.store.addFile args.path, .refl _, .refl _⟩
    refine ⟨hadd, ⟨rfl, rfl⟩, ?_, ?_⟩
    · exact ⟨.file, hnew, nofun⟩
    · intro side r n hpipe
      rw [show (s.onStore (·.addFile args.path)).store = s.store.addFile args.path from rfl,
        hnew] at hpipe
      cases hpipe

/-- No descriptor of table `k` gets the flag `FD_CLOEXEC`, and no task is changed. -/
structure Unflagged (k : ℕ) (s s' : State) : Prop where
  flags : ∀ j, s'.cloexecAt k j = true → s.cloexecAt k j = true
  tasks : s'.tasks = s.tasks

theorem Unflagged.of_tables (htables : s'.tables = s.tables) (htasks : s'.tasks = s.tasks) :
    Unflagged k s s' := by
  refine ⟨?_, htasks⟩
  intro j hj
  rw [cloexecAt, htables] at hj
  exact hj

theorem Unflagged.trans (hfirst : Unflagged k s s') (hsecond : Unflagged k s' s'') :
    Unflagged k s s'' :=
  ⟨fun j hj => hfirst.flags j (hsecond.flags j hj), hsecond.tasks.trans hfirst.tasks⟩

theorem Unflagged.setSlot (s : State) (k i : ℕ) (new : Option ℕ) :
    Unflagged k s (s.setSlot k i new false) := by
  cases htab : lookup s.tables k with
  | none =>
    have hsame : s.setSlot k i new false = s := by rw [State.setSlot, htab]
    rw [hsame]
    exact ⟨fun _ hj => hj, rfl⟩
  | some tab =>
    rw [setSlot_eq htab]
    refine ⟨?_, rfl⟩
    intro j hj
    have hself : lookup (s.tables.set k (some (tab.set i new false))) k =
        some (tab.set i new false) := lookup_set_self _ htab
    simp only [cloexecAt] at hj ⊢
    rw [hself, bind_some, Fdtab.set, getElem?_set] at hj
    rw [htab, bind_some]
    split_ifs at hj
    · cases hj
    · cases hj
    · exact hj

section

variable (hsound : s.Sound [])
include hsound

theorem installOfd_exits {vn : ℕ} (hlive : s.store.Live vn)
    (hnot : ∀ side r n, s.store.vnodes[vn]? ≠ some ⟨.pipe side r, n⟩) (cloexec slab : Bool) :
    Exits (installOfd k vn cloexec slab) s
      (fun slot s' => Good clears frees s s' ∧ s.slotAt k slot = none ∧
        (cloexec = false → Unflagged k s s'))
      fun _ s' => Good clears frees s s' := by
  apply Exits.get_bind
  apply exits_orThrow (.refl hsound)
  intro slot hfree
  refine Exits.ite (fun _ => ?_) fun _ => .refl hsound
  apply Exits.modifyGet
  have halloc : (s.onStore (·.ofdAlloc vn)).Sound [s.store.ofds.length] := by
    apply hsound.onStore
    apply (hsound.store.alloc hlive hnot).congr
    intro w
    rw [count_nil, Nat.add_zero]
  have hshifts : Shifts s (s.onStore (·.ofdAlloc vn)) :=
    ⟨rfl, rfl, rfl, .append _ _, .refl _⟩
  refine ⟨hshifts.good (Good.fill halloc hfree cloexec), ?_, ?_⟩
  · obtain ⟨tab, htab, hget⟩ := freeSlot_eq_some hfree
    rw [slotAt_of_lookup htab, hget, join_some]
  · rintro rfl
    have hset := Unflagged.setSlot (s.onStore (·.ofdAlloc vn)) k slot (some s.store.ofds.length)
    exact ⟨hset.flags, hset.tasks⟩

/-- The slot that `vfs_open` fills was free, or the call failed. -/
theorem vfsOpen_exits (args : OpenArgs) : Exits (vfsOpen k args) s
      (fun slot s' => Good clears frees s s' ∧ s.slotAt k slot = none ∧
        (args.cloexec = false → Unflagged k s s'))
      fun _ s' => Good clears frees s s' := by
  refine .bind (findVnode_exits hsound args) ?_
  rintro vn s₁ ⟨hfirst, ⟨htables, htasks⟩, hlive, hnot⟩
  refine exits_check (fun _ => hfirst) ?_
  have hinstall := @installOfd_exits s₁ k clears frees hfirst.sound vn hlive hnot args.cloexec
    args.slab
  apply hinstall.weaken
  · rintro slot s₂ ⟨hsecond, hnone, hunflagged⟩
    refine ⟨hfirst.trans hsecond, ?_, ?_⟩
    · rw [slotAt, htables] at hnone
      exact hnone
    · intro hcloexec
      exact (Unflagged.of_tables htables htasks).trans (hunflagged hcloexec)
  · intro _ s₂ hsecond
    exact hfirst.trans hsecond

theorem vfsOpen_does (args : OpenArgs) :
    Does clears frees (vfsOpen k args) s :=
  (vfsOpen_exits hsound args).weaken (fun _ _ h => h.1) fun _ _ h => h

/-! ### Duplicates and pipes -/

theorem State.Sound.getSlot {k' i' : ℕ} (hslot : s.slotAt k' i' = some o) :
    (s.ofdGet o).Sound [o] :=
  hsound.get (Nat.add_pos_left (held_pos_of_slot hslot) _)

theorem dupLowestFrom_does (oldfd minfd : ℤ) (cloexec : Bool) :
    Does clears frees (dupLowestFrom k oldfd minfd cloexec) s := by
  apply Exits.get_bind
  apply exits_orThrow (.refl hsound)
  intro o hslot
  apply exits_refuse (.refl hsound)
  intro _
  apply exits_orThrow (.refl hsound)
  intro nfd hfree
  apply Exits.modifyGet
  have hget := hsound.getSlot (slot_eq_some hslot)
  exact (Shifts.get s o).good (Good.fill hget hfree cloexec)

theorem vfsDup2_does {oldfd newfd : ℤ} (hclears : clears k newfd.toNat) :
    Does clears frees (vfsDup2 k oldfd newfd) s := by
  apply Exits.get_bind
  apply exits_orThrow (.refl hsound)
  intro o hslot
  apply exits_refuse (.refl hsound)
  intro hrange
  refine Exits.ite (fun _ => .refl hsound) fun _ => ?_
  apply Exits.modify_bind
  have hnonneg : ¬ newfd < 0 := fun h => hrange (.inl h)
  have hget := hsound.getSlot (slot_eq_some hslot)
  obtain ⟨tab, htab, -⟩ := slotAt_eq_some (slot_eq_some hslot)
  have hlt : newfd.toNat < tab.slots.length := by
    rw [tab.full]
    omega
  obtain ⟨old, hprev⟩ : ∃ old, tab.slots[newfd.toNat]? = some old :=
    ⟨_, getElem?_eq_getElem hlt⟩
  have hold : s.slot k newfd = old := by
    rw [slot, if_neg hnonneg, slotAt_of_lookup htab, hprev, join_some]
  change Good clears frees s (putSlot _ (s.slot k newfd))
  rw [hold]
  apply (Shifts.get s o).good
  exact Good.replace hget htab hprev hclears

theorem vfsSetCloexec_does (fd : ℤ) (on : Bool) :
    Does clears frees (vfsSetCloexec k fd on) s := by
  apply Exits.get_bind
  apply exits_orThrow (.refl hsound)
  intro o hslot
  have hat := slot_eq_some hslot
  obtain ⟨tab, htab, hget⟩ := slotAt_eq_some hat
  apply Exits.modify
  refine ⟨hsound.replaceSlot htab hget on fun _ => rfl, Kept.setSlot (.inr (.inl hat.symm)), ?_⟩
  rw [setSlot_store]
  exact .refl _

end

section Waste

variable {st st' : Store} {held : ℕ → ℕ}

section

variable (hcalm : Calm held st st')
include hcalm

theorem Calm.wasteRing : Calm held st st'.wasteRing :=
  ⟨hcalm.sound.wasteRing, hcalm.vns, hcalm.pipes.trans (.append _ nofun)⟩

theorem Calm.wasteVnode : Calm held st st'.wasteVnode :=
  ⟨hcalm.sound.wasteVnode, hcalm.vns, hcalm.pipes⟩

theorem Calm.wasteOfd : Calm held st st'.wasteOfd :=
  ⟨hcalm.sound.wasteOfd, hcalm.vns.trans (.append _ _), hcalm.pipes⟩

theorem Calm.wasteIf {waste : Store → Store} (allocated : Bool)
    (hwaste : ∀ {st'}, Calm held st st' → Calm held st (waste st')) :
    Calm held st (wasteIf waste allocated st') := by
  cases allocated with
  | false => exact hcalm
  | true => exact hwaste hcalm

theorem Calm.pipeFailed (args : PipeArgs) : Calm held st (st'.pipeFailed args) :=
  (((hcalm.wasteRing.wasteIf _ .wasteVnode).wasteIf _ .wasteVnode).wasteIf _ .wasteOfd).wasteIf _
    .wasteOfd

end

end Waste

/-- Every pipe has a description on one of its ends. -/
def Store.PipesOpen (st : Store) : Prop :=
  ∀ (r : ℕ) (ring : Ring) (ends : Ends), st.rings[r]? = some ring → ring.owner = .pipe ends →
    ∃ side, 0 < st.opens (ends.vn side)

/-- A pipe was there before, or it is new and open. -/
def PipesFrom (st st' : Store) : Prop :=
  ∀ (r : ℕ) (ring' : Ring) (ends : Ends), st'.rings[r]? = some ring' → ring'.owner = .pipe ends →
    (∃ ring, st.rings[r]? = some ring ∧ ring.owner = .pipe ends) ∨
      ∃ side, 0 < st'.opens (ends.vn side)

theorem OldPipes.from {st st' : Store} (hold : OldPipes st.rings st'.rings) : PipesFrom st st' :=
  fun r ring' ends hring howner => .inl (hold r ring' ends hring howner)

theorem pipeObjects_from (st : Store) : PipesFrom st st.pipeObjects := by
  intro r ring' ends hring howner
  cases hold : st.rings[r]? with
  | some ring =>
    have hsame := append_of_some [⟨1, 1, .pipe ⟨st.vnodes.length, st.vnodes.length + 1⟩, 0⟩] hold
    rw [Store.pipeObjects, hsame] at hring
    cases hring
    exact .inl ⟨ring', rfl, howner⟩
  | none =>
    obtain ⟨-, rfl⟩ := concat_new hold hring
    cases howner
    refine .inr ⟨.read, ?_⟩
    have hget : lookup st.pipeObjects.ofds st.ofds.length = some ⟨st.vnodes.length, 1⟩ :=
      lookup_append_of_some _ (lookup_append_self _ _)
    exact opens_of_lookup hget

theorem secondSlot_eq_some (htab : lookup s.tables k = some tab)
    (hsecond : s.secondSlot k rfd = some wfd) (hlt : rfd < tab.slots.length) :
    wfd ≠ rfd ∧ tab.slots[wfd]? = some none := by
  rw [secondSlot, htab, bind_some] at hsecond
  have hfree := allocFdSlot_free hsecond
  have hne : wfd ≠ rfd := by
    rintro rfl
    rw [getElem?_set_self hlt] at hfree
    cases hfree
  rw [getElem?_set_ne hne.symm] at hfree
  exact ⟨hne, hfree⟩

/-- What `vfs_pipe2` does on success: two free slots hold the two descriptions. -/
theorem pipe_filled (hsound : s.Sound []) (htab : lookup s.tables k = some tab)
    (hrfd : tab.slots[rfd]? = some none) (hwfd : tab.slots[wfd]? = some none) (hne : wfd ≠ rfd)
    (cloexec : Bool) :
    (((s.onStore Store.pipeObjects).setSlot k rfd (some s.store.ofds.length)
      cloexec).setSlot k wfd (some (s.store.ofds.length + 1)) cloexec).Sound [] ∧
    Kept clears frees s (((s.onStore Store.pipeObjects).setSlot k rfd
      (some s.store.ofds.length) cloexec).setSlot k wfd
      (some (s.store.ofds.length + 1)) cloexec) := by
  have hobjects : (s.onStore Store.pipeObjects).Sound
      ([s.store.ofds.length] ++ [s.store.ofds.length + 1]) := by
    apply hsound.onStore
    apply hsound.store.pipeObjects.congr
    intro w
    rw [count_append, count_nil, Nat.add_zero, Nat.add_assoc]
    rfl
  have htab₀ : lookup (s.onStore Store.pipeObjects).tables k = some tab := htab
  obtain ⟨hfirst, hkept₁⟩ := @State.Sound.fill (s.onStore Store.pipeObjects)
    _ k rfd _ tab clears frees hobjects htab₀ hrfd cloexec
  have htab₁ : lookup ((s.onStore Store.pipeObjects).setSlot k rfd
      (some s.store.ofds.length) cloexec).tables k =
      some (tab.set rfd (some s.store.ofds.length) cloexec) := by
    rw [setSlot_eq htab₀]
    exact lookup_set_self _ htab₀
  have hwfd₁ : (tab.set rfd (some s.store.ofds.length) cloexec).slots[wfd]? = some none := by
    rw [Fdtab.set, getElem?_set_ne hne.symm, hwfd]
  obtain ⟨hsecond, hkept₂⟩ := hfirst.fill htab₁ hwfd₁ cloexec
  have hvns : SameVns s.store.ofds s.store.pipeObjects.ofds :=
    (SameVns.append _ _).trans (SameVns.append _ _)
  exact ⟨hsecond, ((Kept.onStore hvns).trans hkept₁).trans hkept₂⟩

/-- `vfs_pipe2`, which alone makes new pipes. -/
theorem vfsPipe2_exits (hsound : s.Sound []) (args : PipeArgs) : Leaves (vfsPipe2 k args) s
      fun s' => s'.Sound [] ∧ Kept clears frees s s' ∧ PipesFrom s.store s'.store := by
  have hsame : s.Sound [] ∧ Kept clears frees s s ∧ PipesFrom s.store s.store :=
    ⟨hsound, (Good.refl hsound).kept, (OldPipes.refl _).from⟩
  refine exits_check (fun _ => hsame) ?_
  apply Exits.get_bind
  apply exits_orThrow hsame
  intro rfd hfree
  apply exits_orThrow hsame
  intro wfd hsecond
  obtain ⟨tab, htab, hrfd⟩ := freeSlot_eq_some hfree
  obtain ⟨hne, hwfd⟩ := secondSlot_eq_some htab hsecond (List.getElem?_eq_some_iff.mp hrfd).1
  refine Exits.ite (fun _ => ?_) fun _ => hsame
  refine Exits.ite (fun _ => ?_) fun _ => ?_
  · apply Exits.modifyGet
    obtain ⟨hfilled, hkept⟩ :=
      @pipe_filled s k rfd wfd tab clears frees hsound htab hrfd hwfd hne args.cloexec
    refine ⟨hfilled, hkept, ?_⟩
    simp only [setSlot_store]
    exact pipeObjects_from s.store
  · apply Exits.modify_bind
    apply Exits.throw
    have hfailed : Good clears frees s (s.onStore (·.pipeFailed args)) :=
      .onStore hsound ((Calm.refl hsound.store).pipeFailed args)
    exact ⟨hfailed.sound, hfailed.kept, hfailed.pipes.from⟩

/-! ### Names -/

theorem vfsMkfifo_does (hsound : s.Sound []) (args : FifoArgs) :
    Does clears frees (vfsMkfifo args) s := by
  apply Exits.get_bind
  apply exits_refuse (.refl hsound)
  intro _
  refine exits_check (fun _ => .refl hsound) ?_
  apply exits_orThrow (.refl hsound)
  intro slot _
  refine Exits.ite (fun _ => ?_) fun _ => ?_
  · apply Exits.modify
    exact .onStore hsound ⟨hsound.store.addFifo slot args.path, .refl _,
      .append _ nofun⟩
  · apply Exits.modify_bind
    apply Exits.throw
    exact .onStore hsound
      (((Calm.refl hsound.store).wasteIf _ .wasteRing).wasteIf _ .wasteVnode)

theorem fifoEntry_eq_some {path : Path} {f : NamedFifo} (hentry : s.fifoEntry path = some (i, f)) :
    lookup s.store.namedFifos i = some f ∧ s.store.resolve path = some f.vn := by
  obtain ⟨j, hslot, hmap⟩ := bind_eq_some_iff.mp hentry
  obtain ⟨g, hg, heq⟩ := map_eq_some_iff.mp hmap
  cases heq
  refine ⟨hg, ?_⟩
  rw [Store.resolve, hslot, bind_some, hg]

theorem resolve_of_no_fifo {path : Path} (hentry : s.fifoEntry path = none) :
    s.store.resolve path = s.store.files path := by
  have hnone : (s.store.fifoSlot path).bind (lookup s.store.namedFifos) = none := by
    cases hslot : s.store.fifoSlot path with
    | none => rfl
    | some j =>
      rw [fifoEntry, hslot, bind_some, map_eq_none_iff] at hentry
      rw [bind_some, hentry]
  rw [Store.resolve, hnone]

/-- A name is removed on whose vnode no description is left. -/
theorem vfsUnlink_does (hsound : s.Sound []) (args : UnlinkArgs)
    (hclosed : ∀ v, s.store.resolve args.path = some v → s.store.opens v = 0) :
    Does clears frees (vfsUnlink args) s := by
  refine exits_check (fun _ => .refl hsound) ?_
  refine Exits.ite (fun _ => .refl hsound) fun _ => ?_
  apply Exits.get_bind
  cases hentry : s.fifoEntry args.path with
  | some entry =>
    obtain ⟨i, f⟩ := entry
    obtain ⟨hf, hresolve⟩ := fifoEntry_eq_some hentry
    apply Exits.modify
    exact .onStore hsound ⟨hsound.store.removeFifo hf (hclosed f.vn hresolve),
      .refl _, OldPipes.modify _ _ fun _ => rfl⟩
  | none =>
    refine exits_check (fun _ => .refl hsound) ?_
    apply exits_orThrow (.refl hsound)
    intro v hfile
    have hresolve := (resolve_of_no_fifo hentry).trans hfile
    apply Exits.modify
    exact .onStore hsound ⟨hsound.store.removeFile hfile (hclosed v hresolve),
      .refl _, .refl _⟩

/-! ### `exec` -/

theorem vfsClose_exits (s : State) (k : ℕ) (fd : ℤ) : Exits (vfsClose k fd) s
      (fun _ s' => ∃ o, s.slotAt k fd.toNat = some o ∧
        s' = (s.setSlot k fd.toNat none false).ofdPut o)
      fun _ s' => s' = s := by
  apply Exits.get_bind
  refine exits_orThrow rfl ?_
  intro o hslot
  exact Exits.modify ⟨o, slot_eq_some hslot, rfl⟩

/-- `vfs_close_on_exec` closes flagged descriptors only, and not the first three. -/
theorem vfsCloseOnExec_exits (hsound : s.Sound [])
    (hclears : ∀ i, 3 ≤ i → s.cloexecAt k i = true → clears k i) :
    Exits (vfsCloseOnExec k) s (fun _ s' => Good clears frees s s' ∧ Unflagged k s s')
      fun _ s' => Good clears frees s s' := by
  refine .forM _ ?_ ⟨.refl hsound, fun _ hj => hj, rfl⟩
  intro fd hfd s₁ hinv
  obtain ⟨hgood, hunflagged⟩ := hinv
  have hthree : 3 ≤ fd := (mem_range'_1.mp hfd).1
  apply Exits.get_bind
  refine Exits.ite (fun hcond => ?_) fun _ => ⟨hgood, hunflagged⟩
  rw [Bool.and_eq_true] at hcond
  refine (vfsClose_exits s₁ k fd).weaken ?_ ?_
  · rintro _ s₂ ⟨o, hslot, rfl⟩
    rw [Int.toNat_natCast] at hslot ⊢
    refine ⟨hgood.trans (Good.clear hgood.sound hslot ?_), hunflagged.trans ?_⟩
    · exact hclears fd hthree (hunflagged.flags fd hcond.1)
    · have hset := Unflagged.setSlot s₁ k fd none
      exact ⟨hset.flags, hset.tasks⟩
  · rintro _ s₂ rfl
    exact hgood

theorem Good.through (hfirst : Good (fun _ _ => False) frees s s')
    (hsecond : Good (fun k' i' => k' = k ∧ i' = i) frees s' s'')
    (hfree : s.slotAt k i = none) : Good clears frees s s'' := by
  refine ⟨hsecond.sound, ⟨hfirst.kept.vns.trans hsecond.kept.vns, ?_, ?_⟩,
    hfirst.pipes.trans hsecond.pipes⟩
  · intro k' i' o hslot _
    apply hsecond.kept.slots k' i' o (hfirst.kept.slots k' i' o hslot id)
    rintro ⟨rfl, rfl⟩
    rw [hslot] at hfree
    cases hfree
  · intro k' areas hlist hnot
    exact hsecond.kept.lists k' areas (hfirst.kept.lists k' areas hlist hnot) hnot

theorem readImage_exits (hsound : s.Sound []) (args : OpenArgs) :
    Exits (readImage k args) s (fun _ s' => Good clears frees s s' ∧ Unflagged k s s')
      fun _ s' => Good clears frees s s' := by
  have hopen := @vfsOpen_exits s k (fun _ _ => False) frees hsound
    { args with creat := false, cloexec := false }
  refine hopen.seq (fun _ _ hgood => hgood.weaken (fun _ _ h => False.elim h) fun _ h => h) ?_
  rintro slot s₁ ⟨hgood, hfree, hunflagged⟩
  refine (vfsClose_exits s₁ k slot).weaken ?_ ?_
  · rintro _ s₂ ⟨o, hslot, rfl⟩
    rw [Int.toNat_natCast] at hslot ⊢
    refine ⟨hgood.through (Good.clear hgood.sound hslot ⟨rfl, rfl⟩) hfree, ?_⟩
    have hset := Unflagged.setSlot s₁ k slot none
    exact (hunflagged rfl).trans ⟨hset.flags, hset.tasks⟩
  · rintro _ s₂ rfl
    exact hgood.weaken (fun _ _ h => False.elim h) fun _ h => h

/-! ### Many references at once -/

theorem getAll (l : List ℕ) (hsound : s.Sound extra)
    (hheld : ∀ o ∈ l, 0 < s.held o + extra.count o) :
    (l.foldl State.ofdGet s).Sound (l ++ extra) := by
  induction l generalizing s extra with
  | nil => exact hsound
  | cons o l ih =>
    have hget := hsound.get (hheld o mem_cons_self)
    refine (ih hget fun w hw => ?_).perm perm_middle
    have hcons := count_le_count_cons (a := w) (b := o) (l := extra)
    exact (hheld w (mem_cons_of_mem o hw)).trans_le (Nat.add_le_add_left hcons _)

theorem putAll (l : List ℕ) (hsound : s.Sound (l ++ extra)) :
    (l.foldl State.ofdPut s).Sound extra := by
  induction l generalizing s with
  | nil => exact hsound
  | cons o l ih => exact ih (Sound.put hsound)

theorem foldl_files (f : State → ℕ → State) (areas : List Vma) (s : State) :
    areas.foldl (fun s v => (fileOf v).elim s (f s)) s = (areaFiles areas).foldl f s := by
  induction areas generalizing s with
  | nil => rfl
  | cons v rest ih =>
    have hcons : areaFiles (v :: rest) = (fileOf v).toList ++ areaFiles rest := flatMap_cons
    rw [foldl_cons, ih, hcons, foldl_append]
    cases fileOf v <;> rfl

theorem foldl_dropFile (areas : List Vma) (s : State) :
    areas.foldl State.dropFile s = (areaFiles areas).foldl State.ofdPut s :=
  foldl_files _ areas s

/-! ### Area lists -/

theorem perm_areaFiles_link (copy : List Vma) (v : Vma) :
    (areaFiles (vmaLink copy v)).Perm ((fileOf v).toList ++ areaFiles copy) :=
  (perm_orderedInsert (fun v w : Vma => v.vaStart ≤ w.vaStart) v copy).flatMap_right _

theorem State.Sound.retain {v : Vma} (hsound : s.Sound extra)
    (hheld : ∀ o, fileOf v = some o → 0 < s.held o) :
    (s.retainFile v).Sound ((fileOf v).toList ++ extra) := by
  rw [retainFile]
  cases hfile : fileOf v with
  | none => exact hsound
  | some o => exact hsound.get (Nat.add_pos_left (hheld o hfile) _)

theorem copyAreas_shifts (s : State) (copy : List Vma) (slab : List Bool) (areas : List Vma) :
    Shifts s (s.copyAreas copy slab areas).2.2 := by
  induction areas generalizing s copy slab with
  | nil => exact .refl s
  | cons v rest ih =>
    rw [copyAreas]
    split
    · exact .refl s
    · exact (Shifts.retain s v).trans (ih _ _ _)

/-- The copies hold the descriptions of the areas they are made from. -/
theorem copyAreas_sound (areas copy : List Vma) (slab : List Bool)
    (hsound : s.Sound (areaFiles copy ++ extra))
    (hheld : ∀ v ∈ areas, ∀ o, fileOf v = some o → 0 < s.held o) :
    (s.copyAreas copy slab areas).2.2.Sound
      (areaFiles (s.copyAreas copy slab areas).2.1 ++ extra) := by
  induction areas generalizing s copy slab with
  | nil => exact hsound
  | cons v rest ih =>
    rw [copyAreas]
    cases hinsert : (vmaInsert copy { v with shmid := 0 } slab).1 with
    | none => exact hsound
    | some copy' =>
      have hcopy : copy' = vmaLink copy { v with shmid := 0 } := Mmap.vmaInsert_some hinsert
      have hretain : (s.retainFile v).Sound (areaFiles copy' ++ extra) := by
        rw [hcopy]
        apply (hsound.retain (hheld v mem_cons_self)).perm
        rw [← append_assoc]
        exact (perm_areaFiles_link copy { v with shmid := 0 }).symm.append_right extra
      refine ih copy' (vmaInsert copy { v with shmid := 0 } slab).2 hretain fun w hw o ho => ?_
      rw [(Shifts.retain s v).held]
      exact hheld w (mem_cons_of_mem v hw) o ho

/-! ### Tasks and their tables -/

theorem users_eq (s : State) (k : ℕ) : s.users k =
    [0].count k + (owned (fun task : Task => task.fdtab.toList) s.tasks).count k :=
  count_cons_single 0 _ k

theorem users_addTask (s : State) (task : Task) (k : ℕ) :
    (s.addTask task).users k = s.users k + task.fdtab.toList.count k := by
  have happend := count_owned_append (fun task : Task => task.fdtab.toList) s.tasks (some task) k
  rw [elim_some] at happend
  rw [users_eq, users_eq, addTask, happend, Nat.add_assoc]

theorem users_setTask (hself : lookup s.tasks t = some self) (x : Option Task) (k : ℕ) :
    (s.setTask t x).users k + self.fdtab.toList.count k =
      s.users k + (x.elim [] fun task => task.fdtab.toList).count k := by
  have hset := count_owned_set (fun task : Task => task.fdtab.toList) hself x k
  have hafter := users_eq (s.setTask t x) k
  have hbefore := users_eq s k
  simp only [setTask] at hafter ⊢
  omega

theorem State.Sound.addTask (hsound : s.Sound extra) {task : Task}
    (htable : ∀ k, task.fdtab = some k → s.users k + 1 ≤ s.tableRefs k)
    (hlist : ∀ k, task.vmaList = some k → ∃ areas, lookup s.lists k = some areas) :
    (s.addTask task).Sound extra := by
  refine ⟨hsound.store, ?_, ?_⟩
  · intro k
    change (s.addTask task).users k ≤ s.tableRefs k
    rw [users_addTask]
    cases hfdtab : task.fdtab with
    | none => exact hsound.users_le k
    | some k' =>
      by_cases hk : k = k'
      · rw [hk, toList_some, count_singleton_self]
        exact htable k' hfdtab
      · rw [toList_some, count_single_of_ne hk]
        exact hsound.users_le k
  · intro t task' k htask hvma
    by_cases ht : t = s.tasks.length
    · rw [State.addTask, ht, lookup_append_self] at htask
      cases htask
      exact hlist k hvma
    · rw [State.addTask, lookup_append_of_ne _ ht] at htask
      exact hsound.lists t task' k htask hvma

theorem Kept.addTask (task : Task) : Kept clears frees s (s.addTask task) :=
  .of_eq (.refl _) rfl rfl

theorem Kept.appendTable : Kept clears frees s { s with tables := s.tables ++ [x] } := by
  refine ⟨.refl _, ?_, fun _ _ hlist _ => hlist⟩
  intro k i o hslot _
  obtain ⟨tab, htab, hget⟩ := slotAt_eq_some hslot
  have hnew : lookup (s.tables ++ [x]) k = some tab := lookup_append_of_some x htab
  rw [slotAt_of_lookup hnew, hget, join_some]

theorem State.Sound.appendTable (hsound : s.Sound (x.elim [] Fdtab.held ++ extra)) :
    { s with tables := s.tables ++ [x] }.Sound extra := by
  refine ⟨hsound.store.congr ?_, ?_, hsound.lists⟩
  · intro w
    have happend := count_owned_append Fdtab.held s.tables x w
    rw [count_append]
    simp only [held]
    omega
  · intro k
    by_cases hk : k = s.tables.length
    · have hnone := hsound.no_users (k := k) (hk ▸ lookup_length)
      exact (Nat.le_of_eq hnone).trans (Nat.zero_le _)
    · rw [lookup_append_of_ne _ hk]
      exact hsound.tables k

theorem held_fresh : Fdtab.fresh.held = [] := by decide

theorem inheritTable_good (hsound : s.Sound extra) (src : Option ℕ) :
    (s.inheritTable src).Sound extra ∧ Kept clears frees s (s.inheritTable src) ∧
      OldPipes s.store.rings (s.inheritTable src).store.rings := by
  have hheld : ∀ o ∈ ((src.bind (lookup s.tables)).getD Fdtab.fresh).held, 0 < s.held o := by
    intro o ho
    cases hsrc : src.bind (lookup s.tables) with
    | none =>
      rw [hsrc, getD_none, held_fresh] at ho
      cases ho
    | some tab =>
      rw [hsrc, getD_some] at ho
      obtain ⟨k, -, htab⟩ := bind_eq_some_iff.mp hsrc
      have hle := count_le_owned Fdtab.held htab o
      exact Nat.lt_of_lt_of_le (count_pos_iff.mpr ho) (Nat.le_add_right_of_le hle)
  have hgets := getAll _ hsound fun o ho => Nat.add_pos_left (hheld o ho) _
  have hshifts := Shifts.foldl Shifts.get ((src.bind (lookup s.tables)).getD Fdtab.fresh).held s
  have htables := hshifts.tables
  have hinherit : s.inheritTable src =
      { ((src.bind (lookup s.tables)).getD Fdtab.fresh).held.foldl ofdGet s with
        tables := (((src.bind (lookup s.tables)).getD Fdtab.fresh).held.foldl
          ofdGet s).tables ++
          [some { (src.bind (lookup s.tables)).getD Fdtab.fresh with refs := 1 }] } := by
    rw [inheritTable, htables]
  rw [hinherit]
  refine ⟨?_, hshifts.kept.trans Kept.appendTable, hshifts.pipes⟩
  exact Sound.appendTable hgets

/-! ### `fork`, `clone`, exit and the reaper -/

theorem State.Sound.addAreas (hsound : s.Sound (areaFiles areas ++ extra)) {task : Task}
    (htable : ∀ k, task.fdtab = some k → s.users k + 1 ≤ s.tableRefs k)
    (hnone : task.vmaList = none) : (s.addAreas task areas).Sound extra := by
  rw [State.addAreas]
  by_cases hempty : areas = []
  · subst hempty
    rw [if_pos rfl]
    exact Sound.addTask hsound htable fun k hk => by rw [hnone] at hk; cases hk
  · rw [if_neg hempty]
    have hlist : { s with lists := s.lists ++ [some areas] }.Sound extra := by
      refine ⟨hsound.store.congr ?_, hsound.tables, ?_⟩
      · intro w
        have happend := count_owned_append areaFiles s.lists (some areas) w
        rw [elim_some] at happend
        rw [count_append]
        simp only [held]
        omega
      · intro t task' k htask hvma
        obtain ⟨areas', hareas'⟩ := hsound.lists t task' k htask hvma
        exact ⟨areas', lookup_append_of_some _ hareas'⟩
    refine @State.Sound.addTask _ extra hlist { task with vmaList := some s.lists.length } htable ?_
    intro k hk
    cases hk
    exact ⟨areas, lookup_append_self _ _⟩

theorem Kept.addAreas (task : Task) (areas : List Vma) :
    Kept clears frees s (s.addAreas task areas) := by
  rw [State.addAreas]
  split_ifs with hempty
  · exact Kept.addTask task
  · exact ⟨.refl _, fun _ _ _ hslot _ => hslot,
      fun _ _ hlist _ => lookup_append_of_some _ hlist⟩

theorem addAreas_store (s : State) (task : Task) (areas : List Vma) :
    (s.addAreas task areas).store = s.store := by
  rw [addAreas]
  split_ifs <;> rfl

section

variable (hsound : s.Sound [])
include hsound

theorem childTable_good (src : Option ℕ) (table : Bool) :
    Good clears frees s (s.childTable src table).1 ∧ (s.childTable src table).1.lists = s.lists ∧
      ∀ k, (s.childTable src table).2 = some k →
        (s.childTable src table).1.users k + 1 ≤ (s.childTable src table).1.tableRefs k := by
  cases table with
  | false => exact ⟨.refl hsound, rfl, nofun⟩
  | true =>
    obtain ⟨hinherit, hkept, hpipes⟩ := @inheritTable_good s [] clears frees hsound src
    have hshifts := Shifts.foldl Shifts.get ((src.bind (lookup s.tables)).getD Fdtab.fresh).held s
    refine ⟨⟨hinherit, hkept, hpipes⟩, hshifts.lists, ?_⟩
    intro k hk
    cases hk
    have hunused : s.users s.tables.length = 0 := hsound.no_users lookup_length
    have husers : (s.inheritTable src).users s.tables.length = s.users s.tables.length := by
      rw [users, inheritTable]
      simp only
      rw [hshifts.tasks, users]
    have hrefs : (s.inheritTable src).tableRefs s.tables.length = 1 := by
      rw [tableRefs, inheritTable, lookup_append_self, elim_some]
    change (s.inheritTable src).users _ + 1 ≤ (s.inheritTable src).tableRefs _
    rw [husers, hunused, hrefs]

theorem setTable_good {tab' : Fdtab} (htab : lookup s.tables k = some tab)
    (hslots : tab'.slots = tab.slots) (hrefs : s.users k ≤ tab'.refs) :
    Good clears frees s { s with tables := s.tables.set k (some tab') } := by
  have hheld : tab'.held = tab.held := by rw [Fdtab.held, hslots, Fdtab.held]
  refine ⟨hsound.setTable htab hrefs fun w => by rw [elim_some, hheld],
    Kept.setTable htab ?_, .refl _⟩
  intro i o hslot _
  rw [bind_some, hslots, hslot]

/-- `fdtab_unref` by a user that is no longer counted. -/
theorem fdtabUnref_good (hspare : s.users k + 1 ≤ s.tableRefs k)
    (hclears : ∀ tab, lookup s.tables k = some tab → tab.refs ≤ 1 → ∀ i, clears k i) :
    Good clears frees s (s.fdtabUnref k) := by
  cases htab : lookup s.tables k with
  | none =>
    rw [tableRefs, htab, elim_none] at hspare
    exact absurd hspare (Nat.not_succ_le_zero _)
  | some tab =>
    rw [tableRefs, htab, elim_some] at hspare
    simp only [fdtabUnref, htab]
    split_ifs with hlast
    · exact setTable_good hsound htab rfl (Nat.le_sub_one_of_lt hspare)
    · have hfreed : { s with tables := s.tables.set k none }.Sound (tab.held ++ []) := by
        refine hsound.setTable htab ?_ fun w => ?_
        · rw [elim_none]
          omega
        · rw [append_nil, elim_none, Nat.add_comm]
      have hshifts := Shifts.foldl Shifts.put tab.held { s with tables := s.tables.set k none }
      refine ⟨putAll tab.held hfreed, (Kept.setTable htab ?_).trans hshifts.kept, hshifts.pipes⟩
      intro i o _ hnot
      exact absurd (hclears tab htab (by omega) i) hnot

omit hsound in
theorem fdtabRef_good (hsound : s.Sound []) (htab : lookup s.tables k = some tab) :
    Good clears frees s (s.fdtabRef k) ∧ (s.fdtabRef k).users k + 1 ≤ (s.fdtabRef k).tableRefs k ∧
      (s.fdtabRef k).lists = s.lists := by
  have hle := hsound.users_le_refs htab
  simp only [fdtabRef, htab]
  refine ⟨setTable_good hsound htab rfl (Nat.le_succ_of_le hle), ?_, trivial⟩
  simp only [tableRefs]
  rw [lookup_set_self _ htab, elim_some]
  exact Nat.succ_le_succ hle

theorem wasteTable_good (table : Bool) :
    Good clears frees s { s with tables := s.tables ++ if table then [none] else [] } := by
  cases table with
  | false =>
    simp only [Bool.false_eq_true, if_false, append_nil]
    exact .refl hsound
  | true =>
    have hnone : s.Sound ((none : Option Fdtab).elim [] Fdtab.held ++ []) := hsound
    exact ⟨hnone.appendTable, Kept.appendTable, .refl _⟩

section

variable (hself : lookup s.tasks t = some self)
include hself

theorem fork_good (args : ForkArgs) :
    Good clears frees s (s.fork self args) := by
  rw [fork]
  split_ifs with hthread
  · obtain ⟨hchild, hlists, htable⟩ := @childTable_good s clears frees hsound self.fdtab args.table
    have hheld : ∀ v ∈ s.areas self, ∀ o, fileOf v = some o →
        0 < (s.childTable self.fdtab args.table).1.held o := by
      intro v hv o ho
      rw [areas] at hv
      cases hvma : self.vmaList with
      | none =>
        rw [hvma] at hv
        cases hv
      | some k =>
        obtain ⟨areas, hareas⟩ := hsound.lists t self k hself hvma
        rw [hvma, bind_some, hareas, getD_some] at hv
        exact held_pos_of_area (hlists ▸ hareas) hv ho
    have hsound' := copyAreas_sound (s.areas self) [] args.slab
      (show (s.childTable self.fdtab args.table).1.Sound (areaFiles [] ++ []) from hchild.sound)
      hheld
    have hshifts := copyAreas_shifts (s.childTable self.fdtab args.table).1 [] args.slab
      (s.areas self)
    simp only
    generalize (s.childTable self.fdtab args.table).1.copyAreas [] args.slab
      (s.areas self) = result at hsound' hshifts
    obtain ⟨ok, copy, s'⟩ := result
    have hkept := hchild.kept.trans hshifts.kept
    have hpipes := hchild.pipes.trans hshifts.pipes
    have hchildTable : ∀ k, (s.childTable self.fdtab args.table).2 = some k →
        s'.users k + 1 ≤ s'.tableRefs k := by
      intro k hk
      rw [users, tableRefs, hshifts.tasks, hshifts.tables]
      exact htable k hk
    cases ok with
    | true =>
      refine ⟨Sound.addAreas hsound' hchildTable rfl, hkept.trans (Kept.addAreas _ _), ?_⟩
      rw [addAreas_store]
      exact hpipes
    | false =>
      simp only
      rw [foldl_dropFile]
      have hputs := putAll (areaFiles copy) hsound'
      have hback := Shifts.foldl Shifts.put (areaFiles copy) s'
      refine ⟨hputs.addTask ?_ nofun,
        (hkept.trans hback.kept).trans (Kept.addTask _), hpipes.trans hback.pipes⟩
      intro k hk
      rw [users, tableRefs, hback.tasks, hback.tables]
      exact hchildTable k hk
  · exact .refl hsound

theorem clone_good (thread table brk : Bool) :
    Good clears frees s (s.clone self thread table brk) := by
  have hlist : ∀ k, (if brk then self.vmaList else none) = some k →
      ∃ areas, lookup s.lists k = some areas := by
    intro k hk
    split_ifs at hk
    exact hsound.lists t self k hself hk
  simp only [clone]
  generalize (if brk then self.vmaList else none) = head at hlist ⊢
  split
  · cases hfdtab : self.fdtab with
    | none =>
      simp only
      split_ifs with htable
      · have hfresh : { s with tables := s.tables ++ [some Fdtab.fresh] }.Sound [] := by
          apply Sound.appendTable
          rw [elim_some, held_fresh]
          exact hsound
        refine ⟨Sound.addTask hfresh ?_ hlist, Kept.appendTable.trans (Kept.addTask _),
          .refl _⟩
        intro k hk
        cases hk
        have hunused := hsound.no_users lookup_length
        rw [tableRefs, lookup_append_self, elim_some]
        exact Nat.succ_le_succ (Nat.le_of_eq hunused)
      · exact ⟨hsound.addTask nofun hlist, Kept.addTask _, .refl _⟩
    | some k =>
      -- The table of the parent has a user, so it is live.
      obtain ⟨tab, htab⟩ : ∃ tab, lookup s.tables k = some tab := by
        cases htab : lookup s.tables k with
        | some tab => exact ⟨tab, rfl⟩
        | none =>
          have hunused := hsound.no_users htab
          have hmem : k ∈ owned (fun task : Task => task.fdtab.toList) s.tasks :=
            mem_owned hself (by rw [hfdtab]; exact mem_singleton_self k)
          have hpos := count_pos_iff.mpr hmem
          rw [users_eq] at hunused
          omega
      have hwaste := @wasteTable_good s clears frees hsound table
      have htab' : lookup (s.tables ++ if table then [none] else []) k = some tab := by
        cases table with
        | false => rw [if_neg Bool.false_ne_true, append_nil, htab]
        | true => exact lookup_append_of_some none htab
      obtain ⟨href, husers, hlists⟩ := @fdtabRef_good
        { s with tables := s.tables ++ if table then [none] else [] } k tab clears frees
        hwaste.sound htab'
      have hboth := hwaste.trans href
      refine ⟨hboth.sound.addTask ?_ ?_, hboth.kept.trans (Kept.addTask _), hboth.pipes⟩
      · intro k' hk'
        cases hk'
        exact husers
      · rw [hlists]
        exact hlist
  · exact .refl hsound

theorem setTask_good {x : Option Task}
    (hx : ∀ task, x = some task → (task.fdtab = none ∨ task.fdtab = self.fdtab) ∧
      (task.vmaList = none ∨ task.vmaList = self.vmaList)) :
    Good clears frees s (s.setTask t x) := by
  refine ⟨⟨hsound.store, ?_, ?_⟩, .of_eq (.refl _) rfl rfl, .refl _⟩
  · intro k
    have husers := users_setTask hself x k
    have hle : (x.elim [] fun task => task.fdtab.toList).count k ≤ self.fdtab.toList.count k := by
      cases x with
      | none => exact Nat.zero_le _
      | some task =>
        rw [elim_some]
        obtain hnone | hsame := (hx task rfl).1
        · rw [hnone]
          exact Nat.zero_le _
        · rw [hsame]
    have htable := hsound.users_le k
    change (s.setTask t x).users k ≤ s.tableRefs k
    omega
  · intro t' task k htask hvma
    rw [setTask, lookup_set hself] at htask
    split_ifs at htask
    · obtain hnone | hsame := (hx task htask).2
      · rw [hnone] at hvma
        cases hvma
      · exact hsound.lists t self k hself (hsame ▸ hvma)
    · exact hsound.lists t' task k htask hvma

/-- `close_process_fds`. -/
theorem exit_good
    (hclears : ∀ k tab, self.fdtab = some k → lookup s.tables k = some tab → tab.refs ≤ 1 →
      ∀ i, clears k i) : Good clears frees s (s.exit t self) := by
  rw [exit]
  cases hfdtab : self.fdtab with
  | none =>
    apply setTask_good hsound hself
    rintro task ⟨⟩
    exact ⟨.inl rfl, .inr rfl⟩
  | some k =>
    have hset : Good clears frees s
        (s.setTask t (some { self with fdtab := none, dead := true })) := by
      apply setTask_good hsound hself
      rintro task ⟨⟩
      exact ⟨.inl rfl, .inr rfl⟩
    have husers := users_setTask hself (some { self with fdtab := none, dead := true }) k
    rw [hfdtab, toList_some, count_singleton_self] at husers
    have hle := hsound.users_le k
    refine hset.trans (fdtabUnref_good hset.sound ?_ ?_)
    · exact Nat.le_trans (Nat.le_of_eq husers) hle
    · intro tab htab hlast i
      exact hclears k tab hfdtab htab hlast i

end

/-- `vma_free_all` on a list that no task enters any more. -/
theorem vmaFreeAll_good
    (hlive : ∀ k, self.vmaList = some k → ∃ areas, lookup s.lists k = some areas)
    (hunused : ∀ k, self.vmaList = some k → ∀ t task, lookup s.tasks t = some task →
      task.vmaList ≠ some k) (hfrees : ∀ k, self.vmaList = some k → frees k) :
    Good clears frees s (s.vmaFreeAll self) := by
  rw [vmaFreeAll]
  cases hvma : self.vmaList with
  | none => exact .refl hsound
  | some k =>
    obtain ⟨areas, hareas⟩ := hlive k hvma
    simp only
    rw [hareas, getD_some, foldl_dropFile]
    have hshifts := Shifts.foldl Shifts.put (areaFiles areas) { s with lists := s.lists.set k none }
    have hkept : Kept clears frees s { s with lists := s.lists.set k none } := by
      refine ⟨.refl _, fun _ _ _ h _ => h, ?_⟩
      intro j areas hlist hnot
      have hj : j ≠ k := by
        rintro rfl
        exact hnot (hfrees j hvma)
      rw [lookup_set_of_ne _ hj, hlist]
    refine ⟨putAll _ ?_, hkept.trans hshifts.kept, hshifts.pipes⟩
    refine ⟨hsound.store.congr ?_, hsound.tables, ?_⟩
    · intro w
      have hset := count_owned_set areaFiles hareas none w
      rw [elim_none, count_nil, Nat.add_zero] at hset
      rw [append_nil, count_nil]
      simp only [held]
      omega
    · intro t task j htask htaskvma
      have hj : j ≠ k := by
        rintro rfl
        exact hunused j hvma t task htask htaskvma
      obtain ⟨areas', hareas'⟩ := hsound.lists t task j htask htaskvma
      exact ⟨areas', by rw [lookup_set_of_ne _ hj, hareas']⟩

end

/-- No other task enters the area list of `t`. -/
def State.Alone (s : State) (t : ℕ) : Prop :=
  ∀ self, lookup s.tasks t = some self → ∀ k, self.vmaList = some k →
    ∀ t' task, t' ≠ t → lookup s.tasks t' = some task → task.vmaList ≠ some k

/-- The reaper, for a thread or for the last user of an area list. -/
theorem reap_good (hsound : s.Sound []) {z : Task} (hz : lookup s.tasks t = some z)
    (halone : z.isPthread = true ∨ s.Alone t) (hfrees : ∀ k, z.vmaList = some k → frees k) :
    Good clears frees s (s.reap t z) := by
  have hset : Good clears frees s (s.setTask t none) := setTask_good hsound hz nofun
  rw [reap]
  split_ifs with hthread
  · exact hset
  · have halone' := halone.resolve_left hthread
    refine hset.trans (vmaFreeAll_good hset.sound ?_ ?_ hfrees)
    · intro k hk
      exact hsound.lists t z k hz hk
    · intro k hk t' task htask
      rw [setTask, lookup_set hz] at htask
      split_ifs at htask with ht
      exact halone' z hz k hk t' task ht htask

theorem Good.thenExits {m : Prog α} (hgood : Good clears frees s s')
    (hunflagged : Unflagged k s s') (hexits : Exits m s'
      (fun _ s₂ => Good clears frees s' s₂ ∧ Unflagged k s' s₂) fun _ s₂ => Good clears frees s' s₂) :
    Exits m s' (fun _ s₂ => Good clears frees s s₂ ∧ Unflagged k s s₂)
      fun _ s₂ => Good clears frees s s₂ :=
  hexits.weaken (fun _ _ h => ⟨hgood.trans h.1, hunflagged.trans h.2⟩) fun _ _ h => hgood.trans h

/-- `execve_image` by a task that enters its area list alone. -/
theorem execveImage_does (hsound : s.Sound []) (hself : lookup s.tasks t = some self)
    (halone : s.Alone t) (args : ExecArgs)
    (hclears : ∀ i, 3 ≤ i → s.cloexecAt self.table i = true → clears self.table i)
    (hfrees : ∀ k, self.vmaList = some k → frees k) :
    Does clears frees (execveImage t self args) s := by
  have hread : ∀ image s₁, Good clears frees s s₁ ∧ Unflagged self.table s s₁ →
      Exits (readImage self.table image) s₁
        (fun _ s₂ => Good clears frees s s₂ ∧ Unflagged self.table s s₂)
        fun _ s₂ => Good clears frees s s₂ := by
    rintro image s₁ ⟨hgood, hunflagged⟩
    exact hgood.thenExits hunflagged (readImage_exits hgood.sound image)
  have himage : ∀ image ∈ args.images, ∀ s₁, Good clears frees s s₁ ∧ Unflagged self.table s s₁ →
      Exits (do vfsCloseOnExec self.table; readImage self.table image) s₁
        (fun _ s₂ => Good clears frees s s₂ ∧ Unflagged self.table s s₂)
        fun _ s₂ => Good clears frees s s₂ := by
    rintro image - s₁ ⟨hgood, hunflagged⟩
    have hclose := hgood.thenExits hunflagged (vfsCloseOnExec_exits hgood.sound
      fun i hi hflag => hclears i hi (hunflagged.flags i hflag))
    exact Exits.bind hclose fun _ s₂ h => hread image s₂ h
  refine Exits.bind (Exits.forM args.images himage ⟨.refl hsound, fun _ hj => hj, rfl⟩) ?_
  intro _ s₁ hfirst
  refine Exits.bind (Exits.forM args.interp.toList (fun image _ => hread image) hfirst) ?_
  rintro _ s₂ ⟨hgood, hunflagged⟩
  refine exits_check (fun _ => hgood) ?_
  apply Exits.modify
  have hself' : lookup s₂.tasks t = some self := by rw [hunflagged.tasks, hself]
  have hset : Good clears frees s₂ (s₂.setTask t (some { self with vmaList := none })) := by
    apply setTask_good hgood.sound hself'
    rintro task ⟨⟩
    exact ⟨.inr rfl, .inl rfl⟩
  refine hgood.trans (hset.trans (vmaFreeAll_good hset.sound ?_ ?_ hfrees))
  · intro k hk
    exact hgood.sound.lists t self k hself' hk
  · intro k hk t' task htask
    rw [setTask, lookup_set hself'] at htask
    split_ifs at htask with ht
    · cases htask
      exact nofun
    · rw [hunflagged.tasks] at htask
      exact halone self hself k hk t' task ht htask

end Good

end AuraLite.Descriptor
