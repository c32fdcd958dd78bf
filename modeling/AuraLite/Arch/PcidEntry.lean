import AuraLite.Arch.PcidPolicy
import AuraLite.Lib.Reachability
import Mathlib.Tactic.Common

/-!
# Entries without a flush

One CPU with its TLB, its slot table and its shootdown mailbox, the page tables of all
address spaces, and what is done to them: entries, page-table changes here and on other
CPUs, the requests these send and their handler here, and the creation and destruction of
address spaces, where a new space may get the PML4 frame of a dead one.
-/

namespace AuraLite.Pcid

open Reachability
open Function (update update_apply update_self update_of_ne)

/-- A translation in the TLB and the address space it was installed for. -/
structure Entry where
  pte : ℕ
  space : ℕ
deriving DecidableEq

/-- A shootdown request that waits for its handler: the PML4 it is about, 0 for a kernel
broadcast, and the page it is about, or none for a full flush. -/
structure Request where
  victim : ℕ
  page : Option ℕ
deriving DecidableEq

/-- Address spaces have serial numbers; `live` gives the one whose PML4 is in a frame. -/
structure State where
  kernel : ℕ
  policy : Policy
  tlb : ℕ → ℕ → Option Entry
  /-- The PML4 in `CR3`. -/
  cur : ℕ
  live : ℕ → Option ℕ
  user : ℕ → ℕ → Option ℕ
  kmap : ℕ → Option ℕ
  next : ℕ
  mailbox : Option Request

/-- `PML4_INDEX(virt) >= PML4_USER_TOP`. -/
def kernelHalf (vpn : ℕ) : Bool := decide (256 ≤ vpn / 2 ^ 27 % 512)

def State.slot (s : State) (pml4 : ℕ) : ℕ := slotOf s.kernel pml4

/-- The page tables of an address space. -/
def State.walk (s : State) (space vpn : ℕ) : Option ℕ :=
  if kernelHalf vpn then s.kmap vpn else s.user space vpn

/-- A new entry in the tables of an address space. -/
def State.setPte (s : State) (space vpn : ℕ) (pte : Option ℕ) : State :=
  if kernelHalf vpn then { s with kmap := update s.kmap vpn pte }
  else { s with user := update s.user space (update (s.user space) vpn pte) }

/-- `invlpg`, which reaches the current PCID only. -/
def State.invlpg (s : State) (vpn : ℕ) : State :=
  { s with
    tlb := update s.tlb (s.slot s.cur)
      (update (s.tlb (s.slot s.cur)) vpn none) }

/-- A load of `CR3` without the no-flush bit drops the entries of the PCID. -/
def State.flush (s : State) (pcid : ℕ) : State :=
  { s with tlb := update s.tlb pcid fun _ => none }

/-- `pcid_policy_enter` grants the entry without a flush. -/
def State.NoFlush (s : State) (pml4 : ℕ) : Prop :=
  (s.policy.enter (s.slot pml4) pml4).1 = true

/-- `paging_switch_to`. -/
def State.enter (s : State) (pml4 : ℕ) : State :=
  if pml4 ≠ 0 ∧ (s.live pml4).isSome then
    let r := s.policy.enter (s.slot pml4) pml4
    let s' := { s with policy := r.2, cur := pml4 }
    if r.1 then s' else s'.flush (s.slot pml4)
  else s

def State.bump (s : State) : State := { s with policy := s.policy.genBump }

def State.deown (s : State) (pml4 : ℕ) : State :=
  { s with policy := s.policy.deown (s.slot pml4) pml4 }

/-- The hardware installs the translation of a page of the current space. -/
def State.fill (s : State) (vpn : ℕ) : State :=
  match s.live s.cur with
  | none => s
  | some space =>
    match s.walk space vpn with
    | none => s
    | some pte =>
      { s with
        tlb := update s.tlb (s.slot s.cur)
          (update (s.tlb (s.slot s.cur)) vpn (some ⟨pte, space⟩)) }

/-- `paging_map`, `paging_unmap` and `paging_protect` on the current tables. -/
def State.set (s : State) (vpn : ℕ) (pte : Option ℕ) : State :=
  match s.live s.cur with
  | none => s
  | some space =>
    let s' := (s.setPte space vpn pte).invlpg vpn
    if kernelHalf vpn && (s.walk space vpn).isSome then s'.bump else s'

/-- What `tlb_shootdown_range` does for this CPU.  It does not wait for the handler: a
request over one that is not handled takes its place, and `tlb_policy_decide` answers the
gap in the numbers with a full flush. -/
def State.send (s : State) (victim : ℕ) (page : Option ℕ) : State :=
  if victim ≠ 0 ∧ s.policy.senderSkip (s.slot victim) victim s.cur = true then s
  else { s with mailbox := some ⟨victim, if s.mailbox.isSome then none else page⟩ }

/-- What a handler drops of the current PCID. -/
def State.invalidate (s : State) : Option ℕ → State
  | some vpn => s.invlpg vpn
  | none => s.flush (s.slot s.cur)

/-- `ipi_tlb_shootdown_handler`. -/
def State.handle (s : State) : State :=
  match s.mailbox with
  | none => s
  | some request =>
    let s' := { s with mailbox := none }
    if request.victim = 0 then (s'.invalidate request.page).bump
    else if request.victim = s.cur then s'.invalidate request.page
    else s'.deown request.victim

/-- A page-table change on another CPU that runs the space, and its request. -/
def State.remote (s : State) (pml4 vpn : ℕ) (pte : Option ℕ) : State :=
  match s.live pml4 with
  | none => s
  | some space =>
    (s.setPte space vpn pte).send (if kernelHalf vpn then 0 else pml4) (some vpn)

/-- `fork` on another CPU: any number of user pages change, with one full request. -/
def State.remoteAll (s : State) (pml4 : ℕ) (table : ℕ → Option ℕ) : State :=
  match s.live pml4 with
  | none => s
  | some space => State.send { s with user := update s.user space table } pml4 none

/-- `paging_map` or `paging_protect` on another CPU, which send no shootdown, or a page
added to a space that is being built. -/
def State.remoteQuiet (s : State) (pml4 vpn : ℕ) (pte : Option ℕ) : State :=
  match s.live pml4 with
  | none => s
  | some space => s.setPte space vpn pte

/-- `paging_new_address_space` with the frame the PMM handed out. -/
def State.create (s : State) (pml4 : ℕ) : State :=
  if pml4 ≠ 0 ∧ s.live pml4 = none then
    { s with
      live := update s.live pml4 (some s.next)
      user := update s.user s.next fun _ => none
      next := s.next + 1 }
  else s

/-- `paging_free_address_space`. -/
def State.destroy (s : State) (pml4 : ℕ) : State :=
  if pml4 ≠ s.cur ∧ pml4 ≠ s.kernel then
    { s with live := update s.live pml4 none }
  else s

inductive Event
  | enter (pml4 : ℕ)
  | fill (vpn : ℕ)
  | evict (pcid vpn : ℕ)
  | set (vpn : ℕ) (pte : Option ℕ)
  | remote (pml4 vpn : ℕ) (pte : Option ℕ)
  | remoteAll (pml4 : ℕ) (table : ℕ → Option ℕ)
  | remoteQuiet (pml4 vpn : ℕ) (pte : Option ℕ)
  | handle
  | deown (pml4 : ℕ)
  | bump
  | create (pml4 : ℕ)
  | destroy (pml4 : ℕ)

def State.step (s : State) : Event → State
  | .enter pml4 => s.enter pml4
  | .fill vpn => s.fill vpn
  | .evict pcid vpn =>
    { s with tlb := update s.tlb pcid (update (s.tlb pcid) vpn none) }
  | .set vpn pte => s.set vpn pte
  | .remote pml4 vpn pte => s.remote pml4 vpn pte
  | .remoteAll pml4 table => s.remoteAll pml4 table
  | .remoteQuiet pml4 vpn pte => s.remoteQuiet pml4 vpn pte
  | .handle => s.handle
  | .deown pml4 => s.deown pml4
  | .bump => s.bump
  | .create pml4 => s.create pml4
  | .destroy pml4 => s.destroy pml4

def State.Step (s : State) (event : Event) (s' : State) : Prop := s.step event = s'

/-- The boot state: the kernel's space only, number 0, with any kernel mappings. -/
def State.boot (kernel : ℕ) (kmap : ℕ → Option ℕ) : State where
  kernel := kernel
  policy := ⟨fun _ => 0, fun _ => 0, 0⟩
  tlb := fun _ _ => none
  cur := kernel
  live := update (fun _ => none) kernel (some 0)
  user := fun _ _ => none
  kmap := kmap
  next := 1
  mailbox := none

/-- No request about a space waits for the handler. -/
def State.Handled (s : State) (pml4 : ℕ) : Prop :=
  ∀ request ∈ s.mailbox, request.victim ≠ 0 ∧ request.victim ≠ pml4

/-- A request that is sent about `victim` loses none: the one that waits is about the same
space, or the new one is a broadcast, or it is not sent to this CPU. -/
def State.Posts (s : State) (victim : ℕ) : Prop :=
  ∀ request ∈ s.mailbox, victim = 0 ∨ victim = request.victim ∨
    s.policy.senderSkip (s.slot victim) victim s.cur = true

/-- Generations do not wrap; a space is created only on a frame whose slot grants no
right to the frame any more; a change without a shootdown is to a page that was not
present, or to a space that is not current here and has no right; no request is lost in
the mailbox; and a space with a right is entered when the requests about it are handled. -/
def Event.Fits (s : State) (event : Event) : Prop :=
  s.policy.curGen + 1 < 2 ^ 32 ∧
    match event with
    | .create pml4 => ¬ s.policy.Right (s.slot pml4) pml4
    | .remoteQuiet pml4 vpn _ => ∀ space, s.live pml4 = some space →
        s.walk space vpn = none ∨
          kernelHalf vpn = false ∧ pml4 ≠ s.cur ∧ ¬ s.policy.Right (s.slot pml4) pml4
    | .remote pml4 vpn _ => s.Posts (if kernelHalf vpn then 0 else pml4)
    | .remoteAll pml4 _ => s.Posts pml4
    | .enter pml4 => s.policy.Right (s.slot pml4) pml4 → s.Handled pml4
    | _ => True

/-! ## The invariant -/

/-- The handler of the request takes care of what is cached of a page of a space. -/
def Request.Covers (request : Request) (pml4 vpn : ℕ) : Prop :=
  request.victim = 0 ∨ request.victim = pml4 ∧ ∀ page ∈ request.page, page = vpn

/-- A cached entry is that of the tables, or a request that waits covers it. -/
def State.Agrees (s : State) (pml4 space vpn : ℕ) (e : Entry) : Prop :=
  s.walk space vpn = some e.pte ∨ ∃ request ∈ s.mailbox, request.Covers pml4 vpn

/-- Every entry under a PCID that a space may enter without a flush was installed for
the space and agrees with its tables, or has its request in the mailbox. -/
structure Sound (s : State) : Prop where
  zero : s.live 0 = none
  below : ∀ pml4 space, s.live pml4 = some space → space < s.next
  inj : ∀ p q space, s.live p = some space → s.live q = some space → p = q
  gens : ∀ slot, s.policy.genOf slot ≤ s.policy.curGen
  owns : s.policy.owner (s.slot s.cur) = s.cur ∨ s.policy.owner (s.slot s.cur) = 0
  entries : ∀ pml4 space, s.live pml4 = some space → s.policy.Right (s.slot pml4) pml4 →
    ∀ vpn e, s.tlb (s.slot pml4) vpn = some e → e.space = space ∧ s.Agrees pml4 space vpn e

variable {s s' : State} {pml4 space vpn : ℕ} {pte : Option ℕ} {user : ℕ → ℕ → Option ℕ}
variable {n v w slot p : ℕ} {e : Entry} {kmap : ℕ → Option ℕ} {tlb : ℕ → ℕ → Option Entry}

open State

theorem live_update {live : ℕ → Option ℕ} {q : ℕ} {v : Option ℕ} (hp : update live q v p = some n) :
    p = q ∧ v = some n ∨ p ≠ q ∧ live p = some n := by
  rw [update_apply] at hp
  split_ifs at hp with h
  · exact .inl ⟨h, hp⟩
  · exact .inr ⟨h, hp⟩

theorem boot_live {kernel : ℕ} (hp : (State.boot kernel kmap).live p = some n) :
    p = kernel ∧ n = 0 := by
  change update (fun _ => none) kernel (some 0) p = some n at hp
  obtain ⟨rfl, hn⟩ | ⟨-, hp⟩ := live_update hp
  · exact ⟨rfl, (Option.some.inj hn).symm⟩
  · cases hp

theorem sound_boot (kernel : ℕ) (kmap : ℕ → Option ℕ) (hkernel : kernel ≠ 0) :
    Sound (State.boot kernel kmap) where
  zero := by
    change update (fun _ => none) kernel (some 0) 0 = none
    rw [update_of_ne hkernel.symm]
  below := fun p n hp => by
    rw [(boot_live hp).2]
    exact Nat.zero_lt_one
  inj := fun p q n hp hq => (boot_live hp).1.trans (boot_live hq).1.symm
  gens := fun _ => Nat.le_refl 0
  owns := .inr rfl
  entries := nofun

theorem Sound.ne_zero (hsound : Sound s) (hlive : s.live pml4 = some space) : pml4 ≠ 0 := by
  rintro rfl
  rw [hsound.zero] at hlive
  cases hlive

/-- A space with a right to the slot of the current one is the current one. -/
theorem Sound.eq_cur (hsound : Sound s) (hlive : s.live pml4 = some space)
    (hright : s.policy.Right (s.slot pml4) pml4) (hslot : s.slot pml4 = s.slot s.cur) :
    pml4 = s.cur := by
  rw [hslot] at hright
  rcases hsound.owns with howner | howner
  · exact hright.1.symm.trans howner
  · exact absurd (hright.1.symm.trans howner) (hsound.ne_zero hlive)

/-- A step that creates and enters no space, gives no right and installs no entry, and
after which every entry that can still be used without a flush agrees as it did. -/
theorem Sound.edit {policy : Policy} {mailbox : Option Request} (hsound : Sound s)
    (hgens : ∀ slot, policy.genOf slot ≤ policy.curGen)
    (howns : policy.owner (s.slot s.cur) = s.policy.owner (s.slot s.cur) ∨
      policy.owner (s.slot s.cur) = 0)
    (hright : ∀ slot p, p ≠ 0 → policy.Right slot p → s.policy.Right slot p)
    (htlb : ∀ slot v e, tlb slot v = some e → s.tlb slot v = some e)
    (hagrees : ∀ p n, s.live p = some n → policy.Right (s.slot p) p → ∀ v e,
      tlb (s.slot p) v = some e → s.Agrees p n v e →
        State.Agrees { s with user := user, kmap := kmap, mailbox := mailbox } p n v e) :
    Sound { s with
      policy := policy, tlb := tlb, user := user, kmap := kmap, mailbox := mailbox } where
  __ := hsound
  gens := hgens
  owns := by
    rcases howns with h | h
    · exact h.symm ▸ hsound.owns
    · exact .inr h
  entries := fun p n hp hr v e he => by
    have hold := hsound.entries p n hp (hright _ p (hsound.ne_zero hp) hr) v e (htlb _ v e he)
    exact ⟨hold.1, hagrees p n hp hr v e he hold.2⟩

/-- The same with the mailbox as it is and the tables behind those entries as they are. -/
theorem Sound.edit_walk (hsound : Sound s)
    (htlb : ∀ slot v e, tlb slot v = some e → s.tlb slot v = some e)
    (hwalk : ∀ p n, s.live p = some n → s.policy.Right (s.slot p) p → ∀ v e,
      tlb (s.slot p) v = some e → s.walk n v = some e.pte →
        State.walk { s with user := user, kmap := kmap } n v = s.walk n v) :
    Sound { s with tlb := tlb, user := user, kmap := kmap } :=
  hsound.edit hsound.gens (.inl rfl) (fun _ _ _ h => h) htlb
    fun p n hp hr v e he hagrees =>
      hagrees.imp_left fun h => (hwalk p n hp hr v e he h).trans h

/-! ## The steps -/

theorem setPte_eq (s : State) (n v : ℕ) (pte : Option ℕ) : ∃ kmap user,
    s.setPte n v pte = { s with kmap := kmap, user := user } := by
  rw [setPte]
  split_ifs <;> exact ⟨_, _, rfl⟩

/-- A new entry changes the walk of its own page only, and in the user half for its own
space only. -/
theorem setPte_walk {m : ℕ} (hother : w ≠ v ∨ kernelHalf v = false ∧ m ≠ n) :
    (s.setPte n v pte).walk m w = s.walk m w := by
  rw [setPte, walk, walk]
  by_cases hhalf : kernelHalf v = true
  · rw [if_pos hhalf]
    have hw : w ≠ v := hother.resolve_right fun h => by
      rw [h.1] at hhalf
      cases hhalf
    simp only [update_of_ne hw]
  · rw [if_neg hhalf]
    by_cases hm : m = n
    · have hw : w ≠ v := hother.resolve_right fun h => h.2 hm
      simp only [hm, update_self, update_of_ne hw]
    · simp only [update_of_ne hm]

theorem cleared_tlb {pcid : ℕ} (he : update tlb pcid (update (tlb pcid) v none) slot w = some e) :
    tlb slot w = some e ∧ ¬ (slot = pcid ∧ w = v) := by
  rw [update_apply] at he
  split_ifs at he with hslot
  · rw [update_apply] at he
    split_ifs at he with hw
    exact ⟨hslot ▸ he, fun h => hw h.2⟩
  · exact ⟨he, fun h => hslot h.1⟩

theorem invlpg_tlb (he : (s.invlpg v).tlb slot w = some e) :
    s.tlb slot w = some e ∧ ¬ (slot = s.slot s.cur ∧ w = v) :=
  cleared_tlb he

theorem flush_tlb {pcid : ℕ} (he : (s.flush pcid).tlb slot w = some e) :
    s.tlb slot w = some e ∧ slot ≠ pcid := by
  change update s.tlb pcid (fun _ => none) slot w = some e at he
  rw [update_apply] at he
  split_ifs at he with hslot
  exact ⟨he, hslot⟩

section

variable (hsound : Sound s)
include hsound

omit hsound in
theorem deown_genOf (st : Policy) (slot pml4 : ℕ) :
    (st.deown slot pml4).genOf = st.genOf ∧ (st.deown slot pml4).curGen = st.curGen := by
  rw [Policy.deown]
  split_ifs <;> exact ⟨rfl, rfl⟩

omit hsound in
theorem deown_owner (st : Policy) (slot pml4 slot' : ℕ) :
    (st.deown slot pml4).owner slot' = st.owner slot' ∨ (st.deown slot pml4).owner slot' = 0 := by
  rw [Policy.deown]
  split_ifs
  · by_cases hslot : slot' = slot
    · rw [hslot]
      exact .inr (update_self _ _ _)
    · exact .inl (update_of_ne hslot _ _)
  · exact .inl rfl

theorem Sound.deown_gens (pml4 slot : ℕ) : (s.policy.deown (s.slot pml4) pml4).genOf slot ≤
      (s.policy.deown (s.slot pml4) pml4).curGen := by
  obtain ⟨hgenOf, hcurGen⟩ := deown_genOf s.policy (s.slot pml4) pml4
  rw [hgenOf, hcurGen]
  exact hsound.gens slot

/-- A changed page is behind no entry that agrees with the tables if it was not present,
or if it is a user page and the entry is not one of its space for it. -/
theorem Sound.setPte_walk {m : ℕ} (hlive : s.live pml4 = some n) (hp : s.live p = some m)
    (hentry : s.walk m w = some e.pte)
    (hquiet : s.walk n v = none ∨ kernelHalf v = false ∧ ¬ (p = pml4 ∧ w = v)) :
    (s.setPte n v pte).walk m w = s.walk m w := by
  apply AuraLite.Pcid.setPte_walk
  by_contra hsame
  rw [not_or, not_not] at hsame
  obtain ⟨rfl, hsame⟩ := hsame
  by_cases hm : m = n
  · rw [hm] at hp hentry
    rcases hquiet with habsent | ⟨-, hother⟩
    · rw [habsent] at hentry
      cases hentry
    · exact hother ⟨hsound.inj p pml4 n hp hlive, rfl⟩
  · -- the spaces share the kernel half
    have hhalf : kernelHalf w ≠ false := fun hhalf => hsame ⟨hhalf, hm⟩
    have habsent := hquiet.resolve_right fun h => hhalf h.1
    rw [Bool.ne_false_iff] at hhalf
    rw [walk, if_pos hhalf] at habsent hentry
    rw [habsent] at hentry
    cases hentry

/-- A change of a page that was not present, or of a page of a user space whose entries
cannot be used here without a flush. -/
theorem Sound.setPte (hlive : s.live pml4 = some n)
    (hquiet : s.walk n v = none ∨ kernelHalf v = false ∧ ¬ s.policy.Right (s.slot pml4) pml4) :
    Sound (s.setPte n v pte) := by
  have hwalk : ∀ p m, s.live p = some m → s.policy.Right (s.slot p) p → ∀ w e,
      s.tlb (s.slot p) w = some e → s.walk m w = some e.pte →
      (s.setPte n v pte).walk m w = s.walk m w := by
    intro p m hp hr w e _ hentry
    apply hsound.setPte_walk hlive hp hentry
    exact hquiet.imp_right fun h => ⟨h.1, fun hsame => h.2 (hsame.1 ▸ hr)⟩
  obtain ⟨kmap, user, hset⟩ := setPte_eq s n v pte
  rw [hset] at hwalk ⊢
  exact hsound.edit_walk (fun _ _ _ h => h) hwalk

/-- The change of a user page with its `invlpg` on the CPU that runs the space. -/
theorem Sound.setPte_invlpg (hlive : s.live s.cur = some n)
    (hhalf : kernelHalf v = false ∨ s.walk n v = none) : Sound ((s.setPte n v pte).invlpg v) := by
  have hwalk : ∀ p m, s.live p = some m → ∀ w (e : Entry), s.walk m w = some e.pte →
      ¬ (s.slot p = s.slot s.cur ∧ w = v) → (s.setPte n v pte).walk m w = s.walk m w := by
    intro p m hp w e hentry hgone
    apply hsound.setPte_walk hlive hp hentry
    exact hhalf.symm.imp_right fun h => ⟨h, fun hsame => hgone ⟨congrArg s.slot hsame.1, hsame.2⟩⟩
  obtain ⟨kmap, user, hset⟩ := setPte_eq s n v pte
  rw [hset] at hwalk ⊢
  exact hsound.edit_walk (fun _ _ _ he => (invlpg_tlb he).1)
    fun p m hp _ w e he hentry => hwalk p m hp w e hentry (invlpg_tlb he).2

omit hsound in
theorem senderSkip_iff {st : Policy} {victim target : ℕ} :
    st.senderSkip slot victim target = true ↔ target ≠ victim ∧ ¬ st.Right slot victim := by
  rw [Policy.senderSkip]
  split
  · rename_i htarget
    exact ⟨nofun, fun h => absurd htarget h.1⟩
  · rename_i htarget
    rw [decide_eq_true_eq]
    exact ⟨fun h => ⟨htarget, h⟩, fun h => h.2⟩

omit hsound in
theorem Request.Covers.full {request : Request} (hcovers : request.Covers p v) :
    Request.Covers ⟨request.victim, none⟩ p v :=
  hcovers.imp_right fun h => ⟨h.1, nofun⟩

omit hsound in
/-- A request in place of the one that waited covers what this one did. -/
theorem Request.Covers.replaced {request : Request} {victim : ℕ} (hcovers : request.Covers p v)
    (hposts : victim = 0 ∨ victim = request.victim) : Request.Covers ⟨victim, none⟩ p v := by
  rcases hposts with hposts | hposts
  · exact .inl hposts
  · rw [hposts]
    exact hcovers.full

/-- A change of tables on another CPU and its request: the pages that change are covered
by the request, or the CPU is skipped and has no right to the space. -/
theorem Sound.sent {victim : ℕ} {page : Option ℕ} (hposts : s.Posts victim)
    (hskipped : victim ≠ 0 → ¬ s.policy.Right (s.slot victim) victim →
      Sound { s with kmap := kmap, user := user })
    (hwalk : ∀ p n, s.live p = some n → ∀ v, ¬ Request.Covers ⟨victim, page⟩ p v →
      State.walk { s with kmap := kmap, user := user } n v = s.walk n v) :
    Sound (State.send { s with kmap := kmap, user := user } victim page) := by
  change Sound (if victim ≠ 0 ∧ s.policy.senderSkip (s.slot victim) victim s.cur = true then _
    else _)
  split
  · rename_i hskip
    exact hskipped hskip.1 (senderSkip_iff.mp hskip.2).2
  · rename_i hskip
    refine hsound.edit hsound.gens (.inl rfl) (fun _ _ _ h => h) (fun _ _ _ h => h)
      fun p n hp _ v e _ hagrees => ?_
    by_cases hcovers : Request.Covers ⟨victim, page⟩ p v
    · refine .inr ⟨_, rfl, ?_⟩
      split_ifs
      · exact hcovers.full
      · exact hcovers
    · refine hagrees.imp (fun h => (hwalk p n hp v hcovers).trans h) ?_
      rintro ⟨request, hrequest, hold⟩
      refine ⟨_, rfl, ?_⟩
      rw [if_pos (Option.isSome_iff_exists.mpr ⟨request, hrequest⟩)]
      have hplace := hposts request hrequest
      have hnoskip : ¬ (victim ≠ 0 ∧ ¬ victim = request.victim) := fun h =>
        hskip ⟨h.1, (hplace.resolve_left h.1).resolve_left h.2⟩
      exact hold.replaced (by tauto)

/-- Dropping what a request for the current space is about leaves nothing it covers. -/
theorem Sound.invalidate {request : Request} (hrequest : s.mailbox = some request)
    (hzero : request.victim ≠ 0) (hcur : request.victim = s.cur) :
    Sound (State.invalidate { s with mailbox := none } request.page) := by
  have hgone : ∀ tlb : ℕ → ℕ → Option Entry,
      (∀ slot v e, tlb slot v = some e → s.tlb slot v = some e) →
      (∀ v e, tlb (s.slot s.cur) v = some e → ∃ page ∈ request.page, page ≠ v) →
      Sound { s with tlb := tlb, mailbox := none } := by
    intro tlb htlb hleft
    refine hsound.edit hsound.gens (.inl rfl) (fun _ _ _ h => h) htlb
      fun p n hp hr v e he hagrees => ?_
    refine hagrees.elim .inl ?_
    rintro ⟨waiting, hwaiting, hcovers⟩
    cases hrequest.symm.trans hwaiting
    obtain ⟨hvictim, hpage⟩ := hcovers.resolve_left hzero
    rw [hvictim] at hcur
    rw [hcur] at he
    obtain ⟨page, hmem, hne⟩ := hleft v e he
    exact absurd (hpage page hmem) hne
  cases hpage : request.page with
  | none =>
    exact hgone _ (fun _ _ _ he => (flush_tlb he).1) fun v e he =>
      absurd rfl (flush_tlb he).2
  | some vpn =>
    refine hgone _ (fun _ _ _ he => (invlpg_tlb he).1) fun v e he => ⟨vpn, hpage, ?_⟩
    rintro rfl
    exact (invlpg_tlb he).2 ⟨rfl, rfl⟩

/-- A space that loses its right needs no request any more. -/
theorem Sound.disowned {request : Request} (hrequest : s.mailbox = some request)
    (hzero : request.victim ≠ 0) :
    Sound (State.deown { s with mailbox := none } request.victim) := by
  refine hsound.edit (hsound.deown_gens request.victim) (deown_owner _ _ _ _)
    (fun _ _ hp hr => hr.of_deown hp) (fun _ _ _ h => h) fun p n hp hr v e _ hagrees => ?_
  refine hagrees.elim .inl ?_
  rintro ⟨waiting, hwaiting, hcovers⟩
  cases hrequest.symm.trans hwaiting
  obtain ⟨hvictim, -⟩ := hcovers.resolve_left hzero
  rw [← hvictim] at hr
  exact absurd hr (not_right_deown hzero)

section

variable (hwrap : s.policy.curGen + 1 < 2 ^ 32)
include hwrap

/-- Generations that do not wrap leave no right behind a bump. -/
theorem Sound.fresh : s.policy.Fresh := by
  intro slot _ hgen
  have hle := hsound.gens slot
  rw [Nat.mod_eq_of_lt hwrap] at hgen
  omega

theorem Sound.bump_gens (slot : ℕ) :
    s.policy.genBump.genOf slot ≤ s.policy.genBump.curGen := by
  change s.policy.genOf slot ≤ (s.policy.curGen + 1) % 2 ^ 32
  rw [Nat.mod_eq_of_lt hwrap]
  exact Nat.le_succ_of_le (hsound.gens slot)

/-- Whatever a step does to the tables, the TLB and the mailbox, a bump behind it makes it
sound. -/
theorem Sound.bumped {mailbox : Option Request}
    (htlb : ∀ slot v e, tlb slot v = some e → s.tlb slot v = some e) :
    Sound { s with
      policy := s.policy.genBump, tlb := tlb, user := user, kmap := kmap, mailbox := mailbox } := by
  have hnone : ∀ slot p, p ≠ 0 → ¬ s.policy.genBump.Right slot p := fun slot p hp =>
    not_right_genBump (hsound.fresh hwrap) hp
  exact hsound.edit (hsound.bump_gens hwrap) (.inl rfl)
    (fun slot p hp hr => absurd hr (hnone slot p hp)) htlb
    fun p n hp hr => absurd hr (hnone _ p (hsound.ne_zero hp))

theorem Sound.bump : Sound s.bump :=
  hsound.bumped hwrap fun _ _ _ h => h

theorem Sound.setPte_bump (n v : ℕ) : Sound ((s.setPte n v pte).invlpg v).bump := by
  obtain ⟨kmap, user, hset⟩ := setPte_eq s n v pte
  rw [hset]
  exact hsound.bumped hwrap fun _ _ _ he => (invlpg_tlb he).1

theorem Sound.set (vpn : ℕ) (pte : Option ℕ) : Sound (s.set vpn pte) := by
  rw [State.set]
  cases hcur : s.live s.cur with
  | none => exact hsound
  | some n =>
    simp only
    split_ifs with hbump
    · exact hsound.setPte_bump hwrap n vpn
    · apply hsound.setPte_invlpg hcur
      rw [Bool.and_eq_true, not_and_or] at hbump
      rcases hbump with h | h
      · exact .inl (Bool.eq_false_iff.mpr h)
      · exact .inr (Option.not_isSome_iff_eq_none.mp h)

theorem Sound.handle : Sound s.handle := by
  rw [State.handle]
  cases hrequest : s.mailbox with
  | none => exact hsound
  | some request =>
    simp only
    split_ifs with hzero hcur
    · cases request.page with
      | none => exact hsound.bumped hwrap fun _ _ _ he => (flush_tlb he).1
      | some vpn => exact hsound.bumped hwrap fun _ _ _ he => (invlpg_tlb he).1
    · exact hsound.invalidate hrequest hzero hcur
    · exact hsound.disowned hrequest hzero

end

theorem Sound.deown (pml4 : ℕ) : Sound (s.deown pml4) :=
  hsound.edit (hsound.deown_gens pml4) (deown_owner _ _ _ _)
    (fun _ _ hp hr => hr.of_deown hp) (fun _ _ _ h => h) fun _ _ _ _ _ _ _ h => h

theorem Sound.evict (pcid vpn : ℕ) : Sound (s.step (.evict pcid vpn)) :=
  hsound.edit_walk (fun _ _ _ he => (cleared_tlb he).1) fun _ _ _ _ _ _ _ _ => rfl

theorem Sound.enter (pml4 : ℕ) : Sound (s.enter pml4) := by
  rw [State.enter]
  split_ifs with h
  swap
  · exact hsound
  by_cases hright : s.policy.Right (s.slot pml4) pml4
  · rw [enter_of_right hright]
    exact { hsound with owns := .inl hright.1 }
  · rw [enter_of_not_right hright]
    refine ⟨hsound.zero, hsound.below, hsound.inj, fun slot => ?_, ?_, ?_⟩
    · change update s.policy.genOf (s.slot pml4) s.policy.curGen slot ≤ s.policy.curGen
      by_cases hslot : slot = s.slot pml4
      · rw [hslot, update_self]
      · rw [update_of_ne hslot]
        exact hsound.gens slot
    · exact .inl (update_self _ _ _)
    · -- the claimed slot is empty, the others are as they were
      intro p n hp hr v e he
      obtain ⟨he, hslot⟩ := flush_tlb he
      have hr' : (s.policy.claim (s.slot pml4) pml4).Right (s.slot p) p := hr
      rw [right_claim] at hr'
      have hne : s.slot p ≠ s.slot pml4 := hslot
      rw [if_neg hne] at hr'
      exact hsound.entries p n hp hr' v e he

theorem Sound.fill (vpn : ℕ) : Sound (s.fill vpn) := by
  rw [State.fill]
  cases hcur : s.live s.cur with
  | none => exact hsound
  | some n =>
    simp only
    cases hpte : s.walk n vpn with
    | none => exact hsound
    | some pte =>
      refine { hsound with entries := fun p m hp hr v e he => ?_ }
      change update s.tlb (s.slot s.cur) (update (s.tlb (s.slot s.cur))
        vpn (some ⟨pte, n⟩)) (s.slot p) v = some e at he
      change e.space = m ∧ s.Agrees p m v e
      by_cases hslot : s.slot p = s.slot s.cur
      · have hpcur := hsound.eq_cur hp hr hslot
        rw [hslot, update_self] at he
        by_cases hv : v = vpn
        · rw [hv, update_self] at he
          rw [hpcur, hcur] at hp
          rw [← Option.some.inj he, ← Option.some.inj hp, hv]
          exact ⟨rfl, .inl hpte⟩
        · rw [update_of_ne hv, ← hslot] at he
          exact hsound.entries p m hp hr v e he
      · rw [update_of_ne hslot] at he
        exact hsound.entries p m hp hr v e he

theorem Sound.remote (hposts : s.Posts (if kernelHalf vpn then 0 else pml4)) :
    Sound (s.remote pml4 vpn pte) := by
  rw [State.remote]
  cases hlive : s.live pml4 with
  | none => exact hsound
  | some n =>
    have hskipped : (if kernelHalf vpn then 0 else pml4) ≠ 0 →
        ¬ s.policy.Right (s.slot (if kernelHalf vpn then 0 else pml4))
          (if kernelHalf vpn then 0 else pml4) → Sound (s.setPte n vpn pte) := by
      intro hzero hnone
      by_cases hhalf : kernelHalf vpn = true
      · exact absurd (if_pos hhalf) hzero
      · rw [if_neg hhalf] at hnone
        exact hsound.setPte hlive (.inr ⟨Bool.eq_false_iff.mpr hhalf, hnone⟩)
    have hwalk : ∀ p m, s.live p = some m → ∀ v,
        ¬ Request.Covers ⟨if kernelHalf vpn then 0 else pml4, some vpn⟩ p v →
        (s.setPte n vpn pte).walk m v = s.walk m v := by
      intro p m hp v hcovers
      apply AuraLite.Pcid.setPte_walk
      by_contra hsame
      rw [not_or, not_not, not_and, not_not] at hsame
      by_cases hhalf : kernelHalf vpn = true
      · exact hcovers (.inl (if_pos hhalf))
      · have hm : m = n := hsame.2 (Bool.eq_false_iff.mpr hhalf)
        have hpml4 : pml4 = p := hsound.inj pml4 p n hlive (hm ▸ hp)
        refine hcovers (.inr ⟨(if_neg hhalf).trans hpml4, fun page hpage => ?_⟩)
        exact (Option.some.inj hpage).symm.trans hsame.1.symm
    obtain ⟨kmap, user, hset⟩ := setPte_eq s n vpn pte
    simp only [hset] at hskipped hwalk ⊢
    exact hsound.sent hposts hskipped hwalk

theorem Sound.remoteAll (hposts : s.Posts pml4) (table : ℕ → Option ℕ) :
    Sound (s.remoteAll pml4 table) := by
  rw [State.remoteAll]
  cases hlive : s.live pml4 with
  | none => exact hsound
  | some n =>
    -- the other spaces keep their pages
    have hother : ∀ p m, s.live p = some m → p ≠ pml4 → ∀ v,
        walk { s with user := update s.user n table } m v = s.walk m v := by
      intro p m hp hne v
      have hm : m ≠ n := fun h => hne (hsound.inj p pml4 n (h ▸ hp) hlive)
      simp only [walk, update_of_ne hm]
    apply hsound.sent hposts
    · intro _ hnone
      apply hsound.edit_walk (fun _ _ _ h => h)
      intro p m hp hr v e _ _
      apply hother p m hp
      rintro rfl
      exact hnone hr
    · intro p m hp v hcovers
      apply hother p m hp
      rintro rfl
      exact hcovers (.inr ⟨rfl, nofun⟩)

theorem Sound.remoteQuiet
    (hfits : Event.Fits s (.remoteQuiet pml4 vpn pte)) : Sound (s.remoteQuiet pml4 vpn pte) := by
  rw [State.remoteQuiet]
  cases hlive : s.live pml4 with
  | none => exact hsound
  | some n =>
    apply hsound.setPte hlive
    exact (hfits.2 n hlive).imp_right fun h => ⟨h.1, h.2.2⟩

theorem Sound.create (hright : ¬ s.policy.Right (s.slot pml4) pml4) : Sound (s.create pml4) := by
  rw [State.create]
  split_ifs with h
  swap
  · exact hsound
  refine ⟨?_, fun p n hp => ?_, fun p q n hp hq => ?_, hsound.gens, hsound.owns,
    fun p n hp hr v e he => ?_⟩
  · change update s.live pml4 (some s.next) 0 = none
    rw [update_of_ne h.1.symm]
    exact hsound.zero
  · change n < s.next + 1
    obtain ⟨-, hn⟩ | ⟨-, hold⟩ := live_update hp
    · cases hn
      exact Nat.lt_succ_self _
    · exact Nat.lt_succ_of_lt (hsound.below p n hold)
  · obtain ⟨rfl, hn⟩ | ⟨-, hp⟩ := live_update hp
    · obtain ⟨rfl, -⟩ | ⟨-, hq⟩ := live_update hq
      · rfl
      · cases hn
        exact absurd (hsound.below q _ hq) (Nat.lt_irrefl _)
    · obtain ⟨-, hn⟩ | ⟨-, hq⟩ := live_update hq
      · cases hn
        exact absurd (hsound.below p _ hp) (Nat.lt_irrefl _)
      · exact hsound.inj p q n hp hq
  · obtain ⟨rfl, -⟩ | ⟨-, hold⟩ := live_update hp
    · exact absurd hr hright
    · have hn : n ≠ s.next := Nat.ne_of_lt (hsound.below p n hold)
      have hwalk : walk { s with
          live := update s.live pml4 (some s.next)
          user := update s.user s.next fun _ => none
          next := s.next + 1 } n v = s.walk n v := by
        simp only [walk, update_of_ne hn]
      rw [Agrees, hwalk]
      exact hsound.entries p n hold hr v e he

theorem Sound.destroy (pml4 : ℕ) : Sound (s.destroy pml4) := by
  rw [State.destroy]
  split_ifs with h
  swap
  · exact hsound
  have hlive : ∀ p n, update s.live pml4 none p = some n → s.live p = some n := by
    intro p n hp
    obtain ⟨-, hn⟩ | ⟨-, hold⟩ := live_update hp
    · cases hn
    · exact hold
  refine ⟨?_, fun p n hp => hsound.below p n (hlive p n hp),
    fun p q n hp hq => hsound.inj p q n (hlive p n hp) (hlive q n hq), hsound.gens,
    hsound.owns, fun p n hp => hsound.entries p n (hlive p n hp)⟩
  by_contra hzero
  obtain ⟨n, hn⟩ := Option.ne_none_iff_exists'.mp hzero
  exact absurd (hlive 0 n hn) (by rw [hsound.zero]; exact nofun)

end

theorem Sound.step {event : Event} (hsound : Sound s) (hfits : event.Fits s) :
    Sound (s.step event) := by
  cases event with
  | enter pml4 => exact hsound.enter pml4
  | fill vpn => exact hsound.fill vpn
  | evict pcid vpn => exact hsound.evict pcid vpn
  | set vpn pte => exact hsound.set hfits.1 vpn pte
  | remote pml4 vpn pte => exact hsound.remote hfits.2
  | remoteAll pml4 table => exact hsound.remoteAll hfits.2 table
  | remoteQuiet pml4 vpn pte => exact hsound.remoteQuiet hfits
  | handle => exact hsound.handle hfits.1
  | deown pml4 => exact hsound.deown pml4
  | bump => exact hsound.bump hfits.1
  | create pml4 => exact hsound.create hfits.2
  | destroy pml4 => exact hsound.destroy pml4

/-- In every run in which generations do not wrap, no space is created on a frame that
still has a right, changes without a shootdown miss what this CPU may cache, no request
is lost and entries find the requests about their space handled: an entry without a flush
finds no translation of another space and none that disagrees with the tables of the
space. -/
theorem noflush_entry_safe (kernel : ℕ) (kmap : ℕ → Option ℕ) (hkernel : kernel ≠ 0)
    (s : State) (hrun : Reaches (guarded (fun s event => Event.Fits s event) State.Step)
      (State.boot kernel kmap) s)
    (pml4 space : ℕ) (hfits : Event.Fits s (.enter pml4))
    (hlive : s.live pml4 = some space) (hnoflush : s.NoFlush pml4)
    (vpn : ℕ) (e : Entry) (he : s.tlb (s.slot pml4) vpn = some e) :
    e.space = space ∧ s.walk space vpn = some e.pte := by
  have hsound : Sound s :=
    hrun.kept (sound_boot kernel kmap hkernel) fun hbefore hfits => hbefore.step hfits
  have hright : s.policy.Right (s.slot pml4) pml4 := by
    by_contra hnone
    rw [NoFlush, enter_of_not_right hnone] at hnoflush
    cases hnoflush
  obtain ⟨hspace, hwalk | ⟨request, hrequest, hcovers⟩⟩ :=
    hsound.entries pml4 space hlive hright vpn e he
  · exact ⟨hspace, hwalk⟩
  · -- a request that covers the entry would be one about the space
    obtain ⟨hbroadcast, hother⟩ := hfits.2 hright request hrequest
    exact absurd hcovers (not_or.mpr ⟨hbroadcast, fun h => hother h.1⟩)

instance (s : State) (pml4 : ℕ) : Decidable (s.NoFlush pml4) :=
  inferInstanceAs (Decidable (_ = true))

instance (s : State) (pml4 : ℕ) : Decidable (s.Handled pml4) :=
  inferInstanceAs (Decidable (∀ request ∈ s.mailbox, _))

instance (s : State) (victim : ℕ) : Decidable (s.Posts victim) :=
  inferInstanceAs (Decidable (∀ request ∈ s.mailbox, _))

instance (s : State) (event : Event) : Decidable (event.Fits s) :=
  match event with
  | .create pml4 => inferInstanceAs (Decidable (_ ∧ ¬ s.policy.Right (s.slot pml4) pml4))
  | .remoteQuiet pml4 vpn _ => inferInstanceAs (Decidable (_ ∧ ∀ space ∈ s.live pml4,
      s.walk space vpn = none ∨ _ ∧ _ ∧ ¬ s.policy.Right (s.slot pml4) pml4))
  | .remote .. | .remoteAll .. => inferInstanceAs (Decidable (_ ∧ s.Posts _))
  | .enter pml4 => inferInstanceAs (Decidable (_ ∧ (s.policy.Right _ pml4 → s.Handled pml4)))
  | .fill _ | .evict .. | .set .. | .handle | .deown _ | .bump | .destroy _ =>
    inferInstanceAs (Decidable (_ ∧ True))

/-- A space that maps and uses a page and is left for the kernel's. -/
def usedSpace : List Event :=
  [.create 0x5000, .enter 0x5000, .set 5 (some 77), .fill 5, .enter 0x1000]

/-- Another CPU maps the page elsewhere, the request is handled, and the space uses the page
again. -/
def remappedSpace : State :=
  (usedSpace ++ [Event.remote 0x5000 5 (some 78), Event.handle, Event.enter 0x5000,
    Event.fill 5, Event.enter 0x1000]).foldl State.step (State.boot 0x1000 fun _ => none)

theorem noflush_entry_safe_remapped :
    Reaches (guarded (fun s event => Event.Fits s event) State.Step)
        (State.boot 0x1000 fun _ => none) remappedSpace ∧
      remappedSpace.NoFlush 0x5000 ∧
      ∃ e, remappedSpace.tlb (remappedSpace.slot 0x5000) 5 = some e ∧ e.space = 1 ∧
        remappedSpace.walk 1 5 = some e.pte := by
  have hrun : Reaches (guarded (fun s event => Event.Fits s event) Step)
      (boot 0x1000 fun _ => none) remappedSpace := reaches_foldl (by decide +kernel)
  have hnoflush : remappedSpace.NoFlush 0x5000 := by decide +kernel
  have hentry : remappedSpace.tlb (remappedSpace.slot 0x5000) 5 = some ⟨78, 1⟩ := by
    decide +kernel
  have hsafe := noflush_entry_safe 0x1000 (fun _ => none) (by decide) _ hrun 0x5000 1
    (by decide +kernel) (by decide +kernel) hnoflush 5 _ hentry
  exact ⟨hrun, hnoflush, _, hentry, hsafe⟩

/-- The space is destroyed and a new one gets its PML4 frame. -/
def reusedFrame : State :=
  (usedSpace ++ [Event.destroy 0x5000, Event.create 0x5000]).foldl State.step
    (State.boot 0x1000 fun _ => none)

/-- Another CPU runs `paging_protect` on the page of the space. -/
def protectedRemotely : State :=
  (usedSpace ++ [Event.remoteQuiet 0x5000 5 (some 78)]).foldl State.step
    (State.boot 0x1000 fun _ => none)

/-- Another CPU unmaps the page of the space, and its request waits here. -/
def unmappedRemotely : State :=
  (usedSpace ++ [Event.remote 0x5000 5 none]).foldl State.step
    (State.boot 0x1000 fun _ => none)

/-- The new space is entered without a flush into the translations of the dead one, the
old protection of a page outlives its change on another CPU, and a page that is gone is
found by an entry before the handler. -/
theorem noflush_entry_unsafe : (Reaches State.Step (State.boot 0x1000 fun _ => none) reusedFrame ∧
      reusedFrame.live 0x5000 = some 2 ∧ reusedFrame.NoFlush 0x5000 ∧
      reusedFrame.tlb (reusedFrame.slot 0x5000) 5 = some ⟨77, 1⟩) ∧
    (Reaches State.Step (State.boot 0x1000 fun _ => none) protectedRemotely ∧
      protectedRemotely.live 0x5000 = some 1 ∧ protectedRemotely.NoFlush 0x5000 ∧
      protectedRemotely.tlb (protectedRemotely.slot 0x5000) 5 = some ⟨77, 1⟩ ∧
      protectedRemotely.walk 1 5 = some 78) ∧
    Reaches State.Step (State.boot 0x1000 fun _ => none) unmappedRemotely ∧
      unmappedRemotely.live 0x5000 = some 1 ∧ unmappedRemotely.NoFlush 0x5000 ∧
      unmappedRemotely.tlb (unmappedRemotely.slot 0x5000) 5 = some ⟨77, 1⟩ ∧
      unmappedRemotely.walk 1 5 = none := by
  refine ⟨⟨reaches_run step _ _, ?_, ?_, ?_⟩, ⟨reaches_run step _ _, ?_, ?_, ?_, ?_⟩,
    reaches_run step _ _, ?_, ?_, ?_, ?_⟩
  all_goals decide +kernel

end AuraLite.Pcid
